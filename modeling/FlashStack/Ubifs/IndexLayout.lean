/-
  Where the nodes of a commit go (`layout_in_empty_space`).

  Both loops of the commit keep a buffer, which they flush when it is full and before they leave a
  LEB.  The buffer has no influence on the positions: they are those of next-fit placement, with
  the index head as the first bin and the empty LEBs as the further ones.

  `Laid` carries which znodes have a place so far: they have it in their own fields and in the
  branch of their parent, and all other fields are as they were.
-/
import FlashStack.Lib.NextFit
import FlashStack.Ubifs.IndexList

open Lib

namespace Ubifs.Index

variable {K : Type}

/-- What mounting makes sure of. -/
structure Geometry.Valid (g : Geometry) : Prop where
  minIo_pos : 0 < g.minIo
  word : 8 ∣ g.minIo
  io : g.minIo ∣ g.lebSize
  fits : idxNodeSz g.fanout ≤ g.lebSize

namespace Geometry.Valid

variable {g : Geometry}

theorem leb_word (h : g.Valid) : 8 ∣ g.lebSize := Nat.dvd_trans h.word h.io

/-- Both loops have buffers of the same length. -/
theorem bufLen_eq (h : g.Valid) : g.writeBufLen = g.layoutBufLen := by
  exact align_align h.minIo_pos (by decide) h.word

/-- An index node fits in a LEB. -/
theorem maxIdxNodeSz_le (h : g.Valid) : g.maxIdxNodeSz ≤ g.lebSize :=
  align_le (by omega) h.fits h.leb_word

theorem maxIdxNodeSz_le_bufLen (h : g.Valid) : g.maxIdxNodeSz ≤ g.layoutBufLen := by
  rw [← h.bufLen_eq]
  exact le_align h.minIo_pos

/-- The buffer is a multiple of the write unit. -/
theorem bufLen_io (g : Geometry) : g.minIo ∣ g.layoutBufLen := dvd_align

theorem bufLen_word (h : g.Valid) : 8 ∣ g.layoutBufLen := Nat.dvd_trans h.word (bufLen_io g)

theorem minIo_ne_one (h : g.Valid) : g.minIo ≠ 1 := by
  obtain ⟨k, hk⟩ := h.word
  omega

end Geometry.Valid

/-- No index node is empty. -/
theorem idxNodeSz_pos (n : Nat) : 0 < idxNodeSz n := by
  unfold idxNodeSz ubifsIdxNodeSz
  omega

theorem align_idxNodeSz_pos (n : Nat) : 0 < align (idxNodeSz n) 8 :=
  Nat.lt_of_lt_of_le (idxNodeSz_pos n) (align_eight _).1

theorem maxIdxNodeSz_pos (g : Geometry) : 0 < g.maxIdxNodeSz := align_idxNodeSz_pos _

/-- A node with as many branches as the fanout is the largest. -/
theorem align_idxNodeSz_le {g : Geometry} {n : Nat} (h : n ≤ g.fanout) :
    align (idxNodeSz n) 8 ≤ g.maxIdxNodeSz :=
  align_mono (Nat.add_le_add_left (Nat.mul_le_mul_left _ h) _)

/-! ## Cursors -/

namespace Cursor

/-- The next node goes to `lnum:o`. -/
structure On (g : Geometry) (w : Cursor) (lnum o : Nat) : Prop where
  leb : w.lnum = some lnum
  place : w.bufOffs + w.used = o
  io : g.minIo ∣ w.bufOffs
  word : 8 ∣ w.used
  avail : w.avail = (g.layoutBufLen : Int) - w.used
  room : w.used < g.layoutBufLen

/-- Bin `b` of the LEBs is filled up to `o`, and a node of the size `s` comes next. -/
inductive Before (g : Geometry) (lebs : List Nat) (w : Cursor) (b o s : Nat) : Prop
  | fits {lnum : Nat} : o + s ≤ g.lebSize → lebs[b]? = some lnum → w.On g lnum o → w.nxt = b →
      Before g lebs w b o s
  | opens : ¬o + s ≤ g.lebSize → w.lnum = none → w.used = 0 → w.nxt = b → Before g lebs w b o s

variable {g : Geometry} {w : Cursor} {lnum head b o len : Nat} {ilebs : List Nat}

/-- A node and what is left behind it fill whole words, so that only whole words count. -/
theorem fits_iff (hg : g.Valid) (ho : 8 ∣ o) (len : Nat) :
    o + align len 8 ≤ g.lebSize ↔ o + len ≤ g.lebSize := by
  have := align_eight len
  obtain ⟨k, hk⟩ := hg.leb_word
  omega

/-- Nodes are at multiples of eight bytes. -/
theorem On.place_word (hg : g.Valid) (h : w.On g lnum o) : 8 ∣ o := by
  rw [← h.place]
  exact Nat.dvd_add (Nat.dvd_trans hg.word h.io) h.word

/-- Where the layout starts. -/
theorem start_before (hg : g.Valid) {c : Info K} (hio : g.minIo ∣ c.iheadOffs)
    (ilebs : List Nat) (len : Nat) :
    (start g c g.layoutBufLen len).Before g (c.iheadLnum :: ilebs) 0 c.iheadOffs (align len 8) := by
  have hfits := fits_iff hg (Nat.dvd_trans hg.word hio) len
  by_cases h : c.iheadOffs + len ≤ g.lebSize
  · refine .fits (hfits.mpr h) rfl ⟨?_, rfl, hio, Nat.dvd_zero 8, ?_, ?_⟩ rfl
    · simp only [start, if_neg (Nat.not_lt.mpr h)]
    · exact (Int.sub_zero _).symm
    · exact Nat.lt_of_lt_of_le (maxIdxNodeSz_pos g) hg.maxIdxNodeSz_le_bufLen
  · refine .opens (mt hfits.mp h) ?_ rfl rfl
    simp only [start, if_pos (Nat.lt_of_not_le h)]

/-- A node is placed as next-fit places it. -/
theorem Before.nextLeb (hg : g.Valid) {s : Nat} (h : w.Before g (head :: ilebs) b o s)
    {p : Nat × Nat} (hp : p = if o + s ≤ g.lebSize then (b, o) else (b + 1, 0))
    (hleb : (head :: ilebs)[p.1]? = some lnum) :
    ∃ w', w.nextLeb g.layoutBufLen ilebs = some w' ∧ w'.On g lnum p.2 ∧ w'.nxt = p.1 := by
  cases h with
  | fits hfit hb hon hn =>
    rw [if_pos hfit] at hp
    subst hp
    obtain rfl := Option.some.inj (hb.symm.trans hleb)
    exact ⟨w, by simp only [Cursor.nextLeb, hon.leb], hon, hn⟩
  | opens hfit hnone _ hn =>
    rw [if_neg hfit] at hp
    subst hp
    have hleb : ilebs[w.nxt]? = some lnum := by
      rw [hn]
      exact hleb
    let w' : Cursor :=
      { lnum := some lnum, bufOffs := 0, used := 0, avail := g.layoutBufLen, nxt := w.nxt + 1 }
    have hon : w'.On g lnum 0 := by
      refine ⟨rfl, rfl, Nat.dvd_zero _, Nat.dvd_zero 8, (Int.sub_zero _).symm, ?_⟩
      exact Nat.lt_of_lt_of_le (maxIdxNodeSz_pos g) hg.maxIdxNodeSz_le_bufLen
    exact ⟨w', by simp only [Cursor.nextLeb, hnone, hleb, w'], hon, congrArg (· + 1) hn⟩

/-- What the advance over a node makes of the buffer: it is kept, it is full, or it is flushed to
    its end. -/
inductive Advanced (g : Geometry) (w : Cursor) (len nextLen : Nat) : Cursor → Prop
  | keep : nextLen ≠ 0 → w.bufOffs + (w.used + align len 8) + nextLen ≤ g.lebSize →
      w.used + align len 8 < g.layoutBufLen →
      Advanced g w len nextLen
        { w with used := w.used + align len 8, avail := w.avail - align len 8 }
  | full : nextLen ≠ 0 → w.bufOffs + (w.used + align len 8) + nextLen ≤ g.lebSize →
      g.layoutBufLen ≤ w.used + align len 8 →
      Advanced g w len nextLen
        { w with
          bufOffs := w.bufOffs + g.layoutBufLen
          used := w.used + align len 8 - g.layoutBufLen
          avail := g.layoutBufLen - (w.used + align len 8 - g.layoutBufLen : Nat) }
  | leave : nextLen ≠ 0 → ¬w.bufOffs + (w.used + align len 8) + nextLen ≤ g.lebSize →
      Advanced g w len nextLen
        { w with
          lnum := none
          bufOffs := w.bufOffs + align (w.used + len) g.minIo
          used := 0
          avail := g.layoutBufLen }
  | last : nextLen = 0 →
      Advanced g w len nextLen
        { w with
          bufOffs := w.bufOffs + align (w.used + len) g.minIo
          used := w.used + align len 8
          avail := w.avail - align len 8 }

/-- Whole I/O units cover whole words. -/
theorem On.flushed (hg : g.Valid) (h : w.On g lnum o) (len : Nat) :
    w.used + align len 8 ≤ align (w.used + len) g.minIo := by
  have hle : w.used + len ≤ align (w.used + len) g.minIo := le_align hg.minIo_pos
  have hword : 8 ∣ align (w.used + len) g.minIo := Nat.dvd_trans hg.word dvd_align
  have hused := h.word
  have hlen := align_eight len
  omega

/-- The layout goes on to the next znode. -/
theorem On.advanced (hg : g.Valid) (h : w.On g lnum o) (len nextLen : Nat) :
    Advanced g w len nextLen (w.layoutAdvance g len nextLen) := by
  have havail := h.avail
  have hflush := h.flushed hg len
  have hio := hg.minIo_ne_one
  by_cases hn : nextLen = 0
  · have heq : w.layoutAdvance g len nextLen = { w with
        bufOffs := w.bufOffs + align (w.used + len) g.minIo
        used := w.used + align len 8
        avail := w.avail - align len 8 } := by
      simp [layoutAdvance, hio, hn]
    rw [heq]
    exact .last hn
  by_cases hfit : w.bufOffs + (w.used + align len 8) + nextLen ≤ g.lebSize
  · by_cases hroom : w.used + align len 8 < g.layoutBufLen
    · have hpos : 0 < w.avail - align len 8 := by omega
      have heq : w.layoutAdvance g len nextLen = { w with
          used := w.used + align len 8, avail := w.avail - align len 8 } := by
        rw [layoutAdvance, if_neg hio]
        exact if_pos ⟨hn, hfit, hpos⟩
      rw [heq]
      exact .keep hn hfit hroom
    · have hpos : ¬0 < w.avail - align len 8 := by omega
      have hstay : ¬w.bufOffs + g.layoutBufLen + nextLen > g.lebSize := by omega
      have heq : w.layoutAdvance g len nextLen = { w with
          bufOffs := w.bufOffs + g.layoutBufLen
          used := w.used + align len 8 - g.layoutBufLen
          avail := g.layoutBufLen - (w.used + align len 8 - g.layoutBufLen : Nat) } := by
        simp only [layoutAdvance, if_neg hio, hn, hfit, hpos, hstay, Int.not_lt.mp hpos,
          ne_eq, not_false_eq_true, and_false, and_true, if_true, if_false]
      rw [heq]
      exact .full hn hfit (Nat.not_lt.mp hroom)
  · have hleave : w.bufOffs + align (w.used + len) g.minIo + nextLen > g.lebSize := by omega
    have hzero : w.used + align len 8 - align (w.used + len) g.minIo = 0 := by omega
    have heq : w.layoutAdvance g len nextLen = { w with
        lnum := none
        bufOffs := w.bufOffs + align (w.used + len) g.minIo
        used := 0
        avail := g.layoutBufLen } := by
      simp only [layoutAdvance, if_neg hio, hn, hfit, hleave, hzero, ne_eq, not_false_eq_true,
        false_and, and_false, if_true, if_false]
      rfl
    rw [heq]
    exact .leave hn hfit

/-- The loop ends at the next I/O unit. -/
theorem On.advance_last (hg : g.Valid) (h : w.On g lnum o) (len : Nat) :
    (w.layoutAdvance g len 0).lnum = some lnum ∧
      (w.layoutAdvance g len 0).bufOffs = align (o + len) g.minIo := by
  have ha := h.advanced hg len 0
  rw [← h.place, Nat.add_assoc, align_add hg.minIo_pos h.io]
  generalize w.layoutAdvance g len 0 = w' at ha
  cases ha with
  | keep h0 => exact absurd rfl h0
  | full h0 => exact absurd rfl h0
  | leave h0 => exact absurd rfl h0
  | last => exact ⟨h.leb, rfl⟩

/-- After a node the cursor is where next-fit goes on. -/
theorem Advanced.before (hg : g.Valid) {w' : Cursor} {lebs : List Nat} {nextLen : Nat}
    (ha : Advanced g w len nextLen w') (h : w.On g lnum o) (hleb : lebs[b]? = some lnum)
    (hb : w.nxt = b) (hlen : align len 8 ≤ g.layoutBufLen) (hn : nextLen ≠ 0) :
    w'.Before g lebs b (o + align len 8) (align nextLen 8) := by
  have havail := h.avail
  have hroom := h.room
  have hplace := h.place
  have hword : 8 ∣ o + align len 8 := Nat.dvd_add (h.place_word hg) dvd_align
  have hfits := fits_iff hg hword nextLen
  have hused : 8 ∣ w.used + align len 8 := Nat.dvd_add h.word dvd_align
  cases ha with
  | keep _ hfit hlt =>
    refine .fits (hfits.mpr (by omega)) hleb ⟨h.leb, ?_, h.io, hused, ?_, hlt⟩ hb
    · show w.bufOffs + (w.used + align len 8) = o + align len 8
      omega
    · show w.avail - (align len 8 : Int) = (g.layoutBufLen : Int) - (w.used + align len 8 : Nat)
      omega
  | full _ hfit hge =>
    refine .fits (hfits.mpr (by omega)) hleb ⟨h.leb, ?_, ?_, ?_, rfl, ?_⟩ hb
    · show w.bufOffs + g.layoutBufLen + (w.used + align len 8 - g.layoutBufLen) = o + align len 8
      omega
    · exact Nat.dvd_add h.io (Geometry.Valid.bufLen_io g)
    · exact Nat.dvd_sub hused hg.bufLen_word
    · show w.used + align len 8 - g.layoutBufLen < g.layoutBufLen
      omega
  | leave _ hfit =>
    exact .opens (mt hfits.mp (by omega)) rfl rfl hb
  | last h0 => exact absurd h0 hn

end Cursor

/-! ## Assigning positions -/

/-- What is known of the places of znodes. -/
abbrev Places := Nat → Option Pos

/-- The branch gets the place of its znode. -/
def Zbranch.placed (P : Places) (zbr : Zbranch K) : Zbranch K :=
  match zbr.znode.bind P with
  | none => zbr
  | some p => { zbr with lnum := p.lnum, offs := p.offs, len := p.len }

/-- All branches get the places of their znodes, and so does the one above. -/
def Znode.placed (P : Places) (a : Nat) (z : Znode K) : Znode K :=
  let zbranch := z.zbranch.map (Zbranch.placed P)
  match P a with
  | none => { z with zbranch }
  | some p => { z with lnum := p.lnum, offs := p.offs, len := p.len, zbranch }

section

variable {P : Places} {a x : Nat} {z : Znode K} {zbr : Zbranch K} {p : Pos}

@[simp] theorem Zbranch.placed_key : (zbr.placed P).key = zbr.key := by
  unfold Zbranch.placed
  split <;> rfl

@[simp] theorem Zbranch.placed_znode : (zbr.placed P).znode = zbr.znode := by
  unfold Zbranch.placed
  split <;> rfl

/-- A place is given to the branch of its znode only. -/
theorem Zbranch.placed_other (h : zbr.znode ≠ some a) :
    zbr.placed (Function.update P a (some p)) = zbr.placed P := by
  cases hx : zbr.znode with
  | none => simp only [Zbranch.placed, hx, Option.bind_none]
  | some x =>
    have hxa : x ≠ a := fun he => h (he ▸ hx)
    simp only [Zbranch.placed, hx, Option.bind_some, Function.update_of_ne hxa]

/-- That branch gets it. -/
theorem Zbranch.placed_self (h : zbr.znode = some a) :
    zbr.placed (Function.update P a (some p)) =
      { zbr.placed P with lnum := p.lnum, offs := p.offs, len := p.len } := by
  simp only [Zbranch.placed, h, Option.bind_some, Function.update_self]
  cases P a <;> simp only [h]

@[simp] theorem Znode.placed_parent : (z.placed P a).parent = z.parent := by
  unfold Znode.placed
  split <;> rfl

@[simp] theorem Znode.placed_iip : (z.placed P a).iip = z.iip := by
  unfold Znode.placed
  split <;> rfl

@[simp] theorem Znode.placed_cnext : (z.placed P a).cnext = z.cnext := by
  unfold Znode.placed
  split <;> rfl

@[simp] theorem Znode.placed_level : (z.placed P a).level = z.level := by
  unfold Znode.placed
  split <;> rfl

@[simp] theorem Znode.placed_zbranch : (z.placed P a).zbranch = z.zbranch.map (Zbranch.placed P) := by
  unfold Znode.placed
  split <;> rfl

@[simp] theorem Znode.placed_childCnt : (z.placed P a).childCnt = z.childCnt := by
  simp [Znode.childCnt]

/-- A znode that has a place has it in its own fields, too. -/
theorem Znode.placed_at (h : P a = some p) :
    (z.placed P a).lnum = p.lnum ∧ (z.placed P a).offs = p.offs ∧ (z.placed P a).len = p.len := by
  simp [Znode.placed, h]

end

namespace Info

/-- The places `P` have been written down in the znodes and in their parents. -/
structure Laid (c₀ : Info K) (P : Places) (c : Info K) : Prop where
  znodes {a : Nat} {z : Znode K} : c₀.InTree a → c₀.mem a = some z →
    c.mem a = some (z.placed P a)
  zroot : c.zroot = c₀.zroot.placed P
  same : c = { c₀ with
    mem := c.mem, zroot := c.zroot, calcIdxSz := c.calcIdxSz, dirtyZnCnt := c.dirtyZnCnt }

variable {c₀ c : Info K} {P : Places} {a x : Nat} {z y : Znode K} {p : Pos}

/-- One more place: a znode that is not the parent stays as it is, but for its own place. -/
theorem Tree.placed_other (t : c₀.Tree) (hx : c₀.InTree x) (hy : c₀.mem x = some y)
    (hz : c₀.mem a = some z) (hp : z.parent ≠ some x) :
    y.zbranch.map (Zbranch.placed (Function.update P a (some p))) =
      y.zbranch.map (Zbranch.placed P) := by
  refine List.map_congr_left fun zbr hb => Zbranch.placed_other fun ha => hp ?_
  obtain ⟨n, hn⟩ := List.mem_iff_getElem?.mp hb
  exact (t.child_unique hx hy hn ha hz).1

/-- The parent has it in the branch that leads to the znode. -/
theorem Tree.placed_parent (t : c₀.Tree) (hx : c₀.InTree x) (hy : c₀.mem x = some y)
    (hz : c₀.mem a = some z) {zbr : Zbranch K} (hb : y.zbranch[z.iip]? = some zbr)
    (ha : zbr.znode = some a) :
    y.zbranch.map (Zbranch.placed (Function.update P a (some p))) =
      (y.zbranch.map (Zbranch.placed P)).modify z.iip fun zbr =>
        { zbr with lnum := p.lnum, offs := p.offs, len := p.len } := by
  refine List.ext_getElem? fun n => ?_
  rw [List.getElem?_modify, List.getElem?_map, List.getElem?_map]
  by_cases hn : z.iip = n
  · subst hn
    simp only [hb, if_true]
    exact congrArg some (Zbranch.placed_self ha)
  · simp only [hn, if_false]
    cases hm : y.zbranch[n]? with
    | none => rfl
    | some zbr' =>
      refine congrArg some (Zbranch.placed_other fun ha' => hn ?_)
      exact (t.child_unique hx hy hm ha' hz).2

/-- The znode that gets a place. -/
theorem Znode.placed_update_self
    (hb : z.zbranch.map (Zbranch.placed (Function.update P a (some p))) =
      z.zbranch.map (Zbranch.placed P)) :
    z.placed (Function.update P a (some p)) a =
      { z.placed P a with lnum := p.lnum, offs := p.offs, len := p.len } := by
  simp only [Znode.placed, Function.update_self, hb]
  cases P a <;> rfl

/-- Another znode. -/
theorem Znode.placed_update_other (h : x ≠ a)
    (hb : z.zbranch.map (Zbranch.placed (Function.update P a (some p))) =
      z.zbranch.map (Zbranch.placed P)) :
    z.placed (Function.update P a (some p)) x = z.placed P x := by
  simp only [Znode.placed, Function.update_of_ne h, hb]

/-- Its parent gets it in the branch. -/
theorem Znode.placed_update_parent (h : x ≠ a) {n : Nat} {f : Zbranch K → Zbranch K}
    (hb : z.zbranch.map (Zbranch.placed (Function.update P a (some p))) =
      (z.zbranch.map (Zbranch.placed P)).modify n f) :
    z.placed (Function.update P a (some p)) x =
      { z.placed P x with zbranch := (z.placed P x).zbranch.modify n f } := by
  simp only [Znode.placed, Function.update_of_ne h, hb]
  cases P x <;> rfl

/-- `layout_in_empty_space` writes down one more place. -/
theorem Laid.assign (t : c₀.Tree) (h : Laid c₀ P c) (ha : c₀.InTree a) (hz : c₀.mem a = some z)
    (p : Pos) : Laid c₀ (Function.update P a (some p))
      (c.assign a (z.placed P a) p.lnum p.offs p.len) := by
  have hca := h.znodes ha hz
  have hself := mem_modify_self
    (f := fun z : Znode K => { z with lnum := p.lnum, offs := p.offs, len := p.len }) hca
  -- The place is written down in the root pointer, or in the parent `q`, besides the znode itself.
  rcases t.place ha hz with ⟨hr, hp⟩ | ⟨q, zq, zbr, hq, hzq, hp, hb, hx, hl⟩
  · have heq : c.assign a (z.placed P a) p.lnum p.offs p.len =
        { c.modify a fun z => { z with lnum := p.lnum, offs := p.offs, len := p.len } with
          zroot := { c.zroot with lnum := p.lnum, offs := p.offs, len := p.len }
          calcIdxSz := c.calcIdxSz + align p.len 8, dirtyZnCnt := c.dirtyZnCnt - 1 } := by
      simp only [Info.assign, Znode.placed_parent, hp]
      rfl
    rw [heq]
    -- the znodes, the pointer to the root, and all the rest
    refine ⟨fun {x y} hin hy => ?_, ?_, ?_⟩
    · have hother := t.placed_other (P := P) (p := p) hin hy hz (by simp [hp])
      by_cases hxa : x = a
      · subst hxa
        obtain rfl := Option.some.inj (hz.symm.trans hy)
        rw [Znode.placed_update_self hother]
        exact hself
      · rw [Znode.placed_update_other hxa hother, ← h.znodes hin hy]
        exact mem_modify hxa
    · rw [Zbranch.placed_self hr, ← h.zroot]
    · rw [h.same]
      rfl
  · have hqa : q ≠ a := by
      rintro rfl
      obtain rfl := Option.some.inj (hz.symm.trans hzq)
      omega
    have heq : c.assign a (z.placed P a) p.lnum p.offs p.len =
        { (c.modify a fun z => { z with lnum := p.lnum, offs := p.offs, len := p.len }).modify q
            fun zq => { zq with zbranch := zq.zbranch.modify z.iip fun zbr =>
              { zbr with lnum := p.lnum, offs := p.offs, len := p.len } } with
          calcIdxSz := c.calcIdxSz + align p.len 8, dirtyZnCnt := c.dirtyZnCnt - 1 } := by
      simp only [Info.assign, Znode.placed_parent, Znode.placed_iip, hp]
      rfl
    rw [heq]
    refine ⟨fun {x y} hin hy => ?_, ?_, ?_⟩
    · -- the parent gets a new branch, the znode its place, others neither
      by_cases hxq : x = q
      · subst hxq
        obtain rfl := Option.some.inj (hzq.symm.trans hy)
        rw [Znode.placed_update_parent hqa (t.placed_parent hin hy hz hb hx)]
        exact mem_modify_self ((mem_modify hqa).trans (h.znodes hin hy))
      have hother := t.placed_other (P := P) (p := p) hin hy hz (by simpa [hp] using Ne.symm hxq)
      refine (mem_modify hxq).trans ?_
      by_cases hxa : x = a
      · subst hxa
        obtain rfl := Option.some.inj (hz.symm.trans hy)
        rw [Znode.placed_update_self hother]
        exact hself
      · rw [Znode.placed_update_other hxa hother, ← h.znodes hin hy]
        exact mem_modify hxa
    · -- zroot: `a` has a parent, so it is not the root
      have hroot : c₀.zroot.znode ≠ some a := by
        intro hr
        obtain ⟨z', hz', hp'⟩ := t.root hr
        obtain rfl := Option.some.inj (hz.symm.trans hz')
        rw [hp] at hp'
        cases hp'
      rw [Zbranch.placed_other hroot, ← h.zroot]
      rfl
    · rw [h.same]
      rfl

/-- The length of the node of a znode. -/
def nodeLen (c : Info K) (a : Nat) : Nat := ((c.mem a).map fun z => idxNodeSz z.childCnt).getD 0

/-- The length of a znode on the media. -/
theorem nodeLen_eq (hz : c.mem a = some z) : c.nodeLen a = idxNodeSz z.childCnt := by
  simp [nodeLen, hz]

/-- The room that the node of a znode takes. -/
def nodeRoom (c : Info K) (a : Nat) : Nat := align (c.nodeLen a) 8

/-- The places of the znodes `l`, when bin `b` of `lebs` is filled up to `o`. -/
structure Fitted (g : Geometry) (c : Info K) (lebs : List Nat) (b o : Nat) (l : List Nat)
    (P : Places) : Prop where
  fitted {q : Nat × Nat × Nat} : q ∈ l.zip (nextFit g.lebSize b o (l.map c.nodeRoom)) →
    ∃ lnum, lebs[q.2.1]? = some lnum ∧ P q.1 = some ⟨lnum, q.2.2, c.nodeLen q.1⟩

/-- One turn of the loop. -/
theorem layoutLoop_succ {g : Geometry} {w w' : Cursor} {lnum n len nextLen : Nat}
    (hz : c.mem a = some z) (hl : idxNodeSz z.childCnt = len) (hw : w.nextLeb g.layoutBufLen c.ilebs = some w')
    (hlnum : w'.lnum = some lnum) (hn : z.cnext = some n) {c' : Info K}
    (hc' : c' = c.assign a z lnum (w'.bufOffs + w'.used) len) (hlen : c'.nextLen n = some nextLen)
    (fuel : Nat) : layoutLoop g (fuel + 1) w a c =
      if nextLen ≠ 0 then layoutLoop g fuel (w'.layoutAdvance g len nextLen) n c'
      else
        some
          { c' with
            ilebNxt := (w'.layoutAdvance g len nextLen).nxt, newIheadLnum := lnum
            newIheadOffs := (w'.layoutAdvance g len nextLen).bufOffs } := by
  subst hc' hl
  simp only [layoutLoop, hz, hw, hlnum, hn, hlen]

/-- One round of `layout_in_empty_space`. -/
theorem Laid.round {g : Geometry} (hg : g.Valid) (t : c₀.Tree) (h : Laid c₀ P c)
    (ha : c₀.InTree a) {w : Cursor} {b o lnum : Nat} {e : Nat × Nat}
    (hw : w.Before g (c₀.iheadLnum :: c₀.ilebs) b o (c₀.nodeRoom a))
    (he : e = if o + c₀.nodeRoom a ≤ g.lebSize then (b, o) else (b + 1, 0))
    (hleb : (c₀.iheadLnum :: c₀.ilebs)[e.1]? = some lnum) :
    ∃ (w' : Cursor) (c' : Info K), w'.On g lnum e.2 ∧ w'.nxt = e.1 ∧
      Laid c₀ (Function.update P a (some ⟨lnum, e.2, c₀.nodeLen a⟩)) c' ∧
      ∀ n nextLen fuel, c₀.cnextOf a = some n → c'.nextLen n = some nextLen →
        layoutLoop g (fuel + 1) w a c =
          if nextLen ≠ 0 then
            layoutLoop g fuel (w'.layoutAdvance g (c₀.nodeLen a) nextLen) n c'
          else
            some
              { c' with
                ilebNxt := (w'.layoutAdvance g (c₀.nodeLen a) nextLen).nxt, newIheadLnum := lnum
                newIheadOffs := (w'.layoutAdvance g (c₀.nodeLen a) nextLen).bufOffs } := by
  obtain ⟨z, hz⟩ := t.live ha
  obtain ⟨w', hw', hon, hnxt⟩ := hw.nextLeb hg he hleb
  have hlen : idxNodeSz (z.placed P a).childCnt = c₀.nodeLen a := by
    rw [nodeLen_eq hz, Znode.placed_childCnt]
  refine ⟨w', _, hon, hnxt, h.assign t ha hz ⟨lnum, e.2, c₀.nodeLen a⟩, ?_⟩
  intro n nextLen fuel hn hnext
  have hilebs : c.ilebs = c₀.ilebs := by rw [h.same]
  refine layoutLoop_succ (h.znodes ha hz) hlen (hilebs ▸ hw') hon.leb ?_ ?_ hnext fuel
  · simpa [cnextOf, hz] using hn
  · rw [hon.place]

theorem Laid.nextLen_first (h : Laid c₀ P c) {first : Nat} (hfirst : c₀.cnext = some first) :
    c.nextLen first = some 0 := by
  have hc : c.cnext = some first := by rw [h.same, hfirst]
  exact if_pos hc.symm

/-- The length of the next znode of the list. -/
theorem Laid.nextLen (t : c₀.Tree) (h : Laid c₀ P c) {first : Nat} (hfirst : c₀.cnext = some first)
    (hx : c₀.InTree x) (hne : x ≠ first) : c.nextLen x = some (c₀.nodeLen x) := by
  obtain ⟨y, hy⟩ := t.live hx
  have hc : some x ≠ c.cnext := by
    rw [h.same, hfirst]
    exact fun he => hne (Option.some.inj he)
  rw [Info.nextLen, if_neg hc, h.znodes hx hy, nodeLen_eq hy, Option.map_some, Znode.placed_childCnt]

/-- All nodes fit into the buffer. -/
theorem nodeRoom_le {g : Geometry} (hg : g.Valid) (t : c₀.Tree)
    (hfan : ∀ {a z}, c₀.InTree a → c₀.mem a = some z → z.childCnt ≤ g.fanout)
    (ha : c₀.InTree a) : c₀.nodeRoom a ≤ g.layoutBufLen := by
  obtain ⟨z, hz⟩ := t.live ha
  rw [nodeRoom, nodeLen_eq hz]
  exact Nat.le_trans (align_idxNodeSz_le (hfan ha hz)) hg.maxIdxNodeSz_le_bufLen

theorem nodeLen_pos (t : c₀.Tree) (ha : c₀.InTree a) : 0 < c₀.nodeLen a := by
  obtain ⟨z, hz⟩ := t.live ha
  rw [nodeLen_eq hz]
  exact idxNodeSz_pos _

/-- The places that `layout_in_empty_space` finds, from one znode of the list on. -/
theorem layoutLoop_laid {g : Geometry} (hg : g.Valid) (t : c₀.Tree)
    (hfan : ∀ {a z}, c₀.InTree a → c₀.mem a = some z → z.childCnt ≤ g.fanout) {first : Nat}
    (hfirst : c₀.cnext = some first) (fuel : Nat) (l : List Nat) :
    ∀ (a : Nat) (P : Places) (c : Info K) (w : Cursor) (b o : Nat),
      Linked c₀.cnextOf (some a) (a :: l) (some first) → first ∉ l → (a :: l).Nodup →
      (∀ x ∈ a :: l, c₀.InTree x) → Laid c₀ P c →
      w.Before g (c₀.iheadLnum :: c₀.ilebs) b o (c₀.nodeRoom a) →
      (∀ p ∈ nextFit g.lebSize b o ((a :: l).map c₀.nodeRoom), p.1 ≤ c₀.ilebs.length) →
      ∃ P' c₁ c', layoutLoop g (fuel + (l.length + 1)) w a c = some c' ∧ Laid c₀ P' c₁ ∧
        c' = { c₁ with
          ilebNxt := c'.ilebNxt, newIheadLnum := c'.newIheadLnum, newIheadOffs := c'.newIheadOffs } ∧
        (∀ x, x ∉ a :: l → P' x = P x) ∧
        Fitted g c₀ (c₀.iheadLnum :: c₀.ilebs) b o (a :: l) P' ∧
        ∀ x p, (a :: l).getLast? = some x → P' x = some p →
          c'.newIheadLnum = p.lnum ∧ c'.newIheadOffs = align (p.offs + p.len) g.minIo := by
  induction l with
  | nil =>
    -- The last znode: the head of the next commit is behind its node.
    intro a P c w b o hlink hfst hnd hin hlaid hw hbins
    have ha := hin a (List.mem_cons_self ..)
    obtain ⟨e, he⟩ : ∃ e, e = if o + c₀.nodeRoom a ≤ g.lebSize then (b, o) else (b + 1, 0) :=
      ⟨_, rfl⟩
    have hcons : nextFit g.lebSize b o ([a].map c₀.nodeRoom) = [e] := Lib.NextFit.cons_eq he
    have hbin : e.1 < (c₀.iheadLnum :: c₀.ilebs).length :=
      Nat.lt_succ_of_le (hbins e (hcons ▸ List.mem_cons_self ..))
    obtain ⟨lnum, hleb⟩ : ∃ lnum, (c₀.iheadLnum :: c₀.ilebs)[e.1]? = some lnum :=
      ⟨_, List.getElem?_eq_getElem hbin⟩
    -- `e` is where the node goes: behind the one before, or in the next LEB.
    obtain ⟨w', c', hon, -, hlaid', hrun⟩ := hlaid.round hg t ha hw he hleb
    have hlast := hrun first 0 fuel hlink.2 (hlaid'.nextLen_first hfirst)
    refine ⟨_, c', _, hlast, hlaid', rfl, ?_, ⟨?_⟩, ?_⟩
    · intro x hx
      exact Function.update_of_ne (by simpa using hx) _ _
    · intro q hq
      rw [hcons] at hq
      obtain rfl : q = (a, e) := by simpa using hq
      exact ⟨lnum, hleb, Function.update_self ..⟩
    · intro x p hx hp
      obtain rfl : a = x := by simpa using hx
      rw [Function.update_self] at hp
      obtain rfl := Option.some.inj hp
      exact ⟨rfl, (hon.advance_last hg _).2⟩
  | cons x l ih =>
    -- After the round for `a` the cursor is behind its node, or in a fresh LEB if the next does not fit.
    intro a P c w b o hlink hfst hnd hin hlaid hw hbins
    have ha := hin a (List.mem_cons_self ..)
    have hx := hin x (List.mem_cons_of_mem _ (List.mem_cons_self ..))
    obtain ⟨e, he⟩ : ∃ e, e = if o + c₀.nodeRoom a ≤ g.lebSize then (b, o) else (b + 1, 0) :=
      ⟨_, rfl⟩
    have hcons : nextFit g.lebSize b o ((a :: x :: l).map c₀.nodeRoom) =
        e :: nextFit g.lebSize e.1 (e.2 + c₀.nodeRoom a) ((x :: l).map c₀.nodeRoom) :=
      Lib.NextFit.cons_eq he
    rw [hcons] at hbins
    have hbin : e.1 < (c₀.iheadLnum :: c₀.ilebs).length :=
      Nat.lt_succ_of_le (hbins e (List.mem_cons_self ..))
    obtain ⟨lnum, hleb⟩ : ∃ lnum, (c₀.iheadLnum :: c₀.ilebs)[e.1]? = some lnum :=
      ⟨_, List.getElem?_eq_getElem hbin⟩
    obtain ⟨w', c', hon, hnxt, hlaid', hrun⟩ := hlaid.round hg t ha hw he hleb
    have hne : x ≠ first := fun he => hfst (he ▸ List.mem_cons_self ..)
    have hpos := (nodeLen_pos t hx).ne'
    have hnext := hrun x (c₀.nodeLen x) (fuel + (l.length + 1)) hlink.2.1
      (hlaid'.nextLen t hfirst hx hne)
    rw [if_pos hpos] at hnext
    have hbefore := (hon.advanced hg (c₀.nodeLen a) (c₀.nodeLen x)).before hg hon hleb hnxt
      (nodeRoom_le hg t hfan ha) hpos
    have hlink' : Linked c₀.cnextOf (some x) (x :: l) (some first) := hlink.2.1 ▸ hlink.2
    obtain ⟨P', c₁, c'', hloop, hlaid₁, hsame, hP, hfit, hend⟩ := ih x _ c' _ e.1 _ hlink'
      (fun hl => hfst (List.mem_cons_of_mem _ hl)) (List.nodup_cons.mp hnd).2
      (fun y hy => hin y (List.mem_cons_of_mem _ hy)) hlaid' hbefore
      fun p hp => hbins p (List.mem_cons_of_mem _ hp)
    have hPa : P' a = some ⟨lnum, e.2, c₀.nodeLen a⟩ :=
      (hP a (List.nodup_cons.mp hnd).1).trans (Function.update_self ..)
    refine ⟨P', c₁, c'', hnext.trans hloop, hlaid₁, hsame, ?_, ⟨?_⟩, ?_⟩
    · intro y hy
      rw [List.mem_cons, not_or] at hy
      rw [hP y hy.2]
      exact Function.update_of_ne hy.1 _ _
    · intro q hq
      rw [hcons, List.zip_cons_cons] at hq
      rcases List.mem_cons.mp hq with rfl | hq
      · exact ⟨lnum, hleb, hPa⟩
      · exact hfit.fitted hq
    · intro y p hy hp
      exact hend y p (by simpa using hy) hp

end Info

end Ubifs.Index
