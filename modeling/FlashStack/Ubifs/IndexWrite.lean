/-
  Writing the index (`write_index`).

  At any time a part of what has been made is on the flash, and the rest is in the commit buffer,
  which goes on where the flash ends.  `view` puts the two together: it only ever grows, and at the
  end of the loop it is the flash.

  `Jobs` are the znodes that are still to be written, at the places that next-fit gives them;
  `Fresh` says that nothing is written where something is already.
-/
import FlashStack.Ubifs.IndexLayout

open Lib

namespace Ubifs.Index

variable {K : Type}

/-! ## The flash -/

namespace Flash

variable {fl fl' : Flash K} {g : Geometry} {lnum offs len : Nat} {buf : Nat → Cell K}

/-- What is written stays. -/
def Kept (fl fl' : Flash K) : Prop := ∀ l o cell, fl l o = some cell → fl' l o = some cell

/-- Nothing is overwritten. -/
theorem Kept.refl (fl : Flash K) : Kept fl fl := fun _ _ _ h => h

theorem Kept.trans {fl₁ fl₂ fl₃ : Flash K} (h : Kept fl₁ fl₂) (h' : Kept fl₂ fl₃) : Kept fl₁ fl₃ :=
  fun l o cell hc => h' l o cell (h l o cell hc)

/-- A node is read if all of its bytes are there. -/
theorem readNode_eq_some [DecidableEq K] {node : IdxNode K} :
    fl.readNode lnum offs len = some node ↔
      node.size = len ∧ ∀ i < len, fl lnum (offs + i) = some (.idx node i) := by
  constructor
  · intro h
    unfold readNode at h
    split at h
    next n hn =>
      split at h
      next hc =>
        obtain rfl := Option.some.inj h
        exact hc
      next => cases h
    next => cases h
  · rintro ⟨hsz, hall⟩
    have hpos : 0 < len := hsz ▸ idxNodeSz_pos _
    have h0 := hall 0 hpos
    rw [Nat.add_zero] at h0
    unfold readNode
    rw [h0]
    exact if_pos ⟨hsz, hall⟩

/-- It can still be read when more is written. -/
theorem Kept.readNode [DecidableEq K] (h : Kept fl fl') {node : IdxNode K}
    (hn : fl.readNode lnum offs len = some node) : fl'.readNode lnum offs len = some node := by
  rw [readNode_eq_some] at hn ⊢
  exact ⟨hn.1, fun i hi => h _ _ _ (hn.2 i hi)⟩

/-- The flash after a write. -/
def wrote (fl : Flash K) (lnum offs len : Nat) (buf : Nat → Cell K) : Flash K := fun l o =>
  if l = lnum ∧ offs ≤ o ∧ o < offs + len then some (buf (o - offs)) else fl l o

/-- A write to a place where nothing was written. -/
theorem write_eq_some (ho : g.minIo ∣ offs) (hl : g.minIo ∣ len) (hin : offs + len ≤ g.lebSize)
    (hfree : ∀ o, offs ≤ o → fl lnum o = none) :
    fl.write g lnum offs len buf = some (fl.wrote lnum offs len buf) := by
  refine if_pos ⟨Nat.mod_eq_zero_of_dvd ho, Nat.mod_eq_zero_of_dvd hl, hin, fun i _ => ?_⟩
  rw [hfree _ (Nat.le_add_right ..)]
  rfl

/-- Other places are not touched. -/
theorem wrote_other {l o : Nat} (h : l ≠ lnum ∨ o < offs ∨ offs + len ≤ o) :
    fl.wrote lnum offs len buf l o = fl l o := by
  refine if_neg fun hc => ?_
  omega

/-- The bytes of the buffer are on the flash. -/
theorem wrote_self {i : Nat} (h : i < len) :
    fl.wrote lnum offs len buf lnum (offs + i) = some (buf i) := by
  have hc : lnum = lnum ∧ offs ≤ offs + i ∧ offs + i < offs + len := ⟨rfl, by omega, by omega⟩
  rw [wrote, if_pos hc, Nat.add_sub_cancel_left]

end Flash

/-! ## The commit buffer -/

namespace Writer

variable {fl fl' : Flash K} {g : Geometry} {w w' : Writer K} {ilebs : List Nat}
  {lnum o len nextLen n : Nat}

/-- The flash, and `n` bytes of the buffer behind it. -/
def view (fl : Flash K) (w : Writer K) (n : Nat) : Flash K := fun l o =>
  if w.lnum = some l ∧ w.bufOffs ≤ o ∧ o < w.bufOffs + n then some (w.cbuf (o - w.bufOffs))
  else fl l o

/-- There is nothing on the flash where the writer is going to write. -/
structure Fresh (ilebs : List Nat) (fl : Flash K) (w : Writer K) : Prop where
  here {l o : Nat} : w.lnum = some l → w.bufOffs ≤ o → fl l o = none
  ahead {l : Nat} : l ∈ ilebs.drop w.nxt → ∀ o, fl l o = none
  apart {l : Nat} : w.lnum = some l → l ∉ ilebs.drop w.nxt

theorem view_zero : w.view fl 0 = fl := by
  funext l o
  refine if_neg fun hc => ?_
  omega

/-- What is in the buffer can be read, as far as it will be written. -/
theorem view_self {l i : Nat} (h : w.lnum = some l) (hi : i < n) :
    w.view fl n l (w.bufOffs + i) = some (w.cbuf i) := by
  have hc : w.lnum = some l ∧ w.bufOffs ≤ w.bufOffs + i ∧ w.bufOffs + i < w.bufOffs + n :=
    ⟨h, by omega, by omega⟩
  rw [view, if_pos hc, Nat.add_sub_cancel_left]

/-- A byte that is there is in the buffer, or before it on the flash. -/
theorem of_view (h : Fresh ilebs fl w) {l o : Nat} {cell : Cell K}
    (hc : w.view fl n l o = some cell) :
    (∃ i < n, w.lnum = some l ∧ o = w.bufOffs + i ∧ w.cbuf i = cell) ∨
      (fl l o = some cell ∧ (w.lnum = some l → o < w.bufOffs)) := by
  unfold view at hc
  split at hc
  next hin =>
    refine .inl ⟨o - w.bufOffs, by omega, hin.1, by omega, Option.some.inj hc⟩
  next =>
    refine .inr ⟨hc, fun hl => ?_⟩
    by_contra ho
    rw [h.here hl (Nat.le_of_not_lt ho)] at hc
    cases hc

/-- A node that is put into the buffer: it can be read, and nothing else is lost. -/
theorem Fresh.kept_put (h : Fresh ilebs fl w) (node : IdxNode K) :
    Flash.Kept (w.view fl w.used) ({ w with cbuf := w.put node }.view fl (w.used + node.size)) := by
  intro l o cell hc
  rcases of_view h hc with ⟨i, hi, hl, rfl, rfl⟩ | ⟨hfl, hlt⟩
  · refine (view_self (w := { w with cbuf := w.put node }) hl (by omega)).trans (congrArg some ?_)
    exact if_neg (by omega)
  · refine (if_neg fun hin => ?_).trans hfl
    have := hlt hin.1
    have : w.bufOffs ≤ o := hin.2.1
    omega

/-- So can the node that was put there last. -/
theorem readNode_put [DecidableEq K] (fl : Flash K) (hl : w.lnum = some lnum) (node : IdxNode K) :
    ({ w with cbuf := w.put node }.view fl (w.used + node.size)).readNode lnum
      (w.bufOffs + w.used) node.size = some node := by
  refine Flash.readNode_eq_some.mpr ⟨rfl, fun i hi => ?_⟩
  rw [Nat.add_assoc]
  refine (view_self (w := { w with cbuf := w.put node }) hl (by omega)).trans (congrArg some ?_)
  have hin : w.used ≤ w.used + i ∧ w.used + i < w.used + node.size := ⟨by omega, by omega⟩
  show w.put node (w.used + i) = _
  rw [put, if_pos hin, Nat.add_sub_cancel_left]

/-- At the beginning of the next LEB nothing has changed. -/
theorem Fresh.nextLeb (h : Fresh ilebs fl w) {lebs : List Nat} {b s : Nat}
    (hb : w.Before g lebs b o s) (hnd : ilebs.Nodup) {w' : Cursor}
    (hw : w.toCursor.nextLeb g.layoutBufLen ilebs = some w') :
    Fresh ilebs fl { w with toCursor := w' } ∧ w'.used = w.used ∧
      { w with toCursor := w' }.view fl w.used = w.view fl w.used := by
  cases hl : w.lnum with
  | some l =>
    obtain rfl : w.toCursor = w' := by simpa only [Cursor.nextLeb, hl, Option.some.injEq] using hw
    exact ⟨h, rfl, rfl⟩
  | none =>
    have hused : w.used = 0 := by
      cases hb with
      | fits _ _ hon _ =>
        have := hon.leb
        rw [hl] at this
        cases this
      | opens _ _ hused _ => exact hused
    cases hn : ilebs[w.nxt]? with
    | none => simp [Cursor.nextLeb, hl, hn] at hw
    | some l =>
      simp only [Cursor.nextLeb, hl, hn, Option.some.injEq] at hw
      subst hw
      have hdrop : ilebs.drop w.nxt = l :: ilebs.drop (w.nxt + 1) := by
        obtain ⟨hlt, hget⟩ := List.getElem?_eq_some_iff.mp hn
        rw [List.drop_eq_getElem_cons hlt, hget]
      have hnd' : (l :: ilebs.drop (w.nxt + 1)).Nodup := hdrop ▸ hnd.sublist (List.drop_sublist ..)
      refine ⟨⟨?_, ?_, ?_⟩, hused.symm, ?_⟩
      · intro l' o hl' ho
        obtain rfl := Option.some.inj hl'
        exact h.ahead (hdrop ▸ List.mem_cons_self ..) o
      · intro l' hl' o
        exact h.ahead (hdrop ▸ List.mem_cons_of_mem _ hl') o
      · intro l' hl'
        obtain rfl := Option.some.inj hl'
        exact (List.nodup_cons.mp hnd').1
      · rw [hused, view_zero, view_zero]

/-- What is on flash is seen through the buffer. -/
theorem Fresh.kept_view (h : Fresh ilebs fl w) (n : Nat) : Flash.Kept fl (w.view fl n) := by
  intro l o cell hc
  refine (if_neg fun hin => ?_).trans hc
  rw [h.here hin.1 hin.2.1] at hc
  cases hc

/-- More of the buffer shows more. -/
theorem Fresh.view_mono (h : Fresh ilebs fl w) {m : Nat} (hn : n ≤ m) :
    Flash.Kept (w.view fl n) (w.view fl m) := by
  intro l o cell hc
  rcases of_view h hc with ⟨i, hi, hl, rfl, rfl⟩ | ⟨hfl, -⟩
  · exact view_self hl (by omega)
  · exact h.kept_view m l o cell hfl

/-- What was written is in the current LEB, before the place in hand. -/
theorem Fresh.wrote (h : Fresh ilebs fl w) (hl : w.lnum = some lnum) {blen : Nat}
    {cbuf : Nat → Cell K} (hl' : w'.lnum = w.lnum ∨ w'.lnum = none)
    (ho' : w'.bufOffs = w.bufOffs + blen) (hn' : w'.nxt = w.nxt) :
    Fresh ilebs (fl.wrote lnum w.bufOffs blen cbuf) w' where
  here := fun {l o} hw ho => by
    have hll : w.lnum = some l := by
      rcases hl' with hl' | hl'
      · exact hl' ▸ hw
      · rw [hl'] at hw
        cases hw
    rw [Flash.wrote_other (by omega)]
    exact h.here hll (by omega)
  ahead := fun {l} hd o => by
    rw [hn'] at hd
    have hne : l ≠ lnum := fun he => h.apart (he ▸ hl) (he ▸ hd)
    rw [Flash.wrote_other (.inl hne)]
    exact h.ahead hd o
  apart := fun {l} hw => by
    rw [hn']
    rcases hl' with hl' | hl'
    · exact h.apart (hl' ▸ hw)
    · rw [hl'] at hw
      cases hw

/-- The whole buffer is flushed. -/
theorem Fresh.kept_flush (h : Fresh ilebs fl w) (hl : w.lnum = some lnum) {blen : Nat}
    {cbuf : Nat → Cell K} (hn : n ≤ blen) (hcbuf : ∀ i < n, cbuf i = w.cbuf i) :
    Flash.Kept (w.view fl n) (fl.wrote lnum w.bufOffs blen cbuf) := by
  intro l o cell hc
  rcases of_view h hc with ⟨i, hi, hll, rfl, rfl⟩ | ⟨hfl, hlt⟩
  · obtain rfl := Option.some.inj (hl.symm.trans hll)
    rw [Flash.wrote_self (by omega), hcbuf i hi]
  · rw [Flash.wrote_other ?_, hfl]
    by_cases hll : l = lnum
    · exact .inr (.inl (hlt (hll ▸ hl)))
    · exact .inl hll

/-- The buffer is full: the rest of it moves to the beginning. -/
theorem Fresh.kept_full (h : Fresh ilebs fl w) (hl : w.lnum = some lnum) {blen n' : Nat}
    (hl' : w'.lnum = some lnum) (ho' : w'.bufOffs = w.bufOffs + blen) (hn' : n ≤ blen + n')
    (hcbuf : ∀ i, blen + i < n → w'.cbuf i = w.cbuf (i + blen)) :
    Flash.Kept (w.view fl n) (w'.view (fl.wrote lnum w.bufOffs blen w.cbuf) n') := by
  intro l o cell hc
  rcases of_view h hc with ⟨i, hi, hll, rfl, rfl⟩ | ⟨hfl, hlt⟩
  · obtain rfl := Option.some.inj (hl.symm.trans hll)
    by_cases hib : i < blen
    · refine (if_neg fun hin => ?_).trans (Flash.wrote_self hib)
      have : w'.bufOffs ≤ w.bufOffs + i := hin.2.1
      omega
    · obtain ⟨j, rfl⟩ := Nat.exists_eq_add_of_le (Nat.le_of_not_lt hib)
      rw [show w.bufOffs + (blen + j) = w'.bufOffs + j by omega, view_self hl' (by omega),
        hcbuf j hi, Nat.add_comm]
  · by_cases hll : l = lnum
    · have := hlt (hll ▸ hl)
      refine (if_neg fun hin => ?_).trans ((Flash.wrote_other (.inr (.inl this))).trans hfl)
      have : w'.bufOffs ≤ o := hin.2.1
      omega
    · refine (if_neg fun hin => ?_).trans ((Flash.wrote_other (.inl hll)).trans hfl)
      exact hll (Option.some.inj (hin.1.symm.trans hl'))

theorem pad_lt {cbuf : Nat → Cell K} {wlen blen i : Nat} (h : i < wlen) :
    pad cbuf wlen blen i = cbuf i := if_neg (by omega)

/-- The writer goes on as the layout does; what is flushed is on the flash, and the rest of the
    buffer is moved to its beginning. -/
theorem advance (hg : g.Valid) (h : Fresh ilebs fl w) (hon : w.On g lnum o)
    (hin : o + align len 8 ≤ g.lebSize) (nextLen : Nat) :
    ∃ fl' w', w.writeAdvance g fl len nextLen = some (fl', w') ∧
      w'.toCursor = w.layoutAdvance g len nextLen ∧ Fresh ilebs fl' w' ∧
      Flash.Kept (w.view fl (w.used + len)) (w'.view fl' w'.used) ∧
      (nextLen = 0 → Flash.Kept (w.view fl (w.used + len)) fl') := by
  have ha := hon.advanced hg len nextLen
  have hio := hg.minIo_ne_one
  have havail := hon.avail
  have hlen := align_eight len
  have hplace := hon.place
  -- the last write into a LEB
  have hblen : align (align (w.used + len) 8) g.minIo = align (w.used + len) g.minIo :=
    align_align hg.minIo_pos (by decide) hg.word
  obtain ⟨blen, hb⟩ : ∃ blen, blen = align (w.used + len) g.minIo := ⟨_, rfl⟩
  obtain ⟨buf, hbuf⟩ : ∃ buf, buf = pad w.cbuf (align (w.used + len) 8) blen := ⟨_, rfl⟩
  have hfree : ∀ o, w.bufOffs ≤ o → fl lnum o = none := fun o ho => h.here hon.leb ho
  have hend : w.bufOffs + blen ≤ g.lebSize := by
    rw [hb, ← align_add hg.minIo_pos hon.io]
    exact align_le hg.minIo_pos (by omega) hg.io
  have hwrite : fl.write g lnum w.bufOffs blen buf = some (fl.wrote lnum w.bufOffs blen buf) :=
    Flash.write_eq_some hon.io (hb ▸ dvd_align) hend hfree
  have hpad : ∀ i < w.used + len, buf i = w.cbuf i := fun i hi => by
    rw [hbuf]
    exact pad_lt (Nat.lt_of_lt_of_le hi (align_eight _).1)
  have hflush := h.kept_flush hon.leb (hb ▸ le_align hg.minIo_pos) hpad
  generalize w.layoutAdvance g len nextLen = cur at ha
  cases ha with
  | keep hn hfit hroom =>
    have hpos : 0 < w.avail - align len 8 := by omega
    refine ⟨fl, { w with used := w.used + align len 8, avail := w.avail - align len 8 }, ?_, rfl,
      ⟨h.here, h.ahead, h.apart⟩, ?_, fun h0 => absurd h0 hn⟩
    · simp only [writeAdvance, hon.leb, if_neg hio]
      exact if_pos ⟨hn, hfit, hpos⟩
    · exact h.view_mono (Nat.add_le_add_left hlen.1 _)
  | full hn hfit hroom =>
    have hpos : ¬0 < w.avail - align len 8 := by omega
    have hstay : ¬w.bufOffs + (w.used + align len 8) + nextLen > g.lebSize := by omega
    have hfull : fl.write g lnum w.bufOffs g.layoutBufLen w.cbuf =
        some (fl.wrote lnum w.bufOffs g.layoutBufLen w.cbuf) :=
      Flash.write_eq_some hon.io (Geometry.Valid.bufLen_io g) (by omega) hfree
    refine ⟨fl.wrote lnum w.bufOffs g.layoutBufLen w.cbuf,
      { w with
        bufOffs := w.bufOffs + g.layoutBufLen
        used := w.used + align len 8 - g.layoutBufLen
        avail := g.layoutBufLen - (w.used + align len 8 - g.layoutBufLen : Nat)
        cbuf := fun i =>
          if i < w.used + align len 8 - g.layoutBufLen then w.cbuf (i + g.layoutBufLen)
          else w.cbuf i }, ?_, rfl, h.wrote hon.leb (.inl rfl) rfl rfl, ?_, fun h0 => absurd h0 hn⟩
    · simp only [writeAdvance, hon.leb, if_neg hio, hg.bufLen_eq, hn, hfit, hpos, hstay, hfull,
        ne_eq, not_false_eq_true, and_true, and_false, if_true, if_false]
    · refine h.kept_full hon.leb hon.leb rfl ?_ fun i hi => if_pos ?_
      · show w.used + len ≤ g.layoutBufLen + (w.used + align len 8 - g.layoutBufLen)
        omega
      · omega
  | leave hn hfit =>
    have hleave : w.bufOffs + (w.used + align len 8) + nextLen > g.lebSize := by omega
    have hzero : w.used + align len 8 - blen = 0 :=
      Nat.sub_eq_zero_of_le (hb ▸ hon.flushed hg len)
    let next : Writer K :=
      { w with
        lnum := none, bufOffs := w.bufOffs + blen, used := 0, avail := g.layoutBufLen, cbuf := buf }
    have hfresh : Fresh ilebs (fl.wrote lnum w.bufOffs blen buf) next :=
      h.wrote hon.leb (.inr rfl) rfl rfl
    refine ⟨_, next, ?_, ?_, hfresh, hflush.trans (hfresh.kept_view _), fun h0 => absurd h0 hn⟩
    · simp only [writeAdvance, hon.leb, if_neg hio, hblen, ← hb, ← hbuf, hn, hfit, hleave, hwrite,
        hzero, ne_eq, not_false_eq_true, false_and, and_false, if_true, if_false, Nat.not_lt_zero,
        hg.bufLen_eq]
      rfl
    · simp only [next, hb]
  | last hn =>
    subst hn
    let next : Writer K :=
      { w with
        bufOffs := w.bufOffs + blen
        used := w.used + align len 8
        avail := w.avail - align len 8
        cbuf := buf }
    have hfresh : Fresh ilebs (fl.wrote lnum w.bufOffs blen buf) next :=
      h.wrote hon.leb (.inl rfl) rfl rfl
    refine ⟨_, next, ?_, ?_, hfresh, hflush.trans (hfresh.kept_view _), fun _ => hflush⟩
    · simp only [writeAdvance, hon.leb, if_neg hio, hblen, ← hb, ← hbuf, hwrite, ne_eq,
        not_true_eq_false, false_and, if_false, next]
    · simp only [next, hb]

end Writer

/-! ## The loop -/

namespace Info

/-- The nodes of the znodes `l` are where the layout put them, and what was there still is. -/
structure Wrote [DecidableEq K] (c₁ : Info K) (l : List Nat) (fl : Flash K) : Prop where
  kept : Flash.Kept c₁.flash fl
  node {a : Nat} {z : Znode K} : a ∈ l → c₁.mem a = some z →
    fl.readNode z.lnum z.offs z.len = some z.node

/-- The part `l` of the list, as `layout_in_empty_space` leaves it, when bin `b` is filled up to
    `o`. -/
structure Jobs (g : Geometry) (c₁ : Info K) (first b o : Nat) (l : List Nat) : Prop where
  placed {q : Nat × Nat × Nat} : q ∈ l.zip (nextFit g.lebSize b o (l.map c₁.nodeRoom)) →
    ∃ lnum z, (c₁.iheadLnum :: c₁.ilebs)[q.2.1]? = some lnum ∧ c₁.mem q.1 = some z ∧
      z.lnum = lnum ∧ z.offs = q.2.2 ∧ z.len = c₁.nodeLen q.1
  room {a : Nat} : a ∈ l → c₁.nodeRoom a ≤ g.maxIdxNodeSz
  linked : Linked c₁.cnextOf (some (l.head?.getD first)) l (some first)
  last {a : Nat} {z : Znode K} : l.getLast? = some a → c₁.mem a = some z →
    c₁.newIheadLnum = z.lnum ∧ c₁.newIheadOffs = align (z.offs + z.len) g.minIo

/-- What the writer is going to use of a znode is as the layout left it. -/
structure Frozen (c₁ c : Info K) (a : Nat) : Prop where
  same {z₁ : Znode K} : c₁.mem a = some z₁ → ∃ z, c.mem a = some z ∧ z.node = z₁.node ∧
    z.lnum = z₁.lnum ∧ z.offs = z₁.offs ∧ z.len = z₁.len ∧ z.cnext = z₁.cnext

end Info

/-- The node that was made last, with what comes next. -/
def Pc.pending : Pc → Option (Nat × Nat)
  | .clearDirty _ cnext len => some (cnext, len)
  | .clearCow _ cnext len => some (cnext, len)
  | .advance cnext len => some (cnext, len)
  | _ => none

/-- `write_index` has made the nodes of `done`, and is going to make those of a further list. -/
inductive Writing [DecidableEq K] (g : Geometry) (c₁ : Info K) (first : Nat) (fl : Flash K)
    (w : Writer K) : List Nat → List Nat → Prop
  | make {done l : List Nat} {a b o : Nat} : w.pc = .make a →
      w.Before g (c₁.iheadLnum :: c₁.ilebs) b o (c₁.nodeRoom a) → w.Fresh c₁.ilebs fl →
      c₁.Wrote done (w.view fl w.used) → c₁.Jobs g first b o (a :: l) → first ∉ l →
      Writing g c₁ first fl w done (a :: l)
  | made {done l : List Nat} {a b o lnum : Nat} :
      w.pc.pending = some (l.head?.getD first, c₁.nodeLen a) → w.On g lnum o →
      (c₁.iheadLnum :: c₁.ilebs)[b]? = some lnum → w.nxt = b → o + c₁.nodeRoom a ≤ g.lebSize →
      c₁.nodeRoom a ≤ g.layoutBufLen → w.Fresh c₁.ilebs fl →
      c₁.Wrote (done ++ [a]) (w.view fl (w.used + c₁.nodeLen a)) →
      c₁.Jobs g first b (o + c₁.nodeRoom a) l → first ∉ l →
      (l = [] → c₁.newIheadLnum = lnum ∧ c₁.newIheadOffs = align (o + c₁.nodeLen a) g.minIo) →
      Writing g c₁ first fl w (done ++ [a]) l
  | ended {done : List Nat} : w.pc = .done → c₁.Wrote done fl → Writing g c₁ first fl w done []

namespace Info

variable {g : Geometry} {c₁ c : Info K} {first a b o : Nat} {l : List Nat}

/-- The list of those that are still to be written. -/
theorem Jobs.cnext (h : c₁.Jobs g first b o (a :: l)) :
    c₁.cnextOf a = some (l.head?.getD first) := by
  have hl := h.linked.2
  cases l with
  | nil => exact hl
  | cons x l => exact hl.1

/-- They are in memory. -/
theorem Jobs.live (h : c₁.Jobs g first b o (a :: l)) : ∃ z, c₁.mem a = some z := by
  obtain ⟨e, he⟩ : ∃ e, e = if o + c₁.nodeRoom a ≤ g.lebSize then (b, o) else (b + 1, 0) := ⟨_, rfl⟩
  have hplaced := h.placed (q := (a, e)) (by
    rw [List.map_cons, Lib.NextFit.cons_eq he]
    exact List.mem_cons_self ..)
  obtain ⟨-, z, -, hz, -⟩ := hplaced
  exact ⟨z, hz⟩

/-- The rest of the list. -/
theorem Jobs.tail (h : c₁.Jobs g first b o (a :: l)) {e : Nat × Nat}
    (he : e = if o + c₁.nodeRoom a ≤ g.lebSize then (b, o) else (b + 1, 0)) :
    c₁.Jobs g first e.1 (e.2 + c₁.nodeRoom a) l where
  placed := fun hq => by
    refine h.placed ?_
    rw [List.map_cons, Lib.NextFit.cons_eq he]
    exact List.mem_cons_of_mem _ hq
  room := fun hx => h.room (List.mem_cons_of_mem a hx)
  linked := by
    have hl := h.linked.2
    rwa [h.cnext] at hl
  last := fun hx hz => h.last (by
    cases l with
    | nil => cases hx
    | cons x l => simpa using hx) hz

/-- A znode on the list does not change before it is written. -/
theorem Frozen.len (h : Frozen c₁ c a) {z₁ : Znode K} (hz : c₁.mem a = some z₁) :
    ∃ z, c.mem a = some z ∧ z.node = z₁.node ∧ z.lnum = z₁.lnum ∧ z.offs = z₁.offs ∧
      z.len = z₁.len ∧ z.cnext = z₁.cnext ∧ idxNodeSz z.childCnt = c₁.nodeLen a ∧
      z.node.size = c₁.nodeLen a := by
  obtain ⟨z, hz', hnode, hl, ho, hn, hc⟩ := h.same hz
  have hsize : ∀ z : Znode K, z.node.size = idxNodeSz z.childCnt := fun z => by
    simp [IdxNode.size, Znode.node, Znode.childCnt]
  refine ⟨z, hz', hnode, hl, ho, hn, hc, ?_, ?_⟩
  · rw [nodeLen_eq hz, ← hsize, ← hsize, hnode]
  · rw [nodeLen_eq hz, ← hsize, hnode]

/-- What was written stays written. -/
theorem Wrote.mono [DecidableEq K] {fl fl' : Flash K} (h : c₁.Wrote l fl) (hk : Flash.Kept fl fl') :
    c₁.Wrote l fl' :=
  ⟨h.kept.trans hk, fun ha hz => hk.readNode (h.node ha hz)⟩

end Info

namespace Writing

open Info

variable [DecidableEq K] {g : Geometry} {c₁ c : Info K} {first : Nat} {w : Writer K}
  {done l : List Nat}

/-- A node is made, at the place that the layout has found for it. -/
theorem make_step (hg : g.Valid) (hnd : c₁.ilebs.Nodup) (hil : c.ilebs = c₁.ilebs) {a : Nat}
    (h : Writing g c₁ first c.flash w done l) (hpc : w.pc = .make a) (hz : Frozen c₁ c a) :
    ∃ l' w' cnext, l = a :: l' ∧ c.writeStep g w = some (c, w') ∧
      w'.pc = .clearDirty a cnext (c₁.nodeLen a) ∧
      Writing g c₁ first c.flash w' (done ++ [a]) l' := by
  cases h with
  | made hpend =>
    rw [hpc] at hpend
    cases hpend
  | ended hended =>
    rw [hpc] at hended
    cases hended
  | @make _ l a' b o hpc' hbefore hfresh hwrote hjobs hfirst =>
    obtain rfl : a = a' := by simpa [hpc] using hpc'
    -- `e` is the place of the layout, and the buffer is there as well (`hon`).
    obtain ⟨e, he⟩ : ∃ e, e = if o + c₁.nodeRoom a ≤ g.lebSize then (b, o) else (b + 1, 0) :=
      ⟨_, rfl⟩
    have hplaced := hjobs.placed (q := (a, e)) (by
      rw [List.map_cons, Lib.NextFit.cons_eq he]
      exact List.mem_cons_self ..)
    obtain ⟨lnum, z₁, hleb, hz₁, hl₁, ho₁, hn₁⟩ := hplaced
    obtain ⟨z, hz, hnode, hl, ho, hn, hc, hlen, hsize⟩ := hz.len hz₁
    obtain ⟨cur, hcur, hon, hnxt⟩ := hbefore.nextLeb hg he hleb
    obtain ⟨hfresh', hused, hview⟩ := hfresh.nextLeb hbefore hnd hcur
    have hcnext := hjobs.cnext
    have hzc : z.cnext = some (l.head?.getD first) := by
      rw [hc]
      simpa [cnextOf, hz₁] using hcnext
    have hin : e.2 + c₁.nodeRoom a ≤ g.lebSize := by
      have := Nat.le_trans (hjobs.room (List.mem_cons_self ..)) hg.maxIdxNodeSz_le
      rw [he]
      split <;> omega
    let next : Writer K :=
      { cur with cbuf := w.put z.node, pc := .clearDirty a (l.head?.getD first) (c₁.nodeLen a) }
    -- Making the node does not move the buffer.
    have hput : Writer.put { w with toCursor := cur } z.node = w.put z.node := by
      funext i
      simp only [Writer.put, hused]
    have hkept : Flash.Kept (w.view c.flash w.used)
        (next.view c.flash (next.used + c₁.nodeLen a)) := by
      have := hfresh'.kept_put z.node
      rw [hput, hsize] at this
      rw [← hview, ← hused]
      exact this
    have hread : (next.view c.flash (next.used + c₁.nodeLen a)).readNode z₁.lnum z₁.offs z₁.len =
        some z₁.node := by
      have := Writer.readNode_put (w := { w with toCursor := cur }) c.flash hon.leb z.node
      rw [hput, hsize, hon.place, ← hl₁, ← ho₁] at this
      rw [hn₁, ← hnode]
      exact this
    refine ⟨l, next, _, rfl, ?_, rfl, ?_⟩
    · -- the place that was written down is checked, and is right
      simp only [writeStep, hpc, hz, hil, hg.bufLen_eq, hcur, hzc, hlen]
      refine if_neg ?_
      rw [hon.leb, hon.place, hl, ho, hn, hl₁, ho₁, hn₁]
      simp
    · -- what was written stays readable, and the new node is readable
      refine .made rfl hon hleb hnxt hin
        (Nat.le_trans (hjobs.room (List.mem_cons_self ..)) hg.maxIdxNodeSz_le_bufLen)
        ⟨hfresh'.here, hfresh'.ahead, hfresh'.apart⟩ ⟨hwrote.kept.trans hkept, ?_⟩ (hjobs.tail he)
        hfirst ?_
      · intro x y hx hy
        rcases List.mem_append.mp hx with hx | hx
        · exact hkept.readNode (hwrote.node hx hy)
        · obtain rfl := List.mem_singleton.mp hx
          obtain rfl := Option.some.inj (hz₁.symm.trans hy)
          exact hread
      · rintro rfl
        obtain ⟨h1, h2⟩ := hjobs.last rfl hz₁
        exact ⟨h1.trans hl₁, by rw [h2, ho₁, hn₁]⟩

/-- What happens to the flags of the znode does not matter to the writer. -/
theorem flag_step {fl : Flash K} (h : Writing g c₁ first fl w done l) {pc : Pc}
    (hpc : w.pc.pending = pc.pending) (hsome : pc.pending.isSome) :
    Writing g c₁ first fl { w with pc } done l := by
  cases h with
  | make hmake =>
    rw [← hpc, hmake] at hsome
    cases hsome
  | ended hended =>
    rw [← hpc, hended] at hsome
    cases hsome
  | made hpend hon hleb hb hin hroom hfresh hwrote hjobs hfirst hlast =>
    exact .made (hpc ▸ hpend) hon hleb hb hin hroom ⟨hfresh.here, hfresh.ahead, hfresh.apart⟩ hwrote
      hjobs hfirst hlast

/-- The buffer positions are updated; there is a next node, or the writer is through. -/
theorem advance_step (hg : g.Valid) (h : Writing g c₁ first c.flash w done l) {cnext len : Nat}
    (hpc : w.pc = .advance cnext len) (hfirst : c.cnext = some first)
    (hl : ∀ a ∈ l, Frozen c₁ c a) (hi : c.newIheadLnum = c₁.newIheadLnum)
    (hi' : c.newIheadOffs = c₁.newIheadOffs) :
    ∃ c' w', c.writeStep g w = some (c', w') ∧
      c' = { c with
        flash := c'.flash, iheadLnum := c'.iheadLnum, iheadOffs := c'.iheadOffs } ∧
      Writing g c₁ first c'.flash w' done l ∧
      w'.pc = l.head?.elim .done .make ∧
      (l = [] → c'.iheadLnum = c₁.newIheadLnum ∧ c'.iheadOffs = c₁.newIheadOffs) := by
  cases h with
  | make hmake =>
    rw [hpc] at hmake
    cases hmake
  | ended hended =>
    rw [hpc] at hended
    cases hended
  | @made done l a b o lnum hpend hon hleb hb hin hroom hfresh hwrote hjobs hnot hlast =>
    rw [hpc] at hpend
    obtain ⟨rfl, rfl⟩ := Prod.mk.inj (Option.some.inj hpend)
    cases l with
    | nil =>
      -- The last node: all of the buffer is written, and the head is where the layout has put it.
      obtain ⟨fl', w', hadv, hcur, hfresh', -, hkept⟩ := Writer.advance hg hfresh hon hin 0
      obtain ⟨hend, hoffs⟩ := hon.advance_last hg (c₁.nodeLen a)
      obtain ⟨hn, ho⟩ := hlast rfl
      have hnext : c.nextLen first = some 0 := if_pos hfirst.symm
      rw [← hcur] at hend hoffs
      refine ⟨{ c with flash := fl', iheadLnum := c.newIheadLnum, iheadOffs := w'.bufOffs },
        { w' with pc := .done }, ?_, rfl, .ended rfl (hwrote.mono (hkept rfl)), rfl, ?_⟩
      · simp only [writeStep, hpc, List.head?_nil, Option.getD_none, hnext, hadv, ne_eq,
          not_true_eq_false, if_false]
        refine if_neg ?_
        rw [hend, hoffs, hi, hi', hn, ho]
        simp
      · intro _
        exact ⟨hi, hoffs.trans ho.symm⟩
    | cons x l =>
      -- There is room for the next node, or it will start an LEB: both are `Before` for the round of `x`.
      obtain ⟨z₁, hz₁⟩ := hjobs.live
      obtain ⟨z, hz, -, -, -, -, -, hlen, -⟩ := (hl x (List.mem_cons_self ..)).len hz₁
      have hpos : c₁.nodeLen x ≠ 0 := by
        rw [nodeLen_eq hz₁]
        exact (idxNodeSz_pos _).ne'
      have hne : some x ≠ c.cnext := by
        rw [hfirst]
        exact fun he => hnot (Option.some.inj he ▸ List.mem_cons_self ..)
      have hnext : c.nextLen x = some (c₁.nodeLen x) := by
        rw [Info.nextLen, if_neg hne, hz, Option.map_some, hlen]
      obtain ⟨fl', w', hadv, hcur, hfresh', hkept, -⟩ :=
        Writer.advance hg hfresh hon hin (c₁.nodeLen x)
      have hbefore := (hon.advanced hg (c₁.nodeLen a) (c₁.nodeLen x)).before hg hon hleb hb hroom hpos
      rw [← hcur] at hbefore
      refine ⟨{ c with flash := fl' }, { w' with pc := .make x }, ?_, rfl, ?_, rfl, fun h0 => ?_⟩
      · simp only [writeStep, hpc, List.head?_cons, Option.getD_some, hnext, hadv]
        exact if_pos hpos
      · exact .make rfl hbefore ⟨hfresh'.here, hfresh'.ahead, hfresh'.apart⟩ (hwrote.mono hkept) hjobs
          fun hin' => hnot (List.mem_cons_of_mem x hin')
      · cases h0

/-- When the loop is over, everything is on the flash. -/
theorem wrote_of_done {fl : Flash K} (h : Writing g c₁ first fl w done l) (hpc : w.pc = .done) :
    c₁.Wrote done fl := by
  cases h with
  | make hmake =>
    rw [hpc] at hmake
    cases hmake
  | made hpend =>
    rw [hpc] at hpend
    cases hpend
  | ended _ hwrote => exact hwrote

end Writing

end Ubifs.Index
