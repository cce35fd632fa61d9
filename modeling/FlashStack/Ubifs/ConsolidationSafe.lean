/-
  A log while it is consolidated.

  At any time the log is a few new LEBs, with the first references of what has been read, and behind them
  the old LEBs from there on (`Inv`).  The new LEBs are packed, so that they are behind the reading
  (`capSum`), and every reference that is not in them is in an old LEB still; what is in both is replayed
  once (`Lib.firsts_again`).
-/
import FlashStack.Ubifs.LogReplay
import Mathlib

open Lib (firsts Ring.In)

namespace Ubifs.Consolidation

variable {c : Info} {flash f : Nat → LogLeb} {cs d i k m w : Nat} {buds seen : List Ref} {s : State}

/-! ## The log before the consolidation -/

/-- What the nodes of a LEB take. -/
def bytes (nodes : List (Nat × Node)) : Nat := (nodes.map fun p => Lib.align p.2.len 8).sum

/-- The buds of the log. -/
def budsOf (c : Info) (flash : Nat → LogLeb) (d : Nat) : List Ref :=
  firsts Ref.lnum [] (refsUpto c flash (d + 1))

/-- A log that can be replayed, with its head `d` LEBs behind the tail.  The head may be at the beginning
    of a LEB. -/
structure Log (c : Info) (flash : Nat → LogLeb) (d cs : Nat) : Prop where
  tail : Ring.In ubifsLogLnum c.logLebs c.ltailLnum
  lt : d < c.logLebs
  head : c.lheadLnum = lebAt c d
  cs_ne : cs ≠ 0
  first : ∃ rest, (flash (lebAt c 0)).nodes = (0, .cs cs c.cmtNo) :: rest
  good : ∀ k < d, GoodLeb c cs (budsOf c flash d) (flash (lebAt c k))
  last : GoodLeb c cs (budsOf c flash d) (flash (lebAt c d)) ∨ 0 < d ∧ (flash (lebAt c d)).nodes = []
  fit : ∀ k ≤ d, bytes (flash (lebAt c k)).nodes ≤ c.lebSize
  ends : d + 1 = c.logLebs ∨ EndLeb cs (flash (lebAt c (d + 1)))
  room : 64 ≤ c.lebSize
  minIo : 0 < c.minIoSize

/-- There is one bud for a LEB. -/
theorem nodup_budsOf : ((budsOf c flash d).map Ref.lnum).Nodup := Lib.nodup_firsts List.nodup_nil

/-- With one reference to each bud there is nothing to agree about. -/
theorem agrees_of_mem {x : Ref} (h : (buds.map Ref.lnum).Nodup) (hx : x ∈ buds) : Agrees buds x := by
  intro y hy hlnum
  obtain rfl := List.inj_on_of_nodup_map h hy hx hlnum
  exact ⟨rfl, Nat.le_refl _⟩

/-- The same references follow. -/
theorem refsUpto_rest (hold : ∀ k, w < k → k < c.logLebs → f (lebAt c k) = flash (lebAt c k))
    (hw : w + 1 ≤ m) (hm : m ≤ c.logLebs) :
    ∃ rest, refsUpto c f m = refsUpto c f (w + 1) ++ rest ∧
      refsUpto c flash m = refsUpto c flash (w + 1) ++ rest := by
  induction m, hw using Nat.le_induction with
  | base => exact ⟨[], (List.append_nil _).symm, (List.append_nil _).symm⟩
  | succ m hw ih =>
    obtain ⟨rest, hf, hflash⟩ := ih (by omega)
    refine ⟨rest ++ refs (flash (lebAt c m)).nodes, ?_, ?_⟩
    · rw [refsUpto, hf, hold m (by omega) (by omega), List.append_assoc]
    · rw [refsUpto, hflash, List.append_assoc]

/-- While the first LEBs are new and the others are old, the references are those of both. -/
theorem kept_mixed (hold : ∀ k, w < k → k < c.logLebs → f (lebAt c k) = flash (lebAt c k))
    (hw : w + 1 ≤ m) (hm : m ≤ c.logLebs) (hkept : refsUpto c f (w + 1) = firsts Ref.lnum [] seen)
    (hlow : refsUpto c flash (w + 1) <+: seen) (hhigh : seen <+: refsUpto c flash m) :
    firsts Ref.lnum [] (refsUpto c f m) = firsts Ref.lnum [] (refsUpto c flash m) := by
  obtain ⟨rest, hf, hflash⟩ := refsUpto_rest hold hw hm
  have hself : firsts Ref.lnum [] (firsts Ref.lnum [] seen) = firsts Ref.lnum [] seen :=
    Lib.firsts_of_nodup (Lib.nodup_firsts List.nodup_nil)
  have hprefix := firsts_mono hhigh
  rw [hflash, Lib.firsts_append] at hprefix
  rw [hf, hflash, Lib.firsts_append, Lib.firsts_append, hkept, hself]
  exact Lib.firsts_again (firsts_mono hlow) hprefix

/-- The first LEBs new, the others as they were. -/
theorem Log.mixed (h : Log c flash d cs) (hw : w ≤ d)
    (hnew : ∀ k ≤ w, GoodLeb c cs (budsOf c flash d) (f (lebAt c k)))
    (hold : ∀ k, w < k → k < c.logLebs → f (lebAt c k) = flash (lebAt c k))
    (hfirst : ∃ rest, (f (lebAt c 0)).nodes = (0, .cs cs c.cmtNo) :: rest)
    (hkept : refsUpto c f (w + 1) = firsts Ref.lnum [] seen)
    (hlow : refsUpto c flash (w + 1) <+: seen) (hhigh : seen <+: refsUpto c flash (d + 1)) :
    ∃ m, Chain c cs (budsOf c flash d) f m := by
  have hd := h.lt
  by_cases hall : w = d ∨ GoodLeb c cs (budsOf c flash d) (flash (lebAt c d))
  · -- the log ends behind the head
    refine ⟨d + 1, h.tail, h.cs_ne, Nat.succ_pos d, hd, hfirst, ?_, ?_, ?_⟩
    · intro k hk
      by_cases hkw : k ≤ w
      · exact hnew k hkw
      · rw [hold k (by omega) (by omega)]
        by_cases hkd : k = d
        · subst hkd
          exact hall.resolve_left (by omega)
        · exact h.good k (by omega)
    · rcases h.ends with hend | hend
      · exact .inl hend
      · by_cases hring : d + 1 = c.logLebs
        · exact .inl hring
        · rw [hold (d + 1) (by omega) (by omega)]
          exact .inr hend
    · exact kept_mixed hold (by omega) hd hkept hlow hhigh
  · -- it ends at the head, where there is nothing yet
    rw [not_or] at hall
    obtain ⟨hpos, hempty⟩ := h.last.resolve_left hall.2
    have hupto : refsUpto c flash (d + 1) = refsUpto c flash d := by
      rw [refsUpto, hempty]
      exact List.append_nil _
    refine ⟨d, h.tail, h.cs_ne, hpos, hd.le, hfirst, ?_, ?_, ?_⟩
    · intro k hk
      by_cases hkw : k ≤ w
      · exact hnew k hkw
      · rw [hold k (by omega) (by omega)]
        exact h.good k hk
    · rw [hold d (by omega) hd]
      exact .inr (.inl hempty)
    · rw [budsOf, hupto]
      exact kept_mixed hold (by omega) hd.le hkept hlow (hupto ▸ hhigh)

/-! ## Packing -/

/-- The references that so many new LEBs have room for, the commit start node being in the first. -/
def capSum (c : Info) (w : Nat) : Nat :=
  if w = 0 then 0 else (c.lebSize - 32) / 64 + (w - 1) * (c.lebSize / 64)

/-- So many references fit in one more LEB. -/
theorem capSum_succ : capSum c (w + 1) = capSum c w +
    (c.lebSize - if w = 0 then 32 else 0) / 64 := by
  unfold capSum
  by_cases hw : w = 0
  · subst hw
    simp
  · obtain ⟨v, rfl⟩ := Nat.exists_eq_succ_of_ne_zero hw
    simp only [Nat.succ_ne_zero, if_false, Nat.add_sub_cancel, Nat.sub_zero, Nat.succ_eq_add_one]
    rw [Nat.succ_mul]
    omega

/-- More LEBs have room for more. -/
theorem capSum_mono (h : k ≤ m) : capSum c k ≤ capSum c m := by
  induction h with
  | refl => exact Nat.le_refl _
  | step _ ih => exact ih.trans (by rw [capSum_succ]; exact Nat.le_add_right _ _)

/-- The bytes of nodes add up. -/
theorem bytes_append {xs ys : List (Nat × Node)} : bytes (xs ++ ys) = bytes xs + bytes ys := by
  simp [bytes]

theorem refs_append {xs ys : List (Nat × Node)} : refs (xs ++ ys) = refs xs ++ refs ys :=
  List.filterMap_append

/-- A reference takes 64 bytes. -/
theorem refs_le_bytes {nodes : List (Nat × Node)} : 64 * (refs nodes).length ≤ bytes nodes := by
  induction nodes with
  | nil => exact Nat.le_refl _
  | cons p nodes ih =>
    rw [show p :: nodes = [p] ++ nodes from rfl, refs_append, bytes_append, List.length_append]
    have hone : 64 * (refs [p]).length ≤ bytes [p] := by
      obtain ⟨offs, node⟩ := p
      cases node with
      | ref r =>
        change 64 * 1 ≤ ([Lib.align 64 8] : List Nat).sum
        decide
      | cs sqnum cmtNo => exact Nat.zero_le _
      | other sqnum len => exact Nat.zero_le _
    omega

/-- The old LEBs have no more. -/
theorem Log.refsUpto_le (h : Log c flash d cs) (hk : k ≤ d + 1) :
    (refsUpto c flash k).length ≤ capSum c k := by
  induction k with
  | zero => exact Nat.zero_le _
  | succ k ih =>
    have hfit := h.fit k (by omega)
    have hrefs := @refs_le_bytes (flash (lebAt c k)).nodes
    rw [refsUpto, List.length_append, capSum_succ]
    refine Nat.add_le_add (ih (by omega)) ?_
    by_cases hzero : k = 0
    · subst hzero
      obtain ⟨rest, hfirst⟩ := h.first
      rw [hfirst] at hfit ⊢
      have hrest := @refs_le_bytes rest
      have hlen : Lib.align 32 8 = 32 := by decide
      have hcs : bytes ((0, Node.cs cs c.cmtNo) :: rest) = 32 + bytes rest := by
        rw [bytes, List.map_cons, List.sum_cons]
        exact congrArg (· + _) hlen
      change (refs rest).length ≤ _
      rw [if_pos rfl]
      omega
    · rw [if_neg hzero]
      omega

/-! ## Writing -/

/-- References depend on the LEBs that they are in. -/
theorem refsUpto_congr {g : Nat → LogLeb} (h : ∀ k < m, f (lebAt c k) = g (lebAt c k)) :
    refsUpto c f m = refsUpto c g m := by
  induction m with
  | zero => rfl
  | succ m ih =>
    rw [refsUpto, refsUpto, ih fun k hk => h k (Nat.lt_succ_of_lt hk), h m (Nat.lt_succ_self m)]

/-- The node fits in the buffer. -/
theorem makeRoom_room {len : Nat} (h : ¬c.lebSize - s.offs < len) : s.makeRoom c len = s := if_neg h

/-- It does not, so the buffer is written first. -/
theorem makeRoom_full {len : Nat} (h : c.lebSize - s.offs < len) :
    s.makeRoom c len =
      { s.ubifsLebChange c with
        writeLnum := ubifsNextLogLnum c s.writeLnum
        buf := []
        offs := 0 } := if_pos h

theorem putNode_ref {x : Ref} : s.putNode (.ref x) =
    { s with
      buf := s.buf ++ [(s.offs, .ref x)]
      offs := s.offs + 64 } := by
  have hlen : Lib.align (Node.ref x).len 8 = 64 := by
    change Lib.align 64 8 = 64
    decide
  rw [State.putNode, hlen]

/-- While LEB `i` is read: `w` LEBs are written, the next one is in the buffer, and `seen` are the
    references that have been read. -/
structure Inv (c : Info) (flash : Nat → LogLeb) (d cs i w : Nat) (seen : List Ref) (s : State) :
    Prop where
  write : s.writeLnum = lebAt c w
  le : w ≤ i
  new : ∀ k < w, GoodLeb c cs (budsOf c flash d) (s.flash (lebAt c k))
  old : ∀ k, w ≤ k → k < c.logLebs → s.flash (lebAt c k) = flash (lebAt c k)
  csNode : ∃ rest, (if w = 0 then s.buf else (s.flash (lebAt c 0)).nodes) = (0, .cs cs c.cmtNo) :: rest
  first : s.first = false
  kept : refsUpto c s.flash w ++ refs s.buf = firsts Ref.lnum [] seen
  done : ∀ l, l ∈ s.doneTree ↔ l ∈ (firsts Ref.lnum [] seen).map Ref.lnum
  start : ∃ node rest, s.buf = (0, node) :: rest
  nodes : ∀ p ∈ s.buf, NodeOk c cs p
  offs : s.offs = (if w = 0 then 32 else 0) + 64 * (refs s.buf).length
  behind : ∀ p ∈ s.buf, p.1 + p.2.len ≤ s.offs
  fits : s.offs ≤ c.lebSize
  filled : (refsUpto c s.flash w).length = capSum c w
  low : refsUpto c flash i <+: seen
  high : seen <+: refsUpto c flash (d + 1)
  history : ∀ f ∈ s.history, ∃ m, Chain c cs (budsOf c flash d) f m

/-- The buffer has been written too, to LEB `w`. -/
structure Packed (c : Info) (flash : Nat → LogLeb) (d cs w : Nat) (seen : List Ref) (s : State) :
    Prop where
  new : ∀ k ≤ w, GoodLeb c cs (budsOf c flash d) (s.flash (lebAt c k))
  old : ∀ k, w < k → k < c.logLebs → s.flash (lebAt c k) = flash (lebAt c k)
  csNode : ∃ rest, (s.flash (lebAt c 0)).nodes = (0, .cs cs c.cmtNo) :: rest
  kept : refsUpto c s.flash (w + 1) = firsts Ref.lnum [] seen
  history : ∀ f ∈ s.history, ∃ m, Chain c cs (budsOf c flash d) f m

namespace Inv

/-- The commit start node is in the buffer. -/
theorem offs_pos (h : Inv c flash d cs i w seen s) : 0 < s.offs := by
  obtain ⟨node, rest, hbuf⟩ := h.start
  have hmem : (0, node) ∈ s.buf := by
    rw [hbuf]
    exact List.mem_cons_self ..
  have hbehind := h.behind _ hmem
  have hlen : 0 < node.len := by
    cases h.nodes _ hmem with
    | ref offs r hok low high => exact Nat.succ_pos 63
    | cs sqnum cmtNo low high => exact Nat.succ_pos 31
  dsimp only at hbehind
  omega

/-- What was written has the references that were seen. -/
theorem packed (h : Inv c flash d cs i w seen s) (hlog : Log c flash d cs) (hw : w ≤ d)
    (hlow : refsUpto c flash (w + 1) <+: seen) : Packed c flash d cs w seen (s.ubifsLebChange c) := by
  have hd := hlog.lt
  have hself : (s.ubifsLebChange c).flash (lebAt c w) = ⟨s.buf, Lib.align s.offs c.minIoSize⟩ := by
    change Function.update s.flash s.writeLnum _ (lebAt c w) = _
    rw [h.write, Function.update_self]
  have hother : ∀ k, k ≠ w → k < c.logLebs →
      (s.ubifsLebChange c).flash (lebAt c k) = s.flash (lebAt c k) := by
    intro k hne hk
    change Function.update s.flash s.writeLnum _ (lebAt c k) = _
    rw [h.write, Function.update_of_ne]
    exact fun heq => hne (lebAt_inj hk (by omega) heq)
  -- The LEBs up to `w` now have the first references, and none twice.
  have hkept : refsUpto c (s.ubifsLebChange c).flash (w + 1) = firsts Ref.lnum [] seen := by
    rw [refsUpto, hself, refsUpto_congr fun k hk => hother k (by omega) (by omega)]
    exact h.kept
  -- What was in the buffer is a good LEB of the log.
  have hbuf : GoodLeb c cs (budsOf c flash d) ⟨s.buf, Lib.align s.offs c.minIoSize⟩ := by
    refine ⟨h.start, h.nodes, ?_, ?_⟩
    · intro x hx
      have hmem : x ∈ firsts Ref.lnum [] seen := h.kept ▸ List.mem_append_right _ hx
      exact agrees_of_mem nodup_budsOf ((firsts_mono h.high).subset hmem)
    · have hpos := h.offs_pos
      have hle := @Lib.le_align c.minIoSize s.offs hlog.minIo
      dsimp only
      omega
  have hnew : ∀ k ≤ w, GoodLeb c cs (budsOf c flash d) ((s.ubifsLebChange c).flash (lebAt c k)) := by
    intro k hk
    by_cases hkw : k = w
    · rw [hkw, hself]
      exact hbuf
    · rw [hother k hkw (by omega)]
      exact h.new k (by omega)
  -- Those behind `w` were not touched yet.
  have hold : ∀ k, w < k → k < c.logLebs →
      (s.ubifsLebChange c).flash (lebAt c k) = flash (lebAt c k) := by
    intro k hk hlt
    rw [hother k (by omega) hlt]
    exact h.old k hk.le hlt
  have hcs : ∃ rest, ((s.ubifsLebChange c).flash (lebAt c 0)).nodes = (0, .cs cs c.cmtNo) :: rest := by
    obtain ⟨rest, hrest⟩ := h.csNode
    by_cases hzero : w = 0
    · subst hzero
      rw [hself]
      exact ⟨rest, hrest⟩
    · rw [if_neg hzero] at hrest
      rw [hother 0 (by omega) (by omega)]
      exact ⟨rest, hrest⟩
  refine ⟨hnew, hold, hcs, hkept, ?_⟩
  intro f hf
  -- The flash after the write is a mixture of new and old LEBs, and the log in it is the same (`mixed`).
  rcases List.mem_append.mp hf with hf | hf
  · exact h.history f hf
  · obtain rfl := List.mem_singleton.mp hf
    exact hlog.mixed hw hnew hold hcs hkept hlow h.high

/-- A reference that has not been seen, where the buffer has room for it. -/
theorem addRef {x : Ref} (h : Inv c flash d cs i w seen s) (hnew : x.lnum ∉ (firsts Ref.lnum [] seen).map Ref.lnum)
    (hok : NodeOk c cs (s.offs, .ref x)) (hhigh : seen ++ [x] <+: refsUpto c flash (d + 1))
    (hroom : ¬c.lebSize - s.offs < 64) :
    Inv c flash d cs i w (seen ++ [x])
      ({ s with doneTree := x.lnum :: s.doneTree }.addNode c (.ref x)) := by
  have hfirsts : firsts Ref.lnum [] (seen ++ [x]) = firsts Ref.lnum [] seen ++ [x] := by
    rw [Lib.firsts_snoc, Lib.addFirst_new hnew]
  have heq : { s with doneTree := x.lnum :: s.doneTree }.addNode c (.ref x) =
      { s with
        doneTree := x.lnum :: s.doneTree
        buf := s.buf ++ [(s.offs, .ref x)]
        offs := s.offs + 64 } := by
    rw [State.addNode, @makeRoom_room c { s with doneTree := x.lnum :: s.doneTree } (Node.ref x).len hroom,
      putNode_ref]
  have hfits := h.fits
  rw [heq]
  constructor
  case write => exact h.write
  case le => exact h.le
  case new => exact h.new
  case old => exact h.old
  case csNode =>
    obtain ⟨rest, hrest⟩ := h.csNode
    by_cases hzero : w = 0
    · rw [if_pos hzero] at hrest ⊢
      exact ⟨rest ++ [(s.offs, .ref x)], by rw [hrest, List.cons_append]⟩
    · rw [if_neg hzero] at hrest ⊢
      exact ⟨rest, hrest⟩
  case first => exact h.first
  case kept => rw [refs_append, ← List.append_assoc, h.kept, hfirsts]; rfl
  case done =>
    intro l
    rw [hfirsts, List.mem_cons, h.done l, List.map_append, List.mem_append, List.map_singleton,
      List.mem_singleton, or_comm]
  case start =>
    obtain ⟨node, rest, hbuf⟩ := h.start
    exact ⟨node, rest ++ [(s.offs, .ref x)], by rw [hbuf, List.cons_append]⟩
  case nodes =>
    intro p hp
    rcases List.mem_append.mp hp with hp | hp
    · exact h.nodes p hp
    · rw [List.mem_singleton.mp hp]
      exact hok
  case offs =>
    have hoffs := h.offs
    rw [refs_append, List.length_append]
    change s.offs + 64 = _ + 64 * (_ + 1)
    omega
  case behind =>
    intro p hp
    rcases List.mem_append.mp hp with hp | hp
    · have hbehind := h.behind p hp
      dsimp only
      omega
    · rw [List.mem_singleton.mp hp]
      exact Nat.le_refl _
  case fits =>
    dsimp only
    omega
  case filled => exact h.filled
  case low => exact h.low.trans (List.prefix_append _ _)
  case high => exact hhigh
  case history => exact h.history

/-- Where it has not: the buffer is full, so that the new LEBs hold more than the LEBs up to `w` did, and
    LEB `w` has been read. -/
theorem behind_reading {x : Ref} (h : Inv c flash d cs i w seen s) (hlog : Log c flash d cs) (hi : i ≤ d)
    (hseen : seen ++ [x] <+: refsUpto c flash (i + 1)) (hroom : c.lebSize - s.offs < 64) :
    (firsts Ref.lnum [] seen).length = capSum c (w + 1) ∧ w < i := by
  have hfits := h.fits
  have hoffs := h.offs
  have hfilled := h.filled
  have hlen := congrArg List.length h.kept
  rw [List.length_append] at hlen
  have hcap : (firsts Ref.lnum [] seen).length = capSum c (w + 1) := by
    rw [capSum_succ]
    omega
  have hle := @Lib.length_firsts _ _ _ Ref.lnum [] seen
  have hlt := hseen.length_le
  have hold := hlog.refsUpto_le (show i + 1 ≤ d + 1 by omega)
  rw [List.length_append, List.length_singleton] at hlt
  rw [List.length_nil, Nat.zero_add] at hle
  refine ⟨hcap, ?_⟩
  by_contra hwi
  have hmono := @capSum_mono c (i + 1) (w + 1) (by omega)
  omega

/-- A reference goes into the buffer, unless its LEB is known. -/
theorem takeRef {x : Ref} {offs : Nat} (h : Inv c flash d cs i w seen s) (hlog : Log c flash d cs)
    (hi : i ≤ d) (hok : NodeOk c cs (offs, .ref x)) (hseen : seen ++ [x] <+: refsUpto c flash (i + 1)) :
    ∃ w, Inv c flash d cs i w (seen ++ [x]) (s.takeNode c (offs, .ref x)) := by
  have hhigh := hseen.trans (refsUpto_mono (show i + 1 ≤ d + 1 by omega))
  have hok' : ∀ offs', NodeOk c cs (offs', .ref x) := by
    intro offs'
    cases hok with
    | ref _ _ hx low high => exact .ref offs' x hx low high
  unfold State.takeNode
  dsimp only
  -- A known LEB changes nothing but what was seen.
  by_cases hmem : x.lnum ∈ s.doneTree
  · rw [if_pos hmem]
    have hfirsts : firsts Ref.lnum [] (seen ++ [x]) = firsts Ref.lnum [] seen := by
      rw [Lib.firsts_snoc, Lib.addFirst_old ((h.done _).mp hmem)]
    exact ⟨w, { h with
      kept := hfirsts ▸ h.kept
      done := hfirsts ▸ h.done
      low := h.low.trans (List.prefix_append _ _)
      high := hhigh }⟩
  rw [if_neg hmem]
  have hnew := mt (h.done _).mpr hmem
  by_cases hroom : c.lebSize - s.offs < 64
  -- The buffer takes it, or is written out first, to LEB `w`; `x` then starts the next buffer.
  swap
  · exact ⟨w, h.addRef hnew (hok' _) hhigh hroom⟩
  obtain ⟨hcap, hlt⟩ := h.behind_reading hlog hi hseen hroom
  have hpacked := h.packed hlog (by omega) ((refsUpto_mono hlt).trans h.low)
  have hfirsts : firsts Ref.lnum [] (seen ++ [x]) = firsts Ref.lnum [] seen ++ [x] := by
    rw [Lib.firsts_snoc, Lib.addFirst_new hnew]
  have heq : { s with doneTree := x.lnum :: s.doneTree }.addNode c (.ref x) =
      { s.ubifsLebChange c with
        doneTree := x.lnum :: s.doneTree
        writeLnum := ubifsNextLogLnum c s.writeLnum
        buf := [(0, .ref x)]
        offs := 64 } := by
    rw [State.addNode, @makeRoom_full c { s with doneTree := x.lnum :: s.doneTree } (Node.ref x).len hroom,
      putNode_ref]
    rfl
  rw [heq]
  refine ⟨w + 1, ?_⟩
  have hroom' := hlog.room
  constructor
  case write =>
    have hpos := hlog.lt
    rw [h.write, next_lebAt (by omega)]
  case le => exact hlt
  case new => exact fun k hk => hpacked.new k (Nat.le_of_lt_succ hk)
  case old => exact fun k hk => hpacked.old k hk
  case csNode => exact hpacked.csNode
  case first => exact h.first
  case kept =>
    rw [hfirsts]
    exact congrArg (· ++ [x]) hpacked.kept
  case done =>
    intro l
    rw [hfirsts, List.mem_cons, h.done l, List.map_append, List.mem_append, List.map_singleton,
      List.mem_singleton, or_comm]
  case start => exact ⟨.ref x, [], rfl⟩
  case nodes =>
    intro p hp
    rw [List.mem_singleton.mp hp]
    exact hok' 0
  case offs => rfl
  case behind =>
    intro p hp
    rw [List.mem_singleton.mp hp]
    exact Nat.le_refl _
  case fits => exact hroom'
  -- The LEBs up to `w` are full.
  case filled =>
    change (refsUpto c (s.ubifsLebChange c).flash (w + 1)).length = capSum c (w + 1)
    rw [hpacked.kept]
    exact hcap
  case low => exact h.low.trans (List.prefix_append _ _)
  case high => exact hhigh
  case history => exact hpacked.history

end Inv

end Ubifs.Consolidation
