/-
  The log does not overrun its tail.

  `InvAt g s d`: the head is `d` LEBs from the tail, and what a replay needs is between them.  While
  buds are added the head may come up to the tail but not pass it; a commit start takes an LEB of its
  own, which `min_log_bytes` keeps free between commits (`Spare`).

  Three things have to be asked of a run: a head at the very end of the LEB before the tail must not be
  taken for an empty log, no bud may be added between the end of a commit and the master node, and the
  first commit, for which nothing is kept free, must find an LEB.
-/
import FlashStack.Ubifs.Log

namespace Ubifs.Log

open Lib

namespace State

variable {g : Geometry} {s : State} {c d e : Nat}

/-- `k` LEBs from the tail. -/
def lebAt (g : Geometry) (s : State) (k : Nat) : Nat :=
  Ring.place ubifsLogLnum g.logLebs s.ltailLnum k

/-- The nodes from `c` on are between LEB `e` and the head, which is in LEB `d`. -/
def Span (g : Geometry) (s : State) (c e d : Nat) : Prop :=
  ∀ lnum, ∀ q ∈ (s.flash lnum).sqnums, c ≤ q →
    ∃ k, e ≤ k ∧ (k < d ∨ k = d ∧ 0 < s.lheadOffs) ∧ lnum = s.lebAt g k

/-- The first node that a replay will need once the master node is written. -/
def cs (s : State) : Nat :=
  match s.commit with
  | .ended _ cs => cs
  | _ => s.mstCs

/-- The invariant, with the distance `d` from the tail to the head. -/
structure InvAt (g : Geometry) (s : State) (d : Nat) : Prop where
  tail : Ring.In ubifsLogLnum g.logLebs s.ltailLnum
  head : s.lheadLnum = s.lebAt g d
  fill : d < g.logLebs ∨ d = g.logLebs ∧ s.lheadOffs = 0
  offs : s.lheadOffs ≤ g.lebSize
  used : s.lheadOffs ≠ 0 → (s.flash s.lheadLnum).used ≤ s.lheadOffs
  span : s.Span g s.cs 0 d
  sqnum : ∀ lnum, ∀ q ∈ (s.flash lnum).sqnums, q ≤ s.sqnum
  safe : s.Safe

/-- The log is a ring. -/
theorem nextLogLnum_eq (hn : 2 ≤ g.logLebs) (lnum : Nat) :
    nextLogLnum g lnum = Ring.next ubifsLogLnum g.logLebs lnum := by
  unfold nextLogLnum Ring.next Geometry.logLast
  dsimp only
  by_cases hlt : lnum + 1 < ubifsLogLnum + g.logLebs
  · rw [if_neg (by omega), if_pos hlt]
  · rw [if_pos (by omega), if_neg hlt]

/-- LEBs are counted from the tail on. -/
theorem next_lebAt (hn : 2 ≤ g.logLebs) (k : Nat) :
    nextLogLnum g (s.lebAt g k) = s.lebAt g (k + 1) := by
  rw [nextLogLnum_eq hn]
  exact Ring.next_place (by omega)

/-- Once around, and it is the tail again. -/
theorem lebAt_round (h : Ring.In ubifsLogLnum g.logLebs s.ltailLnum) :
    s.lebAt g g.logLebs = s.ltailLnum := by
  unfold lebAt
  rw [Ring.place_eq h (le_refl _)]
  unfold Ring.In at h
  rw [if_neg (by omega), Nat.add_sub_cancel]

/-! ## Empty bytes -/

/-- The head is less than one round in front of the tail, unless the log is empty. -/
theorem InvAt.lt (h : s.InvAt g d)
    (hne : s.lheadLnum * g.lebSize + s.lheadOffs ≠ s.ltailLnum * g.lebSize) : d < g.logLebs := by
  rcases h.fill with hlt | ⟨rfl, h0⟩
  · exact hlt
  · refine absurd ?_ hne
    rw [h.head, h0, Nat.add_zero, lebAt_round h.tail]

/-- Unless the head is taken to be at the tail, the empty bytes are those between head and tail. -/
theorem InvAt.emptyLogBytes (h : s.InvAt g d)
    (hne : s.lheadLnum * g.lebSize + s.lheadOffs ≠ s.ltailLnum * g.lebSize) :
    s.emptyLogBytes g = (g.logLebs - d : Nat) * g.lebSize - s.lheadOffs := by
  have hlt := h.lt hne
  have hplace := Ring.place_eq h.tail hlt.le
  have hhead := h.head
  unfold lebAt at hhead
  obtain ⟨m, hm⟩ : ∃ m, g.logLebs = d + m := ⟨g.logLebs - d, by omega⟩
  have hsub : g.logLebs - d = m := by omega
  rw [hplace] at hhead
  rw [hsub]
  unfold State.emptyLogBytes Geometry.logBytes
  dsimp only
  by_cases hround : s.ltailLnum + d < ubifsLogLnum + g.logLebs
  · rw [if_pos hround] at hhead
    have hle : (s.ltailLnum : Int) * g.lebSize ≤ s.lheadLnum * g.lebSize + s.lheadOffs := by
      have hle := Nat.mul_le_mul_right g.lebSize (hhead ▸ Nat.le_add_right s.ltailLnum d)
      exact_mod_cast hle.trans (Nat.le_add_right ..)
    rw [if_pos hle, hhead, hm]
    push_cast
    ring
  · rw [if_neg hround] at hhead
    have htail : s.ltailLnum = s.lheadLnum + m := by omega
    have hle : s.lheadLnum * g.lebSize + s.lheadOffs ≤ s.ltailLnum * g.lebSize := by
      have hone := Nat.le_mul_of_pos_left g.lebSize (show 0 < m by omega)
      have hoffs := h.offs
      rw [htail, Nat.add_mul]
      omega
    have hlt : ¬(s.lheadLnum : Int) * g.lebSize + s.lheadOffs ≥ s.ltailLnum * g.lebSize := by
      exact_mod_cast not_le.mpr (lt_of_le_of_ne hle hne)
    rw [if_neg hlt, htail]
    push_cast
    ring

/-- LEBs that are not needed may be overwritten. -/
theorem le_roomFrom (hn : 2 ≤ g.logLebs) {j m k : Nat} (hj : j ≤ m)
    (h : ∀ i < j, s.needed (s.lebAt g (k + i)) = false) :
    j * g.lebSize ≤ s.roomFrom g m (s.lebAt g k) := by
  induction m generalizing j k with
  | zero =>
    rw [Nat.le_zero.mp hj, Nat.zero_mul]
    exact Nat.zero_le _
  | succ m ih =>
    cases j with
    | zero =>
      rw [Nat.zero_mul]
      exact Nat.zero_le _
    | succ j =>
      have hk : s.needed (s.lebAt g k) = false := h 0 (Nat.succ_pos _)
      have hrest := ih (k := k + 1) (Nat.le_of_succ_le_succ hj) fun i hi => by
        rw [Nat.add_assoc, Nat.add_comm 1 i]
        exact h (i + 1) (Nat.succ_lt_succ hi)
      unfold roomFrom
      rw [hk, next_lebAt hn, Nat.succ_mul]
      simp only [Bool.false_eq_true, if_false]
      omega

/-- What is not between tail and head is not needed. -/
theorem InvAt.not_needed (h : s.InvAt g d) (hcs : s.cs = s.mstCs) {k : Nat} (hk : k < g.logLebs)
    (hdk : d < k ∨ d = k ∧ s.lheadOffs = 0) : s.needed (s.lebAt g k) = false := by
  unfold needed
  rw [List.any_eq_false]
  intro q hq hle
  obtain ⟨k', -, hk', heq⟩ := h.span _ q hq (hcs ▸ of_decide_eq_true hle)
  have hkk : k = k' := Ring.place_inj hk (by omega) heq
  omega

/-- **The empty bytes are not overrated.** -/
theorem InvAt.emptyLogBytes_le (hn : 2 ≤ g.logLebs) (h : s.InvAt g d) (hcs : s.cs = s.mstCs)
    (hne : s.lheadLnum * g.lebSize + s.lheadOffs ≠ s.ltailLnum * g.lebSize) :
    s.emptyLogBytes g ≤ s.room g := by
  have hlt := h.lt hne
  have hfrom : (g.logLebs - d - 1) * g.lebSize ≤
      s.roomFrom g (g.logLebs - 1) (nextLogLnum g s.lheadLnum) := by
    rw [h.head, next_lebAt hn]
    exact le_roomFrom hn (by omega) fun i hi => h.not_needed hcs (by omega) (.inl (by omega))
  have hhead : g.lebSize - s.lheadOffs ≤
      if s.needed s.lheadLnum then g.lebSize - s.lheadOffs else g.lebSize := by
    split
    · exact le_rfl
    · exact Nat.sub_le ..
  obtain ⟨m, hm⟩ : ∃ m, g.logLebs - d = m + 1 := ⟨g.logLebs - d - 1, by omega⟩
  have hoffs := h.offs
  have hbytes : (m + 1) * g.lebSize - s.lheadOffs ≤ s.room g := by
    rw [hm, Nat.add_sub_cancel] at hfrom
    rw [Nat.succ_mul]
    unfold room
    omega
  have hmul : g.lebSize ≤ (m + 1) * g.lebSize := Nat.le_mul_of_pos_left _ (Nat.succ_pos m)
  rw [h.emptyLogBytes hne, hm]
  zify [hoffs.trans hmul] at hbytes
  exact_mod_cast hbytes

/-! ## The head moves, the LEB at the head is unmapped, nodes are written -/

/-- What is between tail and head only grows. -/
theorem Span.mono {s' : State} {d' : Nat} (h : s.Span g c e d) (htail : s'.ltailLnum = s.ltailLnum)
    (hd : d < d' ∨ d = d' ∧ (0 < s.lheadOffs → 0 < s'.lheadOffs))
    (hflash : ∀ lnum, ∀ q ∈ (s'.flash lnum).sqnums, c ≤ q → q ∈ (s.flash lnum).sqnums) :
    s'.Span g c e d' := by
  intro lnum q hq hc
  obtain ⟨k, hek, hk, heq⟩ := h lnum q (hflash lnum q hq hc) hc
  refine ⟨k, hek, by omega, ?_⟩
  unfold lebAt
  rw [htail]
  exact heq

/-- The head moves to the next LEB. -/
theorem InvAt.next (hn : 2 ≤ g.logLebs) (h : s.InvAt g d) (hd : d < g.logLebs) :
    { s with lheadLnum := nextLogLnum g s.lheadLnum, lheadOffs := 0 }.InvAt g (d + 1) where
  tail := h.tail
  head := by
    show nextLogLnum g s.lheadLnum = s.lebAt g (d + 1)
    rw [h.head, next_lebAt hn]
  fill := by
    show d + 1 < g.logLebs ∨ d + 1 = g.logLebs ∧ 0 = 0
    omega
  offs := Nat.zero_le _
  used := fun h0 => absurd rfl h0
  span := Span.mono h.span rfl (.inl (Nat.lt_succ_self d)) fun _ _ hq _ => hq
  sqnum := h.sqnum
  safe := h.safe

theorem unmapHead_flash (s : State) :
    s.unmapHead.flash = Function.update s.flash s.lheadLnum ⟨[], 0⟩ := rfl

theorem writeHead_flash (g : Geometry) (s : State) (nodes len : Nat) :
    (s.writeHead g nodes len).flash = Function.update s.flash s.lheadLnum
      ⟨(s.flash s.lheadLnum).sqnums ++ (List.range nodes).map (s.sqnum + 1 + ·),
        s.lheadOffs + len⟩ := rfl

/-- Unmapping adds nothing. -/
theorem mem_unmapHead {lnum q : Nat} (hq : q ∈ (s.unmapHead.flash lnum).sqnums) :
    q ∈ (s.flash lnum).sqnums := by
  rw [unmapHead_flash] at hq
  by_cases hl : lnum = s.lheadLnum
  · rw [hl, Function.update_self] at hq
    cases hq
  · rwa [Function.update_of_ne hl] at hq

/-- A head at the start of a LEB may unmap it. -/
theorem Span.clearHead (h : s.Span g c e d) : s.clearHead.Span g c e d := by
  unfold State.clearHead
  by_cases h0 : s.lheadOffs = 0
  · rw [if_pos h0]
    exact Span.mono h rfl (.inr ⟨rfl, id⟩) fun _ _ hq _ => mem_unmapHead hq
  · rwa [if_neg h0]

/-- The LEB at the head is unmapped only where it is not needed. -/
theorem InvAt.clearHead (h : s.InvAt g d) (hcs : s.cs = s.mstCs) (hd : d < g.logLebs) :
    s.clearHead.InvAt g d ∧ (s.clearHead.flash s.lheadLnum).used ≤ s.lheadOffs := by
  have hspan := Span.clearHead h.span
  unfold State.clearHead at hspan ⊢
  by_cases h0 : s.lheadOffs = 0
  · rw [if_pos h0] at hspan ⊢
    have hused : (s.unmapHead.flash s.lheadLnum).used = 0 := by
      rw [unmapHead_flash, Function.update_self]
    have hneeded : s.needed s.lheadLnum = false := by
      rw [h.head]
      exact h.not_needed hcs hd (.inr ⟨rfl, h0⟩)
    refine ⟨⟨h.tail, h.head, h.fill, h.offs, fun hne => absurd h0 hne, hspan, ?_, ?_⟩, ?_⟩
    · exact fun lnum q hq => h.sqnum lnum q (mem_unmapHead hq)
    · refine ⟨?_, h.safe.2⟩
      show (s.overrun || s.needed s.lheadLnum) = false
      rw [h.safe.1, hneeded, Bool.or_false]
    · rw [hused]
      exact Nat.zero_le _
  · rw [if_neg h0]
    exact ⟨h, h.used h0⟩

/-- The nodes that are written have the next sequence numbers. -/
theorem mem_writeHead {nodes len lnum q : Nat}
    (hq : q ∈ ((s.writeHead g nodes len).flash lnum).sqnums) :
    q ∈ (s.flash lnum).sqnums ∨ lnum = s.lheadLnum ∧ s.sqnum < q ∧ q ≤ s.sqnum + nodes := by
  rw [writeHead_flash] at hq
  by_cases hl : lnum = s.lheadLnum
  · rw [hl, Function.update_self, List.mem_append] at hq
    rcases hq with hq | hq
    · exact .inl (hl ▸ hq)
    · obtain ⟨i, hi, rfl⟩ := List.mem_map.mp hq
      rw [List.mem_range] at hi
      exact .inr ⟨hl, by omega, by omega⟩
  · rw [Function.update_of_ne hl] at hq
    exact .inl hq

/-- Nodes are written at the head. -/
theorem Span.writeHead {nodes len : Nat} (h : s.Span g c e d) (hhead : s.lheadLnum = s.lebAt g d)
    (hed : e ≤ d) (hlen : 0 < len) : (s.writeHead g nodes len).Span g c e d := by
  intro lnum q hq hc
  have hoffs : 0 < (s.writeHead g nodes len).lheadOffs := Nat.add_pos_right _ hlen
  rcases mem_writeHead hq with hq | ⟨hl, -, -⟩
  · obtain ⟨k, hek, hk, heq⟩ := h lnum q hq hc
    exact ⟨k, hek, hk.imp_right fun hk => ⟨hk.1, hoffs⟩, heq⟩
  · exact ⟨d, hed, .inr ⟨rfl, hoffs⟩, hl.trans hhead⟩

/-- And the head goes behind them. -/
theorem InvAt.writeHead {nodes len : Nat} (h : s.InvAt g d) (hd : d < g.logLebs)
    (hused : (s.flash s.lheadLnum).used ≤ s.lheadOffs) (hlen : 0 < len)
    (hfit : s.lheadOffs + len ≤ g.lebSize) : (s.writeHead g nodes len).InvAt g d where
  tail := h.tail
  head := h.head
  fill := .inl hd
  offs := hfit
  used := by
    intro _
    show ((s.writeHead g nodes len).flash s.lheadLnum).used ≤ s.lheadOffs + len
    rw [writeHead_flash, Function.update_self]
  span := Span.writeHead h.span h.head (Nat.zero_le d) hlen
  sqnum := by
    intro lnum q hq
    show q ≤ s.sqnum + nodes
    rcases mem_writeHead hq with hq | ⟨-, -, hle⟩
    · exact (h.sqnum lnum q hq).trans (Nat.le_add_right ..)
    · exact hle
  safe := by
    refine ⟨?_, h.safe.2⟩
    show (s.overrun || decide (s.lheadOffs < (s.flash s.lheadLnum).used) ||
      decide (g.lebSize < s.lheadOffs + len)) = false
    rw [h.safe.1, decide_eq_false hused.not_gt, decide_eq_false hfit.not_gt]
    rfl

/-! ## Adding a bud -/

/-- What a commit start needs: an LEB of its own, which is not the tail. -/
def Spare (g : Geometry) (s : State) (d : Nat) : Prop :=
  if s.lheadOffs = 0 then 0 < d ∧ d < g.logLebs else d + 1 < g.logLebs

/-- What holds for the commit that is under way. -/
def Phase (g : Geometry) (s : State) (d : Nat) : Prop :=
  match s.commit with
  | .resting | .written _ => s.minLogBytes = 0 ∨ s.minLogBytes = g.lebSize ∧ s.Spare g d
  | .running newTail cs =>
    s.minLogBytes = 0 ∧ ∃ e, 0 < e ∧ (e < d ∨ e = d ∧ 0 < s.lheadOffs) ∧ newTail = s.lebAt g e ∧
      s.Span g cs e d
  | .ended _ _ => s.minLogBytes = g.lebSize ∧ s.Spare g d

theorem Phase.minLogBytes_nonneg (h : s.Phase g d) : 0 ≤ s.minLogBytes := by
  unfold Phase at h
  cases hc : s.commit <;> simp only [hc] at h <;> omega

/-- The run invariant. -/
def Inv (g : Geometry) (s : State) : Prop := ∃ d, s.InvAt g d ∧ s.Phase g d

end State

namespace Geometry.Accepted

variable {g : Geometry}

/-- A commit start node and its references fit in a LEB. -/
theorem csLen_pos (h : g.Accepted) (refs : Nat) : 0 < g.csLen refs := by
  have hle : ubifsCsNodeSz + refs * g.refNodeSz ≤ g.csLen refs := le_align h.minIoSize
  have hcs : 0 < ubifsCsNodeSz := by decide
  omega

theorem csLen_le (h : g.Accepted) {refs : Nat} (hrefs : refs ≤ g.jheadCnt) :
    g.csLen refs ≤ g.lebSize := by
  apply le_trans ?_ h.fits
  exact align_mono (Nat.add_le_add_left (Nat.mul_le_mul_right _ hrefs) _)

theorem refNodeAlsz_pos (h : g.Accepted) : 0 < g.refNodeAlsz :=
  h.refNodeSz.trans_le (le_align h.minIoSize)

/-- So does a reference node. -/
theorem refNodeAlsz_le (h : g.Accepted) : g.refNodeAlsz ≤ g.lebSize := by
  apply le_trans ?_ h.fits
  have hone := Nat.mul_le_mul_right g.refNodeSz h.jheadCnt
  exact align_mono (by omega)

end Geometry.Accepted

namespace State

variable {g : Geometry} {s : State} {c d e : Nat}

/-- Where the empty bytes are `r` or more, and how many LEBs that makes. -/
theorem InvAt.lt_of_le_emptyLogBytes {k r : Nat} (h : s.InvAt g d)
    (hne : s.lheadLnum * g.lebSize + s.lheadOffs ≠ s.ltailLnum * g.lebSize)
    (hk : k * g.lebSize < s.lheadOffs + r) (hr : (r : Int) ≤ s.emptyLogBytes g) :
    d + k < g.logLebs := by
  have hlt := h.lt hne
  rw [h.emptyLogBytes hne] at hr
  have hr : s.lheadOffs + r ≤ (g.logLebs - d) * g.lebSize := by
    have hr : ((s.lheadOffs + r : Nat) : Int) ≤ ((g.logLebs - d) * g.lebSize : Nat) := by
      push_cast at hr ⊢
      omega
    exact_mod_cast hr
  have hk := Nat.lt_of_mul_lt_mul_right (hk.trans_le hr)
  omega

/-- A reference node at a head that has moved on or needs not. -/
theorem InvAt.putRef (h : s.InvAt g d) (hcs : s.cs = s.mstCs) (hd : d < g.logLebs) {len : Nat}
    (hlen : 0 < len) (hfit : s.lheadOffs + len ≤ g.lebSize) (nodes : Nat) :
    (s.clearHead.writeHead g nodes len).InvAt g d ∧
      ∀ c e, e ≤ d → s.Span g c e d → (s.clearHead.writeHead g nodes len).Span g c e d := by
  obtain ⟨hclear, hused⟩ := h.clearHead hcs hd
  have hhead : s.clearHead.lheadLnum = s.lheadLnum ∧ s.clearHead.lheadOffs = s.lheadOffs := by
    unfold State.clearHead
    split <;> exact ⟨rfl, rfl⟩
  rw [← hhead.1, ← hhead.2] at hused
  rw [← hhead.2] at hfit
  refine ⟨hclear.writeHead hd hused hlen hfit, fun c e he hspan => ?_⟩
  exact Span.writeHead (Span.clearHead hspan) hclear.head he hlen

/-- What adding a bud does where the log has room for a reference node. -/
theorem InvAt.addRef (hg : g.Accepted) (h : s.InvAt g d) (hcs : s.cs = s.mstCs)
    (hne : s.lheadLnum * g.lebSize + s.lheadOffs ≠ s.ltailLnum * g.lebSize)
    (hroom : (g.refNodeAlsz : Int) ≤ s.emptyLogBytes g) :
    ∃ d', ((s.moveOn g).clearHead.writeHead g 1 g.refNodeAlsz).InvAt g d' ∧
      (∀ c e, e ≤ d → s.Span g c e d →
        ((s.moveOn g).clearHead.writeHead g 1 g.refNodeAlsz).Span g c e d') ∧ d ≤ d' ∧
      (((g.lebSize + g.refNodeAlsz : Nat) : Int) ≤ s.emptyLogBytes g → d' + 1 < g.logLebs) := by
  have hpos := hg.refNodeAlsz_pos
  have hle := hg.refNodeAlsz_le
  unfold moveOn
  by_cases hfull : (s.lheadOffs : Int) > g.lebSize - g.refNodeAlsz
  · -- the reference node goes to the next LEB, which is not the tail
    rw [if_pos hfull]
    have hd : d + 1 < g.logLebs := h.lt_of_le_emptyLogBytes hne (by omega) hroom
    have hnext := h.next hg.logLebs (by omega)
    obtain ⟨hinv, hspan⟩ := hnext.putRef hcs hd hpos
      (show 0 + g.refNodeAlsz ≤ g.lebSize by omega) 1
    refine ⟨d + 1, hinv, ?_, Nat.le_succ d, ?_⟩
    · intro c e he hs
      exact hspan c e (by omega) (Span.mono hs rfl (.inl (Nat.lt_succ_self d)) fun _ _ hq _ => hq)
    · exact fun hmore => h.lt_of_le_emptyLogBytes (k := 2) hne (by omega) hmore
  · rw [if_neg hfull]
    obtain ⟨hinv, hspan⟩ := h.putRef hcs (h.lt hne) hpos (by omega) 1
    refine ⟨d, hinv, hspan, le_refl d, ?_⟩
    exact fun hmore => h.lt_of_le_emptyLogBytes (k := 1) hne (by omega) hmore

/-- The commit that is under way goes on. -/
theorem Phase.add {s' : State} {d' : Nat} (h : s.Phase g d) (hended : s.commit.isEnded = false)
    (hcommit : s'.commit = s.commit) (hmin : s'.minLogBytes = s.minLogBytes)
    (htail : s'.ltailLnum = s.ltailLnum) (hoffs : 0 < s'.lheadOffs) (hd : d ≤ d')
    (hspan : ∀ c e, e ≤ d → s.Span g c e d → s'.Span g c e d')
    (hspare : s.minLogBytes = g.lebSize → d' + 1 < g.logLebs) : s'.Phase g d' := by
  unfold Phase at h ⊢
  have hspare' : s.minLogBytes = g.lebSize → s'.Spare g d' := by
    intro hm
    unfold Spare
    rw [if_neg hoffs.ne']
    exact hspare hm
  rw [hcommit, hmin]
  cases hc : s.commit with
  | resting =>
    simp only [hc] at h ⊢
    exact h.imp_right fun h => ⟨h.1, hspare' h.1⟩
  | written oldTail =>
    simp only [hc] at h ⊢
    exact h.imp_right fun h => ⟨h.1, hspare' h.1⟩
  | running newTail cs =>
    simp only [hc] at h ⊢
    obtain ⟨hzero, e, he, hed, hnew, hs⟩ := h
    refine ⟨hzero, e, he, by omega, ?_, hspan cs e (by omega) hs⟩
    unfold lebAt
    rw [htail]
    exact hnew
  | ended oldTail cs =>
    rw [hc] at hended
    cases hended

/-- Writing a reference does not touch the commit or the tail. -/
theorem addRef_frame (g : Geometry) (s : State) (n len : Nat) :
    ((s.moveOn g).clearHead.writeHead g n len).commit = s.commit ∧
      ((s.moveOn g).clearHead.writeHead g n len).minLogBytes = s.minLogBytes ∧
      ((s.moveOn g).clearHead.writeHead g n len).ltailLnum = s.ltailLnum := by
  unfold moveOn clearHead
  split <;> split <;> exact ⟨rfl, rfl, rfl⟩

/-- Before the end of a commit the master node has the old one. -/
theorem cs_of_not_ended (h : s.commit.isEnded = false) : s.cs = s.mstCs := by
  unfold cs
  cases hc : s.commit with
  | ended => rw [hc] at h; cases h
  | _ => rfl

/-- A bud is added, or refused for lack of space. -/
theorem Inv.addBud (hg : g.Accepted) {jhead lnum offs : Nat} (h : s.Inv g)
    (hok : (Event.addBud jhead lnum offs).Ok g s) :
    (s.ubifsAddBudToLog g jhead lnum offs).Inv g := by
  obtain ⟨d, hinv, hphase⟩ := h
  obtain ⟨hended, hne⟩ := hok
  have hcs := cs_of_not_ended hended
  have hrated : (s.overrated || decide ((s.room g : Int) < s.emptyLogBytes g)) = false := by
    rw [hinv.safe.2, decide_eq_false (hinv.emptyLogBytes_le hg.logLebs hcs hne).not_gt]
    rfl
  unfold ubifsAddBudToLog
  rw [hrated, ← hinv.safe.2]
  show State.Inv g (if s.emptyLogBytes g - g.refNodeAlsz < s.minLogBytes then s
    else if s.budBytes + g.lebSize - offs > g.maxBudBytes then s
    else ((s.moveOn g).clearHead.writeHead g 1 g.refNodeAlsz).ubifsAddBud g ⟨lnum, offs, jhead⟩)
  by_cases hroom : s.emptyLogBytes g - g.refNodeAlsz < s.minLogBytes
  · rw [if_pos hroom]
    exact ⟨d, hinv, hphase⟩
  rw [if_neg hroom]
  by_cases hbytes : s.budBytes + g.lebSize - offs > g.maxBudBytes
  · rw [if_pos hbytes]
    exact ⟨d, hinv, hphase⟩
  rw [if_neg hbytes]
  obtain ⟨hcommit, hmin, htail⟩ := addRef_frame g s 1 g.refNodeAlsz
  have hle : (g.refNodeAlsz : Int) ≤ s.emptyLogBytes g := by
    have hmin := hphase.minLogBytes_nonneg
    omega
  obtain ⟨d', hinv', hspan, hd, hmore⟩ := hinv.addRef hg hcs hne hle
  refine ⟨d', ⟨hinv'.tail, hinv'.head, hinv'.fill, hinv'.offs, hinv'.used, hinv'.span,
    hinv'.sqnum, hinv'.safe⟩, ?_⟩
  have hoffs : 0 < ((s.moveOn g).clearHead.writeHead g 1 g.refNodeAlsz).lheadOffs :=
    Nat.add_pos_right _ hg.refNodeAlsz_pos
  apply hphase.add hended hcommit hmin htail hoffs hd hspan
  intro hm
  apply hmore
  push_cast
  omega

/-- A commit that starts finds a LEB that is free. -/
theorem InvAt.spare (hn : 2 ≤ g.logLebs) (h : s.InvAt g d) (hphase : s.Phase g d)
    (hrest : s.commit = .resting) {wbufs : List Wbuf} (hok : (Event.startCommit wbufs).Ok g s) :
    s.Spare g d := by
  unfold Phase at hphase
  simp only [hrest] at hphase
  rcases hphase with hmin | ⟨-, hspare⟩
  · have hne : (s.switchLeb g).lheadLnum ≠ s.ltailLnum := hok hmin
    have hfill := h.fill
    unfold State.switchLeb at hne
    unfold Spare
    by_cases h0 : s.lheadOffs = 0
    · rw [if_neg (not_not.mpr h0), h.head] at hne
      rw [if_pos h0]
      refine ⟨Nat.pos_of_ne_zero ?_, lt_of_le_of_ne (by omega) ?_⟩
      · rintro rfl
        exact hne (Ring.place_zero h.tail)
      · rintro rfl
        exact hne (lebAt_round h.tail)
    · rw [if_pos h0] at hne
      change nextLogLnum g s.lheadLnum ≠ s.ltailLnum at hne
      rw [h.head, next_lebAt hn] at hne
      rw [if_neg h0]
      refine lt_of_le_of_ne (by omega) ?_
      intro hround
      rw [hround] at hne
      exact hne (lebAt_round h.tail)
  · exact hspare

/-- A commit starts in an LEB that is neither the tail nor needed. -/
theorem InvAt.switchLeb (hn : 2 ≤ g.logLebs) (h : s.InvAt g d) (hspare : s.Spare g d) :
    ∃ d', 0 < d' ∧ d' < g.logLebs ∧ (s.switchLeb g).InvAt g d' ∧ (s.switchLeb g).lheadOffs = 0 := by
  unfold Spare at hspare
  unfold State.switchLeb
  by_cases h0 : s.lheadOffs = 0
  · rw [if_pos h0] at hspare
    rw [if_neg (not_not.mpr h0)]
    exact ⟨d, hspare.1, hspare.2, h, h0⟩
  · rw [if_neg h0] at hspare
    rw [if_pos h0]
    exact ⟨d + 1, Nat.succ_pos d, hspare, h.next hn (by omega), rfl⟩

/-- Nothing but the buds changes. -/
theorem removeBuds_frame (g : Geometry) (s : State) (wbufs : List Wbuf) :
    ∃ buds oldBuds cmtBudBytes, s.removeBuds g wbufs =
      { s with buds := buds, oldBuds := oldBuds, cmtBudBytes := cmtBudBytes } := by
  have hone : ∀ (s : State) bud, ∃ buds oldBuds cmtBudBytes, s.removeBud g wbufs bud =
      { s with buds := buds, oldBuds := oldBuds, cmtBudBytes := cmtBudBytes } := by
    intro s bud
    unfold removeBud
    split
    · split <;> exact ⟨_, _, _, rfl⟩
    · exact ⟨_, _, _, rfl⟩
  have hall : ∀ (bs : List Bud) (s : State), ∃ buds oldBuds cmtBudBytes,
      bs.foldl (removeBud g wbufs) s =
        { s with buds := buds, oldBuds := oldBuds, cmtBudBytes := cmtBudBytes } := by
    intro bs
    induction bs with
    | nil => exact fun s => ⟨_, _, _, rfl⟩
    | cons bud bs ih =>
      intro s
      obtain ⟨_, _, _, h⟩ := hone s bud
      obtain ⟨_, _, _, h'⟩ := ih (removeBud g wbufs s bud)
      rw [List.foldl_cons, h', h]
      exact ⟨_, _, _, rfl⟩
  obtain ⟨_, _, _, h⟩ := hall s.buds { s with cmtBudBytes := 0, buds := [] }
  exact ⟨_, _, _, h⟩

/-- What a commit start does: a replay that begins at the new commit start node needs nothing of
    what was there before. -/
theorem InvAt.putCs (hg : g.Accepted) (h : s.InvAt g d) (hcs : s.cs = s.mstCs) (hd : d < g.logLebs)
    (h0 : s.lheadOffs = 0) {refs : Nat} (hrefs : refs ≤ g.jheadCnt) :
    ∃ d', ((s.clearHead.writeHead g (1 + refs) (g.csLen refs)).leaveFull g).InvAt g d' ∧
      (d < d' ∨ d = d' ∧
        0 < ((s.clearHead.writeHead g (1 + refs) (g.csLen refs)).leaveFull g).lheadOffs) ∧
      ((s.clearHead.writeHead g (1 + refs) (g.csLen refs)).leaveFull g).Span g (s.sqnum + 1) d d' := by
  have hlen := hg.csLen_pos refs
  obtain ⟨hinv, hspan⟩ := h.putRef hcs hd hlen (h0 ▸ (Nat.zero_add _).trans_le (hg.csLen_le hrefs))
    (1 + refs)
  have hnone : s.Span g (s.sqnum + 1) d d := fun lnum q hq hle =>
    absurd (h.sqnum lnum q hq) (by omega)
  have hspan := hspan _ _ (le_refl d) hnone
  unfold leaveFull
  by_cases hfull : (s.clearHead.writeHead g (1 + refs) (g.csLen refs)).lheadOffs = g.lebSize
  · rw [if_pos hfull]
    refine ⟨d + 1, hinv.next hg.logLebs hd, .inl (Nat.lt_succ_self d), ?_⟩
    exact Span.mono hspan rfl (.inl (Nat.lt_succ_self d)) fun _ _ hq _ => hq
  · rw [if_neg hfull]
    exact ⟨d, hinv, .inr ⟨rfl, Nat.add_pos_right _ hlen⟩, hspan⟩

/-- Writing the commit start node does not touch the tail. -/
theorem putCs_frame (g : Geometry) (s : State) (n len : Nat) :
    ((s.clearHead.writeHead g n len).leaveFull g).commit = s.commit ∧
      ((s.clearHead.writeHead g n len).leaveFull g).ltailLnum = s.ltailLnum := by
  unfold leaveFull clearHead
  split <;> split <;> exact ⟨rfl, rfl⟩

/-- A commit starts. -/
theorem Inv.startCommit (hg : g.Accepted) {wbufs : List Wbuf} (h : s.Inv g)
    (hrest : s.commit = .resting) (hlen : wbufs.length = g.jheadCnt)
    (hok : (Event.startCommit wbufs).Ok g s) : (s.ubifsLogStartCommit g wbufs).Inv g := by
  obtain ⟨d, hinv, hphase⟩ := h
  obtain ⟨e, he, hen, hinv, h0⟩ := hinv.switchLeb hg.logLebs (hinv.spare hg.logLebs hphase hrest hok)
  have hrefs : wbufs.countP (Wbuf.refd g) ≤ g.jheadCnt := hlen ▸ List.countP_le_length
  have hcommit : (s.switchLeb g).commit = .resting := by
    unfold State.switchLeb
    split <;> exact hrest
  have hcs : (s.switchLeb g).cs = (s.switchLeb g).mstCs :=
    cs_of_not_ended (hcommit ▸ rfl)
  obtain ⟨d', hinv', hd', hspan⟩ := hinv.putCs hg hcs hen h0 hrefs
  unfold ubifsLogStartCommit
  dsimp only
  obtain ⟨buds, oldBuds, cmtBudBytes, hframe⟩ := removeBuds_frame g
    (((s.switchLeb g).clearHead.writeHead g (1 + wbufs.countP (Wbuf.refd g))
      (g.csLen (wbufs.countP (Wbuf.refd g)))).leaveFull g) wbufs
  rw [hframe]
  obtain ⟨hcommit', htail⟩ := putCs_frame g (s.switchLeb g) (1 + wbufs.countP (Wbuf.refd g))
    (g.csLen (wbufs.countP (Wbuf.refd g)))
  have hspan' := hinv'.span
  rw [cs_of_not_ended (by rw [hcommit', hcommit]; rfl)] at hspan'
  refine ⟨d', ⟨hinv'.tail, hinv'.head, hinv'.fill, hinv'.offs, hinv'.used, hspan', hinv'.sqnum,
    hinv'.safe⟩, ?_⟩
  refine ⟨rfl, e, he, hd', ?_, hspan⟩
  show (s.switchLeb g).lheadLnum = Ring.place ubifsLogLnum g.logLebs _ e
  rw [hinv.head]
  unfold lebAt
  rw [← htail]

/-- The tail moves to the new commit start node. -/
theorem Inv.endCommit {newTail cs : Nat} (h : s.Inv g) (hrun : s.commit = .running newTail cs) :
    { s.ubifsLogEndCommit g newTail with commit := .ended s.ltailLnum cs }.Inv g := by
  obtain ⟨d, hinv, hphase⟩ := h
  unfold Phase at hphase
  simp only [hrun] at hphase
  obtain ⟨-, e, he, hed, hnew, hspan⟩ := hphase
  have hplace : ∀ k, Ring.place ubifsLogLnum g.logLebs newTail k = s.lebAt g (e + k) := by
    intro k
    rw [hnew]
    exact Ring.place_place
  have hsum : e + (d - e) = d := by omega
  have hfill := hinv.fill
  have hpos := hinv.tail.pos
  refine ⟨d - e, ⟨?_, ?_, by show d - e < _ ∨ _; omega, hinv.offs, hinv.used, ?_, hinv.sqnum,
    hinv.safe⟩, rfl, ?_⟩
  · show Ring.In ubifsLogLnum g.logLebs newTail
    rw [hnew]
    exact Ring.place_in hpos
  · show s.lheadLnum = Ring.place ubifsLogLnum g.logLebs newTail (d - e)
    rw [hplace, hsum, hinv.head]
  · intro lnum q hq hc
    obtain ⟨k, hek, hk, heq⟩ := hspan lnum q hq hc
    refine ⟨k - e, Nat.zero_le _, ?_, ?_⟩
    · show k - e < d - e ∨ k - e = d - e ∧ 0 < s.lheadOffs
      omega
    · show lnum = Ring.place ubifsLogLnum g.logLebs newTail (k - e)
      rw [hplace, heq, Nat.add_sub_cancel' hek]
  · show if s.lheadOffs = 0 then 0 < d - e ∧ d - e < g.logLebs else d - e + 1 < g.logLebs
    split <;> omega

/-- The master node is written. -/
theorem Inv.writeMaster {oldTail cs : Nat} (h : s.Inv g) (hend : s.commit = .ended oldTail cs) :
    { s with mstCs := cs, commit := .written oldTail }.Inv g := by
  obtain ⟨d, hinv, hphase⟩ := h
  unfold Phase at hphase
  simp only [hend] at hphase
  have hspan := hinv.span
  unfold State.cs at hspan
  simp only [hend] at hspan
  exact ⟨d, ⟨hinv.tail, hinv.head, hinv.fill, hinv.offs, hinv.used, hspan, hinv.sqnum, hinv.safe⟩,
    .inr hphase⟩

/-- Unmapping changes the flash only. -/
theorem unmapUpto_frame (g : Geometry) (s : State) (n lnum : Nat) :
    ∃ flash, s.unmapUpto g n lnum = { s with flash := flash } ∧
      ∀ l, flash l = s.flash l ∨ flash l = ⟨[], 0⟩ := by
  induction n generalizing s lnum with
  | zero => exact ⟨_, rfl, fun _ => .inl rfl⟩
  | succ n ih =>
    unfold unmapUpto
    by_cases htail : lnum = s.ltailLnum
    · rw [if_pos htail]
      exact ⟨_, rfl, fun _ => .inl rfl⟩
    · rw [if_neg htail]
      obtain ⟨flash, heq, hflash⟩ :=
        ih { s with flash := Function.update s.flash lnum ⟨[], 0⟩ } (nextLogLnum g lnum)
      refine ⟨flash, heq, fun l => ?_⟩
      rcases hflash l with hl | hl
      · by_cases hlnum : l = lnum
        · subst hlnum
          exact .inr (hl.trans (Function.update_self ..))
        · exact .inl (hl.trans (Function.update_of_ne hlnum ..))
      · exact .inr hl

/-- Nothing is needed less for LEBs that are unmapped. -/
theorem Inv.postCommit {oldTail : Nat} (h : s.Inv g) (hwritten : s.commit = .written oldTail) :
    { s.ubifsLogPostCommit g oldTail with commit := .resting }.Inv g := by
  obtain ⟨d, hinv, hphase⟩ := h
  unfold Phase at hphase
  simp only [hwritten] at hphase
  unfold ubifsLogPostCommit
  obtain ⟨flash, heq, hflash⟩ := unmapUpto_frame g { s with oldBuds := [] } g.logLebs oldTail
  rw [heq]
  have hsub : ∀ lnum, ∀ q ∈ (flash lnum).sqnums, q ∈ (s.flash lnum).sqnums := by
    intro lnum q hq
    rcases hflash lnum with hl | hl
    · exact hl ▸ hq
    · rw [hl] at hq
      cases hq
  have hspan := hinv.span
  rw [cs_of_not_ended (hwritten ▸ rfl)] at hspan
  refine ⟨d, ⟨hinv.tail, hinv.head, hinv.fill, hinv.offs, ?_, ?_, ?_, hinv.safe⟩, hphase⟩
  · intro hne
    show (flash s.lheadLnum).used ≤ s.lheadOffs
    rcases hflash s.lheadLnum with hl | hl
    · exact hl ▸ hinv.used hne
    · rw [hl]
      exact Nat.zero_le _
  · exact Span.mono hspan rfl (.inr ⟨rfl, id⟩) fun lnum q hq _ => hsub lnum q hq
  · exact fun lnum q hq => hinv.sqnum lnum q (hsub lnum q hq)

/-! ## Runs -/

/-- Any step of the file system. -/
theorem Inv.step (hg : g.Accepted) {s' : State} {ev : Event} (h : s.Inv g) (hok : ev.Ok g s)
    (hstep : s.step g ev = some s') : s'.Inv g := by
  cases ev with
  | addBud jhead lnum offs =>
    cases hstep
    exact h.addBud hg hok
  | startCommit wbufs =>
    cases hc : s.commit <;> simp only [State.step, hc, reduceCtorEq] at hstep
    by_cases hlen : wbufs.length = g.jheadCnt
    · rw [if_pos hlen] at hstep
      cases hstep
      exact h.startCommit hg hc hlen hok
    · simp [if_neg hlen] at hstep
  | endCommit =>
    cases hc : s.commit <;> simp only [State.step, hc, reduceCtorEq] at hstep
    cases hstep
    exact h.endCommit hc
  | writeMaster =>
    cases hc : s.commit <;> simp only [State.step, hc, reduceCtorEq] at hstep
    cases hstep
    exact h.writeMaster hc
  | postCommit =>
    cases hc : s.commit <;> simp only [State.step, hc, reduceCtorEq] at hstep
    cases hstep
    exact h.postCommit hc

end State

end Ubifs.Log
