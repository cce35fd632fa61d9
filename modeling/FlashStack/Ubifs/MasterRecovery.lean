/-
  The master node survives power cuts.

  An LEB holds some master nodes and perhaps a torn one (`Holds`), or nothing but perhaps a torn one
  (`Blank`).  `Disk` lists what the two LEBs may be like after a cut, and `mount_spec` says what a
  mount makes of it.  The case of a first LEB that has been unmapped and written again is the one that
  needs an LEB of whole slots, and of two of them at least.

  Structure:
  1. reading one LEB;
  2. reading both;
  3. `ubifs_write_master`;
  4. runs.
-/
import FlashStack.Ubifs.Master

namespace Ubifs

open Lib

variable {M : Type} {g : Geometry}

/-- An LEB has whole slots, at least two. -/
structure Geometry.Whole (g : Geometry) : Prop where
  pages : 0 < g.minIoSize
  slots : g.mstNodeAlsz ∣ g.lebSize
  two : 2 * g.mstNodeAlsz ≤ g.lebSize

/-- A slot has room for a node. -/
theorem Geometry.le_mstNodeAlsz (h : 0 < g.minIoSize) : ubifsMstNodeSz ≤ g.mstNodeAlsz := by
  unfold mstNodeAlsz align
  have hdiv := Nat.div_add_mod (ubifsMstNodeSz + g.minIoSize - 1) g.minIoSize
  have hmod := Nat.mod_lt (ubifsMstNodeSz + g.minIoSize - 1) h
  rw [Nat.mul_comm] at hdiv
  omega

/-! ## One LEB -/

/-- At most one slot, and no node. -/
def Tail (t : Buf M) : Prop := t = [] ∨ ∃ s, t = [s] ∧ s.scanANode = none

/-- Nothing is behind the last node. -/
def Clean (t : Buf M) : Bool := t.all Slot.isErased

/-- What an LEB looks like: its last node `m` is in slot `n`, or there is none; `clean` says that it
    ends there. -/
inductive Views (g : Geometry) (accept : UInt64 → M → Bool) (buf : Buf M) :
    Option (Nat × MstNode M) → Bool → Prop
  | blank : Tail buf → Views g accept buf none (Clean buf)
  | holds {ns : List (MstNode M)} {m t} : buf = ns.map .node ++ .node m :: t →
      ns.length * g.mstNodeAlsz + ubifsMstNodeSz ≤ g.lebSize → m.nodeType = .mst →
      accept m.sqnum m.data → Tail t → Views g accept buf (some (ns.length, m)) (Clean t)

section OneLeb

variable {accept : UInt64 → M → Bool} {buf t : Buf M} {v : Option (Nat × MstNode M)} {clean : Bool}

theorem Tail.length_le (h : Tail t) : t.length ≤ 1 := by
  rcases h with rfl | ⟨s, rfl, -⟩
  · exact Nat.zero_le _
  · exact le_rfl

/-- The last node that is seen is a master node that is accepted. -/
theorem Views.last {n : Nat} {m : MstNode M} (h : Views g accept buf (some (n, m)) clean) :
    m.nodeType = .mst ∧ accept m.sqnum m.data := by
  cases h with
  | holds _ _ htype haccept _ => exact ⟨htype, haccept⟩

/-- The slots of a LEB. -/
theorem slotAt_mul (hg : 0 < g.mstNodeAlsz) (buf : Buf M) (n : Nat) :
    slotAt g buf (n * g.mstNodeAlsz) = buf.getD n .erased := by
  unfold slotAt
  rw [Nat.mul_div_cancel _ hg]

/-- The offset of the last node. -/
def lastOffs (g : Geometry) (v : Option (Nat × MstNode M)) : Option (Nat × MstNode M) :=
  v.map fun p => (p.1 * g.mstNodeAlsz, p.2)

/-- A scan gets through nodes. -/
theorem ubifsScan_append (ns : List (MstNode M)) (offs : Nat) :
    ∃ l, l.length = ns.length ∧ ∀ buf, ubifsScan g offs (ns.map .node ++ buf) =
      (ubifsScan g (offs + ns.length * g.mstNodeAlsz) buf).map (l ++ ·) := by
  induction ns generalizing offs with
  | nil => exact ⟨[], rfl, fun buf => by simp⟩
  | cons m ns ih =>
    obtain ⟨l, hl, hscan⟩ := ih (offs + g.mstNodeAlsz)
    refine ⟨(offs, m) :: l, by simp [hl], fun buf => ?_⟩
    have hoffs : offs + g.mstNodeAlsz + ns.length * g.mstNodeAlsz =
        offs + (m :: ns).length * g.mstNodeAlsz := by
      rw [List.length_cons, Nat.succ_mul]
      omega
    rw [List.map_cons, List.cons_append, ubifsScan, hscan, hoffs, Option.map_map]
    rfl

/-- It ends well if nothing is behind them. -/
theorem ubifsScan_tail (h : Tail t) (offs : Nat) :
    ubifsScan g offs t = if Clean t then some [] else none := by
  rcases h with rfl | ⟨s, rfl, hs⟩
  · rfl
  · cases s with
    | erased => rfl
    | node m => cases hs
    | torn magic => rfl

/-- What `ubifs_scan` finds. -/
theorem ubifsScan_spec (h : Views g accept buf v clean) :
    (clean = false → ubifsScan g 0 buf = none) ∧
    (clean = true → ∃ l, ubifsScan g 0 buf = some l ∧ l.length = v.elim 0 (fun p => p.1 + 1) ∧
      l.getLast? = lastOffs g v) := by
  cases h with
  | blank ht =>
    rw [ubifsScan_tail ht]
    exact ⟨fun hc => by rw [hc]; rfl, fun hc => ⟨[], by rw [hc]; rfl, rfl, rfl⟩⟩
  | @holds ns m t hbuf _ _ _ ht =>
    obtain ⟨l, hl, hscan⟩ := ubifsScan_append (g := g) ns 0
    rw [hbuf, hscan, ubifsScan, ubifsScan_tail ht]
    constructor
    · intro hc
      rw [hc]
      rfl
    · intro hc
      rw [hc]
      refine ⟨_, rfl, ?_, ?_⟩
      · simp [hl]
      · simp [lastOffs]

/-- The search for the last node goes through them, too. -/
theorem noNode_append {ns : List (MstNode M)} {offs : Nat} (buf : Buf M)
    (h : ∀ i < ns.length, offs + i * g.mstNodeAlsz + ubifsMstNodeSz ≤ g.lebSize) :
    noNode g offs (ns.map .node ++ buf) = noNode g (offs + ns.length * g.mstNodeAlsz) buf := by
  induction ns generalizing offs with
  | nil => simp
  | cons m ns ih =>
    have hstep : noNode g offs ((m :: ns).map .node ++ buf) =
        noNode g (offs + g.mstNodeAlsz) (ns.map .node ++ buf) := by
      rw [List.map_cons, List.cons_append, noNode, if_pos]
      exact ⟨by simpa using h 0 (Nat.succ_pos _), rfl⟩
    have hoffs : offs + g.mstNodeAlsz + ns.length * g.mstNodeAlsz =
        offs + (m :: ns).length * g.mstNodeAlsz := by
      rw [List.length_cons, Nat.succ_mul]
      omega
    rw [hstep, ih fun i hi => ?_, hoffs]
    have hi' := h (i + 1) (Nat.succ_lt_succ hi)
    rw [Nat.succ_mul] at hi'
    omega

/-- At most one slot is taken for a node. -/
theorem noNode_tail (h : Tail t) (offs : Nat) :
    noNode g offs t = offs ∨ noNode g offs t = offs + g.mstNodeAlsz := by
  rcases h with rfl | ⟨s, rfl, -⟩
  · exact .inl rfl
  · unfold noNode
    split
    · exact .inr rfl
    · exact .inl rfl

/-- What is torn is not a node. -/
theorem Tail.getD (h : Tail t) (n : Nat) : (t.getD n .erased).scanANode = none := by
  rcases h with rfl | ⟨s, rfl, hs⟩
  · rfl
  · cases n with
    | zero => exact hs
    | succ n => rfl

/-- Behind the nodes the LEB is erased. -/
theorem Clean.getD (h : Clean t = true) (n : Nat) : (t.getD n .erased).isErased = true := by
  unfold Clean at h
  rw [List.getD_eq_getElem?_getD]
  cases hn : t[n]? with
  | none => rfl
  | some s => exact List.all_eq_true.mp h s (List.mem_of_getElem? hn)

/-- What follows position `k` decides about corruption. -/
theorem getMasterNode_eq (hg : 0 < g.mstNodeAlsz) {mst : Option (Nat × MstNode M)} {k : Nat}
    (hvalid : validNode g buf (noNode g 0 buf) = some (mst, k * g.mstNodeAlsz))
    (hlength : buf.length ≤ k + 1) :
    getMasterNode g buf = some ⟨mst, k * g.mstNodeAlsz < g.lebSize &&
      !(buf.getD k .erased).isErased⟩ := by
  unfold getMasterNode
  rw [hvalid]
  dsimp only
  rw [slotAt_mul hg, if_neg]
  rintro ⟨hlt, hrest⟩
  by_cases hk : k * g.mstNodeAlsz < g.lebSize
  · rw [if_pos hk, ← Nat.succ_mul, Nat.mul_div_cancel _ hg, List.drop_of_length_le hlength] at hrest
    exact hrest rfl
  · rw [if_neg hk] at hlt
    exact hk hlt

/-- What `get_master_node` finds. -/
theorem getMasterNode_spec (hg : 0 < g.mstNodeAlsz) (h : Views g accept buf v clean) :
    ∃ cor, getMasterNode g buf = some ⟨lastOffs g v, cor⟩ ∧ (clean = true → cor = false) := by
  cases h with
  | blank ht =>
    have hvalid : validNode g buf (noNode g 0 buf) = some (none, 0 * g.mstNodeAlsz) := by
      unfold validNode
      rcases noNode_tail (g := g) ht 0 with h0 | h0
      · rw [h0]
        simp
      · have hslot := slotAt_mul hg buf 0
        rw [Nat.zero_mul] at hslot
        rw [h0, Nat.zero_add, if_neg hg.ne']
        simp only [Nat.sub_self, hslot, ht.getD, Nat.zero_mul, if_true]
    refine ⟨_, getMasterNode_eq hg hvalid ht.length_le, fun hc => ?_⟩
    rw [Clean.getD hc]
    simp
  | @holds ns m t hbuf hfit htype _ ht =>
    have hslot : ∀ i, buf.getD (ns.length + i) .erased = (Slot.node m :: t).getD i .erased := by
      intro i
      rw [hbuf, List.getD_append_right _ _ _ _ (by simp)]
      simp
    have hvalid : validNode g buf (noNode g 0 buf) =
        some (lastOffs g (some (ns.length, m)), (ns.length + 1) * g.mstNodeAlsz) := by
      have hnode : slotAt g buf (ns.length * g.mstNodeAlsz) = .node m :=
        (slotAt_mul hg buf ns.length).trans (hslot 0)
      have hnext : (slotAt g buf ((ns.length + 1) * g.mstNodeAlsz)).scanANode = none := by
        rw [slotAt_mul hg, hslot 1]
        exact ht.getD 0
      have hbefore : noNode g 0 buf = noNode g ((ns.length + 1) * g.mstNodeAlsz) t := by
        have hall := @noNode_append _ g (ns ++ [m]) 0 t fun i hi => ?_
        · simpa [hbuf] using hall
        · rw [List.length_append, List.length_singleton] at hi
          have hle := Nat.mul_le_mul_right g.mstNodeAlsz (Nat.lt_succ_iff.mp hi)
          omega
      have hback : (ns.length + 1) * g.mstNodeAlsz - g.mstNodeAlsz = ns.length * g.mstNodeAlsz := by
        rw [Nat.succ_mul, Nat.add_sub_cancel]
      have hpos : (ns.length + 1) * g.mstNodeAlsz ≠ 0 :=
        (Nat.mul_pos (Nat.succ_pos _) hg).ne'
      unfold validNode
      rcases noNode_tail (g := g) ht ((ns.length + 1) * g.mstNodeAlsz) with h0 | h0
      · rw [hbefore, h0, if_neg hpos]
        simp only [hback, hnode]
        simp only [Slot.scanANode, htype, if_true, Nat.succ_mul]
        rfl
      · rw [hbefore, h0, if_neg (Nat.add_pos_right _ hg).ne']
        simp only [Nat.add_sub_cancel, hnext, hpos, if_false, hback, hnode]
        simp only [Slot.scanANode, htype, if_true, Nat.succ_mul]
        rfl
    refine ⟨_, getMasterNode_eq hg hvalid ?_, fun hc => ?_⟩
    · have hle := ht.length_le
      simp [hbuf]
      omega
    · rw [hslot 1, List.getD_cons_succ, Clean.getD hc]
      simp

end OneLeb

/-! ## Both LEBs -/

section BothLebs

variable [DecidableEq M] {accept : UInt64 → M → Bool} {buf₁ buf₂ : Buf M}
  {v₁ v₂ : Option (Nat × MstNode M)} {clean₁ clean₂ : Bool} {old new : M}

/-- What the LEBs may look like after a cut. -/
inductive Disk (g : Geometry) (old new : M) :
    Option (Nat × MstNode M) → Bool → Option (Nat × MstNode M) → Bool → Prop
  /-- both have been written, or the next node is being written to the first -/
  | same {n m m' clean} : m.same m' → (m.data = old ∨ m.data = new) →
      Disk g old new (some (n, m)) clean (some (n, m')) true
  /-- the first has been written -/
  | ahead {n m m' clean} : m.data = new →
      Disk g old new (some (n + 1, m)) true (some (n, m')) clean
  /-- the first has been unmapped -/
  | first {n m clean} : g.lebSize < n * g.mstNodeAlsz + g.mstNodeAlsz + g.mstNodeAlsz →
      m.data = old → Disk g old new none clean (some (n, m)) true
  /-- the first has been unmapped and written -/
  | wrapped {n m m'} : g.lebSize ≤ (n + 1) * g.mstNodeAlsz + g.mstNodeAlsz → m.data = new →
      Disk g old new (some (0, m)) true (some (n + 1, m')) true
  /-- the second has been unmapped, too -/
  | second {m clean} : m.data = new → Disk g old new (some (0, m)) true none clean
  /-- the first has been recovered -/
  | restored {m v clean} : m.rcvry → (m.data = old ∨ m.data = new) →
      Disk g old new (some (0, m)) true v clean

/-- If the LEBs agree, then on one of the contents. -/
theorem Disk.data {n : Nat} {m m' : MstNode M}
    (h : Disk g old new (some (n, m)) true (some (n, m')) true) : m.data = old ∨ m.data = new := by
  generalize hv : some (n, m') = v at h
  cases h with
  | same _ hdata => exact hdata
  | ahead hdata => exact .inr hdata
  | wrapped _ hdata => exact .inr hdata
  | second hdata => exact .inr hdata
  | restored _ hdata => exact hdata

/-- What `scan_for_master` does with what it finds. -/
def scanned (g : Geometry) : Option (Nat × MstNode M) → Option (Nat × MstNode M) → Scanned M
  | some (n, m), some (n', m') =>
    if n = n' ∧ m.same m' then .found (n * g.mstNodeAlsz) m else .euclean
  | _, _ => .euclean

/-- `scan_for_master` refuses what is torn, and compares what it has seen. -/
theorem scanForMaster_spec (h₁ : Views g accept buf₁ v₁ clean₁)
    (h₂ : Views g accept buf₂ v₂ clean₂) :
    scanForMaster g buf₁ buf₂ = if clean₁ ∧ clean₂ then scanned g v₁ v₂ else .euclean := by
  obtain ⟨hdirty₁, hclean₁⟩ := ubifsScan_spec h₁
  obtain ⟨hdirty₂, hclean₂⟩ := ubifsScan_spec h₂
  unfold scanForMaster
  cases clean₁ with
  | false =>
    rw [hdirty₁ rfl]
    simp
  | true =>
    obtain ⟨nodes₁, hscan₁, hlength₁, hlast₁⟩ := hclean₁ rfl
    have htype₁ : (lastOffs g v₁).any (fun p => p.2.nodeType ≠ .mst) = false := by
      cases v₁ with
      | none => rfl
      | some p => simp [lastOffs, h₁.last.1]
    rw [hscan₁]
    dsimp only
    rw [hlast₁, htype₁]
    cases clean₂ with
    | false =>
      rw [hdirty₂ rfl]
      simp
    | true =>
      obtain ⟨nodes₂, hscan₂, hlength₂, hlast₂⟩ := hclean₂ rfl
      rw [hscan₂]
      dsimp only
      rw [hlast₂, hlength₁, hlength₂]
      cases v₁ with
      | none =>
        cases v₂ with
        | none => rfl
        | some p => rfl
      | some p =>
        cases v₂ with
        | none => rfl
        | some p' =>
          have htype₂ := h₂.last.1
          by_cases hn : p.1 = p'.1
          · simp [lastOffs, scanned, htype₂, hn]
          · simp [scanned, hn, Ne.symm hn]

/-- What is recovered is one of the last nodes. -/
theorem recoverMasterNode_spec (hg : 0 < g.mstNodeAlsz) (h₁ : Views g accept buf₁ v₁ clean₁)
    (h₂ : Views g accept buf₂ v₂ clean₂) (h : Disk g old new v₁ clean₁ v₂ clean₂) :
    ∃ n m, (v₁ = some (n, m) ∨ v₂ = some (n, m)) ∧ recoverMasterNode g buf₁ buf₂ = some m ∧
      (m.data = old ∨ m.data = new) := by
  obtain ⟨cor₁, hgot₁, hcor₁⟩ := getMasterNode_spec hg h₁
  obtain ⟨cor₂, hgot₂, hcor₂⟩ := getMasterNode_spec hg h₂
  unfold recoverMasterNode
  rw [hgot₁, hgot₂]
  cases h with
  | @same n m m' clean hsame hdata =>
    refine ⟨n, m, .inl rfl, ?_, hdata⟩
    simp only [lastOffs, Option.map_some, hsame, if_true]
    exact ite_self _
  | @ahead n m m' clean hdata =>
    have hne : (n + 1) * g.mstNodeAlsz ≠ n * g.mstNodeAlsz := by
      rw [Nat.succ_mul]
      omega
    have heq : n * g.mstNodeAlsz + g.mstNodeAlsz = (n + 1) * g.mstNodeAlsz := (Nat.succ_mul ..).symm
    refine ⟨n + 1, m, .inl rfl, ?_, .inr hdata⟩
    simp [lastOffs, hcor₁ rfl, hne, heq]
  | @first n m clean hfull hdata =>
    refine ⟨n, m, .inr rfl, ?_, .inl hdata⟩
    simp only [lastOffs, Option.map_some, Option.map_none]
    exact if_neg (not_le.mpr hfull)
  | @wrapped n m m' hfull hdata =>
    have hne : 0 ≠ (n + 1) * g.mstNodeAlsz := (Nat.mul_pos (Nat.succ_pos n) hg).ne
    refine ⟨0, m, .inl rfl, ?_, .inr hdata⟩
    simp [lastOffs, hcor₁ rfl, hne, hfull]
  | @second m clean hdata =>
    refine ⟨0, m, .inl rfl, ?_, .inr hdata⟩
    simp [lastOffs, hcor₁ rfl]
  | @restored m v clean hrcvry hdata =>
    refine ⟨0, m, .inl rfl, ?_, hdata⟩
    simp [lastOffs, hcor₁ rfl, hrcvry]

end BothLebs

/-! ## Mapped and unmapped LEBs -/

section Lebs

variable {accept : UInt64 → M → Bool} {leb : Leb M} {v : Option (Nat × MstNode M)} {clean : Bool}
  {n : Nat} {m : MstNode M} {s : Slot M}

/-- A mapped LEB, and what a reader sees in it. -/
def Mapped (g : Geometry) (accept : UInt64 → M → Bool) (leb : Leb M)
    (v : Option (Nat × MstNode M)) (clean : Bool) : Prop :=
  ∃ buf, leb = .mapped buf ∧ Views g accept buf v clean

/-- The same of an unmapped LEB, if its contents come back. -/
def Unmapped (g : Geometry) (accept : UInt64 → M → Bool) (leb : Leb M)
    (v : Option (Nat × MstNode M)) (clean : Bool) : Prop :=
  ∃ buf, leb = .unmapped buf ∧ Views g accept buf v clean

/-- In an empty LEB nothing is seen. -/
theorem Views.nil : Views g accept [] none true := .blank (.inl rfl)

/-- What is seen in a mapped LEB. -/
theorem Mapped.read (h : Mapped g accept leb v clean) : Views g accept leb.read v clean := by
  obtain ⟨buf, rfl, hviews⟩ := h
  exact hviews

/-- A cut does not change it. -/
theorem Mapped.back (h : Mapped g accept leb v clean) (b : Bool) :
    Views g accept (leb.back b).read v clean := by
  obtain ⟨buf, rfl, hviews⟩ := h
  cases b with
  | false => exact hviews
  | true => exact hviews

theorem Unmapped.read (h : Unmapped g accept leb v clean) : Views g accept leb.read none true := by
  obtain ⟨buf, rfl, -⟩ := h
  exact .nil

/-- An unmapped LEB is empty, or what it was. -/
theorem Unmapped.back (h : Unmapped g accept leb v clean) (b : Bool) :
    Views g accept (leb.back b).read v clean ∨ Views g accept (leb.back b).read none true := by
  obtain ⟨buf, rfl, hviews⟩ := h
  cases b with
  | false => exact .inr .nil
  | true => exact .inl hviews

/-- An LEB with a node is mapped. -/
theorem Mapped.of_read {p : Nat × MstNode M} (h : Views g accept leb.read (some p) clean) :
    Mapped g accept leb (some p) clean := by
  cases leb with
  | mapped buf => exact ⟨buf, rfl, h⟩
  | unmapped before =>
    obtain ⟨buf, hbuf⟩ : ∃ buf, Leb.read (.unmapped before) = buf := ⟨_, rfl⟩
    rw [hbuf] at h
    cases h with
    | holds hread =>
      rw [← hbuf] at hread
      simp [Leb.read] at hread

/-- It is unmapped. -/
theorem Mapped.unmap (h : Mapped g accept leb v clean) : Unmapped g accept leb.unmap v clean := by
  obtain ⟨buf, rfl, hviews⟩ := h
  exact ⟨buf, rfl, hviews⟩

/-- Reading again after a cut. -/
theorem Leb.read_back_back (leb : Leb M) (b b' : Bool) :
    ((leb.back b).back b').read = (leb.back b).read := by
  cases leb with
  | mapped buf => cases b <;> cases b' <;> rfl
  | unmapped before => cases b <;> cases b' <;> rfl

theorem Tail.singleton (hs : s.scanANode = none) : Tail [s] := .inr ⟨s, rfl, hs⟩

/-- What is written follows the nodes. -/
theorem Leb.put_eq (hg : 0 < g.mstNodeAlsz) {ns : List (MstNode M)} {t : Buf M} (ht : Tail t)
    (hread : leb.read = ns.map .node ++ t) (s : Slot M) :
    leb.put g (ns.length * g.mstNodeAlsz) s = .mapped (ns.map .node ++ [s]) := by
  have hlength : leb.read.length ≤ ns.length + 1 := by
    have hle := ht.length_le
    rw [hread, List.length_append, List.length_map]
    omega
  unfold Leb.put
  dsimp only
  rw [Nat.mul_div_cancel _ hg, List.drop_of_length_le hlength, hread]
  congr 2
  exact List.take_left' (List.length_map ..)

/-- The first slot is being written. -/
theorem Views.put_first (hg : 0 < g.mstNodeAlsz) (hs : s.scanANode = none)
    (h : Views g accept leb.read none clean) :
    Mapped g accept (leb.put g 0 s) none s.isErased := by
  cases h with
  | blank ht =>
    have hput := @Leb.put_eq _ g leb hg [] _ ht rfl s
    rw [List.length_nil, Nat.zero_mul] at hput
    exact ⟨[s], hput, by simpa [Clean] using Views.blank (Tail.singleton hs)⟩

/-- One node is seen. -/
theorem Views.single (hg : 0 < g.minIoSize) (hw : g.mstNodeAlsz ≤ g.lebSize)
    (hm : m.nodeType = .mst) (hacc : accept m.sqnum m.data) :
    Views g accept [.node m] (some (0, m)) true := by
  refine @Views.holds _ g accept _ [] m [] rfl ?_ hm hacc (.inl rfl)
  simpa using (Geometry.le_mstNodeAlsz hg).trans hw

/-- The first slot has been written. -/
theorem Views.put_first_node (hg : 0 < g.minIoSize) (hw : g.mstNodeAlsz ≤ g.lebSize)
    (hm : m.nodeType = .mst) (hacc : accept m.sqnum m.data)
    (h : Views g accept leb.read none clean) :
    Mapped g accept (leb.put g 0 (.node m)) (some (0, m)) true := by
  have hle := Geometry.le_mstNodeAlsz hg
  cases h with
  | blank ht =>
    have hput := @Leb.put_eq _ g leb (Nat.zero_lt_of_lt hle) [] _ ht rfl (.node m)
    rw [List.length_nil, Nat.zero_mul] at hput
    exact ⟨[.node m], hput, .single hg hw hm hacc⟩

/-- The next slot is being written. -/
theorem Views.put (hg : 0 < g.mstNodeAlsz) (hs : s.scanANode = none)
    (h : Views g accept leb.read (some (n, m)) clean) :
    Mapped g accept (leb.put g ((n + 1) * g.mstNodeAlsz) s) (some (n, m)) s.isErased := by
  obtain ⟨buf, hbuf⟩ : ∃ buf, leb.read = buf := ⟨_, rfl⟩
  rw [hbuf] at h
  cases h with
  | @holds ns _ t hread hfit hm hacc ht =>
    have hnodes : leb.read = (ns ++ [m]).map .node ++ t := by simp [hbuf, hread]
    have hput := Leb.put_eq hg ht hnodes s
    rw [List.length_append, List.length_singleton] at hput
    refine ⟨_, hput, ?_⟩
    have hviews := Views.holds (t := [s]) rfl hfit hm hacc (Tail.singleton hs)
    simpa [Clean] using hviews

/-- The next slot has been written. -/
theorem Views.put_node (hg : 0 < g.mstNodeAlsz) {m' : MstNode M}
    (hfit : (n + 1) * g.mstNodeAlsz + ubifsMstNodeSz ≤ g.lebSize) (hm : m'.nodeType = .mst)
    (hacc : accept m'.sqnum m'.data) (h : Views g accept leb.read (some (n, m)) clean) :
    Mapped g accept (leb.put g ((n + 1) * g.mstNodeAlsz) (.node m')) (some (n + 1, m')) true := by
  obtain ⟨buf, hbuf⟩ : ∃ buf, leb.read = buf := ⟨_, rfl⟩
  rw [hbuf] at h
  cases h with
  | @holds ns _ t hread _ _ _ ht =>
    have hnodes : leb.read = (ns ++ [m]).map .node ++ t := by simp [hbuf, hread]
    have hput := Leb.put_eq hg ht hnodes (.node m')
    rw [List.length_append, List.length_singleton] at hput
    refine ⟨_, hput, ?_⟩
    have hviews := @Views.holds _ g accept _ (ns ++ [m]) m' [] rfl (by simpa using hfit) hm hacc
      (.inl rfl)
    simpa [Clean] using hviews

end Lebs

/-! ## Writing -/

section Writing

variable [DecidableEq M] {accept : UInt64 → M → Bool}

/-- When `scan_for_master` takes two nodes for the same. -/
theorem MstNode.same_iff {m m' : MstNode M} : m.same m' ↔ m.rcvry = m'.rcvry ∧ m.data = m'.data := by
  unfold same
  exact decide_eq_true_iff

/-- Slot `n` is the last that fits. -/
def Geometry.Full (g : Geometry) (n : Nat) : Prop :=
  g.lebSize < (n + 1) * g.mstNodeAlsz + ubifsMstNodeSz

/-- The next slot fits. -/
def Geometry.Fits (g : Geometry) (n : Nat) : Prop :=
  (n + 1) * g.mstNodeAlsz + ubifsMstNodeSz ≤ g.lebSize

/-- In a full LEB there is no room for two more nodes. -/
theorem Geometry.Full.lt (hg : 0 < g.minIoSize) {n : Nat} (h : g.Full n) :
    g.lebSize < n * g.mstNodeAlsz + g.mstNodeAlsz + g.mstNodeAlsz := by
  have hle := Geometry.le_mstNodeAlsz hg
  unfold Full at h
  rw [Nat.succ_mul] at h
  omega

/-- An LEB that is full has no room at its end, and more than one slot. -/
theorem Geometry.Full.le (hg : g.Whole) {n : Nat} (h : g.Full n) :
    ∃ n', n = n' + 1 ∧ g.lebSize ≤ (n' + 1) * g.mstNodeAlsz + g.mstNodeAlsz := by
  have hle := Geometry.le_mstNodeAlsz hg.pages
  have hpos : 0 < g.mstNodeAlsz := Nat.zero_lt_of_lt hle
  obtain ⟨k, hk⟩ := hg.slots
  have hlt := h.lt hg.pages
  have htwo := hg.two
  rw [hk, Nat.mul_comm g.mstNodeAlsz k] at hlt htwo
  rw [← Nat.succ_mul, ← Nat.succ_mul] at hlt
  have hkn : k < n + 1 + 1 := Nat.lt_of_mul_lt_mul_right hlt
  have hk2 : 2 ≤ k := Nat.le_of_mul_le_mul_right htwo hpos
  obtain ⟨n', rfl⟩ : ∃ n', n = n' + 1 := ⟨n - 1, by omega⟩
  refine ⟨n', rfl, ?_⟩
  rw [hk, Nat.mul_comm g.mstNodeAlsz k, ← Nat.succ_mul]
  exact Nat.mul_le_mul_right _ (by omega)

/-- Both LEBs end in the same slot, with the same contents. -/
structure Synced (g : Geometry) (accept : UInt64 → M → Bool) (lebs : Fin 2 → Leb M) (n : Nat)
    (m m' : MstNode M) : Prop where
  first : Mapped g accept (lebs 0) (some (n, m)) true
  second : Mapped g accept (lebs 1) (some (n, m')) true
  same : m.same m'

/-- Where `ubifs_write_master` is, and what the LEBs look like. -/
inductive Phase (g : Geometry) (accept : UInt64 → M → Bool) (lebs : Fin 2 → Leb M) (old : M)
    (mst : MstNode M) : Pc → Nat → Prop
  | idle {n m m'} : Synced g accept lebs n m m' → m.data = old → mst.data = old →
      Phase g accept lebs old mst .idle (n * g.mstNodeAlsz)
  -- the next slot of the first LEB, and of the second
  | write₁ {n m m'} : Synced g accept lebs n m m' → m.data = old → g.Fits n →
      Phase g accept lebs old mst (.write 0) ((n + 1) * g.mstNodeAlsz)
  | pages₁ {n m m' clean} : Mapped g accept (lebs 0) (some (n, m)) clean →
      Mapped g accept (lebs 1) (some (n, m')) true → m.same m' → m.data = old → g.Fits n →
      Phase g accept lebs old mst (.pages 0) ((n + 1) * g.mstNodeAlsz)
  | write₂ {n m m'} : Mapped g accept (lebs 0) (some (n + 1, m)) true → m.same mst →
      Mapped g accept (lebs 1) (some (n, m')) true → g.Fits n →
      Phase g accept lebs old mst (.write 1) ((n + 1) * g.mstNodeAlsz)
  | pages₂ {n m m' clean} : Mapped g accept (lebs 0) (some (n + 1, m)) true → m.same mst →
      Mapped g accept (lebs 1) (some (n, m')) clean → g.Fits n →
      Phase g accept lebs old mst (.pages 1) ((n + 1) * g.mstNodeAlsz)
  -- the first slots, after the LEBs have been unmapped in turn
  | unmap₁ {n m m'} : Synced g accept lebs n m m' → m.data = old → g.Full n →
      Phase g accept lebs old mst (.unmap 0) 0
  | first₁ {n m m'} : Unmapped g accept (lebs 0) (some (n, m)) true →
      Mapped g accept (lebs 1) (some (n, m')) true → m.same m' → m.data = old → g.Full n →
      Phase g accept lebs old mst (.write 0) 0
  | firstPages₁ {n m clean} : Mapped g accept (lebs 0) none clean →
      Mapped g accept (lebs 1) (some (n, m)) true → m.data = old → g.Full n →
      Phase g accept lebs old mst (.pages 0) 0
  | unmap₂ {n m m'} : Mapped g accept (lebs 0) (some (0, m)) true → m.same mst →
      Mapped g accept (lebs 1) (some (n, m')) true → g.Full n →
      Phase g accept lebs old mst (.unmap 1) 0
  | first₂ {n m m'} : Mapped g accept (lebs 0) (some (0, m)) true → m.same mst →
      Unmapped g accept (lebs 1) (some (n, m')) true → g.Full n →
      Phase g accept lebs old mst (.write 1) 0
  | firstPages₂ {m clean} : Mapped g accept (lebs 0) (some (0, m)) true → m.same mst →
      Mapped g accept (lebs 1) none clean → Phase g accept lebs old mst (.pages 1) 0

/-- After a LEB was written anew, both have one node. -/
theorem Phase.idle_first {lebs : Fin 2 → Leb M} {old : M} {m m' mst : MstNode M}
    (hsync : Synced g accept lebs 0 m m') (hold : m.data = old) (hmst : mst.data = old) :
    Phase g accept lebs old mst .idle 0 := by
  have hidle := Phase.idle hsync hold hmst
  rwa [Nat.zero_mul] at hidle

/-- What is left after a cut, whatever unmapped LEBs read back as. -/
def Off.Inv (g : Geometry) (accept : UInt64 → M → Bool) (o : Off M) : Prop :=
  ∀ b₁ b₂, ∃ v₁ clean₁ v₂ clean₂, Views g accept ((o.lebs 0).back b₁).read v₁ clean₁ ∧
    Views g accept ((o.lebs 1).back b₂).read v₂ clean₂ ∧ Disk g o.old o.new v₁ clean₁ v₂ clean₂

/-- **A cut.** -/
theorem Phase.cut (hg : g.Whole) {lebs : Fin 2 → Leb M} {old : M} {mst : MstNode M} {pc : Pc}
    {offs : Nat} (h : Phase g accept lebs old mst pc offs) :
    Off.Inv g accept ⟨lebs, old, mst.data⟩ := by
  intro b₁ b₂
  cases h with
  | idle hsync hold _ | write₁ hsync hold _ | unmap₁ hsync hold _ =>
    exact ⟨_, _, _, _, hsync.first.back b₁, hsync.second.back b₂, .same hsync.same (.inl hold)⟩
  | pages₁ h₁ h₂ hsame hold =>
    exact ⟨_, _, _, _, h₁.back b₁, h₂.back b₂, .same hsame (.inl hold)⟩
  | write₂ h₁ hsame h₂ _ | pages₂ h₁ hsame h₂ _ =>
    exact ⟨_, _, _, _, h₁.back b₁, h₂.back b₂, .ahead (MstNode.same_iff.mp hsame).2⟩
  | first₁ h₁ h₂ hsame hold hfull =>
    rcases h₁.back b₁ with h₁ | h₁
    · exact ⟨_, _, _, _, h₁, h₂.back b₂, .same hsame (.inl hold)⟩
    · have hold' := (MstNode.same_iff.mp hsame).2.symm.trans hold
      exact ⟨_, _, _, _, h₁, h₂.back b₂, .first (hfull.lt hg.pages) hold'⟩
  | firstPages₁ h₁ h₂ hold hfull =>
    exact ⟨_, _, _, _, h₁.back b₁, h₂.back b₂, .first (hfull.lt hg.pages) hold⟩
  | unmap₂ h₁ hsame h₂ hfull =>
    obtain ⟨n', rfl, hle⟩ := hfull.le hg
    exact ⟨_, _, _, _, h₁.back b₁, h₂.back b₂, .wrapped hle (MstNode.same_iff.mp hsame).2⟩
  | first₂ h₁ hsame h₂ hfull =>
    obtain ⟨n', rfl, hle⟩ := hfull.le hg
    rcases h₂.back b₂ with h₂ | h₂
    · exact ⟨_, _, _, _, h₁.back b₁, h₂, .wrapped hle (MstNode.same_iff.mp hsame).2⟩
    · exact ⟨_, _, _, _, h₁.back b₁, h₂, .second (MstNode.same_iff.mp hsame).2⟩
  | firstPages₂ h₁ hsame h₂ =>
    exact ⟨_, _, _, _, h₁.back b₁, h₂.back b₂, .second (MstNode.same_iff.mp hsame).2⟩

/-- The nodes that are written make sense. -/
def Event.Valid (accept : UInt64 → M → Bool) : State M → Event M → Prop
  | .live l, .written => accept l.mst.sqnum l.mst.data
  | _, _ => True

/-- What holds while the file system runs. -/
structure Live.Inv (g : Geometry) (accept : UInt64 → M → Bool) (l : Live M) : Prop where
  phase : Phase g accept l.lebs l.old l.mst l.pc l.mstOffs
  nodeType : l.mst.nodeType = .mst

/-- A call begins. -/
theorem Live.Inv.call {l l' : Live M} (h : l.Inv g accept) {data : M}
    (hstep : l.step g (.call data) = some l') : l'.Inv g accept := by
  obtain ⟨mst, offs, maxSqnum, pc, lebs, old⟩ := l
  obtain ⟨hphase, htype⟩ := h
  dsimp only at hphase htype
  by_cases hpc : pc = .idle
  · subst hpc
    cases hphase with
    | @idle n m m' hsync hold _ =>
      simp only [Live.step, if_true, ← Nat.succ_mul] at hstep
      by_cases hfull : (n + 1) * g.mstNodeAlsz + ubifsMstNodeSz > g.lebSize
      · rw [if_pos hfull, Option.some.injEq] at hstep
        subst hstep
        exact ⟨.unmap₁ hsync hold hfull, htype⟩
      · rw [if_neg hfull, Option.some.injEq] at hstep
        subst hstep
        exact ⟨.write₁ hsync hold (not_lt.mp hfull), htype⟩
  · simp [Live.step, hpc] at hstep

/-- A LEB is unmapped. -/
theorem Live.Inv.unmap {l : Live M} (h : l.Inv g accept) {i : Fin 2} (hpc : l.pc = .unmap i) :
    Live.Inv g accept { l with
      pc := .write i
      lebs := Function.update l.lebs i (l.lebs i).unmap } := by
  obtain ⟨mst, offs, maxSqnum, pc, lebs, old⟩ := l
  obtain ⟨hphase, htype⟩ := h
  dsimp only at hphase htype hpc
  subst hpc
  refine ⟨?_, htype⟩
  cases hphase with
  | unmap₁ hsync hold hfull => exact .first₁ hsync.first.unmap hsync.second hsync.same hold hfull
  | unmap₂ h₁ hsame h₂ hfull => exact .first₂ h₁ hsame h₂.unmap hfull

/-- A part of the pages is written, or none yet. -/
theorem Live.Inv.pages (hg : 0 < g.minIoSize) {l : Live M} (h : l.Inv g accept) {i : Fin 2}
    (hpc : l.pc = .write i ∨ l.pc = .pages i) {s : Slot M} (hs : s.scanANode = none)
    {sqnum maxSqnum : UInt64} :
    Live.Inv g accept { l with
      pc := .pages i
      maxSqnum := maxSqnum
      mst := { l.mst with sqnum := sqnum }
      lebs := Function.update l.lebs i ((l.lebs i).put g l.mstOffs s) } := by
  have hpos : 0 < g.mstNodeAlsz := Nat.zero_lt_of_lt (Geometry.le_mstNodeAlsz hg)
  obtain ⟨mst, offs, _, pc, lebs, old⟩ := l
  obtain ⟨hphase, htype⟩ := h
  dsimp only at hphase htype hpc
  refine ⟨?_, htype⟩
  rcases hpc with rfl | rfl
  · cases hphase with
    | write₁ hsync hold hfits =>
      exact .pages₁ (hsync.first.read.put hpos hs) hsync.second hsync.same hold hfits
    | write₂ h₁ hsame h₂ hfits => exact .pages₂ h₁ hsame (h₂.read.put hpos hs) hfits
    | first₁ h₁ h₂ hsame hold hfull =>
      exact .firstPages₁ (h₁.read.put_first hpos hs) h₂
        ((MstNode.same_iff.mp hsame).2.symm.trans hold) hfull
    | first₂ h₁ hsame h₂ hfull => exact .firstPages₂ h₁ hsame (h₂.read.put_first hpos hs)
  · cases hphase with
    | pages₁ h₁ h₂ hsame hold hfits => exact .pages₁ (h₁.read.put hpos hs) h₂ hsame hold hfits
    | pages₂ h₁ hsame h₂ hfits => exact .pages₂ h₁ hsame (h₂.read.put hpos hs) hfits
    | firstPages₁ h₁ h₂ hold hfull => exact .firstPages₁ (h₁.read.put_first hpos hs) h₂ hold hfull
    | firstPages₂ h₁ hsame h₂ => exact .firstPages₂ h₁ hsame (h₂.read.put_first hpos hs)

/-- All pages are written. -/
theorem Live.Inv.written (hg : g.Whole) {l : Live M} (h : l.Inv g accept) {i : Fin 2}
    (hpc : l.pc = .pages i) (hacc : accept l.mst.sqnum l.mst.data) :
    Live.Inv g accept { l with
      pc := if i = 1 then .idle else if l.mstOffs = 0 then .unmap 1 else .write 1
      lebs := Function.update l.lebs i ((l.lebs i).put g l.mstOffs (.node l.mst))
      old := if i = 1 then l.mst.data else l.old } := by
  have hpos : 0 < g.mstNodeAlsz := Nat.zero_lt_of_lt (Geometry.le_mstNodeAlsz hg.pages)
  have hone : g.mstNodeAlsz ≤ g.lebSize := by
    have htwo := hg.two
    omega
  have hsame : ∀ m : MstNode M, m.same m := fun m => MstNode.same_iff.mpr ⟨rfl, rfl⟩
  have hnext : ∀ n, (n + 1) * g.mstNodeAlsz ≠ 0 := fun n => (Nat.mul_pos (Nat.succ_pos n) hpos).ne'
  obtain ⟨mst, offs, _, pc, lebs, old⟩ := l
  obtain ⟨hphase, htype⟩ := h
  dsimp only at hphase htype hpc hacc
  subst hpc
  refine ⟨?_, htype⟩
  cases hphase with
  | @pages₁ n _ _ _ h₁ h₂ _ hold hfits =>
    have h₁' := h₁.read.put_node hpos hfits htype hacc
    dsimp only
    rw [if_neg (by decide), if_neg (hnext n), if_neg (by decide)]
    exact .write₂ h₁' (hsame mst) h₂ hfits
  | @pages₂ n _ _ _ h₁ hmst h₂ hfits =>
    have h₂' := h₂.read.put_node hpos hfits htype hacc
    exact .idle ⟨h₁, h₂', hmst⟩ (MstNode.same_iff.mp hmst).2 rfl
  | firstPages₁ h₁ h₂ _ hfull =>
    have h₁' := h₁.read.put_first_node hg.pages hone htype hacc
    exact .unmap₂ h₁' (hsame mst) h₂ hfull
  | firstPages₂ h₁ hmst h₂ =>
    have h₂' := h₂.read.put_first_node hg.pages hone htype hacc
    exact .idle_first ⟨h₁, h₂', hmst⟩ (MstNode.same_iff.mp hmst).2 rfl

end Writing

/-! ## Mounting -/

section Mounting

variable [DecidableEq M] {accept : UInt64 → M → Bool}

/-- What is done of a recovery. -/
inductive Recovery (g : Geometry) (accept : UInt64 → M → Bool) (r : Reading M) :
    List (Fin 2) → Prop
  | first : Off.Inv g accept ⟨r.lebs, r.old, r.new⟩ → r.maxSqnum + 1 = r.mst.sqnum →
      r.mstOffs = 0 → Recovery g accept r [0, 1]
  | second : r.lebs 0 = .mapped [.node { r.mst with rcvry := true }] → r.mstOffs = 0 →
      (∀ b, ∃ v clean, Views g accept ((r.lebs 1).back b).read v clean) → Recovery g accept r [1]
  | done {n m m'} : Synced g accept r.lebs n m m' → m.data = r.mst.data →
      r.mstOffs = n * g.mstNodeAlsz → Recovery g accept r []

/-- What holds after the master node was recovered and before it is written again. -/
structure Reading.Inv (g : Geometry) (accept : UInt64 → M → Bool) (r : Reading M) : Prop where
  data : r.mst.data = r.old ∨ r.mst.data = r.new
  nodeType : r.mst.nodeType = .mst
  accepted : accept r.mst.sqnum r.mst.data
  recovery : Recovery g accept r r.todo

/-- **A mount** returns the contents before or after. -/
theorem Off.mount_spec (hg : 0 < g.mstNodeAlsz) {o : Off M} (h : o.Inv g accept)
    (back : Fin 2 → Bool) :
    ∃ r, o.mount g back = .reading r ∧ r.Inv g accept := by
  have hoff : Off.Inv g accept ⟨fun i => (o.lebs i).back (back i), o.old, o.new⟩ := by
    intro b₁ b₂
    dsimp only
    rw [Leb.read_back_back, Leb.read_back_back]
    exact h (back 0) (back 1)
  obtain ⟨v₁, clean₁, v₂, clean₂, h₁, h₂, hdisk⟩ := h (back 0) (back 1)
  unfold Off.mount
  dsimp only
  rw [scanForMaster_spec h₁ h₂]
  have hrecover : ∃ r, o.recover g (fun i => (o.lebs i).back (back i)) = .reading r ∧
      r.Inv g accept := by
    obtain ⟨n, m, hlast, hm, hdata⟩ := recoverMasterNode_spec hg h₁ h₂ hdisk
    have hgood : m.nodeType = .mst ∧ accept m.sqnum m.data := by
      rcases hlast with rfl | rfl
      · exact h₁.last
      · exact h₂.last
    unfold Off.recover
    rw [hm]
    exact ⟨_, rfl, hdata, hgood.1, hgood.2, .first hoff (UInt64.sub_add_cancel ..) rfl⟩
  by_cases hclean : clean₁ ∧ clean₂
  · rw [if_pos hclean]
    cases v₁ with
    | none => exact hrecover
    | some p =>
      cases v₂ with
      | none => exact hrecover
      | some p' =>
        obtain ⟨n, m⟩ := p
        obtain ⟨n', m'⟩ := p'
        obtain ⟨rfl, rfl⟩ := hclean
        unfold scanned
        dsimp only
        by_cases hsame : n = n' ∧ m.same m'
        · obtain ⟨rfl, hsame'⟩ := hsame
          rw [if_pos ⟨rfl, hsame'⟩]
          refine ⟨_, rfl, hdisk.data, h₁.last.1, h₁.last.2, ?_⟩
          exact .done ⟨.of_read h₁, .of_read h₂, hsame'⟩ rfl rfl
        · rw [if_neg hsame]
          exact hrecover
  · rw [if_neg hclean]
    exact hrecover

theorem Geometry.Whole.one (hg : g.Whole) : g.mstNodeAlsz ≤ g.lebSize := by
  have htwo := hg.two
  omega

/-- A cut during a recovery. -/
theorem Reading.Inv.cut (hg : g.Whole) {r : Reading M} (h : r.Inv g accept) :
    Off.Inv g accept ⟨r.lebs, r.old, r.new⟩ := by
  obtain ⟨mst, offs, maxSqnum, todo, lebs, old, new⟩ := r
  obtain ⟨hdata, htype, hacc, hrecovery⟩ := h
  dsimp only at hdata htype hacc hrecovery
  cases hrecovery with
  | first hoff _ _ => exact hoff
  | second hfirst _ hsecond =>
    intro b₁ b₂
    obtain ⟨v, clean, hv⟩ := hsecond b₂
    have h₁ : Mapped g accept (lebs 0) (some (0, { mst with rcvry := true })) true :=
      ⟨_, hfirst, .single hg.pages hg.one htype hacc⟩
    exact ⟨_, _, _, _, h₁.back b₁, hv, .restored rfl hdata⟩
  | done hsync hm _ =>
    intro b₁ b₂
    refine ⟨_, _, _, _, hsync.first.back b₁, hsync.second.back b₂, .same hsync.same ?_⟩
    rw [hm]
    exact hdata

/-- An LEB is changed. -/
theorem Reading.Inv.changed (hg : g.Whole) {r r' : Reading M} (h : r.Inv g accept)
    (hr : r.changed = some r') : r'.Inv g accept := by
  obtain ⟨mst, offs, maxSqnum, todo, lebs, old, new⟩ := r
  obtain ⟨hdata, htype, hacc, hrecovery⟩ := h
  dsimp only at hdata htype hacc hrecovery
  cases hrecovery with
  | first hoff hsqnum hoffs =>
    simp only [Reading.changed, if_true, Option.some.injEq] at hr
    dsimp only at hsqnum hoffs
    rw [hsqnum] at hr
    subst hr
    refine ⟨hdata, htype, hacc, .second rfl hoffs fun b => ?_⟩
    obtain ⟨_, _, v, clean, -, hv, -⟩ := hoff b b
    exact ⟨v, clean, hv⟩
  | second hfirst hoffs _ =>
    simp only [Reading.changed, Option.some.injEq] at hr
    rw [if_neg (by decide)] at hr
    subst hr
    have hviews := Views.single hg.pages hg.one (m := { mst with rcvry := true }) htype hacc
    refine ⟨hdata, htype, hacc, .done (n := 0) ⟨⟨_, hfirst, hviews⟩, ⟨_, rfl, hviews⟩, ?_⟩ rfl ?_⟩
    · exact MstNode.same_iff.mpr ⟨rfl, rfl⟩
    · rw [Nat.zero_mul]
      exact hoffs
  | done => cases hr

/-- `ubifs_read_master` returns 0. -/
theorem Reading.Inv.done {r : Reading M} (h : r.Inv g accept) (hr : r.todo = []) :
    ∃ l, r.done accept = .live l ∧ l.Inv g accept := by
  obtain ⟨mst, offs, maxSqnum, todo, lebs, old, new⟩ := r
  obtain ⟨hdata, htype, hacc, hrecovery⟩ := h
  dsimp only at hdata htype hacc hrecovery hr
  subst hr
  cases hrecovery with
  | done hsync hm hoffs =>
    dsimp only at hsync hm hoffs
    subst hoffs
    exact ⟨_, if_pos hacc, .idle hsync hm rfl, htype⟩

end Mounting

/-! ## Runs -/

section Runs

variable [DecidableEq M] {accept : UInt64 → M → Bool}

/-- The invariant, whatever the file system is doing. -/
def State.Inv (g : Geometry) (accept : UInt64 → M → Bool) : State M → Prop
  | .live l => l.Inv g accept
  | .off o => o.Inv g accept
  | .reading r => r.Inv g accept
  | .failed => False

/-- The invariant says that a mount gets the old or the new data. -/
theorem State.Inv.safe {s : State M} (h : s.Inv g accept) : s.Safe := by
  match s with
  | .live _ => trivial
  | .off _ => trivial
  | .reading _ => exact Reading.Inv.data h
  | .failed => exact h

/-- A step of a file system that runs. -/
theorem Live.Inv.step (hg : g.Whole) {l l' : Live M} (h : l.Inv g accept) {e : Event M}
    (he : e.Valid accept (.live l)) (hstep : l.step g e = some l') : l'.Inv g accept := by
  cases e with
  | call data => exact h.call hstep
  | next s =>
    cases hpc : l.pc with
    | idle => simp [Live.step, hpc] at hstep
    | unmap i =>
      simp only [Live.step, hpc, Option.some.injEq] at hstep
      subst hstep
      exact h.unmap hpc
    | write i =>
      by_cases hs : s.scanANode = none
      · simp only [Live.step, hpc, if_pos hs, Option.some.injEq] at hstep
        subst hstep
        exact h.pages hg.pages (.inl hpc) hs
      · simp [Live.step, hpc, if_neg hs] at hstep
    | pages i =>
      by_cases hs : s.scanANode = none
      · simp only [Live.step, hpc, if_pos hs, Option.some.injEq] at hstep
        subst hstep
        exact h.pages hg.pages (.inr hpc) hs
      · simp [Live.step, hpc, if_neg hs] at hstep
  | written =>
    cases hpc : l.pc with
    | pages i =>
      simp only [Live.step, hpc, Option.some.injEq] at hstep
      subst hstep
      exact h.written hg hpc he
    | _ => simp [Live.step, hpc] at hstep
  | other =>
    cases hstep
    exact ⟨h.phase, h.nodeType⟩
  | _ => cases hstep

/-- Anything but a cut is such a step. -/
theorem State.step_live {l : Live M} {e : Event M} (hcut : e ≠ .cut) :
    State.step g accept (.live l) e = (l.step g e).map .live := by
  cases e with
  | cut => exact absurd rfl hcut
  | _ => rfl

/-- Any step. -/
theorem State.Inv.step (hg : g.Whole) {s s' : State M} (h : s.Inv g accept) {e : Event M}
    (he : e.Valid accept s) (hstep : s.step g accept e = some s') : s'.Inv g accept := by
  have hpos : 0 < g.mstNodeAlsz := Nat.zero_lt_of_lt (Geometry.le_mstNodeAlsz hg.pages)
  match s with
  | .live l =>
    by_cases hcut : e = .cut
    · subst hcut
      cases hstep
      exact (Live.Inv.phase h).cut hg
    · rw [State.step_live hcut] at hstep
      obtain ⟨l', hl', rfl⟩ := Option.map_eq_some_iff.mp hstep
      exact Live.Inv.step hg h he hl'
  | .off o =>
    cases e with
    | mount back =>
      obtain ⟨r, hr, hinv⟩ := Off.mount_spec hpos h back
      cases hstep
      rw [hr]
      exact hinv
    | _ => cases hstep
  | .reading r =>
    cases e with
    | cut =>
      cases hstep
      exact Reading.Inv.cut hg h
    | changed =>
      obtain ⟨r', hr', rfl⟩ := Option.map_eq_some_iff.mp hstep
      exact Reading.Inv.changed hg h hr'
    | done =>
      by_cases htodo : r.todo = []
      · simp only [State.step, if_pos htodo, Option.some.injEq] at hstep
        obtain ⟨l, hl, hinv⟩ := Reading.Inv.done h htodo
        rw [← hstep, hl]
        exact hinv
      · simp [State.step, if_neg htodo] at hstep
    | _ => cases hstep
  | .failed => exact h.elim

/-- It holds after the file system was made. -/
theorem State.Inv.initial (hg : g.Whole) {sqnum : UInt64} {data : M} (h : accept sqnum data) :
    (State.initial sqnum data).Inv g accept := by
  have hviews := Views.single hg.pages hg.one (m := ⟨sqnum, .mst, false, data⟩) rfl h
  refine ⟨.idle_first ⟨⟨_, rfl, hviews⟩, ⟨_, rfl, hviews⟩, ?_⟩ rfl rfl, rfl⟩
  exact MstNode.same_iff.mpr ⟨rfl, rfl⟩

/-- The states of runs, from a file system whose master node is `data`; the nodes that are written
    make sense. -/
def Runs (g : Geometry) (accept : UInt64 → M → Bool) (sqnum : UInt64) (data : M) :
    State M → Prop :=
  EventReach (State.step g accept) (fun s e => e.Valid accept s) (· = State.initial sqnum data)

end Runs

/-- With whole slots, and two of them, what is mounted is the master node before or after. -/
theorem master_survives {M : Type} [DecidableEq M] (g : Geometry) (hg : g.Accepted)
    (hslots : g.mstNodeAlsz ∣ g.lebSize) (htwo : 2 * g.mstNodeAlsz ≤ g.lebSize)
    (accept : UInt64 → M → Bool) {sqnum : UInt64} {data : M} (haccept : accept sqnum data)
    {s : State M} (h : Runs g accept sqnum data s) : s.Safe := by
  have hpages : 0 < g.minIoSize := by
    obtain ⟨k, hk, -⟩ := hg.minIoSize
    rw [hk]
    exact Nat.two_pow_pos k
  have hinv : s.Inv g accept := by
    apply EventReach.invariant ?_ ?_ h
    · rintro s rfl
      exact State.Inv.initial ⟨hpages, hslots, htwo⟩ haccept
    · rintro s s' e hs he hstep
      exact hs.step ⟨hpages, hslots, htwo⟩ he hstep
  exact hinv.safe

instance {M : Type} (accept : UInt64 → M → Bool) (s : State M) (e : Event M) :
    Decidable (e.Valid accept s) :=
  match s, e with
  | .live l, .written => inferInstanceAs (Decidable (accept l.mst.sqnum l.mst.data))
  | .live _, .call _ | .live _, .next _ | .live _, .other | .live _, .cut | .live _, .mount _
  | .live _, .changed | .live _, .done | .off _, _ | .reading _, _ | .failed, _ => .isTrue trivial

/-- `ubifs_write_master`, up to the end. -/
def writeMaster (data : Nat) : List (Event Nat) :=
  [.call data, .next .erased, .written, .next .erased, .written]

/-- Two slots an LEB. -/
def twoSlots : Geometry := ⟨16384, 8192⟩

/-- The second LEB is being written when power is cut, and then a recovery is cut as well. -/
def cutTwice : List (Event Nat) :=
  writeMaster 1 ++
    [.call 2, .next .erased, .next .erased, .written, .next .erased, .next .erased, .cut,
      .mount fun _ => false, .changed, .cut, .mount fun _ => true, .changed, .changed, .done]

/-- The contents in memory. -/
def State.contents {M : Type} : State M → Option M
  | .live l => some l.mst.data
  | _ => none

theorem master_survives_cutTwice : ∃ s : State Nat,
    runEvents (State.step twoSlots fun _ _ => true) (fun s e => e.Valid (fun _ _ => true) s)
      (State.initial 1 0) cutTwice = some s ∧ s.contents = some 2 ∧ s.Safe := by
  have hlive : (runEvents (State.step twoSlots fun _ _ => true)
      (fun s e => e.Valid (fun _ _ => true) s) (State.initial 1 0) cutTwice).any
      (fun s => s.contents = some 2) = true := by
    decide +kernel
  obtain ⟨s, hrun, hs⟩ := (Option.any_eq_true ..).mp hlive
  exact ⟨s, hrun, of_decide_eq_true hs, master_survives twoSlots
    ⟨by decide, ⟨13, by decide⟩, by decide⟩ (by decide) (by decide) _ rfl (.run (.init rfl) hrun)⟩

/-- Thirty slots an LEB, and eight bytes. -/
def unevenLebs : Geometry := ⟨15368, 8⟩

/-- The first LEB is unmapped and written, the second not. -/
def cutAfterFirst : List (Event Nat) :=
  (List.range 29).flatMap writeMaster ++
    [.call 30, .next .erased, .next .erased, .written, .cut, .mount fun _ => false]

/-- The mount was refused. -/
def State.isFailed {M : Type} : State M → Bool
  | .failed => true
  | _ => false

/-- Where slots do not fill an LEB the master node may be lost. -/
theorem master_lost : ¬∀ (g : Geometry) (accept : UInt64 → Nat → Bool) (sqnum : UInt64)
    (data : Nat) (s : State Nat), g.Accepted → accept sqnum data → Runs g accept sqnum data s →
    s.Safe := by
  intro hall
  have hfailed : (runEvents (State.step unevenLebs fun _ _ => true)
      (fun s e => e.Valid (fun _ _ => true) s) (State.initial 1 0) cutAfterFirst).any
      State.isFailed = true := by
    decide +kernel
  obtain ⟨s, hrun, hs⟩ := (Option.any_eq_true ..).mp hfailed
  have hsafe := hall unevenLebs (fun _ _ => true) 1 0 s ⟨by decide, ⟨3, by decide⟩, by decide⟩ rfl
    (EventReach.run (.init rfl) hrun)
  cases s with
  | failed => exact hsafe
  | _ => cases hs

end Ubifs
