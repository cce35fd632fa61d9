/-
  The write-back buffers.

  `Caches C s D` says that buffers and flash together hold the contents `C`: a sector that was
  written is in the buffer of its virtual sector if its dirty bit is set there, and otherwise on
  flash (where the buffer has a copy of it if its `read` flag is set).  It holds of geometries whose
  dirty bits fit into `sector_state`.

  `Caches.synced` is the reason why `sync_one_buf` loses nothing: what it writes is `mergedData`.
-/
import FlashStack.Uftl.Syncing

namespace Uftl

open Lib Lib.Prog

variable {fip : UftlInfo} {L : Prop} {U : Prop} {W : Nat}

/-! ## Dirty bits -/

/-- The bit of a sector. -/
theorem dirty_eq (b : PageBuf) {j : Nat} (hj : j < 32) : b.dirty j = b.sectorState.getLsbD j := by
  have hmask : sectorMask j = BitVec.twoPow 32 j := (BitVec.twoPow_eq ..).symm
  unfold PageBuf.dirty
  rw [hmask, BitVec.and_twoPow]
  by_cases h : b.sectorState.getLsbD j
  · rw [if_pos h, h]
    have : BitVec.twoPow 32 j ≠ 0#32 := by
      intro he
      have := congrArg (·.getLsbD j) he
      simp [hj] at this
    simp [this]
  · rw [if_neg h]
    simp [h]

/-- Storing a sector sets its bit and no other. -/
theorem dirty_store (b : PageBuf) {j k : Nat} {d : Sector} (hj : j < 32) (hk : k < 32) :
    (b.store k d).dirty j = (decide (j = k) || b.dirty j) := by
  rw [dirty_eq _ hj, dirty_eq _ hj]
  show (b.sectorState ||| BitVec.twoPow 32 k).getLsbD j = _
  rw [BitVec.getLsbD_or, BitVec.getLsbD_twoPow, Bool.or_comm]
  congr 1
  simp [hk, eq_comm]

/-- All bits of a page are set. -/
theorem fullStateOf_bit (n : Nat) (hn : n ≤ 32) {j : Nat} (hj : j < n) :
    ((List.range n).foldl (fun acc i => acc ||| (1#32 <<< i)) 0#32).getLsbD j = true := by
  induction n with
  | zero => omega
  | succ n ih =>
    rw [List.range_succ, List.foldl_append, List.foldl_cons, List.foldl_nil, BitVec.getLsbD_or]
    by_cases hjn : j = n
    · have : (1#32 <<< n).getLsbD j = (BitVec.twoPow 32 n).getLsbD j := rfl
      rw [this, BitVec.getLsbD_twoPow]
      simp [hjn]
      omega
    · rw [ih (by omega) (by omega), Bool.true_or]

/-- In a buffer whose state is `full_state` every sector was written. -/
theorem dirty_full {b : PageBuf} (hb : b.sectorState = fullStateOf fip)
    (hn : fip.pageSectorNum ≤ 31) {j : Nat} (hj : j < fip.pageSectorNum) : b.dirty j = true := by
  rw [dirty_eq b (by omega), hb]
  exact fullStateOf_bit _ (by omega) hj

/-- No sector is dirty in a clean buffer. -/
theorem dirty_clean {b : PageBuf} (hb : b.sectorState = 0) (j : Nat) : b.dirty j = false := by
  simp [PageBuf.dirty, hb]

/-! ## Contents -/

/-- The last data written to each sector: virtual sector, then position in the page. -/
abbrev Contents := Nat → Nat → Option Sector

/-- Write one sector. -/
def Contents.write (C : Contents) (v j : Nat) (d : Sector) : Contents :=
  Function.update C v (Function.update (C v) j (some d))

/-- Sector `j` of a buffer for a virtual sector with the data `dv` on flash is `x`. -/
def Holds (b : PageBuf) (dv : Option (Nat → Sector)) (j : Nat) (x : Sector) : Prop :=
  (b.dirty j = true → b.dataBuf.data j = x) ∧
  (b.dirty j = false → (∃ d, dv = some d ∧ d j = x) ∧ (b.read = true → b.dataBuf.data j = x))

/-- Buffers and flash together hold `C`. -/
structure Caches (fip : UftlInfo) (C : Contents) (s : State) (D : Nat → Option (Nat → Sector)) :
    Prop where
  bits : fip.pageSectorNum ≤ 31
  full : s.fullState = fullStateOf fip
  unique : ∀ (i j v : Nat), i < bufNum → j < bufNum → (s.pool i).sector = v →
    (s.pool j).sector = v → i = j
  buffered : ∀ (i v j : Nat) x, i < bufNum → (s.pool i).sector = v → j < fip.pageSectorNum →
    C v j = some x → Holds (s.pool i) (D v) j x
  flash : ∀ (v j : Nat) x, (∀ i, i < bufNum → (s.pool i).sector ≠ v) → j < fip.pageSectorNum →
    C v j = some x → ∃ d, D v = some d ∧ d j = x

section Sync

variable {C : Contents} {s s' : State} {i v : Nat} {D D' : Nat → Option (Nat → Sector)}

/-- The merged data of a buffer has every sector that was ever written. -/
theorem Caches.merged (h : Caches fip C s D) (hi : i < bufNum) (hs : (s.pool i).sector = v)
    {j : Nat} {x : Sector} (hj : j < fip.pageSectorNum) (hx : C v j = some x) :
    s.mergedData fip i v D j = x := by
  obtain ⟨hdirty, hclean⟩ := h.buffered i v j x hi hs hj hx
  unfold State.mergedData
  split
  · cases hD : D v with
    | none =>
      cases hd : (s.pool i).dirty j with
      | true => exact hdirty hd
      | false =>
        obtain ⟨⟨d, hd, -⟩, -⟩ := hclean hd
        rw [hD] at hd
        cases hd
    | some d =>
      dsimp only
      split
      · obtain ⟨⟨d', hd', hx'⟩, -⟩ := hclean ‹_ ∧ _›.2
        rw [hD] at hd'
        cases hd'
        exact hx'
      · rename_i hno
        exact hdirty (by simpa [hj] using hno)
  · rename_i hno
    cases hd : (s.pool i).dirty j with
    | true => exact hdirty hd
    | false =>
      refine (hclean hd).2 ?_
      by_contra hr
      refine hno ⟨fun hf => ?_, by simpa using hr⟩
      rw [dirty_full (hf.trans h.full) h.bits hj] at hd
      cases hd

/-- **`sync_one_buf` loses nothing.** -/
theorem Caches.synced (h : Caches fip C s D) (hi : i < bufNum)
    (hs : Synced fip L U W i D s s' D') : Caches fip C s' D' := by
  have hfree : ∀ w : Nat, (s'.pool i).sector ≠ w := by
    intro w
    rw [hs.free.1]
    unfold ftlNomap
    omega
  -- the virtual sectors of the other buffers keep their data
  have hkeep : ∀ (w : Nat), (s.pool i).sector ≠ w → D' w = D w := by
    intro w hw
    rcases hs.data with ⟨-, rfl⟩ | ⟨v, -, hv, rfl⟩
    · rfl
    · exact Function.update_of_ne (by rintro rfl; exact hw hv) ..
  refine ⟨h.bits, hs.frame.fullState.trans h.full, ?_, ?_, ?_⟩
  · intro i' j' w hi' hj' hiw hjw
    have hne : i' ≠ i := by rintro rfl; exact hfree w hiw
    have hne' : j' ≠ i := by rintro rfl; exact hfree w hjw
    rw [hs.pool i' hne] at hiw
    rw [hs.pool j' hne'] at hjw
    exact h.unique i' j' w hi' hj' hiw hjw
  · intro i' w j x hi' hiw hj hx
    have hne : i' ≠ i := by rintro rfl; exact hfree w hiw
    rw [hs.pool i' hne] at hiw ⊢
    rw [hkeep w fun he => hne (h.unique i' i w hi' hi hiw he)]
    exact h.buffered i' w j x hi' hiw hj hx
  · intro w j x hno hj hx
    by_cases hw : (s.pool i).sector = w
    · rcases hs.data with ⟨hclean, rfl⟩ | ⟨v, -, hv, rfl⟩
      · exact ((h.buffered i w j x hi hw hj hx).2 (dirty_clean hclean j)).1
      · have : w = v := by omega
        subst this
        exact ⟨_, Function.update_self .., h.merged hi hw hj hx⟩
    · rw [hkeep w hw]
      refine h.flash w j x (fun i' hi' => ?_) hj hx
      by_cases hne : i' = i
      · rw [hne]
        exact hw
      · rw [← hs.pool i' hne]
        exact hno i' hi'

end Sync

/-! ## Changing one buffer -/

section Change

variable {C C' : Contents} {s s' : State} {i v : Nat} {b : PageBuf}
  {D : Nat → Option (Nat → Sector)}

/-- One buffer of the pool changes. -/
theorem PoolOk.update (h : PoolOk W s.pool) (hs : b.sector = v) (hv : v < W)
    (hp : s'.pool = Function.update s.pool i b) : PoolOk W s'.pool := by
  refine ⟨fun j hj => ?_, fun j hj hn => ?_⟩
  · rw [hp]
    by_cases hji : j = i
    · rw [hji, Function.update_self]
      exact .inr ⟨v, hv, hs⟩
    · rw [Function.update_of_ne hji]
      exact h.sector j hj
  · rw [hp] at hn ⊢
    by_cases hji : j = i
    · rw [hji, Function.update_self, hs] at hn
      unfold ftlNomap at hn
      omega
    · rw [Function.update_of_ne hji] at hn ⊢
      exact h.free j hj hn

/-- Buffer `i`, free or already for virtual sector `v`, becomes the buffer `b` for it. -/
theorem Caches.update (h : Caches fip C s D) (hi : i < bufNum) (hs : b.sector = v)
    (hold : (∀ j, j < bufNum → (s.pool j).sector ≠ v) ∧ (s.pool i).sector = ftlNomap ∨
      (s.pool i).sector = v)
    (hp : s'.pool = Function.update s.pool i b) (hf : s'.fullState = s.fullState)
    (hC : ∀ w, w ≠ v → C' w = C w)
    (hb : ∀ j x, j < fip.pageSectorNum → C' v j = some x → Holds b (D v) j x) :
    Caches fip C' s' D := by
  -- no other buffer is for `v`
  have hother : ∀ j, j < bufNum → j ≠ i → (s.pool j).sector ≠ v := by
    intro j hj hji he
    rcases hold with ⟨hno, -⟩ | hiv
    · exact hno j hj he
    · exact hji (h.unique j i v hj hi he hiv)
  have hsect : ∀ j (w : Nat), j < bufNum → (s'.pool j).sector = w →
      j = i ∧ w = v ∨ j ≠ i ∧ w ≠ v ∧ (s.pool j).sector = w := by
    intro j w hj hw
    rw [hp] at hw
    by_cases hji : j = i
    · subst hji
      rw [Function.update_self, hs] at hw
      exact .inl ⟨rfl, by omega⟩
    · rw [Function.update_of_ne hji] at hw
      exact .inr ⟨hji, by rintro rfl; exact hother j hj hji hw, hw⟩
  refine ⟨h.bits, hf.trans h.full, ?_, ?_, ?_⟩
  · intro j₁ j₂ w hj₁ hj₂ h₁ h₂
    rcases hsect j₁ w hj₁ h₁ with ⟨rfl, rfl⟩ | ⟨-, hw, h₁⟩ <;>
      rcases hsect j₂ w hj₂ h₂ with ⟨rfl, hw₂⟩ | ⟨-, hw₂, h₂⟩
    · rfl
    · exact absurd rfl hw₂
    · exact absurd hw₂ hw
    · exact h.unique j₁ j₂ w hj₁ hj₂ h₁ h₂
  · intro j w k x hj hw hk hx
    rcases hsect j w hj hw with ⟨rfl, rfl⟩ | ⟨hji, hwv, hw⟩
    · rw [hp, Function.update_self]
      exact hb k x hk hx
    · rw [hp, Function.update_of_ne hji]
      rw [hC w hwv] at hx
      exact h.buffered j w k x hj hw hk hx
  · intro w k x hno hk hx
    have hwv : w ≠ v := by
      rintro rfl
      exact hno i hi (by rw [hp, Function.update_self]; exact hs)
    rw [hC w hwv] at hx
    refine h.flash w k x (fun j hj => ?_) hk hx
    by_cases hji : j = i
    · subst hji
      rcases hold with ⟨-, hn⟩ | hiv
      · rw [hn]
        unfold ftlNomap
        omega
      · rw [hiv]
        omega
    · have := hno j hj
      rwa [hp, Function.update_of_ne hji] at this

end Change

end Uftl
