/-
  Totals over a table of which one entry changes.

  A total that is kept along with a table is right again if the old contribution of the entry goes out
  and the new one comes in (`sum_change`, stated without subtraction).
-/
import Mathlib.Algebra.BigOperators.Group.Finset.Basic

namespace Lib

variable {ι α M : Type*} [DecidableEq ι] [AddCommMonoid M] {s : Finset ι} {l : ι}

/-- The entry at `l` is the only one that changes. -/
theorem sum_change {f f' : ι → M} (hl : l ∈ s) (h : ∀ y ∈ s, y ≠ l → f' y = f y) :
    ∑ y ∈ s, f' y + f l = ∑ y ∈ s, f y + f' l := by
  have hrest : ∑ y ∈ s.erase l, f' y = ∑ y ∈ s.erase l, f y :=
    Finset.sum_congr rfl fun y hy =>
      h y (Finset.mem_of_mem_erase hy) (Finset.ne_of_mem_erase hy)
  rw [← Finset.sum_erase_add s f hl, ← Finset.sum_erase_add s f' hl, hrest, add_right_comm]

/-- One summand is exchanged for another. -/
theorem sum_update {t : ι → α} {a : α} (f : α → M) (hl : l ∈ s) :
    ∑ y ∈ s, f (Function.update t l a y) + f (t l) = ∑ y ∈ s, f (t y) + f a := by
  have h := @sum_change _ _ _ _ _ _ (fun y => f (t y)) (fun y => f (Function.update t l a y)) hl fun
    y _ hy => by rw [Function.update_of_ne hy]
  rw [Function.update_self] at h
  exact h

end Lib
