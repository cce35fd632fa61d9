/-
  A ring of `n` numbers from `first` on.

  `next` steps round the ring, `place x k` is `k` steps from `x`.  Fewer than `n` steps from one place
  lead to different places (`place_inj`).
-/
import Mathlib

namespace Lib.Ring

variable {first n x j k : Nat}

/-- The number after `x`. -/
def next (first n x : Nat) : Nat := if x + 1 < first + n then x + 1 else first

/-- The number `k` steps from `x`. -/
def place (first n x k : Nat) : Nat := first + (x - first + k) % n

/-- `x` is in the ring. -/
def In (first n x : Nat) : Prop := first ≤ x ∧ x < first + n

/-- A ring with a place in it is not empty. -/
theorem In.pos (h : In first n x) : 0 < n := by
  unfold In at h
  omega

/-- Places are in the ring. -/
theorem place_in (hn : 0 < n) : In first n (place first n x k) :=
  ⟨Nat.le_add_right .., Nat.add_lt_add_left (Nat.mod_lt _ hn) _⟩

theorem place_zero (h : In first n x) : place first n x 0 = x := by
  unfold place
  rw [Nat.add_zero, Nat.mod_eq_of_lt (by unfold In at h; omega), Nat.add_sub_cancel' h.1]

/-- Steps around the ring add up. -/
theorem place_place : place first n (place first n x j) k = place first n x (j + k) := by
  unfold place
  rw [Nat.add_sub_cancel_left, Nat.mod_add_mod, Nat.add_assoc]

/-- The next place. -/
theorem next_place (hn : 0 < n) :
    next first n (place first n x k) = place first n x (k + 1) := by
  have hmod := Nat.mod_lt (x - first + k) hn
  have hsucc : (x - first + (k + 1)) % n = ((x - first + k) % n + 1) % n := by
    rw [Nat.mod_add_mod, Nat.add_assoc]
  unfold next place
  rw [hsucc]
  by_cases hlt : (x - first + k) % n + 1 < n
  · rw [if_pos (by omega), Nat.mod_eq_of_lt hlt, Nat.add_assoc]
  · have heq : (x - first + k) % n + 1 = n := by omega
    rw [if_neg (by omega), heq, Nat.mod_self, Nat.add_zero]

/-- Without going round, or going round once. -/
theorem place_eq (h : In first n x) (hk : k ≤ n) :
    place first n x k = if x + k < first + n then x + k else x + k - n := by
  unfold In at h
  unfold place
  by_cases hlt : x + k < first + n
  · rw [if_pos hlt, Nat.mod_eq_of_lt (by omega)]
    omega
  · rw [if_neg hlt, Nat.mod_eq_sub_mod (by omega), Nat.mod_eq_of_lt (by omega)]
    omega

/-- In one round all places are different. -/
theorem place_inj (hj : j < n) (hk : k < n) (h : place first n x j = place first n x k) :
    j = k := by
  have hmod : x - first + j ≡ x - first + k [MOD n] := Nat.add_left_cancel h
  have hmod' := Nat.ModEq.add_left_cancel' _ hmod
  exact hmod'.eq_of_lt_of_lt hj hk

end Lib.Ring
