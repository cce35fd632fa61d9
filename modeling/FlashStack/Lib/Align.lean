/-
  Rounding up: `ALIGN(x, a)` is the least multiple of `a` from `x` on.

  What is rounded stays below any multiple that it was below (`align_le`), and rounding a multiple
  changes nothing (`align_of_dvd`); with these two a layout in aligned pieces is added up.
-/
import Mathlib.Algebra.Group.Nat.Defs
import Mathlib.Data.Nat.Basic

namespace Lib

variable {a x y : Nat}

/-- For `a = 0` there is no such multiple, and what a mask of `a - 1` makes of it is `0`. -/
def align (x a : Nat) : Nat := (x + a - 1) / a * a

/-- `x & ~(a - 1)`: the multiple of `a` before `x`. -/
def alignDown (x a : Nat) : Nat := x / a * a

theorem dvd_align : a ∣ align x a := Nat.dvd_mul_left a _

theorem dvd_alignDown : a ∣ alignDown x a := Nat.dvd_mul_left a _

theorem alignDown_le : alignDown x a ≤ x := Nat.div_mul_le_self x a

theorem alignDown_add_mod : alignDown x a + x % a = x := Nat.div_add_mod' x a

theorem align_lt (ha : 0 < a) : align x a < x + a := by
  have := Nat.div_mul_le_self (x + a - 1) a
  unfold align
  omega

theorem le_align (ha : 0 < a) : x ≤ align x a := by
  have hdiv := Nat.div_add_mod' (x + a - 1) a
  have hmod := Nat.mod_lt (x + a - 1) ha
  unfold align
  omega

theorem align_mono (h : x ≤ y) : align x a ≤ align y a :=
  Nat.mul_le_mul_right a (Nat.div_le_div_right (by omega))

theorem align_le (ha : 0 < a) (hxy : x ≤ y) (hy : a ∣ y) : align x a ≤ y := by
  obtain ⟨k, rfl⟩ := hy
  unfold align
  rw [Nat.mul_comm]
  refine Nat.mul_le_mul_left a (Nat.lt_succ_iff.mp ?_)
  rw [Nat.div_lt_iff_lt_mul ha, Nat.succ_mul, Nat.mul_comm k a]
  omega

theorem align_of_dvd (ha : 0 < a) (h : a ∣ x) : align x a = x :=
  Nat.le_antisymm (align_le ha (Nat.le_refl x) h) (le_align ha)

theorem align_add {k : Nat} (ha : 0 < a) (hk : a ∣ k) : align (k + x) a = k + align x a := by
  obtain ⟨m, rfl⟩ := hk
  unfold align
  rw [show a * m + x + a - 1 = x + a - 1 + a * m by omega, Nat.add_mul_div_left _ _ ha,
    Nat.add_mul, Nat.add_comm, Nat.mul_comm m]

/-- To round up to a divisor of `a` first makes no difference. -/
theorem align_align {b : Nat} (ha : 0 < a) (hb : 0 < b) (h : b ∣ a) :
    align (align x b) a = align x a := by
  refine Nat.le_antisymm ?_ (align_mono (le_align hb))
  refine align_le ha ?_ dvd_align
  exact align_le hb (le_align ha) (Nat.dvd_trans h dvd_align)

/-- Two multiples are equal or a whole `a` apart. -/
theorem add_le_of_dvd_of_lt (hx : a ∣ x) (hy : a ∣ y) (h : x < y) : x + a ≤ y := by
  obtain ⟨m, rfl⟩ := hx
  obtain ⟨n, rfl⟩ := hy
  rw [← Nat.mul_succ]
  exact Nat.mul_le_mul_left a (Nat.lt_of_mul_lt_mul_left h)

/-- Of two powers of two the greater one is a multiple of the other. -/
theorem align_two_pow {m n : Nat} : align (2 ^ m) (2 ^ n) = 2 ^ max m n := by
  have hpos : 0 < 2 ^ n := Nat.two_pow_pos n
  rcases Nat.le_total n m with h | h
  · rw [Nat.max_eq_left h]
    exact align_of_dvd hpos (Nat.pow_dvd_pow 2 h)
  · rw [Nat.max_eq_right h]
    refine Nat.le_antisymm ?_ ?_
    · exact align_le hpos (Nat.pow_le_pow_right (by omega) h) (Nat.dvd_refl _)
    · refine Nat.le_of_dvd ?_ dvd_align
      exact Nat.lt_of_lt_of_le (Nat.two_pow_pos m) (le_align hpos)

end Lib
