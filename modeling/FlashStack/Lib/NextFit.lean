/-
  Next-fit placement.

  Items of given sizes are put into bins of one capacity, in their order: an item goes to the end of
  the bin in hand if there is room for it there, and opens the next bin otherwise.  `nextFit` says
  where each item goes.  Items do not stick out of their bins, they do not overlap, and the number
  of bins is bounded by counting every item at the size of the largest one.
-/
import Mathlib.Tactic.Common
import Mathlib.Data.List.Basic
import Mathlib.Algebra.Order.Group.Nat
import Mathlib.Algebra.GroupWithZero.Nat

namespace Lib

/-- The bins and offsets of items of the sizes `ss`, when bin `b` is filled up to `o`. -/
def nextFit (cap : Nat) : Nat → Nat → List Nat → List (Nat × Nat)
  | _, _, [] => []
  | b, o, s :: ss =>
    if o + s ≤ cap then (b, o) :: nextFit cap b (o + s) ss
    else (b + 1, 0) :: nextFit cap (b + 1) s ss

namespace NextFit

variable {cap b o s m : Nat} {ss : List Nat}

/-- What fits goes behind the last one. -/
theorem cons_fits (h : o + s ≤ cap) :
    nextFit cap b o (s :: ss) = (b, o) :: nextFit cap b (o + s) ss := if_pos h

/-- What does not opens a new bin. -/
theorem cons_opens (h : ¬o + s ≤ cap) :
    nextFit cap b o (s :: ss) = (b + 1, 0) :: nextFit cap (b + 1) s ss := if_neg h

theorem cons_eq {p : Nat × Nat} (hp : p = if o + s ≤ cap then (b, o) else (b + 1, 0)) :
    nextFit cap b o (s :: ss) = p :: nextFit cap p.1 (p.2 + s) ss := by
  subst hp
  by_cases h : o + s ≤ cap
  · rw [cons_fits h, if_pos h]
  · rw [cons_opens h, if_neg h, Nat.zero_add]

@[simp] theorem length_nextFit : (nextFit cap b o ss).length = ss.length := by
  induction ss generalizing b o with
  | nil => rfl
  | cons s ss ih =>
    unfold nextFit
    split <;> simp [ih]

/-- Nothing is put before the place in hand. -/
theorem not_before {p : Nat × Nat} (hp : p ∈ nextFit cap b o ss) :
    b < p.1 ∨ b = p.1 ∧ o ≤ p.2 := by
  induction ss generalizing b o with
  | nil => cases hp
  | cons s ss ih =>
    by_cases h : o + s ≤ cap
    · rw [cons_fits h] at hp
      rcases List.mem_cons.mp hp with rfl | hp
      · exact .inr ⟨rfl, Nat.le_refl _⟩
      · have := ih hp
        omega
    · rw [cons_opens h] at hp
      rcases List.mem_cons.mp hp with rfl | hp
      · exact .inl (Nat.lt_succ_self b)
      · have := ih hp
        omega

/-- No item sticks out of its bin. -/
theorem inside (hs : ∀ s ∈ ss, s ≤ cap) {q : (Nat × Nat) × Nat}
    (hq : q ∈ (nextFit cap b o ss).zip ss) : q.1.2 + q.2 ≤ cap := by
  induction ss generalizing b o with
  | nil => simp at hq
  | cons s ss ih =>
    have ih := @ih
    have hrest := fun t ht => hs t (List.mem_cons_of_mem s ht)
    by_cases h : o + s ≤ cap
    · rw [cons_fits h, List.zip_cons_cons] at hq
      rcases List.mem_cons.mp hq with rfl | hq
      · exact h
      · exact ih hrest hq
    · rw [cons_opens h, List.zip_cons_cons] at hq
      rcases List.mem_cons.mp hq with rfl | hq
      · simpa using hs s (List.mem_cons_self ..)
      · exact ih hrest hq

/-- Offsets are sums of sizes. -/
theorem dvd_offset {d : Nat} (ho : d ∣ o) (hs : ∀ s ∈ ss, d ∣ s) {p : Nat × Nat}
    (hp : p ∈ nextFit cap b o ss) : d ∣ p.2 := by
  induction ss generalizing b o with
  | nil => cases hp
  | cons s ss ih =>
    have hd := hs s (List.mem_cons_self ..)
    have hrest := fun t ht => hs t (List.mem_cons_of_mem s ht)
    by_cases h : o + s ≤ cap
    · rw [cons_fits h] at hp
      rcases List.mem_cons.mp hp with rfl | hp
      · exact ho
      · exact ih (Nat.dvd_add ho hd) hrest hp
    · rw [cons_opens h] at hp
      rcases List.mem_cons.mp hp with rfl | hp
      · exact Nat.dvd_zero d
      · exact ih hd hrest hp

/-- One item ends before the other one starts, or they are in different bins. -/
def Before (p q : (Nat × Nat) × Nat) : Prop := p.1.1 < q.1.1 ∨ p.1.1 = q.1.1 ∧ p.1.2 + p.2 ≤ q.1.2

/-- Items are placed in their order, and do not overlap. -/
theorem pairwise_before : ((nextFit cap b o ss).zip ss).Pairwise Before := by
  induction ss generalizing b o with
  | nil => exact List.Pairwise.nil
  | cons s ss ih =>
    by_cases h : o + s ≤ cap
    · rw [cons_fits h, List.zip_cons_cons]
      refine List.pairwise_cons.mpr ⟨?_, ih⟩
      intro q hq
      exact not_before (List.of_mem_zip hq).1
    · rw [cons_opens h, List.zip_cons_cons]
      refine List.pairwise_cons.mpr ⟨?_, ih⟩
      intro q hq
      have := not_before (List.of_mem_zip hq).1
      show b + 1 < q.1.1 ∨ b + 1 = q.1.1 ∧ 0 + s ≤ q.1.2
      omega

/-- The bins that are needed for `n` more items of at most the size `m`, when the one in hand is
    filled up to `o`. -/
def binsFor (cap m o n : Nat) : Nat := (n - (cap - o) / m + (cap / m - 1)) / (cap / m)

/-- One item less, and its room less: not more bins. -/
theorem binsFor_fits (hm : 0 < m) (hs : s ≤ m) (h : o + s ≤ cap) (n : Nat) :
    binsFor cap m (o + s) n ≤ binsFor cap m o (n + 1) := by
  have hroom : (cap - o) / m ≤ (cap - (o + s)) / m + 1 := by
    have hle : cap - o ≤ cap - (o + s) + m := by omega
    have := Nat.div_le_div_right (c := m) hle
    rwa [Nat.add_div_right _ hm] at this
  unfold binsFor
  exact Nat.div_le_div_right (by omega)

/-- A bin that has no room for one more item pays for the next one. -/
theorem binsFor_opens (hm : 0 < m) (hs : s ≤ m) (hcap : m ≤ cap) (h : ¬o + s ≤ cap) (n : Nat) :
    binsFor cap m s n + 1 ≤ binsFor cap m o (n + 1) := by
  have hper : 0 < cap / m := Nat.div_pos hcap hm
  have hnone : (cap - o) / m = 0 := Nat.div_eq_of_lt (by omega)
  have hroom : cap / m ≤ (cap - s) / m + 1 := by
    have hle : cap ≤ cap - s + m := by omega
    have := Nat.div_le_div_right (c := m) hle
    rwa [Nat.add_div_right _ hm] at this
  have hcount : n - (cap - s) / m + (cap / m - 1) + cap / m ≤ n + 1 - 0 + (cap / m - 1) ∨
      n - (cap - s) / m = 0 := by omega
  unfold binsFor
  rw [hnone]
  rcases hcount with hcount | hcount
  · rw [← Nat.add_div_right _ hper]
    exact Nat.div_le_div_right hcount
  · -- the rest goes into the bin that was opened
    have hfew : (0 + (cap / m - 1)) / (cap / m) = 0 := Nat.div_eq_of_lt (by omega)
    rw [hcount, hfew]
    exact (Nat.one_le_div_iff hper).mpr (by omega)

/-- The bound on the number of bins. -/
theorem bin_le (hcap : m ≤ cap) (hm : 0 < m) (hs : ∀ s ∈ ss, s ≤ m) {p : Nat × Nat}
    (hp : p ∈ nextFit cap b o ss) : p.1 ≤ b + binsFor cap m o ss.length := by
  induction ss generalizing b o with
  | nil => cases hp
  | cons s ss ih =>
    have hle := hs s (List.mem_cons_self ..)
    have hrest := fun t ht => hs t (List.mem_cons_of_mem s ht)
    by_cases h : o + s ≤ cap
    · have := binsFor_fits hm hle h ss.length
      rw [cons_fits h] at hp
      rcases List.mem_cons.mp hp with rfl | hp
      · exact Nat.le_add_right ..
      · have := ih hrest hp
        simp only [List.length_cons]
        omega
    · have := binsFor_opens hm hle hcap h ss.length
      rw [cons_opens h] at hp
      rcases List.mem_cons.mp hp with rfl | hp
      · simp only [List.length_cons]
        omega
      · have := ih hrest hp
        simp only [List.length_cons]
        omega

/-! ## A stream of items -/

section Stream

variable (cap : Nat) (sz : Nat → Nat) (b : Nat)

/-- Where an item goes when the bin in hand is filled up to `p.2`. -/
def place (p : Nat × Nat) (s : Nat) : Nat × Nat := if p.2 + s ≤ cap then p else (p.1 + 1, 0)

/-- The bin in hand, and how far it is filled, before item `k`. -/
def fill : Nat → Nat × Nat
  | 0 => (b, 0)
  | k + 1 => ((place cap (fill k) (sz k)).1, (place cap (fill k) (sz k)).2 + sz k)

/-- The bin and offset of item `k`. -/
def spot (k : Nat) : Nat × Nat := place cap (fill cap sz b k) (sz k)

variable {cap sz b}

/-- The next one starts where this one ends. -/
theorem fill_succ (k : Nat) :
    fill cap sz b (k + 1) = ((spot cap sz b k).1, (spot cap sz b k).2 + sz k) := rfl

/-- A spot is not in front of what is there. -/
theorem spot_after (cap : Nat) (sz : Nat → Nat) (b k : Nat) :
    (fill cap sz b k).1 < (spot cap sz b k).1 ∨
      (fill cap sz b k).1 = (spot cap sz b k).1 ∧
        (fill cap sz b k).2 ≤ (spot cap sz b k).2 := by
  unfold spot place
  split
  · exact .inr ⟨rfl, Nat.le_refl _⟩
  · exact .inl (Nat.lt_succ_self _)

/-- It is inside its bin. -/
theorem spot_inside {k : Nat} (hs : sz k ≤ cap) : (spot cap sz b k).2 + sz k ≤ cap := by
  unfold spot place
  split
  · assumption
  · simpa using hs

/-- An item ends before all later ones start, or is in an earlier bin. -/
theorem spot_before {j k : Nat} (h : j < k) : (spot cap sz b j).1 < (spot cap sz b k).1 ∨
    (spot cap sz b j).1 = (spot cap sz b k).1 ∧
      (spot cap sz b j).2 + sz j ≤ (spot cap sz b k).2 := by
  induction k with
  | zero => exact absurd h (Nat.not_lt_zero j)
  | succ k ih =>
    have hafter := spot_after cap sz b (k + 1)
    rw [fill_succ] at hafter
    simp only at hafter
    rcases Nat.lt_or_eq_of_le (Nat.lt_succ_iff.mp h) with hlt | rfl
    · have := ih hlt
      omega
    · exact hafter

/-- What is in two bins in a row does not fit into one. -/
theorem fill_bound (k : Nat) : b ≤ (fill cap sz b k).1 ∧
    ((fill cap sz b k).1 - b) * cap + (fill cap sz b k).2 ≤ 2 * ((List.range k).map sz).sum := by
  induction k with
  | zero => simp [fill]
  | succ k ih =>
    obtain ⟨hle, hsum⟩ := ih
    rw [fill_succ, List.range_succ, List.map_append, List.sum_append, List.map_singleton,
      List.sum_singleton]
    unfold spot place
    split
    · exact ⟨hle, by simp only; omega⟩
    · refine ⟨Nat.le_succ_of_le hle, ?_⟩
      have hsub : (fill cap sz b k).1 + 1 - b = (fill cap sz b k).1 - b + 1 := by omega
      simp only [hsub, Nat.succ_mul]
      omega

theorem le_spot (k : Nat) : b ≤ (spot cap sz b k).1 := (fill_bound (k + 1)).1

/-- Bins are half full at least, but for the last. -/
theorem spot_bound (k : Nat) :
    ((spot cap sz b k).1 - b) * cap ≤ 2 * ((List.range (k + 1)).map sz).sum :=
  Nat.le_trans (Nat.le_add_right ..) (fill_bound (k + 1)).2

end Stream

end NextFit

end Lib
