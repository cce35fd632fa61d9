/-
  Lists in the order of their keys, where only some keys may occur more than once.

  `Ahead dup a b` is `a < b`, or `a ≤ b` where the key may be repeated.  A row in this order says
  of a key that must be unique that it is unique, and of the others that they are next to each
  other.
-/
import Mathlib

namespace Lib

variable {κ β : Type} [LinearOrder κ] {dup : κ → Prop} {key : β → κ}

/-- `b` may stand behind `a`: it is greater, or they are one key of those that collide. -/
def Ahead (dup : κ → Prop) (a b : κ) : Prop := a < b ∨ a = b ∧ dup a

/-- The elements are in order. -/
def InOrder (dup : κ → Prop) (key : β → κ) (l : List β) : Prop :=
  l.Pairwise fun a b => Ahead dup (key a) (key b)

namespace Ahead

variable {a b c k : κ}

/-- In front of it the keys are not larger. -/
theorem le (h : Ahead dup a b) : a ≤ b := by
  rcases h with h | ⟨rfl, -⟩
  · exact h.le
  · exact le_refl a

/-- Being in front goes on. -/
theorem trans_le (h : Ahead dup a b) (hle : b ≤ c) : Ahead dup a c := by
  rcases h with h | ⟨rfl, hdup⟩
  · exact .inl (lt_of_lt_of_le h hle)
  · rcases lt_or_eq_of_le hle with hlt | rfl
    · exact .inl hlt
    · exact .inr ⟨rfl, hdup⟩

theorem le_trans (h : Ahead dup b c) (hle : a ≤ b) : Ahead dup a c := by
  rcases lt_or_eq_of_le hle with hlt | rfl
  · exact .inl (lt_of_lt_of_le hlt h.le)
  · exact h

/-- Different keys are in order. -/
theorem lt_of_ne (h : Ahead dup a b) (hne : a ≠ b) : a < b := h.le.lt_of_ne hne

/-- A key that is unique is different from those around it. -/
theorem ne_of_unique (h : Ahead dup a k) (hk : ¬dup k) : a ≠ k := by
  rcases h with h | ⟨rfl, hdup⟩
  · exact ne_of_lt h
  · exact absurd hdup hk

theorem ne_of_unique' (h : Ahead dup k b) (hk : ¬dup k) : b ≠ k := by
  rcases h with h | ⟨rfl, hdup⟩
  · exact ne_of_gt h
  · exact absurd hdup hk

end Ahead

namespace InOrder

variable {l r : List β} {x : β} {k : κ}

/-- The left part is not larger than the right one. -/
theorem le_of_mem_append (h : InOrder dup key (l ++ r)) {a b : β} (ha : a ∈ l) (hb : b ∈ r) :
    key a ≤ key b :=
  ((List.pairwise_append.mp h).2.2 a ha b hb).le

/-- To the left of an element below `k` there is no `k`. -/
theorem left_lt (h : InOrder dup key (l ++ x :: r)) (hx : key x < k) : ∀ y ∈ l, key y < k := by
  intro y hy
  exact lt_of_le_of_lt (h.le_of_mem_append hy List.mem_cons_self) hx

/-- To the right of an element above `k` there is no `k`. -/
theorem right_gt (h : InOrder dup key (l ++ x :: r)) (hx : k < key x) : ∀ y ∈ r, k < key y := by
  intro y hy
  have htail := (List.pairwise_append.mp h).2.1
  exact lt_of_lt_of_le hx ((List.pairwise_cons.mp htail).1 y hy).le

/-- A key that does not collide occurs once. -/
theorem unique (h : InOrder dup key (l ++ x :: r)) (hk : ¬dup (key x)) :
    (∀ y ∈ l, key y ≠ key x) ∧ ∀ y ∈ r, key y ≠ key x := by
  obtain ⟨-, htail, hcross⟩ := List.pairwise_append.mp h
  constructor
  · intro y hy
    exact (hcross y hy x List.mem_cons_self).ne_of_unique hk
  · intro y hy
    exact ((List.pairwise_cons.mp htail).1 y hy).ne_of_unique' hk

end InOrder

end Lib
