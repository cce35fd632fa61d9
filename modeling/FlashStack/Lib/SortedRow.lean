/-
  Rows in the strict order of their keys, read as maps.

  `valueAt key val l k` is the value of the first element with the key `k`.  In a row there is one
  at most, so that putting an element in or taking one out is `Function.update` on the map.
-/
import Mathlib

namespace Lib

variable {κ β γ : Type} [LinearOrder κ] {key : β → κ} {val : β → γ}

/-- Keys go up from left to right, without duplicates. -/
def SortedRow (key : β → κ) (l : List β) : Prop := l.Pairwise fun a b => key a < key b

/-- What a row has under a key. -/
def valueAt (key : β → κ) (val : β → γ) (l : List β) (k : κ) : Option γ :=
  (l.find? fun x => key x = k).map val

section Lookup

variable {l r : List β} {x : β} {k : κ}

/-- A key is in the one part or in the other. -/
theorem valueAt_append : valueAt key val (l ++ r) k = (valueAt key val l k).or (valueAt key val r k) := by
  unfold valueAt
  rw [List.find?_append]
  cases l.find? fun x => key x = k <;> rfl

theorem valueAt_cons : valueAt key val (x :: r) k =
    if key x = k then some (val x) else valueAt key val r k := by
  unfold valueAt
  by_cases h : key x = k
  · rw [List.find?_cons_of_pos (by simpa using h), if_pos h]
    rfl
  · rw [List.find?_cons_of_neg (by simpa using h), if_neg h]

/-- A key that is nowhere has no value. -/
theorem valueAt_eq_none_iff : valueAt key val l k = none ↔ ∀ x ∈ l, key x ≠ k := by
  unfold valueAt
  rw [Option.map_eq_none_iff, List.find?_eq_none]
  simp

theorem valueAt_eq_none_of_lt (h : ∀ x ∈ l, key x < k) : valueAt key val l k = none :=
  valueAt_eq_none_iff.mpr fun x hx => (h x hx).ne

theorem valueAt_eq_none_of_gt (h : ∀ x ∈ l, k < key x) : valueAt key val l k = none :=
  valueAt_eq_none_iff.mpr fun x hx => (h x hx).ne'

end Lookup

namespace SortedRow

variable {l r : List β} {x : β} {k : κ}

/-- An element in the middle divides the row. -/
theorem around (h : SortedRow key (l ++ x :: r)) :
    (∀ y ∈ l, key y < key x) ∧ ∀ y ∈ r, key x < key y := by
  obtain ⟨-, hright, hcross⟩ := List.pairwise_append.mp h
  exact ⟨fun y hy => hcross y hy x List.mem_cons_self, (List.pairwise_cons.mp hright).1⟩

/-- Everything up to it is below a larger key. -/
theorem low (h : SortedRow key (l ++ x :: r)) (hx : key x < k) : ∀ y ∈ l ++ [x], key y < k := by
  intro y hy
  rcases List.mem_append.mp hy with hy | hy
  · exact (h.around.1 y hy).trans hx
  · rwa [List.mem_singleton.mp hy]

/-- Everything from it on is above a smaller key. -/
theorem high (h : SortedRow key (l ++ x :: r)) (hx : k < key x) : ∀ y ∈ x :: r, k < key y :=
  List.forall_mem_cons.mpr ⟨hx, fun y hy => hx.trans (h.around.2 y hy)⟩

/-- An element is put between those before it and those behind it. -/
theorem insert (h : SortedRow key (l ++ r)) (hlow : ∀ y ∈ l, key y < key x)
    (hhigh : ∀ y ∈ r, key x < key y) : SortedRow key (l ++ x :: r) := by
  obtain ⟨hleft, hright, hcross⟩ := List.pairwise_append.mp h
  refine List.pairwise_append.mpr ⟨hleft, List.pairwise_cons.mpr ⟨hhigh, hright⟩, ?_⟩
  intro a ha b hb
  rcases List.mem_cons.mp hb with rfl | hb
  · exact hlow a ha
  · exact hcross a ha b hb

/-- A row without one of its elements. -/
theorem remove (h : SortedRow key (l ++ x :: r)) : SortedRow key (l ++ r) :=
  h.sublist ((List.Sublist.refl l).append (List.sublist_cons_self x r))

/-- Inserting an element changes the value of its key. -/
theorem valueAt_insert [DecidableEq κ] (h : SortedRow key (l ++ x :: r)) :
    valueAt key val (l ++ x :: r) =
      Function.update (valueAt key val (l ++ r)) (key x) (some (val x)) := by
  funext k
  rw [valueAt_append, valueAt_cons]
  by_cases hk : key x = k
  · subst hk
    rw [Function.update_self, if_pos rfl, valueAt_eq_none_of_lt h.around.1]
    rfl
  · rw [Function.update_of_ne (Ne.symm hk), if_neg hk, valueAt_append]

/-- An element has its value. -/
theorem valueAt_self (h : SortedRow key (l ++ x :: r)) :
    valueAt key val (l ++ x :: r) (key x) = some (val x) := by
  rw [h.valueAt_insert, Function.update_self]

/-- Removing it removes the value of its key. -/
theorem valueAt_remove [DecidableEq κ] (h : SortedRow key (l ++ x :: r)) :
    valueAt key val (l ++ r) = Function.update (valueAt key val (l ++ x :: r)) (key x) none := by
  have hnone : valueAt key val (l ++ r) (key x) = none := by
    rw [valueAt_append, valueAt_eq_none_of_lt h.around.1, valueAt_eq_none_of_gt h.around.2]
    rfl
  rw [h.valueAt_insert, Function.update_idem]
  exact (Function.update_eq_self_iff.mpr hnone.symm).symm

/-- What has a key is found under it. -/
theorem valueAt_eq_some_iff (h : SortedRow key l) {v : γ} :
    valueAt key val l k = some v ↔ ∃ x ∈ l, key x = k ∧ val x = v := by
  constructor
  · intro hv
    obtain ⟨x, hx, rfl⟩ := Option.map_eq_some_iff.mp hv
    exact ⟨x, List.mem_of_find?_eq_some hx, by simpa using List.find?_some hx, rfl⟩
  · rintro ⟨x, hx, rfl, rfl⟩
    obtain ⟨l, r, rfl⟩ := List.append_of_mem hx
    exact h.valueAt_self

/-- Removing keys removes their values. -/
theorem valueAt_filter {p : β → Bool} {q : κ → Prop} [DecidablePred q] (hp : ∀ x, p x = false ↔ q (key x)) :
    valueAt key val (l.filter p) = fun k => if q k then none else valueAt key val l k := by
  funext k
  induction l with
  | nil =>
    rw [List.filter_nil]
    exact (ite_self _).symm
  | cons x l ih =>
    rw [List.filter_cons]
    by_cases hx : p x = true
    · rw [if_pos hx, valueAt_cons, valueAt_cons, ih]
      by_cases hk : key x = k
      · subst hk
        have hq : ¬q (key x) := fun hq => by
          rw [(hp x).mpr hq] at hx
          exact Bool.false_ne_true hx
        rw [if_pos rfl, if_pos rfl, if_neg hq]
      · rw [if_neg hk, if_neg hk]
    · rw [if_neg hx, ih, valueAt_cons]
      by_cases hk : key x = k
      · subst hk
        have hq : q (key x) := (hp x).mp (Bool.eq_false_iff.mpr hx)
        rw [if_pos hq, if_pos hq]
      · rw [if_neg hk]

end SortedRow

end Lib
