/-
  Singly linked lists in memory.

  `Linked next p l q` says that from the pointer `p` the cells `l` are passed, one after the other,
  and that the pointer in the last one is `q`.  A list that ends in `none` is what a loop up to NULL
  runs through: it is determined by its first pointer, and no cell comes twice.
-/
import Mathlib.Data.List.Nodup
import Mathlib.Logic.Function.Basic
import Mathlib.Tactic.Common

namespace Lib

variable {A : Type*} {next next' : A → Option A}

/-- From `p` the pointers lead through the elements of the list to `q`. -/
def Linked (next : A → Option A) : Option A → List A → Option A → Prop
  | p, [], q => p = q
  | p, a :: l, q => p = some a ∧ Linked next (next a) l q

namespace Linked

variable {p q : Option A} {a : A} {l l' : List A}

/-- Only the pointers of the cells matter. -/
theorem congr (h : Linked next p l q) (hn : ∀ a ∈ l, next' a = next a) : Linked next' p l q := by
  induction l generalizing p with
  | nil => exact h
  | cons a l ih =>
    refine ⟨h.1, ?_⟩
    rw [hn a (List.mem_cons_self ..)]
    exact ih h.2 fun b hb => hn b (List.mem_cons_of_mem _ hb)

/-- The last pointer changes if the list is not empty, the first one otherwise. -/
theorem last (h : Linked next p (l ++ [a]) q) : next a = q := by
  induction l generalizing p with
  | nil => exact h.2
  | cons b l ih => exact ih h.2

/-- A list can be cut at any point. -/
theorem split (h : Linked next p (l ++ l') q) : ∃ r, Linked next p l r ∧ Linked next r l' q := by
  induction l generalizing p with
  | nil => exact ⟨p, rfl, h⟩
  | cons b l ih =>
    obtain ⟨r, hl, hr⟩ := ih h.2
    exact ⟨r, ⟨h.1, hl⟩, hr⟩

/-- And put together again. -/
theorem append {r : Option A} (h : Linked next p l q) (h' : Linked next q l' r) :
    Linked next p (l ++ l') r := by
  induction l generalizing p with
  | nil =>
    obtain rfl : p = q := h
    exact h'
  | cons a l ih => exact ⟨h.1, ih h.2⟩

/-- A list up to NULL is determined by its first pointer. -/
theorem unique (h : Linked next p l none) (h' : Linked next p l' none) : l = l' := by
  induction l generalizing p l' with
  | nil =>
    cases l' with
    | nil => rfl
    | cons b l' =>
      have := h.symm.trans h'.1
      cases this
  | cons a l ih =>
    cases l' with
    | nil =>
      have := h'.symm.trans h.1
      cases this
    | cons b l' =>
      obtain rfl : a = b := Option.some.inj (h.1.symm.trans h'.1)
      rw [ih h.2 h'.2]

/-- The cells but for the last one have a successor. -/
theorem next_isSome (h : Linked next p (l ++ [a]) q) {b : A} (hb : b ∈ l) : (next b).isSome := by
  induction l generalizing p with
  | nil => cases hb
  | cons c l ih =>
    rcases List.mem_cons.mp hb with rfl | hb
    · cases l with
      | nil => exact (congrArg Option.isSome h.2.1).trans rfl
      | cons d l => exact (congrArg Option.isSome h.2.1).trans rfl
    · exact ih h.2 hb

/-- A list up to NULL does not go through a cell that is its own successor. -/
theorem not_loop (ha : next a = some a) : ¬Linked next (some a) l none := by
  intro h
  induction l with
  | nil => cases h
  | cons b l ih =>
    obtain rfl : a = b := Option.some.inj h.1
    have hl := h.2
    rw [ha] at hl
    exact ih hl

/-- A list up to NULL goes through no cell twice. -/
theorem nodup (h : Linked next p l none) : l.Nodup := by
  induction l generalizing p with
  | nil => exact List.nodup_nil
  | cons a l ih =>
    refine List.nodup_cons.mpr ⟨?_, ih h.2⟩
    intro ha
    obtain ⟨l₁, l₂, hl⟩ := List.append_of_mem ha
    have hrest := h.2
    rw [hl] at hrest
    obtain ⟨r, -, hr⟩ := hrest.split
    -- from the second time on the list would be as long as from the first time on
    have hfst : Linked next (some a) (a :: l) none := ⟨rfl, h.2⟩
    have hsnd : Linked next (some a) (a :: l₂) none := ⟨rfl, hr.2⟩
    have := congrArg List.length (hfst.unique hsnd)
    simp only [hl, List.length_cons, List.length_append] at this
    omega

/-- The first `n` cells that are passed from `p` on. -/
def walk (next : A → Option A) : Nat → Option A → List A
  | 0, _ => []
  | _ + 1, none => []
  | n + 1, some a => a :: walk next n (next a)

/-- A walk of sufficient length goes through the whole list. -/
theorem walk_eq (h : Linked next p l none) {n : Nat} (hn : l.length ≤ n) : walk next n p = l := by
  induction l generalizing p n with
  | nil =>
    obtain rfl : p = none := h
    cases n <;> rfl
  | cons a l ih =>
    obtain ⟨rfl, hl⟩ := h
    cases n with
    | zero => simp at hn
    | succ n =>
      show a :: walk next n (next a) = a :: l
      rw [ih hl (by simpa using hn)]

end Linked

end Lib
