/-
  Walks down a binary search tree, as the list of its elements sees them.

  The order of a tree is any relation on its elements; a tree is in order if its list is.

  A tree that is rebalanced is another tree with the same list, so that nothing here depends on how
  it is balanced.  `find_against` says what a search in the wrong direction finds: the root, or
  nothing.
-/
import Mathlib.Data.List.Basic
import Mathlib.Data.Tree.Basic

namespace Lib.SearchTree

variable {α : Type}

/-- The elements from left to right. -/
def inorder : BinaryTree α → List α
  | .nil => []
  | .node a l r => inorder l ++ a :: inorder r

/-- The leftmost element. -/
def first : BinaryTree α → Option α
  | .nil => none
  | .node a l _ => (first l).or (some a)

/-- The rightmost element. -/
def last : BinaryTree α → Option α
  | .nil => none
  | .node a _ r => (last r).or (some a)

/-- Down to the right where `p` holds and to the left elsewhere; the last element where it held. -/
def search (p : α → Bool) : BinaryTree α → α → α
  | .nil, e => e
  | .node a l r, e => if p a then search p r a else search p l e

variable {t : BinaryTree α} {p : α → Bool}

@[simp] theorem inorder_nil : inorder (.nil : BinaryTree α) = [] := rfl

@[simp] theorem inorder_node (a : α) (l r : BinaryTree α) :
    inorder (.node a l r) = inorder l ++ a :: inorder r := rfl

@[simp] theorem inorder_eq_nil : inorder t = [] ↔ t = .nil := by
  cases t with
  | nil => simp
  | node a l r => simp

/-- The leftmost element comes first. -/
theorem first_eq (t : BinaryTree α) : first t = (inorder t).head? := by
  induction t with
  | nil => rfl
  | node a l r ihl ihr => rw [first, ihl, inorder_node, List.head?_append, List.head?_cons]

/-- The rightmost comes last. -/
theorem last_eq (t : BinaryTree α) : last t = (inorder t).getLast? := by
  induction t with
  | nil => rfl
  | node a l r ihl ihr =>
    rw [last, ihr, inorder_node, List.getLast?_append, List.getLast?_cons]
    cases (inorder r).getLast? <;> rfl

/-- If `p` holds up to some element, then the walk finds the last one where it does. -/
theorem search_eq (h : (inorder t).Pairwise fun a b => p b = true → p a = true) (e : α) :
    search p t e = ((inorder t).filter p).getLast?.getD e := by
  induction t generalizing e with
  | nil => rfl
  | node a l r ihl ihr =>
    rw [inorder_node, List.pairwise_append, List.pairwise_cons] at h
    obtain ⟨hl, ⟨har, hr⟩, -⟩ := h
    rw [inorder_node, List.filter_append, search]
    cases ha : p a with
    | true =>
      rw [if_pos rfl, ihr hr, List.filter_cons_of_pos ha, List.getLast?_append, List.getLast?_cons]
      rfl
    | false =>
      have hnone : (inorder r).filter p = [] :=
        List.filter_eq_nil_iff.mpr fun b hb hpb => by
          have := har b hb hpb
          rw [ha] at this
          cases this
      rw [if_neg Bool.false_ne_true, ihl hl, List.filter_cons_of_neg (by simp [ha]), hnone,
        List.append_nil]

/-- A search ends at an element, or where it started. -/
theorem search_mem (e : α) : search p t e = e ∨ search p t e ∈ inorder t := by
  induction t generalizing e with
  | nil => exact Or.inl rfl
  | node a l r ihl ihr =>
    rw [search, inorder_node]
    split
    · rcases ihr a with h | h
      · exact Or.inr (by simp [h])
      · exact Or.inr (by simp [h])
    · rcases ihl e with h | h
      · exact Or.inl h
      · exact Or.inr (by simp [h])

/-! ## Trees in order -/

section Order

variable (lt : α → α → Prop) [DecidableRel lt]

/-- A new leaf. -/
def insert (e : α) : BinaryTree α → BinaryTree α
  | .nil => .node e .nil .nil
  | .node a l r => if lt e a then .node a (insert e l) r else .node a l (insert e r)

/-- Is the element there, for all that a walk down can tell? -/
def has [DecidableEq α] (e : α) : BinaryTree α → Bool
  | .nil => false
  | .node a l r => if e = a then true else if lt e a then has e l else has e r

variable {lt} {e : α}

/-- An element is inserted, and the others stay. -/
theorem inorder_insert : (inorder (insert lt e t)).Perm (e :: inorder t) := by
  induction t with
  | nil => exact List.Perm.refl _
  | node a l r ihl ihr =>
    rw [insert, inorder_node]
    split
    · exact ihl.append_right (a :: inorder r)
    · rw [inorder_node]
      refine ((ihr.cons a).append_left (inorder l)).trans ?_
      exact ((List.Perm.swap e a _).append_left _).trans List.perm_middle

theorem mem_insert {x : α} : x ∈ inorder (insert lt e t) ↔ x = e ∨ x ∈ inorder t := by
  rw [inorder_insert.mem_iff, List.mem_cons]

/-- The tree stays in order, if the new element can be compared with those there. -/
theorem insert_ordered (htrans : ∀ a b c, lt a b → lt b c → lt a c)
    (ht : (inorder t).Pairwise lt) (he : ∀ a ∈ inorder t, ¬ lt e a → lt a e) :
    (inorder (insert lt e t)).Pairwise lt := by
  induction t with
  | nil => exact List.pairwise_singleton lt e
  | node a l r ihl ihr =>
    rw [inorder_node, List.pairwise_append, List.pairwise_cons] at ht
    obtain ⟨hl, ⟨har, hr⟩, hlr⟩ := ht
    rw [inorder_node, List.forall_mem_append, List.forall_mem_cons] at he
    obtain ⟨hel, hea, her⟩ := he
    rw [insert]
    split
    · rename_i hlt
      rw [inorder_node, List.pairwise_append, List.pairwise_cons]
      refine ⟨ihl hl hel, ⟨har, hr⟩, fun x hx y hy => ?_⟩
      rcases mem_insert.mp hx with rfl | hx
      · rcases List.mem_cons.mp hy with rfl | hy
        · exact hlt
        · exact htrans _ _ _ hlt (har y hy)
      · exact hlr x hx y hy
    · rename_i hlt
      have hgt : lt a e := hea hlt
      rw [inorder_node, List.pairwise_append, List.pairwise_cons]
      refine ⟨hl, ⟨fun y hy => ?_, ihr hr her⟩, fun x hx y hy => ?_⟩
      · rcases mem_insert.mp hy with rfl | hy
        · exact hgt
        · exact har y hy
      · have hxa := hlr x hx a List.mem_cons_self
        rcases List.mem_cons.mp hy with rfl | hy
        · exact hxa
        · rcases mem_insert.mp hy with rfl | hy
          · exact htrans _ _ _ hxa hgt
          · exact hlr x hx y (List.mem_cons_of_mem a hy)

/-- In a tree that is in order a walk down finds what is there. -/
theorem has_iff [DecidableEq α] (hasymm : ∀ a b, lt a b → ¬ lt b a)
    (ht : (inorder t).Pairwise lt) : has lt e t = true ↔ e ∈ inorder t := by
  induction t with
  | nil => simp [has]
  | node a l r ihl ihr =>
    rw [inorder_node, List.pairwise_append, List.pairwise_cons] at ht
    obtain ⟨hl, ⟨har, hr⟩, hlr⟩ := ht
    rw [has, inorder_node, List.mem_append, List.mem_cons]
    split
    · rename_i heq
      simp [heq]
    · rename_i hne
      split
      · rename_i hlt
        rw [ihl hl]
        refine ⟨Or.inl, fun h => ?_⟩
        rcases h with h | h | h
        · exact h
        · exact absurd h hne
        · exact absurd (har e h) (hasymm e a hlt)
      · rename_i hlt
        rw [ihr hr]
        refine ⟨fun h => Or.inr (Or.inr h), fun h => ?_⟩
        rcases h with h | h | h
        · exact absurd (hlr e h a List.mem_cons_self) hlt
        · exact absurd h hne
        · exact h

end Order

/-! ## Elements that are looked up by a key -/

section Key

variable {κ : Type} [DecidableEq κ] (lt : κ → κ → Prop) [DecidableRel lt] (key : α → κ)

/-- Down to the left where the key is `lt` that of the element, until it is there. -/
def find (x : κ) : BinaryTree α → Option α
  | .nil => none
  | .node a l r =>
    if x = key a then some a else if lt x (key a) then find x l else find x r

variable {lt key} {x : κ} {a : α}

/-- What is found is there. -/
theorem find_sound (h : find lt key x t = some a) : a ∈ inorder t ∧ key a = x := by
  induction t with
  | nil => cases h
  | node b l r ihl ihr =>
    rw [find] at h
    rw [inorder_node, List.mem_append, List.mem_cons]
    split at h
    · rename_i heq
      obtain rfl := Option.some.inj h
      exact ⟨Or.inr (Or.inl rfl), heq.symm⟩
    · split at h
      · exact ⟨Or.inl (ihl h).1, (ihl h).2⟩
      · exact ⟨Or.inr (Or.inr (ihr h).1), (ihr h).2⟩

/-- What is not there is not found. -/
theorem find_eq_none (h : ∀ a ∈ inorder t, key a ≠ x) : find lt key x t = none := by
  cases hf : find lt key x t with
  | none => rfl
  | some a => exact absurd (find_sound hf).2 (h a (find_sound hf).1)

/-- A walk in the direction of the order finds what is there. -/
theorem find_eq_some (hasymm : ∀ x y, lt x y → ¬ lt y x)
    (ht : (inorder t).Pairwise fun a b => lt (key a) (key b)) :
    find lt key x t = some a ↔ a ∈ inorder t ∧ key a = x := by
  refine ⟨find_sound, ?_⟩
  rintro ⟨ha, rfl⟩
  induction t with
  | nil => exact absurd ha List.not_mem_nil
  | node b l r ihl ihr =>
    rw [inorder_node, List.pairwise_append, List.pairwise_cons] at ht
    obtain ⟨hl, ⟨hbr, hr⟩, hlr⟩ := ht
    have hne : ∀ x y, lt x y → x ≠ y := by
      rintro x y h rfl
      exact hasymm x x h h
    rw [inorder_node, List.mem_append, List.mem_cons] at ha
    rw [find]
    rcases ha with ha | rfl | ha
    · have hlt : lt (key a) (key b) := hlr a ha b List.mem_cons_self
      rw [if_neg (hne _ _ hlt), if_pos hlt]
      exact ihl hl ha
    · exact if_pos rfl
    · have hlt : lt (key b) (key a) := hbr a ha
      rw [if_neg (hne _ _ hlt).symm, if_neg (hasymm _ _ hlt)]
      exact ihr hr ha

/-- A walk against the direction of the order finds the root only. -/
theorem find_against {l r : BinaryTree α} {ord : κ → κ → Prop} (hdir : ∀ x y, lt x y → ord y x)
    (hdir' : ∀ x y, x ≠ y → ¬ lt x y → ord x y) (hasymm : ∀ x y, ord x y → ¬ ord y x)
    (ht : (inorder (.node a l r)).Pairwise fun a b => ord (key a) (key b)) :
    find lt key x (.node a l r) = if x = key a then some a else none := by
  rw [inorder_node, List.pairwise_append, List.pairwise_cons] at ht
  obtain ⟨-, ⟨har, -⟩, hlr⟩ := ht
  rw [find]
  by_cases hx : x = key a
  · rw [if_pos hx, if_pos hx]
  · rw [if_neg hx, if_neg hx]
    split
    · rename_i h
      -- the key is above the root's, and the walk goes on among those below it
      refine find_eq_none fun b hb heq => ?_
      have hba : ord x (key a) := heq ▸ hlr b hb a List.mem_cons_self
      exact hasymm _ _ hba (hdir x (key a) h)
    · rename_i h
      refine find_eq_none fun b hb heq => ?_
      have hab : ord (key a) x := heq ▸ har b hb
      exact hasymm _ _ hab (hdir' x (key a) hx h)

end Key

end Lib.SearchTree
