/-
  First occurrences.

  Of the elements with one key only the first is kept.  `firsts key acc xs` is what is kept of `xs` behind
  `acc`, which has been kept before.  A list whose beginning has been kept already may be gone through
  again: nothing is kept twice, and nothing gets out of order (`firsts_again`).
-/
import Mathlib

namespace Lib

variable {α κ : Type*} [DecidableEq κ] {key : α → κ} {acc xs ys : List α} {x : α}

/-- An element is put behind the others, unless its key is there. -/
def addFirst (key : α → κ) (acc : List α) (x : α) : List α :=
  if key x ∈ acc.map key then acc else acc ++ [x]

/-- The first element of each key, in the order they come. -/
def firsts (key : α → κ) (acc xs : List α) : List α := xs.foldl (addFirst key) acc

/-- An element with a known key is dropped. -/
theorem addFirst_old (h : key x ∈ acc.map key) : addFirst key acc x = acc := if_pos h

/-- A new one goes to the end. -/
theorem addFirst_new (h : key x ∉ acc.map key) : addFirst key acc x = acc ++ [x] := if_neg h

theorem firsts_cons : firsts key acc (x :: xs) = firsts key (addFirst key acc x) xs := rfl

/-- First the one list, then the other. -/
theorem firsts_append : firsts key acc (xs ++ ys) = firsts key (firsts key acc xs) ys :=
  List.foldl_append

theorem firsts_snoc : firsts key acc (xs ++ [x]) = addFirst key (firsts key acc xs) x := firsts_append

theorem prefix_addFirst : acc <+: addFirst key acc x := by
  unfold addFirst
  split
  · exact List.prefix_refl acc
  · exact List.prefix_append acc [x]

/-- What is there stays there. -/
theorem prefix_firsts : acc <+: firsts key acc xs := by
  induction xs generalizing acc with
  | nil => exact List.prefix_refl acc
  | cons x xs ih => exact prefix_addFirst.trans ih

theorem nodup_addFirst (h : (acc.map key).Nodup) : ((addFirst key acc x).map key).Nodup := by
  by_cases hmem : key x ∈ acc.map key
  · rw [addFirst_old hmem]
    exact h
  · rw [addFirst_new hmem, List.map_append]
    exact h.append (List.nodup_singleton _) (by simpa using hmem)

/-- No key comes twice. -/
theorem nodup_firsts (h : (acc.map key).Nodup) : ((firsts key acc xs).map key).Nodup := by
  induction xs generalizing acc with
  | nil => exact h
  | cons x xs ih => exact ih (nodup_addFirst h)

/-- There are not more than went in. -/
theorem length_firsts : (firsts key acc xs).length ≤ acc.length + xs.length := by
  induction xs generalizing acc with
  | nil => exact Nat.le_refl _
  | cons x xs ih =>
    have hadd : (addFirst key acc x).length ≤ acc.length + 1 := by
      unfold addFirst
      split
      · exact Nat.le_succ _
      · rw [List.length_append, List.length_singleton]
    have hrest := @ih (addFirst key acc x)
    rw [firsts_cons, List.length_cons]
    omega

/-- Elements with keys of their own are all kept. -/
theorem firsts_of_nodup (h : ((acc ++ xs).map key).Nodup) : firsts key acc xs = acc ++ xs := by
  induction xs generalizing acc with
  | nil => exact (List.append_nil acc).symm
  | cons x xs ih =>
    have hnew : key x ∉ acc.map key := by
      intro hmem
      rw [List.map_append] at h
      exact (List.disjoint_of_nodup_append h) hmem (List.mem_map_of_mem (List.mem_cons_self ..))
    rw [firsts_cons, addFirst_new hnew, ih (by rwa [List.append_assoc, List.singleton_append]),
      List.append_assoc, List.singleton_append]

/-- What has been kept of a list, and may be of some of it only, is kept again. -/
theorem firsts_again {ps : List α} (hacc : acc <+: ps) (hps : ps <+: firsts key acc xs) :
    firsts key ps xs = firsts key acc xs := by
  induction xs generalizing acc with
  | nil => exact hps.eq_of_length_le hacc.length_le
  | cons x xs ih =>
    by_cases hmem : key x ∈ acc.map key
    · have hmem' : key x ∈ ps.map key := (hacc.map key).subset hmem
      rw [firsts_cons, addFirst_old hmem']
      rw [firsts_cons, addFirst_old hmem] at hps ⊢
      exact ih hacc hps
    · by_cases heq : ps = acc
      · rw [heq]
      -- the element is the next one that has been kept
      have hnext : acc ++ [x] <+: ps := by
        rw [firsts_cons, addFirst_new hmem] at hps
        rcases List.prefix_or_prefix_of_prefix hps prefix_firsts with hle | hle
        · rcases List.prefix_concat_iff.mp hle with rfl | hle
          · exact List.prefix_refl _
          · exact absurd (hle.eq_of_length_le hacc.length_le) heq
        · exact hle
      have hmem' : key x ∈ ps.map key := (hnext.map key).subset (by simp)
      rw [firsts_cons, addFirst_old hmem']
      rw [firsts_cons, addFirst_new hmem] at hps ⊢
      exact ih hnext hps

end Lib
