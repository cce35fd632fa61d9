/-
  Counting over an initial segment of the naturals.

  A table indexed by `0 .. n-1` is changed one entry at a time; how many entries satisfy a test is
  then known from the old count.  Also: a duplicate-free list of numbers below `n` that misses one
  of them is shorter than `n`, and what a running minimum keeps.
-/
import Mathlib.Logic.Function.Basic
import Mathlib.Data.List.Nodup
import Mathlib.Data.List.Range
import Mathlib.Data.List.Perm.Subperm
import Mathlib.Tactic.Common

namespace Lib

variable {α : Type}

/-- Changing one entry changes the count by the difference at that entry. -/
theorem countP_range_update (t : α → Bool) (g : Nat → α) (k : Nat) (x : α) :
    ∀ n, k < n →
      (List.range n).countP (fun p => t (Function.update g k x p)) + (t (g k)).toNat =
        (List.range n).countP (fun p => t (g p)) + (t x).toNat := by
  -- below `k` the two tables agree
  have hlow : ∀ n, n ≤ k →
      (List.range n).countP (fun p => t (Function.update g k x p)) =
        (List.range n).countP (fun p => t (g p)) := by
    intro n hn
    apply List.countP_congr
    intro p hp
    rw [Function.update_of_ne (by have := List.mem_range.mp hp; omega)]
  intro n
  induction n with
  | zero => intro h; omega
  | succ n ih =>
    intro hk
    simp only [List.range_succ, List.countP_append, List.countP_singleton]
    by_cases hkn : k = n
    · subst hkn
      rw [hlow k (Nat.le_refl k), Function.update_self]
      cases t x <;> cases t (g k) <;> simp
    · have := ih (by omega)
      rw [Function.update_of_ne (Ne.symm hkn)]
      omega

/-- The count is zero exactly when no entry passes the test. -/
theorem countP_range_eq_zero {t : Nat → Bool} {n : Nat} :
    (List.range n).countP t = 0 ↔ ∀ p, p < n → t p = false := by
  rw [List.countP_eq_zero]
  constructor
  · intro h p hp
    simpa using h p (List.mem_range.mpr hp)
  · intro h p hp
    simp [h p (List.mem_range.mp hp)]

/-- The count is `n` exactly when every entry passes the test. -/
theorem countP_range_eq {t : Nat → Bool} {n : Nat} :
    (List.range n).countP t = n ↔ ∀ p, p < n → t p = true := by
  have h := List.countP_eq_length (p := t) (l := List.range n)
  rw [List.length_range] at h
  rw [h]
  exact ⟨fun h p hp => h p (List.mem_range.mpr hp), fun h p hp => h p (List.mem_range.mp hp)⟩

/-- A duplicate-free list of numbers below `n` without `m < n` has fewer than `n` entries. -/
theorem length_lt_of_nodup {l : List Nat} {n m : Nat} (hd : l.Nodup) (hl : ∀ a ∈ l, a < n)
    (hm : m < n) (hml : m ∉ l) : l.length < n := by
  have hsub : (m :: l) ⊆ List.range n := by
    intro a ha
    rcases List.mem_cons.mp ha with rfl | ha
    · exact List.mem_range.mpr hm
    · exact List.mem_range.mpr (hl a ha)
  have hle := (List.subperm_of_subset (List.nodup_cons.mpr ⟨hml, hd⟩) hsub).length_le
  rw [List.length_cons, List.length_range] at hle
  omega

/-- Keeping the first entry that is smaller than all before it, from the bound `m` on: nothing is
    below the bound, or an entry below it was kept. -/
theorem foldl_argmin (g : Nat → Int) (m : Int) (l : List Nat) :
    (l.foldl (fun (acc : Int × Option Nat) b => if g b < acc.1 then (g b, some b) else acc)
        (m, none) = (m, none) ∧ ∀ b ∈ l, m ≤ g b) ∨
    ∃ b ∈ l, l.foldl (fun (acc : Int × Option Nat) b => if g b < acc.1 then (g b, some b) else acc)
        (m, none) = (g b, some b) ∧ g b < m := by
  induction l using List.reverseRecOn with
  | nil => exact .inl ⟨rfl, fun b hb => absurd hb (List.not_mem_nil)⟩
  | append_singleton l a ih =>
    rw [List.foldl_append]
    rcases ih with ⟨hr, hall⟩ | ⟨b, hb, hr, hlt⟩
    · rw [hr]
      by_cases ha : g a < m
      · exact .inr ⟨a, by simp, by simp [ha], ha⟩
      · refine .inl ⟨by simp [ha], fun b hb => ?_⟩
        rcases List.mem_append.mp hb with hb | hb
        · exact hall b hb
        · rw [List.mem_singleton.mp hb]
          omega
    · rw [hr]
      by_cases ha : g a < g b
      · exact .inr ⟨a, by simp, by simp [ha], by omega⟩
      · exact .inr ⟨b, by simp [hb], by simp [ha], hlt⟩

end Lib
