/-
  Of some versions of a thing, some good and some not: the newest good one, or the oldest one where
  none is good.  It is found by comparing versions with the best one so far, in any order.

  `Best` does not say how it was found.  So the element is the same for all orders (`Best.unique`),
  and a scan needs two rules only: the new element is kept, or it takes the place of the old one.
-/
import Mathlib.Order.Lattice
import Mathlib.Tactic.Common

namespace Lib.Newest

variable {α β : Type} [LinearOrder β] {key : α → β} {good : α → Prop} {S T : α → Prop} {a b x : α}

/-- The element that is kept: the good one with the greatest key, or the one with the greatest key
    if none is good. -/
structure Best (key : α → β) (good : α → Prop) (S : α → Prop) (a : α) : Prop where
  mem : S a
  best : (good a ∧ ∀ b, S b → good b → key b ≤ key a) ∨
    ((∀ b, S b → ¬good b) ∧ ∀ b, S b → key a ≤ key b)

theorem Best.congr (h : Best key good S a) (hST : ∀ b, S b ↔ T b) : Best key good T a := by
  obtain rfl : S = T := funext fun b => propext (hST b)
  exact h

/-- There is one best element, if keys tell elements apart. -/
theorem Best.unique (hinj : ∀ a b, S a → S b → key a = key b → a = b) (ha : Best key good S a)
    (hb : Best key good S b) : a = b := by
  refine hinj a b ha.mem hb.mem ?_
  rcases ha.best with ⟨hgood, hmax⟩ | ⟨hnone, hmin⟩
  · rcases hb.best with ⟨hgood', hmax'⟩ | ⟨hnone', -⟩
    · exact le_antisymm (hmax' a ha.mem hgood) (hmax b hb.mem hgood')
    · exact absurd hgood (hnone' a ha.mem)
  · rcases hb.best with ⟨hgood', -⟩ | ⟨-, hmin'⟩
    · exact absurd hgood' (hnone b hb.mem)
    · exact le_antisymm (hmin b hb.mem) (hmin' a ha.mem)

/-- A single element is the best one. -/
theorem Best.single (a : α) : Best key good (· = a) a := by
  refine ⟨rfl, ?_⟩
  by_cases hgood : good a
  · refine .inl ⟨hgood, ?_⟩
    rintro b rfl -
    exact le_refl _
  · refine .inr ⟨?_, ?_⟩
    · rintro b rfl
      exact hgood
    · rintro b rfl
      exact le_refl _

/-- A version that is newer but not good, or older than a good one. -/
theorem Best.keep (h : Best key good S a)
    (hx : (key a < key x ∧ ¬good x) ∨ (key x < key a ∧ good a)) :
    Best key good (fun b => S b ∨ b = x) a := by
  refine ⟨.inl h.mem, ?_⟩
  rcases h.best with ⟨hgood, hmax⟩ | ⟨hnone, hmin⟩
  · refine .inl ⟨hgood, ?_⟩
    rintro b (hb | rfl) hgood'
    · exact hmax b hb hgood'
    · rcases hx with ⟨-, hbad⟩ | ⟨hlt, -⟩
      · exact absurd hgood' hbad
      · exact le_of_lt hlt
  · obtain ⟨hlt, hbad⟩ := hx.resolve_right fun hx => hnone a h.mem hx.2
    refine .inr ⟨?_, ?_⟩
    · rintro b (hb | rfl)
      · exact hnone b hb
      · exact hbad
    · rintro b (hb | rfl)
      · exact hmin b hb
      · exact le_of_lt hlt

/-- A good version that is newer, or one that is older than one that is not good. -/
theorem Best.replace (h : Best key good S a)
    (hx : (key a < key x ∧ good x) ∨ (key x < key a ∧ ¬good a)) :
    Best key good (fun b => S b ∨ b = x) x := by
  refine ⟨.inr rfl, ?_⟩
  rcases hx with ⟨hlt, hgood⟩ | ⟨hlt, hbad⟩
  · refine .inl ⟨hgood, ?_⟩
    rintro b (hb | rfl) hgood'
    · rcases h.best with ⟨-, hmax⟩ | ⟨hnone, -⟩
      · exact le_trans (hmax b hb hgood') (le_of_lt hlt)
      · exact absurd hgood' (hnone b hb)
    · exact le_refl _
  · obtain ⟨hnone, hmin⟩ := h.best.resolve_left fun hb => hbad hb.1
    by_cases hgood : good x
    · refine .inl ⟨hgood, ?_⟩
      rintro b (hb | rfl) hgood'
      · exact absurd hgood' (hnone b hb)
      · exact le_refl _
    · refine .inr ⟨?_, ?_⟩
      · rintro b (hb | rfl)
        · exact hnone b hb
        · exact hgood
      · rintro b (hb | rfl)
        · exact le_trans (le_of_lt hlt) (hmin b hb)
        · exact le_refl _

end Lib.Newest
