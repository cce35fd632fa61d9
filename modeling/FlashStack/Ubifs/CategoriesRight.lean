/-
  The category of a LEB is the one of its values (`ubifs_categorize_lprops`), except that a LEB which has
  fallen off a full heap is uncategorized.

  Where LEBs with free space are looked for depends on this: an empty or a freeable LEB is on a list of
  its own, whatever happens to the heaps.

  The steps are those of `Lpt` that the code takes (`RightStep`); each of them keeps `Right`, since
  a category changes only where the values change or a full heap gives up its bottom.
-/
import FlashStack.Ubifs.LpCategories
import Mathlib

open Lib

namespace Ubifs.Lp

/-- The category is that of the values, or the LEB has fallen off a heap. -/
def Cats.Right (g : Consts) (c : Cats) (p : Nat) : Prop :=
  (c.lprops p).flags.cat = ubifsCategorizeLprops g (c.lprops p) ∨
    (c.lprops p).flags.cat = .list .uncat ∧ ∃ h, ubifsCategorizeLprops g (c.lprops p) = .heap h

/-- Only the values matter for the category. -/
theorem categorize_congr {g : Consts} {lp lp' : Lprops} (h : lp.vals = lp'.vals) :
    ubifsCategorizeLprops g lp = ubifsCategorizeLprops g lp' := by
  have hfree : lp.free = lp'.free := congrArg Vals.free h
  have hdirty : lp.dirty = lp'.dirty := congrArg Vals.dirty h
  have htaken : lp.flags.taken = lp'.flags.taken := congrArg Vals.taken h
  have hindex : lp.flags.index = lp'.flags.index := congrArg Vals.index h
  unfold ubifsCategorizeLprops
  rw [hfree, hdirty, htaken, hindex]

namespace Cats

variable {g : Consts} {c c' : Cats} {Live : Nat → Prop} {p q : Nat} {cat : Cat} {lp : Lprops}

/-- A category stays, or the LEB falls off its heap. -/
def Falls (cat cat' : Cat) : Prop := cat' = cat ∨ cat' = .list .uncat ∧ ∃ h, cat = .heap h

/-- A category that falls back to the uncategorised list stays right. -/
theorem Right.falls (h : c.Right g q) (hvals : (c'.lprops q).vals = (c.lprops q).vals)
    (hcat : Falls (c.lprops q).flags.cat (c'.lprops q).flags.cat) : c'.Right g q := by
  have hsame := @categorize_congr g _ _ hvals
  rcases hcat with hcat | ⟨huncat, i, hi⟩
  · unfold Right
    rw [hcat, hsame]
    exact h
  · rcases h with hright | ⟨huncat', -⟩
    · refine .inr ⟨huncat, i, ?_⟩
      rw [hsame, ← hright, hi]
    · rw [hi] at huncat'
      cases huncat'

/-- `ubifs_add_to_cat`: for want of room one LEB falls off, the new one or another. -/
theorem addToCat_falls (hs : c.Sound Live) :
    (∀ q, q ≠ p → Falls (c.lprops q).flags.cat ((c.ubifsAddToCat p cat).lprops q).flags.cat) ∧
      Falls cat ((c.ubifsAddToCat p cat).lprops p).flags.cat := by
  cases cat with
  | list l =>
    refine ⟨fun q hq => .inl ?_, .inl ?_⟩
    · simp only [ubifsAddToCat, cat_setCat, if_neg hq]
      rfl
    · simp only [ubifsAddToCat, cat_setCat, if_true]
  | heap h =>
    simp only [ubifsAddToCat, addToLptHeap]
    split
    · rename_i hfull
      split
      · -- the entry at the bottom of the heap falls off
        have hbottom : (c.view h).Has ((c.heap h).arr (bottomPos p)) :=
          ⟨bottomPos p, Nat.lt_of_lt_of_le bottomPos_lt hfull, rfl⟩
        have hcat := ((hs.inCat _ (.heap h)).mp hbottom).2
        refine ⟨fun q hq => ?_, .inl ?_⟩
        · simp only [if_true, cat_setCat, if_neg hq, moveUpLptHeap, flags_setHeap]
          show Falls _ ((c.setCat _ _).lprops q).flags.cat
          rw [cat_setCat]
          split
          · rename_i heq
            rw [heq, hcat]
            exact .inr ⟨rfl, h, rfl⟩
          · exact .inl rfl
        · simp only [if_true, cat_setCat]
      · refine ⟨fun q hq => .inl ?_, .inr ⟨?_, h, rfl⟩⟩
        · simp only [Bool.false_eq_true, if_false, cat_setCat, if_neg hq]
          rfl
        · simp only [Bool.false_eq_true, if_false, cat_setCat, if_true]
    · refine ⟨fun q hq => .inl ?_, .inl ?_⟩
      · simp only [if_true, cat_setCat, if_neg hq, moveUpLptHeap, flags_setHeap]
      · simp only [if_true, cat_setCat]

/-- Other LEBs keep their flags. -/
theorem flags_removeFromCat :
    ((c.ubifsRemoveFromCat p cat).lprops q).flags = (c.lprops q).flags := by
  cases cat with
  | list l => rfl
  | heap h => rw [ubifsRemoveFromCat, removeFromLptHeap_eq, flags_setHeap]

/-- A LEB comes in under the category of its values. -/
theorem Right.enter (hs : c.Sound Live) (hr : ∀ q, Live q → c.Right g q)
    (hcat : cat = ubifsCategorizeLprops g (c.lprops p)) :
    ∀ q, q = p ∨ Live q → (c.ubifsAddToCat p cat).Right g q := by
  obtain ⟨hother, hat⟩ := @addToCat_falls c Live p cat hs
  intro q hq
  by_cases hqp : q = p
  · subst hqp
    unfold Right
    rw [@categorize_congr g _ _ vals_addToCat, ← hcat]
    exact hat
  · have hlive := hq.resolve_left hqp
    exact (hr q hlive).falls vals_addToCat (hother q hqp)

/-- Out of its category and in under that of its new values. -/
theorem Right.move (hs : c.Sound Live) (hre : c.Refill p lp) (hp : Live p)
    (hr : ∀ q, Live q → c.Right g q) :
    ∀ q, Live q → (((c.write p lp).ubifsRemoveFromCat p (c.lprops p).flags.cat).ubifsAddToCat p
      (ubifsCategorizeLprops g lp)).Right g q := by
  have hleave := hs.leave hre hp rfl
  have hat : (((c.write p lp).ubifsRemoveFromCat p (c.lprops p).flags.cat).lprops p).vals = lp.vals := by
    rw [vals_removeFromCat]
    simp only [write, Function.update_self]
  refine fun q hq => Right.enter hleave ?_ (categorize_congr hat.symm) q ?_
  · rintro q ⟨hlive, hne⟩
    have hsame : (c.write p lp).lprops q = c.lprops q := by
      simp only [write, Function.update_of_ne hne]
    refine (hr q hlive).falls ?_ (.inl ?_)
    · rw [vals_removeFromCat, hsame]
    · rw [flags_removeFromCat, hsame]
  · by_cases hqp : q = p
    · exact .inl hqp
    · exact .inr ⟨hq, hqp⟩

end Cats

namespace Lpt

variable {g : Consts} {s s' : Lpt} {lnum p old new : Nat} {lp : Lprops}

/-- The categories of all LEBs that have been read are right. -/
def Right (g : Consts) (s : Lpt) : Prop := ∀ p, s.Live p → s.cats.Right g p

/-- LEB properties that change get the right category. -/
theorem Right.change {free dirty : Int} {taken index : Bool} (hr : s.Right g) (hs : s.Good)
    (hp : s.pnode lnum = some p) : (s.change g p free dirty taken index).Right g := by
  have hlive : s.Live p := ⟨lnum, hp⟩
  intro q hq
  show (Cats.changeCategory (Cats.write _ p _) g p).Right g q
  generalize hlp : ({ s.cats.lprops p with
    free := free, dirty := dirty, flags := ⟨(s.cats.lprops p).flags.cat, taken, index⟩ } : Lprops) = lp
  have hre : s.cats.Refill p lp := by
    subst hlp
    exact ⟨rfl, rfl⟩
  have hat : (s.cats.write p lp).lprops p = lp := by simp only [Cats.write, Function.update_self]
  unfold Cats.changeCategory
  rw [hat]
  dsimp only
  split
  · rename_i hsame
    -- the place in the heap may change, but no category
    have hflags : ∀ c' : Cats, (c'.lprops q).vals = ((s.cats.write p lp).lprops q).vals →
        (c'.lprops q).flags = ((s.cats.write p lp).lprops q).flags → c'.Right g q := by
      intro c' hvals hflags
      by_cases hqp : q = p
      · subst hqp
        refine .inl ?_
        rw [hflags, hat, hsame, categorize_congr hvals, hat]
      · have hother : (s.cats.write p lp).lprops q = s.cats.lprops q := by
          simp only [Cats.write, Function.update_of_ne hqp]
        rw [hother] at hvals hflags
        exact (hr q hq).falls hvals (.inl (congrArg Flags.cat hflags))
    split
    · exact hflags _ rfl rfl
    · exact hflags _ rfl rfl
  · rw [hre.cat]
    exact Cats.Right.move hs.sound hre hlive hr q hq

/-- So do those that had none. -/
theorem Right.ensure (hr : s.Right g) (hs : s.Good) (hp : s.pnode lnum = some p) :
    (s.ensure g p).Right g := by
  have hlive : s.Live p := ⟨lnum, hp⟩
  intro q hq
  show (s.cats.ubifsEnsureCat g p).Right g q
  unfold Cats.ubifsEnsureCat
  split
  · exact hr q hq
  · rename_i hcat
    dsimp only
    split
    · exact hr q hq
    · have hmove := @Cats.Right.move g s.cats s.Live p (s.cats.lprops p) hs.sound ⟨rfl, rfl⟩ hlive hr
        q hq
      have hself : s.cats.write p (s.cats.lprops p) = s.cats := by
        simp only [Cats.write, Function.update_eq_self]
      rw [hself, Decidable.not_not.mp hcat] at hmove
      exact hmove

/-- A copy keeps the category of the original. -/
theorem Right.replace (hr : s.Right g) (hold : s.pnode lnum = some old) (hnew : ¬s.Live new) :
    (s.replace lnum old new).Right g := by
  intro q hq
  have hvals : ((s.replace lnum old new).cats.lprops q).vals =
      ((s.cats.write new (s.cats.lprops old)).lprops q).vals := Cats.vals_replaceCat
  have hflags : ((s.replace lnum old new).cats.lprops q).flags =
      ((s.cats.write new (s.cats.lprops old)).lprops q).flags := by
    simp only [Lpt.replace, Cats.ubifsReplaceCat]
    split <;> rfl
  by_cases hqn : q = new
  · subst hqn
    have hat : (s.cats.write q (s.cats.lprops old)).lprops q = s.cats.lprops old := by
      simp only [Cats.write, Function.update_self]
    rw [hat] at hvals hflags
    have hright := hr old ⟨lnum, hold⟩
    unfold Cats.Right at hright ⊢
    rw [hflags, categorize_congr hvals]
    exact hright
  · have hother : (s.cats.write new (s.cats.lprops old)).lprops q = s.cats.lprops q := by
      simp only [Cats.write, Function.update_of_ne hqn]
    rw [hother] at hvals hflags
    obtain ⟨l, hl⟩ := hq
    have hlive : s.Live q := by
      simp only [Lpt.replace, Function.update_apply] at hl
      split at hl
      · exact absurd (Option.some.inj hl).symm hqn
      · exact ⟨l, hl⟩
    exact (hr q hlive).falls hvals (.inl (congrArg Flags.cat hflags))

/-- LEB properties that are read get theirs. -/
theorem Right.add (hr : s.Right g) (hs : s.Good) (hp : ¬s.Live p) :
    (s.add p lp (ubifsCategorizeLprops g lp)).Right g := by
  have hat : (s.cats.write p lp).lprops p = lp := by simp only [Cats.write, Function.update_self]
  have hwrite : ∀ q, s.Live q → (s.cats.write p lp).Right g q := by
    intro q hq
    have hne : q ≠ p := fun heq => hp (heq ▸ hq)
    have hother : (s.cats.write p lp).lprops q = s.cats.lprops q := by
      simp only [Cats.write, Function.update_of_ne hne]
    exact (hr q hq).falls (congrArg Lprops.vals hother)
      (.inl (congrArg (fun lp => lp.flags.cat) hother))
  rintro q ⟨l, hl⟩
  refine Cats.Right.enter (hs.sound.writeNew hp) hwrite (by rw [hat]) q ?_
  simp only [Lpt.add, Function.update_apply] at hl
  split at hl
  · exact .inl (Option.some.inj hl).symm
  · exact .inr ⟨l, hl⟩

end Lpt

/-- What happens to the properties of LEBs, where those that are read are categorized by their values, as
    `unpack_pnode` does. -/
inductive RightStep (g : Consts) (s : Lpt) : Lpt → Prop
  | add (p : Nat) (lp : Lprops) :
    s.pnode lp.lnum = none → ¬ s.Live p → RightStep g s (s.add p lp (ubifsCategorizeLprops g lp))
  | change (lnum p : Nat) (free dirty : Int) (taken index : Bool) :
    s.pnode lnum = some p → RightStep g s (s.change g p free dirty taken index)
  | replace (lnum old new : Nat) :
    s.pnode lnum = some old → ¬ s.Live new → RightStep g s (s.replace lnum old new)
  | ensure (lnum p : Nat) : s.pnode lnum = some p → RightStep g s (s.ensure g p)

theorem RightStep.step {g : Consts} {s s' : Lpt} (h : RightStep g s s') : Step g s s' := by
  cases h with
  | add p lp hnew hp => exact .add p lp _ hnew hp
  | change lnum p free dirty taken index hp => exact .change lnum p free dirty taken index hp
  | replace lnum old new hold hnew => exact .replace lnum old new hold hnew
  | ensure lnum p hp => exact .ensure lnum p hp

/-- Any of these steps. -/
theorem Lpt.Right.step {g : Consts} {s s' : Lpt} (hr : s.Right g) (hs : s.Good)
    (h : RightStep g s s') : s'.Right g := by
  cases h with
  | add p lp hnew hp => exact hr.add hs hp
  | change lnum p free dirty taken index hp => exact hr.change hs hp
  | replace lnum old new hold hnew => exact hr.replace hold hnew
  | ensure lnum p hp => exact hr.ensure hs hp

/-- In every run the structures are sound and the categories are right. -/
theorem categories_right {g : Consts} {s : Lpt} (h : Reach Lpt.Initial (RightStep g) s) :
    s.Good ∧ s.Right g := by
  have hinit : ∀ s : Lpt, s.Initial → s.Good ∧ s.Right g := by
    intro s hs
    refine ⟨hs.good, ?_⟩
    rintro p ⟨l, hl⟩
    rw [hs.1] at hl
    cases hl
  have hstep : ∀ s s' : Lpt, s.Good ∧ s.Right g → RightStep g s s' → s'.Good ∧ s'.Right g :=
    fun s s' hs h => ⟨hs.1.step h.step, hs.2.step hs.1 h⟩
  exact @Reach.invariant _ _ _ (fun s : Lpt => s.Good ∧ s.Right g) s hinit hstep h

end Ubifs.Lp
