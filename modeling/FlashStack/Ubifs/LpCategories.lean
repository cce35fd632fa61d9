/-
  The category heaps and lists hold together.

  What an operation does to the structures is said for the live addresses: an address comes in
  (`Sound.enter`), goes out with whatever values it has by then (`Sound.leave`), changes places with a
  copy, or moves in its heap.

  A heap of the code is a `Lib.Heap` under a view: the array and the positions that are in the LEB
  properties.  `moveUp_setHeap` and its neighbours say so of each function, and the specifications
  of the library do the rest.
-/
import FlashStack.Lib.Reach
import FlashStack.Ubifs.Lprops
import Mathlib.Data.List.Nodup

open Lib

namespace Ubifs.Lp

namespace Cats

variable {c : Cats} {h h' : HeapCat} {l l' : ListCat} {p q : Nat} {cat : Cat} {H : Heap Nat}

/-- Is the address in the structure of the category? -/
def InCat (c : Cats) (p : Nat) : Cat → Prop
  | .heap h => (c.view h).Has p
  | .list l => p ∈ c.list l

/-- The live addresses are in the structures that their flags name and in no others. -/
structure Sound (c : Cats) (Live : Nat → Prop) : Prop where
  valid : ∀ h, (c.view h).Valid (c.key h)
  nodup : ∀ l, (c.list l).Nodup
  inCat : ∀ p cat, c.InCat p cat ↔ Live p ∧ (c.lprops p).flags.cat = cat
  freeable : c.freeableCnt = (c.list .freeable).length
  cnt_le : ∀ h, (c.heap h).cnt ≤ lptHeapSz

/-! ## What is seen of a heap -/

/-- What changes one heap does not change what else there is to see. -/
@[simp] theorem view_setHeap : (c.setHeap h H).view h = H := by
  cases H
  simp [view, setHeap]

theorem view_setHeap_of_ne (hne : h' ≠ h) :
    (c.setHeap h H).view h' = { c.view h' with pos := H.pos } := by
  simp [view, setHeap, Function.update_of_ne hne]

@[simp] theorem key_setHeap : (c.setHeap h H).key h' = c.key h' := by
  funext p
  cases h' <;> rfl

@[simp] theorem setHeap_setHeap {H' : Heap Nat} : (c.setHeap h H).setHeap h H' = c.setHeap h H' := by
  simp [setHeap]

@[simp] theorem flags_setHeap : ((c.setHeap h H).lprops p).flags = (c.lprops p).flags := rfl

@[simp] theorem list_setHeap : (c.setHeap h H).list = c.list := rfl

/-- Nor does a change of a flag change the heaps. -/
@[simp] theorem view_setCat : (c.setCat p cat).view h = c.view h := by
  simp only [view, setCat]
  congr 1
  funext q
  by_cases hq : q = p
  · rw [hq, Function.update_self]
  · rw [Function.update_of_ne hq]

@[simp] theorem key_setCat : (c.setCat p cat).key h = c.key h := by
  funext q
  simp only [key, setCat]
  by_cases hq : q = p
  · rw [hq, Function.update_self]
    cases h <;> rfl
  · rw [Function.update_of_ne hq]

/-- It changes the category of one LEB. -/
theorem cat_setCat : ((c.setCat p cat).lprops q).flags.cat =
    if q = p then cat else (c.lprops q).flags.cat := by
  simp only [setCat, Function.update_apply]
  split <;> rfl

/-- A list is not a heap. -/
@[simp] theorem view_listAdd : (c.listAdd p l).view h = c.view h := rfl

@[simp] theorem key_listAdd : (c.listAdd p l).key h = c.key h := rfl

/-! ## The functions on heaps as operations on heaps -/

/-- The functions on heaps are those of the library, seen through the view. -/
theorem moveUp_setHeap : (c.setHeap h H).moveUpLptHeap h p =
    c.setHeap h (H.siftUp (c.key h) p (H.pos p)) := by
  rw [moveUpLptHeap, view_setHeap, key_setHeap, setHeap_setHeap]
  rfl

theorem removeFromLptHeap_eq : c.removeFromLptHeap p h =
    c.setHeap h ((c.view h).remove (c.key h) p) := by
  have hpos : (c.lprops p).hpos = (c.view h).pos p := rfl
  unfold removeFromLptHeap Heap.remove adjustLptHeap
  dsimp only
  rw [hpos]
  split
  · rw [view_setHeap, key_setHeap, setHeap_setHeap]
  · rfl

theorem push_eq : (c.setHeap h (Heap.put { c.view h with cnt := (c.view h).cnt + 1 } p
    (c.view h).cnt)).moveUpLptHeap h p = c.setHeap h ((c.view h).push (c.key h) p) := by
  rw [moveUp_setHeap, Heap.push, Heap.put_pos, if_pos rfl]

theorem displace_eq {i : Nat} : (c.setHeap h ((c.view h).put p i)).moveUpLptHeap h p =
    c.setHeap h ((c.view h).displace (c.key h) p i) := by
  rw [moveUp_setHeap, Heap.displace, Heap.put_pos, if_pos rfl]

/-! ## An address comes in -/

section Enter

variable {Live : Nat → Prop}

/-- What is not in memory is in no heap. -/
theorem Sound.not_has (hs : c.Sound Live) (hp : ¬ Live p) : ¬ (c.view h).Has p :=
  fun hin => hp ((hs.inCat p (.heap h)).mp hin).1

/-- The address is in no other heap. -/
theorem Sound.has_unique (hs : c.Sound Live) (hp : (c.view h).Has p) (hp' : (c.view h').Has p) :
    h' = h := by
  have hcat := ((hs.inCat p (.heap h)).mp hp).2
  have hcat' := ((hs.inCat p (.heap h')).mp hp').2
  rw [hcat] at hcat'
  exact (Cat.heap.inj hcat').symm

/-- A new value for one heap, of which the positions of other addresses are what they were. -/
theorem Sound.setHeap_valid (hs : c.Sound Live) (hp : ¬ Live p) (hv : H.Valid (c.key h))
    (hpos : ∀ y, y ≠ p → ¬ (c.view h).Has y → H.pos y = (c.lprops y).hpos) (h' : HeapCat) :
    ((c.setHeap h H).view h').Valid (c.key h') := by
  by_cases hne : h' = h
  · subst hne
    rw [view_setHeap]
    exact hv
  · rw [view_setHeap_of_ne hne]
    refine (hs.valid h').congr (fun y hy => hpos y ?_ fun hy' => hne (hs.has_unique hy' hy))
      fun _ _ => rfl
    rintro rfl
    exact hs.not_has hp hy

/-- On a list. -/
theorem Sound.enterList (hs : c.Sound Live) (hp : ¬ Live p) :
    (c.ubifsAddToCat p (.list l)).Sound (fun q => q = p ∨ Live q) := by
  have hnot : ∀ l, p ∉ c.list l := fun l hin => hp ((hs.inCat p (.list l)).mp hin).1
  constructor
  · intro h
    simp only [ubifsAddToCat, view_setCat, key_setCat]
    exact hs.valid h
  · -- nodup: it was on no list
    intro l'
    show ((c.listAdd p l).list l').Nodup
    by_cases hl : l' = l
    · subst hl
      simp only [listAdd, Function.update_self]
      exact List.nodup_cons.mpr ⟨hnot _, hs.nodup _⟩
    · simp only [listAdd, Function.update_of_ne hl]
      exact hs.nodup l'
  · -- inCat: a heap has not changed, and of the lists only `l` has
    intro q cat
    simp only [ubifsAddToCat, cat_setCat]
    have hold := hs.inCat q cat
    cases cat with
    | heap h =>
      show (Heap.Has (view (setCat _ p _) h) q) ↔ _
      rw [view_setCat]
      refine Iff.trans hold ?_
      by_cases hq : q = p
      · subst hq
        simp [hp]
      · simp [hq, listAdd]
    | list l' =>
      show q ∈ (c.listAdd p l).list l' ↔ _
      have hold : q ∈ c.list l' ↔ _ := hold
      by_cases hq : q = p
      · subst hq
        by_cases hl : l' = l
        · subst hl
          simp [listAdd]
        · simp only [listAdd, Function.update_of_ne hl, if_true, true_or, true_and, hold, hp,
            false_and, false_iff]
          exact fun heq => hl (Cat.list.inj heq).symm
      · by_cases hl : l' = l
        · subst hl
          simp only [listAdd, Function.update_self, List.mem_cons, hq, false_or, hold, if_false]
        · simp only [listAdd, Function.update_of_ne hl, hq, false_or, hold, if_false]
  · -- freeable: the counter goes with the list
    show (if l = ListCat.freeable then _ else _) = (((c.listAdd p l).list .freeable).length : Int)
    split
    · rename_i hl
      subst hl
      simp [listAdd, hs.freeable]
    · rename_i hl
      simp only [listAdd, Function.update_of_ne (Ne.symm hl)]
      exact hs.freeable
  · exact hs.cnt_le

/-- In a heap that has room. -/
theorem Sound.enterHeap (hs : c.Sound Live) (hp : ¬ Live p) (hroom : (c.heap h).cnt < lptHeapSz) :
    ((c.setHeap h ((c.view h).push (c.key h) p)).setCat p (.heap h)).Sound
      (fun q => q = p ∨ Live q) := by
  obtain ⟨hv, hcnt, hhas, hpos⟩ := Heap.push_spec (hs.valid h) (hs.not_has hp)
  have hviews := hs.setHeap_valid hp hv hpos
  -- The heap does the work (`push_spec`): here it is seen that no other place has changed.
  constructor
  · intro h'
    rw [view_setCat, key_setCat, key_setHeap]
    exact hviews h'
  · exact hs.nodup
  · -- inCat: in the heap are its entries and `p`, which was nowhere
    intro q cat
    rw [cat_setCat, flags_setHeap]
    have hold := hs.inCat q cat
    cases cat with
    | heap h' =>
      show (((c.setHeap h _).setCat p _).view h').Has q ↔ _
      have hold : (c.view h').Has q ↔ _ := hold
      rw [view_setCat]
      by_cases hne : h' = h
      · subst hne
        rw [view_setHeap, hhas, hold]
        by_cases hq : q = p
        · simp [hq]
        · simp [hq]
      · rw [view_setHeap_of_ne hne]
        refine hold.trans ?_
        by_cases hq : q = p
        · subst hq
          simp [hp, Ne.symm hne]
        · simp [hq]
    | list l =>
      have hold : q ∈ c.list l ↔ _ := hold
      refine hold.trans ?_
      by_cases hq : q = p
      · subst hq
        simp [hp]
      · simp [hq]
  · exact hs.freeable
  · -- cnt_le: there was room
    intro h'
    by_cases hne : h' = h
    · subst hne
      simp only [setCat, setHeap, Function.update_self, hcnt]
      exact hroom
    · simp only [setCat, setHeap, Function.update_of_ne hne]
      exact hs.cnt_le h'

/-- The slot at the bottom that is given up is one of the heap. -/
theorem bottomPos_lt : bottomPos p < lptHeapSz := by
  have : (p >>> 4) &&& (lptHeapSz / 2 - 1) ≤ lptHeapSz / 2 - 1 := Nat.and_le_right
  unfold bottomPos lptHeapSz at *
  omega

/-- In a full heap, for an entry that falls off. -/
theorem Sound.enterFull {i : Nat} {old : Nat} (hs : c.Sound Live) (hp : ¬ Live p)
    (hi : i < (c.heap h).cnt) (hold : (c.heap h).arr i = old) (hlt : c.key h old < c.key h p) :
    ((((c.setCat old (.list .uncat)).listAdd old .uncat).setHeap h
      ((c.view h).displace (c.key h) p i)).setCat p (.heap h)).Sound
      (fun q => q = p ∨ Live q) := by
  have hhasOld : (c.view h).Has old := ⟨i, hi, hold⟩
  obtain ⟨hlive, hcat⟩ := (hs.inCat old (.heap h)).mp hhasOld
  have hop : old ≠ p := fun heq => hp (heq ▸ hlive)
  have hnotList : ∀ l, old ∉ c.list l := by
    intro l hin
    have := ((hs.inCat old (.list l)).mp hin).2
    rw [hcat] at this
    cases this
  -- `old` makes room: the heap gets `p` in its place, and `old` goes on the list `uncat`.
  obtain ⟨hv, hcnt, hhas, hpos⟩ := Heap.displace_spec (i := i) (hs.valid h) (hs.not_has hp) hi
    (by
      show c.key h ((c.heap h).arr i) ≤ c.key h p
      rw [hold]
      exact le_of_lt hlt)
  have hviews := hs.setHeap_valid hp hv hpos
  have hview : ∀ h', (((c.setCat old (.list .uncat)).listAdd old .uncat).setHeap h
      ((c.view h).displace (c.key h) p i)).view h' =
      (c.setHeap h ((c.view h).displace (c.key h) p i)).view h' := fun _ => rfl
  constructor
  · intro h'
    rw [view_setCat, key_setCat, key_setHeap, hview]
    rw [key_listAdd, key_setCat]
    exact hviews h'
  · -- nodup: `old` was in the heap, so on no list
    intro l
    show ((c.listAdd old .uncat).list l).Nodup
    by_cases hl : l = .uncat
    · subst hl
      simp only [listAdd, Function.update_self]
      exact List.nodup_cons.mpr ⟨hnotList _, hs.nodup _⟩
    · simp only [listAdd, Function.update_of_ne hl]
      exact hs.nodup l
  · -- inCat: `p`, `old` and all others, each in the heap, in another one, or on a list
    intro q cat
    have hflags : ((((c.setCat old (.list .uncat)).listAdd old .uncat).setHeap h
        ((c.view h).displace (c.key h) p i)).lprops q).flags.cat =
        if q = old then .list .uncat else (c.lprops q).flags.cat := cat_setCat
    rw [cat_setCat, hflags]
    have hq := hs.inCat q cat
    cases cat with
    | heap h' =>
      show Heap.Has (view (setCat _ p _) h') q ↔ _
      have hq : (c.view h').Has q ↔ _ := hq
      rw [view_setCat, hview]
      by_cases hne : h' = h
      · subst hne
        rw [view_setHeap, hhas, hq]
        have harr : (c.view h').arr i = old := hold
        rw [harr]
        by_cases hqp : q = p
        · simp [hqp]
        · by_cases hqo : q = old
          · simp [hqo, hop]
          · simp [hqp, hqo]
      · rw [view_setHeap_of_ne hne]
        refine Iff.trans hq ?_
        by_cases hqp : q = p
        · subst hqp
          simp [hp, Ne.symm hne]
        · by_cases hqo : q = old
          · subst hqo
            simp [hop, hcat, Ne.symm hne]
          · simp [hqp, hqo]
    | list l =>
      show q ∈ (c.listAdd old .uncat).list l ↔ _
      have hq : q ∈ c.list l ↔ _ := hq
      by_cases hl : l = .uncat
      · subst hl
        simp only [listAdd, Function.update_self, List.mem_cons]
        by_cases hqp : q = p
        · subst hqp
          simp [hq, hp, Ne.symm hop]
        · by_cases hqo : q = old
          · subst hqo
            simp [hop, hlive]
          · simp [hq, hqp, hqo]
      · simp only [listAdd, Function.update_of_ne hl]
        refine Iff.trans hq ?_
        by_cases hqp : q = p
        · subst hqp
          simp [hp]
        · by_cases hqo : q = old
          · subst hqo
            simp [hop, hcat, Ne.symm hl]
          · simp [hqp, hqo]
  · -- freeable: `uncat` is not that list
    show c.freeableCnt = (((c.listAdd old .uncat).list .freeable).length : Int)
    simp only [listAdd, Function.update_of_ne (show ListCat.freeable ≠ .uncat by decide)]
    exact hs.freeable
  · -- cnt_le: the count is as before
    intro h'
    by_cases hne : h' = h
    · subst hne
      simp only [setCat, setHeap, Function.update_self, hcnt]
      exact hs.cnt_le h'
    · simp only [setCat, setHeap, Function.update_of_ne hne]
      exact hs.cnt_le h'

/-- `ubifs_add_to_cat`: the address is in the category, or un-categorized for want of room. -/
theorem Sound.enter (hs : c.Sound Live) (hp : ¬ Live p) :
    (c.ubifsAddToCat p cat).Sound (fun q => q = p ∨ Live q) := by
  cases cat with
  | list l => exact hs.enterList hp
  | heap h =>
    have huncat := hs.enterList (l := .uncat) hp
    simp only [ubifsAddToCat, addToLptHeap]
    split
    · rename_i hfull
      split
      · rename_i hlt
        simp only [if_true]
        have hbottom : bottomPos p < (c.heap h).cnt := Nat.lt_of_lt_of_le bottomPos_lt hfull
        have hfull := hs.enterFull hp hbottom rfl hlt
        rw [displace_eq, view_listAdd, view_setCat, key_listAdd, key_setCat]
        exact hfull
      · exact huncat
    · rename_i hroom
      simp only [if_true]
      rw [push_eq]
      exact hs.enterHeap hp (Nat.lt_of_not_le hroom)

end Enter

/-! ## New values -/

/-- New values for a LEB, with the category and the place that it has. -/
structure Refill (c : Cats) (p : Nat) (lp : Lprops) : Prop where
  cat : lp.flags.cat = (c.lprops p).flags.cat
  hpos : lp.hpos = (c.lprops p).hpos

section Refill

variable {Live : Nat → Prop} {lp : Lprops}

/-- Writing LEB properties anew does not move them. -/
theorem Refill.view (hr : c.Refill p lp) : (c.write p lp).view h = c.view h := by
  simp only [Cats.view, write]
  congr 1
  funext q
  by_cases hq : q = p
  · rw [hq, Function.update_self, hr.hpos]
  · rw [Function.update_of_ne hq]

theorem key_write (hq : q ≠ p) : (c.write p lp).key h q = c.key h q := by
  simp only [key, write, Function.update_of_ne hq]

/-- Nor does it change a category. -/
theorem Refill.cat_eq (hr : c.Refill p lp) :
    ((c.write p lp).lprops q).flags.cat = (c.lprops q).flags.cat := by
  simp only [write]
  by_cases hq : q = p
  · rw [hq, Function.update_self, hr.cat]
  · rw [Function.update_of_ne hq]

/-- Heaps that the address is not in are as before. -/
theorem Refill.valid (hr : c.Refill p lp) (hs : c.Sound Live) (hp : ¬ (c.view h).Has p) :
    ((c.write p lp).view h).Valid ((c.write p lp).key h) := by
  rw [hr.view]
  refine (hs.valid h).congr (fun _ _ => rfl) fun y hy => key_write ?_
  rintro rfl
  exact hp hy

/-- `adjust_lpt_heap`: the place in the heap is right again. -/
theorem Sound.rekey (hs : c.Sound Live) (hr : c.Refill p lp) (hp : (c.view h).Has p) :
    ((c.write p lp).adjustLptHeap h p lp.hpos).Sound Live := by
  have hpos : lp.hpos = (c.view h).pos p := hr.hpos
  obtain ⟨hv, hre⟩ := @Heap.rekey_spec _ _ _ _ _ _ _ ((c.write p lp).key h) (hs.valid h) hp fun y hy
    => key_write hy
  rw [adjustLptHeap, hr.view, hpos]
  constructor
  · -- valid: the heap is in order for the new values, the others have no `p` that could matter
    intro h'
    rw [key_setHeap]
    by_cases hne : h' = h
    · subst hne
      rw [view_setHeap]
      exact hv
    · rw [view_setHeap_of_ne hne]
      have hnot : ¬ (c.view h').Has p := fun hp' => hne (hs.has_unique hp hp')
      refine (hr.valid hs hnot).congr (fun y hy => ?_) fun _ _ => rfl
      rw [hr.view] at hy ⊢
      exact hre.pos y fun hy' => hne (hs.has_unique hy' hy)
  · exact hs.nodup
  · -- inCat: moving entries inside of a heap changes no membership
    intro q cat
    rw [flags_setHeap, hr.cat_eq, ← hs.inCat]
    cases cat with
    | list l => exact Iff.rfl
    | heap h' =>
      show (((c.write p lp).setHeap h _).view h').Has q ↔ (c.view h').Has q
      by_cases hne : h' = h
      · subst hne
        rw [view_setHeap]
        exact hre.has q
      · rw [view_setHeap_of_ne hne, hr.view]
        exact Iff.rfl
  · exact hs.freeable
  · -- cnt_le
    intro h'
    by_cases hne : h' = h
    · subst hne
      simp only [setHeap, Function.update_self, hre.cnt]
      exact hs.cnt_le h'
    · simp only [setHeap, Function.update_of_ne hne]
      exact hs.cnt_le h'

/-- On a list the values do not matter. -/
theorem Sound.refill (hs : c.Sound Live) (hr : c.Refill p lp) (hp : p ∈ c.list l) :
    (c.write p lp).Sound Live := by
  have hcat := ((hs.inCat p (.list l)).mp hp).2
  constructor
  · intro h
    refine hr.valid hs fun hp' => ?_
    have := ((hs.inCat p (.heap h)).mp hp').2
    rw [hcat] at this
    cases this
  · exact hs.nodup
  · intro q cat
    rw [hr.cat_eq, ← hs.inCat]
    cases cat with
    | list l => exact Iff.rfl
    | heap h =>
      show ((c.write p lp).view h).Has q ↔ (c.view h).Has q
      rw [hr.view]
  · exact hs.freeable
  · exact hs.cnt_le

/-! ## An address goes out -/

/-- `ubifs_remove_from_cat`, after the values have changed. -/
theorem Sound.leave (hs : c.Sound Live) (hr : c.Refill p lp) (hp : Live p)
    (hcat : (c.lprops p).flags.cat = cat) :
    ((c.write p lp).ubifsRemoveFromCat p cat).Sound (fun q => Live q ∧ q ≠ p) := by
  have hin := (hs.inCat p cat).mpr ⟨hp, hcat⟩
  cases cat with
  | heap h =>
    -- It is in a heap, from which it is taken with its new values written.
    have hin : (c.view h).Has p := hin
    obtain ⟨hv, hcnt, hhas, hpos⟩ := @Heap.remove_spec _ _ _ _ _ _ _ ((c.write p lp).key h)
      (hs.valid h) hin fun y hy => key_write hy
    rw [ubifsRemoveFromCat, removeFromLptHeap_eq, hr.view]
    constructor
    · intro h'
      rw [key_setHeap]
      by_cases hne : h' = h
      · subst hne
        rw [view_setHeap]
        exact hv
      · rw [view_setHeap_of_ne hne]
        have hnot : ¬ (c.view h').Has p := fun hp' => hne (hs.has_unique hin hp')
        refine (hr.valid hs hnot).congr (fun y hy => ?_) fun _ _ => rfl
        rw [hr.view] at hy ⊢
        exact hpos y fun hy' => hne (hs.has_unique hy' hy)
    · exact hs.nodup
    · -- inCat
      intro q cat'
      rw [flags_setHeap, hr.cat_eq]
      have hq := hs.inCat q cat'
      cases cat' with
      | list l =>
        have hq : q ∈ c.list l ↔ _ := hq
        refine Iff.trans hq ⟨fun hl => ⟨⟨hl.1, ?_⟩, hl.2⟩, fun hl => ⟨hl.1.1, hl.2⟩⟩
        rintro rfl
        rw [hl.2] at hcat
        cases hcat
      | heap h' =>
        show (((c.write p lp).setHeap h _).view h').Has q ↔ _
        have hq : (c.view h').Has q ↔ _ := hq
        by_cases hne : h' = h
        · subst hne
          rw [view_setHeap, hhas, hq]
          exact ⟨fun hl => ⟨⟨hl.1.1, hl.2⟩, hl.1.2⟩, fun hl => ⟨⟨hl.1.1, hl.2⟩, hl.1.2⟩⟩
        · rw [view_setHeap_of_ne hne, hr.view]
          refine Iff.trans hq ⟨fun hl => ⟨⟨hl.1, ?_⟩, hl.2⟩, fun hl => ⟨hl.1.1, hl.2⟩⟩
          rintro rfl
          rw [hl.2] at hcat
          exact hne (Cat.heap.inj hcat)
    · exact hs.freeable
    · intro h'
      by_cases hne : h' = h
      · subst hne
        simp only [setHeap, Function.update_self, hcnt]
        exact Nat.le_trans (Nat.sub_le _ _) (hs.cnt_le h')
      · simp only [setHeap, Function.update_of_ne hne]
        exact hs.cnt_le h'
  | list l =>
    -- It is on a list, where the values do not matter.
    have hin : p ∈ c.list l := hin
    have hsound := hs.refill hr hin
    have herase : ∀ l', l' ≠ l → (c.list l').erase p = c.list l' := by
      intro l' hne
      refine List.erase_of_not_mem fun hin' => hne ?_
      have := ((hs.inCat p (.list l')).mp hin').2
      rw [hcat] at this
      exact (Cat.list.inj this).symm
    constructor
    · exact hsound.valid
    · exact fun l' => (hs.nodup l').erase p
    · -- inCat
      intro q cat'
      show _ ↔ (Live q ∧ q ≠ p) ∧ ((c.write p lp).lprops q).flags.cat = cat'
      rw [hr.cat_eq]
      have hq := hs.inCat q cat'
      cases cat' with
      | heap h =>
        show ((c.write p lp).view h).Has q ↔ _
        have hq : (c.view h).Has q ↔ _ := hq
        rw [hr.view, hq]
        refine ⟨fun hl => ⟨⟨hl.1, ?_⟩, hl.2⟩, fun hl => ⟨hl.1.1, hl.2⟩⟩
        rintro rfl
        rw [hl.2] at hcat
        cases hcat
      | list l' =>
        show q ∈ (c.list l').erase p ↔ _
        have hq : q ∈ c.list l' ↔ _ := hq
        rw [(hs.nodup l').mem_erase_iff, hq]
        exact ⟨fun hl => ⟨⟨hl.2.1, hl.1⟩, hl.2.2⟩, fun hl => ⟨hl.1.2, hl.1.1, hl.2⟩⟩
    · -- freeable: the counter goes down with the list
      show (if l = ListCat.freeable then c.freeableCnt - 1 else c.freeableCnt) =
        (((c.list .freeable).erase p).length : Int)
      split
      · rename_i hl
        subst hl
        rw [List.length_erase_of_mem hin, hs.freeable]
        have := List.length_pos_of_mem hin
        omega
      · rename_i hl
        rw [herase _ (Ne.symm hl)]
        exact hs.freeable
    · exact hs.cnt_le

/-! ## A copy -/

/-- `ubifs_replace_cat`: the copy is where the original was. -/
theorem Sound.replace {old new : Nat} (hs : c.Sound Live) (hold : Live old) (hnew : ¬ Live new) :
    ((c.write new (c.lprops old)).ubifsReplaceCat old new).Sound
      (fun q => q = new ∨ Live q ∧ q ≠ old) := by
  have hne : new ≠ old := fun heq => hnew (heq ▸ hold)
  have hat : (c.write new (c.lprops old)).lprops new = c.lprops old := by
    simp only [write, Function.update_self]
  have hother : ∀ q, q ≠ new → (c.write new (c.lprops old)).lprops q = c.lprops q := by
    intro q hq
    simp only [write, Function.update_of_ne hq]
  have hkey : ∀ h q, q ≠ new → (c.write new (c.lprops old)).key h q = c.key h q :=
    fun h q hq => key_write hq
  have hnot : ∀ h y, (c.view h).Has y → y ≠ new := by
    rintro h y hy rfl
    exact hs.not_has hnew hy
  -- the heaps without the original
  have hheap : ∀ h, ¬ (c.view h).Has old →
      ((c.write new (c.lprops old)).view h).Valid ((c.write new (c.lprops old)).key h) := by
    intro h _
    refine @Heap.Valid.congr _ _ _ _ _ _ (fun q => ((c.write new (c.lprops old)).lprops q).hpos)
      (hs.valid h) (fun y hy => ?_) fun y hy => hkey h y (hnot h y hy)
    rw [hother y (hnot h y hy)]
    rfl
  have hcats : ∀ q cat, c.InCat q cat → q ≠ old → Live q ∧ (c.lprops q).flags.cat = cat :=
    fun q cat hq _ => (hs.inCat q cat).mp hq
  unfold ubifsReplaceCat
  rw [hat]
  cases hcat : (c.lprops old).flags.cat with
  | heap h =>
    have hin : (c.view h).Has old := (hs.inCat old (.heap h)).mpr ⟨hold, hcat⟩
    have hposOld : ((c.write new (c.lprops old)).lprops new).hpos = (c.view h).pos old := by
      rw [hat]
      rfl
    have hview : ∀ h', h' ≠ h → ((c.write new (c.lprops old)).lptHeapReplace new h).view h' =
        (c.write new (c.lprops old)).view h' := by
      intro h' hh
      simp only [Cats.view, lptHeapReplace, Function.update_of_ne hh]
    have hviewh : ((c.write new (c.lprops old)).lptHeapReplace new h).view h =
        (c.view h).put new ((c.view h).pos old) := by
      simp only [Cats.view, lptHeapReplace, Function.update_self, Heap.put]
      refine congrArg₂ (fun a b => Heap.mk a (c.heap h).cnt b) ?_ ?_
      · rw [hposOld]
        rfl
      · funext q
        by_cases hq : q = new
        · rw [hq, hat, Function.update_self]
        · rw [hother q hq, Function.update_of_ne hq]
    obtain ⟨hv, hhas⟩ := @Heap.replace_spec _ _ _ _ ((c.write new (c.lprops old)).key h) _ _ new
      ((hs.valid h).congr (fun _ _ => rfl) fun y hy => hkey h y (hnot h y hy)) hin (hs.not_has hnew)
      (by
        simp only [key]
        rw [hat, hother old (Ne.symm hne)])
    constructor
    · intro h'
      by_cases hh : h' = h
      · subst hh
        rw [hviewh]
        exact hv
      · rw [hview h' hh]
        exact hheap h' fun hin' => hh (hs.has_unique hin hin')
    · exact hs.nodup
    · intro q cat
      show _ ↔ (q = new ∨ Live q ∧ q ≠ old) ∧
        ((c.write new (c.lprops old)).lprops q).flags.cat = cat
      have hq := hs.inCat q cat
      by_cases hqn : q = new
      · subst hqn
        rw [hat, hcat]
        simp only [true_or, true_and]
        cases cat with
        | heap h' =>
          show Heap.Has (Cats.view _ h') q ↔ _
          by_cases hh : h' = h
          · subst hh
            rw [hviewh, hhas]
            simp
          · rw [hview h' hh]
            refine ⟨fun hin' => absurd hin' (hs.not_has hnew), fun heq => ?_⟩
            exact absurd (Cat.heap.inj heq).symm hh
        | list l =>
          refine ⟨fun hin' => absurd ((hs.inCat q (.list l)).mp hin').1 hnew, fun heq => ?_⟩
          cases heq
      · rw [hother q hqn]
        simp only [hqn, false_or]
        cases cat with
        | heap h' =>
          show Heap.Has (Cats.view _ h') q ↔ _
          have hq : (c.view h').Has q ↔ _ := hq
          by_cases hh : h' = h
          · subst hh
            rw [hviewh, hhas, hq]
            simp only [hqn, false_or]
            exact ⟨fun hl => ⟨⟨hl.1.1, hl.2⟩, hl.1.2⟩, fun hl => ⟨⟨hl.1.1, hl.2⟩, hl.1.2⟩⟩
          · rw [hview h' hh]
            refine Iff.trans hq ⟨fun hl => ⟨⟨hl.1, ?_⟩, hl.2⟩, fun hl => ⟨hl.1.1, hl.2⟩⟩
            rintro rfl
            rw [hl.2] at hcat
            exact hh (Cat.heap.inj hcat)
        | list l =>
          have hq : q ∈ c.list l ↔ _ := hq
          refine Iff.trans hq ⟨fun hl => ⟨⟨hl.1, ?_⟩, hl.2⟩, fun hl => ⟨hl.1.1, hl.2⟩⟩
          rintro rfl
          rw [hl.2] at hcat
          cases hcat
    · exact hs.freeable
    · intro h'
      by_cases hh : h' = h
      · subst hh
        simp only [lptHeapReplace, Function.update_self]
        exact hs.cnt_le h'
      · simp only [lptHeapReplace, Function.update_of_ne hh]
        exact hs.cnt_le h'
  | list l =>
    have hin : old ∈ c.list l := (hs.inCat old (.list l)).mpr ⟨hold, hcat⟩
    have hnewNot : ∀ l', new ∉ c.list l' := fun l' hl => hnew ((hs.inCat new (.list l')).mp hl).1
    constructor
    · intro h
      refine hheap h fun hin' => ?_
      have := ((hs.inCat old (.heap h)).mp hin').2
      rw [hcat] at this
      cases this
    · intro l'
      refine List.Nodup.map_on (fun a ha b hb hab => ?_) (hs.nodup l')
      have han : a ≠ new := fun heq => hnewNot l' (heq ▸ ha)
      have hbn : b ≠ new := fun heq => hnewNot l' (heq ▸ hb)
      by_cases hao : a = old <;> by_cases hbo : b = old <;> simp_all
    · intro q cat
      show _ ↔ (q = new ∨ Live q ∧ q ≠ old) ∧
        ((c.write new (c.lprops old)).lprops q).flags.cat = cat
      have hq := hs.inCat q cat
      cases cat with
      | heap h =>
        have hq : (c.view h).Has q ↔ _ := hq
        refine Iff.trans hq ?_
        by_cases hqn : q = new
        · subst hqn
          rw [hat, hcat]
          simp [hnew]
        · rw [hother q hqn]
          simp only [hqn, false_or]
          refine ⟨fun hl => ⟨⟨hl.1, ?_⟩, hl.2⟩, fun hl => ⟨hl.1.1, hl.2⟩⟩
          rintro rfl
          rw [hl.2] at hcat
          cases hcat
      | list l' =>
        show q ∈ (c.list l').map (fun r => if r = old then new else r) ↔ _
        have hq : q ∈ c.list l' ↔ _ := hq
        rw [List.mem_map]
        by_cases hqn : q = new
        · subst hqn
          rw [hat, hcat]
          simp only [true_or, true_and]
          constructor
          · rintro ⟨r, hr, heq⟩
            by_cases hro : r = old
            · subst hro
              rw [← hcat]
              exact ((hs.inCat r (.list l')).mp hr).2
            · rw [if_neg hro] at heq
              exact absurd (heq ▸ hr) (hnewNot l')
          · intro heq
            rw [Cat.list.inj heq] at hin
            exact ⟨old, hin, if_pos rfl⟩
        · rw [hother q hqn]
          simp only [hqn, false_or]
          constructor
          · rintro ⟨r, hr, heq⟩
            by_cases hro : r = old
            · rw [if_pos hro] at heq
              exact absurd heq.symm hqn
            · rw [if_neg hro] at heq
              subst heq
              have hl := (hs.inCat r (.list l')).mp hr
              exact ⟨⟨hl.1, hro⟩, hl.2⟩
          · rintro ⟨⟨hl, hqo⟩, hc⟩
            exact ⟨q, hq.mpr ⟨hl, hc⟩, if_neg hqo⟩
    · show c.freeableCnt = (((c.list .freeable).map _).length : Int)
      rw [List.length_map]
      exact hs.freeable
    · exact hs.cnt_le

/-- New properties where none were. -/
theorem Sound.writeNew (hs : c.Sound Live) (hp : ¬ Live p) : (c.write p lp).Sound Live := by
  have hother : ∀ q, Live q → q ≠ p := fun q hq heq => hp (heq ▸ hq)
  have hview : ∀ h, ((c.write p lp).view h).Valid ((c.write p lp).key h) := by
    intro h
    refine @Heap.Valid.congr _ _ _ _ _ _ (fun q => ((c.write p lp).lprops q).hpos)
      (hs.valid h) (fun y hy => ?_) fun y hy => key_write
      (hother y ((hs.inCat y (.heap h)).mp hy).1)
    have hy := hother y ((hs.inCat y (.heap h)).mp hy).1
    simp only [write, Function.update_of_ne hy]
    rfl
  refine ⟨hview, hs.nodup, fun q cat => ?_, hs.freeable, hs.cnt_le⟩
  have hin : (c.write p lp).InCat q cat ↔ c.InCat q cat := by
    cases cat <;> exact Iff.rfl
  rw [hin, hs.inCat]
  by_cases hq : q = p
  · subst hq
    simp [hp]
  · simp only [write, Function.update_of_ne hq]

/-! ## Changing the category -/

/-- Out and in again. -/
theorem Sound.move {cat' : Cat} (hs : c.Sound Live) (hr : c.Refill p lp) (hp : Live p)
    (hcat : (c.lprops p).flags.cat = cat) :
    (((c.write p lp).ubifsRemoveFromCat p cat).ubifsAddToCat p cat').Sound Live := by
  have hmove := @Sound.enter _ _ cat' _ (hs.leave hr hp hcat) fun hl => hl.2 rfl
  have hlive : (fun q => q = p ∨ Live q ∧ q ≠ p) = Live := by
    funext q
    refine propext ⟨?_, fun hq => ?_⟩
    · rintro (rfl | hq)
      · exact hp
      · exact hq.1
    · by_cases hqp : q = p
      · exact Or.inl hqp
      · exact Or.inr ⟨hq, hqp⟩
  rw [hlive] at hmove
  exact hmove

/-- They go where they belong now. -/
theorem Sound.changeCategory (g : Consts) (hs : c.Sound Live) (hr : c.Refill p lp) (hp : Live p) :
    ((c.write p lp).changeCategory g p).Sound Live := by
  have hat : (c.write p lp).lprops p = lp := by simp only [write, Function.update_self]
  unfold Cats.changeCategory
  rw [hat]
  dsimp only
  split
  · rename_i hsame
    have hin := (hs.inCat p _).mpr ⟨hp, hr.cat.symm.trans hsame⟩
    split
    · rename_i h heq
      rw [heq] at hin
      exact hs.rekey hr hin
    · rename_i l heq
      rw [heq] at hin
      exact hs.refill hr hin
  · exact hs.move hr hp hr.cat.symm

/-- So do those that had no category. -/
theorem Sound.ensureCat (g : Consts) (hs : c.Sound Live) (hp : Live p) :
    (c.ubifsEnsureCat g p).Sound Live := by
  have hself : c.write p (c.lprops p) = c := by
    simp only [write, Function.update_eq_self]
  unfold ubifsEnsureCat
  split
  · exact hs
  · rename_i hcat
    dsimp only
    split
    · exact hs
    · have hmove := @Sound.move _ _ (.list .uncat) _ (c.lprops p)
        (ubifsCategorizeLprops g (c.lprops p)) hs ⟨rfl, rfl⟩ hp (Decidable.not_not.mp hcat)
      rw [hself] at hmove
      exact hmove

end Refill

end Cats

/-! ## What stays as it is -/

/-- What of the properties of a LEB is not about categories. -/
structure Vals where
  lnum : Nat
  free : Int
  dirty : Int
  taken : Bool
  index : Bool

/-- The values of LEB properties, without the category. -/
def Lprops.vals (lp : Lprops) : Vals := ⟨lp.lnum, lp.free, lp.dirty, lp.flags.taken, lp.flags.index⟩

namespace Cats

variable {c : Cats} {h : HeapCat} {p q : Nat} {cat : Cat} {H : Heap Nat}

@[simp] theorem vals_setHeap : ((c.setHeap h H).lprops q).vals = (c.lprops q).vals := rfl

@[simp] theorem vals_setCat : ((c.setCat p cat).lprops q).vals = (c.lprops q).vals := by
  simp only [setCat]
  by_cases hq : q = p
  · rw [hq, Function.update_self]
    rfl
  · rw [Function.update_of_ne hq]

@[simp] theorem vals_listAdd {l : ListCat} : ((c.listAdd p l).lprops q).vals = (c.lprops q).vals :=
  rfl

/-- Going to a category does not change the values. -/
theorem vals_addToCat : ((c.ubifsAddToCat p cat).lprops q).vals = (c.lprops q).vals := by
  cases cat with
  | list l => simp only [ubifsAddToCat, vals_setCat, vals_listAdd]
  | heap h =>
    simp only [ubifsAddToCat, addToLptHeap]
    split
    · split
      · simp only [if_true, vals_setCat, moveUpLptHeap, vals_setHeap, vals_listAdd]
      · simp only [Bool.false_eq_true, if_false, vals_setCat, vals_listAdd]
    · simp only [if_true, vals_setCat, moveUpLptHeap, vals_setHeap]

/-- Nor does leaving one. -/
theorem vals_removeFromCat :
    ((c.ubifsRemoveFromCat p cat).lprops q).vals = (c.lprops q).vals := by
  cases cat with
  | list l => rfl
  | heap h => rw [ubifsRemoveFromCat, removeFromLptHeap_eq, vals_setHeap]

/-- So the values stay. -/
theorem vals_changeCategory (g : Consts) :
    ((c.changeCategory g p).lprops q).vals = (c.lprops q).vals := by
  unfold changeCategory
  dsimp only
  split
  · split <;> rfl
  · rw [vals_addToCat, vals_removeFromCat]

theorem vals_ensureCat (g : Consts) :
    ((c.ubifsEnsureCat g p).lprops q).vals = (c.lprops q).vals := by
  unfold ubifsEnsureCat
  split
  · rfl
  · dsimp only
    split
    · rfl
    · rw [vals_addToCat, vals_removeFromCat]

theorem vals_replaceCat {old new : Nat} :
    ((c.ubifsReplaceCat old new).lprops q).vals = (c.lprops q).vals := by
  unfold ubifsReplaceCat
  split <;> rfl

end Cats

/-! ## Runs -/

/-- The structures are sound, and every address holds the properties of one LEB. -/
structure Lpt.Good (s : Lpt) : Prop where
  sound : s.cats.Sound s.Live
  lnum : ∀ lnum p, s.pnode lnum = some p → (s.cats.lprops p).lnum = lnum

namespace Lpt

variable {s : Lpt} {g : Consts} {lnum p : Nat}

/-- At first nothing is in memory. -/
theorem Initial.good (h : s.Initial) : s.Good := by
  obtain ⟨hnode, hcnt, hlist, hfreeable⟩ := h
  have hlive : ∀ p, ¬ s.Live p := by
    rintro p ⟨lnum, hp⟩
    rw [hnode] at hp
    cases hp
  refine ⟨⟨fun h => ⟨fun i hi => ?_, fun j hj => ?_⟩, fun l => ?_, fun p cat => ?_, ?_, fun h => ?_⟩,
    fun lnum p hp => absurd ⟨lnum, hp⟩ (hlive p)⟩
  · have hi : i < (s.cats.heap h).cnt := hi
    have := hcnt h
    omega
  · have hj : j < (s.cats.heap h).cnt := hj
    have := hcnt h
    omega
  · rw [hlist]
    exact List.nodup_nil
  · refine ⟨fun hin => ?_, fun hl => absurd hl.1 (hlive p)⟩
    cases cat with
    | heap h =>
      obtain ⟨i, hi, -⟩ := hin
      have hi : i < (s.cats.heap h).cnt := hi
      have := hcnt h
      omega
    | list l =>
      have hin : p ∈ s.cats.list l := hin
      rw [hlist] at hin
      cases hin
  · rw [hfreeable, hlist]
    rfl
  · rw [hcnt]
    exact Nat.zero_le _

/-- LEB properties are read. -/
theorem Good.add {lp : Lprops} {cat : Cat} (hs : s.Good) (hnew : s.pnode lp.lnum = none)
    (hp : ¬ s.Live p) : (s.add p lp cat).Good := by
  have hother : ∀ q, s.Live q → q ≠ p := fun q hq heq => hp (heq ▸ hq)
  have henter := @Cats.Sound.enter _ _ cat _ (@Cats.Sound.writeNew _ _ _ lp hs.sound hp) hp
  have hlive : (fun q => q = p ∨ s.Live q) = (s.add p lp cat).Live := by
    funext q
    refine propext ⟨?_, ?_⟩
    · rintro (rfl | ⟨lnum, hq⟩)
      · exact ⟨lp.lnum, by simp only [Lpt.add, Function.update_self]⟩
      · refine ⟨lnum, ?_⟩
        have hne : lnum ≠ lp.lnum := by
          rintro rfl
          rw [hnew] at hq
          cases hq
        simp only [Lpt.add, Function.update_of_ne hne]
        exact hq
    · rintro ⟨lnum, hq⟩
      simp only [Lpt.add] at hq
      by_cases hl : lnum = lp.lnum
      · rw [hl, Function.update_self] at hq
        exact Or.inl (Option.some.inj hq).symm
      · rw [Function.update_of_ne hl] at hq
        exact Or.inr ⟨lnum, hq⟩
  rw [hlive] at henter
  refine ⟨henter, fun lnum q hq => ?_⟩
  simp only [Lpt.add] at hq ⊢
  have hvals := congrArg Vals.lnum
    (@Cats.vals_addToCat (s.cats.write p lp) p q cat)
  refine hvals.trans ?_
  show ((s.cats.write p lp).lprops q).lnum = lnum
  by_cases hl : lnum = lp.lnum
  · rw [hl, Function.update_self] at hq
    rw [← Option.some.inj hq, hl]
    simp only [Cats.write, Function.update_self]
  · rw [Function.update_of_ne hl] at hq
    simp only [Cats.write, Function.update_of_ne (hother q ⟨lnum, hq⟩)]
    exact hs.lnum lnum q hq

/-- They change. -/
theorem Good.change {free dirty : Int} {taken index : Bool} (hs : s.Good)
    (hp : s.pnode lnum = some p) : (s.change g p free dirty taken index).Good := by
  refine ⟨hs.sound.changeCategory g ⟨rfl, rfl⟩ ⟨lnum, hp⟩, fun l q hq => ?_⟩
  refine (congrArg Vals.lnum (Cats.vals_changeCategory g)).trans ?_
  rw [← hs.lnum l q hq]
  show (Cats.lprops (Cats.write _ p _) q).lnum = _
  simp only [Cats.write]
  by_cases hqp : q = p
  · rw [hqp, Function.update_self]
  · rw [Function.update_of_ne hqp]

/-- They get a category. -/
theorem Good.ensure (hs : s.Good) (hp : s.pnode lnum = some p) : (s.ensure g p).Good :=
  ⟨hs.sound.ensureCat g ⟨lnum, hp⟩, fun l q hq =>
    (congrArg Vals.lnum (Cats.vals_ensureCat g)).trans (hs.lnum l q hq)⟩

/-- They are copied. -/
theorem Good.replace {old new : Nat} (hs : s.Good) (hold : s.pnode lnum = some old)
    (hnew : ¬ s.Live new) : (s.replace lnum old new).Good := by
  have hrep := hs.sound.replace ⟨lnum, hold⟩ hnew
  have hlive : (fun q => q = new ∨ s.Live q ∧ q ≠ old) = (s.replace lnum old new).Live := by
    funext q
    refine propext ⟨?_, ?_⟩
    · rintro (rfl | ⟨⟨l, hq⟩, hne⟩)
      · exact ⟨lnum, by simp only [Lpt.replace, Function.update_self]⟩
      · refine ⟨l, ?_⟩
        have hl : l ≠ lnum := by
          rintro rfl
          rw [hold] at hq
          exact hne (Option.some.inj hq).symm
        simp only [Lpt.replace, Function.update_of_ne hl]
        exact hq
    · rintro ⟨l, hq⟩
      simp only [Lpt.replace] at hq
      by_cases hl : l = lnum
      · rw [hl, Function.update_self] at hq
        exact Or.inl (Option.some.inj hq).symm
      · rw [Function.update_of_ne hl] at hq
        refine Or.inr ⟨⟨l, hq⟩, ?_⟩
        rintro rfl
        -- an address is that of one LEB
        exact hl ((hs.lnum l q hq).symm.trans (hs.lnum lnum q hold))
  rw [hlive] at hrep
  refine ⟨hrep, fun l q hq => ?_⟩
  refine (congrArg Vals.lnum Cats.vals_replaceCat).trans ?_
  show ((s.cats.write new (s.cats.lprops old)).lprops q).lnum = l
  simp only [Lpt.replace] at hq
  by_cases hl : l = lnum
  · rw [hl, Function.update_self] at hq
    rw [← Option.some.inj hq, hl]
    simp only [Cats.write, Function.update_self]
    exact hs.lnum lnum old hold
  · rw [Function.update_of_ne hl] at hq
    have hqn : q ≠ new := fun heq => hnew ⟨l, heq ▸ hq⟩
    simp only [Cats.write, Function.update_of_ne hqn]
    exact hs.lnum l q hq

/-- Any of these steps. -/
theorem Good.step {s' : Lpt} (hs : s.Good) (h : Step g s s') : s'.Good := by
  cases h with
  | add p lp cat hnew hp => exact hs.add hnew hp
  | change lnum p free dirty taken index hp => exact hs.change hp
  | replace lnum old new hold hnew => exact hs.replace hold hnew
  | ensure lnum p hp => exact hs.ensure hp

end Lpt

/-- The heaps and lists agree with the flags of the LEBs, and the heaps are in order. -/
structure Lpt.Consistent (s : Lpt) : Prop where
  home : ∀ lnum p, s.pnode lnum = some p → ∀ cat,
    s.cats.InCat p cat ↔ (s.cats.lprops p).flags.cat = cat
  only : ∀ p cat, s.cats.InCat p cat → ∃ lnum, s.pnode lnum = some p
  hpos : ∀ h, ∀ i < (s.cats.heap h).cnt, (s.cats.lprops ((s.cats.heap h).arr i)).hpos = i
  once : ∀ l, (s.cats.list l).Nodup
  order : ∀ h, ∀ i < (s.cats.heap h).cnt, i ≠ 0 →
    getHeapCompVal (s.cats.lprops ((s.cats.heap h).arr i)) h ≤
      getHeapCompVal (s.cats.lprops ((s.cats.heap h).arr ((i - 1) / 2))) h
  freeable : s.cats.freeableCnt = (s.cats.list .freeable).length
  /-- what `ubifs_fast_find_free` finds has the most free space -/
  most : ∀ p, s.cats.ubifsFastFindFree = some p →
    (s.cats.lprops p).flags.cat = .heap .free ∧ ∀ lnum q, s.pnode lnum = some q →
      (s.cats.lprops q).flags.cat = .heap .free → (s.cats.lprops q).free ≤ (s.cats.lprops p).free
  /-- and it finds something if there is anything -/
  finds : s.cats.ubifsFastFindFree = none → ∀ lnum q, s.pnode lnum = some q →
    (s.cats.lprops q).flags.cat ≠ .heap .free

/-- In every run. -/
theorem categories_consistent {g : Consts} {s : Lpt} (h : Reach Lpt.Initial (Step g) s) :
    s.Consistent := by
  have hgood : s.Good := h.invariant (fun _ => Lpt.Initial.good) fun _ _ => Lpt.Good.step
  have hs := hgood.sound
  have hfree : ∀ q lnum, s.pnode lnum = some q → (s.cats.lprops q).flags.cat = .heap .free →
      ∃ i < (s.cats.heap .free).cnt, (s.cats.heap .free).arr i = q :=
    fun q lnum hq hcat => (hs.inCat q (.heap .free)).mpr ⟨⟨lnum, hq⟩, hcat⟩
  constructor
  · intro lnum p hp cat
    rw [hs.inCat]
    exact ⟨fun hl => hl.2, fun hcat => ⟨⟨lnum, hp⟩, hcat⟩⟩
  · exact fun p cat hin => ((hs.inCat p cat).mp hin).1
  · exact fun h => (hs.valid h).tracked
  · exact hs.nodup
  · exact fun h => (hs.valid h).ordered
  · exact hs.freeable
  · intro p hp
    unfold Cats.ubifsFastFindFree at hp
    split at hp
    · cases hp
    · rename_i hcnt
      cases hp
      have hin : (s.cats.view .free).Has ((s.cats.heap .free).arr 0) :=
        ⟨0, Nat.pos_of_ne_zero hcnt, rfl⟩
      refine ⟨((hs.inCat _ (.heap .free)).mp hin).2, fun lnum q hq hcat => ?_⟩
      obtain ⟨i, hi, rfl⟩ := hfree q lnum hq hcat
      exact (hs.valid .free).ordered.le_root hi
  · intro hnone lnum q hq hcat
    obtain ⟨i, hi, rfl⟩ := hfree q lnum hq hcat
    unfold Cats.ubifsFastFindFree at hnone
    split at hnone
    · omega
    · cases hnone

/-- Nothing in memory yet. -/
def noLpt : Lpt where
  cats := ⟨fun _ => ⟨0, 0, 0, ⟨.list .uncat, false, false⟩, 0⟩, fun _ => ⟨fun _ => 0, 0⟩,
    fun _ => [], 0⟩
  pnode := fun _ => none

/-- In an empty table nothing is in memory. -/
theorem noLpt_not_live (p : Nat) : ¬ noLpt.Live p := by
  rintro ⟨_, hp⟩
  cases hp

/-- The properties of three LEBs.  The first two are in the heap of free space, the third is in that of
    dirty space. -/
def threeLebs : Lpt :=
  ((noLpt.add 16 ⟨7, 512, 8, ⟨.list .uncat, false, false⟩, 0⟩ (.heap .free)).add
    17 ⟨8, 1024, 8, ⟨.list .uncat, false, false⟩, 0⟩ (.heap .free)).add
    18 ⟨9, 64, 2048, ⟨.list .uncat, false, false⟩, 0⟩ (.heap .dirty)

/-- Three LEBs are read, one after the other. -/
theorem threeLebs_reach {g : Consts} : Reach Lpt.Initial (Step g) threeLebs := by
  have h0 : Reach Lpt.Initial (Step g) noLpt := .init ⟨fun _ => rfl, fun _ => rfl, fun _ => rfl, rfl⟩
  have h1 := h0.step (Step.add 16 ⟨7, 512, 8, ⟨.list .uncat, false, false⟩, 0⟩ (.heap .free) rfl
    (noLpt_not_live 16))
  have h2 := h1.step (Step.add 17 ⟨8, 1024, 8, ⟨.list .uncat, false, false⟩, 0⟩ (.heap .free) rfl
    (Lpt.not_live_add (noLpt_not_live 17) (by decide)))
  exact h2.step (Step.add 18 ⟨9, 64, 2048, ⟨.list .uncat, false, false⟩, 0⟩ (.heap .dirty) rfl
    (Lpt.not_live_add (Lpt.not_live_add (noLpt_not_live 18) (by decide)) (by decide)))

/-- The one with the most free space loses some of it, and is no longer the first of its heap. -/
theorem categories_consistent_change :
    (threeLebs.change ⟨4096, 64, 64, 64⟩ 17 256 8 false false).Consistent := by
  have hread : threeLebs.pnode 8 = some 17 := by decide
  exact categories_consistent (threeLebs_reach.step (Step.change 8 17 256 8 false false hread))

end Ubifs.Lp
