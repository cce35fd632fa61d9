/-
  Binary max-heaps in an array, whose entries know where they are.

  `arr` is looked at below `cnt`, and `pos` is the place of every entry there.  The sifts move an entry
  `x` that is already in the array, at `i`.
-/
import Mathlib.Logic.Function.Basic
import Mathlib.Order.Defs.LinearOrder
import Mathlib.Order.Lattice

namespace Lib

/-- `cnt` elements in an array, and where each of them is. -/
structure Heap (α : Type) where
  arr : Nat → α
  cnt : Nat
  pos : α → Nat

namespace Heap

variable {α κ : Type} [LinearOrder κ]

/-- The slot above slot `i`. -/
def parent (i : Nat) : Nat := (i - 1) / 2

/-- The parent is further up. -/
theorem parent_lt {i : Nat} (h : i ≠ 0) : parent i < i := by
  unfold parent
  omega

/-! ## The child that goes up -/

/-- The child that is to go up: the greater one of those that are greater than `x`. -/
def promoted (key : α → κ) (x : α) (h : Heap α) (i : Nat) : Option Nat :=
  if h.cnt ≤ 2 * i + 1 then none
  else if key x < key (h.arr (2 * i + 1)) then
    if 2 * i + 2 < h.cnt ∧ key (h.arr (2 * i + 1)) < key (h.arr (2 * i + 2)) then some (2 * i + 2)
    else some (2 * i + 1)
  else if h.cnt ≤ 2 * i + 2 then none
  else if key x < key (h.arr (2 * i + 2)) then some (2 * i + 2)
  else none

/-- What there is to know about the child that goes up. -/
theorem promoted_some {key : α → κ} {x : α} {h : Heap α} {i c : Nat}
    (hc : promoted key x h i = some c) :
    i < c ∧ c < h.cnt ∧ parent c = i ∧ key x < key (h.arr c) ∧
      ∀ j < h.cnt, j ≠ 0 → parent j = i → key (h.arr j) ≤ key (h.arr c) := by
  have hchild : ∀ j, j ≠ 0 → parent j = i → j = 2 * i + 1 ∨ j = 2 * i + 2 := by
    intro j hj hp
    unfold parent at hp
    omega
  unfold promoted at hc
  split at hc
  · cases hc
  · rename_i hleft
    split at hc
    · rename_i hless
      split at hc
      · rename_i hright
        cases hc
        refine ⟨by omega, hright.1, by unfold parent; omega, lt_trans hless hright.2, ?_⟩
        intro j hj hj0 hp
        rcases hchild j hj0 hp with rfl | rfl
        · exact le_of_lt hright.2
        · exact le_refl _
      · rename_i hright
        cases hc
        refine ⟨by omega, by omega, by unfold parent; omega, hless, ?_⟩
        intro j hj hj0 hp
        rcases hchild j hj0 hp with rfl | rfl
        · exact le_refl _
        · exact le_of_not_gt fun hgt => hright ⟨hj, hgt⟩
    · rename_i hless
      split at hc
      · cases hc
      · split at hc
        · rename_i hgreater
          cases hc
          refine ⟨by omega, by omega, by unfold parent; omega, hgreater, ?_⟩
          intro j hj hj0 hp
          rcases hchild j hj0 hp with rfl | rfl
          · exact le_trans (le_of_not_gt hless) (le_of_lt hgreater)
          · exact le_refl _
        · cases hc

/-- No child has a larger key. -/
theorem promoted_none {key : α → κ} {x : α} {h : Heap α} {i : Nat}
    (hc : promoted key x h i = none) {j : Nat} (hj : j < h.cnt) (hj0 : j ≠ 0) (hp : parent j = i) :
    key (h.arr j) ≤ key x := by
  have hchild : j = 2 * i + 1 ∨ j = 2 * i + 2 := by
    unfold parent at hp
    omega
  unfold promoted at hc
  split at hc
  · omega
  · split at hc
    · split at hc <;> cases hc
    · rename_i hless
      split at hc
      · rcases hchild with rfl | rfl
        · exact le_of_not_gt hless
        · omega
      · split at hc
        · cases hc
        · rename_i hless'
          rcases hchild with rfl | rfl
          · exact le_of_not_gt hless
          · exact le_of_not_gt hless'

/-! ## Operations -/

section Operations

variable [DecidableEq α]

/-- `x` is stored at `i`. -/
def put (h : Heap α) (x : α) (i : Nat) : Heap α :=
  { h with arr := Function.update h.arr i x, pos := Function.update h.pos x i }

/-- `x` goes from `i` to `j`, and what was there to `i`. -/
def exchange (h : Heap α) (x : α) (i j : Nat) : Heap α := (h.put (h.arr j) i).put x j

/-- Up as long as the parent is smaller. -/
def siftUp (key : α → κ) (x : α) (h : Heap α) (i : Nat) : Heap α :=
  if hi : i = 0 then h
  else if key x ≤ key (h.arr (parent i)) then h
  else
    have := parent_lt hi
    siftUp key x (h.exchange x i (parent i)) (parent i)
termination_by i

/-- Down as long as a child is greater. -/
def siftDown (key : α → κ) (x : α) (h : Heap α) (i : Nat) : Heap α :=
  match hc : promoted key x h i with
  | none => h
  | some c =>
    have := (promoted_some hc).1
    have := (promoted_some hc).2.1
    siftDown key x (h.exchange x i c) c
termination_by h.cnt - i
decreasing_by
  show h.cnt - c < h.cnt - i
  omega

/-- To where `x` belongs, when only its key may be out of order. -/
def adjust (key : α → κ) (x : α) (h : Heap α) (i : Nat) : Heap α :=
  if i ≠ 0 ∧ key (h.arr (parent i)) < key x then siftUp key x h i else siftDown key x h i

/-- A new element goes to the end and from there up to its place. -/
def push (key : α → κ) (x : α) (h : Heap α) : Heap α :=
  siftUp key x (put { h with cnt := h.cnt + 1 } x h.cnt) h.cnt

/-- `x` takes the place of what is at `i`. -/
def displace (key : α → κ) (x : α) (h : Heap α) (i : Nat) : Heap α :=
  siftUp key x (h.put x i) i

/-- The last entry takes the place of `x`. -/
def remove (key : α → κ) (x : α) (h : Heap α) : Heap α :=
  let i := h.pos x
  let last := h.cnt - 1
  if i < last then adjust key (h.arr last) (put { h with cnt := last } (h.arr last) i) i
  else { h with cnt := last }

end Operations

/-! ## What is in a heap -/

/-- The element is in the heap. -/
def Has (h : Heap α) (y : α) : Prop := ∃ i < h.cnt, h.arr i = y

/-- Every entry knows its place. -/
def Tracked (h : Heap α) : Prop := ∀ i < h.cnt, h.pos (h.arr i) = i

section Tracked

variable {h : Heap α} {x y : α} {i j : Nat}

/-- The position of an element leads to it. -/
theorem Has.pos_lt (hy : h.Has y) (ht : h.Tracked) : h.pos y < h.cnt ∧ h.arr (h.pos y) = y := by
  obtain ⟨i, hi, rfl⟩ := hy
  rw [ht i hi]
  exact ⟨hi, rfl⟩

/-- `h'` has the entries of `h`, in another order. -/
structure Rearranged (h h' : Heap α) : Prop where
  cnt : h'.cnt = h.cnt
  has : ∀ y, h'.Has y ↔ h.Has y
  pos : ∀ y, ¬ h.Has y → h'.pos y = h.pos y
  tracked : h'.Tracked

/-- Nothing was moved. -/
theorem Rearranged.refl (ht : h.Tracked) : Rearranged h h := ⟨rfl, fun _ => Iff.rfl, fun _ _ => rfl, ht⟩

/-- Moves in a row. -/
theorem Rearranged.trans {h' h'' : Heap α} (h₁ : Rearranged h h') (h₂ : Rearranged h' h'') :
    Rearranged h h'' where
  cnt := h₂.cnt.trans h₁.cnt
  has y := (h₂.has y).trans (h₁.has y)
  pos y hy := (h₂.pos y fun h' => hy ((h₁.has y).mp h')).trans (h₁.pos y hy)
  tracked := h₂.tracked

section Exchange

variable [DecidableEq α]

/-- Two slots are exchanged. -/
theorem exchange_arr (hij : i ≠ j) (hx : h.arr i = x) (k : Nat) :
    (h.exchange x i j).arr k = if k = i then h.arr j else if k = j then h.arr i else h.arr k := by
  simp only [exchange, put, Function.update_apply, hx]
  split
  · rename_i hk
    rw [if_neg (by omega)]
  · rfl

/-- The elements are the same ones, and their positions are right. -/
theorem exchange_rearranged (ht : h.Tracked) (hi : i < h.cnt) (hj : j < h.cnt) (hij : i ≠ j)
    (hx : h.arr i = x) : Rearranged h (h.exchange x i j) := by
  have harr := exchange_arr (j := j) hij hx
  have hpi := ht i hi
  have hpj := ht j hj
  have hne : h.arr j ≠ x := by
    intro heq
    rw [heq, ← hx, hpi] at hpj
    exact hij hpj
  constructor
  · rfl
  · intro y
    constructor
    · rintro ⟨k, hk, rfl⟩
      rw [harr]
      split
      · exact ⟨j, hj, rfl⟩
      · split
        · exact ⟨i, hi, rfl⟩
        · exact ⟨k, hk, rfl⟩
    · rintro ⟨k, hk, rfl⟩
      by_cases hki : k = i
      · exact ⟨j, hj, by rw [harr, if_neg (Ne.symm hij), if_pos rfl, hki]⟩
      · by_cases hkj : k = j
        · exact ⟨i, hi, by rw [harr, if_pos rfl, hkj]⟩
        · exact ⟨k, hk, by rw [harr, if_neg hki, if_neg hkj]⟩
  · intro y hy
    have hyx : y ≠ x := fun heq => hy ⟨i, hi, hx.trans heq.symm⟩
    have hyj : y ≠ h.arr j := fun heq => hy ⟨j, hj, heq.symm⟩
    simp only [exchange, put, Function.update_apply, if_neg hyx, if_neg hyj]
  · intro k hk
    rw [harr]
    simp only [exchange, put, Function.update_apply]
    split
    · rename_i hki
      rw [if_pos rfl, hki]
    · rename_i hki
      split
      · rename_i hkj
        exact hkj.symm
      · rename_i hkj
        have hpk := ht k hk
        rw [if_neg, if_neg, hpk]
        · intro heq
          rw [heq, hpj] at hpk
          exact hkj hpk.symm
        · intro heq
          rw [heq, ← hx, hpi] at hpk
          exact hki hpk.symm

end Exchange

end Tracked

/-! ## Order -/

/-- No entry is greater than its parent. -/
def Ordered (key : α → κ) (h : Heap α) : Prop :=
  ∀ j < h.cnt, j ≠ 0 → key (h.arr j) ≤ key (h.arr (parent j))

/-- What is around `i` is in order, whatever is at `i`. -/
structure OrderedAround (key : α → κ) (h : Heap α) (i : Nat) : Prop where
  others : ∀ j < h.cnt, j ≠ 0 → j ≠ i → parent j ≠ i → key (h.arr j) ≤ key (h.arr (parent j))
  grand : i ≠ 0 → ∀ j < h.cnt, j ≠ 0 → parent j = i → key (h.arr j) ≤ key (h.arr (parent i))

/-- Only the entry at `i` may be greater than its parent. -/
structure UpOrdered (key : α → κ) (h : Heap α) (i : Nat) : Prop where
  others : ∀ j < h.cnt, j ≠ 0 → j ≠ i → key (h.arr j) ≤ key (h.arr (parent j))
  grand : i ≠ 0 → ∀ j < h.cnt, j ≠ 0 → parent j = i → key (h.arr j) ≤ key (h.arr (parent i))

/-- Only the entry at `i` may be less than a child of it. -/
structure DownOrdered (key : α → κ) (h : Heap α) (i : Nat) : Prop where
  others : ∀ j < h.cnt, j ≠ 0 → parent j ≠ i → key (h.arr j) ≤ key (h.arr (parent j))
  grand : i ≠ 0 → ∀ j < h.cnt, j ≠ 0 → parent j = i → key (h.arr j) ≤ key (h.arr (parent i))

section Order

variable {key : α → κ} {h : Heap α} {x : α} {i : Nat}

/-- The root is the greatest. -/
theorem Ordered.le_root (ho : Ordered key h) {j : Nat} (hj : j < h.cnt) :
    key (h.arr j) ≤ key (h.arr 0) := by
  induction j using Nat.strong_induction_on with
  | _ j ih =>
    by_cases hz : j = 0
    · rw [hz]
    · exact le_trans (ho j hj hz) (ih _ (parent_lt hz) (Nat.lt_trans (parent_lt hz) hj))

/-- In order, around any place it is in order for any new key of the entry there. -/
theorem Ordered.around (ho : Ordered key h) {key' : α → κ} (hi : i < h.cnt)
    (hkey : ∀ j < h.cnt, j ≠ i → key' (h.arr j) = key (h.arr j)) : OrderedAround key' h i := by
  have hup : ∀ j < h.cnt, j ≠ 0 → parent j < h.cnt :=
    fun j hj hz => Nat.lt_trans (parent_lt hz) hj
  constructor
  · intro j hj hz hji hpi
    rw [hkey j hj hji, hkey _ (hup j hj hz) hpi]
    exact ho j hj hz
  · intro hiz j hj hz hpi
    have hji : j ≠ i := by
      have := parent_lt hz
      omega
    have hpne : parent i ≠ i := by
      have := parent_lt hiz
      omega
    rw [hkey j hj hji, hkey _ (hup i hi hiz) hpne]
    have hchild := ho j hj hz
    rw [hpi] at hchild
    exact le_trans hchild (ho i hi hiz)

/-- If the element is not too small for its slot, it can only be too large. -/
theorem OrderedAround.up (ho : OrderedAround key h i) (hx : h.arr i = x)
    (hle : ∀ j < h.cnt, j ≠ 0 → parent j = i → key (h.arr j) ≤ key x) : UpOrdered key h i := by
  refine ⟨fun j hj hz hji => ?_, ho.grand⟩
  by_cases hp : parent j = i
  · rw [hp, hx]
    exact hle j hj hz hp
  · exact ho.others j hj hz hji hp

/-- If it is not too large, it can only be too small. -/
theorem OrderedAround.down (ho : OrderedAround key h i) (hx : h.arr i = x)
    (hle : i ≠ 0 → key x ≤ key (h.arr (parent i))) : DownOrdered key h i := by
  refine ⟨fun j hj hz hp => ?_, ho.grand⟩
  by_cases hji : j = i
  · rw [hji, hx]
    exact hle (hji ▸ hz)
  · exact ho.others j hj hz hji hp

section Sift

variable [DecidableEq α]

/-- One step up. -/
theorem UpOrdered.exchange (ho : UpOrdered key h i) (hx : h.arr i = x) (hi : i < h.cnt)
    (hz : i ≠ 0) (hlt : key (h.arr (parent i)) < key x) :
    UpOrdered key (h.exchange x i (parent i)) (parent i) := by
  have hpi := parent_lt hz
  have harr := exchange_arr (j := parent i) (by omega) hx
  have hparent : parent i ≠ 0 → key (h.arr (parent i)) ≤ key (h.arr (parent (parent i))) :=
    fun hpz => ho.others _ (by omega) hpz (by omega)
  -- what is below the parent is below the parent's parent
  have hbelow : ∀ j < h.cnt, j ≠ 0 → j ≠ i → parent j = parent i →
      key (h.arr j) ≤ key (h.arr (parent i)) := by
    intro j hj hjz hji hp
    have := ho.others j hj hjz hji
    rw [hp] at this
    exact this
  constructor
  · intro j hj hjz hjp
    have hj : j < h.cnt := hj
    rw [harr, harr]
    by_cases hji : j = i
    · subst hji
      rw [if_pos rfl, if_neg (by omega), if_pos rfl, hx]
      exact le_of_lt hlt
    · rw [if_neg hji, if_neg hjp]
      by_cases hpji : parent j = i
      · rw [if_pos hpji]
        exact ho.grand hz j hj hjz hpji
      · rw [if_neg hpji]
        by_cases hpjp : parent j = parent i
        · rw [if_pos hpjp, hx]
          exact le_trans (hbelow j hj hjz hji hpjp) (le_of_lt hlt)
        · rw [if_neg hpjp]
          exact ho.others j hj hjz hji
  · intro hpz j hj hjz hpj
    have hj : j < h.cnt := hj
    have hpp := parent_lt hpz
    rw [harr, harr, if_neg (show parent (parent i) ≠ i by omega),
      if_neg (show parent (parent i) ≠ parent i by omega)]
    by_cases hji : j = i
    · rw [if_pos hji]
      exact hparent hpz
    · have hjp : j ≠ parent i := by
        have := parent_lt hjz
        omega
      rw [if_neg hji, if_neg hjp]
      exact le_trans (hbelow j hj hjz hji hpj) (hparent hpz)

/-- An element that is too large goes up to its place. -/
theorem siftUp_spec (ht : h.Tracked) (hx : h.arr i = x) (hi : i < h.cnt) (ho : UpOrdered key h i) :
    Rearranged h (siftUp key x h i) ∧ Ordered key (siftUp key x h i) := by
  induction i using Nat.strong_induction_on generalizing h with
  | _ i ih =>
    rw [siftUp]
    split
    · rename_i hz
      refine ⟨Rearranged.refl ht, fun j hj hjz => ho.others j hj hjz (by omega)⟩
    · rename_i hz
      split
      · rename_i hle
        refine ⟨Rearranged.refl ht, fun j hj hjz => ?_⟩
        by_cases hji : j = i
        · rw [hji, hx]
          exact hle
        · exact ho.others j hj hjz hji
      · rename_i hlt
        have hp := parent_lt hz
        have hstep := exchange_rearranged ht hi (by omega) (show i ≠ parent i by omega) hx
        have hxp : (h.exchange x i (parent i)).arr (parent i) = x := by
          rw [exchange_arr (by omega) hx, if_neg (by omega), if_pos rfl, hx]
        obtain ⟨hrest, hord⟩ := ih _ hp hstep.tracked hxp (by rw [hstep.cnt]; omega)
          (ho.exchange hx hi hz (lt_of_not_ge hlt))
        exact ⟨hstep.trans hrest, hord⟩

/-- One step down. -/
theorem DownOrdered.exchange {c : Nat} (ho : DownOrdered key h i) (hx : h.arr i = x)
    (hc : promoted key x h i = some c) : DownOrdered key (h.exchange x i c) c := by
  obtain ⟨hic, hcc, hpc, hlt, hbig⟩ := promoted_some hc
  have harr := exchange_arr (j := c) (by omega) hx
  constructor
  · intro j hj hjz hpj
    have hj : j < h.cnt := hj
    rw [harr, harr]
    by_cases hjc : j = c
    · subst hjc
      rw [hpc, if_neg (by omega), if_pos rfl, if_pos rfl, hx]
      exact le_of_lt hlt
    · by_cases hji : j = i
      · have := parent_lt hjz
        rw [if_pos hji, if_neg (by omega), if_neg hpj, hji]
        exact ho.grand (hji ▸ hjz) c hcc (by omega) hpc
      · rw [if_neg hji, if_neg hjc]
        by_cases hpji : parent j = i
        · rw [if_pos hpji]
          exact hbig j hj hjz hpji
        · rw [if_neg hpji, if_neg hpj]
          exact ho.others j hj hjz hpji
  · intro _ j hj hjz hpj
    have hj : j < h.cnt := hj
    have := parent_lt hjz
    rw [harr, harr, hpc, if_neg (by omega), if_neg (by omega), if_pos rfl, ← hpj]
    exact ho.others j hj hjz (by omega)

/-- One that is too small goes down. -/
theorem siftDown_spec (ht : h.Tracked) (hx : h.arr i = x) (hi : i < h.cnt)
    (ho : DownOrdered key h i) :
    Rearranged h (siftDown key x h i) ∧ Ordered key (siftDown key x h i) := by
  induction hn : h.cnt - i using Nat.strong_induction_on generalizing h i with
  | _ n ih =>
    rw [siftDown]
    split
    · rename_i hc
      refine ⟨Rearranged.refl ht, fun j hj hjz => ?_⟩
      by_cases hp : parent j = i
      · rw [hp, hx]
        exact promoted_none hc hj hjz hp
      · exact ho.others j hj hjz hp
    · rename_i c hc
      obtain ⟨hic, hcc, hpc, hlt, hbig⟩ := promoted_some hc
      have hstep := exchange_rearranged ht hi hcc (show i ≠ c by omega) hx
      have hxc : (h.exchange x i c).arr c = x := by
        rw [exchange_arr (by omega) hx, if_neg (by omega), if_pos rfl, hx]
      have hcnt : (h.exchange x i c).cnt = h.cnt := rfl
      obtain ⟨hrest, hord⟩ := ih _ (show h.cnt - c < n by omega) hstep.tracked hxc hcc
        (ho.exchange hx hc) rfl
      exact ⟨hstep.trans hrest, hord⟩

/-- One whose key has changed goes either way. -/
theorem adjust_spec (ht : h.Tracked) (hx : h.arr i = x) (hi : i < h.cnt)
    (ho : OrderedAround key h i) :
    Rearranged h (adjust key x h i) ∧ Ordered key (adjust key x h i) := by
  rw [adjust]
  split
  · rename_i hup
    refine siftUp_spec ht hx hi (ho.up hx fun j hj hz hp => ?_)
    exact le_trans (ho.grand hup.1 j hj hz hp) (le_of_lt hup.2)
  · rename_i hup
    refine siftDown_spec ht hx hi (ho.down hx fun hz => ?_)
    exact le_of_not_gt fun hgt => hup ⟨hz, hgt⟩

end Sift

end Order

/-! ## What the operations come to -/

/-- A heap: positions are right, and no element is below its children. -/
structure Valid (key : α → κ) (h : Heap α) : Prop where
  tracked : h.Tracked
  ordered : Ordered key h

/-- Only the entries matter. -/
theorem Valid.congr {key key' : α → κ} {h : Heap α} {pos : α → Nat} (hv : Valid key h)
    (hpos : ∀ y, h.Has y → pos y = h.pos y) (hkey : ∀ y, h.Has y → key' y = key y) :
    Valid key' { h with pos := pos } := by
  refine ⟨fun i hi => ?_, fun j hj hz => ?_⟩
  · exact (hpos _ ⟨i, hi, rfl⟩).trans (hv.tracked i hi)
  · have hp := Nat.lt_trans (parent_lt hz) hj
    show key' (h.arr j) ≤ key' (h.arr (parent j))
    rw [hkey _ ⟨j, hj, rfl⟩, hkey _ ⟨_, hp, rfl⟩]
    exact hv.ordered j hj hz

section Spec

variable [DecidableEq α] {key : α → κ} {h : Heap α} {x : α} {i : Nat}

/-- An element is put into a slot. -/
theorem put_arr (k : Nat) : (h.put x i).arr k = if k = i then x else h.arr k := by
  simp only [put, Function.update_apply]

theorem put_pos (y : α) : (h.put x i).pos y = if y = x then i else h.pos y := by
  simp only [put, Function.update_apply]

/-- Positions stay right if it was nowhere else. -/
theorem put_tracked (ht : ∀ k < h.cnt, k ≠ i → h.pos (h.arr k) = k)
    (hx : ∀ k < h.cnt, k ≠ i → h.arr k ≠ x) : (h.put x i).Tracked := by
  intro k hk
  have hk : k < h.cnt := hk
  rw [put_pos, put_arr]
  by_cases hki : k = i
  · rw [if_pos hki, if_pos rfl, hki]
  · rw [if_neg hki, if_neg (hx k hk hki)]
    exact ht k hk hki

/-- A new entry. -/
theorem push_spec (hv : Valid key h) (hx : ¬ h.Has x) :
    Valid key (push key x h) ∧ (push key x h).cnt = h.cnt + 1 ∧
      (∀ y, (push key x h).Has y ↔ y = x ∨ h.Has y) ∧
      ∀ y, y ≠ x → ¬ h.Has y → (push key x h).pos y = h.pos y := by
  let h1 : Heap α := put { h with cnt := h.cnt + 1 } x h.cnt
  have hput : ∀ k, h1.arr k = if k = h.cnt then x else h.arr k := fun k => put_arr k
  have ht : h1.Tracked := put_tracked (fun k hk hne => hv.tracked k (by
      have hk : k < h.cnt + 1 := hk
      omega)) fun k hk hne heq => hx ⟨k, by
        have hk : k < h.cnt + 1 := hk
        omega, heq⟩
  have hat : h1.arr h.cnt = x := by rw [hput, if_pos rfl]
  have ho : UpOrdered key h1 h.cnt := by
    constructor
    · intro j hj hz hne
      have hj : j < h.cnt + 1 := hj
      have := parent_lt hz
      rw [hput, hput, if_neg hne, if_neg (by omega)]
      exact hv.ordered j (by omega) hz
    · intro _ j hj hz hp
      have hj : j < h.cnt + 1 := hj
      have := parent_lt hz
      omega
  obtain ⟨hre, hord⟩ := siftUp_spec ht hat (Nat.lt_succ_self _) ho
  have hhas : ∀ y, h1.Has y ↔ y = x ∨ h.Has y := by
    intro y
    constructor
    · rintro ⟨k, hk, rfl⟩
      have hk : k < h.cnt + 1 := hk
      rw [hput]
      split
      · exact Or.inl rfl
      · exact Or.inr ⟨k, by omega, rfl⟩
    · rintro (rfl | ⟨k, hk, rfl⟩)
      · exact ⟨h.cnt, Nat.lt_succ_self _, hat⟩
      · exact ⟨k, Nat.lt_succ_of_lt hk, by rw [hput, if_neg (by omega)]⟩
  refine ⟨⟨hre.tracked, hord⟩, hre.cnt, fun y => (hre.has y).trans (hhas y), fun y hyx hy => ?_⟩
  have hnot : ¬ h1.Has y := fun hy' => ((hhas y).mp hy').elim hyx hy
  rw [push, hre.pos y hnot]
  exact (put_pos y).trans (if_neg hyx)

/-- An entry in the place of one that is not greater. -/
theorem displace_spec (hv : Valid key h) (hx : ¬ h.Has x) (hi : i < h.cnt)
    (hle : key (h.arr i) ≤ key x) :
    Valid key (displace key x h i) ∧ (displace key x h i).cnt = h.cnt ∧
      (∀ y, (displace key x h i).Has y ↔ y = x ∨ h.Has y ∧ y ≠ h.arr i) ∧
      ∀ y, y ≠ x → ¬ h.Has y → (displace key x h i).pos y = h.pos y := by
  have hput : ∀ k, (h.put x i).arr k = if k = i then x else h.arr k := fun k => put_arr k
  have ht : (h.put x i).Tracked :=
    put_tracked (fun k hk _ => hv.tracked k hk) fun k hk _ heq => hx ⟨k, hk, heq⟩
  have hat : (h.put x i).arr i = x := by rw [hput, if_pos rfl]
  have haround := @Ordered.around _ _ _ _ _ _ hv.ordered key hi fun _ _ _ => rfl
  have ho : UpOrdered key (h.put x i) i := by
    constructor
    · intro j hj hz hne
      have hj : j < h.cnt := hj
      rw [hput, hput, if_neg hne]
      by_cases hp : parent j = i
      · rw [if_pos hp]
        have hchild := hv.ordered j hj hz
        rw [hp] at hchild
        exact le_trans hchild hle
      · rw [if_neg hp]
        exact hv.ordered j hj hz
    · intro hz j hj hjz hp
      have hj : j < h.cnt := hj
      have := parent_lt hjz
      have := parent_lt hz
      rw [hput, hput, if_neg (by omega), if_neg (by omega)]
      exact haround.grand hz j hj hjz hp
  obtain ⟨hre, hord⟩ := siftUp_spec ht hat hi ho
  have hhas : ∀ y, (h.put x i).Has y ↔ y = x ∨ h.Has y ∧ y ≠ h.arr i := by
    intro y
    constructor
    · rintro ⟨k, hk, rfl⟩
      have hk : k < h.cnt := hk
      rw [hput]
      split
      · exact Or.inl rfl
      · rename_i hki
        refine Or.inr ⟨⟨k, hk, rfl⟩, fun heq => hki ?_⟩
        rw [← hv.tracked k hk, heq, hv.tracked i hi]
    · rintro (rfl | ⟨⟨k, hk, rfl⟩, hne⟩)
      · exact ⟨i, hi, hat⟩
      · exact ⟨k, hk, by rw [hput, if_neg fun hki : k = i => hne (by rw [hki])]⟩
  refine ⟨⟨hre.tracked, hord⟩, hre.cnt, fun y => (hre.has y).trans (hhas y), fun y hyx hy => ?_⟩
  have hnot : ¬ (h.put x i).Has y := fun hy' => ((hhas y).mp hy').elim hyx fun hy' => hy hy'.1
  rw [displace, hre.pos y hnot, put_pos, if_neg hyx]

/-- An entry whose key is a new one. -/
theorem rekey_spec {key' : α → κ} (hv : Valid key h) (hx : h.Has x)
    (hkey : ∀ y, y ≠ x → key' y = key y) :
    Valid key' (adjust key' x h (h.pos x)) ∧ Rearranged h (adjust key' x h (h.pos x)) := by
  obtain ⟨hlt, hat⟩ := hx.pos_lt hv.tracked
  have haround : OrderedAround key' h (h.pos x) := hv.ordered.around hlt fun j hj hne =>
    hkey _ fun heq => hne (by rw [← heq, hv.tracked j hj])
  obtain ⟨hre, hord⟩ := adjust_spec hv.tracked hat hlt haround
  exact ⟨⟨hre.tracked, hord⟩, hre⟩

/-- An entry less, whatever its key is. -/
theorem remove_spec {key' : α → κ} (hv : Valid key h) (hx : h.Has x)
    (hkey : ∀ y, y ≠ x → key' y = key y) :
    Valid key' (remove key' x h) ∧ (remove key' x h).cnt = h.cnt - 1 ∧
      (∀ y, (remove key' x h).Has y ↔ h.Has y ∧ y ≠ x) ∧
      ∀ y, ¬ h.Has y → (remove key' x h).pos y = h.pos y := by
  obtain ⟨hlt, hat⟩ := hx.pos_lt hv.tracked
  have ht := hv.tracked
  have haround : OrderedAround key' h (h.pos x) := hv.ordered.around hlt fun j hj hne =>
    hkey _ fun heq => hne (by rw [← heq, ht j hj])
  rw [remove]
  split
  · rename_i hinner
    -- the last entry is another one, and it goes to the place of `x`
    have hlast : h.pos (h.arr (h.cnt - 1)) = h.cnt - 1 := ht _ (by omega)
    let h1 : Heap α := put { h with cnt := h.cnt - 1 } (h.arr (h.cnt - 1)) (h.pos x)
    have hput : ∀ k, h1.arr k = if k = h.pos x then h.arr (h.cnt - 1) else h.arr k :=
      fun k => put_arr k
    have ht1 : h1.Tracked := by
      refine put_tracked (fun k hk _ => ht k (Nat.lt_of_lt_of_le hk (Nat.sub_le _ _)))
        fun k hk _ heq => ?_
      have hk : k < h.cnt - 1 := hk
      have heq : h.arr k = h.arr (h.cnt - 1) := heq
      have hk' := ht k (by omega)
      rw [heq, hlast] at hk'
      omega
    have hat1 : h1.arr (h.pos x) = h.arr (h.cnt - 1) := by rw [hput, if_pos rfl]
    have haround1 : OrderedAround key' h1 (h.pos x) := by
      constructor
      · intro j hj hz hne hp
        have hj : j < h.cnt - 1 := hj
        rw [hput, hput, if_neg hne, if_neg hp]
        exact haround.others j (by omega) hz hne hp
      · intro hz j hj hjz hp
        have hj : j < h.cnt - 1 := hj
        have := parent_lt hjz
        have := parent_lt hz
        rw [hput, hput, if_neg (by omega), if_neg (by omega)]
        exact haround.grand hz j (by omega) hjz hp
    obtain ⟨hre, hord⟩ := adjust_spec ht1 hat1 hinner haround1
    have hhas : ∀ y, h1.Has y ↔ h.Has y ∧ y ≠ x := by
      intro y
      constructor
      · rintro ⟨k, hk, rfl⟩
        have hk : k < h.cnt - 1 := hk
        rw [hput]
        split
        · refine ⟨⟨_, by omega, rfl⟩, fun heq => ?_⟩
          rw [heq] at hlast
          omega
        · rename_i hki
          refine ⟨⟨k, by omega, rfl⟩, fun heq => hki ?_⟩
          rw [← heq, ht k (by omega)]
      · rintro ⟨⟨k, hk, rfl⟩, hne⟩
        by_cases hkl : k = h.cnt - 1
        · exact ⟨h.pos x, hinner, by rw [hat1, hkl]⟩
        · have hk' : k < h.cnt - 1 := by omega
          refine ⟨k, hk', ?_⟩
          rw [hput, if_neg]
          intro hkx
          rw [hkx] at hne
          exact hne hat
    refine ⟨⟨hre.tracked, hord⟩, hre.cnt, fun y => (hre.has y).trans (hhas y), fun y hy => ?_⟩
    rw [hre.pos y fun hy' => hy ((hhas y).mp hy').1]
    refine (put_pos y).trans (if_neg fun heq => hy ⟨_, ?_, heq.symm⟩)
    omega
  · rename_i hend
    -- `x` is the last entry
    have hpos : h.pos x = h.cnt - 1 := by omega
    refine ⟨⟨fun k hk => ht k (Nat.lt_of_lt_of_le hk (Nat.sub_le _ _)), fun j hj hz => ?_⟩, rfl,
      fun y => ?_, fun _ _ => rfl⟩
    · have hj : j < h.cnt - 1 := hj
      have := parent_lt hz
      exact haround.others j (by omega) hz (by omega) (by omega)
    · constructor
      · rintro ⟨k, hk, rfl⟩
        have hk : k < h.cnt - 1 := hk
        refine ⟨⟨k, by omega, rfl⟩, fun heq => ?_⟩
        have hk' := ht k (by omega)
        rw [heq] at hk'
        omega
      · rintro ⟨⟨k, hk, rfl⟩, hne⟩
        refine ⟨k, ?_, rfl⟩
        show k < h.cnt - 1
        have hkl : k ≠ h.cnt - 1 := by
          intro hkl
          rw [hkl, ← hpos] at hne
          exact hne hat
        omega

/-- Another entry with the same key, in the same place. -/
theorem replace_spec {z : α} (hv : Valid key h) (hx : h.Has x) (hz : ¬ h.Has z)
    (hkey : key z = key x) :
    Valid key (h.put z (h.pos x)) ∧
      (∀ y, (h.put z (h.pos x)).Has y ↔ y = z ∨ h.Has y ∧ y ≠ x) := by
  obtain ⟨hlt, hat⟩ := hx.pos_lt hv.tracked
  have hput : ∀ k, (h.put z (h.pos x)).arr k = if k = h.pos x then z else h.arr k :=
    fun k => put_arr k
  have hkeys : ∀ k, key ((h.put z (h.pos x)).arr k) = key (h.arr k) := by
    intro k
    rw [hput]
    split
    · rename_i hk
      rw [hk, hat, hkey]
    · rfl
  refine ⟨⟨?_, fun j hj hjz => ?_⟩, fun y => ?_⟩
  · exact put_tracked (fun k hk _ => hv.tracked k hk) fun k hk _ heq => hz ⟨k, hk, heq⟩
  · rw [hkeys, hkeys]
    exact hv.ordered j hj hjz
  · constructor
    · rintro ⟨k, hk, rfl⟩
      have hk : k < h.cnt := hk
      rw [hput]
      split
      · exact Or.inl rfl
      · rename_i hki
        refine Or.inr ⟨⟨k, hk, rfl⟩, fun heq => hki ?_⟩
        rw [← heq, hv.tracked k hk]
    · rintro (rfl | ⟨⟨k, hk, rfl⟩, hne⟩)
      · exact ⟨h.pos x, hlt, by rw [hput, if_pos rfl]⟩
      · refine ⟨k, hk, ?_⟩
        rw [hput, if_neg]
        intro hkx
        rw [hkx] at hne
        exact hne hat

end Spec

end Heap

end Lib
