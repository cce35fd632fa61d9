/-
  The list of znodes to commit (`get_znodes_to_commit`).

  `Tree` says what the pointers of a TNC are like when a commit starts.  `dirtyUnder` is the dirty
  part of a subtree, children before parents; `find_first_dirty` and `find_next_dirty` go through
  it in this order, one znode after the other.

  `getZnodesToCommit` links the znodes through `cnext`; `Listed` is the result, the list of
  `dirtyList` as a circle, with the znodes otherwise unchanged (`Alike`).
-/
import FlashStack.Lib.Linked
import FlashStack.Ubifs.Index

open Lib (Linked)

namespace Ubifs.Index

variable {K : Type}

namespace Info

/-- The znodes that are reached from `c->zroot`. -/
inductive InTree (c : Info K) : Nat → Prop
  | root {a : Nat} : c.zroot.znode = some a → InTree c a
  | child {a x : Nat} {z : Znode K} {zbr : Zbranch K} : InTree c a → c.mem a = some z →
      zbr ∈ z.zbranch → zbr.znode = some x → InTree c x

/-- Parent and child point to each other, levels fit, and all ancestors of a dirty znode are
    dirty. -/
structure Tree (c : Info K) : Prop where
  root {r : Nat} : c.zroot.znode = some r → ∃ z, c.mem r = some z ∧ z.parent = none
  child {a n x : Nat} {z : Znode K} {zbr : Zbranch K} : c.InTree a → c.mem a = some z →
    z.zbranch[n]? = some zbr → zbr.znode = some x →
    ∃ y, c.mem x = some y ∧ y.parent = some a ∧ y.iip = n ∧ y.level + 1 = z.level
  dirtyUp {a x : Nat} {z : Znode K} {zbr : Zbranch K} : c.InTree a → c.mem a = some z →
    zbr ∈ z.zbranch → zbr.znode = some x → c.znDirty x = true → c.znDirty a = true

/-- The dirty children of a znode. -/
def kids (c : Info K) (a : Nat) : List Nat :=
  match c.mem a with
  | none => []
  | some z => z.zbranch.filterMap c.dirtyChild

/-- The dirty znodes down to `n` levels below a dirty one, children before parents. -/
def dirtyUnder (c : Info K) : Nat → Nat → List Nat
  | 0, a => [a]
  | n + 1, a => (c.kids a).flatMap (c.dirtyUnder n) ++ [a]

/-- All dirty znodes of the TNC. -/
def dirtyList (c : Info K) : List Nat :=
  match c.zroot.znode with
  | none => []
  | some r =>
    match c.mem r with
    | none => []
    | some z => if z.dirty then c.dirtyUnder z.level r else []

/-- What `find_next_dirty` finds, if anything. -/
def next (c : Info K) (a : Nat) : Option Nat := (c.findNextDirty a).join

/-- Where the list goes on after a znode. -/
def cnextOf (c : Info K) (a : Nat) : Option Nat := (c.mem a).bind (·.cnext)

theorem znDirty_eq {c : Info K} {a : Nat} {z : Znode K} (h : c.mem a = some z) :
    c.znDirty a = z.dirty := by
  simp [znDirty, h]

/-- The children of a znode that have to be written. -/
theorem kids_eq {c : Info K} {a : Nat} {z : Znode K} (h : c.mem a = some z) :
    c.kids a = z.zbranch.filterMap c.dirtyChild := by
  simp [kids, h]

theorem dirtyChild_eq_some {c : Info K} {zbr : Zbranch K} {x : Nat} :
    c.dirtyChild zbr = some x ↔ zbr.znode = some x ∧ c.znDirty x = true :=
  Option.filter_eq_some_iff

/-- They are in memory and dirty. -/
theorem mem_kids {c : Info K} {a x : Nat} {z : Znode K} (h : c.mem a = some z) :
    x ∈ c.kids a ↔ ∃ zbr ∈ z.zbranch, zbr.znode = some x ∧ c.znDirty x = true := by
  simp only [kids_eq h, List.mem_filterMap, dirtyChild_eq_some]

/-- A znode that is dirty is under itself. -/
theorem mem_dirtyUnder_self (c : Info K) (n a : Nat) : a ∈ c.dirtyUnder n a := by
  cases n <;> simp [dirtyUnder]

namespace Tree

variable {c : Info K} {a x n : Nat} {z y : Znode K} {zbr : Zbranch K}

/-- A child knows its parent, its slot and its level. -/
theorem child_mem (t : c.Tree) (ha : c.InTree a) (hz : c.mem a = some z) (hb : zbr ∈ z.zbranch)
    (hx : zbr.znode = some x) : ∃ y, c.mem x = some y ∧ y.parent = some a ∧
      z.zbranch[y.iip]? = some zbr ∧ y.level + 1 = z.level := by
  obtain ⟨n, hn⟩ := List.mem_iff_getElem?.mp hb
  obtain ⟨y, hy, hp, rfl, hl⟩ := t.child ha hz hn hx
  exact ⟨y, hy, hp, hn, hl⟩

/-- All znodes of the tree exist. -/
theorem live (t : c.Tree) (ha : c.InTree a) : ∃ z, c.mem a = some z := by
  cases ha with
  | root hr =>
    obtain ⟨z, hz, -⟩ := t.root hr
    exact ⟨z, hz⟩
  | child ha hz hb hx =>
    obtain ⟨y, hy, -⟩ := t.child_mem ha hz hb hx
    exact ⟨y, hy⟩

/-- Where a znode is in the tree. -/
theorem place (t : c.Tree) (ha : c.InTree a) (hz : c.mem a = some z) :
    (c.zroot.znode = some a ∧ z.parent = none) ∨ ∃ q zq zbr, c.InTree q ∧ c.mem q = some zq ∧
      z.parent = some q ∧ zq.zbranch[z.iip]? = some zbr ∧ zbr.znode = some a ∧
      z.level + 1 = zq.level := by
  cases ha with
  | root hr =>
    obtain ⟨z', hz', hp⟩ := t.root hr
    obtain rfl := Option.some.inj (hz.symm.trans hz')
    exact .inl ⟨hr, hp⟩
  | @child q _ zq zbr hq hzq hb hx =>
    obtain ⟨z', hz', hp, hi, hl⟩ := t.child_mem hq hzq hb hx
    obtain rfl := Option.some.inj (hz.symm.trans hz')
    exact .inr ⟨q, zq, zbr, hq, hzq, hp, hi, hx, hl⟩

/-- Only the parent of a znode has a branch to it. -/
theorem child_unique (t : c.Tree) (hx : c.InTree x) (hy : c.mem x = some y)
    (hb : y.zbranch[n]? = some zbr) (ha : zbr.znode = some a) (hz : c.mem a = some z) :
    z.parent = some x ∧ z.iip = n := by
  obtain ⟨z', hz', hp, hi, -⟩ := t.child hx hy hb ha
  obtain rfl := Option.some.inj (hz.symm.trans hz')
  exact ⟨hp, hi⟩

/-- A dirty child, as it is found by its parent. -/
theorem of_kid (t : c.Tree) (ha : c.InTree a) (hz : c.mem a = some z) (hx : x ∈ c.kids a) :
    c.InTree x ∧ c.znDirty x = true ∧ ∃ y, c.mem x = some y ∧ y.parent = some a ∧
      y.level + 1 = z.level := by
  obtain ⟨zbr, hb, hbx, hd⟩ := (mem_kids hz).mp hx
  obtain ⟨y, hy, hp, -, hl⟩ := t.child_mem ha hz hb hbx
  exact ⟨.child ha hz hb hbx, hd, y, hy, hp, hl⟩

/-- The children that come after `x`. -/
theorem kids_split (t : c.Tree) (ha : c.InTree a) (hz : c.mem a = some z) {l : List (Zbranch K)}
    (hl : z.zbranch.drop n = zbr :: l) (hx : zbr.znode = some x) :
    ∃ y, c.mem x = some y ∧ y.parent = some a ∧ z.zbranch.drop (y.iip + 1) = l ∧
      y.level + 1 = z.level := by
  have hn : z.zbranch[n]? = some zbr := by
    have := congrArg List.head? hl
    simpa only [List.head?_drop, List.head?_cons] using this
  obtain ⟨y, hy, hp, rfl, hlev⟩ := t.child ha hz hn hx
  refine ⟨y, hy, hp, ?_, hlev⟩
  have := congrArg List.tail hl
  simpa only [List.tail_drop, List.tail_cons] using this

/-- After a child comes the next one of the parent, or the parent itself. -/
theorem findNextDirty_eq (hy : c.mem x = some y) (hp : y.parent = some a) (hz : c.mem a = some z) :
    c.findNextDirty x = ((z.zbranch.drop (y.iip + 1)).findSome? c.dirtyChild).elim (some (some a))
      c.findFirstDirty := by
  simp only [findNextDirty, hy, hp, hz]

/-- First comes the leftmost leaf that is dirty. -/
theorem findFirstDirty_eq (hz : c.mem a = some z) : c.findFirstDirty a =
    if z.level = 0 then some (if z.dirty then some a else none)
    else (z.zbranch.findSome? c.dirtyChild).elim (some (if z.dirty then some a else none))
      (c.findFirst z.level) := by
  simp only [findFirstDirty, hz, findFirst]

/-- Both searches go through a subtree in the order of `dirtyUnder`, and then leave it. -/
theorem linked_dirtyUnder (t : c.Tree) (n : Nat) : ∀ {a : Nat} {z : Znode K}, c.InTree a →
    c.mem a = some z → z.dirty = true → z.level = n →
    ∃ p, c.findFirstDirty a = some (some p) ∧
      Linked c.next (some p) (c.dirtyUnder n a) (c.next a) := by
  induction n with
  | zero =>
    intro a z ha hz hd hl
    refine ⟨a, ?_, rfl, rfl⟩
    rw [findFirstDirty_eq hz, if_pos hl, hd]
    rfl
  | succ n ih =>
    intro a z ha hz hd hl
    -- the rest of the children, and then the parent
    have hrest : ∀ (l : List (Zbranch K)) (i : Nat), z.zbranch.drop i = l →
        ∃ p, (l.findSome? c.dirtyChild).elim (some (some a)) c.findFirstDirty = some (some p) ∧
          Linked c.next (some p) ((l.filterMap c.dirtyChild).flatMap (c.dirtyUnder n) ++ [a])
            (c.next a) := by
      intro l
      induction l with
      | nil =>
        intro i hi
        exact ⟨a, rfl, rfl, rfl⟩
      | cons zbr l ihl =>
        intro i hi
        have htail : z.zbranch.drop (i + 1) = l := by
          have := congrArg List.tail hi
          simpa only [List.tail_drop, List.tail_cons] using this
        obtain ⟨q, hq, hlq⟩ := ihl (i + 1) htail
        cases hx : c.dirtyChild zbr with
        | none =>
          simp only [List.findSome?_cons, List.filterMap_cons, hx]
          exact ⟨q, hq, hlq⟩
        | some x =>
          obtain ⟨hzx, hdx⟩ := dirtyChild_eq_some.mp hx
          obtain ⟨y, hy, hp, hsib, hlev⟩ := t.kids_split ha hz hi hzx
          have hxin : c.InTree x :=
            .child ha hz (List.mem_of_mem_drop (hi ▸ List.mem_cons_self ..)) hzx
          rw [znDirty_eq hy] at hdx
          obtain ⟨p, hfirst, hlink⟩ := ih hxin hy hdx (by omega)
          have hnext : c.next x = some q := by
            rw [next, findNextDirty_eq hy hp hz, hsib, hq]
            rfl
          refine ⟨p, ?_, ?_⟩
          · simp only [List.findSome?_cons, hx]
            exact hfirst
          · simp only [List.filterMap_cons, hx, List.flatMap_cons, List.append_assoc]
            rw [hnext] at hlink
            exact hlink.append hlq
    obtain ⟨p, hp, hlink⟩ := hrest z.zbranch 0 rfl
    refine ⟨p, ?_, ?_⟩
    · rw [findFirstDirty_eq hz, if_neg (by omega), if_pos hd, ← hp]
      cases hs : z.zbranch.findSome? c.dirtyChild with
      | none => rfl
      | some x =>
        -- the rounds that are left are those for the child
        have hx : x ∈ c.kids a := by
          rw [kids_eq hz]
          exact List.mem_of_head? (List.head?_filterMap.trans hs)
        obtain ⟨-, -, y, hy, -, hlev⟩ := t.of_kid ha hz hx
        simp only [Option.elim_some, findFirstDirty, hy, hlev]
    · rw [dirtyUnder, kids_eq hz]
      exact hlink

/-- The search for the first dirty znode and the list of all of them. -/
theorem linked_dirtyList (t : c.Tree) {r : Nat} (hr : c.zroot.znode = some r) :
    c.findFirstDirty r = some c.dirtyList.head? ∧
      Linked c.next c.dirtyList.head? c.dirtyList none := by
  obtain ⟨z, hz, hp⟩ := t.root hr
  have hlast : c.next r = none := by simp [next, findNextDirty, hz, hp]
  cases hd : z.dirty with
  | true =>
    obtain ⟨p, hfirst, hlink⟩ := t.linked_dirtyUnder z.level (.root hr) hz hd rfl
    have hlist : c.dirtyList = c.dirtyUnder z.level r := by simp [dirtyList, hr, hz, hd]
    have hhead : c.dirtyList.head? = some p := by
      rw [hlist]
      cases hl : c.dirtyUnder z.level r with
      | nil => exact absurd (c.mem_dirtyUnder_self z.level r) (by simp [hl])
      | cons a l =>
        rw [hl] at hlink
        exact hlink.1.symm
    rw [hhead, hfirst, ← hlast, hlist]
    exact ⟨rfl, hlink⟩
  | false =>
    have hlist : c.dirtyList = [] := by simp [dirtyList, hr, hz, hd]
    have hnone : z.zbranch.findSome? c.dirtyChild = none := by
      refine List.findSome?_eq_none_iff.mpr fun zbr hb => ?_
      cases hx : c.dirtyChild zbr with
      | none => rfl
      | some x =>
        obtain ⟨hzx, hdx⟩ := dirtyChild_eq_some.mp hx
        have := t.dirtyUp (.root hr) hz hb hzx hdx
        rw [znDirty_eq hz, hd] at this
        cases this
    refine ⟨?_, by rw [hlist]; rfl⟩
    rw [findFirstDirty_eq hz, hnone, hd, hlist]
    split <;> rfl

/-- No znode is on the list twice. -/
theorem dirtyList_nodup (t : c.Tree) : c.dirtyList.Nodup := by
  cases hr : c.zroot.znode with
  | none => simp [dirtyList, hr]
  | some r => exact (t.linked_dirtyList hr).2.nodup

/-- A dirty child is listed before its parent, together with all that is listed under it. -/
theorem dirtyUnder_kid (hx : x ∈ c.kids a) :
    (c.dirtyUnder n x ++ [a]).Sublist (c.dirtyUnder (n + 1) a) := by
  rw [dirtyUnder]
  refine List.Sublist.append ?_ (List.Sublist.refl _)
  exact List.sublist_flatten_of_mem (List.mem_map_of_mem hx)

/-- What is listed under a listed znode is listed with it. -/
theorem dirtyUnder_trans (t : c.Tree) : ∀ (n : Nat) {a : Nat} {z : Znode K}, c.InTree a →
    c.mem a = some z → z.level = n → ∀ {x : Nat} {y : Znode K}, x ∈ c.dirtyUnder n a →
    c.mem x = some y → (c.dirtyUnder y.level x).Sublist (c.dirtyUnder n a) := by
  intro n
  induction n with
  | zero =>
    intro a z ha hz hl x y hx hy
    obtain rfl : x = a := by simpa [dirtyUnder] using hx
    obtain rfl : z = y := Option.some.inj (hz.symm.trans hy)
    rw [hl]
  | succ n ih =>
    intro a z ha hz hl x y hx hy
    rcases List.mem_append.mp hx with hx | hx
    · obtain ⟨b, hb, hxb⟩ := List.mem_flatMap.mp hx
      obtain ⟨hbin, -, w, hw, -, hlev⟩ := t.of_kid ha hz hb
      have hin := ih hbin hw (by omega) hxb hy
      exact (hin.trans (List.sublist_append_left _ _)).trans (dirtyUnder_kid hb)
    · obtain rfl : x = a := by simpa using hx
      obtain rfl : z = y := Option.some.inj (hz.symm.trans hy)
      rw [hl]

/-- The list of a subtree is part of the list. -/
theorem dirtyUnder_sublist (t : c.Tree) (ha : a ∈ c.dirtyList) (hz : c.mem a = some z) :
    (c.dirtyUnder z.level a).Sublist c.dirtyList := by
  cases hr : c.zroot.znode with
  | none => simp [dirtyList, hr] at ha
  | some r =>
    obtain ⟨y, hy, -⟩ := t.root hr
    cases hd : y.dirty with
    | true =>
      simp only [dirtyList, hr, hy, hd, if_true] at ha ⊢
      exact t.dirtyUnder_trans y.level (.root hr) hy rfl ha hz
    | false => simp [dirtyList, hr, hy, hd] at ha

/-- What is on the list is in the tree and dirty. -/
theorem of_dirtyUnder (t : c.Tree) : ∀ (n : Nat) {a : Nat} {z : Znode K}, c.InTree a →
    c.mem a = some z → z.dirty = true → z.level = n → ∀ {x : Nat}, x ∈ c.dirtyUnder n a →
    c.InTree x ∧ c.znDirty x = true := by
  intro n
  induction n with
  | zero =>
    intro a z ha hz hd hl x hx
    obtain rfl : x = a := by simpa [dirtyUnder] using hx
    exact ⟨ha, (znDirty_eq hz).trans hd⟩
  | succ n ih =>
    intro a z ha hz hd hl x hx
    rcases List.mem_append.mp hx with hx | hx
    · obtain ⟨b, hb, hxb⟩ := List.mem_flatMap.mp hx
      obtain ⟨hbin, hbd, w, hw, -, hlev⟩ := t.of_kid ha hz hb
      exact ih hbin hw ((znDirty_eq hw).symm.trans hbd) (by omega) hxb
    · obtain rfl : x = a := by simpa using hx
      exact ⟨ha, (znDirty_eq hz).trans hd⟩

/-- The list has all dirty znodes of the tree, and no other ones. -/
theorem mem_dirtyList (t : c.Tree) : a ∈ c.dirtyList ↔ c.InTree a ∧ c.znDirty a = true := by
  constructor
  · intro ha
    cases hr : c.zroot.znode with
    | none => simp [dirtyList, hr] at ha
    | some r =>
      obtain ⟨z, hz, -⟩ := t.root hr
      cases hd : z.dirty with
      | true =>
        simp only [dirtyList, hr, hz, hd, if_true] at ha
        exact t.of_dirtyUnder z.level (.root hr) hz hd rfl ha
      | false => simp [dirtyList, hr, hz, hd] at ha
  · rintro ⟨ha, hd⟩
    induction ha with
    | root hr =>
      obtain ⟨z, hz, -⟩ := t.root hr
      rw [znDirty_eq hz] at hd
      simp only [dirtyList, hr, hz, hd, if_true]
      exact c.mem_dirtyUnder_self _ _
    | child ha hz hb hx ih =>
      obtain ⟨y, hy, -, -, hlev⟩ := t.child_mem ha hz hb hx
      have hmem := ih (t.dirtyUp ha hz hb hx hd)
      have hkid := (mem_kids hz).mpr ⟨_, hb, hx, hd⟩
      exact (t.dirtyUnder_sublist hmem hz).subset (by
        rw [← hlev]
        exact (dirtyUnder_kid hkid).subset (List.mem_append_left _ (c.mem_dirtyUnder_self _ _)))

/-- Children are written before their parents. -/
theorem kid_before (t : c.Tree) (ha : c.InTree a) (hz : c.mem a = some z) (hb : zbr ∈ z.zbranch)
    (hx : zbr.znode = some x) (hd : c.znDirty x = true) : [x, a].Sublist c.dirtyList := by
  obtain ⟨y, -, -, -, hlev⟩ := t.child_mem ha hz hb hx
  have hmem := t.mem_dirtyList.mpr ⟨ha, t.dirtyUp ha hz hb hx hd⟩
  have hkid := (mem_kids hz).mpr ⟨_, hb, hx, hd⟩
  have hself : [x, a].Sublist (c.dirtyUnder y.level x ++ [a]) :=
    (List.singleton_sublist.mpr (c.mem_dirtyUnder_self _ _)).append (List.Sublist.refl [a])
  have hunder := t.dirtyUnder_sublist hmem hz
  rw [← hlev] at hunder
  exact (hself.trans (dirtyUnder_kid hkid)).trans hunder

end Tree

/-! ## Marking -/

/-- A znode without what the making of the list leaves in it. -/
def unlisted (z : Znode K) : Znode K := { z with cow := false, cnext := none, alt := false }

/-- Both memories have the same znodes, up to the marks of the list. -/
def Alike (c c' : Info K) : Prop := ∀ a, (c'.mem a).map unlisted = (c.mem a).map unlisted

namespace Alike

variable {c c' : Info K}

/-- The tree is the same but for the list. -/
theorem znode (h : Alike c c') {a : Nat} {z : Znode K} (hz : c.mem a = some z) :
    ∃ z', c'.mem a = some z' ∧ z'.parent = z.parent ∧ z'.iip = z.iip ∧ z'.level = z.level ∧
      z'.dirty = z.dirty ∧ z'.zbranch = z.zbranch := by
  have ha := h a
  rw [hz] at ha
  cases hz' : c'.mem a with
  | none =>
    rw [hz'] at ha
    cases ha
  | some z' =>
    rw [hz'] at ha
    have h : unlisted z' = unlisted z := Option.some.inj ha
    exact ⟨z', rfl, (congrArg Znode.parent h :), (congrArg Znode.iip h :),
      (congrArg Znode.level h :), (congrArg Znode.dirty h :), (congrArg Znode.zbranch h :)⟩

theorem none (h : Alike c c') {a : Nat} (hz : c.mem a = none) : c'.mem a = none := by
  have ha := h a
  rw [hz] at ha
  exact Option.map_eq_none_iff.mp ha

theorem znDirty (h : Alike c c') (a : Nat) : c'.znDirty a = c.znDirty a := by
  cases hz : c.mem a with
  | none => simp [Info.znDirty, hz, h.none hz]
  | some z =>
    obtain ⟨z', hz', -, -, -, hd, -⟩ := h.znode hz
    simp [Info.znDirty, hz, hz', hd]

theorem dirtyChild (h : Alike c c') : c'.dirtyChild = c.dirtyChild := by
  funext zbr
  have hd : c'.znDirty = c.znDirty := funext h.znDirty
  simp only [Info.dirtyChild, hd]

theorem findFirst (h : Alike c c') : c'.findFirst = c.findFirst := by
  funext n
  induction n with
  | zero => rfl
  | succ n ih =>
    funext a
    cases hz : c.mem a with
    | none => simp [Info.findFirst, hz, h.none hz]
    | some z =>
      obtain ⟨z', hz', -, -, hl, hd, hb⟩ := h.znode hz
      simp only [Info.findFirst, hz, hz', hl, hd, hb, ih, h.dirtyChild]

/-- The search is the same in both. -/
theorem findNextDirty (h : Alike c c') : c'.findNextDirty = c.findNextDirty := by
  have hfirst : c'.findFirstDirty = c.findFirstDirty := by
    funext a
    cases hz : c.mem a with
    | none => simp [findFirstDirty, hz, h.none hz]
    | some z =>
      obtain ⟨z', hz', -, -, hl, -⟩ := h.znode hz
      simp only [findFirstDirty, hz, hz', hl, h.findFirst]
  funext a
  cases hz : c.mem a with
  | none => simp [Info.findNextDirty, hz, h.none hz]
  | some z =>
    obtain ⟨z', hz', hp, hi, -⟩ := h.znode hz
    cases hzp : z.parent with
    | none => simp [Info.findNextDirty, hz, hz', hp, hzp]
    | some p =>
      cases hpz : c.mem p with
      | none => simp [Info.findNextDirty, hz, hz', hp, hzp, hpz, h.none hpz]
      | some zp =>
        obtain ⟨zp', hpz', -, -, -, -, hb⟩ := h.znode hpz
        simp only [Info.findNextDirty, hz, hz', hp, hi, hzp, hpz, hpz', hb, h.dirtyChild, hfirst]

theorem live (h : Alike c c') (t : c.Tree) {a : Nat} (ha : c.InTree a) :
    ∃ z, c'.mem a = some z := by
  obtain ⟨z, hz⟩ := t.live ha
  obtain ⟨z', hz', -⟩ := h.znode hz
  exact ⟨z', hz'⟩

/-- Changing how a znode is listed does not change the tree. -/
theorem modify (h : Alike c c') (a : Nat) {f : Znode K → Znode K}
    (hf : ∀ z, unlisted (f z) = unlisted z) : Alike c (c'.modify a f) := by
  intro x
  by_cases hx : x = a
  · subst hx
    rw [← h x]
    cases hm : c'.mem x <;> simp [Info.modify, hm, hf]
  · simpa [Info.modify, hx] using h x

theorem symm (h : Alike c c') : Alike c' c := fun a => (h a).symm

/-- So the same znodes are in it. -/
theorem inTree (h : Alike c c') (hr : c'.zroot = c.zroot) {a : Nat} (ha : c.InTree a) :
    c'.InTree a := by
  induction ha with
  | root hroot => exact .root (hr ▸ hroot)
  | child _ hz hb hx ih =>
    obtain ⟨z', hz', -, -, -, -, hbs⟩ := h.znode hz
    exact .child ih hz' (hbs ▸ hb) hx

/-- The list does not change the tree. -/
theorem tree (h : Alike c c') (hr : c'.zroot = c.zroot) (t : c.Tree) : c'.Tree where
  root := fun hroot => by
    obtain ⟨z, hz, hp⟩ := t.root (hr ▸ hroot)
    obtain ⟨z', hz', hp', -⟩ := h.znode hz
    exact ⟨z', hz', hp'.trans hp⟩
  child := fun ha hz hb hx => by
    obtain ⟨z₀, hz₀, -, -, hl₀, -, hb₀⟩ := h.symm.znode hz
    obtain ⟨y, hy, hp, hi, hl⟩ := t.child (h.symm.inTree hr.symm ha) hz₀ (hb₀ ▸ hb) hx
    obtain ⟨y', hy', hp', hi', hl', -⟩ := h.znode hy
    exact ⟨y', hy', hp'.trans hp, hi'.trans hi, by rw [hl', hl, hl₀]⟩
  dirtyUp := fun ha hz hb hx hd => by
    obtain ⟨z₀, hz₀, -, -, -, -, hb₀⟩ := h.symm.znode hz
    rw [h.znDirty] at hd ⊢
    exact t.dirtyUp (h.symm.inTree hr.symm ha) hz₀ (hb₀ ▸ hb) hx hd

end Alike

/-- The marks of the list. -/
def mark (q : Nat) (z : Znode K) : Znode K := { z with cow := true, alt := false, cnext := some q }

/-- The znodes of `l` were marked, and linked to a list that ends at `first`. -/
structure Marked (c : Info K) (first : Nat) (l : List Nat) (c' : Info K) : Prop where
  same : c' = { c with mem := c'.mem }
  others {a : Nat} : a ∉ l → c'.mem a = c.mem a
  marked {a : Nat} {z : Znode K} : a ∈ l → c.mem a = some z → ∃ q, c'.mem a = some (mark q z)
  linked : Linked c'.cnextOf l.head? l (some first)

/-- Other znodes stay as they are. -/
theorem mem_modify {c : Info K} {a x : Nat} {f : Znode K → Znode K} (h : x ≠ a) :
    (c.modify a f).mem x = c.mem x := by
  simp [modify, h]

/-- The znode is changed. -/
theorem mem_modify_self {c : Info K} {a : Nat} {z : Znode K} {f : Znode K → Znode K}
    (h : c.mem a = some z) : (c.modify a f).mem a = some (f z) := by
  simp [modify, h]

theorem modify_modify (c : Info K) (a : Nat) (f g : Znode K → Znode K) :
    (c.modify a f).modify a g = c.modify a fun z => g (f z) := by
  cases h : c.mem a <;> simp [modify, h]

/-- The search does not fail at a dirty znode. -/
theorem Tree.findNextDirty_eq_next {c : Info K} {a : Nat} (t : c.Tree) (ha : c.InTree a) :
    c.findNextDirty a = some (c.next a) := by
  suffices h : ∃ q, c.findNextDirty a = some q by
    obtain ⟨q, hq⟩ := h
    rw [next, hq]
    rfl
  cases ha with
  | root hr =>
    obtain ⟨z, hz, hp⟩ := t.root hr
    exact ⟨none, by simp [findNextDirty, hz, hp]⟩
  | @child p _ z zbr hp hz hb hx =>
    obtain ⟨y, hy, hyp, -, -⟩ := t.child_mem hp hz hb hx
    rw [findNextDirty_eq hy hyp hz]
    cases hs : (z.zbranch.drop (y.iip + 1)).findSome? c.dirtyChild with
    | none => exact ⟨_, rfl⟩
    | some b =>
      obtain ⟨zbr, hzbr, hb⟩ := List.exists_of_findSome?_eq_some hs
      obtain ⟨hzb, hdb⟩ := dirtyChild_eq_some.mp hb
      have hin := InTree.child hp hz (List.mem_of_mem_drop hzbr) hzb
      obtain ⟨w, hw⟩ := t.live hin
      rw [znDirty_eq hw] at hdb
      obtain ⟨q, hq, -⟩ := t.linked_dirtyUnder w.level hin hw hdb rfl
      exact ⟨_, hq⟩

/-- One round of the loop of `get_znodes_to_commit`. -/
theorem collect_succ {c c' : Info K} (t : c.Tree) (hc : Alike c c') {a : Nat} (ha : c.InTree a)
    (first cnt fuel : Nat) : collect first (fuel + 1) a cnt c' =
      (c.next a).elim (some (cnt, c'.modify a (mark first))) fun b =>
        collect first fuel b (cnt + 1) (c'.modify a (mark b)) := by
  have hc₁ := hc.modify a (f := fun z => { z with cow := true, alt := false }) fun _ => rfl
  rw [collect, hc₁.findNextDirty, t.findNextDirty_eq_next ha]
  cases c.next a with
  | none => simp only [modify_modify, Option.elim_none]; rfl
  | some b => simp only [modify_modify, Option.elim_some]; rfl

/-- A list of one. -/
theorem Marked.single {c : Info K} {a first : Nat} (ha : ∃ z, c.mem a = some z) :
    Marked c first [a] (c.modify a (mark first)) where
  same := rfl
  others := fun hx => mem_modify (by simpa using hx)
  marked := fun hx hz => by
    rw [List.mem_singleton.mp hx] at hz ⊢
    exact ⟨first, mem_modify_self hz⟩
  linked := by
    obtain ⟨z, hz⟩ := ha
    refine ⟨rfl, ?_⟩
    show cnextOf _ a = some first
    rw [cnextOf, mem_modify_self hz]
    rfl

/-- One more znode at the front. -/
theorem Marked.cons {c c' : Info K} {a b first : Nat} {l : List Nat} (ha : ∃ z, c.mem a = some z)
    (hal : a ∉ b :: l) (h : Marked (c.modify a (mark b)) first (b :: l) c') :
    Marked c first (a :: b :: l) c' where
  same := h.same
  others := fun hx => by
    rw [List.mem_cons, not_or] at hx
    rw [h.others hx.2, mem_modify hx.1]
  marked := fun {x z} hx hz => by
    rcases List.mem_cons.mp hx with rfl | hx
    · exact ⟨b, (h.others hal).trans (mem_modify_self hz)⟩
    · have hxa : x ≠ a := fun he => hal (he ▸ hx)
      exact h.marked hx ((mem_modify hxa).trans hz)
  linked := by
    obtain ⟨z, hz⟩ := ha
    refine ⟨rfl, ?_⟩
    have : c'.cnextOf a = some b := by
      rw [cnextOf, h.others hal, mem_modify_self hz]
      rfl
    rw [this]
    exact h.linked

/-- The loop of `get_znodes_to_commit`, from one znode of the list on. -/
theorem collect_marked {c : Info K} (t : c.Tree) (first fuel : Nat) (l : List Nat) :
    ∀ (a cnt : Nat) (c' : Info K), Alike c c' → Linked c.next (some a) (a :: l) none →
      (∀ x ∈ a :: l, c.InTree x) → ∃ c'', Marked c' first (a :: l) c'' ∧
        collect first (fuel + (l.length + 1)) a cnt c' = some (cnt + l.length, c'') := by
  induction l with
  | nil =>
    intro a cnt c' hc hl hin
    have ha := hin a (List.mem_cons_self ..)
    have hnext : c.next a = none := hl.2
    refine ⟨_, .single (hc.live t ha), ?_⟩
    show collect first (fuel + 1) a cnt c' = _
    rw [collect_succ t hc ha, hnext]
    rfl
  | cons b l ih =>
    intro a cnt c' hc hl hin
    have ha := hin a (List.mem_cons_self ..)
    have hnext : c.next a = some b := hl.2.1
    have hrest : Linked c.next (some b) (b :: l) none := hnext ▸ hl.2
    obtain ⟨c'', hmark, hrun⟩ := ih b (cnt + 1) (c'.modify a (mark b)) (hc.modify a fun _ => rfl)
      hrest fun x hx => hin x (List.mem_cons_of_mem a hx)
    refine ⟨c'', hmark.cons (hc.live t ha) (List.nodup_cons.mp hl.nodup).1, ?_⟩
    show collect first (fuel + (l.length + 1) + 1) a cnt c' = _
    rw [collect_succ t hc ha, hnext, Option.elim_some, hrun, List.length_cons, Nat.add_assoc,
      Nat.add_comm 1]

/-- Nothing is dirty. -/
theorem getZnodesToCommit_nil {c : Info K} (t : c.Tree) (h : c.dirtyList = []) (fuel : Nat) :
    c.getZnodesToCommit fuel = some (0, { c with cnext := none, enext := none }) := by
  cases hr : c.zroot.znode with
  | none => simp only [getZnodesToCommit, hr]
  | some r =>
    obtain ⟨hfirst, -⟩ := t.linked_dirtyList hr
    rw [h] at hfirst
    simp only [getZnodesToCommit, hr, hfirst, List.head?_nil]

/-- `get_znodes_to_commit` makes a circular list of all dirty znodes, and counts them. -/
theorem getZnodesToCommit_cons {c : Info K} (t : c.Tree) {first : Nat} {rest : List Nat}
    (h : c.dirtyList = first :: rest) {fuel : Nat} (hfuel : c.dirtyList.length ≤ fuel) :
    ∃ c', c.getZnodesToCommit fuel = some (c.dirtyList.length, c') ∧
      Marked { c with cnext := some first, enext := some first } first c.dirtyList c' := by
  cases hr : c.zroot.znode with
  | none => simp [dirtyList, hr] at h
  | some r =>
    obtain ⟨hfirst, hlink⟩ := t.linked_dirtyList hr
    have hin : ∀ x ∈ c.dirtyList, c.InTree x := fun x hx => (t.mem_dirtyList.mp hx).1
    rw [h] at hfirst hlink hin hfuel
    obtain ⟨extra, rfl⟩ := Nat.exists_eq_add_of_le' hfuel
    obtain ⟨c', hmark, hrun⟩ := collect_marked t first extra rest first 1
      { c with cnext := some first, enext := some first } (fun _ => rfl) hlink hin
    rw [h]
    refine ⟨c', ?_, hmark⟩
    simp only [getZnodesToCommit, hr, hfirst, List.head?_cons, List.length_cons]
    rw [hrun, Nat.add_comm 1]

end Info

end Ubifs.Index
