/-
  The TNC stays a search tree when it is changed.

  What may stand at the end of a path is said by the keys in the znodes along it (`Ups.Fits`).  The lookup
  has gone down towards the key, so that a new branch fits there, except that the first keys of the znodes
  above may be too high; these are corrected (`correctParentKeys_ok`).  A split leaves two znodes for one
  and goes on in the parent (`insertUp_ok`).  Removing makes no key fit worse.
-/
import FlashStack.Ubifs.TncUpdate
import FlashStack.Ubifs.TncHasNode

namespace Ubifs.Tnc

open Lib

variable {ε : Type} {c : Zroot ε} {key : Key} {level fanout : Nat}

/-! ## Branches of a znode -/

/-- A branch and what is below it. -/
def Kid (zbr : Child ε (Znode ε level)) : Prop :=
  Ordered level zbr.znode ∧ ∀ k ∈ keys level zbr.znode, zbr.key ≤ k

/-- All of the one subtree is in front of the other. -/
def Before (a b : Child ε (Znode ε level)) : Prop :=
  ∀ k ∈ a.key :: keys level a.znode, Ahead Hashed k b.key

/-- What it takes for a znode to be in order. -/
theorem ordered_succ {znode : List (Child ε (Znode ε level))} : @Ordered ε (level + 1) znode ↔
    znode ≠ [] ∧ (∀ zbr ∈ znode, Kid zbr) ∧ znode.Pairwise Before := Iff.rfl

/-- The keys of a znode, and those below it. -/
theorem mem_keys_succ {znode : List (Child ε (Znode ε level))} {k : Key} :
    k ∈ @keys ε (level + 1) znode ↔ ∃ zbr ∈ znode, k ∈ zbr.key :: keys level zbr.znode :=
  List.mem_flatMap

/-- Some branches for one that was there. -/
theorem ordered_replace {pre mid post : List (Child ε (Znode ε level))} {zbr : Child ε (Znode ε level)}
    (h : @Ordered ε (level + 1) (pre ++ zbr :: post)) (hne : mid ≠ []) (hkids : ∀ m ∈ mid, Kid m)
    (hpairs : mid.Pairwise Before) (hlow : ∀ m ∈ mid, zbr.key ≤ m.key)
    (hhigh : ∀ m ∈ mid, ∀ b ∈ post, Before m b) : @Ordered ε (level + 1) (pre ++ (mid ++ post)) := by
  obtain ⟨-, hall, hold⟩ := ordered_succ.mp h
  obtain ⟨hpre, htail, hcross⟩ := List.pairwise_append.mp hold
  obtain ⟨-, hpost⟩ := List.pairwise_cons.mp htail
  refine ordered_succ.mpr ⟨by simp [hne], ?_, List.pairwise_append.mpr ⟨hpre, ?_, ?_⟩⟩
  · intro x hx
    rcases List.mem_append.mp hx with hx | hx
    · exact hall x (List.mem_append_left _ hx)
    · rcases List.mem_append.mp hx with hx | hx
      · exact hkids x hx
      · exact hall x (List.mem_append_right _ (List.mem_cons_of_mem _ hx))
  · exact List.pairwise_append.mpr ⟨hpairs, hpost, hhigh⟩
  · intro a ha b hb
    rcases List.mem_append.mp hb with hb | hb
    · intro k hk
      exact (hcross a ha zbr List.mem_cons_self k hk).trans_le (hlow b hb)
    · exact hcross a ha b (List.mem_cons_of_mem _ hb)

/-- A branch is changed in place. -/
theorem modify_split {α : Type} {l : List α} {i : Nat} {x : α} (h : l[i]? = some x) (f : α → α) :
    l.modify i f = l.take i ++ f x :: l.drop (i + 1) := by
  obtain ⟨hi, rfl⟩ := List.getElem?_eq_some_iff.mp h
  exact List.modify_eq_take_cons_drop hi

/-! ## Paths -/

/-- The key may be in the znode at the end of the path. -/
def Ups.Fits (key : Key) : {level : Nat} → Ups ε level → Prop
  | _, .root => True
  | _, .child zp iip ups => (∀ zbr, zp[iip]? = some zbr → zbr.key ≤ key) ∧
    (∀ b ∈ List.drop (iip + 1) zp, Ahead Hashed key b.key) ∧ ups.Fits key

/-- The znodes of the path are in order, whatever is at its end. -/
def Ups.Ok : {level : Nat} → Ups ε level → Prop
  | _, .root => True
  | level, .child zp iip ups => Ordered (level + 1) zp ∧ iip < List.length zp ∧
    (∀ k ∈ keys (level + 1) zp, ups.Fits k) ∧ ups.Ok

/-- Every znode has room for its branches, and is in memory or can be read. -/
def Small (fanout : Nat) : (level : Nat) → Znode ε level → Prop
  | 0, znode => List.length znode ≤ fanout
  | level + 1, znode => List.length znode ≤ fanout ∧
    ∀ zbr ∈ (znode : List (Child ε (Znode ε level))), zbr.fault = none ∧ Small fanout level zbr.znode

/-- No znode has more children than the fanout allows. -/
def Ups.Small (fanout : Nat) : {level : Nat} → Ups ε level → Prop
  | _, .root => True
  | level, .child zp _ ups => Tnc.Small fanout (level + 1) zp ∧ ups.Small fanout

/-- The same of the whole tree, and the root can be loaded. -/
def Zroot.Small (fanout : Nat) (c : Zroot ε) : Prop :=
  c.fault = none ∧ Tnc.Small fanout c.level c.znode

/-- On a path all is in order. -/
theorem At.ok {znode : Znode ε level} {ups : Ups ε level} (h : At c znode ups) (hc : c.Ordered) :
    ups.Ok ∧ ∀ k ∈ keys level znode, ups.Fits k := by
  induction h with
  | root => exact ⟨trivial, fun _ _ => trivial⟩
  | @child level iip zp ups zbr parent slot ih =>
    obtain ⟨hok, hfits⟩ := ih
    have hord := parent.ordered hc
    obtain ⟨hlt, -⟩ := List.getElem?_eq_some_iff.mp slot
    refine ⟨⟨hord, hlt, hfits, hok⟩, ?_⟩
    intro k hk
    obtain ⟨-, hkids, hpairs⟩ := ordered_succ.mp hord
    refine ⟨?_, ?_, hfits k (mem_keys_succ.mpr ⟨zbr, List.mem_of_getElem? slot, List.mem_cons_of_mem _ hk⟩)⟩
    · intro zbr' hzbr'
      obtain rfl := Option.some.inj (slot.symm.trans hzbr')
      exact (hkids zbr (List.mem_of_getElem? slot)).2 k hk
    · intro b hb
      rw [split_getElem? slot] at hpairs
      have hbehind := (List.pairwise_cons.mp (List.pairwise_append.mp hpairs).2.1).1
      exact hbehind b hb k (List.mem_cons_of_mem _ hk)

/-- And no znode is too large. -/
theorem At.small {znode : Znode ε level} {ups : Ups ε level} (h : At c znode ups)
    (hc : c.Small fanout) : ups.Small fanout ∧ Small fanout level znode := by
  induction h with
  | root => exact ⟨trivial, hc.2⟩
  | child parent slot ih =>
    exact ⟨⟨ih.2, ih.1⟩, (ih.2.2 _ (List.mem_of_getElem? slot)).2⟩

/-- The parent, with another znode at the end of the path. -/
theorem Ups.Ok.replace {zp : Znode ε (level + 1)} {iip : Nat} {ups : Ups ε (level + 1)}
    {mid : List (Child ε (Znode ε level))} {zbr : Child ε (Znode ε level)}
    (hok : (Ups.child zp iip ups).Ok) (hslot : zp[iip]? = some zbr) (hne : mid ≠ [])
    (hkids : ∀ m ∈ mid, Kid m) (hpairs : mid.Pairwise Before) (hlow : ∀ m ∈ mid, zbr.key ≤ m.key)
    (hfits : ∀ m ∈ mid, ∀ k ∈ m.key :: keys level m.znode, (Ups.child zp iip ups).Fits k) :
    @Ordered ε (level + 1) (zp.take iip ++ (mid ++ zp.drop (iip + 1))) ∧
      ∀ k ∈ @keys ε (level + 1) (zp.take iip ++ (mid ++ zp.drop (iip + 1))), ups.Fits k := by
  obtain ⟨hord, hlt, hold, -⟩ := hok
  constructor
  · have hsplit : zp = zp.take iip ++ zbr :: zp.drop (iip + 1) := split_getElem? hslot
    refine ordered_replace (hsplit ▸ hord) hne hkids hpairs hlow ?_
    intro m hm b hb k hk
    exact (hfits m hm k hk).2.1 b hb
  · intro k hk
    obtain ⟨x, hx, hkx⟩ := mem_keys_succ.mp hk
    rcases List.mem_append.mp hx with hx | hx
    · exact hold k (mem_keys_succ.mpr ⟨x, List.mem_of_mem_take hx, hkx⟩)
    · rcases List.mem_append.mp hx with hx | hx
      · exact (hfits x hx k hkx).2.2
      · exact hold k (mem_keys_succ.mpr ⟨x, List.mem_of_mem_drop hx, hkx⟩)

/-- The key of the branch fits too. -/
theorem Ups.Ok.key_fits {zp : Znode ε (level + 1)} {iip : Nat} {ups : Ups ε (level + 1)}
    {zbr : Child ε (Znode ε level)} (hok : (Ups.child zp iip ups).Ok) (hslot : zp[iip]? = some zbr) :
    (Ups.child zp iip ups).Fits zbr.key := by
  obtain ⟨hord, -, hold, -⟩ := hok
  refine ⟨?_, ?_, hold _ (mem_keys_succ.mpr ⟨zbr, List.mem_of_getElem? hslot, List.mem_cons_self⟩)⟩
  · intro x hx
    obtain rfl := Option.some.inj (hslot.symm.trans hx)
    exact le_refl _
  · intro b hb
    have hpairs := (ordered_succ.mp hord).2.2
    rw [split_getElem? hslot] at hpairs
    exact (List.pairwise_cons.mp (List.pairwise_append.mp hpairs).2.1).1 b hb _ List.mem_cons_self

/-- A branch is replaced by others. -/
theorem Ups.Small.replace {zp : Znode ε (level + 1)} {iip : Nat} {ups : Ups ε (level + 1)}
    {mid : List (Child ε (Znode ε level))} (hsmall : (Ups.child zp iip ups).Small fanout)
    (hmid : ∀ m ∈ mid, m.fault = none ∧ Tnc.Small fanout level m.znode) :
    ∀ x ∈ (zp.take iip ++ (mid ++ zp.drop (iip + 1)) : List (Child ε (Znode ε level))),
      x.fault = none ∧ Tnc.Small fanout level x.znode := by
  intro x hx
  rcases List.mem_append.mp hx with hx | hx
  · exact hsmall.1.2 x (List.mem_of_mem_take hx)
  · rcases List.mem_append.mp hx with hx | hx
    · exact hmid x hx
    · exact hsmall.1.2 x (List.mem_of_mem_drop hx)

/-- The branches of level zero of a parent. -/
theorem leaves_replace {zp : Znode ε (level + 1)} {iip : Nat} {ups : Ups ε (level + 1)}
    {mid : List (Child ε (Znode ε level))} :
    ups.left ++ @leaves ε (level + 1) (zp.take iip ++ (mid ++ zp.drop (iip + 1))) ++ ups.right =
      (Ups.child zp iip ups).left ++ mid.flatMap (fun zbr => leaves level zbr.znode) ++
        (Ups.child zp iip ups).right := by
  have hleaves : @leaves ε (level + 1) (zp.take iip ++ (mid ++ zp.drop (iip + 1))) =
      List.flatMap (fun zbr => leaves level zbr.znode) (zp.take iip ++ (mid ++ zp.drop (iip + 1))) := rfl
  rw [hleaves, List.flatMap_append, List.flatMap_append]
  simp only [Ups.left, Ups.right, List.append_assoc]

/-- A tree that is in order, small, and has these branches. -/
structure Zroot.Is (fanout : Nat) (l : List Zbranch) (c : Zroot ε) : Prop where
  ordered : c.Ordered
  small : c.Small fanout
  leaves : c.leaves = l

/-- The path is closed again, around a new znode. -/
theorem Ups.plug_is {level : Nat} {ups : Ups ε level} {znode : Znode ε level} (hok : ups.Ok)
    (hsmall : ups.Small fanout) (hz : Ordered level znode) (hzs : Tnc.Small fanout level znode)
    (hfits : ∀ k ∈ keys level znode, ups.Fits k) :
    (ups.plug znode).Is fanout (ups.left ++ leaves level znode ++ ups.right) := by
  induction ups with
  | root => exact ⟨hz, ⟨rfl, hzs⟩, (List.append_nil _).symm⟩
  | @child level zp iip ups ih =>
    obtain ⟨zbr, hslot⟩ : ∃ zbr, zp[iip]? = some zbr := ⟨_, List.getElem?_eq_getElem hok.2.1⟩
    have hmod : List.modify zp iip (fun zbr => { zbr with znode }) =
        zp.take iip ++ ([{ zbr with znode }] ++ zp.drop (iip + 1)) := modify_split hslot _
    have hkey : ∀ k ∈ keys level znode, zbr.key ≤ k := fun k hk => (hfits k hk).1 zbr hslot
    have hkeyfits := hok.key_fits hslot
    obtain ⟨hord, hup⟩ := hok.replace hslot (List.cons_ne_nil { zbr with znode } [])
      (List.forall_mem_singleton.mpr ⟨hz, hkey⟩) (List.pairwise_singleton _ _)
      (List.forall_mem_singleton.mpr (le_refl _))
      (List.forall_mem_singleton.mpr (List.forall_mem_cons.mpr ⟨hkeyfits, hfits⟩))
    have hkids := @Ups.Small.replace ε level fanout zp iip ups [{ zbr with znode }] hsmall
      (List.forall_mem_singleton.mpr ⟨(hsmall.1.2 zbr (List.mem_of_getElem? hslot)).1, hzs⟩)
    have hlen : (zp.take iip ++ ([{ zbr with znode }] ++ zp.drop (iip + 1))).length ≤ fanout := by
      rw [← hmod, List.length_modify]
      exact hsmall.1.1
    have hres := ih hok.2.2.2 hsmall.2 hord ⟨hlen, hkids⟩ hup
    rw [leaves_replace, List.flatMap_singleton] at hres
    rw [Ups.plug, hmod]
    exact hres

/-! ## Splitting -/

section Split

variable {α : Type} {znode : List α} {zbr : α} {n k : Nat} {keyOf : α → Key} {appending : Bool}

/-- A branch is inserted into the first part. -/
theorem insertZbranch_low (h : n ≤ k) :
    insertZbranch (znode.take k) zbr n ++ znode.drop k = insertZbranch znode zbr n := by
  unfold insertZbranch
  have hdrop : (znode.take k).drop n ++ znode.drop k = znode.drop n := by
    have hsplit := List.take_append_drop (k - n) (znode.drop n)
    rwa [List.drop_drop, Nat.add_sub_cancel' h, ← List.drop_take] at hsplit
  rw [List.take_take, Nat.min_eq_left h, List.append_assoc, List.cons_append, hdrop]

/-- Or into the second one. -/
theorem insertZbranch_high (h : k ≤ n) :
    znode.take k ++ insertZbranch (znode.drop k) zbr (n - k) = insertZbranch znode zbr n := by
  unfold insertZbranch
  rw [List.drop_drop, Nat.add_sub_cancel' h, ← List.append_assoc]
  congr 1
  rw [← List.take_append_drop k (znode.take n), List.take_take, Nat.min_eq_left h, List.drop_take]

theorem length_insertZbranch : (insertZbranch znode zbr n).length = znode.length + 1 := by
  unfold insertZbranch
  have hlen := congrArg List.length (List.take_append_drop n znode)
  rw [List.length_append] at hlen
  rw [List.length_append, List.length_cons]
  omega

/-- What a split leaves. -/
structure Split.Right (fanout n : Nat) (l : List α) (s : Split α) : Prop where
  all : s.znode ++ s.zn = l
  znode_ne : s.znode ≠ []
  zn_ne : s.zn ≠ []
  znode_le : s.znode.length ≤ fanout
  zn_le : s.zn.length ≤ fanout
  lowest : s.lowest = true ↔ n = 0

/-- When a split is in the middle of the new branch. -/
theorem checkSplit_inside (h : checkSplit fanout keyOf znode zbr n = true) :
    (fanout + 1) / 2 ≤ n ∧ n < znode.length := by
  unfold checkSplit at h
  split at h
  · rename_i hhalf
    split at h
    · rename_i hslot
      obtain ⟨hlt, -⟩ := List.getElem?_eq_some_iff.mp hslot
      exact ⟨hhalf, hlt⟩
    · cases h
  · cases h

/-- Both parts of a split are small enough. -/
theorem split_right (keyOf : α → Key) (level : Nat) (zbr : α) (n : Nat) (appending : Bool)
    (hfanout : 3 ≤ fanout) (hlen : znode.length = fanout) :
    (split fanout keyOf level znode zbr n appending).Right fanout n (insertZbranch znode zbr n) := by
  have hne : ∀ l : List α, ∀ m, insertZbranch l zbr m ≠ [] := by
    intro l m h
    have hl := @length_insertZbranch _ l zbr m
    rw [h] at hl
    cases hl
  unfold split
  dsimp only
  generalize isAppending fanout keyOf level znode zbr n appending = appending'
  by_cases hcheck : (isChecked fanout keyOf level zbr n appending &&
      checkSplit fanout keyOf znode zbr n) = true
  · -- behind the data keys of the inode
    rw [if_pos hcheck]
    obtain ⟨hhalf, hlt⟩ := checkSplit_inside ((Bool.and_eq_true _ _).mp hcheck).2
    refine ⟨insertZbranch_low (Nat.le_refl n), hne _ _, ?_, ?_, ?_, by simp⟩
    · exact List.ne_nil_of_length_pos (by rw [List.length_drop]; omega)
    · rw [length_insertZbranch, List.length_take]
      omega
    · rw [List.length_drop]
      omega
  rw [if_neg hcheck]
  have hkeep : 2 ≤ (if appending' = true then fanout else (fanout + 1) / 2) ∧
      (if appending' = true then fanout else (fanout + 1) / 2) ≤ fanout := by
    split <;> omega
  generalize (if appending' = true then fanout else (fanout + 1) / 2) = keep at hkeep
  by_cases hlow : n < keep
  · rw [if_pos hlow]
    refine ⟨insertZbranch_low (by omega), hne _ _, ?_, ?_, ?_, by simp⟩
    · exact List.ne_nil_of_length_pos (by rw [List.length_drop]; omega)
    · rw [length_insertZbranch, List.length_take]
      omega
    · rw [List.length_drop]
      omega
  · rw [if_neg hlow]
    refine ⟨insertZbranch_high (by omega), ?_, hne _ _, ?_, ?_, by simp; omega⟩
    · exact List.ne_nil_of_length_pos (by rw [List.length_take]; omega)
    · rw [List.length_take]
      omega
    · rw [length_insertZbranch, List.length_drop]
      omega

end Split

/-- The first key is the smallest. -/
theorem firstKey_le : ∀ {level : Nat} {znode : Znode ε level}, Ordered level znode →
    firstKey level znode = .ok key → key ∈ keys level znode ∧ ∀ k ∈ keys level znode, key ≤ k
  | 0, [], h, _ => absurd rfl h.1
  | 0, (zbr :: rest), h, hkey => by
    obtain rfl := Except.ok.inj hkey
    refine ⟨List.mem_cons_self, List.forall_mem_cons.mpr ⟨le_refl _, ?_⟩⟩
    intro k hk
    obtain ⟨x, hx, rfl⟩ := List.mem_map.mp hk
    exact ((List.pairwise_cons.mp h.2).1 x hx).le
  | level + 1, [], h, _ => absurd rfl h.1
  | level + 1, (zbr :: rest), h, hkey => by
    obtain rfl := Except.ok.inj hkey
    obtain ⟨-, hkids, hpairs⟩ := ordered_succ.mp h
    refine ⟨mem_keys_succ.mpr ⟨zbr, List.mem_cons_self, List.mem_cons_self⟩, ?_⟩
    intro k hk
    obtain ⟨x, hx, hkx⟩ := mem_keys_succ.mp hk
    have hle : x.key ≤ k := by
      rcases List.mem_cons.mp hkx with rfl | hkx
      · exact le_refl _
      · exact (hkids x hx).2 k hkx
    rcases List.mem_cons.mp hx with rfl | hx
    · exact hle
    · exact ((List.pairwise_cons.mp hpairs).1 x hx zbr.key List.mem_cons_self).le.trans hle

/-- There is one. -/
theorem firstKey_ok : ∀ {level : Nat} {znode : Znode ε level}, Ordered level znode →
    ∃ key, firstKey level znode = .ok key
  | 0, [], h => absurd rfl h.1
  | 0, (zbr :: _), _ => ⟨zbr.key, rfl⟩
  | _ + 1, [], h => absurd rfl h.1
  | _ + 1, (zbr :: _), _ => ⟨zbr.key, rfl⟩

/-- Two znodes, one behind the other, where one was. -/
structure Parted (level : Nat) (znode zn : Znode ε level) (key : Key) : Prop where
  left : Ordered level znode
  right : Ordered level zn
  first : firstKey level zn = .ok key
  before : ∀ k ∈ keys level znode, Ahead Hashed k key

/-- A znode of leaves, in two parts. -/
theorem parted_leaf {znode zn : List Zbranch} (h : @Ordered ε 0 (znode ++ zn)) (hz : znode ≠ [])
    (hzn : zn ≠ []) : ∃ key, @Parted ε 0 znode zn key := by
  obtain ⟨zbr, rest, rfl⟩ := List.exists_cons_of_ne_nil hzn
  obtain ⟨hleft, hright, hcross⟩ := List.pairwise_append.mp h.2
  refine ⟨zbr.key, ⟨hz, hleft⟩, ⟨hzn, hright⟩, rfl, ?_⟩
  intro k hk
  obtain ⟨x, hx, rfl⟩ := List.mem_map.mp hk
  exact hcross x hx zbr List.mem_cons_self

/-- Another znode, in two parts. -/
theorem parted_inner {znode zn : List (Child ε (Znode ε level))}
    (h : @Ordered ε (level + 1) (znode ++ zn)) (hz : znode ≠ []) (hzn : zn ≠ []) :
    ∃ key, @Parted ε (level + 1) znode zn key := by
  obtain ⟨zbr, rest, rfl⟩ := List.exists_cons_of_ne_nil hzn
  obtain ⟨-, hkids, hpairs⟩ := ordered_succ.mp h
  obtain ⟨hleft, hright, hcross⟩ := List.pairwise_append.mp hpairs
  refine ⟨zbr.key, ⟨hz, fun x hx => hkids x (List.mem_append_left _ hx), hleft⟩,
    ⟨hzn, fun x hx => hkids x (List.mem_append_right _ hx), hright⟩, rfl, ?_⟩
  intro k hk
  obtain ⟨x, hx, hkx⟩ := mem_keys_succ.mp hk
  exact hcross x hx zbr List.mem_cons_self k hkx

/-- The second part goes behind the first. -/
theorem insertZbranch_behind {α : Type} {l : List α} {i : Nat} {x y : α} (h : l[i]? = some x)
    (f : α → α) :
    insertZbranch (l.modify i f) y (i + 1) = l.take i ++ ([f x, y] ++ l.drop (i + 1)) := by
  obtain ⟨hi, -⟩ := List.getElem?_eq_some_iff.mp h
  have hlen : (l.take i ++ [f x]).length = i + 1 := by
    rw [List.length_append, List.length_take, Nat.min_eq_left hi.le, List.length_singleton]
  have hmod : l.modify i f = (l.take i ++ [f x]) ++ l.drop (i + 1) := by
    rw [modify_split h, List.append_assoc, List.singleton_append]
  rw [insertZbranch, hmod, List.take_left' hlen, List.drop_left' hlen, List.append_assoc]
  rfl

/-- **A split goes on in the parent**, and may get up to the root. -/
theorem insertUp_ok (hfanout : 3 ≤ fanout) {level : Nat} {ups : Ups ε level} {znode zn : Znode ε level}
    {appending : Bool} (hok : ups.Ok) (hsmall : ups.Small fanout) (hp : Parted level znode zn key)
    (hz : Small fanout level znode) (hzn : Small fanout level zn)
    (hfits : ∀ k ∈ keys level znode ++ keys level zn, ups.Fits k) :
    ∃ c', insertUp fanout appending znode zn ups = .ok c' ∧
      c'.Is fanout (ups.left ++ (leaves level znode ++ leaves level zn) ++ ups.right) := by
  induction ups generalizing key appending with
  | @root level =>
    -- The tree gets one level more, with two znodes below its root.
    obtain ⟨key₀, hfirst₀⟩ := firstKey_ok hp.left
    obtain ⟨hmem₀, hle₀⟩ := firstKey_le hp.left hfirst₀
    refine ⟨_, by rw [insertUp, hfirst₀, hp.first]; rfl, ?_, ?_, ?_⟩
    · refine ordered_succ.mpr ⟨List.cons_ne_nil _ _, ?_, List.pairwise_pair.mpr ?_⟩
      · exact List.forall_mem_cons.mpr ⟨⟨hp.left, hle₀⟩,
          List.forall_mem_singleton.mpr ⟨hp.right, (firstKey_le hp.right hp.first).2⟩⟩
      · exact List.forall_mem_cons.mpr ⟨hp.before key₀ hmem₀, hp.before⟩
    · refine ⟨rfl, ?_, List.forall_mem_cons.mpr ⟨⟨rfl, hz⟩, List.forall_mem_singleton.mpr ⟨rfl, hzn⟩⟩⟩
      change 2 ≤ fanout
      omega
    · change leaves level znode ++ (leaves level zn ++ []) = [] ++ (leaves level znode ++ leaves level zn) ++ []
      rw [List.append_nil, List.append_nil, List.nil_append]
  | @child level zp iip ups ih =>
    -- `key` is put behind its left half, in the place of which `mid` has both.
    obtain ⟨zbr, hslot⟩ : ∃ zbr, zp[iip]? = some zbr := ⟨_, List.getElem?_eq_getElem hok.2.1⟩
    obtain ⟨hmem, hle⟩ := firstKey_le hp.right hp.first
    have hkeyfits := hok.key_fits hslot
    have hfirst := hfits key (List.mem_append_right _ hmem)
    have hleft : ∀ k ∈ keys level znode, zbr.key ≤ k := fun k hk =>
      (hfits k (List.mem_append_left _ hk)).1 zbr hslot
    have hbefore : Before { zbr with znode } ⟨key, zn, none⟩ := by
      obtain ⟨key₀, hfirst₀⟩ := firstKey_ok hp.left
      have hmem₀ := (firstKey_le hp.left hfirst₀).1
      exact List.forall_mem_cons.mpr
        ⟨(hp.before key₀ hmem₀).le_trans (hleft key₀ hmem₀), hp.before⟩
    set mid : List (Child ε (Znode ε level)) := [{ zbr with znode }, ⟨key, zn, none⟩] with hmid
    obtain ⟨hord, hup⟩ := hok.replace hslot (List.cons_ne_nil _ _ : mid ≠ [])
      (List.forall_mem_cons.mpr ⟨⟨hp.left, hleft⟩, List.forall_mem_singleton.mpr ⟨hp.right, hle⟩⟩)
      (List.pairwise_pair.mpr hbefore)
      (List.forall_mem_cons.mpr ⟨le_refl _, List.forall_mem_singleton.mpr (hfirst.1 zbr hslot)⟩)
      (List.forall_mem_cons.mpr
        ⟨List.forall_mem_cons.mpr ⟨hkeyfits, fun k hk => hfits k (List.mem_append_left _ hk)⟩,
          List.forall_mem_singleton.mpr (List.forall_mem_cons.mpr
            ⟨hfirst, fun k hk => hfits k (List.mem_append_right _ hk)⟩)⟩)
    have hkids := @Ups.Small.replace ε level fanout zp iip ups mid hsmall (List.forall_mem_cons.mpr
      ⟨⟨(hsmall.1.2 zbr (List.mem_of_getElem? hslot)).1, hz⟩, List.forall_mem_singleton.mpr ⟨rfl, hzn⟩⟩)
    have hins : insertZbranch (List.modify zp iip fun zbr => { zbr with znode }) ⟨key, zn, none⟩ (iip + 1) =
        zp.take iip ++ (mid ++ zp.drop (iip + 1)) := insertZbranch_behind hslot _
    have hleaves := @leaves_replace ε level zp iip ups mid
    have hflat : mid.flatMap (fun zbr => leaves level zbr.znode) = leaves level znode ++ leaves level zn := by
      rw [hmid, List.flatMap_cons, List.flatMap_singleton]
    rw [hflat] at hleaves
    rw [← hins] at hord hup hkids hleaves
    rw [← hleaves]
    have hle' := hsmall.1.1
    rw [insertUp, hp.first]
    -- Where the parent has room this is the end, else its halves go up in the same way.
    by_cases hroom : (List.modify zp iip fun zbr => { zbr with znode }).length < fanout
    · refine ⟨_, if_pos hroom, ?_⟩
      refine Ups.plug_is hok.2.2.2 hsmall.2 hord ⟨?_, hkids⟩ hup
      rw [length_insertZbranch]
      exact hroom
    · have hlen : (List.modify zp iip fun zbr => { zbr with znode }).length = fanout := by
        rw [List.length_modify] at hroom ⊢
        omega
      obtain ⟨hall, hne, hne', hlow, hhigh, -⟩ := split_right Child.key (level + 1)
        (⟨key, zn, none⟩ : Child ε (Znode ε level)) (iip + 1) appending hfanout hlen
      generalize hs : split fanout Child.key (level + 1)
        (List.modify zp iip fun zbr => { zbr with znode }) ⟨key, zn, none⟩ (iip + 1) appending = s
        at hall hne hne' hlow hhigh
      rw [← hall] at hord hup hkids ⊢
      obtain ⟨key', hp'⟩ := parted_inner hord hne hne'
      have hkeys : @keys ε (level + 1) (s.znode ++ s.zn) = @keys ε (level + 1) s.znode ++
          @keys ε (level + 1) s.zn := List.flatMap_append
      have hflat' : @leaves ε (level + 1) (s.znode ++ s.zn) = @leaves ε (level + 1) s.znode ++
          @leaves ε (level + 1) s.zn := List.flatMap_append
      rw [hflat']
      rw [hkeys] at hup
      obtain ⟨c', hrun, his⟩ := @ih key' s.znode s.zn s.appending hok.2.2.2 hsmall.2 hp'
        ⟨hlow, fun x hx => hkids x (List.mem_append_left _ hx)⟩
        ⟨hhigh, fun x hx => hkids x (List.mem_append_right _ hx)⟩ hup
      refine ⟨c', ?_, his⟩
      refine (if_neg hroom).trans ?_
      rw [hs]
      exact hrun

/-! ## Adding -/

/-- The path goes where the key belongs. -/
def Ups.Toward (key : Key) : {level : Nat} → Ups ε level → Prop
  | _, .root => True
  | _, .child zp iip ups => (iip = 0 ∨ ∀ zbr, zp[iip]? = some zbr → zbr.key ≤ key) ∧
    (∀ b ∈ List.drop (iip + 1) zp, key < b.key) ∧ ups.Toward key

/-- If a key that is not higher fits, then so does this one. -/
theorem Ups.Toward.fits {level : Nat} {ups : Ups ε level} {k : Key} (h : ups.Toward key)
    (hk : ups.Fits k) (hle : k ≤ key) : ups.Fits key := by
  induction ups with
  | root => trivial
  | child zp iip ups ih =>
    exact ⟨fun zbr hzbr => (hk.1 zbr hzbr).trans hle, fun b hb => .inl (h.2.1 b hb), ih h.2.2 hk.2.2⟩

/-- A key that fits does not change those above it. -/
theorem correctParentKeys_of_fits {level : Nat} {ups : Ups ε level} (h : ups.Fits key) :
    ups.correctParentKeys key = ups := by
  cases ups with
  | root => rfl
  | child zp iip ups =>
    cases iip with
    | succ iip => rfl
    | zero =>
      cases zp with
      | nil => rfl
      | cons zbr rest =>
        rw [Ups.correctParentKeys]
        exact if_neg fun hlt => not_le.mpr (Key.keysCmp_lt_iff.mp hlt) (h.1 zbr rfl)

/-- What the correction of the keys leaves. -/
structure Corrected (fanout : Nat) (key : Key) {level : Nat} (ups ups' : Ups ε level) : Prop where
  ok : ups'.Ok
  fits : ups'.Fits key
  still : ∀ k, ups.Fits k → ups'.Fits k
  small : ups.Small fanout → ups'.Small fanout
  left : ups'.left = ups.left
  right : ups'.right = ups.right

/-- A smaller one does, up to where it fits. -/
theorem correctParentKeys_ok {level : Nat} {ups : Ups ε level} (hok : ups.Ok) (h : ups.Toward key) :
    Corrected fanout key ups (ups.correctParentKeys key) := by
  induction ups with
  | root => exact ⟨trivial, trivial, fun _ h => h, id, rfl, rfl⟩
  | @child level zp iip ups ih =>
    obtain ⟨zbr, hslot⟩ : ∃ zbr, zp[iip]? = some zbr := ⟨_, List.getElem?_eq_getElem hok.2.1⟩
    -- where the branch has a key that is low enough, so have those above
    have hsame : zbr.key ≤ key → Corrected fanout key (.child zp iip ups) (.child zp iip ups) := by
      intro hle
      refine ⟨hok, h.fits (hok.key_fits hslot) hle, fun _ h => h, id, rfl, rfl⟩
    cases iip with
    | succ iip =>
      have hle := (h.1.resolve_left (Nat.succ_ne_zero iip)) zbr hslot
      rw [Ups.correctParentKeys]
      exact hsame hle
    | zero =>
      obtain ⟨zbr', rest, rfl⟩ : ∃ zbr' rest, zp = (zbr' :: rest : List (Child ε (Znode ε level))) :=
        List.exists_cons_of_ne_nil hok.1.1
      obtain rfl : zbr' = zbr := Option.some.inj hslot
      obtain ⟨hord, -, hold, hup⟩ := id hok
      obtain ⟨-, hkids, hpairs⟩ := ordered_succ.mp hord
      obtain ⟨hfirst, hrest⟩ := List.pairwise_cons.mp hpairs
      obtain ⟨hkid, hkids⟩ := List.forall_mem_cons.mp hkids
      rw [Ups.correctParentKeys]
      by_cases hlt : key < zbr'.key
      swap
      · rw [if_neg (fun h => hlt (Key.keysCmp_lt_iff.mp h))]
        exact hsame (not_lt.mp hlt)
      rw [if_pos (Key.keysCmp_lt_iff.mpr hlt)]
      dsimp only
      have hc := ih hup h.2.2
      refine ⟨⟨ordered_succ.mpr ⟨List.cons_ne_nil _ _, ?_, ?_⟩, Nat.succ_pos _, ?_, hc.ok⟩, ?_, ?_, ?_, ?_, ?_⟩
      · exact List.forall_mem_cons.mpr ⟨⟨hkid.1, fun k hk => hlt.le.trans (hkid.2 k hk)⟩, hkids⟩
      · refine List.pairwise_cons.mpr ⟨fun b hb => List.forall_mem_cons.mpr ⟨?_, ?_⟩, hrest⟩
        · exact (hfirst b hb zbr'.key List.mem_cons_self).le_trans hlt.le
        · exact fun k hk => hfirst b hb k (List.mem_cons_of_mem _ hk)
      · intro k hk
        obtain ⟨x, hx, hkx⟩ := mem_keys_succ.mp hk
        rcases List.mem_cons.mp hx with rfl | hx
        · rcases List.mem_cons.mp hkx with rfl | hkx
          · exact hc.fits
          · exact hc.still k (hold k (mem_keys_succ.mpr
              ⟨zbr', List.mem_cons_self, List.mem_cons_of_mem _ hkx⟩))
        · exact hc.still k (hold k (mem_keys_succ.mpr ⟨x, List.mem_cons_of_mem _ hx, hkx⟩))
      · refine ⟨fun zbr hzbr => ?_, fun b hb => .inl (h.2.1 b hb), hc.fits⟩
        obtain rfl := Option.some.inj hzbr
        exact le_refl key
      · intro k hk
        refine ⟨fun zbr hzbr => ?_, hk.2.1, hc.still k hk.2.2⟩
        obtain rfl := Option.some.inj hzbr
        exact hlt.le.trans (hk.1 zbr' rfl)
      · intro hs
        obtain ⟨hfirst, hrest⟩ := List.forall_mem_cons.mp hs.1.2
        exact ⟨⟨hs.1.1, List.forall_mem_cons.mpr ⟨hfirst, hrest⟩⟩, hc.small hs.2⟩
      · exact congrArg (· ++ []) hc.left
      · exact congrArg (_ ++ ·) hc.right

/-- The child that is loaded. -/
theorem getZnode_eq {znode : List (Child ε (Znode ε level))} {kid : Child ε (Znode ε level)} {n : Nat}
    {z : Znode ε level} (hkid : znode[n]? = some kid) (hz : getZnode znode n = .ok z) : z = kid.znode := by
  rw [getZnode, hkid] at hz
  dsimp only at hz
  cases hfault : kid.fault with
  | none =>
    rw [hfault] at hz
    exact (Except.ok.inj hz).symm
  | some e =>
    rw [hfault] at hz
    cases hz

/-- There are leaves below every znode. -/
theorem Ordered.leaves_ne_nil : ∀ {level : Nat} {znode : Znode ε level}, Ordered level znode →
    leaves level znode ≠ []
  | 0, _, h => h.1
  | level + 1, znode, h => by
    obtain ⟨zbr, hzbr⟩ := List.exists_mem_of_ne_nil znode h.1
    obtain ⟨x, hx⟩ := List.exists_mem_of_ne_nil _ (h.2.1 zbr hzbr).1.leaves_ne_nil
    exact List.ne_nil_of_mem (List.mem_flatMap.mpr ⟨zbr, hzbr, hx⟩)

/-- The lookup of a key that is not there ends on a path towards it. -/
theorem descend_toward (hc : c.Ordered) (hkey : ∀ x ∈ c.leaves, x.key ≠ key) : ∀ (level : Nat)
    {znode : Znode ε level} {ups : Ups ε level}, At c znode ups → ups.Toward key →
      ∀ r, descend key level znode ups = .ok r → r.2.ups.Toward key
  | 0, znode, ups, _, htoward, r, hr => by
    obtain rfl := Except.ok.inj hr
    exact htoward
  | level + 1, znode, ups, h, htoward, r, hr => by
    have hord := h.ordered hc
    have hne : znode.map Child.key ≠ [] := by simpa using hord.1
    obtain ⟨k, hk, hlow, hhigh⟩ := (ubifsSearchZbranch_right hord.keys_sorted key).slot hne
    rw [List.getElem?_map] at hk
    obtain ⟨kid, hkid, rfl⟩ := Option.map_eq_some_iff.mp hk
    rw [descend] at hr
    generalize (ubifsSearchZbranch (List.map Child.key znode) key).2.toNat = n at hk hlow hhigh hkid hr
    cases hz : getZnode znode n with
    | error e =>
      rw [hz] at hr
      cases hr
    | ok z =>
      rw [hz] at hr
      have hat := At.child h hkid
      obtain rfl := getZnode_eq hkid hz
      refine descend_toward hc hkey level hat ⟨?_, ?_, htoward⟩ r hr
      · rcases hlow with hzero | hle
        · exact .inl hzero
        · refine .inr fun zbr hzbr => ?_
          obtain rfl := Option.some.inj (hkid.symm.trans hzbr)
          exact hle
      · intro b hb
        rcases hhigh with heq | hhigh
        swap
        · rw [← List.map_drop] at hhigh
          exact hhigh _ (List.mem_map_of_mem hb)
        -- between two branches with the key there would be others
        obtain ⟨-, hkids, hpairs⟩ := ordered_succ.mp hord
        rw [split_getElem? hkid] at hpairs
        have hbefore := (List.pairwise_cons.mp (List.pairwise_append.mp hpairs).2.1).1 b hb
        refine lt_of_le_of_ne (heq ▸ (hbefore kid.key List.mem_cons_self).le) fun hsame => ?_
        obtain ⟨hkidord, hkidle⟩ := hkids kid (List.mem_of_getElem? hkid)
        obtain ⟨x, hx⟩ := List.exists_mem_of_ne_nil _ hkidord.leaves_ne_nil
        have hle := (hbefore x.key (List.mem_cons_of_mem _ (key_mem_keys hx))).le
        refine hkey x ?_ (le_antisymm (hsame ▸ hle) (heq ▸ hkidle x.key (key_mem_keys hx)))
        rw [← hat.leaves_eq]
        exact List.mem_append_left _ (List.mem_append_right _ hx)

end Ubifs.Tnc
