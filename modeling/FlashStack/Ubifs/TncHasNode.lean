/-
  A leaf node is found in the TNC if and only if it is there (`ubifs_lookup_level0`,
  `is_leaf_node_in_tnc`).

  The search goes down by the keys of the znodes; in `Aimed` it is known which leaves can still
  have the key.  `ubifs_lookup_level0` may come out at the right-most leaf before the key, and then
  steps back to the left for keys that may be repeated.

  From where it comes out, the neighbours with the same key are looked at, first to the left and
  then to the right, so all of them are seen (`lookLeft_ends`, `lookRight_ends`).  Every step may
  have to read a znode, and ends with its error if that fails (`Ends`).
-/
import FlashStack.Ubifs.TncLeaves

namespace Ubifs.Tnc

open Lib

variable {ε : Type} {c : Zroot ε} {key : Key}

/-! ## The lookup -/

/-- Nothing to the left of the path has a higher key than the one that is looked for.  Nothing to the
    right has it, unless everything below the path does. -/
structure Aimed (key : Key) {level : Nat} (znode : Znode ε level) (ups : Ups ε level) : Prop where
  left : ∀ zbr ∈ ups.left, Ahead Hashed zbr.key key
  right : (∀ zbr ∈ ups.right, key < zbr.key) ∨ ∀ k ∈ keys level znode, k = key

/-- The slot that the lookup goes down in. -/
theorem SearchRight.slot {keys : List Key} {r : Bool × Int} (h : SearchRight keys key r)
    (hne : keys ≠ []) : ∃ k, keys[r.2.toNat]? = some k ∧ (r.2.toNat = 0 ∨ k ≤ key) ∧
      (k = key ∨ ∀ k' ∈ keys.drop (r.2.toNat + 1), key < k') := by
  rcases h with ⟨m, rfl, hkey⟩ | ⟨m, rfl, hm, hlow, hhigh⟩
  · exact ⟨key, hkey, .inr (le_refl key), .inl rfl⟩
  · have hlen := List.length_pos_iff.mpr hne
    cases m with
    | zero =>
      refine ⟨_, List.getElem?_eq_getElem hlen, .inl rfl, .inr fun k' hk' => ?_⟩
      exact hhigh k' (List.mem_of_mem_drop hk')
    | succ m =>
      have hslot : ((m + 1 : Nat) - 1 : Int).toNat = m := by omega
      dsimp only
      rw [hslot]
      refine ⟨_, List.getElem?_eq_getElem hm, .inr ?_, .inr hhigh⟩
      refine (hlow _ (List.mem_take_iff_getElem.mpr ⟨m, ?_, rfl⟩)).le
      rw [Nat.min_eq_left hm]
      exact Nat.lt_succ_self m

/-- The keys of a znode are in order. -/
theorem Ordered.keys_sorted {level : Nat} {znode : Znode ε (level + 1)} (h : Ordered (level + 1) znode) :
    (znode.map Child.key).Pairwise (· ≤ ·) := by
  refine List.pairwise_map.mpr (h.2.2.imp ?_)
  intro a b hab
  exact (hab a.key List.mem_cons_self).le

/-- The search goes to the right child. -/
theorem Aimed.child {level n : Nat} {znode : Znode ε (level + 1)} {ups : Ups ε (level + 1)}
    {kid : Child ε (Znode ε level)} (h : Aimed key znode ups) (hord : Ordered (level + 1) znode)
    (hkid : znode[n]? = some kid) (hlow : n = 0 ∨ kid.key ≤ key)
    (hhigh : kid.key = key ∨ ∀ k ∈ (znode.map Child.key).drop (n + 1), key < k) :
    Aimed key kid.znode (.child znode n ups) := by
  obtain ⟨-, hkids, hpairs⟩ := hord
  rw [split_getElem? hkid] at hpairs
  obtain ⟨-, hbehind, hbefore⟩ := List.pairwise_append.mp hpairs
  obtain ⟨hbehind, -⟩ := List.pairwise_cons.mp hbehind
  have hmem := List.mem_of_getElem? hkid
  constructor
  · intro zbr hzbr
    rcases List.mem_append.mp hzbr with hzbr | hzbr
    · exact h.left zbr hzbr
    obtain ⟨a, ha, hzbr⟩ := List.mem_flatMap.mp hzbr
    rcases hlow with rfl | hle
    · simp at ha
    have hahead := hbefore a ha kid List.mem_cons_self _ (List.mem_cons_of_mem _ (key_mem_keys hzbr))
    exact hahead.trans_le hle
  · rcases h.right with hright | hall
    swap
    · exact .inr fun k hk =>
        hall k (List.mem_flatMap.mpr ⟨kid, hmem, List.mem_cons_of_mem _ hk⟩)
    by_cases hafter : ∀ b ∈ znode.drop (n + 1), key < b.key
    · -- all branches behind this one have higher keys
      refine .inl fun zbr hzbr => ?_
      rcases List.mem_append.mp hzbr with hzbr | hzbr
      · obtain ⟨b, hb, hzbr⟩ := List.mem_flatMap.mp hzbr
        have hle := (hkids b (List.mem_of_mem_drop hb)).2 _ (key_mem_keys hzbr)
        exact lt_of_lt_of_le (hafter b hb) hle
      · exact hright zbr hzbr
    · -- the next branch has the key as well, so that there is nothing else in between
      obtain ⟨b, hb, hle⟩ := by simpa only [not_forall, not_lt] using hafter
      obtain heq : kid.key = key := by
        rcases hhigh with heq | hlt
        · exact heq
        · rw [← List.map_drop] at hlt
          exact absurd (hlt _ (List.mem_map_of_mem hb)) (not_lt.mpr hle)
      refine .inr fun k hk => le_antisymm ?_ ?_
      · exact (hbehind b hb k (List.mem_cons_of_mem _ hk)).le.trans hle
      · exact heq ▸ (hkids kid hmem).2 k hk

/-- The lookup gets to a znode of level zero, and is at the right place there. -/
def Arrives (c : Zroot ε) (key : Key) (r : Bool × Loc ε) : Prop :=
  @At ε c 0 r.2.znode r.2.ups ∧ @Aimed ε key 0 r.2.znode r.2.ups ∧
    SearchRight (r.2.znode.map Zbranch.key) key (r.1, r.2.n)

/-- And down to a leaf. -/
theorem descend_ends (hc : c.Ordered) : ∀ (level : Nat) {znode : Znode ε level} {ups : Ups ε level},
    At c znode ups → Aimed key znode ups →
      Ends c False (Arrives c key) (descend key level znode ups)
  | 0, znode, ups, h, haim => by
    refine ⟨h, haim, ubifsSearchZbranch_right ?_ key⟩
    exact List.pairwise_map.mpr ((h.ordered hc).2.imp Ahead.le)
  | level + 1, znode, ups, h, haim => by
    have hord := h.ordered hc
    have hne : znode.map Child.key ≠ [] := by simpa using hord.1
    obtain ⟨k, hk, hlow, hhigh⟩ := (ubifsSearchZbranch_right hord.keys_sorted key).slot hne
    rw [List.getElem?_map] at hk
    obtain ⟨kid, hkid, rfl⟩ := Option.map_eq_some_iff.mp hk
    obtain ⟨hlt, -⟩ := List.getElem?_eq_some_iff.mp hkid
    refine (getZnode_ends h hlt).bind id ?_
    rintro _ ⟨hz, kid', hkid', rfl⟩
    obtain rfl : kid = kid' := Option.some.inj (hkid.symm.trans hkid')
    exact descend_ends hc level hz (haim.child hord hkid hlow hhigh)

/-- The lookup finds a branch with the key, or there is none. -/
def Found (c : Zroot ε) (key : Key) (r : Bool × Loc ε) : Prop :=
  if r.1 then ∃ l zbr r', r.2.On c l zbr r' ∧ zbr.key = key else ∀ zbr ∈ c.leaves, zbr.key ≠ key

section Level0

variable {loc : Loc ε} {zs : List Zbranch} {ups : Ups ε 0}

/-- If the key is not in the znode, then it is not to the right of it either. -/
theorem Aimed.right_gt {m : Nat} (h : @Aimed ε key 0 zs ups) (hne : zs ≠ [])
    (hlow : ∀ k ∈ (zs.map Zbranch.key).take m, k < key)
    (hhigh : ∀ k ∈ (zs.map Zbranch.key).drop m, key < k) : ∀ zbr ∈ ups.right, key < zbr.key := by
  rcases h.right with hright | hall
  · exact hright
  · obtain ⟨zbr, rest, rfl⟩ := List.exists_cons_of_ne_nil hne
    have heq : zbr.key = key := hall _ List.mem_cons_self
    have hmem : zbr.key ∈ ((zbr :: rest).map Zbranch.key).take m ++
        ((zbr :: rest).map Zbranch.key).drop m := by
      rw [List.take_append_drop]
      exact List.mem_cons_self
    rcases List.mem_append.mp hmem with hmem | hmem
    · exact absurd heq (hlow _ hmem).ne
    · exact absurd heq (hhigh _ hmem).ne'

/-- A key between two others is not there. -/
theorem ne_of_search {m : Nat} (hlow : ∀ k ∈ (zs.map Zbranch.key).take m, k < key)
    (hhigh : ∀ k ∈ (zs.map Zbranch.key).drop m, key < k) : ∀ zbr ∈ zs, zbr.key ≠ key := by
  intro zbr hzbr
  rw [← List.take_append_drop m zs] at hzbr
  rcases List.mem_append.mp hzbr with hzbr | hzbr
  · exact (hlow _ (List.map_take ▸ List.mem_map_of_mem hzbr)).ne
  · exact (hhigh _ (List.map_drop ▸ List.mem_map_of_mem hzbr)).ne'

/-- The key is nowhere if it is not to the left of the znode. -/
theorem absent {m : Nat} (hc : c.Ordered) (hat : @At ε c 0 zs ups) (haim : @Aimed ε key 0 zs ups)
    (hlow : ∀ k ∈ (zs.map Zbranch.key).take m, k < key)
    (hhigh : ∀ k ∈ (zs.map Zbranch.key).drop m, key < k)
    (hleft : ∀ zbr ∈ ups.left, zbr.key ≠ key) : ∀ zbr ∈ c.leaves, zbr.key ≠ key := by
  intro zbr hzbr
  rw [← hat.leaves_eq] at hzbr
  rcases List.mem_append.mp hzbr with hzbr | hzbr
  · rcases List.mem_append.mp hzbr with hzbr | hzbr
    · exact hleft zbr hzbr
    · exact ne_of_search hlow hhigh zbr hzbr
  · exact (haim.right_gt (hat.ordered hc).1 hlow hhigh zbr hzbr).ne'

/-- The leaves are in order. -/
theorem leaves_inOrder (hc : c.Ordered) : InOrder Hashed Zbranch.key c.leaves := hc.leaves_inOrder

/-- If a key in the znode is lower, then so is everything to the left of the znode. -/
theorem left_lt {m : Nat} (hc : c.Ordered) (hat : @At ε c 0 zs ups) (hm : m < zs.length)
    (hlow : ∀ k ∈ (zs.map Zbranch.key).take (m + 1), k < key) :
    ∀ zbr ∈ ups.left, zbr.key < key := by
  have hinorder := leaves_inOrder hc
  have hslot := List.getElem?_eq_getElem hm
  rw [← hat.leaves_eq, show @leaves ε 0 zs = zs from rfl, split_getElem? hslot,
    ← List.append_assoc, List.append_assoc, List.cons_append] at hinorder
  intro zbr hzbr
  refine hinorder.left_lt (hlow _ ?_) zbr (List.mem_append_left _ hzbr)
  rw [← List.map_take, take_getElem? hslot]
  exact List.mem_map_of_mem (List.mem_append_right _ List.mem_cons_self)

end Level0

/-- `ubifs_lookup_level0` finds the key, or where it would be. -/
theorem ubifsLookupLevel0_ends (hc : c.Ordered) (key : Key) :
    Ends c False (Found c key) (ubifsLookupLevel0 c key) := by
  have hroot : Ends c False (fun z => z = c.znode) (ubifsLoadZnode c.fault c.znode) := by
    cases hfault : c.fault with
    | none => exact rfl
    | some err => exact List.mem_append_left _ (by simp [hfault])
  refine hroot.bind id ?_
  rintro _ rfl
  refine (descend_ends hc c.level .root ⟨List.forall_mem_nil _, .inl (List.forall_mem_nil _)⟩).bind id ?_
  rintro ⟨found, loc⟩ ⟨hat, haim, hsearch⟩
  dsimp only at hat haim hsearch ⊢
  rcases hsearch with ⟨m, hr, hkey⟩ | ⟨m, hr, hm, hlow, hhigh⟩
  · -- the search ended at a branch with this key
    obtain ⟨rfl, hn⟩ := Prod.mk.inj hr
    rw [List.getElem?_map] at hkey
    obtain ⟨zbr, hzbr, rfl⟩ := Option.map_eq_some_iff.mp hkey
    exact ⟨_, zbr, _, ⟨hat, m, hn, hzbr, rfl, rfl⟩, rfl⟩
  obtain ⟨rfl, hn⟩ := Prod.mk.inj hr
  have habsent := absent hc hat haim hlow hhigh
  rw [List.length_map] at hm
  cases m with
  | succ m =>
    rw [if_pos (by simp; omega)]
    exact habsent fun zbr hzbr => (left_lt hc hat hm hlow zbr hzbr).ne
  | zero =>
    by_cases hhash : key.isHashKey = true
    swap
    · rw [if_pos (by simp [hhash])]
      exact habsent fun zbr hzbr => (haim.left zbr hzbr).ne_of_unique hhash
    rw [if_neg (by simp [hhash, hn]), tncPrev, if_neg (by omega)]
    have hprev := prevUp_ends hc hat
    -- the branch to the left of the znode may have the key
    cases hres : prevUp loc.ups with
    | error e =>
      rw [hres] at hprev
      cases e with
      | enoent =>
        refine habsent ?_
        rw [show loc.ups.left = [] from hprev]
        exact List.forall_mem_nil _
      | load err => exact hprev
      | wild => exact hprev
    | ok prev =>
      rw [hres] at hprev
      obtain ⟨l, zbr, r, hon, hl⟩ := hprev
      dsimp only
      rw [hon.zbranch]
      by_cases heq : zbr.key = key
      · have hcmp : Key.keysCmp key zbr.key = .eq := Key.keysCmp_eq_iff.mpr heq.symm
        simp only [hcmp, Bind.bind, Except.bind]
        exact ⟨l, zbr, r, hon, heq⟩
      · have hcmp : Key.keysCmp key zbr.key ≠ .eq := fun h => heq (Key.keysCmp_eq_iff.mp h).symm
        have hbranch : (Key.keysCmp key zbr.key != .eq) = true := by simpa using hcmp
        simp only [hbranch, Bind.bind, Except.bind, if_true]
        refine habsent ?_
        have hlt : zbr.key < key := by
          refine (haim.left zbr ?_).lt_of_ne heq
          rw [← hl]
          exact List.mem_append_right _ List.mem_cons_self
        have hinorder := leaves_inOrder hc
        rw [← hon.split] at hinorder
        intro x hx
        rw [← hl] at hx
        rcases List.mem_append.mp hx with hx | hx
        · exact (hinorder.left_lt hlt x hx).ne
        · rw [List.mem_singleton.mp hx]
          exact heq

/-! ## The walks over the neighbours -/

section Walks

variable {lnum offs : Nat} {loc : Loc ε} {l r : List Zbranch} {zbr : Zbranch}

/-- One of these is the leaf node that is looked for. -/
def Among (key : Key) (lnum offs : Nat) (l : List Zbranch) : Prop :=
  ∃ zbr ∈ l, zbr.key = key ∧ lnum = zbr.lnum ∧ offs = zbr.offs

theorem not_among (h : ∀ zbr ∈ l, zbr.key ≠ key) : ¬Among key lnum offs l := by
  rintro ⟨zbr, hzbr, hkey, -⟩
  exact h zbr hzbr hkey

/-- A node is in one of two parts. -/
theorem among_append : Among key lnum offs (l ++ r) ↔ Among key lnum offs l ∨ Among key lnum offs r := by
  simp only [Among, List.mem_append, or_and_right, exists_or]

theorem among_cons : Among key lnum offs (zbr :: l) ↔
    (zbr.key = key ∧ lnum = zbr.lnum ∧ offs = zbr.offs) ∨ Among key lnum offs l := by
  simp only [Among, List.mem_cons, or_and_right, exists_or, exists_eq_left]

/-- The loop to the left finds the node if it is there. -/
theorem lookLeft_ends (hc : c.Ordered) {fuel : Nat} (h : loc.On c l zbr r)
    (hle : ∀ y ∈ l, y.key ≤ key) (hfuel : l.length < fuel) :
    Ends c False (fun found => found = true ↔ Among key lnum offs l)
      (lookLeft key lnum offs fuel loc) := by
  induction fuel generalizing loc l zbr r with
  | zero => omega
  | succ fuel ih =>
    rw [lookLeft]
    have hprev := tncPrev_ends hc h
    cases hres : tncPrev loc with
    | error e =>
      rw [hres] at hprev
      cases e with
      | enoent =>
        obtain rfl : l = [] := hprev
        exact iff_of_false Bool.false_ne_true (not_among (List.forall_mem_nil _))
      | load err => exact hprev
      | wild => exact hprev
    | ok prev =>
      rw [hres] at hprev
      obtain ⟨l', zbr', r', rfl, hon⟩ := hprev
      dsimp only
      rw [hon.zbranch]
      simp only [Bind.bind, Except.bind]
      have hinorder := leaves_inOrder hc
      rw [← hon.split] at hinorder
      by_cases heq : zbr'.key = key
      swap
      · -- nothing with this key is left
        have hcmp : (Key.keysCmp key zbr'.key != .eq) = true := by
          simpa using fun h => heq (Key.keysCmp_eq_iff.mp h).symm
        rw [if_pos hcmp]
        have hlt : zbr'.key < key := (hle zbr' (by simp)).lt_of_ne heq
        refine iff_of_false Bool.false_ne_true (not_among fun y hy => ?_)
        rcases List.mem_append.mp hy with hy | hy
        · exact (hinorder.left_lt hlt y hy).ne
        · rw [List.mem_singleton.mp hy]
          exact heq
      rw [if_neg (by simp [Key.keysCmp_eq_iff.mpr heq.symm])]
      by_cases hpos : lnum = zbr'.lnum ∧ offs = zbr'.offs
      · rw [if_pos hpos]
        exact iff_of_true rfl ⟨zbr', by simp, heq, hpos⟩
      · rw [if_neg hpos]
        rw [List.length_append, List.length_singleton] at hfuel
        refine (ih hon (fun y hy => hle y (List.mem_append_left _ hy)) (by omega)).mono id ?_
        intro found hfound
        rw [hfound, among_append, among_cons]
        simp [hpos, Among]

/-- So does the loop to the right. -/
theorem lookRight_ends (hc : c.Ordered) {fuel : Nat} (h : loc.On c l zbr r)
    (hle : ∀ y ∈ r, key ≤ y.key) (hfuel : r.length < fuel) :
    Ends c False (fun found => found = true ↔ Among key lnum offs r)
      (lookRight key lnum offs fuel loc) := by
  induction fuel generalizing loc l zbr r with
  | zero => omega
  | succ fuel ih =>
    rw [lookRight]
    have hnext := tncNext_ends hc h
    cases hres : tncNext loc with
    | error e =>
      rw [hres] at hnext
      cases e with
      | enoent =>
        obtain rfl : r = [] := hnext
        exact iff_of_false Bool.false_ne_true (not_among (List.forall_mem_nil _))
      | load err => exact hnext
      | wild => exact hnext
    | ok next =>
      rw [hres] at hnext
      obtain ⟨zbr', r', rfl, hon⟩ := hnext
      dsimp only
      rw [hon.zbranch]
      simp only [Bind.bind, Except.bind]
      have hinorder := leaves_inOrder hc
      rw [← hon.split] at hinorder
      by_cases heq : zbr'.key = key
      swap
      · have hcmp : (Key.keysCmp key zbr'.key != .eq) = true := by
          simpa using fun h => heq (Key.keysCmp_eq_iff.mp h).symm
        rw [if_pos hcmp]
        have hlt : key < zbr'.key := lt_of_le_of_ne (hle zbr' List.mem_cons_self) (Ne.symm heq)
        refine iff_of_false Bool.false_ne_true (not_among fun y hy => ?_)
        rcases List.mem_cons.mp hy with rfl | hy
        · exact heq
        · exact (hinorder.right_gt hlt y hy).ne'
      rw [if_neg (by simp [Key.keysCmp_eq_iff.mpr heq.symm])]
      by_cases hpos : lnum = zbr'.lnum ∧ offs = zbr'.offs
      · rw [if_pos hpos]
        exact iff_of_true rfl ⟨zbr', List.mem_cons_self, heq, hpos⟩
      · rw [if_neg hpos]
        rw [List.length_cons] at hfuel
        refine (ih hon (fun y hy => hle y (List.mem_cons_of_mem _ hy)) (by omega)).mono id ?_
        intro found hfound
        rw [hfound, among_cons]
        simp [hpos]

end Walks

/-! ## The liveness test -/

/-- So `is_leaf_node_in_tnc` is right. -/
theorem isLeafNodeInTnc_ends (hc : c.Ordered) (key : Key) (lnum offs : Nat) {fuel : Nat}
    (hfuel : c.leaves.length < fuel) :
    Ends c False (fun r => r ≤ 1 ∧ (r = 1 ↔ c.Has key lnum offs))
      (isLeafNodeInTnc key lnum offs c fuel) := by
  refine (ubifsLookupLevel0_ends hc key).bind id ?_
  rintro ⟨found, loc⟩ hfound
  dsimp only [Found] at hfound ⊢
  cases found with
  | false => exact ⟨by omega, iff_of_false (by omega) (not_among hfound)⟩
  | true =>
    obtain ⟨l, zbr, r, hon, rfl⟩ := hfound
    have hinorder := leaves_inOrder hc
    have hhas : c.Has zbr.key lnum offs ↔ Among zbr.key lnum offs (l ++ zbr :: r) := by
      rw [hon.split]
      rfl
    have hlen := congrArg List.length hon.split
    rw [← hon.split] at hinorder
    rw [List.length_append, List.length_cons] at hlen
    rw [hon.zbranch, hhas, among_append, among_cons]
    simp only [Bool.not_true, Bool.false_eq_true, if_false, Bind.bind, Except.bind]
    by_cases hpos : lnum = zbr.lnum ∧ offs = zbr.offs
    · rw [if_pos hpos]
      exact ⟨by omega, iff_of_true rfl (.inr (.inl ⟨trivial, hpos⟩))⟩
    rw [if_neg hpos]
    by_cases hhash : zbr.key.isHashKey = true
    swap
    · rw [if_pos (by simp [hhash])]
      obtain ⟨hl, hr⟩ := hinorder.unique hhash
      refine ⟨by omega, iff_of_false (by omega) ?_⟩
      rintro (h | h | h)
      · exact not_among hl h
      · exact hpos h.2
      · exact not_among hr h
    rw [if_neg (by simp [hhash])]
    obtain ⟨-, hbehind, hbefore⟩ := List.pairwise_append.mp hinorder
    have hleft : ∀ y ∈ l, y.key ≤ zbr.key := fun y hy => (hbefore y hy zbr List.mem_cons_self).le
    have hright : ∀ y ∈ r, zbr.key ≤ y.key := fun y hy => ((List.pairwise_cons.mp hbehind).1 y hy).le
    refine (lookLeft_ends hc hon hleft (by omega)).bind id fun foundLeft hfoundLeft => ?_
    cases foundLeft with
    | true => exact ⟨by omega, iff_of_true rfl (.inl (hfoundLeft.mp rfl))⟩
    | false =>
      refine (lookRight_ends hc hon hright (by omega)).bind id fun foundRight hfoundRight => ?_
      cases foundRight with
      | true => exact ⟨by omega, iff_of_true rfl (.inr (.inr (hfoundRight.mp rfl)))⟩
      | false =>
        refine ⟨by omega, iff_of_false (by omega) ?_⟩
        rintro (h | h | h)
        · exact Bool.false_ne_true (hfoundLeft.mpr h)
        · exact hpos h.2
        · exact Bool.false_ne_true (hfoundRight.mpr h)

/-- The answer for a leaf node is right.  There is one, unless a znode that has to be read cannot be. -/
theorem ubifsTncHasNode_exact (c : Zroot ε) (hc : c.Ordered) (key : Key) (lnum offs : Nat)
    (isIdxNodeInTnc : Except (Stop ε) (Fin 3)) {fuel : Nat} (hfuel : c.leaves.length < fuel) :
    (c.faults = [] →
      (ubifsTncHasNode key lnum offs isIdxNodeInTnc c fuel false = .ok 1 ↔ c.Has key lnum offs)) ∧
    (∀ r, ubifsTncHasNode key lnum offs isIdxNodeInTnc c fuel false = .ok r →
      r ≤ 1 ∧ (r = 1 ↔ c.Has key lnum offs)) ∧
    ∀ e, ubifsTncHasNode key lnum offs isIdxNodeInTnc c fuel false = .error e →
      ∃ err ∈ c.faults, e = .load err := by
  have hends := isLeafNodeInTnc_ends hc key lnum offs hfuel
  have hleaf : ubifsTncHasNode key lnum offs isIdxNodeInTnc c fuel false =
      isLeafNodeInTnc key lnum offs c fuel := rfl
  rw [hleaf]
  cases hres : isLeafNodeInTnc key lnum offs c fuel with
  | ok r =>
    rw [hres] at hends
    refine ⟨fun _ => ?_, ?_, (by simp)⟩
    · rw [Except.ok.injEq]
      exact hends.2
    · rintro _ ⟨⟩
      exact hends
  | error e =>
    rw [hres] at hends
    cases e with
    | enoent => exact hends.elim
    | wild => exact hends.elim
    | load err =>
      refine ⟨fun hnone => ?_, (by simp), ?_⟩
      · have herr : err ∈ c.faults := hends
        rw [hnone] at herr
        exact absurd herr List.not_mem_nil
      · rintro _ ⟨⟩
        exact ⟨err, hends, rfl⟩

/-- A directory entry. -/
def dent (ino : Fin (2 ^ 32)) : Key := ⟨ino, 0x40000007⟩

/-- The key of two entries. -/
def twice : Key := dent 2

/-- The search for the colliding key ends in the znode to the right of it. -/
def collision : Zroot Unit where
  level := 1
  znode := [⟨dent 1, [⟨dent 1, 20, 0⟩, ⟨dent 2, 20, 160⟩, ⟨dent 2, 21, 0⟩], none⟩,
    ⟨dent 2, [⟨dent 3, 21, 160⟩], none⟩]
  fault := none

/-- The second of two entries with the same hash is found. -/
theorem ubifsTncHasNode_collision :
    ubifsTncHasNode twice 20 160 (.ok 0) collision 5 false = .ok 1 := by
  have hlt12 : dent 1 < dent 2 := by decide
  have hlt23 : dent 2 < dent 3 := by decide
  have hdup : Hashed (dent 2) := by unfold Hashed; decide
  have hordered : collision.Ordered := by
    simp [Zroot.Ordered, Ordered, collision, InOrder, keys, Ahead, hlt12, hdup, hlt12.le, hlt23.le]
  refine ((ubifsTncHasNode_exact collision hordered twice 20 160 (.ok 0) (by decide)).1 rfl).mpr ?_
  exact ⟨⟨twice, 20, 160⟩, by simp [twice, collision, Zroot.leaves, leaves], rfl, rfl, rfl⟩

end Ubifs.Tnc
