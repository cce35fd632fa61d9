/-
  What the changes of the TNC do to its leaves.

  The branches of level zero are one row, from left to right.  A change puts something into this row, or
  takes something out of it, where the lookup has ended.

  `Gap` is a place between two neighbours where a key would be.  Adding puts the leaf there,
  however many znodes are split on the way up (`Gap.inserted`); deleting takes the leaf out,
  however many become empty (`Loc.On.removed`).
-/
import FlashStack.Ubifs.TncSorted

namespace Ubifs.Tnc

open Lib

variable {ε : Type} {c : Zroot ε} {key : Key} {level fanout : Nat}

/-! ## The lookup -/

/-- A tree that can be loaded has no faults. -/
theorem Small.faults_eq : ∀ {level : Nat} {znode : Znode ε level}, Small fanout level znode →
    faults level znode = []
  | 0, _, _ => rfl
  | level + 1, znode, h => by
    refine List.flatMap_eq_nil_iff.mpr ?_
    intro zbr hzbr
    rw [(h.2 zbr hzbr).1, (h.2 zbr hzbr).2.faults_eq]
    rfl

theorem Zroot.Small.faults_eq (h : c.Small fanout) : c.faults = [] := by
  unfold Zroot.faults
  rw [h.1, Tnc.Small.faults_eq h.2]
  rfl

/-- Without errors a walk ends well, or there is nothing more. -/
theorem Ends.ok_or {α : Type} {p : Prop} {q : α → Prop} {x : Except (Stop ε) α} (h : Ends c p q x)
    (hs : c.Small fanout) : (∃ a, x = .ok a ∧ q a) ∨ x = .error .enoent ∧ p := by
  cases x with
  | ok a => exact .inl ⟨a, rfl, h⟩
  | error e =>
    cases e with
    | enoent => exact .inr ⟨rfl, h⟩
    | load err =>
      have hmem : err ∈ c.faults := h
      rw [hs.faults_eq] at hmem
      cases hmem
    | wild => exact h.elim

/-- So what ends well ends with a result. -/
theorem Ends.ok {α : Type} {q : α → Prop} {x : Except (Stop ε) α} (h : Ends c False q x)
    (hs : c.Small fanout) : ∃ a, x = .ok a ∧ q a :=
  (h.ok_or hs).resolve_right And.right

/-- A place for a branch with this key: slot `m` of the znode. -/
structure Gap (c : Zroot ε) (key : Key) (loc : Loc ε) (m : Nat) : Prop where
  path : @At ε c 0 loc.znode loc.ups
  slot : loc.n = (m : Int) - 1
  le : m ≤ loc.znode.length
  fits : loc.ups.Toward key ∨ loc.ups.Fits key
  low : ∀ x ∈ loc.ups.left ++ loc.znode.take m, Ahead Hashed x.key key
  high : ∀ x ∈ loc.znode.drop m ++ loc.ups.right, Ahead Hashed key x.key

/-- The row of the branches, cut at the gap. -/
theorem Gap.leaves_eq {loc : Loc ε} {m : Nat} (h : Gap c key loc m) :
    c.leaves = (loc.ups.left ++ loc.znode.take m) ++ (loc.znode.drop m ++ loc.ups.right) := by
  have hzn : @leaves ε 0 loc.znode = loc.znode.take m ++ loc.znode.drop m :=
    (List.take_append_drop m loc.znode).symm
  rw [← h.path.leaves_eq, hzn]
  simp only [List.append_assoc]

/-- The next branch is the one behind the gap. -/
theorem Gap.next_ends {loc : Loc ε} {m : Nat} (h : Gap c key loc m) (hc : c.Ordered) :
    Ends c (loc.znode.drop m ++ loc.ups.right = []) (fun loc' =>
      ∃ zbr r, loc'.On c (loc.ups.left ++ loc.znode.take m) zbr r ∧
        zbr :: r = loc.znode.drop m ++ loc.ups.right) (tncNext loc) := by
  have hall : ∀ {loc' : Loc ε} {zbr r}, loc'.On c (loc.ups.left ++ loc.znode.take m) zbr r →
      zbr :: r = loc.znode.drop m ++ loc.ups.right := by
    intro loc' zbr r hon
    have hsplit := hon.split
    rwa [h.leaves_eq, List.append_cancel_left_eq] at hsplit
  have hslot := h.slot
  rw [tncNext]
  by_cases hm : m < loc.znode.length
  · rw [if_pos (by omega)]
    have hon : Loc.On c { loc with n := loc.n + 1 } (loc.ups.left ++ loc.znode.take m) loc.znode[m]
        (loc.znode.drop (m + 1) ++ loc.ups.right) :=
      ⟨h.path, m, by change loc.n + 1 = _; omega, List.getElem?_eq_getElem hm, rfl, rfl⟩
    exact ⟨_, _, hon, hall hon⟩
  · rw [if_neg (by omega)]
    have hlen : loc.znode.length ≤ m := by omega
    refine (nextUp_ends hc h.path).mono ?_ ?_
    · intro hright
      rw [List.drop_eq_nil_of_le hlen, hright, List.append_nil]
    · rintro loc' ⟨zbr, r, hon⟩
      have hzn : @leaves ε 0 loc.znode = loc.znode.take m := (List.take_of_length_le hlen).symm
      rw [hzn] at hon
      exact ⟨zbr, r, hon, hall hon⟩

/-- Where a key would be, those to the left are smaller and those to the right are larger. -/
theorem Gap.lt {loc : Loc ε} {m : Nat} (h : Gap c key loc m) (habsent : ∀ x ∈ c.leaves, x.key ≠ key) :
    (∀ x ∈ loc.ups.left ++ loc.znode.take m, x.key < key) ∧
      ∀ x ∈ loc.znode.drop m ++ loc.ups.right, key < x.key := by
  rw [h.leaves_eq] at habsent
  exact ⟨fun x hx => (h.low x hx).lt_of_ne (habsent x (List.mem_append_left _ hx)),
    fun x hx => (h.high x hx).lt_of_ne (habsent x (List.mem_append_right _ hx)).symm⟩

/-- The way down. -/
theorem descend_ok (hc : c.Ordered) (hs : c.Small fanout) (key : Key) :
    ∃ r, descend key c.level c.znode .root = .ok r ∧ Arrives c key r ∧ ubifsLookupLevel0 c key =
      if r.1 || !key.isHashKey || r.2.n != -1 then .ok r
      else match tncPrev r.2 with
        | .error .enoent => .ok (false, { r.2 with n := -1 })
        | .error e => .error e
        | .ok prev => do
          if Key.keysCmp key (← prev.zbranch).key != .eq then return (false, { r.2 with n := -1 })
          else return (true, prev) := by
  obtain ⟨⟨exact, loc⟩, hrun, harr⟩ := (@descend_ends ε c key hc c.level c.znode .root .root
    ⟨List.forall_mem_nil _, .inl (List.forall_mem_nil _)⟩).ok hs
  refine ⟨_, hrun, harr, ?_⟩
  unfold ubifsLookupLevel0
  rw [hs.1]
  change (descend key c.level c.znode .root >>= _) = _
  rw [hrun]
  rfl

/-- The key is found, or a gap for it. -/
theorem lookup_ok (hc : c.Ordered) (hs : c.Small fanout) (key : Key) :
    (∃ loc l zbr r, ubifsLookupLevel0 c key = .ok (true, loc) ∧ loc.On c l zbr r ∧ zbr.key = key) ∨
    ∃ loc m, ubifsLookupLevel0 c key = .ok (false, loc) ∧ Gap c key loc m ∧
      ∀ x ∈ c.leaves, x.key ≠ key := by
  obtain ⟨⟨found, loc⟩, hrun, hfound⟩ := (ubifsLookupLevel0_ends hc key).ok hs
  cases found with
  | true =>
    obtain ⟨l, zbr, r, hon, hkey⟩ := hfound
    exact .inl ⟨loc, l, zbr, r, hrun, hon, hkey⟩
  | false =>
    have habsent : ∀ x ∈ c.leaves, x.key ≠ key := hfound
    obtain ⟨⟨exact, loc₀⟩, hdescend, ⟨hat, haim, hsearch⟩, hlookup⟩ := descend_ok hc hs key
    have htoward : loc₀.ups.Toward key := descend_toward hc habsent c.level .root trivial _ hdescend
    rw [hlookup] at hrun
    -- the place is where the way down has ended
    have hend : exact = false ∧ loc = loc₀ := by
      split at hrun
      · cases hrun
        exact ⟨rfl, rfl⟩
      · rename_i hlast
        simp only [Bool.or_eq_true, Bool.not_eq_true', bne_iff_ne, not_or, Bool.not_eq_true,
          Bool.not_eq_false, ne_eq, not_not] at hlast
        obtain ⟨⟨hexact, -⟩, hn⟩ := hlast
        have hsame : { loc₀ with n := -1 } = loc₀ := by rw [← hn]
        rw [hsame] at hrun
        refine ⟨hexact, ?_⟩
        split at hrun
        · cases hrun
          rfl
        · cases hrun
        · rename_i prev _
          cases hz : prev.zbranch with
          | error e =>
            rw [hz] at hrun
            cases hrun
          | ok zbr =>
            rw [hz] at hrun
            simp only [Bind.bind, Except.bind] at hrun
            split at hrun
            · cases hrun
              rfl
            · cases hrun
    obtain ⟨rfl, rfl⟩ := hend
    rcases hsearch with ⟨m, hr, -⟩ | ⟨m, hr, hm, hlow, hhigh⟩
    · cases hr
    have hn : loc.n = (m : Int) - 1 := congrArg Prod.snd hr
    rw [List.length_map] at hm
    refine .inr ⟨loc, m, hlookup.trans hrun, ⟨hat, hn, hm, .inl htoward, ?_, ?_⟩, habsent⟩
    · intro x hx
      rcases List.mem_append.mp hx with hx | hx
      · exact haim.left x hx
      · exact .inl (hlow _ (List.map_take ▸ List.mem_map_of_mem hx))
    · intro x hx
      rcases List.mem_append.mp hx with hx | hx
      · exact .inl (hhigh _ (List.map_drop ▸ List.mem_map_of_mem hx))
      · exact .inl (haim.right_gt (hat.ordered hc).1 hlow hhigh x hx)

/-! ## Adding and replacing -/

/-- Other branches, of which no key is new, at the end of the path. -/
theorem At.plug_is {znode znode' : List Zbranch} {ups : Ups ε 0} (h : @At ε c 0 znode ups)
    (hc : c.Ordered) (hs : c.Small fanout) (hne : znode' ≠ [])
    (hord : InOrder Hashed Zbranch.key znode') (hsub : znode'.map Zbranch.key ⊆ znode.map Zbranch.key)
    (hlen : znode'.length ≤ znode.length) :
    (@Ups.plug ε 0 znode' ups).Is fanout (ups.left ++ znode' ++ ups.right) := by
  obtain ⟨hok, hfits⟩ := h.ok hc
  obtain ⟨hsmall, hzsmall⟩ := h.small hs
  exact @Ups.plug_is ε fanout 0 ups znode' hok hsmall ⟨hne, hord⟩
    (hlen.trans (show znode.length ≤ fanout from hzsmall)) fun k hk => hfits k (hsub hk)

/-- Another position for the branch at a slot. -/
theorem Loc.On.moved {loc : Loc ε} {l r : List Zbranch} {zbr : Zbranch} (h : loc.On c l zbr r)
    (hc : c.Ordered) (hs : c.Small fanout) (lnum offs : Nat) :
    (@Ups.plug ε 0 (loc.znode.modify loc.n.toNat fun zbr => { zbr with lnum, offs }) loc.ups).Is fanout
      (l ++ { zbr with lnum, offs } :: r) := by
  obtain ⟨hat, m, hn, hzbr, hl, hr⟩ := h
  have hslot : loc.n.toNat = m := by rw [hn, Int.toNat_natCast]
  have hkeys : (loc.znode.modify m fun zbr => { zbr with lnum, offs }).map Zbranch.key =
      loc.znode.map Zbranch.key := by
    rw [modify_split hzbr]
    conv_rhs => rw [split_getElem? hzbr]
    rw [List.map_append, List.map_append, List.map_cons, List.map_cons]
  have hord : InOrder Hashed Zbranch.key (loc.znode.modify m fun zbr => { zbr with lnum, offs }) := by
    refine List.pairwise_map.mp ?_
    rw [hkeys]
    exact List.pairwise_map.mpr (hat.ordered hc).2
  have hne : (loc.znode.modify m fun zbr => { zbr with lnum, offs }) ≠ [] := by
    rw [modify_split hzbr]
    simp
  have hres := hat.plug_is hc hs hne hord (hkeys ▸ List.Subset.refl _) (by rw [List.length_modify])
  rw [modify_split hzbr] at hres
  rw [hslot, modify_split hzbr, hl, hr]
  simpa only [List.append_assoc, List.cons_append] using hres

/-- The path, with the keys above corrected if the new branch is the first one. -/
theorem Gap.corrected {loc : Loc ε} {m : Nat} (h : Gap c key loc m) (hc : c.Ordered) :
    Corrected fanout key loc.ups (if m = 0 then loc.ups.correctParentKeys key else loc.ups) := by
  obtain ⟨hok, hfits⟩ := h.path.ok hc
  have hsame : loc.ups.Fits key → Corrected fanout key loc.ups loc.ups := fun hfit =>
    ⟨hok, hfit, fun _ h => h, id, rfl, rfl⟩
  rcases h.fits with htoward | hfit
  · by_cases hm : m = 0
    · rw [if_pos hm]
      exact correctParentKeys_ok hok htoward
    · rw [if_neg hm]
      obtain ⟨x, rest, hznode⟩ := List.exists_cons_of_ne_nil (h.path.ordered hc).1
      have hx : x ∈ loc.znode := by
        rw [hznode]
        exact List.mem_cons_self
      have htake : x ∈ loc.znode.take m := by
        obtain ⟨m, rfl⟩ := Nat.exists_eq_succ_of_ne_zero hm
        rw [hznode, List.take_succ_cons]
        exact List.mem_cons_self
      have hle := (h.low x (List.mem_append_right _ htake)).le
      exact hsame (htoward.fits (hfits x.key (List.mem_map_of_mem hx)) hle)
  · rw [correctParentKeys_of_fits hfit, ite_self]
    exact hsame hfit

/-- Put into the gap, it is in order. -/
theorem Gap.inOrder {loc : Loc ε} {m : Nat} (h : Gap c key loc m) (hc : c.Ordered) (lnum offs : Nat) :
    InOrder Hashed Zbranch.key (insertZbranch loc.znode ⟨key, lnum, offs⟩ m) := by
  have hold := (h.path.ordered hc).2
  rw [← List.take_append_drop m loc.znode] at hold
  obtain ⟨hleft, hright, hcross⟩ := List.pairwise_append.mp hold
  refine List.pairwise_append.mpr ⟨hleft, List.pairwise_cons.mpr ⟨?_, hright⟩, ?_⟩
  · exact fun x hx => h.high x (List.mem_append_left _ hx)
  · intro x hx y hy
    rcases List.mem_cons.mp hy with rfl | hy
    · exact h.low x (List.mem_append_right _ hx)
    · exact hcross x hx y hy

/-- It is inserted, and znodes that are full are split. -/
theorem Gap.inserted {loc : Loc ε} {m : Nat} (h : Gap c key loc m) (hfanout : 3 ≤ fanout)
    (hc : c.Ordered) (hs : c.Small fanout) (lnum offs : Nat) :
    ∃ c', tncInsert fanout loc ⟨key, lnum, offs⟩ m = .ok c' ∧
      c'.Is fanout (loc.ups.left ++ insertZbranch loc.znode ⟨key, lnum, offs⟩ m ++ loc.ups.right) := by
  obtain ⟨-, hfits⟩ := h.path.ok hc
  obtain ⟨hups, hznode⟩ := h.path.small hs
  have hcor := @Gap.corrected ε c key fanout loc m h hc
  have hord := h.inOrder hc lnum offs
  have hkeys : ∀ k ∈ (insertZbranch loc.znode ⟨key, lnum, offs⟩ m).map Zbranch.key,
      (if m = 0 then loc.ups.correctParentKeys key else loc.ups).Fits k := by
    intro k hk
    obtain ⟨x, hx, rfl⟩ := List.mem_map.mp hk
    rcases List.mem_append.mp hx with hx | hx
    · exact hcor.still _ (hfits _ (List.mem_map_of_mem (List.mem_of_mem_take hx)))
    · rcases List.mem_cons.mp hx with rfl | hx
      · exact hcor.fits
      · exact hcor.still _ (hfits _ (List.mem_map_of_mem (List.mem_of_mem_drop hx)))
  have hlen := @length_insertZbranch _ loc.znode ⟨key, lnum, offs⟩ m
  rw [tncInsert, ← hcor.left, ← hcor.right]
  by_cases hroom : loc.znode.length < fanout
  · rw [if_pos hroom]
    refine ⟨_, rfl, ?_⟩
    refine @Ups.plug_is ε fanout 0 _ _ hcor.ok (hcor.small hups) ⟨?_, hord⟩ ?_ hkeys
    · exact List.ne_nil_of_length_pos (hlen ▸ Nat.succ_pos _)
    · change (insertZbranch loc.znode _ m).length ≤ fanout
      omega
  · rw [if_neg hroom]
    have hfull : loc.znode.length = fanout := le_antisymm hznode (not_lt.mp hroom)
    have hsplit := split_right Zbranch.key 0 (⟨key, lnum, offs⟩ : Zbranch) m false hfanout hfull
    generalize split fanout Zbranch.key 0 loc.znode ⟨key, lnum, offs⟩ m false = s at hsplit
    have hlowest : (if s.lowest = true then loc.ups.correctParentKeys key else loc.ups) =
        if m = 0 then loc.ups.correctParentKeys key else loc.ups := if_congr hsplit.lowest rfl rfl
    dsimp only
    rw [hlowest]
    rw [← hsplit.all] at hord hkeys ⊢
    rw [List.map_append] at hkeys
    obtain ⟨k, hp⟩ := @parted_leaf ε s.znode s.zn ⟨by simp [hsplit.znode_ne], hord⟩ hsplit.znode_ne
      hsplit.zn_ne
    exact @insertUp_ok ε k fanout hfanout 0 _ s.znode s.zn s.appending hcor.ok (hcor.small hups) hp
      hsplit.znode_le hsplit.zn_le hkeys

/-! ## Removing -/

/-- A part of a znode is in order. -/
theorem ordered_sublist {l znode : List (Child ε (Znode ε level))} (h : @Ordered ε (level + 1) znode)
    (hsub : l.Sublist znode) (hne : l ≠ []) : @Ordered ε (level + 1) l := by
  obtain ⟨-, hkids, hpairs⟩ := ordered_succ.mp h
  exact ordered_succ.mpr ⟨hne, fun zbr hzbr => hkids zbr (hsub.subset hzbr), hpairs.sublist hsub⟩

/-- A root with one child is not needed. -/
theorem collapse_ok : ∀ (level : Nat) {znode : Znode ε level}, Ordered level znode →
    Small fanout level znode → ∃ c', collapse level znode = .ok c' ∧ c'.Is fanout (leaves level znode)
  | 0, znode, hord, hs => ⟨_, rfl, hord, ⟨rfl, hs⟩, rfl⟩
  | level + 1, znode, hord, hs => by
    rw [collapse]
    by_cases hone : List.length znode = 1
    swap
    · rw [if_neg hone]
      exact ⟨_, rfl, hord, ⟨rfl, hs⟩, rfl⟩
    rw [if_pos hone]
    obtain ⟨zbr, rfl⟩ : ∃ zbr, znode = ([zbr] : List (Child ε (Znode ε level))) :=
      List.length_eq_one_iff.mp hone
    obtain ⟨hfault, hzs⟩ := hs.2 zbr List.mem_cons_self
    obtain ⟨c', hrun, his⟩ := collapse_ok level (hord.2.1 zbr List.mem_cons_self).1 hzs
    refine ⟨c', ?_, ?_⟩
    · change (ubifsLoadZnode zbr.fault zbr.znode >>= _) = _
      rw [hfault]
      exact hrun
    · rwa [leaves, List.flatMap_singleton]

/-- The znode goes out of its parent, and the parent with it if it was the only one. -/
theorem deleteUp_ok {level : Nat} {ups : Ups ε level} (hok : ups.Ok) (hsmall : ups.Small fanout)
    (hne : ups.left ++ ups.right ≠ []) :
    ∃ c', deleteUp ups = .ok c' ∧ c'.Is fanout (ups.left ++ ups.right) := by
  induction ups with
  | root => exact absurd rfl hne
  | @child level zp iip ups ih =>
    obtain ⟨hord, hlt, hfits, hup⟩ := hok
    rw [deleteUp]
    by_cases hone : List.length zp = 1
    · rw [if_pos hone]
      obtain rfl : iip = 0 := by omega
      have hdrop : List.drop 1 zp = [] := List.drop_eq_nil_of_le hone.le
      rw [Ups.left, Ups.right, List.take_zero, hdrop, List.flatMap_nil, List.append_nil,
        List.nil_append] at hne ⊢
      exact ih hup hsmall.2 hne
    · rw [if_neg hone]
      have hsub : (List.eraseIdx zp iip).Sublist zp := List.eraseIdx_sublist zp iip
      have hord' := ordered_sublist hord hsub
        (List.ne_nil_of_length_pos (by rw [List.length_eraseIdx_of_lt hlt]; omega))
      have hsmall' : Small fanout (level + 1) (List.eraseIdx zp iip) :=
        ⟨hsub.length_le.trans hsmall.1.1, fun zbr hzbr => hsmall.1.2 zbr (hsub.subset hzbr)⟩
      have hleaves : (Ups.child zp iip ups).left ++ (Ups.child zp iip ups).right =
          ups.left ++ @leaves ε (level + 1) (List.eraseIdx zp iip) ++ ups.right := by
        have hflat : @leaves ε (level + 1) (List.eraseIdx zp iip) =
            List.flatMap (fun zbr => leaves level zbr.znode) (List.eraseIdx zp iip) := rfl
        rw [hflat, List.eraseIdx_eq_take_drop_succ, List.flatMap_append, Ups.left, Ups.right]
        simp only [List.append_assoc]
      rw [hleaves]
      cases ups with
      | root =>
        obtain ⟨c', hrun, his⟩ := collapse_ok (level + 1) hord' hsmall'
        refine ⟨c', hrun, ?_⟩
        change c'.Is fanout ([] ++ _ ++ [])
        rwa [List.nil_append, List.append_nil]
      | child zp' iip' ups' =>
        refine ⟨_, rfl, Ups.plug_is hup hsmall.2 hord' hsmall' ?_⟩
        intro k hk
        obtain ⟨zbr, hzbr, hk⟩ := mem_keys_succ.mp hk
        exact hfits k (mem_keys_succ.mpr ⟨zbr, hsub.subset hzbr, hk⟩)

/-- After a branch of the znode has gone, only branches are left that were there. -/
theorem tncDelete_ok {znode : List Zbranch} {loc : Loc ε} {n : Nat} (h : @At ε c 0 znode loc.ups)
    (hc : c.Ordered) (hs : c.Small fanout) (hsub : (loc.znode.eraseIdx n).Sublist znode)
    (hne : loc.ups.left ++ loc.znode.eraseIdx n ++ loc.ups.right ≠ []) :
    ∃ c', tncDelete loc n = .ok c' ∧
      c'.Is fanout (loc.ups.left ++ loc.znode.eraseIdx n ++ loc.ups.right) := by
  rw [tncDelete]
  by_cases hpos : 0 < (loc.znode.eraseIdx n).length
  · refine ⟨_, if_pos hpos, h.plug_is hc hs (List.ne_nil_of_length_pos hpos) ?_ ?_ hsub.length_le⟩
    · exact (h.ordered hc).2.sublist hsub
    · exact (hsub.map Zbranch.key).subset
  · have hnil : loc.znode.eraseIdx n = [] := List.length_eq_zero_iff.mp (by omega)
    rw [hnil, List.append_nil] at hne ⊢
    obtain ⟨c', hrun, his⟩ := deleteUp_ok (h.ok hc).1 (h.small hs).1 hne
    exact ⟨c', (if_neg (Nat.lt_irrefl 0)).trans hrun, his⟩

/-- A leaf is removed, and znodes that are empty go, too. -/
theorem Loc.On.removed {loc : Loc ε} {l r : List Zbranch} {zbr : Zbranch} (h : loc.On c l zbr r)
    (hc : c.Ordered) (hs : c.Small fanout) (hne : l ++ r ≠ []) :
    ∃ c', tncDelete loc loc.n.toNat = .ok c' ∧ c'.Is fanout (l ++ r) := by
  obtain ⟨hat, m, hn, hzbr, rfl, rfl⟩ := h
  have hslot : loc.n.toNat = m := by rw [hn, Int.toNat_natCast]
  have hrow : loc.ups.left ++ loc.znode.take m ++ (loc.znode.drop (m + 1) ++ loc.ups.right) =
      loc.ups.left ++ loc.znode.eraseIdx m ++ loc.ups.right := by
    rw [List.eraseIdx_eq_take_drop_succ]
    simp only [List.append_assoc]
  rw [hrow] at hne ⊢
  rw [hslot]
  exact tncDelete_ok hat hc hs (List.eraseIdx_sublist _ _) hne

/-! ## Removing a range -/

section Range

variable {fromKey toKey : Key}

/-- `key_in_range` is right. -/
theorem keyInRange_iff : keyInRange key fromKey toKey = true ↔ fromKey ≤ key ∧ key ≤ toKey := by
  unfold keyInRange
  simp only [Key.keysCmp_lt_iff, Key.keysCmp_gt_iff]
  by_cases hlow : key < fromKey
  · simp [hlow, not_le.mpr hlow]
  · by_cases hhigh : toKey < key
    · simp [hhigh, not_le.mpr hhigh]
    · simp [hlow, hhigh, not_lt.mp hlow, not_lt.mp hhigh]

/-- Whether the branch is left alone.  A branch with `fromKey` is not, whatever `toKey` is. -/
def outside (fromKey toKey : Key) (zbr : Zbranch) : Bool :=
  !(decide (zbr.key = fromKey) || keyInRange zbr.key fromKey toKey)

/-- What a removal of a range leaves: all but the keys in it, and the first key. -/
theorem outside_iff {zbr : Zbranch} : outside fromKey toKey zbr = false ↔
    zbr.key = fromKey ∨ fromKey ≤ zbr.key ∧ zbr.key ≤ toKey := by
  rw [outside, Bool.not_eq_false', Bool.or_eq_true, decide_eq_true_iff, keyInRange_iff]

/-- What is below stays. -/
theorem outside_low {l : List Zbranch} (h : ∀ x ∈ l, x.key < fromKey) :
    l.filter (outside fromKey toKey) = l := by
  refine List.filter_eq_self.mpr fun x hx => ?_
  rw [← Bool.not_eq_false, outside_iff]
  rintro (heq | hin)
  · exact (h x hx).ne heq
  · exact not_le.mpr (h x hx) hin.1

/-- What is above stays. -/
theorem outside_high {l : List Zbranch} (h : ∀ x ∈ l, fromKey < x.key ∧ toKey < x.key) :
    l.filter (outside fromKey toKey) = l := by
  refine List.filter_eq_self.mpr fun x hx => ?_
  rw [← Bool.not_eq_false, outside_iff]
  rintro (heq | hin)
  · exact (h x hx).1.ne' heq
  · exact not_le.mpr (h x hx).2 hin.2

theorem outside_nil {l : List Zbranch} (h : ∀ x ∈ l, outside fromKey toKey x = false) :
    l.filter (outside fromKey toKey) = [] :=
  List.filter_eq_nil_iff.mpr fun x hx => ne_true_of_eq_false (h x hx)

/-- The first branch of the range, or there is none. -/
theorem firstInRange_ok (hc : c.Ordered) (hs : c.Small fanout) (hkey : ¬Hashed fromKey) :
    (firstInRange c fromKey toKey = .ok none ∧ c.leaves.filter (outside fromKey toKey) = c.leaves) ∨
    ∃ loc l zbr r, firstInRange c fromKey toKey = .ok (some loc) ∧ loc.On c l zbr r ∧
      (∀ x ∈ l, x.key < fromKey) ∧ outside fromKey toKey zbr = false := by
  rcases lookup_ok hc hs fromKey with ⟨loc, l, zbr, r, hrun, hon, heq⟩ | ⟨loc, m, hrun, hgap, habsent⟩
  · refine .inr ⟨loc, l, zbr, r, ?_, hon, ?_, outside_iff.mpr (.inl heq)⟩
    · rw [firstInRange, hrun]
      rfl
    · have hinorder := leaves_inOrder hc
      rw [← hon.split] at hinorder
      intro x hx
      have hne := (hinorder.unique (heq ▸ hkey)).1 x hx
      exact heq ▸ (hinorder.le_of_mem_append hx List.mem_cons_self).lt_of_ne hne
  obtain ⟨hlow, hhigh⟩ := hgap.lt habsent
  rcases (hgap.next_ends hc).ok_or hs with ⟨loc', hrun', zbr, r, hon, hrest⟩ | ⟨hrun', hnil⟩
  swap
  · refine .inl ⟨?_, ?_⟩
    · rw [firstInRange, hrun]
      simp only [Bind.bind, Except.bind, Bool.false_eq_true, if_false]
      rw [hrun']
      rfl
    · rw [hgap.leaves_eq, hnil, List.append_nil]
      exact outside_low hlow
  have hrun'' : firstInRange c fromKey toKey =
      if keyInRange zbr.key fromKey toKey then .ok (some loc') else .ok none := by
    rw [firstInRange, hrun]
    simp only [Bind.bind, Except.bind, Bool.false_eq_true, if_false]
    rw [hrun']
    dsimp only
    rw [hon.zbranch]
    rfl
  by_cases hin : keyInRange zbr.key fromKey toKey = true
  · refine .inr ⟨loc', _, zbr, r, hrun''.trans (if_pos hin), hon, hlow, ?_⟩
    exact outside_iff.mpr (.inr (keyInRange_iff.mp hin))
  · refine .inl ⟨hrun''.trans (if_neg hin), ?_⟩
    have hbehind : fromKey < zbr.key := hhigh zbr (hrest ▸ List.mem_cons_self)
    have hgt : toKey < zbr.key := by
      by_contra hnot
      exact hin (keyInRange_iff.mpr ⟨hbehind.le, not_lt.mp hnot⟩)
    have hinorder := leaves_inOrder hc
    rw [← hon.split] at hinorder
    rw [hgap.leaves_eq, List.filter_append, outside_low hlow, ← hrest]
    refine congrArg (_ ++ ·) (outside_high (List.forall_mem_cons.mpr ⟨⟨hbehind, hgt⟩, fun x hx => ?_⟩))
    exact ⟨hinorder.right_gt hbehind x hx, hinorder.right_gt hgt x hx⟩

/-- One round removes the first branch of the range, and those behind it in its znode. -/
theorem Loc.On.round {loc : Loc ε} {l r : List Zbranch} {zbr : Zbranch} (h : loc.On c l zbr r)
    (hc : c.Ordered) (hs : c.Small fanout) (p : Zbranch → Bool) :
    let n := loc.n.toNat
    let k := ((loc.znode.drop (n + 1)).takeWhile p).length
    let znode := loc.znode.take (n + 1) ++ loc.znode.drop (n + 1 + k)
    ∃ gone rest, r = gone ++ rest ∧ (∀ x ∈ gone, p x = true) ∧ (l ++ rest ≠ [] →
      ∃ c', tncDelete { loc with znode } n = .ok c' ∧ c'.Is fanout (l ++ rest)) := by
  intro n k znode
  obtain ⟨hat, m, hn, hzbr, rfl, rfl⟩ := h
  obtain rfl : n = m := by
    change loc.n.toNat = m
    rw [hn, Int.toNat_natCast]
  obtain ⟨hlt, -⟩ := List.getElem?_eq_some_iff.mp hzbr
  have hgone : (loc.znode.drop (n + 1)).takeWhile p = (loc.znode.drop (n + 1)).take k :=
    List.prefix_iff_eq_take.mp (List.takeWhile_prefix p)
  have herase : znode.eraseIdx n = loc.znode.take n ++ loc.znode.drop (n + 1 + k) := by
    have hlen : (loc.znode.take (n + 1)).length = n + 1 := by
      rw [List.length_take]
      omega
    rw [List.eraseIdx_eq_take_drop_succ, List.drop_left' hlen,
      List.take_append_of_le_length (by omega), List.take_take, Nat.min_eq_left (Nat.le_succ n)]
  refine ⟨(loc.znode.drop (n + 1)).takeWhile p, loc.znode.drop (n + 1 + k) ++ loc.ups.right, ?_, ?_, ?_⟩
  · have hrest : loc.znode.drop (n + 1 + k) = (loc.znode.drop (n + 1)).drop k := by rw [List.drop_drop]
    rw [hgone, hrest, ← List.append_assoc, List.take_append_drop]
  · exact fun x hx => List.mem_takeWhile_imp hx
  · intro hne
    have hrow : loc.ups.left ++ loc.znode.take n ++ (loc.znode.drop (n + 1 + k) ++ loc.ups.right) =
        loc.ups.left ++ znode.eraseIdx n ++ loc.ups.right := by
      rw [herase]
      simp only [List.append_assoc]
    have hsub : (znode.eraseIdx n).Sublist loc.znode := by
      rw [herase]
      have hsub := (List.Sublist.refl (loc.znode.take n)).append
        (List.drop_sublist_drop_left loc.znode (Nat.le_add_right n (1 + k)))
      rwa [List.take_append_drop, ← Nat.add_assoc] at hsub
    rw [hrow] at hne ⊢
    exact @tncDelete_ok ε c fanout loc.znode { loc with znode } n hat hc hs hsub hne

/-- A range is removed, as long as something is left. -/
theorem ubifsTncRemoveRange_ok (hkey : ¬Hashed fromKey) :
    ∀ (fuel : Nat) {c : Zroot ε}, c.Ordered → c.Small fanout → c.leaves.length < fuel →
      c.leaves.filter (outside fromKey toKey) ≠ [] →
      ∃ c', ubifsTncRemoveRange fromKey toKey fuel c = .ok c' ∧
        c'.Is fanout (c.leaves.filter (outside fromKey toKey)) := by
  intro fuel
  induction fuel with
  | zero => exact fun _ _ hfuel => absurd hfuel (Nat.not_lt_zero _)
  | succ fuel ih =>
    intro c hc hs hfuel hne
    rw [ubifsTncRemoveRange]
    rcases firstInRange_ok hc hs hkey with ⟨hrun, hall⟩ | ⟨loc, l, zbr, r, hrun, hon, -, hin⟩
    · exact ⟨c, by rw [hrun]; rfl, hc, hs, hall.symm⟩
    obtain ⟨gone, rest, rfl, hgone, hdel⟩ :=
      hon.round hc hs fun zbr => keyInRange zbr.key fromKey toKey
    have hsame : c.leaves.filter (outside fromKey toKey) = (l ++ rest).filter (outside fromKey toKey) := by
      rw [← hon.split, ← List.cons_append, List.filter_append, List.filter_append, List.filter_append]
      have hout : ∀ x ∈ gone, outside fromKey toKey x = false := fun x hx =>
        outside_iff.mpr (.inr (keyInRange_iff.mp (hgone x hx)))
      rw [outside_nil (List.forall_mem_cons.mpr ⟨hin, hout⟩), List.nil_append]
    obtain ⟨c₁, hrun₁, his₁⟩ := hdel fun hnil => hne (by rw [hsame, hnil]; rfl)
    have hless := congrArg List.length hon.split
    simp only [List.length_append, List.length_cons] at hless
    have hfuel₁ : c₁.leaves.length < fuel := by
      rw [his₁.leaves, List.length_append]
      omega
    rw [hsame, ← his₁.leaves] at hne ⊢
    obtain ⟨c', hrun', his'⟩ := ih his₁.ordered his₁.small hfuel₁ hne
    refine ⟨c', ?_, his'⟩
    rw [hrun]
    change (tncDelete _ loc.n.toNat >>= _) = _
    rw [hrun₁]
    exact hrun'

end Range

end Ubifs.Tnc
