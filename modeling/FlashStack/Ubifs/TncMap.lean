/-
  The TNC is a map.

  Whatever is added, replaced and removed, an entry is found where the last change of it has left it
  (`tnc_is_map`).  An entry has a key, and a name too if keys of its kind collide; its name is in the leaf
  node, so that the flash is part of the state.

  Each operation of `Op` has one lemma that the tree it leaves is the changed map
  (`ubifsTncReplace_maps`, `ubifsTncRemoveRange_maps`, ...); `Op.perform_maps` has all of them.
  What the journal must not ask for is in `Op.Allowed`, in terms of the map.
-/
import FlashStack.Ubifs.TncCollisions

namespace Ubifs.Tnc

open Lib

variable {ε : Type} {c : Zroot ε} {key : Key} {nm : Name} {fanout : Nat} {nodes : Nat → Nat → Except ε Name}

/-- Where the leaf node of each entry is. -/
def Zroot.map (nodes : Nat → Nat → Except ε Name) (c : Zroot ε) : Key ×ₗ Name → Option (Nat × Nat) :=
  valueAt (entry nodes) (fun zbr => (zbr.lnum, zbr.offs)) c.leaves

/-- The tree is sound, and is this map. -/
structure Zroot.Maps (nodes : Nat → Nat → Except ε Name) (fanout : Nat)
    (map : Key ×ₗ Name → Option (Nat × Nat)) (c : Zroot ε) : Prop where
  good : c.Good nodes fanout
  map_eq : c.map nodes = map

section Rows

variable {loc : Loc ε} {l r : List Zbranch} {zbr : Zbranch} {lnum offs : Nat}

/-- A tree with these leaves is this map. -/
theorem Zroot.Is.maps {row : List Zbranch} (h : c.Is fanout row) (hsorted : SortedRow (entry nodes) row)
    (hread : ∀ x ∈ row, Hashed x.key → ∃ name, nodes x.lnum x.offs = .ok name) :
    c.Maps nodes fanout (valueAt (entry nodes) (fun zbr => (zbr.lnum, zbr.offs)) row) :=
  ⟨⟨h.ordered, h.small, h.leaves ▸ hsorted, h.leaves ▸ hread⟩, by rw [Zroot.map, h.leaves]⟩

/-- The map, around a place. -/
theorem Loc.On.map_eq (hon : loc.On c l zbr r) :
    c.map nodes = valueAt (entry nodes) (fun zbr => (zbr.lnum, zbr.offs)) (l ++ zbr :: r) := by
  rw [Zroot.map, hon.split]

/-- A key that is not hashed has one leaf. -/
theorem Loc.On.alone (h : loc.On c l zbr r) (hc : c.Ordered) (hkey : ¬Hashed zbr.key) :
    ∀ x ∈ l ++ r, x.key ≠ zbr.key := by
  have hinorder := leaves_inOrder hc
  rw [← h.split] at hinorder
  obtain ⟨hl, hr⟩ := hinorder.unique hkey
  intro x hx
  rcases List.mem_append.mp hx with hx | hx
  · exact hl x hx
  · exact hr x hx

/-- The names of the other leaves can be read. -/
theorem Zroot.Good.readable_of (h : c.Good nodes fanout) (hon : loc.On c l zbr r) :
    (∀ x ∈ l ++ r, Hashed x.key → ∃ name, nodes x.lnum x.offs = .ok name) := by
  intro x hx
  refine h.readable x ?_
  rw [← hon.split]
  rcases List.mem_append.mp hx with hx | hx
  · exact List.mem_append_left _ hx
  · exact List.mem_append_right _ (List.mem_cons_of_mem _ hx)

/-- So can that of one more. -/
theorem readable_insert {x : Zbranch}
    (h : ∀ x ∈ l ++ r, Hashed x.key → ∃ name, nodes x.lnum x.offs = .ok name)
    (hx : Hashed x.key → ∃ name, nodes x.lnum x.offs = .ok name) :
    ∀ y ∈ l ++ x :: r, Hashed y.key → ∃ name, nodes y.lnum y.offs = .ok name := by
  intro y hy
  rcases List.mem_append.mp hy with hy | hy
  · exact h y (List.mem_append_left _ hy)
  · rcases List.mem_cons.mp hy with rfl | hy
    · exact hx
    · exact h y (List.mem_append_right _ hy)

/-- The entry at a slot gets another position. -/
theorem Zroot.Good.moved (h : c.Good nodes fanout) (hon : loc.On c l zbr r)
    (hsame : entry nodes { zbr with lnum, offs } = entry nodes zbr)
    (hread : Hashed zbr.key → ∃ name, nodes lnum offs = .ok name) :
    (@Ups.plug ε 0 (loc.znode.modify loc.n.toNat fun zbr => { zbr with lnum, offs }) loc.ups).Maps nodes
      fanout (Function.update (c.map nodes) (entry nodes zbr) (some (lnum, offs))) := by
  have hrow := h.row hon
  have hrow' : SortedRow (entry nodes) (l ++ { zbr with lnum, offs } :: r) := by
    refine hrow.remove.insert ?_ ?_
    · exact fun y hy => hsame ▸ hrow.around.1 y hy
    · exact fun y hy => hsame ▸ hrow.around.2 y hy
  have hmaps := (hon.moved h.ordered h.small lnum offs).maps hrow' (readable_insert (h.readable_of hon) hread)
  rw [hrow'.valueAt_insert, hsame] at hmaps
  rwa [hon.map_eq, hrow.valueAt_insert, Function.update_idem]

/-- A new entry is put where there is a place for it. -/
theorem Zroot.Good.inserted {m : Nat} (h : c.Good nodes fanout) (hfanout : 3 ≤ fanout)
    (hplace : Place nodes c (toLex (key, nm)) loc m)
    (hentry : entry nodes ⟨key, lnum, offs⟩ = toLex (key, nm))
    (hread : Hashed key → ∃ name, nodes lnum offs = .ok name) :
    ∃ c', tncInsert fanout loc ⟨key, lnum, offs⟩ (loc.n + 1).toNat = .ok c' ∧
      c'.Maps nodes fanout (Function.update (c.map nodes) (toLex (key, nm)) (some (lnum, offs))) := by
  obtain ⟨hgap, hlow, hhigh⟩ := hplace
  have hslot : (loc.n + 1).toNat = m := by
    rw [hgap.slot]
    omega
  obtain ⟨c', hrun, his⟩ := Gap.inserted hgap hfanout h.ordered h.small lnum offs
  have hinsert : loc.ups.left ++ insertZbranch loc.znode ⟨key, lnum, offs⟩ m ++ loc.ups.right =
      (loc.ups.left ++ loc.znode.take m) ++ ⟨key, lnum, offs⟩ :: (loc.znode.drop m ++ loc.ups.right) := by
    simp only [insertZbranch, List.append_assoc, List.cons_append]
  have hcut := hgap.leaves_eq
  have hsorted := h.sorted
  have hreadable := h.readable
  rw [hcut] at hsorted hreadable
  rw [← hentry] at hlow hhigh
  have hrow := hsorted.insert hlow hhigh
  have hmaps := (hinsert ▸ his).maps hrow (readable_insert hreadable hread)
  rw [hrow.valueAt_insert, ← hcut, hentry] at hmaps
  exact ⟨c', hslot ▸ hrun, hmaps⟩

/-- A leaf is removed. -/
theorem Zroot.Good.removed (h : c.Good nodes fanout) (hon : loc.On c l zbr r)
    (hne : ∃ e, Function.update (c.map nodes) (entry nodes zbr) none e ≠ none) :
    ∃ c', tncDelete loc loc.n.toNat = .ok c' ∧
      c'.Maps nodes fanout (Function.update (c.map nodes) (entry nodes zbr) none) := by
  have hrow := h.row hon
  rw [hon.map_eq, ← hrow.valueAt_remove] at hne ⊢
  have hne' : l ++ r ≠ [] := by
    rintro hnil
    rw [hnil] at hne
    obtain ⟨e, he⟩ := hne
    exact he rfl
  obtain ⟨c', hrun, his⟩ := hon.removed h.ordered h.small hne'
  exact ⟨c', hrun, his.maps hrow.remove (h.readable_of hon)⟩

end Rows

/-! ## Moved nodes -/

section Directly

variable {loc : Loc ε} {l r : List Zbranch} {zbr : Zbranch} {lnum offs : Nat}

/-- The walk has found the branch that leads to the position, or there is none. -/
def Directed (c : Zroot ε) (key : Key) (lnum offs : Nat) (l : List Zbranch)
    (x : Except (Stop ε) (Option (Loc ε))) : Prop :=
  (∃ loc l' zbr r', x = .ok (some loc) ∧ loc.On c l' zbr r' ∧ zbr.key = key ∧ zbr.lnum = lnum ∧ zbr.offs = offs) ∨
  x = .ok none ∧ ¬Among key lnum offs l

/-- The leaf is looked for to the left. -/
theorem directlyLeft_ok (hc : c.Ordered) (hs : c.Small fanout) {fuel : Nat} (hon : loc.On c l zbr r)
    (hle : ∀ y ∈ l, y.key ≤ key) (hfuel : l.length < fuel) :
    Directed c key lnum offs l (directlyLeft key lnum offs fuel loc) := by
  induction fuel generalizing loc l zbr r with
  | zero => omega
  | succ fuel ih =>
    rw [directlyLeft]
    rcases (tncPrev_ends hc hon).ok_or hs with ⟨prev, hprev, l', zbr', r', rfl, hon'⟩ | ⟨hprev, rfl⟩
    swap
    · rw [hprev]
      exact .inr ⟨rfl, not_among (List.forall_mem_nil _)⟩
    have hinorder := leaves_inOrder hc
    rw [← hon'.split] at hinorder
    rw [hprev]
    dsimp only
    rw [hon'.zbranch]
    simp only [Bind.bind, Except.bind]
    by_cases heq : zbr'.key = key
    swap
    · rw [if_pos (by simpa using fun h => heq (Key.keysCmp_eq_iff.mp h))]
      have hlt : zbr'.key < key := (hle zbr' (by simp)).lt_of_ne heq
      refine .inr ⟨rfl, not_among fun y hy => ?_⟩
      rcases List.mem_append.mp hy with hy | hy
      · exact (hinorder.left_lt hlt y hy).ne
      · rw [List.mem_singleton.mp hy]
        exact heq
    rw [if_neg (by simp [Key.keysCmp_eq_iff.mpr heq])]
    by_cases hpos : zbr'.lnum = lnum ∧ zbr'.offs = offs
    · rw [if_pos hpos]
      exact .inl ⟨_, _, _, _, rfl, hon', heq, hpos⟩
    · rw [if_neg hpos]
      rw [List.length_append, List.length_singleton] at hfuel
      rcases ih hon' (fun y hy => hle y (List.mem_append_left _ hy)) (by omega) with hfound | ⟨hrun, hnone⟩
      · exact .inl hfound
      · refine .inr ⟨hrun, ?_⟩
        rw [among_append, among_cons]
        rintro (h | ⟨-, h⟩ | h)
        · exact hnone h
        · exact hpos ⟨h.1.symm, h.2.symm⟩
        · exact not_among (List.forall_mem_nil _) h

/-- And to the right. -/
theorem directlyRight_ok (hc : c.Ordered) (hs : c.Small fanout) {fuel : Nat} (hon : loc.On c l zbr r)
    (hle : ∀ y ∈ r, key ≤ y.key) (hfuel : r.length < fuel) :
    Directed c key lnum offs r (directlyRight key lnum offs fuel loc) := by
  induction fuel generalizing loc l zbr r with
  | zero => omega
  | succ fuel ih =>
    rw [directlyRight]
    rcases (tncNext_ends hc hon).ok_or hs with ⟨next, hnext, zbr', r', rfl, hon'⟩ | ⟨hnext, rfl⟩
    swap
    · rw [hnext]
      exact .inr ⟨rfl, not_among (List.forall_mem_nil _)⟩
    have hinorder := leaves_inOrder hc
    rw [← hon'.split] at hinorder
    rw [hnext]
    dsimp only
    rw [hon'.zbranch]
    simp only [Bind.bind, Except.bind]
    by_cases heq : zbr'.key = key
    swap
    · rw [if_pos (by simpa using fun h => heq (Key.keysCmp_eq_iff.mp h))]
      have hlt : key < zbr'.key := lt_of_le_of_ne (hle zbr' List.mem_cons_self) (Ne.symm heq)
      exact .inr ⟨rfl, not_among (List.forall_mem_cons.mpr ⟨heq, fun y hy => (hinorder.right_gt hlt y hy).ne'⟩)⟩
    rw [if_neg (by simp [Key.keysCmp_eq_iff.mpr heq])]
    by_cases hpos : zbr'.lnum = lnum ∧ zbr'.offs = offs
    · rw [if_pos hpos]
      exact .inl ⟨_, _, _, _, rfl, hon', heq, hpos⟩
    · rw [if_neg hpos]
      rw [List.length_cons] at hfuel
      rcases ih hon' (fun y hy => hle y (List.mem_cons_of_mem _ hy)) (by omega) with hfound | ⟨hrun, hnone⟩
      · exact .inl hfound
      · refine .inr ⟨hrun, ?_⟩
        rw [among_cons]
        rintro (⟨-, h⟩ | h)
        · exact hpos ⟨h.1.symm, h.2.symm⟩
        · exact hnone h

/-- It is found by its place on the media. -/
theorem resolveCollisionDirectly_ok (hc : c.Ordered) (hs : c.Small fanout) {fuel : Nat}
    (hon : loc.On c l zbr r) (heq : zbr.key = key) (hfuel : c.leaves.length < fuel) :
    Directed c key lnum offs c.leaves (resolveCollisionDirectly key lnum offs fuel loc) := by
  have hlen := congrArg List.length hon.split
  rw [List.length_append, List.length_cons] at hlen
  have hinorder := leaves_inOrder hc
  rw [← hon.split] at hinorder
  obtain ⟨-, hbehind, hbefore⟩ := List.pairwise_append.mp hinorder
  rw [resolveCollisionDirectly, hon.zbranch]
  simp only [Bind.bind, Except.bind]
  by_cases hpos : zbr.lnum = lnum ∧ zbr.offs = offs
  · rw [if_pos hpos]
    exact .inl ⟨_, _, _, _, rfl, hon, heq, hpos⟩
  rw [if_neg hpos]
  have hleft : Directed c key lnum offs l (directlyLeft key lnum offs fuel loc) :=
    directlyLeft_ok hc hs hon (fun y hy => heq ▸ (hbefore y hy zbr List.mem_cons_self).le) (by omega)
  rcases hleft with ⟨loc', l', zbr', r', hrun, hfound⟩ | ⟨hrun, hnone⟩
  · rw [hrun]
    exact .inl ⟨loc', l', zbr', r', rfl, hfound⟩
  rw [hrun]
  have hright : Directed c key lnum offs r (directlyRight key lnum offs fuel loc) :=
    directlyRight_ok hc hs hon (fun y hy => heq ▸ ((List.pairwise_cons.mp hbehind).1 y hy).le) (by omega)
  rcases hright with hfound | ⟨hrun', hnone'⟩
  · exact .inl hfound
  · refine .inr ⟨hrun', ?_⟩
    rw [← hon.split, among_append, among_cons]
    rintro (h | ⟨-, h⟩ | h)
    · exact hnone h
    · exact hpos ⟨h.1.symm, h.2.symm⟩
    · exact hnone' h

end Directly

/-! ## The changes -/

/-- What the journal asks of the index. -/
inductive Op (ε : Type)
  /-- The flash: what reading the name of the node at this position comes to. -/
  | write (lnum offs : Nat) (node : Except ε Name)
  | add (key : Key) (lnum offs : Nat)
  | addNm (key : Key) (nm : Name) (lnum offs : Nat)
  | replace (key : Key) (oldLnum oldOffs lnum offs : Nat)
  | remove (key : Key)
  | removeNm (key : Key) (nm : Name)
  | removeRange (fromKey toKey : Key)

/-- The index, and the leaf nodes. -/
structure Index (ε : Type) where
  nodes : Nat → Nat → Except ε Name
  c : Zroot ε

namespace Op

/-- What the change does to the map.  Where `fromKey` lies behind `toKey`, as for a truncation inside of
    the last block, the range is empty, and an entry with `fromKey` goes nevertheless. -/
def apply (map : Key ×ₗ Name → Option (Nat × Nat)) : Op ε → Key ×ₗ Name → Option (Nat × Nat)
  | .write _ _ _ => map
  | .add key lnum offs => Function.update map (toLex (key, [])) (some (lnum, offs))
  | .addNm key nm lnum offs => Function.update map (toLex (key, nm)) (some (lnum, offs))
  | .replace key oldLnum oldOffs lnum offs => fun e =>
    if (ofLex e).1 = key ∧ map e = some (oldLnum, oldOffs) then some (lnum, offs) else map e
  | .remove key => Function.update map (toLex (key, [])) none
  | .removeNm key nm => Function.update map (toLex (key, nm)) none
  | .removeRange fromKey toKey => fun e =>
    if (ofLex e).1 = fromKey ∨ fromKey ≤ (ofLex e).1 ∧ (ofLex e).1 ≤ toKey then none else map e

/-- No leaf node of the index is written over; the node of a new entry has its name, and a node that is
    moved is copied before; entries that can collide have names. -/
def Fits (nodes : Nat → Nat → Except ε Name) (map : Key ×ₗ Name → Option (Nat × Nat)) : Op ε → Prop
  | .write lnum offs _ => ∀ e, map e ≠ some (lnum, offs)
  | .add key _ _ => ¬Hashed key
  | .addNm key nm lnum offs => Hashed key ∧ nodes lnum offs = .ok nm
  | .replace key oldLnum oldOffs lnum offs => Hashed key → nodes lnum offs = nodes oldLnum oldOffs
  | .remove key => ¬Hashed key
  | .removeNm key _ => Hashed key
  | .removeRange fromKey _ => ¬Hashed fromKey

/-- Something stays: an index always has the root directory. -/
def Allowed (nodes : Nat → Nat → Except ε Name) (map : Key ×ₗ Name → Option (Nat × Nat)) (op : Op ε) : Prop :=
  op.Fits nodes map ∧ ∃ e, op.apply map e ≠ none

/-- What the change does to the flash. -/
def flash (nodes : Nat → Nat → Except ε Name) : Op ε → Nat → Nat → Except ε Name
  | .write lnum offs node => Function.update nodes lnum (Function.update (nodes lnum) offs node)
  | _ => nodes

/-- What it does to the tree. -/
def perform (fanout : Nat) (nodes : Nat → Nat → Except ε Name) (c : Zroot ε) :
    Op ε → Except (Stop ε) (Zroot ε)
  | .write _ _ _ => .ok c
  | .add key lnum offs => ubifsTncAdd fanout c key lnum offs
  | .addNm key nm lnum offs => ubifsTncAddNm nodes key nm fanout c lnum offs (c.leaves.length + 1)
  | .replace key oldLnum oldOffs lnum offs =>
    ubifsTncReplace key c oldLnum oldOffs lnum offs (c.leaves.length + 1)
  | .remove key => ubifsTncRemove c key
  | .removeNm key nm => ubifsTncRemoveNm nodes key nm c (c.leaves.length + 1)
  | .removeRange fromKey toKey => ubifsTncRemoveRange fromKey toKey (c.leaves.length + 1) c

/-- The flash first, then the index. -/
def step (fanout : Nat) (index : Index ε) (op : Op ε) : Except (Stop ε) (Index ε) := do
  return ⟨op.flash index.nodes, ← op.perform fanout index.nodes index.c⟩

end Op

section Changes

variable {lnum offs oldLnum oldOffs : Nat}

/-- What all changes that put an entry somewhere have in common. -/
theorem stored (h : c.Good nodes fanout) (hfanout : 3 ≤ fanout)
    {x : Except (Stop ε) (Bool × Loc ε)} (hx : Resolved nodes c (toLex (key, nm)) x)
    (hentry : entry nodes ⟨key, lnum, offs⟩ = toLex (key, nm))
    (hread : Hashed key → ∃ name, nodes lnum offs = .ok name) :
    ∃ c', (x >>= fun (found, loc) =>
        if found then
          .ok (@Ups.plug ε 0 (loc.znode.modify loc.n.toNat fun zbr => { zbr with lnum, offs }) loc.ups)
        else tncInsert fanout loc ⟨key, lnum, offs⟩ (loc.n + 1).toNat) = .ok c' ∧
      c'.Maps nodes fanout (Function.update (c.map nodes) (toLex (key, nm)) (some (lnum, offs))) := by
  rcases hx with ⟨loc, l, zbr, r, rfl, hon, heq⟩ | ⟨loc, m, rfl, hplace⟩
  · obtain rfl : zbr.key = key := congrArg (fun e => (ofLex e).1) heq
    exact ⟨_, rfl, heq ▸ h.moved hon (hentry.trans heq.symm) hread⟩
  · exact h.inserted hfanout hplace hentry hread

/-- What was found is removed. -/
theorem dropped (h : c.Good nodes fanout) {e : Key ×ₗ Name} {x : Except (Stop ε) (Bool × Loc ε)}
    (hx : Resolved nodes c e x) (hne : ∃ e', Function.update (c.map nodes) e none e' ≠ none) :
    ∃ c', (x >>= fun (found, loc) => if found then tncDelete loc loc.n.toNat else .ok c) = .ok c' ∧
      c'.Maps nodes fanout (Function.update (c.map nodes) e none) := by
  rcases hx with ⟨loc, l, zbr, r, rfl, hon, rfl⟩ | ⟨loc, m, rfl, hgap, hlow, hhigh⟩
  · exact h.removed hon hne
  · refine ⟨c, rfl, h, ?_⟩
    have hnone : c.map nodes e = none := by
      rw [Zroot.map, hgap.leaves_eq, valueAt_append, valueAt_eq_none_of_lt hlow, valueAt_eq_none_of_gt hhigh]
      rfl
    exact (Function.update_eq_self_iff.mpr hnone.symm).symm

/-- A range is removed; the first key goes in any case. -/
theorem ubifsTncRemoveRange_maps {fromKey toKey : Key} (h : c.Good nodes fanout) (hkey : ¬Hashed fromKey)
    (hne : ∃ e, Op.apply (c.map nodes) (.removeRange fromKey toKey : Op ε) e ≠ none) :
    ∃ c', ubifsTncRemoveRange fromKey toKey (c.leaves.length + 1) c = .ok c' ∧
      c'.Maps nodes fanout (Op.apply (c.map nodes) (.removeRange fromKey toKey : Op ε)) := by
  have hmap : valueAt (entry nodes) (fun zbr => (zbr.lnum, zbr.offs)) (c.leaves.filter (outside fromKey toKey)) =
      Op.apply (c.map nodes) (.removeRange fromKey toKey : Op ε) := by
    have hfilter := @SortedRow.valueAt_filter _ _ _ _ (entry nodes) (fun zbr => (zbr.lnum, zbr.offs)) c.leaves
      (outside fromKey toKey) (fun e => (ofLex e).1 = fromKey ∨ fromKey ≤ (ofLex e).1 ∧ (ofLex e).1 ≤ toKey) _ ?_
    · exact hfilter
    · intro x
      exact outside_iff
  rw [← hmap] at hne ⊢
  have hne' : c.leaves.filter (outside fromKey toKey) ≠ [] := by
    rintro hnil
    rw [hnil] at hne
    obtain ⟨e, he⟩ := hne
    exact he rfl
  obtain ⟨c', hrun, his⟩ := ubifsTncRemoveRange_ok hkey (c.leaves.length + 1) h.ordered h.small
    (Nat.lt_succ_self _) hne'
  refine ⟨c', hrun, his.maps (h.sorted.sublist List.filter_sublist) ?_⟩
  exact fun x hx => h.readable x (List.mem_of_mem_filter hx)

/-- What the map says is a leaf. -/
theorem mem_of_map {e : Key ×ₗ Name} (h : c.Good nodes fanout) :
    c.map nodes e = some (lnum, offs) ↔ ∃ x ∈ c.leaves, entry nodes x = e ∧ x.lnum = lnum ∧ x.offs = offs := by
  rw [Zroot.map, h.sorted.valueAt_eq_some_iff]
  simp only [Prod.mk.injEq]

/-- At a position there is at most one entry with a key. -/
theorem replace_eq_update (h : c.Good nodes fanout) {loc : Loc ε} {l r : List Zbranch} {zbr : Zbranch}
    (hon : loc.On c l zbr r) (hpos : zbr.lnum = oldLnum ∧ zbr.offs = oldOffs) :
    Op.apply (c.map nodes) (.replace zbr.key oldLnum oldOffs lnum offs : Op ε) =
      Function.update (c.map nodes) (entry nodes zbr) (some (lnum, offs)) := by
  obtain ⟨rfl, rfl⟩ := hpos
  funext e
  by_cases he : e = entry nodes zbr
  · subst he
    have hself : c.map nodes (entry nodes zbr) = some (zbr.lnum, zbr.offs) := by
      rw [hon.map_eq]
      exact (h.row hon).valueAt_self
    rw [Function.update_self]
    exact if_pos ⟨rfl, hself⟩
  · rw [Function.update_of_ne he]
    refine if_neg ?_
    rintro ⟨hkey, hmap⟩
    obtain ⟨x, -, rfl, hlnum, hoffs⟩ := (mem_of_map h).mp hmap
    refine he ?_
    have hkey : x.key = zbr.key := hkey
    rw [entry, entry, hkey, hlnum, hoffs]

/-- Nothing is replaced if nothing is at that place. -/
theorem replace_eq_self (h : c.Good nodes fanout) (hnone : ¬Among key oldLnum oldOffs c.leaves) :
    Op.apply (c.map nodes) (.replace key oldLnum oldOffs lnum offs : Op ε) = c.map nodes := by
  funext e
  refine if_neg ?_
  rintro ⟨hkey, hmap⟩
  obtain ⟨x, hx, rfl, hlnum, hoffs⟩ := (mem_of_map h).mp hmap
  exact hnone ⟨x, hx, hkey, hlnum.symm, hoffs.symm⟩

/-- A leaf gets another place. -/
theorem ubifsTncReplace_maps (h : c.Good nodes fanout)
    (hcopy : Hashed key → nodes lnum offs = nodes oldLnum oldOffs) :
    ∃ c', ubifsTncReplace key c oldLnum oldOffs lnum offs (c.leaves.length + 1) = .ok c' ∧
      c'.Maps nodes fanout (Op.apply (c.map nodes) (.replace key oldLnum oldOffs lnum offs : Op ε)) := by
  have hmoved : ∀ {loc : Loc ε} {l : List Zbranch} {zbr : Zbranch} {r : List Zbranch}, loc.On c l zbr r →
      zbr.key = key → zbr.lnum = oldLnum ∧ zbr.offs = oldOffs →
      (@Ups.plug ε 0 (loc.znode.modify loc.n.toNat fun zbr => { zbr with lnum, offs }) loc.ups).Maps nodes
        fanout (Op.apply (c.map nodes) (.replace key oldLnum oldOffs lnum offs : Op ε)) := by
    rintro loc l zbr r hon rfl hpos
    rw [replace_eq_update h hon hpos]
    obtain ⟨rfl, rfl⟩ := hpos
    refine h.moved hon ?_ ?_
    · by_cases hkey : Hashed zbr.key
      · rw [entry_hashed hkey, @entry_hashed _ nodes { zbr with lnum, offs } hkey, nameAt, nameAt, hcopy hkey]
      · rw [entry_single hkey, @entry_single _ nodes { zbr with lnum, offs } hkey]
    · intro hkey
      obtain ⟨name, hname⟩ := h.readable zbr (hon.split ▸ List.mem_append_right _ List.mem_cons_self) hkey
      exact ⟨name, (hcopy hkey).trans hname⟩
  have hstays : ¬Among key oldLnum oldOffs c.leaves →
      c.Maps nodes fanout (Op.apply (c.map nodes) (.replace key oldLnum oldOffs lnum offs : Op ε)) :=
    fun hnone => ⟨h, (replace_eq_self h hnone).symm⟩
  rcases lookup_ok h.ordered h.small key with ⟨loc, l, zbr, r, hrun, hon, heq⟩ | ⟨loc, m, hrun, hgap, habsent⟩
  swap
  · exact ⟨c, by rw [ubifsTncReplace, hrun]; rfl, hstays (not_among habsent)⟩
  rw [ubifsTncReplace, hrun]
  simp only [Bind.bind, Except.bind, if_true]
  rw [hon.zbranch]
  dsimp only
  by_cases hpos : zbr.lnum = oldLnum ∧ zbr.offs = oldOffs
  · rw [if_pos hpos]
    exact ⟨_, rfl, hmoved hon heq hpos⟩
  rw [if_neg hpos]
  by_cases hkey : key.isHashKey = true
  · rw [if_pos hkey]
    have hdirect : Directed c key oldLnum oldOffs c.leaves _ :=
      resolveCollisionDirectly_ok h.ordered h.small hon heq (Nat.lt_succ_self _)
    rcases hdirect with ⟨loc', l', zbr', r', hres, hon', heq', hpos'⟩ | ⟨hres, hnone⟩
    · rw [hres]
      exact ⟨_, rfl, hmoved hon' heq' hpos'⟩
    · rw [hres]
      exact ⟨c, rfl, hstays hnone⟩
  · rw [if_neg hkey]
    refine ⟨c, rfl, hstays ?_⟩
    have halone := hon.alone h.ordered (heq ▸ hkey)
    rw [← hon.split, among_append, among_cons]
    rintro (⟨x, hx, hk, -⟩ | ⟨-, hp⟩ | ⟨x, hx, hk, -⟩)
    · exact halone x (List.mem_append_left _ hx) (hk.trans heq.symm)
    · exact hpos ⟨hp.1.symm, hp.2.symm⟩
    · exact halone x (List.mem_append_right _ hx) (hk.trans heq.symm)

/-- The flash is written where no branch leads. -/
theorem write_maps (h : c.Good nodes fanout) (node : Except ε Name)
    (hfree : ∀ e, c.map nodes e ≠ some (lnum, offs)) :
    c.Maps (Op.flash nodes (.write lnum offs node)) fanout (c.map nodes) := by
  have hsame : ∀ x ∈ c.leaves, Op.flash nodes (.write lnum offs node) x.lnum x.offs = nodes x.lnum x.offs := by
    intro x hx
    rw [Op.flash]
    by_cases hlnum : x.lnum = lnum
    · by_cases hoffs : x.offs = offs
      · exact absurd ((mem_of_map h).mpr ⟨x, hx, rfl, hlnum, hoffs⟩) (hfree _)
      · rw [hlnum, Function.update_self, Function.update_of_ne hoffs]
    · rw [Function.update_of_ne hlnum]
  have hentry : ∀ x ∈ c.leaves, entry (Op.flash nodes (.write lnum offs node)) x = entry nodes x := by
    intro x hx
    rw [entry, entry, nameAt, nameAt, hsame x hx]
  refine ⟨⟨h.ordered, h.small, ?_, ?_⟩, ?_⟩
  · refine h.sorted.imp_of_mem fun ha hb hab => ?_
    rwa [hentry _ ha, hentry _ hb]
  · exact fun x hx hkey => hsame x hx ▸ h.readable x hx hkey
  · funext e
    exact congrArg _ (List.find?_congr fun x hx => by rw [hentry x hx])

end Changes

/-- Any operation that the journal may ask for. -/
theorem Op.perform_maps (h : c.Good nodes fanout) (hfanout : 3 ≤ fanout) {op : Op ε}
    (hop : op.Allowed nodes (c.map nodes)) :
    ∃ c', op.perform fanout nodes c = .ok c' ∧ c'.Maps (op.flash nodes) fanout (op.apply (c.map nodes)) := by
  obtain ⟨hfits, hne⟩ := hop
  have hfuel := Nat.lt_succ_self c.leaves.length
  cases op with
  | write lnum offs node => exact ⟨c, rfl, write_maps h node hfits⟩
  | add key lnum offs =>
    have hkey : ¬Hashed key := hfits
    exact stored h hfanout (lookupLevel0_ok h hkey) (@entry_single _ nodes ⟨key, lnum, offs⟩ hkey)
      fun hhash => absurd hhash hkey
  | addNm key nm lnum offs =>
    obtain ⟨hkey, hnode⟩ : Hashed key ∧ nodes lnum offs = .ok nm := hfits
    have hentry : entry nodes ⟨key, lnum, offs⟩ = toLex (key, nm) := by
      rw [@entry_hashed _ nodes ⟨key, lnum, offs⟩ hkey, nameAt, hnode]
    exact stored h hfanout (lookupNm_ok h hkey nm hfuel) hentry fun _ => ⟨nm, hnode⟩
  | replace key oldLnum oldOffs lnum offs => exact ubifsTncReplace_maps h hfits
  | remove key => exact dropped h (lookupLevel0_ok h hfits) hne
  | removeNm key nm => exact dropped h (lookupNm_ok h hfits nm hfuel) hne
  | removeRange fromKey toKey => exact ubifsTncRemoveRange_maps h hfits hne

/-! ## The lookup -/

/-- The search comes to what the map has. -/
theorem Resolved.map {e : Key ×ₗ Name} {x : Except (Stop ε) (Bool × Loc ε)} (h : Resolved nodes c e x)
    (hc : c.Good nodes fanout) : (x >>= fun (found, loc) =>
      if found then do
        let zbr ← loc.zbranch
        return some (zbr.lnum, zbr.offs)
      else return none) = .ok (c.map nodes e) := by
  rcases h with ⟨loc, l, zbr, r, rfl, hon, rfl⟩ | ⟨loc, m, rfl, hgap, hlow, hhigh⟩
  · rw [hon.map_eq, (hc.row hon).valueAt_self]
    change (loc.zbranch >>= _) = _
    rw [hon.zbranch]
    rfl
  · rw [Zroot.map, hgap.leaves_eq, valueAt_append, valueAt_eq_none_of_lt hlow, valueAt_eq_none_of_gt hhigh]
    rfl

/-- A look-up of a key. -/
theorem ubifsTncLocate_ok (h : c.Good nodes fanout) (hkey : ¬Hashed key) :
    ubifsTncLocate c key = .ok (c.map nodes (toLex (key, []))) := (lookupLevel0_ok h hkey).map h

/-- A look-up of a name. -/
theorem ubifsTncLookupNm_ok (h : c.Good nodes fanout) (hkey : Hashed key) (nm : Name) :
    ubifsTncLookupNm nodes key nm c (c.leaves.length + 1) = .ok (c.map nodes (toLex (key, nm))) := by
  rcases lookup_ok h.ordered h.small key with ⟨loc, l, zbr, r, hrun, hon, rfl⟩ | ⟨loc, m, hrun, hgap, habsent⟩
  · have hlocate : ubifsTncLocate c zbr.key = .ok (some (zbr.lnum, zbr.offs)) := by
      rw [ubifsTncLocate, hrun]
      change (loc.zbranch >>= _) = _
      rw [hon.zbranch]
      rfl
    obtain ⟨name, hname⟩ := h.readable zbr (hon.split ▸ List.mem_append_right _ List.mem_cons_self) hkey
    have hread : readName nodes zbr.lnum zbr.offs = .ok name := by rw [readName, hname]
    rw [ubifsTncLookupNm, hlocate]
    simp only [Bind.bind, Except.bind]
    rw [hread]
    dsimp only
    by_cases hsame : name = nm
    · -- there is no collision
      subst hsame
      have hentry : entry nodes zbr = toLex (zbr.key, name) := by rw [entry_hashed hkey, nameAt, hname]
      rw [if_pos rfl, hon.map_eq, ← hentry, (h.row hon).valueAt_self]
      rfl
    · rw [if_neg hsame]
      exact (lookupNm_ok h hkey nm (Nat.lt_succ_self _)).map h
  · have hlocate : ubifsTncLocate c key = .ok none := by
      rw [ubifsTncLocate, hrun]
      rfl
    have hnone : c.map nodes (toLex (key, nm)) = none :=
      valueAt_eq_none_iff.mpr fun x hx heq => habsent x hx (congrArg (fun e => (ofLex e).1) heq)
    rw [ubifsTncLookupNm, hlocate, hnone]
    rfl

/-- Each change is allowed where it is made. -/
def Op.AllAllowed : (Nat → Nat → Except ε Name) → (Key ×ₗ Name → Option (Nat × Nat)) → List (Op ε) → Prop
  | _, _, [] => True
  | nodes, map, op :: ops => op.Allowed nodes map ∧ AllAllowed (op.flash nodes) (op.apply map) ops

/-- **The TNC is a map.**  Any changes that are made to it leave a search tree with room in its znodes,
    which has for each entry what they leave in a map; and this is where the lookup finds it, by its name
    if keys of this kind collide. -/
theorem tnc_is_map (hfanout : 3 ≤ fanout) (ops : List (Op ε)) (index : Index ε)
    (hgood : index.c.Good index.nodes fanout)
    (hops : Op.AllAllowed index.nodes (index.c.map index.nodes) ops) :
    ∃ index', ops.foldlM (Op.step fanout) index = .ok index' ∧ index'.c.Good index'.nodes fanout ∧
      (∀ key, ¬Hashed key → ubifsTncLocate index'.c key =
        .ok (ops.foldl Op.apply (index.c.map index.nodes) (toLex (key, [])))) ∧
      ∀ key nm, Hashed key →
        ubifsTncLookupNm index'.nodes key nm index'.c (index'.c.leaves.length + 1) =
          .ok (ops.foldl Op.apply (index.c.map index.nodes) (toLex (key, nm))) := by
  induction ops generalizing index with
  | nil =>
    exact ⟨index, rfl, hgood, fun _ hkey => ubifsTncLocate_ok hgood hkey,
      fun _ nm hkey => ubifsTncLookupNm_ok hgood hkey nm⟩
  | cons op ops ih =>
    obtain ⟨c', hrun, hgood', hmap⟩ := Op.perform_maps hgood hfanout hops.1
    have hops' := hops.2
    rw [← hmap] at hops'
    obtain ⟨index', hrun', hres⟩ := ih ⟨op.flash index.nodes, c'⟩ hgood' hops'
    rw [hmap] at hres
    refine ⟨index', ?_, hres⟩
    rw [List.foldlM_cons, Op.step, hrun]
    exact hrun'

namespace Directory

/-- An inode, and two entries of its directory. -/
def inode : Key := ⟨word 1, word 0⟩

def dentry : Key := dent (word 1)

/-- Three names; the first two have the same hash. -/
def nameA : Name := [97]
def nameB : Name := [98]
def nameC : Name := [99]

/-- An inode, and leaf nodes without names. -/
def empty : Index Unit := ⟨fun _ _ => .error (), ⟨0, [⟨inode, 20, 0⟩], none⟩⟩

/-- Three entries have one key.  One of them is moved, and another one removed. -/
def changes : List (Op Unit) :=
  [.write 21 0 (.ok nameB), .addNm dentry nameB 21 0, .write 21 160 (.ok nameA), .addNm dentry nameA 21 160,
    .write 21 320 (.ok nameC), .addNm dentry nameC 21 320, .write 22 0 (.ok nameA),
    .replace dentry 21 160 22 0, .removeNm dentry nameB]

theorem update_ne {κ γ : Type} [DecidableEq κ] {map : κ → Option γ} {k : κ} {v : Option γ} {p : γ}
    (h : ∀ e, map e ≠ some p) (hv : v ≠ some p) (e : κ) : Function.update map k v e ≠ some p := by
  by_cases he : e = k
  · rw [he, Function.update_self]
    exact hv
  · rw [Function.update_of_ne he]
    exact h e

theorem tnc_is_map_collisions : ∃ index', changes.foldlM (Op.step 3) empty = .ok index' ∧
    ubifsTncLookupNm index'.nodes dentry nameA index'.c (index'.c.leaves.length + 1) = .ok (some (22, 0)) ∧
    ubifsTncLookupNm index'.nodes dentry nameB index'.c (index'.c.leaves.length + 1) = .ok none := by
  have hkey : Hashed dentry := by unfold Hashed; decide +kernel
  have hroot : ¬Hashed inode := by unfold Hashed; decide +kernel
  have hgood : empty.c.Good empty.nodes 3 := by
    refine ⟨⟨List.cons_ne_nil _ _, List.pairwise_singleton _ _⟩, ⟨rfl, show List.length _ ≤ 3 by decide⟩,
      List.pairwise_singleton _ _, fun x hx hhash => ?_⟩
    obtain rfl := List.mem_singleton.mp hx
    exact absurd hhash hroot
  have hfree : ∀ p : Nat × Nat, (20, 0) ≠ p → ∀ e, empty.c.map empty.nodes e ≠ some p := by
    intro p hp e hmap
    obtain ⟨x, hx, -, hpos⟩ := hgood.sorted.valueAt_eq_some_iff.mp hmap
    obtain rfl := List.mem_singleton.mp hx
    exact hp hpos
  have hops : Op.AllAllowed empty.nodes (empty.c.map empty.nodes) changes := by
    refine ⟨⟨hfree _ (by decide), toLex (inode, []), ?_⟩, ⟨⟨hkey, rfl⟩, toLex (inode, []), ?_⟩,
      ⟨update_ne (hfree _ (by decide)) (by decide), toLex (inode, []), ?_⟩,
      ⟨⟨hkey, rfl⟩, toLex (inode, []), ?_⟩,
      ⟨update_ne (update_ne (hfree _ (by decide)) (by decide)) (by decide), toLex (inode, []), ?_⟩,
      ⟨⟨hkey, rfl⟩, toLex (inode, []), ?_⟩,
      ⟨update_ne (update_ne (update_ne (hfree _ (by decide)) (by decide)) (by decide)) (by decide),
        toLex (inode, []), ?_⟩,
      ⟨fun _ => rfl, toLex (inode, []), ?_⟩, ⟨hkey, toLex (inode, []), ?_⟩, trivial⟩ <;>
      decide +kernel
  obtain ⟨index', hrun, -, -, hlookup⟩ := tnc_is_map (Nat.le_refl 3) changes empty hgood hops
  exact ⟨index', hrun, (hlookup _ nameA hkey).trans (congrArg Except.ok (by decide +kernel)),
    (hlookup _ nameB hkey).trans (congrArg Except.ok (by decide +kernel))⟩

end Directory

end Ubifs.Tnc
