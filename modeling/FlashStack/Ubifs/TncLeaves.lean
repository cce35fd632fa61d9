/-
  The liveness test of the garbage collector (`is_leaf_node_in_tnc` in `tnc.c`).

  The branches of level zero, from left to right, are in the order of their keys.  A walk is at one of
  them, and a step goes to its neighbour, whatever znodes there are between the two.  The search for a
  key ends at a branch that has it if there is one, so that the walks to the left and to the right find
  all others.
-/
import FlashStack.Ubifs.Tnc

namespace Ubifs.Tnc

open Lib

variable {ε α β : Type}

/-! ## What is in a subtree -/

/-- The branches of level zero. -/
def leaves : (level : Nat) → Znode ε level → List Zbranch
  | 0, znode => znode
  | level + 1, znode => List.flatMap (fun zbr => leaves level zbr.znode) znode

/-- The keys of the branches of all levels. -/
def keys : (level : Nat) → Znode ε level → List Key
  | 0, znode => List.map Zbranch.key znode
  | level + 1, znode => List.flatMap (fun zbr => zbr.key :: keys level zbr.znode) znode

/-- The errors that reading znodes ends with. -/
def faults : (level : Nat) → Znode ε level → List ε
  | 0, _ => []
  | level + 1, znode => List.flatMap (fun zbr => zbr.fault.toList ++ faults level zbr.znode) znode

/-- The key is made from the hash of a name. -/
def Hashed (key : Key) : Prop := key.isHashKey = true

/-- No znode is empty.  The keys below a branch are not lower than its key, and they may stand before
    the key of the next branch: only a hashed key may be equal to it. -/
def Ordered : (level : Nat) → Znode ε level → Prop
  | 0, znode => znode ≠ [] ∧ InOrder Hashed Zbranch.key znode
  | level + 1, znode => znode ≠ [] ∧
    (∀ zbr ∈ znode,
      Ordered level zbr.znode ∧ ∀ k ∈ keys level zbr.znode, zbr.key ≤ k) ∧
    List.Pairwise (fun a b => ∀ k ∈ a.key :: keys level a.znode, Ahead Hashed k b.key) znode

namespace Zroot

variable (c : Zroot ε)

/-- The leaves of the tree, from left to right. -/
def leaves : List Zbranch := Tnc.leaves c.level c.znode

/-- What loading a znode of the tree may fail with. -/
def faults : List ε := c.fault.toList ++ Tnc.faults c.level c.znode

/-- Keys go up from left to right; those of names may be equal. -/
def Ordered : Prop := Tnc.Ordered c.level c.znode

/-- The index has a leaf node at this position, under this key. -/
def Has (key : Key) (lnum offs : Nat) : Prop :=
  ∃ zbr ∈ c.leaves, zbr.key = key ∧ lnum = zbr.lnum ∧ offs = zbr.offs

end Zroot

/-- The key of a leaf is one of the keys of the tree. -/
theorem key_mem_keys {zbr : Zbranch} : ∀ {level : Nat} {znode : Znode ε level},
    zbr ∈ leaves level znode → zbr.key ∈ keys level znode
  | 0, _, h => List.mem_map_of_mem h
  | level + 1, _, h => by
    obtain ⟨kid, hkid, hmem⟩ := List.mem_flatMap.mp h
    exact List.mem_flatMap.mpr ⟨kid, hkid, List.mem_cons_of_mem _ (key_mem_keys hmem)⟩

/-- In a tree whose keys go up, the leaves go up. -/
theorem Ordered.leaves_inOrder : ∀ {level : Nat} {znode : Znode ε level},
    Ordered level znode → InOrder Hashed Zbranch.key (leaves level znode)
  | 0, _, h => h.2
  | level + 1, znode, ⟨_, hkids, hpairs⟩ => by
    refine List.pairwise_flatMap.mpr ⟨fun zbr hzbr => (hkids zbr hzbr).1.leaves_inOrder, ?_⟩
    refine hpairs.imp_of_mem ?_
    intro a b _ hb hab x hx y hy
    have hx := hab x.key (List.mem_cons_of_mem _ (key_mem_keys hx))
    exact hx.trans_le ((hkids b hb).2 _ (key_mem_keys hy))

/-! ## Paths -/

/-- What is to the left of the end of a path. -/
def Ups.left : {level : Nat} → Ups ε level → List Zbranch
  | _, .root => []
  | level, .child zp iip ups =>
    ups.left ++ List.flatMap (fun zbr => leaves level zbr.znode) (List.take iip zp)

/-- The leaves to the right of the path. -/
def Ups.right : {level : Nat} → Ups ε level → List Zbranch
  | _, .root => []
  | level, .child zp iip ups =>
    List.flatMap (fun zbr => leaves level zbr.znode) (List.drop (iip + 1) zp) ++ ups.right

/-- The path leads from the root to this znode. -/
inductive At (c : Zroot ε) : {level : Nat} → Znode ε level → Ups ε level → Prop
  | root : At c c.znode .root
  | child {level iip : Nat} {zp : Znode ε (level + 1)} {ups : Ups ε (level + 1)}
      {zbr : Child ε (Znode ε level)} (parent : At c zp ups)
      (slot : zp[iip]? = some zbr) :
      At c zbr.znode (.child zp iip ups)

section Paths

variable {c : Zroot ε} {level iip : Nat}

/-- A list is what is in front of an element, the element and what is behind it. -/
theorem take_getElem? {l : List α} {i : Nat} {x : α} (h : l[i]? = some x) :
    l.take (i + 1) = l.take i ++ [x] := by
  rw [List.take_add_one, h, Option.toList_some]

theorem split_getElem? {l : List α} {i : Nat} {x : α} (h : l[i]? = some x) :
    l = l.take i ++ x :: l.drop (i + 1) := by
  obtain ⟨hi, rfl⟩ := List.getElem?_eq_some_iff.mp h
  rw [List.getElem_cons_drop, List.take_append_drop]

/-- What is left of a child is what was left of its parent, and the children in front of it. -/
theorem left_child {zp : List (Child ε (Znode ε level))} {zbr : Child ε (Znode ε level)}
    {ups : Ups ε (level + 1)} (slot : zp[iip]? = some zbr) :
    (Ups.child zp iip ups).left ++ leaves level zbr.znode =
      ups.left ++ (zp.take (iip + 1)).flatMap fun zbr => leaves level zbr.znode := by
  rw [take_getElem? slot, List.flatMap_append, ← List.append_assoc, List.flatMap_singleton]
  rfl

/-- The leaves are those left of the path, those below it and those right of it. -/
theorem At.leaves_eq {znode : Znode ε level} {ups : Ups ε level} (h : At c znode ups) :
    ups.left ++ leaves level znode ++ ups.right = c.leaves := by
  induction h with
  | root => exact List.append_nil _
  | @child level iip zp ups zbr _ slot ih =>
    have hzp : leaves (level + 1) zp = List.flatMap (fun zbr => leaves level zbr.znode)
        (List.take iip zp ++ zbr :: List.drop (iip + 1) zp) :=
      congrArg _ (split_getElem? slot)
    rw [← ih, hzp, List.flatMap_append, List.flatMap_cons]
    simp only [Ups.left, Ups.right, List.append_assoc]

/-- Below any path the keys go up. -/
theorem At.ordered {znode : Znode ε level} {ups : Ups ε level} (hc : c.Ordered)
    (h : At c znode ups) : Ordered level znode := by
  induction h with
  | root => exact hc
  | child _ slot ih => exact (ih.2.1 _ (List.mem_of_getElem? slot)).1

/-- What can fail below a path can fail in the tree. -/
theorem At.faults_subset {znode : Znode ε level} {ups : Ups ε level} (h : At c znode ups) :
    ∀ f ∈ faults level znode, f ∈ c.faults := by
  induction h with
  | root => exact fun f hf => List.mem_append_right _ hf
  | child _ slot ih =>
    intro f hf
    exact ih f (List.mem_flatMap.mpr ⟨_, List.mem_of_getElem? slot, List.mem_append_right _ hf⟩)

end Paths

/-! ## How a walk ends -/

/-- With a result that has `q`; in `-ENOENT` only if `p`; or with an error of reading a znode. -/
def Ends (c : Zroot ε) (p : Prop) (q : α → Prop) : Except (Stop ε) α → Prop
  | .ok a => q a
  | .error .enoent => p
  | .error (.load err) => err ∈ c.faults
  | .error .wild => False

namespace Ends

variable {c : Zroot ε} {p p' : Prop} {q : α → Prop} {q' : β → Prop} {x : Except (Stop ε) α}

/-- Steps in a row. -/
theorem bind {f : α → Except (Stop ε) β} (h : Ends c p q x) (hp : p → p')
    (hf : ∀ a, q a → Ends c p' q' (f a)) : Ends c p' q' (x >>= f) := by
  cases x with
  | ok a => exact hf a h
  | error e =>
    cases e with
    | enoent => exact hp h
    | load err => exact h
    | wild => exact h

theorem mono {r : α → Prop} (h : Ends c p q x) (hp : p → p') (hq : ∀ a, q a → r a) :
    Ends c p' r x := by
  cases x with
  | ok a => exact hq a h
  | error e =>
    cases e with
    | enoent => exact hp h
    | load err => exact h
    | wild => exact h

end Ends

/-- The walk is at the branch `zbr`, with `l` to the left of it and `r` to the right. -/
structure Loc.On (c : Zroot ε) (loc : Loc ε) (l : List Zbranch) (zbr : Zbranch)
    (r : List Zbranch) : Prop where
  path : @At ε c 0 loc.znode loc.ups
  slot : ∃ m : Nat, loc.n = m ∧ loc.znode[m]? = some zbr ∧
    l = loc.ups.left ++ loc.znode.take m ∧ r = loc.znode.drop (m + 1) ++ loc.ups.right

section Steps

variable {c : Zroot ε} {loc : Loc ε} {l r : List Zbranch} {zbr : Zbranch} {level : Nat}

/-- A place splits the leaves. -/
theorem Loc.On.split (h : loc.On c l zbr r) : l ++ zbr :: r = c.leaves := by
  obtain ⟨path, m, -, hzbr, rfl, rfl⟩ := h
  rw [← path.leaves_eq]
  conv_rhs => rw [show leaves 0 loc.znode = loc.znode from rfl, split_getElem? hzbr]
  simp only [List.append_assoc, List.cons_append]

/-- The branch at that place can be read. -/
theorem Loc.On.zbranch (h : loc.On c l zbr r) : loc.zbranch = .ok zbr := by
  obtain ⟨-, m, hn, hzbr, -, -⟩ := h
  rw [Loc.zbranch, if_neg (by omega), hn, Int.toNat_natCast, hzbr]

/-- Going down to a child, which may have to be read. -/
theorem getZnode_ends {znode : Znode ε (level + 1)} {ups : Ups ε (level + 1)} {n : Nat}
    (h : At c znode ups) (hn : n < List.length znode) :
    Ends c False (fun z => At c z (.child znode n ups) ∧
      ∃ kid, znode[n]? = some kid ∧ kid.znode = z)
      (getZnode znode n) := by
  have hkid := List.getElem?_eq_getElem hn
  rw [getZnode, hkid]
  dsimp only
  cases hfault : znode[n].fault with
  | none => exact ⟨.child h hkid, _, rfl, rfl⟩
  | some err =>
    refine h.faults_subset err (List.mem_flatMap.mpr ⟨_, List.getElem_mem hn, ?_⟩)
    exact List.mem_append_left _ (by simp [hfault])

/-- A znode of the path has a child. -/
theorem length_pos (hc : c.Ordered) {znode : Znode ε (level + 1)} {ups : Ups ε (level + 1)}
    (h : At c znode ups) : 0 < List.length znode :=
  List.length_pos_iff.mpr (h.ordered hc).1

/-- Down to the first leaf below a znode. -/
theorem leftmost_ends (hc : c.Ordered) : ∀ (level : Nat) {znode : Znode ε level} {ups : Ups ε level},
    At c znode ups →
    Ends c False (fun loc => ∃ zbr r, loc.On c ups.left zbr r) (leftmost level znode ups)
  | 0, znode, ups, h => by
    obtain ⟨zbr, rest, hznode⟩ := List.exists_cons_of_ne_nil (h.ordered hc).1
    refine ⟨zbr, rest ++ ups.right, h, 0, rfl, ?_, (List.append_nil _).symm, ?_⟩
    · exact (congrArg (·[0]?) hznode).trans rfl
    · exact (congrArg (List.drop 1 · ++ ups.right) hznode).symm
  | level + 1, znode, ups, h => by
    refine (getZnode_ends h (length_pos hc h)).bind id fun z hz => ?_
    refine (leftmost_ends hc level hz.1).mono id ?_
    rintro loc ⟨zbr, r, hon⟩
    rw [Ups.left, List.take_zero, List.flatMap_nil, List.append_nil] at hon
    exact ⟨zbr, r, hon⟩

/-- Down to the last leaf below it. -/
theorem rightmost_ends (hc : c.Ordered) : ∀ (level : Nat) {znode : Znode ε level}
    {ups : Ups ε level}, At c znode ups →
    Ends c False (fun loc => ∃ l zbr r, loc.On c l zbr r ∧ l ++ [zbr] = ups.left ++ leaves level znode)
      (rightmost level znode ups)
  | 0, znode, ups, h => by
    have hpos : 0 < List.length znode := List.length_pos_iff.mpr (h.ordered hc).1
    have hlast := @List.getElem?_eq_getElem _ znode (List.length znode - 1) (by omega)
    refine ⟨_, _, _, ⟨h, List.length znode - 1, ?_, hlast, rfl, rfl⟩, ?_⟩
    · show (List.length znode : Int) - 1 = _
      omega
    · rw [List.append_assoc, ← take_getElem? hlast, List.take_of_length_le (by omega)]
      rfl
  | level + 1, znode, ups, h => by
    have hpos := length_pos hc h
    refine (getZnode_ends h (by omega)).bind id ?_
    rintro _ ⟨hz, kid, hkid, rfl⟩
    refine (rightmost_ends hc level hz).mono id ?_
    rintro loc ⟨l, zbr, r, hon, hl⟩
    refine ⟨l, zbr, r, hon, hl.trans ?_⟩
    rw [left_child hkid, List.take_of_length_le (by omega)]
    rfl

/-- Up until there is a sibling to the right, or to the root. -/
theorem nextUp_ends (hc : c.Ordered) {znode : Znode ε level} {ups : Ups ε level}
    (h : At c znode ups) :
    Ends c (ups.right = []) (fun loc => ∃ zbr r, loc.On c (ups.left ++ leaves level znode) zbr r)
      (nextUp ups) := by
  induction h with
  | root =>
    rw [nextUp]
    exact Ups.right.eq_1 _
  | @child level iip zp ups kid parent slot ih =>
    rw [nextUp, left_child slot]
    split
    · rename_i hlt
      refine ((getZnode_ends parent hlt).bind (fun h => h.elim) ?_)
      rintro z ⟨hz, -⟩
      exact (leftmost_ends hc level hz).mono False.elim fun _ h => h
    · rename_i hge
      have hlen : List.length zp ≤ iip + 1 := by omega
      rw [List.take_of_length_le hlen]
      refine ih.mono ?_ fun _ h => h
      intro hright
      rw [Ups.right, List.drop_eq_nil_of_le hlen, List.flatMap_nil, hright, List.append_nil]

/-- The same to the left. -/
theorem prevUp_ends (hc : c.Ordered) {znode : Znode ε level} {ups : Ups ε level}
    (h : At c znode ups) :
    Ends c (ups.left = []) (fun loc => ∃ l zbr r, loc.On c l zbr r ∧ l ++ [zbr] = ups.left)
      (prevUp ups) := by
  induction h with
  | root =>
    rw [prevUp]
    exact Ups.left.eq_1 _
  | @child level iip zp ups kid parent slot ih =>
    obtain ⟨hlt, -⟩ := List.getElem?_eq_some_iff.mp slot
    rw [prevUp, Ups.left]
    split
    · rename_i hpos
      refine (getZnode_ends parent (by omega)).bind (fun h => h.elim) ?_
      rintro _ ⟨hz, kid, hkid, rfl⟩
      refine (rightmost_ends hc level hz).mono False.elim ?_
      rintro loc ⟨l, zbr, r, hon, hl⟩
      refine ⟨l, zbr, r, hon, hl.trans ?_⟩
      rw [left_child hkid, Nat.sub_add_cancel hpos]
    · rename_i hzero
      obtain rfl : iip = 0 := by omega
      rw [List.take_zero, List.flatMap_nil, List.append_nil]
      exact ih

/-- What is to the right is fixed by what is to the left. -/
theorem Loc.On.right_eq {loc' : Loc ε} {l' r' : List Zbranch} {zbr' : Zbranch}
    (h : loc.On c l zbr r) (h' : loc'.On c l' zbr' r') (hl : l' = l ++ [zbr]) : zbr' :: r' = r := by
  have hsplit := h'.split.trans h.split.symm
  rw [hl, List.append_assoc, List.append_cancel_left_eq] at hsplit
  exact (List.cons.inj hsplit).2

/-- `tnc_next` comes to the next leaf; it fails only at the last one, or when a znode cannot be
    read. -/
theorem tncNext_ends (hc : c.Ordered) (h : loc.On c l zbr r) :
    Ends c (r = []) (fun loc' => ∃ zbr' r', r = zbr' :: r' ∧ loc'.On c (l ++ [zbr]) zbr' r')
      (tncNext loc) := by
  obtain ⟨path, m, hn, hzbr, hl, hr⟩ := id h
  rw [tncNext]
  split
  · rename_i hlt
    have hnext := @List.getElem?_eq_getElem _ loc.znode (m + 1) (by omega)
    have hon : Loc.On c { loc with n := loc.n + 1 } (l ++ [zbr]) loc.znode[m + 1]
        (loc.znode.drop (m + 2) ++ loc.ups.right) := by
      refine ⟨path, m + 1, ?_, hnext, ?_, rfl⟩
      · show loc.n + 1 = _
        omega
      · rw [hl, take_getElem? hzbr, List.append_assoc]
    exact ⟨_, _, (h.right_eq hon rfl).symm, hon⟩
  · rename_i hge
    obtain ⟨hm, -⟩ := List.getElem?_eq_some_iff.mp hzbr
    have hlen : loc.znode.length ≤ m + 1 := by omega
    refine (nextUp_ends hc path).mono ?_ ?_
    · intro hright
      rw [hr, hright, List.drop_eq_nil_of_le hlen, List.append_nil]
    · rintro loc' ⟨zbr', r', hon⟩
      have hleft : loc.ups.left ++ @leaves ε 0 loc.znode = l ++ [zbr] := by
        rw [hl, List.append_assoc, ← take_getElem? hzbr, List.take_of_length_le hlen]
        rfl
      rw [hleft] at hon
      exact ⟨zbr', r', (h.right_eq hon rfl).symm, hon⟩

/-- `tnc_prev` comes to the one before. -/
theorem tncPrev_ends (hc : c.Ordered) (h : loc.On c l zbr r) :
    Ends c (l = []) (fun loc' => ∃ l' zbr' r', l = l' ++ [zbr'] ∧ loc'.On c l' zbr' r')
      (tncPrev loc) := by
  obtain ⟨path, m, hn, hzbr, hl, hr⟩ := id h
  obtain ⟨hm, -⟩ := List.getElem?_eq_some_iff.mp hzbr
  rw [tncPrev]
  split
  · rename_i hpos
    have hprev := @List.getElem?_eq_getElem _ loc.znode (m - 1) (by omega)
    refine ⟨_, _, _, ?_, path, m - 1, ?_, hprev, rfl, rfl⟩
    · rw [hl, List.append_assoc, ← take_getElem? hprev, Nat.sub_add_cancel (by omega)]
    · show loc.n - 1 = _
      omega
  · rename_i hzero
    obtain rfl : m = 0 := by omega
    rw [List.take_zero, List.append_nil] at hl
    rw [hl]
    refine (prevUp_ends hc path).mono id ?_
    rintro loc' ⟨l', zbr', r', hon, hl'⟩
    exact ⟨l', zbr', r', hl'.symm, hon⟩

end Steps

end Ubifs.Tnc
