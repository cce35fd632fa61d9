/-
  The search for leaf nodes in the TNC (`tnc.c`).

  A znode of level zero has branches to leaf nodes; above it, a branch leads to a znode of the level
  below.  The znodes that are not in memory are read when a walk gets to them, and the walk ends if
  that fails.  A walk holds a znode with the path that leads to it: the parents, and the slots in them
  (`iip`).  Directory entries that collide have one key, and may be in different znodes.
-/
import FlashStack.Lib.KeyOrder
import Mathlib

namespace Ubifs.Tnc

open Lib

/-- The layout of keys in `ubifs-media.h`. -/
def ubifsSKeyBlockBits : Nat := 29
def ubifsDentKey : Nat := 2
def ubifsXentKey : Nat := 3

/-- `union ubifs_key`: the inode number; the type of the key, with a block number or a hash. -/
@[ext] structure Key where
  word0 : Fin (2 ^ 32)
  word1 : Fin (2 ^ 32)

namespace Key

/-- `key_type`. -/
def keyType (key : Key) : Nat := key.word1 / 2 ^ ubifsSKeyBlockBits

/-- `is_hash_key`. -/
def isHashKey (key : Key) : Bool := key.keyType = ubifsDentKey || key.keyType = ubifsXentKey

/-- Keys are compared word by word. -/
instance : LinearOrder Key :=
  LinearOrder.lift' (fun key => toLex (key.word0, key.word1)) fun a b h => by
    have h := toLex.injective h
    exact Key.ext (congrArg Prod.fst h) (congrArg Prod.snd h)

/-- `keys_cmp`. -/
def keysCmp (key1 key2 : Key) : Ordering :=
  if key1.word0 < key2.word0 then .lt
  else if key2.word0 < key1.word0 then .gt
  else if key1.word1 < key2.word1 then .lt
  else if key2.word1 < key1.word1 then .gt
  else .eq

variable {a b : Key}

/-- Keys are ordered by the inode number, and by the rest if that is the same. -/
theorem lt_iff : a < b ↔ a.word0 < b.word0 ∨ a.word0 = b.word0 ∧ a.word1 < b.word1 :=
  Prod.Lex.toLex_lt_toLex

/-- `keys_cmp` is that order. -/
theorem keysCmp_eq_compare (a b : Key) : keysCmp a b = compare a b := by
  rcases lt_trichotomy a b with h | rfl | h
  · rw [compare_lt_iff_lt.mpr h, keysCmp]
    rcases lt_iff.mp h with h0 | ⟨h0, h1⟩
    · rw [if_pos h0]
    · rw [h0, if_neg (lt_irrefl _), if_neg (lt_irrefl _), if_pos h1]
  · rw [compare_eq_iff_eq.mpr rfl, keysCmp]
    simp
  · rw [compare_gt_iff_gt.mpr h, keysCmp]
    rcases lt_iff.mp h with h0 | ⟨h0, h1⟩
    · rw [if_neg (lt_asymm h0), if_pos h0]
    · rw [h0, if_neg (lt_irrefl _), if_neg (lt_irrefl _), if_neg (lt_asymm h1), if_pos h1]

theorem keysCmp_eq_iff : keysCmp a b = .eq ↔ a = b := by
  rw [keysCmp_eq_compare, compare_eq_iff_eq]

theorem keysCmp_lt_iff : keysCmp a b = .lt ↔ a < b := by
  rw [keysCmp_eq_compare, compare_lt_iff_lt]

theorem keysCmp_gt_iff : keysCmp a b = .gt ↔ b < a := by
  rw [keysCmp_eq_compare, compare_gt_iff_gt]

end Key

/-- A branch of a znode of level zero. -/
structure Zbranch where
  key : Key
  lnum : Nat
  offs : Nat

/-- A branch of a znode above.  `fault` is the error that reading the znode ends with, if it is not
    in memory and cannot be read. -/
structure Child (ε Z : Type) where
  key : Key
  znode : Z
  fault : Option ε

/-- The znodes of a level. -/
abbrev Znode (ε : Type) : Nat → Type
  | 0 => List Zbranch
  | level + 1 => List (Child ε (Znode ε level))

/-- The path to a znode: its parent, its slot there, and the path to the parent. -/
inductive Ups (ε : Type) : Nat → Type
  | root {level : Nat} : Ups ε level
  | child {level : Nat} (parent : Znode ε (level + 1)) (iip : Nat) (ups : Ups ε (level + 1)) :
      Ups ε level

/-- A branch slot in a znode of level zero. -/
structure Loc (ε : Type) where
  znode : List Zbranch
  ups : Ups ε 0
  n : Int

/-- How a walk ends: `-ENOENT`; an error of reading a znode, which is never that one; or outside of
    an array, or not at all. -/
inductive Stop (ε : Type)
  | enoent
  | load (err : ε)
  | wild

/-- `c->zroot` -/
structure Zroot (ε : Type) where
  level : Nat
  znode : Znode ε level
  fault : Option ε

section Walks

variable {ε Z : Type}

/-- `ubifs_load_znode`: reading it may fail. -/
def ubifsLoadZnode (fault : Option ε) (znode : Z) : Except (Stop ε) Z :=
  match fault with
  | none => .ok znode
  | some err => .error (.load err)

/-- `get_znode`. -/
def getZnode (znode : List (Child ε Z)) (n : Nat) : Except (Stop ε) Z :=
  match znode[n]? with
  | none => .error .wild
  | some zbr => ubifsLoadZnode zbr.fault zbr.znode

/-- Down to level zero in the first slots. -/
def leftmost : (level : Nat) → Znode ε level → Ups ε level → Except (Stop ε) (Loc ε)
  | 0, znode, ups => .ok ⟨znode, ups, 0⟩
  | level + 1, znode, ups => do
    leftmost level (← getZnode znode 0) (.child znode 0 ups)

/-- Down to level zero in the last slots. -/
def rightmost : (level : Nat) → Znode ε level → Ups ε level → Except (Stop ε) (Loc ε)
  | 0, znode, ups => .ok ⟨znode, ups, (List.length znode : Int) - 1⟩
  | level + 1, znode, ups => do
    let nn := List.length znode - 1
    rightmost level (← getZnode znode nn) (.child znode nn ups)

/-- The first entry behind a znode. -/
def nextUp : {level : Nat} → Ups ε level → Except (Stop ε) (Loc ε)
  | _, .root => .error .enoent
  | level, .child zp iip ups =>
    if iip + 1 < List.length zp then do
      leftmost level (← getZnode zp (iip + 1)) (.child zp (iip + 1) ups)
    else nextUp ups

/-- The last entry before a znode. -/
def prevUp : {level : Nat} → Ups ε level → Except (Stop ε) (Loc ε)
  | _, .root => .error .enoent
  | level, .child zp iip ups =>
    if 0 < iip then do
      rightmost level (← getZnode zp (iip - 1)) (.child zp (iip - 1) ups)
    else prevUp ups

/-- `tnc_next`. -/
def tncNext (loc : Loc ε) : Except (Stop ε) (Loc ε) :=
  if loc.n + 1 < loc.znode.length then .ok { loc with n := loc.n + 1 } else nextUp loc.ups

/-- `tnc_prev`. -/
def tncPrev (loc : Loc ε) : Except (Stop ε) (Loc ε) :=
  if 0 < loc.n then .ok { loc with n := loc.n - 1 } else prevUp loc.ups

/-- `znode->zbranch[n]` -/
def Loc.zbranch (loc : Loc ε) : Except (Stop ε) Zbranch :=
  if loc.n < 0 then .error .wild
  else match loc.znode[loc.n.toNat]? with
    | none => .error .wild
    | some zbr => .ok zbr

end Walks

/-! ## The search in a znode -/

/-- The loop of `ubifs_search_zbranch`, between `beg` and `fin`. -/
def searchLoop (keys : List Key) (key : Key) (beg fin : Nat) (hfin : fin ≤ keys.length) :
    Bool × Int :=
  if h : beg < fin then
    let mid := (beg + fin) / 2
    have hmid : mid < fin := by omega
    match Key.keysCmp key keys[mid] with
    | .gt => searchLoop keys key (mid + 1) fin hfin
    | .lt => searchLoop keys key beg mid (by omega)
    | .eq => (true, mid)
  else (false, (fin : Int) - 1)
termination_by fin - beg

/-- `ubifs_search_zbranch`. -/
def ubifsSearchZbranch (keys : List Key) (key : Key) : Bool × Int :=
  searchLoop keys key 0 keys.length (Nat.le_refl _)

/-- Where the search puts a key: on a branch with this key, or behind `m` branches with lower keys
    and before branches with higher ones. -/
def SearchRight (keys : List Key) (key : Key) (r : Bool × Int) : Prop :=
  (∃ m : Nat, r = (true, (m : Int)) ∧ keys[m]? = some key) ∨
  ∃ m : Nat, r = (false, (m : Int) - 1) ∧ m ≤ keys.length ∧
    (∀ k ∈ keys.take m, k < key) ∧ ∀ k ∈ keys.drop m, key < k

/-- The binary search keeps what is smaller on the left and what is larger on the right. -/
theorem searchLoop_right {keys : List Key} {key : Key} (hsorted : keys.Pairwise (· ≤ ·))
    {beg fin : Nat} (hfin : fin ≤ keys.length) (hbeg : beg ≤ fin)
    (hlow : ∀ i (hi : i < keys.length), i < beg → keys[i] < key)
    (hhigh : ∀ i (hi : i < keys.length), fin ≤ i → key < keys[i]) :
    SearchRight keys key (searchLoop keys key beg fin hfin) := by
  have hle : ∀ i j (hi : i < keys.length) (hj : j < keys.length), i ≤ j → keys[i] ≤ keys[j] := by
    intro i j hi hj hij
    rcases Nat.lt_or_eq_of_le hij with hlt | rfl
    · exact List.pairwise_iff_getElem.mp hsorted i j hi hj hlt
    · exact le_refl _
  fun_induction searchLoop keys key beg fin hfin with
  | case1 beg fin hfin h mid hmid hcmp ih =>
    -- the key is to the right of the middle
    have hgt := Key.keysCmp_gt_iff.mp hcmp
    refine ih (by omega) ?_ hhigh
    intro i hi hlt
    exact lt_of_le_of_lt (hle i mid hi (by omega) (by omega)) hgt
  | case2 beg fin hfin h mid hmid hcmp ih =>
    have hlt := Key.keysCmp_lt_iff.mp hcmp
    refine ih (by omega) hlow ?_
    intro i hi hge
    exact lt_of_lt_of_le hlt (hle mid i (by omega) hi hge)
  | case3 beg fin hfin h mid hmid hcmp =>
    have heq := Key.keysCmp_eq_iff.mp hcmp
    exact .inl ⟨mid, rfl, by rw [List.getElem?_eq_getElem (by omega), heq]⟩
  | case4 beg fin hfin h =>
    obtain rfl : beg = fin := by omega
    refine .inr ⟨beg, rfl, hfin, ?_, ?_⟩
    · intro k hk
      obtain ⟨i, hi, rfl⟩ := List.mem_take_iff_getElem.mp hk
      exact hlow i (by omega) (by omega)
    · intro k hk
      obtain ⟨i, hi, rfl⟩ := List.mem_drop_iff_getElem.mp hk
      exact hhigh (beg + i) (by omega) (by omega)

/-- So `ubifs_search_zbranch` finds the key, or the last one below it. -/
theorem ubifsSearchZbranch_right {keys : List Key} (hsorted : keys.Pairwise (· ≤ ·)) (key : Key) :
    SearchRight keys key (ubifsSearchZbranch keys key) :=
  searchLoop_right hsorted _ (Nat.zero_le _) (fun _ _ h => absurd h (Nat.not_lt_zero _))
    fun _ hi h => absurd hi (Nat.not_lt.mpr h)

/-! ## The liveness test -/

section Lookup

variable {ε : Type}

/-- Down to the znode of level zero that the key belongs to. -/
def descend (key : Key) : (level : Nat) → Znode ε level → Ups ε level →
    Except (Stop ε) (Bool × Loc ε)
  | 0, znode, ups =>
    let (exact, n) := ubifsSearchZbranch (List.map Zbranch.key znode) key
    .ok (exact, ⟨znode, ups, n⟩)
  | level + 1, znode, ups => do
    let n := (ubifsSearchZbranch (List.map Child.key znode) key).2.toNat
    descend key level (← getZnode znode n) (.child znode n ups)

/-- The branches are in order, so that colliding keys are neighbours.  The search may end to the right
    of them all, at the beginning of a znode. -/
def ubifsLookupLevel0 (c : Zroot ε) (key : Key) : Except (Stop ε) (Bool × Loc ε) := do
  let znode ← ubifsLoadZnode c.fault c.znode
  let (exact, loc) ← descend key c.level znode .root
  if exact || !key.isHashKey || loc.n != -1 then
    return (exact, loc)
  match tncPrev loc with
  | .error .enoent => return (false, { loc with n := -1 })
  | .error e => .error e
  | .ok prev =>
    if Key.keysCmp key (← prev.zbranch).key != .eq then return (false, { loc with n := -1 })
    else return (true, prev)

variable (key : Key) (lnum offs : Nat)

/-- The first loop of `is_leaf_node_in_tnc`: the same key further left. -/
def lookLeft : Nat → Loc ε → Except (Stop ε) Bool
  | 0, _ => .error .wild
  | fuel + 1, loc =>
    match tncPrev loc with
    | .error .enoent => .ok false
    | .error e => .error e
    | .ok loc => do
      let zbr ← loc.zbranch
      if Key.keysCmp key zbr.key != .eq then return false
      if lnum = zbr.lnum ∧ offs = zbr.offs then return true
      lookLeft fuel loc

/-- The second loop: the same key further right. -/
def lookRight : Nat → Loc ε → Except (Stop ε) Bool
  | 0, _ => .error .wild
  | fuel + 1, loc =>
    match tncNext loc with
    | .error .enoent => .ok false
    | .error e => .error e
    | .ok loc => do
      let zbr ← loc.zbranch
      if Key.keysCmp key zbr.key != .eq then return false
      if lnum = zbr.lnum ∧ offs = zbr.offs then return true
      lookRight fuel loc

/-- `is_leaf_node_in_tnc`. -/
def isLeafNodeInTnc (c : Zroot ε) (fuel : Nat) : Except (Stop ε) Nat := do
  let (found, loc) ← ubifsLookupLevel0 c key
  if !found then return 0
  let zbr ← loc.zbranch
  if lnum = zbr.lnum ∧ offs = zbr.offs then return 1
  if !key.isHashKey then return 0
  if ← lookLeft key lnum offs fuel loc then return 1
  if ← lookRight key lnum offs fuel loc then return 1
  return 0

/-- `isIdxNodeInTnc` answers for index nodes: not there, dirty, or clean. -/
def ubifsTncHasNode (isIdxNodeInTnc : Except (Stop ε) (Fin 3)) (c : Zroot ε) (fuel : Nat)
    (isIdx : Bool) : Except (Stop ε) Nat :=
  if isIdx then return if (← isIdxNodeInTnc) = 2 then 1 else 0
  else isLeafNodeInTnc key lnum offs c fuel

end Lookup

end Ubifs.Tnc
