/-
  Changes of the TNC (`tnc.c`): branches of level zero are added and removed.

  A znode that is full is split, and the new one goes into the parent; a znode that has lost its last
  branch is removed from the parent, and the root goes when it has one child.  The znodes that are changed
  are those of the path that the lookup has come down, so that the tree is put together again along it
  (`Ups.plug`).

  Dirty flags, copies that are made for a commit that is running, `alt` and the old index, the dirt that
  is added to lprops and the lengths of the nodes are not here.
-/
import FlashStack.Ubifs.Tnc

namespace Ubifs.Tnc

/-- `UBIFS_DATA_KEY`. -/
def ubifsDataKey : Nat := 1

namespace Key

/-- `key_inum`. -/
def keyInum (key : Key) : Nat := key.word0

/-- The key is that of a data node. -/
def isData (key : Key) : Bool := key.keyType = ubifsDataKey

/-- `key1` is a data key of the same inode. -/
def follows (key key1 : Key) : Bool := key1.keyInum = key.keyInum && key1.isData

end Key

section

variable {ε α : Type}

/-- The tree, with this znode at the end of the path. -/
def Ups.plug : {level : Nat} → Znode ε level → Ups ε level → Zroot ε
  | level, znode, .root => ⟨level, znode, none⟩
  | level, znode, .child zp iip ups =>
    let zp : Znode ε (level + 1) := List.modify zp iip fun zbr => { zbr with znode }
    ups.plug zp

/-! ## Adding -/

/-- The key of the leftmost branch has become `key`. -/
def Ups.correctParentKeys (key : Key) : {level : Nat} → Ups ε level → Ups ε level
  | _, .root => .root
  | level, .child zp iip ups =>
    match iip, zp with
    | 0, zbr :: rest =>
      if Key.keysCmp key zbr.key = .lt then
        let zp : Znode ε (level + 1) := { zbr with key } :: rest
        .child zp 0 (ups.correctParentKeys key)
      else .child (zbr :: rest : List (Child ε (Znode ε level))) 0 ups
    | 0, [] => .child ([] : List (Child ε (Znode ε level))) 0 ups
    | iip + 1, zp => .child zp (iip + 1) ups

/-- The loop of `insert_zbranch`. -/
def insertZbranch (znode : List α) (zbr : α) (n : Nat) : List α :=
  znode.take n ++ zbr :: znode.drop n

/-- A znode that was split, and the new one.  `lowest`: the branch that was inserted is the first one of
    the znode. -/
structure Split (α : Type) where
  znode : List α
  zn : List α
  lowest : Bool
  appending : Bool

variable (fanout : Nat) (keyOf : α → Key) (level : Nat) (znode : List α) (zbr : α) (n : Nat)

/-- The label `check_split`: the znode is split behind the data keys of the inode. -/
def checkSplit : Bool :=
  if (fanout + 1) / 2 ≤ n then
    match znode[0]?, znode[n]? with
    | some key1, some key2 =>
      (keyOf zbr).follows (keyOf key1) && !(keyOf zbr).follows (keyOf key2)
    | _, _ => false
  else false

/-- Whether `check_split` is got to.  `appending` is what the split of the znode below has left. -/
def isChecked (appending : Bool) : Bool :=
  if level = 0 ∧ (keyOf zbr).isData = true then n ≠ fanout else appending && n ≠ fanout

/-- Whether all branches stay where they are and the new one gets a znode of its own. -/
def isAppending (appending : Bool) : Bool :=
  if level = 0 ∧ (keyOf zbr).isData = true then
    if n = fanout then
      match znode[n - 1]? with
      | some key1 => if (keyOf zbr).follows (keyOf key1) then true else appending
      | none => appending
    else appending
  else if appending = true ∧ n ≠ fanout then false else appending

/-- "Decide where to split", for a znode that is full. -/
def split (appending : Bool) : Split α :=
  let checked := isChecked fanout keyOf level zbr n appending
  let appending := isAppending fanout keyOf level znode zbr n appending
  if checked && checkSplit fanout keyOf znode zbr n then
    ⟨insertZbranch (znode.take n) zbr n, znode.drop n, n = 0, appending⟩
  else
    let keep := if appending then fanout else (fanout + 1) / 2
    if n < keep then
      ⟨insertZbranch (znode.take (keep - 1)) zbr n, znode.drop (keep - 1), n = 0, appending⟩
    else
      ⟨znode.take keep, insertZbranch (znode.drop keep) zbr (n - keep), false, appending⟩

end

section

variable {ε : Type} (fanout : Nat)

/-- `zbranch[0].key` -/
def firstKey : (level : Nat) → Znode ε level → Except (Stop ε) Key
  | 0, znode =>
    match (znode : List Zbranch) with
    | [] => .error .wild
    | zbr :: _ => .ok zbr.key
  | level + 1, znode =>
    match (znode : List (Child ε (Znode ε level))) with
    | [] => .error .wild
    | zbr :: _ => .ok zbr.key

/-- From the second round of `tnc_insert` on: the znode at the end of the path was split. -/
def insertUp (appending : Bool) : {level : Nat} → (znode zn : Znode ε level) → Ups ε level →
    Except (Stop ε) (Zroot ε)
  | level, znode, zn, .root => do
    let zi : Znode ε (level + 1) := [⟨← firstKey level znode, znode, none⟩, ⟨← firstKey level zn, zn, none⟩]
    return ⟨level + 1, zi, none⟩
  | level, znode, zn, .child zp iip ups => do
    let zbr : Child ε (Znode ε level) := ⟨← firstKey level zn, zn, none⟩
    let zp : List (Child ε (Znode ε level)) := zp.modify iip fun zbr => { zbr with znode }
    if zp.length < fanout then
      let zp : Znode ε (level + 1) := insertZbranch zp zbr (iip + 1)
      return ups.plug zp
    else
      let s := split fanout Child.key (level + 1) zp zbr (iip + 1) appending
      @insertUp s.appending (level + 1) s.znode s.zn ups

/-- Into the znode of a location, at slot `n`. -/
def tncInsert (loc : Loc ε) (zbr : Zbranch) (n : Nat) : Except (Stop ε) (Zroot ε) :=
  if loc.znode.length < fanout then
    let ups := if n = 0 then loc.ups.correctParentKeys zbr.key else loc.ups
    let znode : Znode ε 0 := insertZbranch loc.znode zbr n
    .ok (ups.plug znode)
  else
    let s := split fanout Zbranch.key 0 loc.znode zbr n false
    let ups := if s.lowest then loc.ups.correctParentKeys zbr.key else loc.ups
    @insertUp ε fanout s.appending 0 s.znode s.zn ups

variable (c : Zroot ε) (key : Key)

/-- `lookup_level0_dirty` searches as `ubifs_lookup_level0` does. -/
def ubifsTncAdd (lnum offs : Nat) : Except (Stop ε) (Zroot ε) := do
  let (found, loc) ← ubifsLookupLevel0 c key
  if found then
    let znode : Znode ε 0 := loc.znode.modify loc.n.toNat fun zbr => { zbr with lnum, offs }
    return loc.ups.plug znode
  else tncInsert fanout loc ⟨key, lnum, offs⟩ (loc.n + 1).toNat

/-! ## Removing -/

/-- The root goes as long as it has one child. -/
def collapse : (level : Nat) → Znode ε level → Except (Stop ε) (Zroot ε)
  | 0, znode => .ok ⟨0, znode, none⟩
  | level + 1, znode =>
    if List.length znode = 1 then do collapse level (← getZnode znode 0)
    else .ok ⟨level + 1, znode, none⟩

/-- The znode at the end of the path goes. -/
def deleteUp : {level : Nat} → Ups ε level → Except (Stop ε) (Zroot ε)
  | _, .root => .error .wild
  | level, .child zp iip ups =>
    if List.length zp = 1 then deleteUp ups
    else
      let znode : Znode ε (level + 1) := List.eraseIdx zp iip
      match ups with
      | .root => collapse (level + 1) znode
      | .child _ _ _ => .ok (ups.plug znode)

/-- `tnc_delete`: a znode that is empty goes, too. -/
def tncDelete (loc : Loc ε) (n : Nat) : Except (Stop ε) (Zroot ε) :=
  let znode : Znode ε 0 := loc.znode.eraseIdx n
  if 0 < List.length znode then .ok (loc.ups.plug znode) else deleteUp loc.ups

/-- `ubifs_tnc_remove`. -/
def ubifsTncRemove : Except (Stop ε) (Zroot ε) := do
  let (found, loc) ← ubifsLookupLevel0 c key
  if found then tncDelete loc loc.n.toNat else return c

/-- `key_in_range`. -/
def keyInRange (fromKey toKey : Key) : Bool :=
  if Key.keysCmp key fromKey = .lt then false
  else if Key.keysCmp key toKey = .gt then false
  else true

/-- The first branch to remove. -/
def firstInRange (fromKey toKey : Key) : Except (Stop ε) (Option (Loc ε)) := do
  let (found, loc) ← ubifsLookupLevel0 c fromKey
  if found then return some loc
  match tncNext loc with
  | .error .enoent => return none
  | .error e => .error e
  | .ok loc =>
    let zbr ← loc.zbranch
    if keyInRange zbr.key fromKey toKey then return some loc else return none

/-- One round removes the branches of one znode. -/
def ubifsTncRemoveRange (fromKey toKey : Key) : Nat → Zroot ε → Except (Stop ε) (Zroot ε)
  | 0, _ => .error .wild
  | fuel + 1, c => do
    match ← firstInRange c fromKey toKey with
    | none => return c
    | some loc =>
      let n := loc.n.toNat
      let k := ((loc.znode.drop (n + 1)).takeWhile fun zbr => keyInRange zbr.key fromKey toKey).length
      let znode := loc.znode.take (n + 1) ++ loc.znode.drop (n + 1 + k)
      let c ← tncDelete { loc with znode } n
      ubifsTncRemoveRange fromKey toKey fuel c

/-- `ubifs_tnc_locate`: where the leaf node is that it reads.  If entries collide, it is one of them. -/
def ubifsTncLocate : Except (Stop ε) (Option (Nat × Nat)) := do
  let (found, loc) ← ubifsLookupLevel0 c key
  if found then
    let zbr ← loc.zbranch
    return some (zbr.lnum, zbr.offs)
  else return none

end

end Ubifs.Tnc
