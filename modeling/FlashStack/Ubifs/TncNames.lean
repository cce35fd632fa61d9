/-
  Entries whose keys collide, in the TNC (`tnc.c`).

  The key of a directory entry has a hash of the name, and entries with one key are in the order of their
  names.  Which of them is meant is found out by walking along them and reading the names
  (`resolve_collision`), or by the position where the garbage collector has found the node
  (`resolve_collision_directly`).

  The leaf node cache, and what is done while the journal is replayed, are not here.
-/
import FlashStack.Ubifs.TncUpdate

namespace Ubifs.Tnc

/-- An `u32` of a key. -/
def word (n : Nat) : Fin (2 ^ 32) := ⟨n % 2 ^ 32, Nat.mod_lt n (Nat.two_pow_pos 32)⟩

/-- The bytes of a name. -/
abbrev Name := List (Fin 256)

/-- How a name compares with the one that is looked for. -/
inductive NameIs
  | nameLess
  | nameMatches
  | nameGreater
  deriving DecidableEq

/-- `memcmp`, over the shorter of the two. -/
def memcmp : Name → Name → Ordering
  | [], _ => .eq
  | _ :: _, [] => .eq
  | a :: s, b :: t => if a < b then .lt else if b < a then .gt else memcmp s t

/-- How the name of an entry compares to `nm`. -/
def compareName (name nm : Name) : NameIs :=
  match memcmp name nm with
  | .eq =>
    if name.length = nm.length then .nameMatches else if name.length < nm.length then .nameLess else .nameGreater
  | .lt => .nameLess
  | .gt => .nameGreater

section

variable {ε : Type} (nodes : Nat → Nat → Except ε Name)

/-- The name in the leaf node at a position. -/
def readName (lnum offs : Nat) : Except (Stop ε) Name :=
  match nodes lnum offs with
  | .ok name => .ok name
  | .error err => .error (.load err)

/-- `matches_name`: the name is read from the flash. -/
def matchesName (zbr : Zbranch) (nm : Name) : Except (Stop ε) NameIs := do
  return compareName (← readName nodes zbr.lnum zbr.offs) nm

variable (key : Key) (nm : Name)

/-- "Look left".  A place behind the last branch of a znode is taken at the beginning of the next one,
    where the keys of the parents allow it. -/
def collisionLeft : Nat → Loc ε → Except (Stop ε) (Bool × Loc ε)
  | 0, _ => .error .wild
  | fuel + 1, loc =>
    match tncPrev loc with
    | .error .enoent => .ok (false, { loc with n := -1 })
    | .error e => .error e
    | .ok loc => do
      let zbr ← loc.zbranch
      if Key.keysCmp zbr.key key != .eq then
        if loc.n = (loc.znode.length : Int) - 1 then
          match tncNext loc with
          | .error .enoent => .error .wild
          | .error e => .error e
          | .ok loc => return (false, { loc with n := -1 })
        else return (false, loc)
      else
        match ← matchesName nodes zbr nm with
        | .nameLess => return (false, loc)
        | .nameMatches => return (true, loc)
        | .nameGreater => collisionLeft fuel loc

/-- "Look right" -/
def collisionRight : Nat → Loc ε → Except (Stop ε) (Bool × Loc ε)
  | 0, _ => .error .wild
  | fuel + 1, loc =>
    match tncNext loc with
    | .error .enoent => .ok (false, loc)
    | .error e => .error e
    | .ok next => do
      let zbr ← next.zbranch
      if Key.keysCmp zbr.key key != .eq then return (false, loc)
      match ← matchesName nodes zbr nm with
      | .nameGreater => return (false, loc)
      | .nameMatches => return (true, next)
      | .nameLess => collisionRight fuel next

/-- `resolve_collision`. -/
def resolveCollision (fuel : Nat) (loc : Loc ε) : Except (Stop ε) (Bool × Loc ε) := do
  match ← matchesName nodes (← loc.zbranch) nm with
  | .nameMatches => return (true, loc)
  | .nameGreater => collisionLeft nodes key nm fuel loc
  | .nameLess => collisionRight nodes key nm fuel loc

/-- The entry with this key and name, or the place for it. -/
def lookupNm (c : Zroot ε) (fuel : Nat) : Except (Stop ε) (Bool × Loc ε) := do
  let (found, loc) ← ubifsLookupLevel0 c key
  if found then resolveCollision nodes key nm fuel loc else return (false, loc)

/-- Where the entry is.  Most keys do not collide. -/
def ubifsTncLookupNm (c : Zroot ε) (fuel : Nat) : Except (Stop ε) (Option (Nat × Nat)) := do
  match ← ubifsTncLocate c key with
  | none => return none
  | some (lnum, offs) =>
    if (← readName nodes lnum offs) = nm then return some (lnum, offs)
    let (found, loc) ← lookupNm nodes key nm c fuel
    if found then
      let zbr ← loc.zbranch
      return some (zbr.lnum, zbr.offs)
    else return none

/-- `ubifs_tnc_add_nm`. -/
def ubifsTncAddNm (fanout : Nat) (c : Zroot ε) (lnum offs fuel : Nat) :
    Except (Stop ε) (Zroot ε) := do
  let (found, loc) ← lookupNm nodes key nm c fuel
  if found then
    let znode : Znode ε 0 := loc.znode.modify loc.n.toNat fun zbr => { zbr with lnum, offs }
    return loc.ups.plug znode
  else tncInsert fanout loc ⟨key, lnum, offs⟩ (loc.n + 1).toNat

/-- `ubifs_tnc_remove_nm`. -/
def ubifsTncRemoveNm (c : Zroot ε) (fuel : Nat) : Except (Stop ε) (Zroot ε) := do
  let (found, loc) ← lookupNm nodes key nm c fuel
  if found then tncDelete loc loc.n.toNat else return c

/-- The key and the name of the entry that is read.  `nm` is the name of the entry before it; without a
    name, the entry is the one with this key, or the closest one behind it. -/
def ubifsTncNextEnt (c : Zroot ε) (nm : Option Name) (fuel : Nat) : Except (Stop ε) (Key × Name) := do
  let loc ← match nm with
    | some nm => do
      let (_, loc) ← lookupNm nodes key nm c fuel
      tncNext loc
    | none => do
      let (found, loc) ← ubifsLookupLevel0 c key
      if found then .ok loc else tncNext loc
  let zbr ← loc.zbranch
  if zbr.key.keyInum ≠ key.keyInum ∨ zbr.key.keyType ≠ key.keyType then .error .enoent
  else return (zbr.key, ← readName nodes zbr.lnum zbr.offs)

end

section

variable {ε : Type} (key : Key) (lnum offs : Nat)

/-- The loop to the left of `resolve_collision_directly`. -/
def directlyLeft : Nat → Loc ε → Except (Stop ε) (Option (Loc ε))
  | 0, _ => .error .wild
  | fuel + 1, loc =>
    match tncPrev loc with
    | .error .enoent => .ok none
    | .error e => .error e
    | .ok loc => do
      let zbr ← loc.zbranch
      if Key.keysCmp zbr.key key != .eq then return none
      if zbr.lnum = lnum ∧ zbr.offs = offs then return some loc
      directlyLeft fuel loc

/-- The loop to the right. -/
def directlyRight : Nat → Loc ε → Except (Stop ε) (Option (Loc ε))
  | 0, _ => .error .wild
  | fuel + 1, loc =>
    match tncNext loc with
    | .error .enoent => .ok none
    | .error e => .error e
    | .ok loc => do
      let zbr ← loc.zbranch
      if Key.keysCmp zbr.key key != .eq then return none
      if zbr.lnum = lnum ∧ zbr.offs = offs then return some loc
      directlyRight fuel loc

/-- `resolve_collision_directly`: the leaf at this place on the media. -/
def resolveCollisionDirectly (fuel : Nat) (loc : Loc ε) : Except (Stop ε) (Option (Loc ε)) := do
  let zbr ← loc.zbranch
  if zbr.lnum = lnum ∧ zbr.offs = offs then return some loc
  match ← directlyLeft key lnum offs fuel loc with
  | some loc => return some loc
  | none => directlyRight key lnum offs fuel loc

/-- The garbage collector has moved a node. -/
def ubifsTncReplace (c : Zroot ε) (oldLnum oldOffs lnum offs fuel : Nat) : Except (Stop ε) (Zroot ε) := do
  let (found, loc) ← ubifsLookupLevel0 c key
  if found then
    let zbr ← loc.zbranch
    let loc ← if zbr.lnum = oldLnum ∧ zbr.offs = oldOffs then .ok (some loc)
      else if key.isHashKey then resolveCollisionDirectly key oldLnum oldOffs fuel loc
      else .ok none
    match loc with
    | some loc =>
      let znode : Znode ε 0 := loc.znode.modify loc.n.toNat fun zbr => { zbr with lnum, offs }
      return loc.ups.plug znode
    | none => return c
  else return c

end

end Ubifs.Tnc
