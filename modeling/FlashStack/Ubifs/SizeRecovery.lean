/-
  The recovery of inode sizes (`recovery.c`), which a replay (`replay.c`) prepares.

  A replay puts the nodes of the journal into the index, in the order of their sequence numbers, and
  records for every inode the size that its inode node has and the size that its data nodes ask for.
  After that, inodes whose size is too small for their data are given the larger one, and data without
  an inode is removed.

  The index maps keys to nodes.  Of a data node there is its size and whether it comes from the journal,
  of an inode node the size it records, and of the extended attributes of an inode their inodes.

  A truncation takes out the blocks behind the new size.  The block that it cuts through stays, and the
  node that `ubifs_jnl_truncate` has written for it comes later in the journal; until then the old node
  is one that was cut (`DataNode.cut`).
-/
import FlashStack.Lib.Reach
import Mathlib

namespace Ubifs.SizeRecovery

open Lib

/-- Blocks of a file, and how many bits of a key their numbers have. -/
def ubifsBlockSize : Nat := 4096
def ubifsSKeyBlockBits : Nat := 29

/-- `key_max_inode_size` -/
def maxInodeSz : Nat := 2 ^ ubifsSKeyBlockBits * ubifsBlockSize

/-- The block number that a data key of the block has. -/
def keyBlock (block : Nat) : Nat := block % 2 ^ ubifsSKeyBlockBits

/-- A data node of the index. -/
structure DataNode where
  size : Nat
  journal : Bool
  /-- history: a truncation has left the node, though it ends behind the new size; no code reads it -/
  cut : Bool

/-- The index, by the inode numbers. -/
structure Index where
  ino : Nat → Option Nat
  data : Nat → Nat → Option DataNode
  xents : Nat → List Nat

/-- `struct size_entry`. -/
structure SizeEntry where
  inum : Nat
  iSize : Nat
  dSize : Nat
  found : Bool

/-- What the replay list has, less the directory entries. -/
inductive Entry
  | ino (inum size nlink : Nat)
  | data (inum block size : Nat)
  | trun (inum oldSize newSize : Nat)

/-- What an operation on the index may fail with. -/
inductive Errno
  | enoent
  | other (val : Nat)

namespace Index

variable (idx : Index)

/-- All keys of the inode number go. -/
def removeRange (inum : Nat) : Index where
  ino := Function.update idx.ino inum none
  data := Function.update idx.data inum fun _ => none
  xents := Function.update idx.xents inum []

/-- The loop over the extended attribute entries of `inum`, which goes on as long as there are any. -/
def removeXents (inum : Nat) : List Nat → Index → Index
  | [], idx => idx
  | xattrInum :: rest, idx =>
    let idx := idx.removeRange xattrInum
    if xattrInum = inum then idx else removeXents inum rest idx

/-- `ubifs_tnc_remove_ino`: the inodes of the attributes go with it. -/
def ubifsTncRemoveIno (inum : Nat) : Index :=
  (removeXents inum (idx.xents inum) idx).removeRange inum

/-- The first block that lies behind the new size. -/
def minBlk (newSize : Nat) : Nat :=
  newSize / ubifsBlockSize + if newSize % ubifsBlockSize ≠ 0 then 1 else 0

/-- The last block that the old size reaches. -/
def maxBlk (oldSize : Nat) : Nat :=
  oldSize / ubifsBlockSize - if oldSize % ubifsBlockSize = 0 then 1 else 0

/-- The blocks that a truncation takes out: `ubifs_tnc_remove_range` does not ask whether the lowest
    key, if there is a node with it, is in the range. -/
def Truncated (oldSize newSize block : Nat) : Prop :=
  block = keyBlock (minBlk newSize) ∨
    keyBlock (minBlk newSize) ≤ block ∧ block ≤ keyBlock (maxBlk oldSize)

instance (oldSize newSize block : Nat) : Decidable (Truncated oldSize newSize block) :=
  inferInstanceAs (Decidable (_ ∨ _ ∧ _))

/-- `trun_remove_range`. -/
def trunRemoveRange (inum oldSize newSize : Nat) : Index :=
  { idx with
    data := Function.update idx.data inum fun block =>
      if Truncated oldSize newSize block then none else idx.data inum block }

/-- History: a data node from the journal that the truncation has left behind the new size. -/
def markCut (inum newSize : Nat) : Index :=
  { idx with
    data := Function.update idx.data inum fun block => (idx.data inum block).map fun dn =>
      { dn with cut := dn.cut || decide (newSize < block * ubifsBlockSize + dn.size) } }

/-- An inode node is put into the index. -/
def tncAddIno (inum size : Nat) : Index := { idx with ino := Function.update idx.ino inum (some size) }

/-- A data node is put into the index. -/
def tncAddData (inum block : Nat) (dn : DataNode) : Index :=
  { idx with data := Function.update idx.data inum (Function.update (idx.data inum) block (some dn)) }

end Index

/-- What replay works on. -/
structure State where
  index : Index
  /-- in the order of the inode numbers -/
  sizeTree : List SizeEntry

/-- The size that `replay_bud` finds in a node: of a data node, the unsigned 32-bit sum. -/
def Entry.newSize : Entry → Nat
  | .ino _ size _ => size
  | .data _ block size => (size + block * ubifsBlockSize) % 2 ^ 32
  | .trun _ _ newSize => newSize

/-! ## The size tree -/

/-- `add_ino`: into the tree of inode numbers. -/
def addIno (e : SizeEntry) : List SizeEntry → List SizeEntry
  | [] => [e]
  | e' :: rest => if e.inum < e'.inum then e :: e' :: rest else e' :: addIno e rest

/-- `find_ino`. -/
def findIno (tree : List SizeEntry) (inum : Nat) : Option SizeEntry := tree.find? (·.inum = inum)

/-- `remove_ino`. -/
def removeIno (tree : List SizeEntry) (inum : Nat) : List SizeEntry := tree.filter (·.inum ≠ inum)

/-- The entry of an inode is changed. -/
def changeIno (tree : List SizeEntry) (inum : Nat) (f : SizeEntry → SizeEntry) : List SizeEntry :=
  tree.map fun e => if e.inum = inum then f e else e

/-- `ubifs_recover_size_accum`. -/
def ubifsRecoverSizeAccum (tree : List SizeEntry) (entry : Entry) : List SizeEntry :=
  match entry with
  | .ino inum _ nlink =>
    if nlink = 0 then removeIno tree inum
    else match findIno tree inum with
      | some _ => changeIno tree inum fun e => { e with iSize := entry.newSize, found := true }
      | none => addIno ⟨inum, entry.newSize, 0, true⟩ tree
  | .data inum _ _ =>
    match findIno tree inum with
    | some _ =>
      changeIno tree inum fun e => if entry.newSize > e.dSize then { e with dSize := entry.newSize } else e
    | none => addIno ⟨inum, 0, entry.newSize, false⟩ tree
  | .trun inum _ _ => changeIno tree inum fun e => { e with dSize := entry.newSize }

/-- `apply_replay_entry`, for the nodes of files. -/
def Index.applyReplayEntry (idx : Index) : Entry → Index
  | .ino inum size nlink => if nlink = 0 then idx.ubifsTncRemoveIno inum else idx.tncAddIno inum size
  | .data inum block size => idx.tncAddData inum block ⟨size, true, false⟩
  | .trun inum oldSize newSize => (idx.trunRemoveRange inum oldSize newSize).markCut inum newSize

/-- `replay_bud` refuses a bad truncation node. -/
def Entry.valid : Entry → Bool
  | .trun _ oldSize newSize => oldSize ≤ maxInodeSz && newSize < oldSize
  | _ => true

/-- One entry of the journal is replayed. -/
def State.step (s : State) (entry : Entry) : Option State :=
  if entry.valid then
    some ⟨s.index.applyReplayEntry entry, ubifsRecoverSizeAccum s.sizeTree entry⟩
  else none

/-! ## The recovery on a read-write mount -/

/-- A committed index, and nothing replayed. -/
def Committed (s : State) : Prop :=
  s.sizeTree = [] ∧ ∀ inum block dn, s.index.data inum block = some dn → dn.journal = false

/-- The inode has a size that its data nodes from the journal do not go beyond. -/
def Covers (idx : Index) : Prop :=
  ∀ inum block dn, idx.data inum block = some dn → dn.journal = true →
    ∃ size, idx.ino inum = some size ∧ block * ubifsBlockSize + dn.size ≤ size

/-- A data node ends below 4 GiB, and it is not of an inode that the tree has but the index has lost as
    an extended attribute of a deleted inode. -/
def Entry.Fits (s : State) : Entry → Prop
  | .ino .. => True
  | .data inum block size => block * ubifsBlockSize + size < 2 ^ 32 ∧
      ∀ e ∈ s.sizeTree, e.inum = inum → e.found = true → s.index.ino inum ≠ none
  | .trun .. => True

/-- What truncations have cut through was written again, or removed. -/
def Index.NoneCut (idx : Index) : Prop :=
  ∀ inum block dn, idx.data inum block = some dn → dn.journal = true → dn.cut = false

end Ubifs.SizeRecovery
