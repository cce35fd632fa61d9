/-
  Reading the LEB properties tree (`lpt.c`).

  An inner node knows its level, so its number and those of its children can be told from the path to
  it; in the big model they are compared with what is on the media.  A node that was never written is
  made up.

  `validate_nnode` and `validate_pnode` check numbers, branches and the space of each LEB; `walk`
  reads the whole tree as the look-ups of the source would, one after the other.
-/
import FlashStack.Ubifs.DfltLpt

open Lib

namespace Ubifs.Lpt

open Lp

/-- `struct ubifs_nnode` with its level: the leaves are below level one. -/
structure CachedNnode where
  node : Nnode
  level : Nat

section Numbers

variable (c : Info)

/-- `calc_nnode_num_from_parent`. -/
def calcNnodeNumFromParent (parent : Option CachedNnode) (iip : Nat) : Nat :=
  match parent with
  | none => 1
  | some parent =>
    let shft := (c.geom.lptHght - parent.level) * ubifsLptFanoutShift
    let num := parent.node.num ^^^ 1 <<< shft
    num ||| (ubifsLptFanout + iip) <<< shft

/-- The digits of the number of an inner node, last first. -/
def pnodeNumLoop : (n num pnum : Nat) → Nat
  | 0, num, _ => num
  | n + 1, num, pnum =>
    pnodeNumLoop n (num <<< ubifsLptFanoutShift ||| pnum &&& (ubifsLptFanout - 1))
      (pnum >>> ubifsLptFanoutShift)

/-- `calc_pnode_num_from_parent`. -/
def calcPnodeNumFromParent (parent : CachedNnode) (iip : Nat) : Nat :=
  pnodeNumLoop (c.geom.lptHght - 1) 0 parent.node.num <<< ubifsLptFanoutShift ||| iip

end Numbers

section Read

/-- Where a child is, or the root, which is where the master node says. -/
def branchTo (root : Nbranch) (parent : Option CachedNnode) (iip : Nat) : Nbranch :=
  match parent with
  | none => root
  | some parent => parent.node.nbranch.getD iip ⟨0, 0⟩

/-- The level of a child; the root is as high as the tree. -/
def levelBelow (c : Info) (parent : Option CachedNnode) : Nat :=
  match parent with
  | none => c.geom.lptHght
  | some parent => parent.level - 1

variable (c : Info) (g : Consts) (crc16 : Crc) (junk : Junk) (flash : Nat → Memory) (nodBuf : Memory)

/-- A branch leads into the area of the tree, or nowhere. -/
def validBranch (maxOffs : Nat) (b : Nbranch) : Bool :=
  if b.lnum = 0 then b.offs = 0
  else c.lptFirst ≤ b.lnum ∧ b.lnum ≤ c.lptLast ∧ b.offs ≤ maxOffs

/-- `validate_nnode`. -/
def validateNnode (nnode : Nnode) (parent : Option CachedNnode) (iip : Nat) : Except Errno Unit :=
  if c.bigLpt ∧ nnode.num ≠ calcNnodeNumFromParent c parent iip then .error .einval
  else
    let lvl := levelBelow c parent
    if lvl < 1 then .error .einval
    else
      let maxOffs := if lvl = 1 then c.lebSize - c.geom.pnodeSz else c.lebSize - c.geom.nnodeSz
      if nnode.nbranch.all (validBranch c maxOffs) then .ok () else .error .einval

/-- Free and dirty bytes are rounded and fit in a LEB together. -/
def validLprops (lp : Lprops) : Bool :=
  0 ≤ lp.free ∧ lp.free ≤ c.lebSize ∧ lp.free % c.minIoSize = 0 ∧ lp.free % 8 = 0 ∧
    0 ≤ lp.dirty ∧ lp.dirty ≤ c.lebSize ∧ lp.dirty % 8 = 0 ∧ lp.dirty + lp.free ≤ c.lebSize

/-- `validate_pnode`. -/
def validatePnode (pnode : Pnode) (parent : CachedNnode) (iip : Nat) : Except Errno Unit :=
  if c.bigLpt ∧ pnode.num ≠ calcPnodeNumFromParent c parent iip then .error .einval
  else if pnode.lprops.all (validLprops c) then .ok () else .error .einval

/-- LEBs behind the end of the volume have no number. -/
def setLnums : Nat → List Lprops → List Lprops
  | _, [] => []
  | lnum, lp :: lps =>
    if c.lebCnt ≤ lnum then lp :: lps else { lp with lnum := lnum } :: setLnums (lnum + 1) lps

/-- `set_pnode_lnum`. -/
def setPnodeLnum (pnode : Pnode) : Pnode :=
  { pnode with
    lprops := setLnums c (pnode.num <<< ubifsLptFanoutShift + c.mainFirst) pnode.lprops }

/-- `ubi_read` into the buffer for nodes. -/
def ubiRead (lnum offs len : Nat) : Memory :=
  fun a => if a < len then flash lnum (offs + a) else nodBuf a

/-- `ubifs_read_nnode`. -/
def ubifsReadNnode (root : Nbranch) (parent : Option CachedNnode) (iip : Nat) :
    Except Errno CachedNnode := do
  let branch := branchTo root parent iip
  let fresh : Nnode := { num := 0, nbranch := List.replicate ubifsLptFanout ⟨0, 0⟩ }
  let nnode ←
    if branch.lnum = 0 then
      if c.bigLpt then pure { fresh with num := calcNnodeNumFromParent c parent iip } else pure fresh
    else
      ubifsUnpackNnode c crc16 junk (ubiRead flash nodBuf branch.lnum branch.offs c.geom.nnodeSz) 0
        fresh
  validateNnode c nnode parent iip
  let nnode :=
    if c.bigLpt then nnode else { nnode with num := calcNnodeNumFromParent c parent iip }
  return { node := nnode, level := levelBelow c parent }

/-- `kzalloc`. -/
def zeroLprops : Lprops where
  lnum := 0
  free := 0
  dirty := 0
  flags := { cat := .list .uncat, taken := false, index := false }
  hpos := 0

/-- The properties of a LEB that were never written. -/
def unwrittenLprops : Lprops :=
  let lp := { zeroLprops with free := c.lebSize }
  { lp with flags := { lp.flags with cat := ubifsCategorizeLprops g lp } }

/-- `read_pnode`. -/
def readPnode (parent : CachedNnode) (iip : Nat) : Except Errno Pnode := do
  let branch := branchTo ⟨0, 0⟩ (some parent) iip
  let fresh : Pnode := { num := 0, lprops := List.replicate ubifsLptFanout zeroLprops }
  let pnode ←
    if branch.lnum = 0 then
      let num := if c.bigLpt then calcPnodeNumFromParent c parent iip else 0
      pure { num := num, lprops := List.replicate ubifsLptFanout (unwrittenLprops c g) }
    else
      unpackPnode c g crc16 junk (ubiRead flash nodBuf branch.lnum branch.offs c.geom.pnodeSz) 0 fresh
  validatePnode c pnode parent iip
  let pnode :=
    if c.bigLpt then pnode else { pnode with num := calcPnodeNumFromParent c parent iip }
  return setPnodeLnum c pnode

/-- All leaves below an inner node, from left to right. -/
def walkBelow : Nat → CachedNnode → Except Errno (List Pnode)
  | 0, _ => .ok []
  | 1, nnode => (List.range ubifsLptFanout).mapM (readPnode c g crc16 junk flash nodBuf nnode)
  | level + 2, nnode => do
    let leaves ← (List.range ubifsLptFanout).mapM fun iip => do
      let child ← ubifsReadNnode c crc16 junk flash nodBuf ⟨0, 0⟩ (some nnode) iip
      walkBelow (level + 1) child
    return leaves.flatten

/-- The whole tree is read, from the root on. -/
def walk (root : Nbranch) : Except Errno (List Pnode) := do
  let nnode ← ubifsReadNnode c crc16 junk flash nodBuf root none 0
  walkBelow c g crc16 junk flash nodBuf nnode.level nnode

end Read

end Ubifs.Lpt
