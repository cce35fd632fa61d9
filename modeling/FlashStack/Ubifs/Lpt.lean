/-
  The LEB properties tree on the media (`lpt.c`): the geometry and the nodes.

  The widths of the fields of a node depend on the geometry.  A node starts with a checksum of what
  follows it, and its type is the first field after that.  In the big model the nodes have their
  numbers in them, and a table is saved of LEBs that are worth looking at.

  A node is a list of fields (`pnodeFields`, `nnodeFields`, `ltabFields`, `lsaveFields`), each with
  its value and its width, and packing goes through that list with `pack_bits`.  `packBits` and
  `ubifsUnpackBits` work on bytes at addresses as the source does, with the bytes in front of and
  behind a field in them; the variable that a field is unpacked into is not initialised, and what
  it has in it at first is `junk`.

  Unpacking takes the fields in the order of the source and checks type and checksum where the
  source does.
-/
import FlashStack.Lib.BitFields
import FlashStack.Ubifs.Lprops

open Lib

namespace Ubifs.Lpt

open Lp

/-- Sizes of the nodes and the least of the file system (`ubifs-media.h`). -/
def ubifsLptFanout : Nat := 4
def ubifsLptFanoutShift : Nat := 2
def ubifsLptCrcBits : Nat := 16
def ubifsLptCrcBytes : Nat := 2
def ubifsLptTypeBits : Nat := 4
def ubifsMinLebSz : Nat := 15 * 1024
def ubifsMinLptLebs : Nat := 2
def ubifsMinLebCnt : Nat := 17

/-- The types of the nodes. -/
def ubifsLptPnode : BitVec 32 := 0
def ubifsLptNnode : BitVec 32 := 1
def ubifsLptLtab : BitVec 32 := 2
def ubifsLptLsave : BitVec 32 := 3

/-- `DIV_ROUND_UP`. -/
def divRoundUp (n d : Nat) : Nat := (n + d - 1) / d

/-- The position of the last bit that is set, from one on. -/
def fls (n : Nat) : Nat := if n = 0 then 0 else n.log2 + 1

/-! ## Geometry -/

/-- What `struct ubifs_info` has of the flash and of the areas. -/
structure Info where
  lebSize : Nat
  minIoSize : Nat
  lebCnt : Nat
  maxLebCnt : Nat
  mainLebs : Nat
  lptFirst : Nat
  lptLebs : Nat
  lsaveCnt : Nat
  bigLpt : Bool

namespace Info

variable (c : Info)

/-- The last LEB of the area of the tree. -/
def lptLast : Nat := c.lptFirst + c.lptLebs - 1

/-- The main area is at the end of the volume. -/
def mainFirst : Nat := c.lebCnt - c.mainLebs

/-- What `init_constants_early` and `validate_sb` make sure of. -/
structure Checked : Prop where
  lebSize : ubifsMinLebSz ≤ c.lebSize
  int : c.lebSize < 2 ^ 31
  lebCnt : ubifsMinLebCnt ≤ c.lebCnt
  maxLebCnt : c.lebCnt ≤ c.maxLebCnt
  maxInt : c.maxLebCnt < 2 ^ 31
  mainLebs : c.mainLebs ≤ c.lebCnt
  lptFirst : 0 < c.lptFirst
  lptLebs : ubifsMinLptLebs ≤ c.lptLebs
  lptArea : c.lptFirst + c.lptLebs ≤ c.lebCnt

end Info

/-- What `do_calc_lpt_geom` works out: the height, how many nodes, and how wide their fields. -/
structure Geom where
  lptHght : Nat
  pnodeCnt : Nat
  nnodeCnt : Nat
  spaceBits : Nat
  lptLnumBits : Nat
  lptOffsBits : Nat
  lptSpcBits : Nat
  pcntBits : Nat
  lnumBits : Nat
  pnodeSz : Nat
  nnodeSz : Nat
  ltabSz : Nat
  lsaveSz : Nat
  lptSz : Nat
deriving DecidableEq

/-- The loop of the height needs it. -/
theorem ubifsLptFanout_pos : 0 < ubifsLptFanout := by decide

/-- The loop that finds the height: each level has four times the leaves. -/
def hghtLoop (maxPnodeCnt n lptHght : Nat) (hn : 0 < n) : Nat :=
  if h : n < maxPnodeCnt then
    hghtLoop maxPnodeCnt (n <<< ubifsLptFanoutShift) (lptHght + 1)
      (by rw [Nat.shiftLeft_eq]; exact Nat.mul_pos hn (by decide))
  else lptHght
termination_by maxPnodeCnt - n
decreasing_by
  rw [Nat.shiftLeft_eq, ubifsLptFanoutShift]
  omega

/-- `k` levels above one of `n` nodes. -/
def nnodeCntLoop : (k n nnodeCnt : Nat) → Nat
  | 0, _, nnodeCnt => nnodeCnt
  | k + 1, n, nnodeCnt =>
    let n := divRoundUp n ubifsLptFanout
    nnodeCntLoop k n (nnodeCnt + n)

/-- The wastage of each LEB but the last one.  The loop of the source would not end if a LEB had no
    room for what is wasted in it. -/
def wastageLoop (lebSize perLebWastage sz totWastage : Nat) : Nat × Nat :=
  if lebSize < sz ∧ perLebWastage < lebSize then
    wastageLoop lebSize perLebWastage (sz + perLebWastage - lebSize) (totWastage + perLebWastage)
  else (sz, totWastage)
termination_by sz

/-- `do_calc_lpt_geom`. -/
def doCalcLptGeom (c : Info) : Geom :=
  let n := c.mainLebs + c.maxLebCnt - c.lebCnt
  let maxPnodeCnt := divRoundUp n ubifsLptFanout
  let lptHght := hghtLoop maxPnodeCnt ubifsLptFanout 1 ubifsLptFanout_pos
  let pnodeCnt := divRoundUp c.mainLebs ubifsLptFanout
  let n := divRoundUp pnodeCnt ubifsLptFanout
  let nnodeCnt := nnodeCntLoop (lptHght - 1) n n
  let spaceBits := fls c.lebSize - 3
  let lptLnumBits := fls c.lptLebs
  let lptOffsBits := fls (c.lebSize - 1)
  let lptSpcBits := fls c.lebSize
  let n := divRoundUp c.maxLebCnt ubifsLptFanout
  let pcntBits := fls (n - 1)
  let lnumBits := fls (c.maxLebCnt - 1)
  let bits := ubifsLptCrcBits + ubifsLptTypeBits + (if c.bigLpt then pcntBits else 0) +
    (spaceBits * 2 + 1) * ubifsLptFanout
  let pnodeSz := (bits + 7) / 8
  let bits := ubifsLptCrcBits + ubifsLptTypeBits + (if c.bigLpt then pcntBits else 0) +
    (lptLnumBits + lptOffsBits) * ubifsLptFanout
  let nnodeSz := (bits + 7) / 8
  let bits := ubifsLptCrcBits + ubifsLptTypeBits + c.lptLebs * lptSpcBits * 2
  let ltabSz := (bits + 7) / 8
  let bits := ubifsLptCrcBits + ubifsLptTypeBits + lnumBits * c.lsaveCnt
  let lsaveSz := (bits + 7) / 8
  let lptSz := pnodeCnt * pnodeSz + nnodeCnt * nnodeSz + ltabSz + if c.bigLpt then lsaveSz else 0
  let perLebWastage := max pnodeSz nnodeSz
  let (sz, totWastage) :=
    wastageLoop c.lebSize perLebWastage (lptSz + perLebWastage) perLebWastage
  let totWastage := totWastage + (align sz c.minIoSize - sz)
  { lptHght, pnodeCnt, nnodeCnt, spaceBits, lptLnumBits, lptOffsBits, lptSpcBits, pcntBits,
    lnumBits, pnodeSz, nnodeSz, ltabSz, lsaveSz, lptSz := lptSz + totWastage }

/-- The geometry that goes with the sizes. -/
def Info.geom (c : Info) : Geom := doCalcLptGeom c

/-! ## Numbers of nodes -/

/-- The number of the inner node at a row and a column: the digits of the column come last first. -/
def calcNnodeNum (row col : Nat) : Nat := loop row col 1
where
  loop : Nat → Nat → Nat → Nat
  | 0, _, num => num
  | row + 1, col, num =>
    let bits := col &&& (ubifsLptFanout - 1)
    loop row (col >>> ubifsLptFanoutShift) (num <<< ubifsLptFanoutShift ||| bits)

/-! ## Bits -/

/-- `uint8_t *addr` and `int pos`. -/
structure BitPtr where
  addr : Nat
  pos : Nat
deriving DecidableEq

/-- A byte is stored; only the low bits of the value count. -/
def store (m : Memory) (p : Nat) (val : BitVec 32) : Memory := Function.update m p (val.setWidth 8)

/-- `pack_bits`: bit by bit from the low end, with a part of a byte at either end. -/
def packBits (m : Memory) (ptr : BitPtr) (val : BitVec 32) (nrbits : Nat) : Memory × BitPtr :=
  let p := ptr.addr
  let b := ptr.pos
  let (m, p, nrbits) :=
    if b ≠ 0 then
      let m := Function.update m p (m p ||| val.setWidth 8 <<< b)
      let nrbits := nrbits + b
      if 8 < nrbits then
        let val := val >>> (8 - b)
        let m := store m (p + 1) val
        if 16 < nrbits then
          let val := val >>> 8
          let m := store m (p + 2) val
          if 24 < nrbits then
            let val := val >>> 8
            let m := store m (p + 3) val
            if 32 < nrbits then
              let val := val >>> 8
              let m := store m (p + 4) val
              (m, p + 4, nrbits)
            else (m, p + 3, nrbits)
          else (m, p + 2, nrbits)
        else (m, p + 1, nrbits)
      else (m, p, nrbits)
    else
      let m := store m p val
      if 8 < nrbits then
        let val := val >>> 8
        let m := store m (p + 1) val
        if 16 < nrbits then
          let val := val >>> 8
          let m := store m (p + 2) val
          if 24 < nrbits then
            let val := val >>> 8
            let m := store m (p + 3) val
            (m, p + 3, nrbits)
          else (m, p + 2, nrbits)
        else (m, p + 1, nrbits)
      else (m, p, nrbits)
  let b := nrbits % 8
  (m, ⟨if b = 0 then p + 1 else p, b⟩)

/-- A byte as a `uint32_t`, shifted to its place. -/
def load (m : Memory) (p shift : Nat) : BitVec 32 := (m p).setWidth 32 <<< shift

/-- `val` is what an uninitialised variable happens to have: a field that ends in the byte in hand
    does not assign it. -/
def ubifsUnpackBits (m : Memory) (val : BitVec 32) (ptr : BitPtr) (nrbits : Nat) :
    BitVec 32 × BitPtr :=
  let k := 32 - nrbits
  let p := ptr.addr
  let b := ptr.pos
  let bytes := (nrbits + b + 7) / 8
  let (val, nrbits) :=
    if b ≠ 0 then
      let val : BitVec 32 :=
        match bytes with
        | 2 => load m (p + 1) 0
        | 3 => load m (p + 1) 0 ||| load m (p + 2) 8
        | 4 => load m (p + 1) 0 ||| load m (p + 2) 8 ||| load m (p + 3) 16
        | 5 => load m (p + 1) 0 ||| load m (p + 2) 8 ||| load m (p + 3) 16 ||| load m (p + 4) 24
        | _ => val
      let val := val <<< (8 - b) ||| (m p >>> b).setWidth 32
      (val, nrbits + b)
    else
      let val : BitVec 32 :=
        match bytes with
        | 1 => load m p 0
        | 2 => load m p 0 ||| load m (p + 1) 8
        | 3 => load m p 0 ||| load m (p + 1) 8 ||| load m (p + 2) 16
        | 4 => load m p 0 ||| load m (p + 1) 8 ||| load m (p + 2) 16 ||| load m (p + 3) 24
        | _ => val
      (val, nrbits)
  let val := val <<< k >>> k
  (val, ⟨p + nrbits / 8, nrbits % 8⟩)

/-! ## Nodes -/

/-- `struct ubifs_pnode`, with its four LEBs. -/
structure Pnode where
  num : Nat
  lprops : List Lprops

/-- `struct ubifs_nbranch`: where a node is; LEB zero if it was never written. -/
structure Nbranch where
  lnum : Nat
  offs : Nat
deriving DecidableEq

/-- `struct ubifs_nnode`. -/
structure Nnode where
  num : Nat
  nbranch : List Nbranch

/-- `struct ubifs_lpt_lprops`. -/
structure LptLprops where
  free : Nat
  dirty : Nat
  tgc : Bool
  cmt : Bool
deriving DecidableEq

/-- The fields of a node in the order in which they are packed. -/
abbrev Fields := List (Field 32)

section Fields

variable (c : Info)

/-- Nodes have their number in them in the big model. -/
def numFields (num : Nat) : Fields :=
  if c.bigLpt then [⟨BitVec.ofNat 32 num, c.geom.pcntBits⟩] else []

/-- LEB properties are in units of eight bytes; of the flags only the index flag is saved. -/
def lpropsFields (lp : Lprops) : Fields :=
  [⟨BitVec.ofInt 32 (lp.free >>> (3 : Nat)), c.geom.spaceBits⟩,
    ⟨BitVec.ofInt 32 (lp.dirty >>> (3 : Nat)), c.geom.spaceBits⟩,
    ⟨if lp.flags.index then 1 else 0, 1⟩]

/-- The fields of a pnode, in order. -/
def pnodeFields (pnode : Pnode) : Fields :=
  ⟨ubifsLptPnode, ubifsLptTypeBits⟩ ::
    (numFields c pnode.num ++ pnode.lprops.flatMap (lpropsFields c))

/-- A branch to nowhere has a LEB number behind the area. -/
def nbranchFields (branch : Nbranch) : Fields :=
  let lnum := if branch.lnum = 0 then c.lptLast + 1 else branch.lnum
  [⟨BitVec.ofInt 32 (lnum - c.lptFirst), c.geom.lptLnumBits⟩,
    ⟨BitVec.ofNat 32 branch.offs, c.geom.lptOffsBits⟩]

/-- The fields of an nnode, in order. -/
def nnodeFields (nnode : Nnode) : Fields :=
  ⟨ubifsLptNnode, ubifsLptTypeBits⟩ ::
    (numFields c nnode.num ++ nnode.nbranch.flatMap (nbranchFields c))

/-- The free and dirty bytes of a LEB of the tree. -/
def ltabEntryFields (lp : LptLprops) : Fields :=
  [⟨BitVec.ofNat 32 lp.free, c.geom.lptSpcBits⟩, ⟨BitVec.ofNat 32 lp.dirty, c.geom.lptSpcBits⟩]

/-- The fields of the table of these LEBs. -/
def ltabFields (ltab : List LptLprops) : Fields :=
  ⟨ubifsLptLtab, ubifsLptTypeBits⟩ :: ltab.flatMap (ltabEntryFields c)

/-- The fields of the table of saved LEBs. -/
def lsaveFields (lsave : List Nat) : Fields :=
  ⟨ubifsLptLsave, ubifsLptTypeBits⟩ ::
    lsave.flatMap fun lnum => [⟨BitVec.ofNat 32 lnum, c.geom.lnumBits⟩]

end Fields

/-! ## Packing -/

/-- `crc16`. -/
abbrev Crc := BitVec 16 → List (BitVec 8) → BitVec 16

/-- Fields are packed one behind the other. -/
def packFields (m : Memory) (ptr : BitPtr) : Fields → Memory × BitPtr
  | [] => (m, ptr)
  | f :: fs =>
    let (m, ptr) := packBits m ptr f.val f.width
    packFields m ptr fs

section Pack

variable (c : Info) (crc16 : Crc) (m : Memory) (buf : Nat)

/-- The checksum is over what follows it. -/
def nodeCrc (sz : Nat) : BitVec 16 :=
  crc16 (-1) (bytesAt m (buf + ubifsLptCrcBytes) (sz - ubifsLptCrcBytes))

/-- The fields behind the place of the checksum, then the checksum. -/
def packNode (sz : Nat) (fs : Fields) : Memory :=
  let m := (packFields m ⟨buf + ubifsLptCrcBytes, 0⟩ fs).1
  let crc := nodeCrc crc16 m buf sz
  (packBits m ⟨buf, 0⟩ (crc.setWidth 32) ubifsLptCrcBits).1

/-- `ubifs_pack_pnode`. -/
def ubifsPackPnode (pnode : Pnode) : Memory :=
  packNode crc16 m buf c.geom.pnodeSz (pnodeFields c pnode)

/-- `ubifs_pack_nnode`. -/
def ubifsPackNnode (nnode : Nnode) : Memory :=
  packNode crc16 m buf c.geom.nnodeSz (nnodeFields c nnode)

/-- `ubifs_pack_ltab`. -/
def ubifsPackLtab (ltab : List LptLprops) : Memory :=
  packNode crc16 m buf c.geom.ltabSz (ltabFields c ltab)

/-- `ubifs_pack_lsave`. -/
def ubifsPackLsave (lsave : List Nat) : Memory :=
  packNode crc16 m buf c.geom.lsaveSz (lsaveFields c lsave)

end Pack

/-! ## Unpacking -/

/-- What reading or creating the tree may end with. -/
inductive Errno
  | einval | enomem | ubi (err : Nat)
deriving DecidableEq

/-- What uninitialised variables have, by the place that is read. -/
abbrev Junk := BitPtr → BitVec 32

section Unpack

variable (c : Info) (g : Consts) (crc16 : Crc) (junk : Junk) (m : Memory) (buf : Nat)

/-- `ubifs_unpack_bits`, as a number. -/
def unpack (ptr : BitPtr) (nrbits : Nat) : Nat × BitPtr :=
  let (val, ptr) := ubifsUnpackBits m (junk ptr) ptr nrbits
  (val.toNat, ptr)

/-- `check_lpt_crc`. -/
def checkLptCrc (len : Nat) : Except Errno Unit :=
  let (crc, _) := ubifsUnpackBits m (junk ⟨buf, 0⟩) ⟨buf, 0⟩ ubifsLptCrcBits
  if crc.setWidth 16 = nodeCrc crc16 m buf len then .ok () else .error .einval

/-- `check_lpt_type`. -/
def checkLptType (ptr : BitPtr) (type : BitVec 32) : Except Errno BitPtr :=
  let (nodeType, ptr) := ubifsUnpackBits m (junk ptr) ptr ubifsLptTypeBits
  if nodeType = type then .ok ptr else .error .einval

/-- The number of a node that has one. -/
def unpackNum (ptr : BitPtr) (num : Nat) : Nat × BitPtr :=
  if c.bigLpt then unpack junk m ptr c.geom.pcntBits else (num, ptr)

/-- What the properties had is overwritten, but not the LEB numbers. -/
def unpackLprops : BitPtr → List Lprops → List Lprops
  | _, [] => []
  | ptr, lp :: lps =>
    let (free, ptr) := unpack junk m ptr c.geom.spaceBits
    let (dirty, ptr) := unpack junk m ptr c.geom.spaceBits
    let (index, ptr) := unpack junk m ptr 1
    let flags : Flags := { cat := .list .uncat, taken := false, index := decide (index ≠ 0) }
    let lp := { lp with
      free := (free : Int) <<< (3 : Nat)
      dirty := (dirty : Int) <<< (3 : Nat)
      flags := flags }
    let lp := { lp with flags := { flags with cat := ubifsCategorizeLprops g lp } }
    lp :: unpackLprops ptr lps

/-- `unpack_pnode`. -/
def unpackPnode (pnode : Pnode) : Except Errno Pnode := do
  let ptr ← checkLptType junk m ⟨buf + ubifsLptCrcBytes, 0⟩ ubifsLptPnode
  let (num, ptr) := unpackNum c junk m ptr pnode.num
  let lprops := unpackLprops c g junk m ptr pnode.lprops
  checkLptCrc crc16 junk m buf c.geom.pnodeSz
  return { num, lprops }

/-- `k` branches. -/
def unpackNbranches : Nat → BitPtr → List Nbranch
  | 0, _ => []
  | k + 1, ptr =>
    let (lnum, ptr) := unpack junk m ptr c.geom.lptLnumBits
    let lnum := lnum + c.lptFirst
    let lnum := if lnum = c.lptLast + 1 then 0 else lnum
    let (offs, ptr) := unpack junk m ptr c.geom.lptOffsBits
    ⟨lnum, offs⟩ :: unpackNbranches k ptr

/-- `ubifs_unpack_nnode`. -/
def ubifsUnpackNnode (nnode : Nnode) : Except Errno Nnode := do
  let ptr ← checkLptType junk m ⟨buf + ubifsLptCrcBytes, 0⟩ ubifsLptNnode
  let (num, ptr) := unpackNum c junk m ptr nnode.num
  let nbranch := unpackNbranches c junk m ubifsLptFanout ptr
  checkLptCrc crc16 junk m buf c.geom.nnodeSz
  return { num, nbranch }

/-- The loop of `unpack_ltab`. -/
def unpackLtabEntries : Nat → BitPtr → Except Errno (List LptLprops)
  | 0, _ => .ok []
  | k + 1, ptr => do
    let (free, ptr) := unpack junk m ptr c.geom.lptSpcBits
    let (dirty, ptr) := unpack junk m ptr c.geom.lptSpcBits
    if c.lebSize < free ∨ c.lebSize < dirty ∨ c.lebSize < free + dirty then .error .einval
    else
      let ltab ← unpackLtabEntries k ptr
      return ⟨free, dirty, false, false⟩ :: ltab

/-- `unpack_ltab`. -/
def unpackLtab : Except Errno (List LptLprops) := do
  let ptr ← checkLptType junk m ⟨buf + ubifsLptCrcBytes, 0⟩ ubifsLptLtab
  let ltab ← unpackLtabEntries c junk m c.lptLebs ptr
  checkLptCrc crc16 junk m buf c.geom.ltabSz
  return ltab

/-- The loop of `unpack_lsave`. -/
def unpackLsaveEntries : Nat → BitPtr → Except Errno (List Nat)
  | 0, _ => .ok []
  | k + 1, ptr => do
    let (lnum, ptr) := unpack junk m ptr c.geom.lnumBits
    if lnum < c.mainFirst ∨ c.lebCnt ≤ lnum then .error .einval
    else
      let lsave ← unpackLsaveEntries k ptr
      return lnum :: lsave

/-- `unpack_lsave`. -/
def unpackLsave : Except Errno (List Nat) := do
  let ptr ← checkLptType junk m ⟨buf + ubifsLptCrcBytes, 0⟩ ubifsLptLsave
  let lsave ← unpackLsaveEntries c junk m c.lsaveCnt ptr
  checkLptCrc crc16 junk m buf c.geom.lsaveSz
  return lsave

end Unpack

end Ubifs.Lpt
