/-
  Scanning an LEB and recovering one (`scan.c`, the second part of `recovery.c`), on any bytes.

  The scan buffer has the size of an LEB, and every read and write of it is checked against that: what the
  code does outside of it is `Stop.wild`.  Pointers into the buffer are distances from its start; `buf` and
  `offs` are variables of their own, as in the code, because `offs` is an `int` and the pointer is not.
  The messages and the dumps of nodes, which only a debugging build has, are left out, and so are failed
  allocations and reads.
-/
import Mathlib

namespace Ubifs.Scan

/-! ## Integers, bytes and the buffer -/

/-- The value of an `int` expression. -/
def int (x : Int) : Int := x.bmod (2 ^ 32)

/-- `ALIGN(x, a)` of `int`s, `a` a power of two. -/
def align (x : Int) (a : Nat) : Int := int (x + a - 1) / a * a

/-- `round_down(x, a)` -/
def roundDown (x : Int) (a : Nat) : Int := x / a * a

/-- The low bytes of a number, the lowest first. -/
def le (n x : Nat) : List UInt8 := (List.range n).map fun i => UInt8.ofNat (x / 256 ^ i)

/-- The errors of scanning. -/
inductive Errno
  | euclean
  | einval
deriving DecidableEq

/-- Why scanning does not return a result. -/
inductive Stop
  /-- something outside of the buffer is read or written -/
  | wild
  /-- a loop that does not end -/
  | hang
  | err (e : Errno)
deriving DecidableEq

/-- The scan buffer, byte by byte; what is behind `lebSize` is not there. -/
abbrev Buf := Nat → UInt8

/-- The fields of `struct ubifs_info` that are read here, and what they are assumed to satisfy.  `minIo_dvd`
    is what `ubifs_wbuf_sync_nolock` asserts of the size of a write-buffer at the end of an LEB, and holds
    of the LEBs that UBI makes on NAND; a volume of a NOR device with an odd alignment (LEBs of 65406
    bytes, say) is left out, here and for the write-buffer. -/
structure Info where
  lebSize : Nat
  minIoShift : Nat
  maxWriteShift : Nat
  fanout : Nat
  crc32 : List UInt8 → UInt32
  noChkDataCrc : Bool
  mounting : Bool
  remountingRw : Bool
  roMount : Bool
  /-- an LEB is far from the end of the `int`s -/
  lebSize_lt : lebSize < 2 ^ 30
  eight_le : 3 ≤ minIoShift
  shift_le : minIoShift ≤ maxWriteShift
  maxWrite_lt : maxWriteShift < 30
  minIo_dvd : 2 ^ minIoShift ∣ lebSize
  /-- `validate_sb` wants an LEB to hold the largest index node -/
  idx_le : 28 + 20 * fanout ≤ lebSize

namespace Info

variable (c : Info) (sbuf : Buf)

/-- The sizes are powers of two. -/
def minIoSize : Nat := 2 ^ c.minIoShift

def maxWriteSize : Nat := 2 ^ c.maxWriteShift

/-- Bytes of the buffer, at offsets that an `int` may have. -/
def byte (p : Int) : Except Stop UInt8 :=
  if 0 ≤ p ∧ p < c.lebSize then .ok (sbuf p.toNat) else .error .wild

def bytes (p : Int) (n : Nat) : Except Stop (List UInt8) :=
  if 0 ≤ p ∧ p + n ≤ c.lebSize then .ok ((List.range n).map fun i => sbuf (p.toNat + i))
  else .error .wild

/-- A little-endian number of `n` bytes. -/
def word (p : Int) (n : Nat) : Except Stop Nat := do
  return Nat.ofDigits 256 ((← c.bytes sbuf p n).map UInt8.toNat)

/-- Bytes are written to the buffer. -/
def store (p : Int) (bs : List UInt8) : Except Stop Buf :=
  if 0 ≤ p ∧ p + bs.length ≤ c.lebSize then
    .ok fun i => if p.toNat ≤ i then bs.getD (i - p.toNat) (sbuf i) else sbuf i
  else .error .wild

/-- A length is a `size_t`: a negative one is beyond any buffer. -/
def memset (p : Int) (b : UInt8) (n : Int) : Except Stop Buf :=
  if n < 0 then .error .wild else c.store sbuf p (List.replicate n.toNat b)

end Info

/-! ## Nodes -/

/-- The types of nodes in `ubifs-media.h`. -/
inductive NodeType
  | ino | data | dent | xent | trun | pad | sb | mst | ref | idx | cs | orph
deriving DecidableEq

/-- `type >= UBIFS_NODE_TYPES_CNT` is no node type. -/
def NodeType.ofByte (b : UInt8) : Option NodeType :=
  [.ino, .data, .dent, .xent, .trun, .pad, .sb, .mst, .ref, .idx, .cs, .orph][b.toNat]?

/-- Headers and padding in `ubifs-media.h`. -/
def ubifsNodeMagic : Nat := 0x06101831
def ubifsPaddingByte : UInt8 := 0xCE
def ubifsChSz : Nat := 24
def ubifsPadNodeSz : Nat := 28
def ubifsInNodeGroup : UInt8 := 1

/-- Scanning codes; a positive one is a length of padding. -/
def scannedGarbage : Int := 0

/-- What `ubifs_scan_a_node` may return besides a length of padding. -/
def scannedEmptySpace : Int := -1
def scannedANode : Int := -2
def scannedACorruptNode : Int := -3
def scannedABadPadNode : Int := -4

/-- `struct ubifs_node_range`: one length (then `maxLen` is 0), or a range of them. -/
structure NodeRange where
  minLen : Nat
  maxLen : Nat

/-- `struct ubifs_scan_node`. -/
structure ScanNode where
  sqnum : Nat
  type : UInt8
  offs : Int
  len : Int
  /-- where the node is in the buffer -/
  node : Int
  key : Nat × Nat
deriving DecidableEq

/-- `struct ubifs_scan_leb`. -/
structure ScanLeb where
  nodes : List ScanNode
  endpt : Int

/-- The variables of the scanning loops. -/
structure Cursor where
  buf : Int
  offs : Int
  len : Int

/-- The loop goes `n` bytes on. -/
def Cursor.skip (cur : Cursor) (n : Int) : Cursor := ⟨cur.buf + n, int (cur.offs + n), int (cur.len - n)⟩

namespace Info

variable (c : Info) (sbuf : Buf)

/-- `c->ranges`, as `init_constants_early` fills them. -/
def ranges : NodeType → NodeRange
  | .pad => ⟨ubifsPadNodeSz, 0⟩
  | .sb => ⟨4096, 0⟩
  | .mst => ⟨512, 0⟩
  | .ref => ⟨64, 0⟩
  | .trun => ⟨56, 0⟩
  | .cs => ⟨32, 0⟩
  | .ino => ⟨160, 160 + 4096⟩
  | .orph => ⟨32 + 8, c.lebSize⟩
  | .dent => ⟨56, 56 + 255 + 1⟩
  | .xent => ⟨56, 56 + 255 + 1⟩
  | .data => ⟨48, 48 + 4096⟩
  | .idx => ⟨28 + 20, 28 + 20 * c.fanout⟩

/-- The fields of the header at `p`. -/
def magic (p : Int) : Except Stop Nat := c.word sbuf p 4
def crc (p : Int) : Except Stop Nat := c.word sbuf (p + 4) 4
def sqnum (p : Int) : Except Stop Nat := c.word sbuf (p + 8) 8
def len (p : Int) : Except Stop Nat := c.word sbuf (p + 16) 4
def nodeType (p : Int) : Except Stop UInt8 := c.byte sbuf (p + 20)
def groupType (p : Int) : Except Stop UInt8 := c.byte sbuf (p + 21)
def padLen (p : Int) : Except Stop Nat := c.word sbuf (p + 24) 4

/-- The part of `ubifs_check_node` that looks at the length. -/
def badLen (type : NodeType) (nodeLen offs : Int) : Bool :=
  c.lebSize < int (nodeLen + offs) ||
    if (c.ranges type).maxLen = 0 then nodeLen ≠ (c.ranges type).minLen
    else nodeLen < (c.ranges type).minLen || (c.ranges type).maxLen < nodeLen

/-- `none` for a good node. -/
def ubifsCheckNode (p offs : Int) (mustChkCrc : Bool) : Except Stop (Option Errno) := do
  if (← c.magic sbuf p) ≠ ubifsNodeMagic then return some .euclean
  else
    match NodeType.ofByte (← c.nodeType sbuf p) with
    | none => return some .einval
    | some type =>
      let nodeLen := int (← c.len sbuf p)
      if c.badLen type nodeLen offs then return some .einval
      else if !mustChkCrc && type = .data && !c.mounting && !c.remountingRw && c.noChkDataCrc then
        return none
      else
        let crc := c.crc32 (← c.bytes sbuf (p + 8) (nodeLen - 8).toNat)
        if crc.toNat ≠ (← c.crc sbuf p) then return some .euclean
        else return none

/-! ## Scanning -/

/-- The padding bytes from `p` on, not more than `max` of them. -/
def padRun : Nat → Int → Except Stop Nat
  | 0, _ => .ok 0
  | max + 1, p => do
    if (← c.byte sbuf p) = ubifsPaddingByte then return (← padRun max (p + 1)) + 1
    else return 0

/-- `scan_padding_bytes`. -/
def scanPaddingBytes (p len : Int) : Except Stop Int := do
  let padLen ← c.padRun sbuf (min (ubifsPadNodeSz : Int) len).toNat p
  if padLen = 0 ∨ padLen % 8 ≠ 0 then return scannedGarbage
  else return padLen

/-- `ubifs_scan_a_node`. -/
def ubifsScanANode (p len offs : Int) : Except Stop Int := do
  let magic ← c.magic sbuf p
  if magic = 0xFFFFFFFF then return scannedEmptySpace
  else if magic ≠ ubifsNodeMagic then c.scanPaddingBytes sbuf p len
  else if len < ubifsChSz then return scannedGarbage
  else if (← c.ubifsCheckNode sbuf p offs true) ≠ none then return scannedACorruptNode
  else if NodeType.ofByte (← c.nodeType sbuf p) = some .pad then
    let padLen := int (← c.padLen sbuf p)
    let nodeLen := int (← c.len sbuf p)
    if padLen < 0 ∨ c.lebSize < int (offs + nodeLen + padLen) then return scannedABadPadNode
    else if int (nodeLen + padLen) % 8 ≠ 0 then return scannedABadPadNode
    else return int (nodeLen + padLen)
  else return scannedANode

/-- `invalid_key_init` -/
def invalidKey : Nat × Nat := (0xDEADBEAF, 0xFFFFFFFF)

/-- `ubifs_add_snod`. -/
def ubifsAddSnod (p offs : Int) : Except Stop ScanNode := do
  let sqnum ← c.sqnum sbuf p
  let type ← c.nodeType sbuf p
  let len ← c.len sbuf p
  let key ←
    if NodeType.ofByte type ∈ [some .ino, some .dent, some .xent, some .data] then
      -- the key is in the same place in all keyed nodes
      pure (← c.word sbuf (p + 24) 4, ← c.word sbuf (p + 28) 4)
    else pure invalidKey
  return ⟨sqnum, type, offs, int len, p, key⟩

/-- The loop of `ubifs_scan` and of `ubifs_recover_leb`.  They differ in what they make of the code that
    ends it, which is returned; it is the code of the last node when there is nothing left to look at. -/
def scanLoop : Nat → Int → List ScanNode → Cursor → Except Stop (Int × List ScanNode × Cursor)
  | 0, _, _, _ => .error .hang
  | fuel + 1, ret, nodes, cur =>
    if cur.len < 8 then .ok (ret, nodes, cur)
    else do
      let ret ← c.ubifsScanANode sbuf cur.buf cur.len cur.offs
      if 0 < ret then scanLoop fuel ret nodes (cur.skip ret)
      else if ret = scannedANode then
        let snod ← c.ubifsAddSnod sbuf cur.buf cur.offs
        scanLoop fuel ret (nodes ++ [snod]) (cur.skip (align snod.len 8))
      else return (ret, nodes, cur)

/-- Where a scan starts. -/
def startCursor (offs : Int) : Cursor := ⟨offs, offs, c.lebSize - offs⟩

/-- `print_hex_dump` of 8 KiB at most -/
def ubifsScannedCorruption (p offs : Int) : Except Stop Unit := do
  let len := min (int (c.lebSize - offs)) 8192
  if len < 0 then .error .wild
  else discard (c.bytes sbuf p len.toNat)

/-- The label `corrupted` of `ubifs_scan`. -/
def corrupted {α : Type} (quiet : Bool) (cur : Cursor) : Except Stop α := do
  if quiet then .error (.err .euclean)
  else
    c.ubifsScannedCorruption sbuf cur.buf cur.offs
    .error (.err .euclean)

/-- Past the empty space, four bytes at a time. -/
def skipWords : Nat → Cursor → Except Stop Cursor
  | 0, _ => .error .hang
  | fuel + 1, cur =>
    if 4 < cur.len then do
      if (← c.word sbuf cur.buf 4) ≠ 0xFFFFFFFF then return cur
      else skipWords fuel (cur.skip 4)
    else .ok cur

/-- And byte by byte, to the end or to a byte that is not empty. -/
def skipBytes : Nat → Cursor → Except Stop (Option Cursor)
  | 0, _ => .error .hang
  | fuel + 1, cur =>
    if cur.len ≠ 0 then do
      if (← c.byte sbuf cur.buf) ≠ 0xFF then return some cur
      else skipBytes fuel (cur.skip 1)
    else .ok none

/-- `ubifs_scan`. -/
def ubifsScan (offs : Int) (quiet : Bool) : Except Stop ScanLeb := do
  let (ret, nodes, cur) ← c.scanLoop sbuf (c.lebSize + 1) 0 [] (c.startCursor offs)
  if 8 ≤ cur.len ∧ ret ≠ scannedEmptySpace then
    if ret ∈ [scannedGarbage, scannedACorruptNode, scannedABadPadNode] then c.corrupted sbuf quiet cur
    else .error (.err .einval)
  else if cur.offs % c.minIoSize ≠ 0 then c.corrupted sbuf quiet cur
  else
    let endpt := align cur.offs c.minIoSize
    let cur ← c.skipWords sbuf (c.lebSize + 1) cur
    match ← c.skipBytes sbuf (c.lebSize + 1) cur with
    | some cur => c.corrupted sbuf quiet cur
    | none => return ⟨nodes, endpt⟩

/-! ## Recovery -/

/-- The loop of `is_empty`. -/
def isEmptyRun : Nat → Int → Except Stop Bool
  | 0, _ => .ok true
  | n + 1, p => do
    if (← c.byte sbuf p) ≠ 0xFF then return false
    else isEmptyRun n (p + 1)

/-- `is_empty`. -/
def isEmpty (p len : Int) : Except Stop Bool := c.isEmptyRun sbuf len.toNat p

/-- The distance of the first byte that is not empty, if there is one. -/
def firstNonFf : Nat → Int → Except Stop (Option Nat)
  | 0, _ => .ok none
  | n + 1, p => do
    if (← c.byte sbuf p) ≠ 0xFF then return some 0
    else return (← firstNonFf n (p + 1)).map (· + 1)

/-- `is_last_write`: nothing is behind the last write unit. -/
def isLastWrite (p offs : Int) : Except Stop Bool :=
  let emptyOffs := align (offs + 1) c.maxWriteSize
  c.isEmpty sbuf (p + emptyOffs - offs) (int (c.lebSize - emptyOffs))

/-- `no_more_nodes`. -/
def noMoreNodes (p len offs : Int) : Except Stop Bool := do
  let dlen := int (← c.len sbuf p)
  let skip := align (offs + ubifsChSz) c.maxWriteSize - offs
  if ← c.isEmpty sbuf (p + skip) (len - skip) then return true
  -- the common header must be intact
  else if (← c.ubifsCheckNode sbuf p offs false) ≠ some .euclean then return false
  else
    let skip := align (offs + dlen) c.maxWriteSize - offs
    c.isEmpty sbuf (p + skip) (len - skip)

/-- What `ubifs_pad` makes a padding node of. -/
def padNode (pad : Nat) : List UInt8 :=
  let body := le 8 0 ++ le 4 ubifsPadNodeSz ++ [5, 0, 0, 0] ++ le 4 pad
  le 4 ubifsNodeMagic ++ le 4 (c.crc32 body).toNat ++ body

/-- `ubifs_pad`. -/
def ubifsPad (p pad : Int) : Except Stop Buf := do
  if ubifsPadNodeSz ≤ pad then
    let pad := pad - ubifsPadNodeSz
    let sbuf ← c.store sbuf p (c.padNode pad.toNat)
    c.memset sbuf (p + ubifsPadNodeSz) 0 pad
  else if 0 < pad then c.memset sbuf p ubifsPaddingByte pad
  else return sbuf

/-- `clean_buf`: up to the next write unit there is padding, and then nothing. -/
def cleanBuf (cur : Cursor) : Except Stop (Buf × Cursor) := do
  let emptyOffs := align cur.offs c.minIoSize
  let padLen := int (emptyOffs - cur.offs)
  let sbuf ← c.ubifsPad sbuf cur.buf padLen
  let cur := cur.skip padLen
  let sbuf ← c.memset sbuf cur.buf 0xFF (int (c.lebSize - emptyOffs))
  return (sbuf, cur)

/-- What `fix_unclean_leb` does with an LEB. -/
inductive Fix
  /-- it is put on `c->unclean_leb_list` -/
  | unclean (endpt : Int)
  | unmapped
  /-- `ubi_leb_change` to the first `len` bytes of the buffer -/
  | changed (sbuf : Buf) (len : Int)

/-- The bytes before `start`, which the code reads here, are in the buffer already. -/
def fixUncleanLeb (nodes : List ScanNode) (start : Int) : Except Stop Fix := do
  let endpt := (nodes.getLast?.map fun snod => int (snod.offs + snod.len)).getD start
  if c.roMount && !c.remountingRw then return .unclean endpt
  else if endpt = 0 then return .unmapped
  else
    let len := align endpt c.minIoSize
    let padLen := int (len - align endpt 8)
    let sbuf ← if endpt < len ∧ 0 < padLen then c.ubifsPad sbuf (len - padLen) padLen else pure sbuf
    if len < 0 then .error .wild
    else
      discard (c.bytes sbuf 0 len.toNat)
      return .changed sbuf len

/-- The nodes are in the order of `nodes.prev`, the last one first. -/
def dropLastGroup : List ScanNode → Int → Except Stop (List ScanNode × Int)
  | [], offs => .ok ([], offs)
  | snod :: nodes, offs => do
    if (← c.groupType sbuf snod.node) ≠ ubifsInNodeGroup then return (snod :: nodes, offs)
    else dropLastGroup nodes snod.offs

/-- `while (offs > min_io_unit) drop_last_node(sleb, &offs)`, the last node first: without a node
    `drop_last_node` changes nothing. -/
def dropLastNodes (minIoUnit : Int) : List ScanNode → Int → Except Stop (List ScanNode × Int)
  | [], offs => if minIoUnit < offs then .error .hang else .ok ([], offs)
  | snod :: nodes, offs =>
    if minIoUnit < offs then dropLastNodes minIoUnit nodes snod.offs else .ok (snod :: nodes, offs)

end Info

/-- The heads of the journal. -/
inductive Jhead
  | gchd | basehd | datahd
deriving DecidableEq

/-- `c->jheads[jhead].grouped`, for the LEB of no head too. -/
def grouped : Option Jhead → Bool
  | some .basehd | some .datahd => true
  | some .gchd | none => false

namespace Info

variable (c : Info) (sbuf : Buf)

/-- Whether what follows the scanned part is the rest of the last write, or empty. -/
def recoverable (ret : Int) (cur : Cursor) : Except Stop Bool := do
  if ret = scannedGarbage ∨ ret = scannedABadPadNode then c.isLastWrite sbuf cur.buf cur.offs
  else if ret = scannedACorruptNode then c.noMoreNodes sbuf cur.buf cur.len cur.offs
  else if ← c.isEmpty sbuf cur.buf cur.len then return true
  else c.isLastWrite sbuf cur.buf cur.offs

/-- The labels `corrupted_rescan` and `corrupted` of `ubifs_recover_leb`. -/
def refuse {α : Type} (ret : Int) (cur : Cursor) : Except Stop α := do
  if ret ∈ [scannedGarbage, scannedABadPadNode, scannedACorruptNode] then
    discard (c.ubifsScanANode sbuf cur.buf cur.len cur.offs)
    c.ubifsScannedCorruption sbuf cur.buf cur.offs
  else
    let corruption := ((← c.firstNonFf sbuf cur.len.toNat cur.buf).map Nat.cast).getD (-1)
    c.ubifsScannedCorruption sbuf (cur.buf + corruption) (int (cur.offs + corruption))
  .error (.err .euclean)

/-- The nodes that are kept, and where they end. -/
def dropNodes (jhead : Option Jhead) (nodes : List ScanNode) (offs : Int) :
    Except Stop (List ScanNode × Int) := do
  let minIoUnit := roundDown offs c.minIoSize
  let (nodes, offs) ←
    if grouped jhead then c.dropLastGroup sbuf nodes.reverse offs else pure (nodes.reverse, offs)
  let (nodes, offs) ←
    if jhead = some .gchd then dropLastNodes minIoUnit nodes offs else pure (nodes, offs)
  return (nodes.reverse, offs)

/-- The end of `ubifs_recover_leb`, from `clean_buf` on. -/
def cleanLeb (nodes : List ScanNode) (offs start : Int) : Except Stop (ScanLeb × Fix) := do
  let (sbuf, cur) ← c.cleanBuf sbuf ⟨offs, offs, int (c.lebSize - offs)⟩
  let endpt := align cur.offs c.minIoSize
  let fix ← c.fixUncleanLeb sbuf nodes start
  return (⟨nodes, endpt⟩, fix)

/-- `ubifs_recover_leb`. -/
def ubifsRecoverLeb (start : Int) (jhead : Option Jhead) : Except Stop (ScanLeb × Fix) := do
  let (ret, nodes, cur) ← c.scanLoop sbuf (c.lebSize + 1) 0 [] (c.startCursor start)
  if ret < scannedABadPadNode then .error (.err .einval)
  else if !(← c.recoverable sbuf ret cur) then c.refuse sbuf ret cur
  else
    let (nodes, offs) ← c.dropNodes sbuf jhead nodes cur.offs
    c.cleanLeb sbuf nodes offs start

end Info

end Ubifs.Scan
