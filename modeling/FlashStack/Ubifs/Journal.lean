/-
  The journal (`journal.c`), as far as the index is concerned.

  An operation reserves room in a journal head, packs its nodes into one buffer, writes the buffer,
  and then tells the TNC where the nodes are.  `Jnl` is what these steps read and change; what one
  call packed, reserved and handed to the TNC is kept in `Jnl.group`.

  The TNC is a map here: from keys, and for the entries with hashed keys from keys and names, to the
  places of nodes.  Names, node contents and the order of all that are the source's; the bytes of a
  node are not modelled, and neither is synchronizing the write-buffer.  A call that can fail asks
  `Jnl.faults` whether it does.
-/
import FlashStack.Lib.Prog
import FlashStack.Ubifs.Media
import Mathlib.Logic.Function.Basic
import Mathlib.Data.List.Sort

namespace Ubifs

open Lib Lib.Prog

/-! ## Compression -/

/-- Compression: none, and when it is not worth the effort. -/
def ubifsComprNone : Nat := 0
def ubifsMinComprLen : Nat := 128
def ubifsMinCompressDiff : Nat := 64

/-! ## Keys and nodes -/

/-- The two words of a key: an inode number, and a type above 29 bits of a block number or a hash. -/
structure Key where
  inum : Nat
  code : Nat
deriving DecidableEq

/-- The bytes of a name. -/
abbrev Name := List UInt8

/-- The types of keys. -/
inductive KeyType
  | ino
  | data
  | dent
  | xent
  | trun
deriving DecidableEq

/-- Their numbers in `ubifs-media.h`. -/
def KeyType.num : KeyType → Nat
  | ino => 0
  | data => 1
  | dent => 2
  | xent => 3
  | trun => 4

/-- Bits of the second word of a key that hold a block number or a hash. -/
def ubifsSKeyBlockBits : Nat := 29
def ubifsSKeyHashMask : Nat := 0x1FFFFFFF

/-- Keep clear of the hashes of `.` and `..` and of the end marker. -/
def keyMaskHash (hash : Nat) : Nat :=
  let hash := hash &&& ubifsSKeyHashMask
  if hash ≤ 2 then hash + 3 else hash

namespace Key

/-- A key is an inode number, and a type with what tells its nodes apart. -/
def make (inum : Nat) (type : KeyType) (low : Nat) : Key :=
  ⟨inum, low ||| type.num <<< ubifsSKeyBlockBits⟩

/-- The keys of `key.h`. -/
def ino (inum : Nat) : Key := make inum .ino 0
def data (inum block : Nat) : Key := make inum .data block
def trun (inum : Nat) : Key := make inum .trun 0

/-- `key_type` -/
def typeNum (k : Key) : Nat := k.code >>> ubifsSKeyBlockBits

/-- `lowest_ino_key`, `highest_ino_key` -/
def lowestIno (inum : Nat) : Key := ⟨inum, 0⟩

/-- `highest_ino_key`. -/
def highestIno (inum : Nat) : Key := ⟨inum, 0xFFFFFFFF⟩

/-- `keys_cmp` is not positive. -/
def le (k k' : Key) : Bool := k.inum < k'.inum || k.inum == k'.inum && k.code ≤ k'.code

end Key

/-- A node of the journal, with what replay looks at. -/
inductive Node
  | ino (inum nlink size : Nat)
  | data (key : Key) (size comprType : Nat) (data : List UInt8)
  | dent (key : Key) (inum : Nat) (name : Name)
  | trun (inum oldSize newSize : Nat)

/-- The key that is stored in the node; a truncation node has none. -/
def Node.key : Node → Option Key
  | ino inum _ _ => some (.ino inum)
  | data key _ _ _ => some key
  | dent key _ _ => some key
  | trun _ _ _ => none

/-- What the journal reads of an inode. -/
structure Inode where
  ino : Nat
  nlink : Nat
  dataLen : Nat
  uiSize : Nat

/-! ## The TNC as a map -/

/-- Where a node is. -/
structure Branch where
  lnum : Nat
  offs : Nat
  len : Nat
deriving DecidableEq

/-- Entries with hashed keys are told apart by their names, the others have none. -/
abbrev Entry := Key × Name

/-- A finite map from entries to the places of nodes. -/
structure Tnc where
  branches : List (Entry × Branch)
  nodup : (branches.map Prod.fst).Nodup

/-- A change of the index. -/
inductive TncUpdate
  | add (key : Key) (b : Branch)
  | addNm (key : Key) (nm : Name) (b : Branch)
  | remove (key : Key)
  | removeNm (key : Key) (nm : Name)
  | removeRange (fromKey toKey : Key)
  | removeIno (inum : Nat)

/-- A node on flash. -/
structure Written where
  lnum : Nat
  offs : Nat
  len : Nat
  sqnum : Nat
  node : Node

/-- The nodes of each LEB. -/
abbrev Flash := Nat → List Written

/-- The node that a branch points to. -/
def Flash.node (flash : Flash) (b : Branch) : Option Node :=
  ((flash b.lnum).find? fun w => w.offs == b.offs && w.len == b.len).map Written.node

/-- The inode number in a directory or extended attribute entry. -/
def Flash.entryInum (flash : Flash) (b : Branch) : Option Nat :=
  match flash.node b with
  | some (.dent _ inum _) => some inum
  | _ => none

namespace Tnc

/-- What the index has for an entry. -/
def get (t : Tnc) (e : Entry) : Option Branch := (t.branches.find? (·.1 == e)).map Prod.snd

/-- Entries go out of the index. -/
def removeIf (t : Tnc) (p : Entry → Bool) : Tnc where
  branches := t.branches.filter fun x => !p x.1
  nodup := (List.filter_sublist.map Prod.fst).nodup t.nodup

/-- An entry is put in, in place of the one that was there. -/
def set (t : Tnc) (e : Entry) (b : Branch) : Tnc where
  branches := (e, b) :: (t.removeIf (· == e)).branches
  nodup := by
    refine List.nodup_cons.mpr ⟨fun hmem => ?_, (t.removeIf (· == e)).nodup⟩
    obtain ⟨x, hx, rfl⟩ := List.mem_map.mp hmem
    simp [removeIf] at hx

/-- The inodes of the extended attributes of `inum`. -/
def xattrs (t : Tnc) (flash : Flash) (inum : Nat) : List Nat :=
  t.branches.filterMap fun x =>
    if x.1.1.inum = inum ∧ x.1.1.typeNum = KeyType.xent.num then flash.entryInum x.2 else none

/-- The map after a change.  `ubifs_tnc_remove_range` takes an entry with the lowest key even where the
    range is empty, and `ubifs_tnc_remove_ino` also removes the inodes of the extended attributes. -/
def update (t : Tnc) (flash : Flash) : TncUpdate → Tnc
  | .add key b => t.set (key, []) b
  | .addNm key nm b => t.set (key, nm) b
  | .remove key => t.removeIf (· == (key, []))
  | .removeNm key nm => t.removeIf (· == (key, nm))
  | .removeRange lo hi => t.removeIf fun e => e.1 == lo || lo.le e.1 && e.1.le hi
  | .removeIno inum => t.removeIf fun e =>
      e.1.inum == inum || (t.xattrs flash inum).contains e.1.inum

end Tnc

/-! ## The state -/

/-- What a journal operation may end with. -/
inductive Errno
  | enomem
  | enospc
  | enoent
  | einval
  | eio
  | other
deriving DecidableEq

/-- The heads that the journal operations write to. -/
inductive JHead
  | base
  | data
deriving DecidableEq

/-- Where the next node of a journal head goes. -/
structure HeadPos where
  lnum : Nat
  offs : Nat
  aligned : 8 ∣ offs

/-- A LEB that is part of the journal, from `start` on. -/
structure Bud where
  lnum : Nat
  start : Nat

/-- A node in the buffer of a call. -/
structure Packed where
  offs : Nat
  len : Nat
  sqnum : Nat
  node : Node

/-- What one call allocated, reserved, packed, wrote and indexed. -/
structure Group where
  alloc : Nat
  reserved : Nat
  nodes : List Packed
  pos : Branch
  updates : List TncUpdate

/-- Nothing is written yet. -/
def Group.empty : Group := ⟨0, 0, [], ⟨0, 0, 0⟩, []⟩

/-- The file system, as the journal sees it. -/
structure JnlInfo where
  lebSize : Nat
  /-- `c->key_hash` -/
  keyHash : Name → Nat
  /-- `crypto_comp_compress` and `crypto_comp_decompress`, by the type of compression -/
  cryptoCompress : Nat → List UInt8 → Option (List UInt8)
  cryptoDecompress : Nat → List UInt8 → Option (List UInt8)

/-- The journal, with the index that it updates. -/
structure Jnl where
  /-- does the `n`-th call that may fail do so -/
  faults : Nat → Option Errno
  calls : Nat
  /-- the free space that `reserve_space` finds after `n` calls -/
  freeSpace : Nat → HeadPos
  head : JHead → Option HeadPos
  buds : List Bud
  maxSqnum : Nat
  cmtNo : Nat
  /-- `ui->del_cmtno` -/
  delCmtno : Nat → Nat
  roError : Bool
  flash : Flash
  tnc : Tnc
  group : Group

/-- A step of the journal. -/
abbrev J := Prog Jnl Empty Errno

namespace Jnl

/-- The head can take `len` more bytes in its LEB. -/
def hasRoom (c : JnlInfo) (s : Jnl) (h : JHead) (len : Nat) : Bool :=
  match s.head h with
  | some pos => pos.offs + len ≤ c.lebSize
  | none => false

/-- No journal head uses the LEB, and it is free from `pos` on. -/
def isFree (s : Jnl) (pos : HeadPos) : Bool :=
  s.buds.all (fun b => b.lnum ≠ pos.lnum) &&
    (s.flash pos.lnum).all (fun w => w.offs + w.len ≤ pos.offs)

/-- The head goes to a new place, and the log hears of it. -/
def addBud (s : Jnl) (h : JHead) (pos : HeadPos) : Jnl :=
  { s with
    head := Function.update s.head h (some pos)
    buds := s.buds ++ [⟨pos.lnum, pos.offs⟩] }

/-- `next_sqnum`, and the node into the buffer. -/
def pack (s : Jnl) (offs len : Nat) (node : Node) : Jnl :=
  { s with
    maxSqnum := s.maxSqnum + 1
    group := { s.group with nodes := s.group.nodes ++ [⟨offs, len, s.maxSqnum + 1, node⟩] } }

/-- The buffer goes to the head. -/
def write (s : Jnl) (h : JHead) (pos : HeadPos) (len : Nat) : Jnl :=
  let nodes := s.group.nodes.map fun p =>
    (⟨pos.lnum, pos.offs + p.offs, p.len, p.sqnum, p.node⟩ : Written)
  { s with
    flash := Function.update s.flash pos.lnum (s.flash pos.lnum ++ nodes)
    head := Function.update s.head h
      (some ⟨pos.lnum, pos.offs + align len 8, Nat.dvd_add pos.aligned dvd_align⟩)
    group := { s.group with pos := ⟨pos.lnum, pos.offs, len⟩ } }

/-- The index is updated at once, and the update is recorded with the group. -/
def update (s : Jnl) (u : TncUpdate) : Jnl :=
  { s with
    tnc := s.tnc.update s.flash u
    group := { s.group with updates := s.group.updates ++ [u] } }

end Jnl

/-! ## Steps of an operation -/

/-- Anything that may return an error. -/
def mayFail : J Unit := do
  let s ← getState
  modifyState fun s => { s with calls := s.calls + 1 }
  match s.faults s.calls with
  | none => pure ()
  | some e => stop e

/-- The buffer of the call is allocated. -/
def kmalloc (len : Nat) : J Unit := do
  mayFail
  modifyState fun s => { s with group := { Group.empty with alloc := len } }

/-- `make_reservation`: the head stays where it is if there is room, else it moves to free space,
    which becomes part of the journal. -/
def makeReservation (c : JnlInfo) (h : JHead) (len : Nat) : J Unit := do
  mayFail
  modifyState fun s => { s with group := { s.group with reserved := len } }
  let s ← getState
  if s.hasRoom c h len then pure ()
  else do
    let pos := s.freeSpace s.calls
    if pos.offs + len ≤ c.lebSize ∧ s.isFree pos then modifyState fun s => s.addBud h pos
    else stop .enospc

/-- `ubifs_prep_grp_node` -/
def prepNode (offs len : Nat) (node : Node) : J Unit := modifyState fun s => s.pack offs len node

/-- `pack_inode`; the attached data is dropped from a deletion inode. -/
def packInode (offs : Nat) (inode : Inode) : J Unit :=
  let dataLen := if inode.nlink = 0 then 0 else inode.dataLen
  prepNode offs (ubifsInoNodeSz + dataLen) (.ino inode.ino inode.nlink inode.uiSize)

/-- `write_head` returns where it wrote. -/
def writeHead (h : JHead) (len : Nat) : J (Nat × Nat) := do
  let s ← getState
  match s.head h with
  | none => stop .einval
  | some pos => do
    mayFail
    modifyState fun s => s.write h pos len
    pure (pos.lnum, pos.offs)

/-- An update of the index, which may fail. -/
def tncUpdate (u : TncUpdate) : J Unit := do
  mayFail
  modifyState fun s => s.update u

/-- `ubifs_tnc_add`. -/
def ubifsTncAdd (key : Key) (lnum offs len : Nat) : J Unit :=
  tncUpdate (.add key ⟨lnum, offs, len⟩)

/-- `ubifs_tnc_add_nm`. -/
def ubifsTncAddNm (key : Key) (lnum offs len : Nat) (nm : Name) : J Unit :=
  tncUpdate (.addNm key nm ⟨lnum, offs, len⟩)

/-- `ubifs_add_orphan` notes the number of the running commit. -/
def ubifsAddOrphan (inum : Nat) : J Unit := do
  mayFail
  modifyState fun s => { s with delCmtno := Function.update s.delCmtno inum s.cmtNo }

/-- The space that dirt takes is not modelled, only that `ubifs_add_dirt` may fail. -/
def ubifsAddDirt : J Unit := mayFail

/-- `ubifs_tnc_lookup` reads the node, and checks that it has the key. -/
def ubifsTncLookup (key : Key) : J Node := do
  mayFail
  let s ← getState
  match s.tnc.get (key, []) with
  | none => stop .enoent
  | some b =>
    match s.flash.node b with
    | none => stop .einval
    | some node => if node.key = some key then pure node else stop .einval

/-- An error in `x` leaves the file system read-only. -/
def orRo (x : J Unit) : J Unit := do
  match ← attempt (fun _ => true) x with
  | .ok _ => pure ()
  | .error e => do
    modifyState fun s => { s with roError := true }
    stop e

/-! ## Keys of entries -/

/-- `dent_key_init`. -/
def Key.dent (c : JnlInfo) (inum : Nat) (nm : Name) : Key :=
  .make inum .dent (keyMaskHash (c.keyHash nm))

/-- `xent_key_init`. -/
def Key.xent (c : JnlInfo) (inum : Nat) (nm : Name) : Key :=
  .make inum .xent (keyMaskHash (c.keyHash nm))

/-! ## Operations -/

/-- Length of a directory entry node. -/
def dentLen (nm : Name) : Nat := ubifsDentNodeSz + nm.length + 1

/-- `ubifs_jnl_update`: a directory or extended attribute entry, its inode, and the directory or the
    host inode. -/
def ubifsJnlUpdate (c : JnlInfo) (dir : Inode) (nm : Name) (inode : Inode)
    (deletion xent : Bool) : J Unit := do
  let lastReference := deletion && inode.nlink == 0
  let dlen := dentLen nm
  let ilen := ubifsInoNodeSz + if lastReference then 0 else inode.dataLen
  let alignedDlen := align dlen 8
  let alignedIlen := align ilen 8
  let len := alignedDlen + alignedIlen + ubifsInoNodeSz
  kmalloc len
  makeReservation c .base len
  let dentKey := if xent then Key.xent c dir.ino nm else Key.dent c dir.ino nm
  prepNode 0 dlen (.dent dentKey (if deletion then 0 else inode.ino) nm)
  packInode alignedDlen inode
  packInode (alignedDlen + alignedIlen) dir
  if lastReference then ubifsAddOrphan inode.ino
  orRo do
    let (lnum, dentOffs) ← writeHead .base len
    if deletion then do
      tncUpdate (.removeNm dentKey nm)
      ubifsAddDirt
    else ubifsTncAddNm dentKey lnum dentOffs dlen nm
    let inoOffs := dentOffs + alignedDlen
    ubifsTncAdd (.ino inode.ino) lnum inoOffs ilen
    let inoOffs := inoOffs + alignedIlen
    ubifsTncAdd (.ino dir.ino) lnum inoOffs ubifsInoNodeSz

/-- `ubifs_compress` returns the data and the type of compression that it used. -/
def ubifsCompress (c : JnlInfo) (comprType : Nat) (data : List UInt8) : List UInt8 × Nat :=
  if comprType = ubifsComprNone ∨ data.length < ubifsMinComprLen then (data, ubifsComprNone)
  else match c.cryptoCompress comprType data with
    | none => (data, ubifsComprNone)
    | some out =>
      if data.length < out.length + ubifsMinCompressDiff then (data, ubifsComprNone)
      else (out, comprType)

/-- `ubifs_jnl_write_data`, with the type of compression of the inode. -/
def ubifsJnlWriteData (c : JnlInfo) (key : Key) (comprType : Nat) (buf : List UInt8) : J Unit := do
  kmalloc (ubifsDataNodeSz + ubifsBlockSize * worstComprFactor)
  let (data, comprType) := ubifsCompress c comprType buf
  let dlen := ubifsDataNodeSz + data.length
  makeReservation c .data dlen
  orRo do
    prepNode 0 dlen (.data key buf.length comprType data)
    let (lnum, offs) ← writeHead .data dlen
    ubifsTncAdd key lnum offs dlen

/-- `ubifs_jnl_write_inode` -/
def ubifsJnlWriteInode (c : JnlInfo) (inode : Inode) : J Unit := do
  let lastReference := inode.nlink == 0
  let len := ubifsInoNodeSz + if lastReference then 0 else inode.dataLen
  kmalloc len
  makeReservation c .base len
  packInode 0 inode
  orRo do
    let (lnum, offs) ← writeHead .base len
    if lastReference then do
      tncUpdate (.removeIno inode.ino)
      ubifsAddDirt
    else ubifsTncAdd (.ino inode.ino) lnum offs len

/-- `ubifs_jnl_delete_inode`: a deletion inode is written only if a commit came between. -/
def ubifsJnlDeleteInode (c : JnlInfo) (inode : Inode) : J Unit := do
  let s ← getState
  if s.delCmtno inode.ino ≠ s.cmtNo then ubifsJnlWriteInode c inode
  else do
    modifyState fun s => { s with group := Group.empty }
    orRo (tncUpdate (.removeIno inode.ino))

/-- `ubifs_jnl_rename`, of `oldInode` from one directory to another; `newInode` is what the new name
    stood for before. -/
def ubifsJnlRename (c : JnlInfo) (oldDir : Inode) (oldName : Name) (oldInode : Inode)
    (newDir : Inode) (newName : Name) (newInode : Option Inode) : J Unit := do
  let plen := ubifsInoNodeSz
  let move := oldDir.ino != newDir.ino
  let dlen1 := dentLen newName
  let dlen2 := dentLen oldName
  let ilen := match newInode with
    | some i => ubifsInoNodeSz + if i.nlink = 0 then 0 else i.dataLen
    | none => 0
  let alignedDlen1 := align dlen1 8
  let alignedDlen2 := align dlen2 8
  let len := alignedDlen1 + alignedDlen2 + align ilen 8 + align plen 8 + if move then plen else 0
  kmalloc len
  makeReservation c .base len
  prepNode 0 dlen1 (.dent (.dent c newDir.ino newName) oldInode.ino newName)
  prepNode alignedDlen1 dlen2 (.dent (.dent c oldDir.ino oldName) 0 oldName)
  let p := alignedDlen1 + alignedDlen2
  match newInode with
  | some i => packInode p i
  | none => pure ()
  let p := p + align ilen 8
  packInode p oldDir
  if move then packInode (p + align plen 8) newDir
  match newInode with
  | some i =>
    if i.nlink = 0 then ubifsAddOrphan i.ino
  | none => pure ()
  orRo do
    let (lnum, offs) ← writeHead .base len
    ubifsTncAddNm (.dent c newDir.ino newName) lnum offs dlen1 newName
    ubifsAddDirt
    tncUpdate (.removeNm (.dent c oldDir.ino oldName) oldName)
    let offs := offs + alignedDlen1 + alignedDlen2
    match newInode with
    | some i => ubifsTncAdd (.ino i.ino) lnum offs ilen
    | none => pure ()
    let offs := offs + align ilen 8
    ubifsTncAdd (.ino oldDir.ino) lnum offs plen
    if move then ubifsTncAdd (.ino newDir.ino) lnum (offs + align plen 8) plen

/-- `recomp_data_node`: the data cut to `newLen` bytes and compressed again. -/
def recompDataNode (c : JnlInfo) (comprType : Nat) (data : List UInt8) (newLen : Nat) :
    J (List UInt8 × Nat) := do
  -- `kmalloc`
  mayFail
  match c.cryptoDecompress comprType data with
  | none => stop .einval
  | some buf => pure (ubifsCompress c comprType (buf.take newLen))

/-- The part of `ubifs_jnl_truncate` that cuts the last data block: the node to write in its place,
    if there is one. -/
def truncateBlock (c : JnlInfo) (inum newSize : Nat) : J (Option (Nat × Node)) := do
  let dlen := newSize % ubifsBlockSize
  if dlen = 0 then pure none
  else do
    let key := Key.data inum (newSize / ubifsBlockSize)
    match ← attempt (· == .enoent) (ubifsTncLookup key) with
    | .error _ => pure none -- it is a hole
    | .ok (.data key size comprType data) =>
      if size ≤ dlen then pure none -- nothing to do
      else if comprType ≠ ubifsComprNone then do
        let (data, comprType) ← recompDataNode c comprType data dlen
        pure (some (ubifsDataNodeSz + data.length, .data key dlen comprType data))
      else pure (some (dlen + ubifsDataNodeSz, .data key dlen comprType (data.take dlen)))
    | .ok _ => stop .einval

/-- `ubifs_jnl_truncate` -/
def ubifsJnlTruncate (c : JnlInfo) (inode : Inode) (oldSize newSize : Nat) : J Unit := do
  let inum := inode.ino
  kmalloc (ubifsTrunNodeSz + ubifsInoNodeSz + ubifsMaxDataNodeSz * worstComprFactor)
  let dn ← truncateBlock c inum newSize
  let dlen := match dn with
    | some (dlen, _) => dlen
    | none => 0
  let len := ubifsTrunNodeSz + ubifsInoNodeSz + dlen
  makeReservation c .base len
  packInode 0 inode
  prepNode ubifsInoNodeSz ubifsTrunNodeSz (.trun inum oldSize newSize)
  match dn with
  | some (_, node) => prepNode (ubifsInoNodeSz + ubifsTrunNodeSz) dlen node
  | none => pure ()
  orRo do
    let (lnum, offs) ← writeHead .base len
    if dn.isSome then
      ubifsTncAdd (.data inum (newSize / ubifsBlockSize)) lnum
        (offs + ubifsInoNodeSz + ubifsTrunNodeSz) dlen
    ubifsTncAdd (.ino inum) lnum offs ubifsInoNodeSz
    ubifsAddDirt
    let blk := newSize / ubifsBlockSize + if newSize % ubifsBlockSize = 0 then 0 else 1
    let toBlk := oldSize / ubifsBlockSize - if oldSize % ubifsBlockSize = 0 then 1 else 0
    tncUpdate (.removeRange (.data inum blk) (.data inum toBlk))

/-- `ubifs_jnl_delete_xattr` -/
def ubifsJnlDeleteXattr (c : JnlInfo) (host inode : Inode) (nm : Name) : J Unit := do
  let xlen := dentLen nm
  let alignedXlen := align xlen 8
  let hlen := host.dataLen + ubifsInoNodeSz
  let len := alignedXlen + ubifsInoNodeSz + align hlen 8
  kmalloc len
  makeReservation c .base len
  let xentKey := Key.xent c host.ino nm
  prepNode 0 xlen (.dent xentKey 0 nm)
  packInode alignedXlen inode
  packInode (alignedXlen + ubifsInoNodeSz) host
  orRo do
    let (lnum, xentOffs) ← writeHead .base len
    tncUpdate (.removeNm xentKey nm)
    ubifsAddDirt
    tncUpdate (.removeRange (.lowestIno inode.ino) (.highestIno inode.ino))
    ubifsAddDirt
    ubifsTncAdd (.ino host.ino) lnum (xentOffs + len - hlen) hlen

/-- `ubifs_jnl_change_xattr` -/
def ubifsJnlChangeXattr (c : JnlInfo) (inode host : Inode) : J Unit := do
  let len1 := ubifsInoNodeSz + host.dataLen
  let len2 := ubifsInoNodeSz + inode.dataLen
  let alignedLen1 := align len1 8
  let alignedLen := alignedLen1 + align len2 8
  kmalloc alignedLen
  makeReservation c .base alignedLen
  packInode 0 host
  packInode alignedLen1 inode
  orRo do
    let (lnum, offs) ← writeHead .base alignedLen
    ubifsTncAdd (.ino host.ino) lnum offs len1
    ubifsTncAdd (.ino inode.ino) lnum (offs + alignedLen1) len2

end Ubifs
