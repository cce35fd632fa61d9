/-
  The default LEB properties tree (`ubifs_create_dflt_lpt`), and how a tree is read.

  The nodes are packed into a buffer of a LEB, which is written when there is no room for the next one:
  the leaves first, then the inner nodes row by row, the tables last.  The branches of an inner node
  are computed by a second cursor, which goes over the nodes of the row below.

  The geometry is found by a loop: with more LEBs for the tree there are fewer in the main area,
  and the tree gets smaller (`lptLebsLoop`).
-/
import FlashStack.Ubifs.Index
import FlashStack.Ubifs.Lpt

open Lib

namespace Ubifs.Lpt

open Lp

/-- `DEFAULT_LSAVE_CNT`. -/
def defaultLsaveCnt : Nat := 256

/-! ## The geometry -/

/-- The rounds that are left to find enough LPT LEBs among `mainLebs`. -/
def lptLebsLoop (mainLebs : Nat) : Nat → Info → Except Errno Info
  | 0, _ => .error .einval
  | rounds + 1, c =>
    let sz := c.geom.lptSz * 4
    let lebsNeeded := (sz + c.lebSize - 1) / c.lebSize
    if c.lptLebs < lebsNeeded then
      if mainLebs ≤ lebsNeeded then .error .einval
      else lptLebsLoop mainLebs rounds
        { c with lptLebs := lebsNeeded, mainLebs := mainLebs - lebsNeeded }
    else if c.lebSize < c.geom.ltabSz then .error .einval
    else .ok c

/-- `calc_dflt_lpt_geom`: the small model if a LEB of the tree can hold all of it. -/
def calcDfltLptGeom (c : Info) (mainLebs : Nat) : Except Errno Info :=
  if mainLebs ≤ ubifsMinLptLebs then .error .einval
  else
    let c := { c with
      lptLebs := ubifsMinLptLebs
      mainLebs := mainLebs - ubifsMinLptLebs
      bigLpt := false }
    let c := if c.lebSize < c.geom.lptSz then { c with bigLpt := true } else c
    lptLebsLoop mainLebs 64 c

/-! ## Writing -/

/-- Whether there is memory, and which calls of `ubi_leb_change` fail. -/
structure Env where
  alloc : Bool
  faults : Nat → Option Nat

/-- Where a node went. -/
structure Placed where
  lnum : Nat
  offs : Nat
  fields : Fields

/-- The LEBs, the buffer of the one in hand, which is filled up to `len`, and the root so far.
    `nodes` remembers what was packed. -/
structure Writer where
  flash : Nat → Memory
  changes : Nat
  ltab : List LptLprops
  buf : Memory
  lnum : Nat
  len : Nat
  lptLnum : Nat
  lptOffs : Nat
  nodes : List Placed

/-- Where the branches are: `bcnt` nodes of the size `bsz` are left in the row below. -/
structure Below where
  blnum : Nat
  boffs : Nat
  bcnt : Nat
  bsz : Nat

section Create

variable (c : Info) (env : Env) (crc16 : Crc)

/-- `set_ltab`. -/
def setLtab (ltab : List LptLprops) (lnum free dirty : Nat) : List LptLprops :=
  ltab.modify (lnum - c.lptFirst) fun lp => { lp with free := free, dirty := dirty }

/-- `memset`. -/
def memset (m : Memory) (p : Nat) (val : BitVec 8) (n : Nat) : Memory :=
  fun a => if p ≤ a ∧ a < p + n then val else m a

/-- The first `len` bytes of the buffer replace what the LEB had. -/
def ubiLebChange (s : Writer) (lnum len : Nat) : Except Errno Writer :=
  if c.lebCnt ≤ lnum ∨ c.lebSize < len then .error .einval
  else
    match env.faults s.changes with
    | some err => .error (.ubi err)
    | none => .ok { s with
        flash := Function.update s.flash lnum fun a => if a < len then s.buf a else 0xff
        changes := s.changes + 1 }

/-- The buffer is written, and the next LEB begun, if there is no room for a node. -/
def makeRoom (sz : Nat) (s : Writer) : Except Errno Writer :=
  if c.lebSize < s.len + sz then do
    let alen := align s.len c.minIoSize
    let s := { s with
      ltab := setLtab c s.ltab s.lnum (c.lebSize - alen) (alen - s.len)
      buf := memset s.buf s.len 0xff (alen - s.len) }
    let s ← ubiLebChange c env s s.lnum alen
    return { s with lnum := s.lnum + 1, len := 0 }
  else .ok s

/-- A pnode is packed at the end of what the buffer holds. -/
def addPnode (pnode : Pnode) (s : Writer) : Writer :=
  { s with
    buf := ubifsPackPnode c crc16 s.buf s.len pnode
    len := s.len + c.geom.pnodeSz
    nodes := s.nodes ++ [⟨s.lnum, s.len, pnodeFields c pnode⟩] }

/-- An nnode is packed at the end of what the buffer holds. -/
def addNnode (nnode : Nnode) (s : Writer) : Writer :=
  { s with
    buf := ubifsPackNnode c crc16 s.buf s.len nnode
    len := s.len + c.geom.nnodeSz
    nodes := s.nodes ++ [⟨s.lnum, s.len, nnodeFields c nnode⟩] }

/-- The remaining leaves, which are numbered from left to right. -/
def addPnodes : Nat → Pnode → Writer → Except Errno Writer
  | 0, _, s => .ok s
  | k + 1, pnode, s => do
    let s ← makeRoom c env c.geom.pnodeSz s
    addPnodes k { pnode with num := pnode.num + 1 } (addPnode c crc16 pnode s)

/-- `k` branches to the row below. -/
def setBranches : Nat → Below → List Nbranch × Below
  | 0, b => ([], b)
  | k + 1, b =>
    let (branch, b) : Nbranch × Below :=
      if b.bcnt ≠ 0 then
        let b := if c.lebSize < b.boffs + b.bsz then { b with blnum := b.blnum + 1, boffs := 0 } else b
        (⟨b.blnum, b.boffs⟩, { b with boffs := b.boffs + b.bsz, bcnt := b.bcnt - 1 })
      else (⟨0, 0⟩, b)
    let (branches, b) := setBranches k b
    (branch :: branches, b)

/-- The inner nodes of a row of `cnt` from the column `i` on. -/
def addNnodes (cnt row : Nat) : (k i : Nat) → Below → Writer → Except Errno (Below × Writer)
  | 0, _, b, s => .ok (b, s)
  | k + 1, i, b, s => do
    let s ← makeRoom c env c.geom.nnodeSz s
    let s := if cnt = 1 then { s with lptLnum := s.lnum, lptOffs := s.len } else s
    let (nbranch, b) := setBranches c ubifsLptFanout b
    addNnodes cnt row k (i + 1) b (addNnode c crc16 ⟨calcNnodeNum row i, nbranch⟩ s)

/-- The rows above one of `cnt` nodes, up to the root. -/
def addRows (cnt row : Nat) (b : Below) (s : Writer) : Except Errno Writer := do
  let n := divRoundUp cnt ubifsLptFanout
  let (b, s) ← addNnodes c env crc16 n row n 0 b s
  if h : 1 < n then addRows n (row - 1) { b with bcnt := n, bsz := c.geom.nnodeSz } s
  else return s
termination_by cnt
decreasing_by
  change 1 < (cnt + 3) / 4 at h
  show (cnt + 3) / 4 < cnt
  omega

/-- `LPROPS_INDEX` is the only flag that is set. -/
def dfltLprops (free dirty : Int) (index : Bool) : Lprops where
  lnum := 0
  free := free
  dirty := dirty
  flags := { cat := .list .uncat, taken := false, index := index }
  hpos := 0

/-- The leaf of the LEBs with the root of the index and the root inode. -/
def firstPnode : Pnode :=
  let idxSz := align (Index.idxNodeSz 1) 8
  let idxIopos := align idxSz c.minIoSize
  let inoSz := ubifsInoNodeSz
  let inoIopos := align inoSz c.minIoSize
  { num := 0
    lprops := [dfltLprops (c.lebSize - idxIopos) (idxIopos - idxSz) true,
      dfltLprops (c.lebSize - inoIopos) (inoIopos - inoSz) false,
      dfltLprops c.lebSize 0 false, dfltLprops c.lebSize 0 false] }

/-- A leaf of empty LEBs. -/
def emptyPnode (num : Nat) : Pnode :=
  { num := num, lprops := List.replicate ubifsLptFanout (dfltLprops c.lebSize 0 false) }

/-- The first LEBs of the main area, or the first one again if there are not enough. -/
def dfltLsave : List Nat :=
  (List.range c.lsaveCnt).map fun i => if i < c.mainLebs then c.mainFirst + i else c.mainFirst

/-- What is in the master node in the end. -/
structure DfltLpt where
  info : Info
  flash : Nat → Memory
  lptLnum : Nat
  lptOffs : Nat
  nheadLnum : Nat
  nheadOffs : Nat
  ltabLnum : Nat
  ltabOffs : Nat
  lsaveLnum : Nat
  lsaveOffs : Nat
  nodes : List Placed

/-- The table of saved LEBs, which only the big model has. -/
def addLsave (s : Writer) : Except Errno (Nat × Nat × Writer) :=
  if c.bigLpt then do
    let s ← makeRoom c env c.geom.lsaveSz s
    return (s.lnum, s.len,
      { s with
        buf := ubifsPackLsave c crc16 s.buf s.len (dfltLsave c)
        len := s.len + c.geom.lsaveSz
        nodes := s.nodes ++ [⟨s.lnum, s.len, lsaveFields c (dfltLsave c)⟩] })
  else .ok (0, 0, s)

/-- The table of the LPT LEBs, with the LEB that it is in as it will be, and what is left in the
    buffer. -/
def addLtab (s : Writer) : Except Errno (Nat × Nat × Nat × Writer) := do
  let s ← makeRoom c env c.geom.ltabSz s
  let len := s.len + c.geom.ltabSz
  let alen := align len c.minIoSize
  let ltab := setLtab c s.ltab s.lnum (c.lebSize - alen) (alen - len)
  let buf := memset (ubifsPackLtab c crc16 s.buf s.len ltab) len 0xff (alen - len)
  let s' := { s with
    ltab := ltab
    buf := buf
    len := len
    nodes := s.nodes ++ [⟨s.lnum, s.len, ltabFields c ltab⟩] }
  let s' ← ubiLebChange c env s' s.lnum alen
  return (s.lnum, s.len, alen, s')

/-- The nodes, when the geometry is known. -/
def writeDfltLpt (flash : Nat → Memory) (buf : Memory) : Except Errno DfltLpt := do
  let s : Writer :=
    { flash := flash
      changes := 0
      ltab := List.replicate c.lptLebs ⟨c.lebSize, 0, false, false⟩
      buf := buf
      lnum := c.lptFirst
      len := 0
      lptLnum := 0
      lptOffs := 0
      nodes := [] }
  let cnt := c.geom.pnodeCnt
  let b : Below := { blnum := s.lnum, boffs := 0, bcnt := cnt, bsz := c.geom.pnodeSz }
  let s ← addPnodes c env crc16 (cnt - 1) (emptyPnode c 1) (addPnode c crc16 (firstPnode c) s)
  let row := hghtLoop cnt ubifsLptFanout 0 ubifsLptFanout_pos
  let s ← addRows c env crc16 cnt row b s
  let (lsaveLnum, lsaveOffs, s) ← addLsave c env crc16 s
  let (ltabLnum, ltabOffs, nheadOffs, s) ← addLtab c env crc16 s
  return {
    info := c
    flash := s.flash
    lptLnum := s.lptLnum
    lptOffs := s.lptOffs
    nheadLnum := ltabLnum
    nheadOffs := nheadOffs
    ltabLnum := ltabLnum
    ltabOffs := ltabOffs
    lsaveLnum := lsaveLnum
    lsaveOffs := lsaveOffs
    nodes := s.nodes }

/-- `ubifs_create_dflt_lpt`: the table for an empty file system. -/
def ubifsCreateDfltLpt (mainLebs lptFirst : Nat) (flash : Nat → Memory) (buf : Memory) :
    Except Errno DfltLpt := do
  let c ← calcDfltLptGeom c mainLebs
  let c := { c with lptFirst := lptFirst }
  if env.alloc then writeDfltLpt c env crc16 flash buf else .error .enomem

end Create

end Ubifs.Lpt
