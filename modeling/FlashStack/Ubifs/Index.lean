/-
  The commit of the TNC (`tnc_commit.c`).

  The index of the file system is a tree whose nodes (znodes) are partly in memory, linked by
  pointers in both directions.  A commit lists the znodes that are dirty, gives each of them a
  place on the flash (`layoutInEmptySpace`), and later, in a second loop of its own, writes them
  there (`writeIndex`).  In between, and while the second loop runs, the tree goes on changing: a
  znode that is waiting to be written is marked with COW and is copied instead of changed.

  Memory is a function from addresses to znodes.  The flash is a function from LEBs and offsets to
  bytes; a byte of an index node is the node it belongs to, and the number of the byte in it.
  The writer makes one step between any two accesses to the flags of a znode.  The places that the
  debug build of the source records in the znodes, and compares when it writes, are in the model.

  Left out: LEB properties (the loops report to them, and do not read them) and the in-the-gaps
  method, which is for a volume without enough empty LEBs.  A NULL pointer that is followed, an
  error of the flash and a lack of empty LEBs all are `none` here.
-/
import FlashStack.Ubifs.Media
import Mathlib.Data.List.Basic
import Mathlib.Logic.Function.Basic
import Mathlib.Tactic.Common

open Lib

namespace Ubifs.Index

/-- What the size of an index node depends on. -/
structure Geometry where
  fanout : Nat
  minIo : Nat
  lebSize : Nat

/-- The sizes of the on-flash format that an index node is made of. -/
def ubifsIdxNodeSz : Nat := 28
def ubifsBranchSz : Nat := 12
def ubifsSkLen : Nat := 8

/-- `ubifs_idx_node_sz`, for the only format of keys there is. -/
def idxNodeSz (childCnt : Nat) : Nat := ubifsIdxNodeSz + (ubifsBranchSz + ubifsSkLen) * childCnt

namespace Geometry

variable (g : Geometry)

/-- `c->max_idx_node_sz` -/
def maxIdxNodeSz : Nat := align (idxNodeSz g.fanout) 8

/-- `buf_len` of `layout_in_empty_space`. -/
def layoutBufLen : Nat := align (idxNodeSz g.fanout) g.minIo

/-- `buf_len` of `write_index`. -/
def writeBufLen : Nat := align g.maxIdxNodeSz g.minIo

end Geometry

/-! ## The flash -/

/-- `struct ubifs_branch`: a key, and where on the media what it leads to is. -/
structure Branch (K : Type) where
  key : K
  lnum : Nat
  offs : Nat
  len : Nat
deriving DecidableEq

/-- `struct ubifs_idx_node`; `child_cnt` is the number of the branches. -/
structure IdxNode (K : Type) where
  level : Nat
  branches : List (Branch K)
deriving DecidableEq

/-- The length of an index node on the media. -/
def IdxNode.size {K : Type} (n : IdxNode K) : Nat := idxNodeSz n.branches.length

/-- A byte: of an index node, or any other one. -/
inductive Cell (K : Type)
  | idx (node : IdxNode K) (i : Nat)
  | other
deriving DecidableEq

/-- What is at an offset of a LEB; `none` if it has not been written since the LEB was erased. -/
abbrev Flash (K : Type) := Nat → Nat → Option (Cell K)

namespace Flash

variable {K : Type}

/-- `ubifs_leb_write`: whole I/O units, inside the LEB, and where nothing has been written. -/
def write (g : Geometry) (fl : Flash K) (lnum offs len : Nat) (buf : Nat → Cell K) :
    Option (Flash K) :=
  if offs % g.minIo = 0 ∧ len % g.minIo = 0 ∧ offs + len ≤ g.lebSize ∧
      ∀ i < len, (fl lnum (offs + i)).isNone then
    some fun l o => if l = lnum ∧ offs ≤ o ∧ o < offs + len then some (buf (o - offs)) else fl l o
  else none

/-- `ubifs_read_node` -/
def readNode [DecidableEq K] (fl : Flash K) (lnum offs len : Nat) : Option (IdxNode K) :=
  match fl lnum offs with
  | some (.idx node 0) =>
    if node.size = len ∧ ∀ i < len, fl lnum (offs + i) = some (.idx node i) then some node else none
  | _ => none

end Flash

/-! ## The TNC -/

/-- `struct ubifs_zbranch`: a branch that may have its znode in memory. -/
structure Zbranch (K : Type) where
  key : K
  znode : Option Nat
  lnum : Nat
  offs : Nat
  len : Nat
deriving DecidableEq

/-- `struct ubifs_znode`. -/
structure Znode (K : Type) where
  parent : Option Nat
  cnext : Option Nat
  dirty : Bool
  cow : Bool
  obsolete : Bool
  level : Nat
  iip : Nat
  alt : Bool
  lnum : Nat
  offs : Nat
  len : Nat
  zbranch : List (Zbranch K)
deriving DecidableEq

namespace Znode

variable {K : Type} (z : Znode K)

/-- `znode->child_cnt`. -/
def childCnt : Nat := z.zbranch.length

/-- The index node that is made from a znode. -/
def node : IdxNode K :=
  { level := z.level
    branches := z.zbranch.map fun zbr => ⟨zbr.key, zbr.lnum, zbr.offs, zbr.len⟩ }

end Znode

/-- What the commit uses of `struct ubifs_info`, and the flash. -/
structure Info (K : Type) where
  mem : Nat → Option (Znode K)
  flash : Flash K
  zroot : Zbranch K
  cnext : Option Nat
  enext : Option Nat
  iheadLnum : Nat
  iheadOffs : Nat
  newIheadLnum : Nat
  newIheadOffs : Nat
  ilebs : List Nat
  ilebNxt : Nat
  freeLebs : List Nat
  calcIdxSz : Int
  dirtyZnCnt : Int
  cleanZnCnt : Int

namespace Info

variable {K : Type}

/-- A znode in memory is changed. -/
def modify (c : Info K) (a : Nat) (f : Znode K → Znode K) : Info K :=
  { c with mem := Function.update c.mem a ((c.mem a).map f) }

/-- `ubifs_zn_dirty` -/
def znDirty (c : Info K) (a : Nat) : Bool := (c.mem a).any (·.dirty)

/-- `zbr->znode && ubifs_zn_dirty(zbr->znode)` -/
def dirtyChild (c : Info K) (zbr : Zbranch K) : Option Nat := zbr.znode.filter c.znDirty

/-! ## The list of znodes to commit -/

/-- The loop of `find_first_dirty`; it goes down one level in each round. -/
def findFirst (c : Info K) : Nat → Nat → Option (Option Nat)
  | 0, _ => none
  | n + 1, a =>
    match c.mem a with
    | none => none
    | some z =>
      let self := if z.dirty then some a else none
      if z.level = 0 then some self
      else (z.zbranch.findSome? c.dirtyChild).elim (some self) fun x => c.findFirst n x

/-- `find_first_dirty` -/
def findFirstDirty (c : Info K) (a : Nat) : Option (Option Nat) :=
  match c.mem a with
  | none => none
  | some z => c.findFirst (z.level + 1) a

/-- `find_next_dirty` -/
def findNextDirty (c : Info K) (a : Nat) : Option (Option Nat) :=
  match c.mem a with
  | none => none
  | some z =>
    match z.parent with
    | none => some none
    | some p =>
      match c.mem p with
      | none => none
      | some zp =>
        ((zp.zbranch.drop (z.iip + 1)).findSome? c.dirtyChild).elim (some (some p))
          c.findFirstDirty

/-- The loop of `get_znodes_to_commit`. -/
def collect (first : Nat) : Nat → Nat → Nat → Info K → Option (Nat × Info K)
  | 0, _, _, _ => none
  | fuel + 1, znode, cnt, c =>
    let c := c.modify znode fun z => { z with cow := true, alt := false }
    match c.findNextDirty znode with
    | none => none
    | some none => some (cnt, c.modify znode fun z => { z with cnext := some first })
    | some (some cnext) =>
      collect first fuel cnext (cnt + 1) (c.modify znode fun z => { z with cnext := some cnext })

/-- `get_znodes_to_commit` -/
def getZnodesToCommit (fuel : Nat) (c : Info K) : Option (Nat × Info K) :=
  match c.zroot.znode with
  | none => some (0, { c with cnext := none, enext := none })
  | some root =>
    match c.findFirstDirty root with
    | none => none
    | some none => some (0, { c with cnext := none, enext := none })
    | some (some first) =>
      collect first fuel first 1 { c with cnext := some first, enext := some first }

/-! ## Empty LEBs -/

/-- `get_leb_cnt` -/
def getLebCnt (g : Geometry) (c : Info K) (cnt : Nat) : Nat :=
  let cnt := cnt - (g.lebSize - c.iheadOffs) / g.maxIdxNodeSz
  let d := g.lebSize / g.maxIdxNodeSz
  (cnt + d - 1) / d

/-- `n` times `ubifs_find_free_leb_for_idx`, from a supply of LEBs that are empty. -/
def findFreeLebs : Nat → Info K → Option (Info K)
  | 0, c => some c
  | n + 1, c =>
    match c.freeLebs with
    | [] => none
    | lnum :: rest => findFreeLebs n { c with ilebs := c.ilebs ++ [lnum], freeLebs := rest }

/-- `alloc_idx_lebs` -/
def allocIdxLebs (g : Geometry) (c : Info K) (cnt : Nat) : Option (Info K) :=
  findFreeLebs (getLebCnt g c cnt) { c with ilebs := [], ilebNxt := 0 }

/-- `free_unused_idx_lebs`: the LEBs that were not taken into use are empty ones again. -/
def freeUnusedIdxLebs (c : Info K) : Info K :=
  { c with freeLebs := c.ilebs.drop c.ilebNxt ++ c.freeLebs }

end Info

/-! ## Positions -/

/-- Where the next node goes.  No `lnum` is the -1 of the source: the next empty LEB is due. -/
structure Cursor where
  lnum : Option Nat
  bufOffs : Nat
  used : Nat
  avail : Int
  nxt : Nat
deriving DecidableEq

namespace Cursor

/-- At the index head, unless the first node does not fit there. -/
def start {K : Type} (g : Geometry) (c : Info K) (bufLen nextLen : Nat) : Cursor :=
  { lnum := if c.iheadOffs + nextLen > g.lebSize then none else some c.iheadLnum
    bufOffs := c.iheadOffs, used := 0, avail := bufLen, nxt := 0 }

/-- `if (lnum == -1)`: go to the beginning of the next empty LEB. -/
def nextLeb (bufLen : Nat) (ilebs : List Nat) (w : Cursor) : Option Cursor :=
  match w.lnum with
  | some _ => some w
  | none =>
    match ilebs[w.nxt]? with
    | none => none
    | some lnum =>
      some { lnum := some lnum, bufOffs := 0, used := 0, avail := bufLen, nxt := w.nxt + 1 }

/-- How `layout_in_empty_space` goes on after a node of `len` bytes. -/
def layoutAdvance (g : Geometry) (w : Cursor) (len nextLen : Nat) : Cursor :=
  if g.minIo = 1 then
    let bufOffs := w.bufOffs + align len 8
    if nextLen ≠ 0 ∧ bufOffs + nextLen ≤ g.lebSize then { w with bufOffs }
    else if nextLen ≠ 0 then { w with bufOffs, lnum := none }
    else { w with bufOffs }
  else
    let wlen := w.used + len
    let used := w.used + align len 8
    let avail := w.avail - align len 8
    if nextLen ≠ 0 ∧ w.bufOffs + used + nextLen ≤ g.lebSize ∧ 0 < avail then { w with used, avail }
    else
      let blen :=
        if avail ≤ 0 ∧ nextLen ≠ 0 ∧ w.bufOffs + used + nextLen ≤ g.lebSize then g.layoutBufLen
        else align wlen g.minIo
      let bufOffs := w.bufOffs + blen
      if nextLen ≠ 0 then
        { w with
          lnum := if bufOffs + nextLen > g.lebSize then none else w.lnum
          bufOffs
          used := used - blen
          avail := g.layoutBufLen - (used - blen : Nat) }
      else { w with bufOffs, used, avail }

end Cursor

namespace Info

variable {K : Type}

/-- The length of the node after this one on the list, zero at its end. -/
def nextLen (c : Info K) (cnext : Nat) : Option Nat :=
  if some cnext = c.cnext then some 0 else (c.mem cnext).map fun z => idxNodeSz z.childCnt

/-- The znode `a` goes to `lnum:offs`: its parent is told. -/
def assign (c : Info K) (a : Nat) (z : Znode K) (lnum offs len : Nat) : Info K :=
  let c := c.modify a fun z => { z with lnum, offs, len }
  let c :=
    match z.parent with
    | some zp =>
      c.modify zp fun zp =>
        { zp with zbranch := zp.zbranch.modify z.iip fun zbr => { zbr with lnum, offs, len } }
    | none => { c with zroot := { c.zroot with lnum, offs, len } }
  { c with calcIdxSz := c.calcIdxSz + align len 8, dirtyZnCnt := c.dirtyZnCnt - 1 }

/-- The loop of `layout_in_empty_space`. -/
def layoutLoop (g : Geometry) : Nat → Cursor → Nat → Info K → Option (Info K)
  | 0, _, _, _ => none
  | fuel + 1, w, a, c =>
    match c.mem a with
    | none => none
    | some z =>
      let len := idxNodeSz z.childCnt
      match w.nextLeb g.layoutBufLen c.ilebs with
      | none => none
      | some w =>
        match w.lnum, z.cnext with
        | some lnum, some cnext =>
          let c := c.assign a z lnum (w.bufOffs + w.used) len
          match c.nextLen cnext with
          | none => none
          | some nextLen =>
            let w := w.layoutAdvance g len nextLen
            if nextLen ≠ 0 then layoutLoop g fuel w cnext c
            else
              some
                { c with
                  ilebNxt := w.nxt, newIheadLnum := lnum, newIheadOffs := w.bufOffs }
        | _, _ => none

/-- `layout_in_empty_space` -/
def layoutInEmptySpace (g : Geometry) (fuel : Nat) (c : Info K) : Option (Info K) :=
  match c.enext with
  | none => some c
  | some a =>
    match c.mem a with
    | none => none
    | some z => layoutLoop g fuel (.start g c g.layoutBufLen (idxNodeSz z.childCnt)) a c

/-- `ubifs_tnc_start_commit`; also returns the new position of the root. -/
def tncStartCommit (g : Geometry) (fuel : Nat) (c : Info K) : Option (Zbranch K × Info K) :=
  match c.getZnodesToCommit fuel with
  | none => none
  | some (cnt, c) =>
    if cnt ≠ 0 then
      match c.allocIdxLebs g cnt with
      | none => none
      | some c =>
        match c.layoutInEmptySpace g fuel with
        | none => none
        | some c => some (c.zroot, c.freeUnusedIdxLebs)
    else some (c.zroot, c)

end Info

/-! ## Writing -/

/-- What `write_index` does next. -/
inductive Pc
  /-- make the index node of a znode -/
  | make (znode : Nat)
  /-- clear the DIRTY flag -/
  | clearDirty (znode cnext len : Nat)
  /-- clear the COW flag -/
  | clearCow (znode cnext len : Nat)
  /-- update the buffer positions, perhaps write the buffer -/
  | advance (cnext len : Nat)
  | done
deriving DecidableEq

/-- The variables of `write_index`. -/
structure Writer (K : Type) extends Cursor where
  cbuf : Nat → Cell K
  pc : Pc

namespace Writer

variable {K : Type}

/-- Node at an offset of the commit buffer. -/
def put (w : Writer K) (node : IdxNode K) : Nat → Cell K := fun i =>
  if w.used ≤ i ∧ i < w.used + node.size then .idx node (i - w.used) else w.cbuf i

/-- `ubifs_pad` -/
def pad (cbuf : Nat → Cell K) (wlen blen : Nat) : Nat → Cell K := fun i =>
  if wlen ≤ i ∧ i < blen then .other else cbuf i

/-- How `write_index` goes on after a node of `len` bytes. -/
def writeAdvance (g : Geometry) (fl : Flash K) (w : Writer K) (len nextLen : Nat) :
    Option (Flash K × Writer K) :=
  match w.lnum with
  | none => none
  | some lnum =>
    let wlen := w.used + len
    let used := w.used + align len 8
    let avail := w.avail - align len 8
    if g.minIo = 1 then
      match fl.write g lnum w.bufOffs wlen w.cbuf with
      | none => none
      | some fl =>
        let bufOffs := w.bufOffs + align wlen 8
        if nextLen ≠ 0 then
          some (fl,
            { w with
              lnum := if bufOffs + nextLen > g.lebSize then none else w.lnum
              bufOffs, used := 0, avail := g.writeBufLen })
        else some (fl, { w with bufOffs, used, avail })
    else
      let nxtOffs := w.bufOffs + used + nextLen
      if nextLen ≠ 0 ∧ nxtOffs ≤ g.lebSize ∧ 0 < avail then some (fl, { w with used, avail })
      else
        let full := nextLen ≠ 0 ∧ nxtOffs ≤ g.lebSize
        let blen := if full then g.writeBufLen else align (align wlen 8) g.minIo
        let cbuf := if full then w.cbuf else pad w.cbuf (align wlen 8) blen
        match fl.write g lnum w.bufOffs blen cbuf with
        | none => none
        | some fl =>
          let bufOffs := w.bufOffs + blen
          if nextLen ≠ 0 then
            some (fl,
              { w with
                lnum := if nxtOffs > g.lebSize then none else w.lnum
                bufOffs
                used := used - blen
                avail := g.writeBufLen - (used - blen : Nat)
                cbuf := fun i => if i < used - blen then cbuf (i + blen) else cbuf i })
          else some (fl, { w with bufOffs, used, avail, cbuf })

end Writer

namespace Info

variable {K : Type}

/-- `write_index`, up to its loop; the buffer has any contents. -/
def writeStart (g : Geometry) (cbuf : Nat → Cell K) (c : Info K) : Option (Writer K) :=
  match c.enext with
  | none => some { Cursor.start g c g.writeBufLen 0 with cbuf, pc := .done }
  | some a =>
    match c.mem a with
    | none => none
    | some z =>
      some { Cursor.start g c g.writeBufLen (idxNodeSz z.childCnt) with cbuf, pc := .make a }

/-- One step of the loop of `write_index`. -/
def writeStep (g : Geometry) (c : Info K) (w : Writer K) : Option (Info K × Writer K) :=
  match w.pc with
  | .make a =>
    match c.mem a with
    | none => none
    | some z =>
      let cbuf := w.put z.node
      let len := idxNodeSz z.childCnt
      match w.toCursor.nextLeb g.writeBufLen c.ilebs with
      | none => none
      | some w =>
        -- "inconsistent znode posn"
        if w.lnum ≠ some z.lnum ∨ w.bufOffs + w.used ≠ z.offs ∨ len ≠ z.len then none
        else
          match z.cnext with
          | none => none
          | some cnext => some (c, { w with cbuf, pc := .clearDirty a cnext len })
  | .clearDirty a cnext len =>
    some (c.modify a fun z => { z with dirty := false }, { w with pc := .clearCow a cnext len })
  | .clearCow a cnext len =>
    some (c.modify a fun z => { z with cow := false }, { w with pc := .advance cnext len })
  | .advance cnext len =>
    match c.nextLen cnext with
    | none => none
    | some nextLen =>
      match w.writeAdvance g c.flash len nextLen with
      | none => none
      | some (flash, w) =>
        if nextLen ≠ 0 then some ({ c with flash }, { w with pc := .make cnext })
        -- "inconsistent ihead"
        else if w.lnum ≠ some c.newIheadLnum ∨ w.bufOffs ≠ c.newIheadOffs then none
        else
          some ({ c with flash, iheadLnum := c.newIheadLnum, iheadOffs := w.bufOffs },
            { w with pc := .done })
  | .done => some (c, w)

/-- `write_index`, when nothing else happens. -/
def writeIndex (g : Geometry) : Nat → Info K → Writer K → Option (Info K)
  | 0, _, _ => none
  | fuel + 1, c, w =>
    if w.pc = .done then some c
    else
      match c.writeStep g w with
      | none => none
      | some (c, w) => writeIndex g fuel c w

/-- The loop of `free_obsolete_znodes`. -/
def freeObsoleteZnodes : Nat → Nat → Info K → Option (Info K)
  | 0, _, _ => none
  | fuel + 1, a, c =>
    match c.mem a with
    | none => none
    | some z =>
      match z.cnext with
      | none => none
      | some cnext =>
        let c :=
          if z.obsolete then { c with mem := Function.update c.mem a none }
          else
            { c.modify a fun z => { z with cnext := none } with cleanZnCnt := c.cleanZnCnt + 1 }
        if some cnext = c.cnext then some c else freeObsoleteZnodes fuel cnext c

/-- `ubifs_tnc_end_commit`, when nothing else happens. -/
def tncEndCommit (g : Geometry) (fuel : Nat) (cbuf : Nat → Cell K) (c : Info K) :
    Option (Info K) :=
  match c.cnext with
  | none => some c
  | some first =>
    match c.writeStart g cbuf with
    | none => none
    | some w =>
      match c.writeIndex g fuel w with
      | none => none
      | some c =>
        match c.freeObsoleteZnodes fuel first with
        | none => none
        | some c => some { c with cnext := none, ilebs := [] }

end Info

/-! ## What the index says

  At level zero an index is a list of keys, with the positions of the leaf nodes they are found at;
  above that it is a list of indexes of the level below. -/

/-- A place on the media. -/
structure Pos where
  lnum : Nat
  offs : Nat
  len : Nat
deriving DecidableEq

/-- What a tree of a level says: keys, and under each a subtree or a leaf. -/
def Contents (K : Type) : Nat → Type
  | 0 => List (K × Pos)
  | l + 1 => List (K × Contents K l)

/-- All keys, with their leaf positions. -/
def Contents.leaves {K : Type} : (l : Nat) → Contents K l → List (K × Pos)
  | 0, t => t
  | l + 1, t => List.flatMap (fun e => Contents.leaves l e.2) t

variable {K : Type} [DecidableEq K]

/-- The index of height `l` that is read from the flash at a position. -/
def Flash.contents (fl : Flash K) : (l : Nat) → Pos → Option (Contents K l)
  | 0, p =>
    match fl.readNode p.lnum p.offs p.len with
    | none => none
    | some node =>
      if node.level = 0 then some (node.branches.map fun br => (br.key, ⟨br.lnum, br.offs, br.len⟩))
      else none
  | l + 1, p =>
    match fl.readNode p.lnum p.offs p.len with
    | none => none
    | some node =>
      if node.level = l + 1 then
        node.branches.mapM fun br =>
          (fl.contents l ⟨br.lnum, br.offs, br.len⟩).map fun t => (br.key, t)
      else none

/-- The index of height `l` under a branch of the TNC: what is not in memory is read. -/
def Info.contents (c : Info K) : (l : Nat) → Zbranch K → Option (Contents K l)
  | 0, zbr =>
    match zbr.znode with
    | none => c.flash.contents 0 ⟨zbr.lnum, zbr.offs, zbr.len⟩
    | some a =>
      match c.mem a with
      | none => none
      | some z =>
        if z.level = 0 then some (z.zbranch.map fun zbr => (zbr.key, ⟨zbr.lnum, zbr.offs, zbr.len⟩))
        else none
  | l + 1, zbr =>
    match zbr.znode with
    | none => c.flash.contents (l + 1) ⟨zbr.lnum, zbr.offs, zbr.len⟩
    | some a =>
      match c.mem a with
      | none => none
      | some z =>
        if z.level = l + 1 then
          z.zbranch.mapM fun zbr => (c.contents l zbr).map fun t => (zbr.key, t)
        else none

end Ubifs.Index
