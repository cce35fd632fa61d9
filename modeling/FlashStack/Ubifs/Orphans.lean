/-
  Orphans (`orphan.c`): inodes without a link that are still open.

  The orphans are in memory, in an rb-tree and in the list `orph_list`.  A commit writes the new ones
  to the orphan area: it chains them up through `cnext`, takes them from the chain node by node, and
  writes each node at the head of the area; where the area is too full, all orphans are chained and
  written from its start.  An orphan that is deleted while it is in the chain is put aside, through
  `dnext`, until the commit ends.  After an unclean reboot all inodes that the area names are removed.

  Memory is a heap of `struct ubifs_orphan`s, and the lists through `cnext` and `dnext` are in it.
  The `list_head` lists and the rb-tree are lists of addresses.  Both chains end with what the source
  reads as `orphan->cnext` after a loop over a whole `list_head` list.  `orphan` is then no orphan but
  the place in `struct ubifs_info` around the list head, and what it takes for `cnext` is
  `c->orph_cnext`.

  The committer (`Pc`) makes one step after the other, each of which has at most one section under
  `orphan_lock` or one flash operation; anything may happen in between.
-/
import FlashStack.Lib.Reach
import FlashStack.Lib.Linked
import FlashStack.Ubifs.Media
import Mathlib

namespace Ubifs.Orphans

open Lib

/-- The size of an orphan node without inode numbers. -/
def ubifsOrphNodeSz : Nat := 32

/-- The orphan area. -/
structure Geometry where
  lebSize : Nat
  minIoSize : Nat
  orphFirst : Nat
  orphLebs : Nat

namespace Geometry

/-- The last LEB of the area. -/
def orphLast (g : Geometry) : Nat := g.orphFirst + g.orphLebs - 1

/-- The orphans that fit into an LEB. -/
def perLeb (g : Geometry) : Nat := (g.lebSize - ubifsOrphNodeSz) / 8

/-- `tot_avail_orphs`, which is also `max_orphans`. -/
def totAvailOrphs (g : Geometry) : Nat := g.orphLebs * g.perLeb / 2

end Geometry

/-! ## Data -/

/-- `struct ubifs_orphan` -/
structure Orphan where
  inum : Nat
  new : Bool
  cnext : Option Nat
  dnext : Option Nat

/-- `struct ubifs_orph_node`; `last` is the top bit of its `cmt_no`. -/
structure OrphNode where
  cmtNo : Nat
  last : Bool
  inos : List Nat
  deriving DecidableEq

/-- What a node takes on flash. -/
def OrphNode.space (g : Geometry) (orph : OrphNode) : Nat :=
  align (align (ubifsOrphNodeSz + orph.inos.length * 8) g.minIoSize) 8

/-- What `ubifs_scan` finds in an LEB of the area, once `ubifs_recover_leb` has dropped a torn node.
    What an LEB had when it was unmapped may come back at the next attach. -/
structure Leb where
  nodes : List OrphNode
  mapped : Bool
  former : List (List OrphNode)

namespace Leb

/-- `sleb->endpt` -/
def endpt (g : Geometry) (leb : Leb) : Nat := (leb.nodes.map (OrphNode.space g)).sum

/-- An unmapped LEB may come back as it was. -/
def unmap (leb : Leb) : Leb :=
  if leb.mapped then ⟨[], false, leb.nodes :: leb.former⟩ else leb

/-- `ubifs_leb_change` -/
def change (orph : OrphNode) (leb : Leb) : Leb := ⟨[orph], true, leb.former⟩

/-- A node is written behind the others. -/
def append (orph : OrphNode) (leb : Leb) : Leb := { leb with nodes := leb.nodes ++ [orph], mapped := true }

/-- A write that is cut short: what there is of the node will be dropped. -/
def touch (leb : Leb) : Leb := { leb with mapped := true }

/-- The attach: one of the former contents of an unmapped LEB comes back, or all were erased. -/
def reattach (leb : Leb) (back : Option Nat) : Leb :=
  if leb.mapped then leb
  else
    match back.bind (leb.former[·]?) with
    | some nodes => { leb with nodes := nodes, mapped := true }
    | none => ⟨[], false, []⟩

end Leb

/-- Where the committer is. -/
inductive Pc
  | resting
  /-- `ubifs_orphan_start_commit` returned -/
  | started
  /-- in the loop of `write_orph_nodes` -/
  | writing (atomic : Bool)
  /-- `do_write_orph_node` is to write this node -/
  | node (atomic : Bool) (orph : OrphNode)
  /-- the LEB at the head is unmapped and this node is to be written -/
  | unmapped (orph : OrphNode)
  /-- unused LEBs are to be unmapped, from `lnum` on -/
  | clearing (lnum : Nat)
  /-- `erase_deleted` is to be called -/
  | erasing
  /-- `ubifs_orphan_end_commit` returned, the master node is to be written -/
  | ended
  /-- the commit returned an error -/
  | broken
  /-- the power was cut -/
  | down
  deriving DecidableEq

/-- How much of a flash operation that failed, or was cut, there is on flash. -/
inductive Effect
  | none
  | part
  | full
  deriving DecidableEq

/-- What may come of an operation on the flash. -/
inductive Outcome
  | ok
  | error (e : Effect)
  | cut (e : Effect)
  deriving DecidableEq

/-- Where the committer goes after a flash operation. -/
def Outcome.pc (next : Pc) : Outcome → Pc
  | ok => next
  | error _ => .broken
  | cut _ => .down

/-- What there is in memory.  `freed` and `fault` are no variables of the source: they are the orphans
    that were freed, and whether a pointer to no orphan was followed or a loop did not end. -/
structure Memory where
  mem : Nat → Option Orphan
  brk : Nat
  orphTree : List Nat
  orphList : List Nat
  orphNew : List Nat
  orphCnext : Option Nat
  orphDnext : Option Nat
  newOrphans : Int
  cmtOrphans : Int
  totOrphans : Int
  freed : List Nat
  fault : Bool

namespace Memory

variable (m : Memory)

/-- Nothing was allocated yet. -/
def empty : Memory where
  mem := fun _ => none
  brk := 0
  orphTree := []
  orphList := []
  orphNew := []
  orphCnext := none
  orphDnext := none
  newOrphans := 0
  cmtOrphans := 0
  totOrphans := 0
  freed := []
  fault := false

/-- Write to the orphan at `a`. -/
def upd (a : Nat) (f : Orphan → Orphan) : Memory :=
  match m.mem a with
  | none => { m with fault := true }
  | some orphan => { m with mem := Function.update m.mem a (some (f orphan)) }

/-- The memory is given back. -/
def kfree (a : Nat) : Memory :=
  { m with mem := Function.update m.mem a none, freed := a :: m.freed }

/-- The search in the rb-tree. -/
def find (inum : Nat) : Option Nat :=
  m.orphTree.find? fun a => (m.mem a).any (·.inum = inum)

/-- `rb_erase` and `list_del` -/
def unlink (a : Nat) : Memory :=
  { m with
    orphTree := m.orphTree.erase a
    orphList := m.orphList.erase a
    totOrphans := m.totOrphans - 1 }

/-- A new orphan, at an address of its own. -/
def link (orphan : Orphan) : Memory :=
  { m with
    mem := Function.update m.mem m.brk (some orphan)
    brk := m.brk + 1
    orphTree := m.orphTree ++ [m.brk]
    orphList := m.orphList ++ [m.brk]
    totOrphans := m.totOrphans + 1 }

/-! ## Adding and deleting -/

/-- What the operations on orphans may end with. -/
inductive Errno
  | enomem
  | enfile

/-- `ubifs_add_orphan`; `alloc` says that there is memory. -/
def ubifsAddOrphan (g : Geometry) (alloc : Bool) (inum : Nat) : Except Errno Memory :=
  if alloc = false then .error .enomem
  else if m.totOrphans ≥ g.totAvailOrphs then .error .enfile
  else
    match m.find inum with
    | some _ => .ok m
    | none =>
      .ok { m.link ⟨inum, true, none, none⟩ with
        newOrphans := m.newOrphans + 1
        orphNew := m.orphNew ++ [m.brk] }

/-- The orphan at `a` is no longer new. -/
def unlinkNew (a : Nat) : Memory :=
  { m with orphNew := m.orphNew.erase a, newOrphans := m.newOrphans - 1 }

/-- `ubifs_delete_orphan` -/
def ubifsDeleteOrphan (inum : Nat) : Memory :=
  match m.find inum with
  | none => m
  | some a =>
    match m.mem a with
    | none => { m with fault := true }
    | some o =>
      if o.dnext.isSome then m
      else if o.cnext.isSome then
        { m.upd a fun o => { o with dnext := m.orphDnext } with orphDnext := some a }
      else if o.new then ((m.unlink a).unlinkNew a).kfree a
      else (m.unlink a).kfree a

/-- `insert_dead_orphan` -/
def insertDeadOrphan (inum : Nat) : Memory :=
  match m.find inum with
  | some _ => m
  | none => { m.link ⟨inum, false, none, m.orphDnext⟩ with orphDnext := some m.brk }

/-! ## The two chains -/

/-- `*last = p`, where `last` points to `orph_cnext` or to the `cnext` of an orphan. -/
def setNext (last : Option Nat) (p : Option Nat) : Memory :=
  match last with
  | none => { m with orphCnext := p }
  | some a => m.upd a fun o => { o with cnext := p }

/-- The orphans of a list are chained up, and `f` is done to each. -/
def chain (f : Orphan → Orphan) (m : Memory) : List Nat → Option Nat → Memory
  | [], last => m.setNext last m.orphCnext
  | a :: l, last => chain f ((m.upd a f).setNext last (some a)) l (some a)

/-- The orphans that are not new, in the order they were added. -/
def oldOrphans : List Nat := m.orphList.filter fun a => (m.mem a).any (·.new = false)

/-- The loop of `write_orph_node`: `n` orphans are taken from the chain that starts with `p`.  Their
    inode numbers, and what is left. -/
def takeOrphans (m : Memory) : Nat → Option Nat → List Nat × Option Nat × Memory
  | 0, p => ([], p, m)
  | n + 1, p =>
    match p with
    | none => ([], none, { m with fault := true })
    | some a =>
      match m.mem a with
      | none => ([], none, { m with fault := true })
      | some o =>
        let r := takeOrphans (m.upd a fun o => { o with cnext := none }) n o.cnext
        (o.inum :: r.1, r.2.1, r.2.2)

/-- `erase_deleted`, from `p` on, for at most `n` orphans. -/
def eraseFrom (m : Memory) : Nat → Option Nat → Memory
  | _, none => { m with orphDnext := none }
  | 0, some _ => { m with fault := true }
  | n + 1, some a =>
    match m.mem a with
    | none => { m with fault := true }
    | some o => eraseFrom ((m.unlink a).kfree a) n o.dnext

/-- `erase_deleted`; there are no more than `brk` orphans. -/
def eraseDeleted : Memory := m.eraseFrom m.brk m.orphDnext

end Memory

/-! ## The state -/

/-- The variables from `clash` on are none of the source.  `clash`: a page was written twice;
    `outOfSpace`: "out of space in orphan area" was reported.  `owed` are the inodes that were added
    and not deleted, `cmtOwed` those at the start of the commit, `mstOwed` those at the start of the
    last commit whose master node was written; `cmtGone` and `gone` were deleted since then.  `ever`
    were added at some time.  `killed` are the inodes that the last mount removed, if it returned 0. -/
structure State extends Memory where
  noOrphs : Bool
  oheadLnum : Nat
  oheadOffs : Nat
  cmtNo : Nat
  pc : Pc
  area : Nat → Leb
  mstCmtNo : Nat
  mstNoOrphs : Bool
  clash : Bool
  outOfSpace : Bool
  owed : List Nat
  cmtOwed : List Nat
  mstOwed : List Nat
  cmtGone : List Nat
  gone : List Nat
  ever : List Nat
  killed : Option (List Nat)

namespace State

variable (g : Geometry) (s : State)

/-! ## The commit -/

/-- `ubifs_orphan_start_commit` -/
def ubifsOrphanStartCommit : State :=
  { s with
    toMemory :=
      { s.chain (fun o => { o with new := false }) s.orphNew none with
        cmtOrphans := s.newOrphans
        newOrphans := 0
        orphNew := [] }
    noOrphs := decide (s.totOrphans = 0) }

/-- `avail_orphs`. -/
def availOrphs : Int :=
  let availLebs : Int := g.orphLebs - (s.oheadLnum - g.orphFirst) - 1
  let avail := availLebs * g.perLeb
  let gap := g.lebSize - s.oheadOffs
  if gap ≥ ubifsOrphNodeSz + 8 then avail + ((gap - ubifsOrphNodeSz) / 8 : Nat) else avail

/-- `consolidate` -/
def consolidate : State :=
  if s.totOrphans - s.newOrphans ≤ g.totAvailOrphs then
    { s with
      toMemory := { s.chain id s.oldOrphans none with cmtOrphans := s.oldOrphans.length }
      oheadLnum := g.orphFirst
      oheadOffs := 0
      pc := .writing true }
  else { s with outOfSpace := true, pc := .broken }

/-- `commit_orphans`, up to the writing. -/
def commitOrphans : State :=
  if s.availOrphs g < s.cmtOrphans then s.consolidate g else { s with pc := .writing false }

/-- `write_orph_node` makes up a node. -/
def makeNode (atomic : Bool) : State :=
  let gap := g.lebSize - s.oheadOffs
  let cnt := min ((gap - ubifsOrphNodeSz) / 8) s.cmtOrphans.toNat
  let r := s.takeOrphans cnt s.orphCnext
  { s with
    toMemory := { r.2.2 with orphCnext := r.2.1, cmtOrphans := s.cmtOrphans - cnt }
    pc := .node atomic ⟨s.cmtNo, decide (s.cmtOrphans - cnt = 0), r.1⟩ }

/-- `write_orph_node`, up to the writing. -/
def writeOrphNode (atomic : Bool) : State :=
  if g.lebSize - s.oheadOffs < ubifsOrphNodeSz + 8 then
    let s := { s with oheadLnum := s.oheadLnum + 1, oheadOffs := 0 }
    if s.oheadLnum > g.orphLast then { s with outOfSpace := true, pc := .broken }
    else s.makeNode g atomic
  else s.makeNode g atomic

/-- A LEB of the area is changed. -/
def setLeb (lnum : Nat) (f : Leb → Leb) : State :=
  { s with area := Function.update s.area lnum (f (s.area lnum)) }

/-- A flash operation on an LEB. -/
def flashOp (lnum : Nat) (full part : Leb → Leb) : Outcome → State
  | .ok | .error .full | .cut .full => s.setLeb lnum full
  | .error .part | .cut .part => s.setLeb lnum part
  | .error .none | .cut .none => s

/-- The end of `write_orph_node`: the head is behind the node. -/
def advance (orph : OrphNode) : State := { s with oheadOffs := s.oheadOffs + orph.space g }

/-- `ubifs_write_node` at the head. -/
def writeNode (orph : OrphNode) (o : Outcome) : State :=
  let clash := decide (s.oheadOffs ≠ (s.area s.oheadLnum).endpt g)
  let s := (s.flashOp s.oheadLnum (.append orph) .touch o).advance g orph
  { s with clash := s.clash || clash, pc := o.pc (.writing false) }

/-- `do_write_orph_node` ensures that the LEB of the head has been unmapped.  When that fails, the
    caller moves the head all the same. -/
def ensureUnmapped (orph : OrphNode) (o : Outcome) : State :=
  let s := s.flashOp s.oheadLnum .unmap id o
  match o with
  | .ok => { s with pc := .unmapped orph }
  | .error _ => { s.advance g orph with pc := .broken }
  | .cut _ => { s with pc := .down }

/-- `do_commit` writes the master node. -/
def writeMaster : State :=
  { s with
    mstCmtNo := s.cmtNo
    mstNoOrphs := s.noOrphs
    mstOwed := s.cmtOwed
    gone := s.cmtGone }

/-- The next step of the committer; `o` is what becomes of a flash operation. -/
def commitStep (o : Outcome) : Option State :=
  match s.pc with
  | .resting =>
    some { ({ s with cmtNo := s.cmtNo + 1 }).ubifsOrphanStartCommit with
      pc := .started, cmtOwed := s.owed, cmtGone := [] }
  | .started => some (if s.cmtOrphans ≠ 0 then s.commitOrphans g else { s with pc := .erasing })
  | .writing atomic =>
    some (if s.cmtOrphans > 0 then s.writeOrphNode g atomic
      else if atomic then { s with pc := .clearing (s.oheadLnum + 1) }
      else { s with pc := .erasing })
  | .node true orph =>
    some { (s.flashOp s.oheadLnum (.change orph) id o).advance g orph with pc := o.pc (.writing true) }
  | .node false orph =>
    some (if s.oheadOffs = 0 then s.ensureUnmapped g orph o else s.writeNode g orph o)
  | .unmapped orph => some (s.writeNode g orph o)
  | .clearing lnum =>
    some (if lnum ≤ g.orphLast then
        { s.flashOp lnum .unmap id o with pc := o.pc (.clearing (lnum + 1)) }
      else { s with pc := .erasing })
  | .erasing => some { s with toMemory := s.eraseDeleted, pc := .ended }
  | .ended =>
    match o with
    | .ok | .error .full | .cut .full => some { s.writeMaster with pc := o.pc .resting }
    | _ => some { s with pc := o.pc .resting }
  | .broken | .down => none

/-! ## The mount -/

/-- What `kill_orphans` knows while it goes through the area. -/
structure Scan where
  s : State
  lastCmtNo : Nat
  lastFlagged : Bool
  removed : List Nat

/-- What `do_kill_orphans` does with a node that is not out of date. -/
def Scan.kill (k : Scan) (orph : OrphNode) : Scan where
  s := { k.s with toMemory := orph.inos.foldl Memory.insertDeadOrphan k.s.toMemory }
  lastCmtNo := orph.cmtNo
  lastFlagged := orph.last
  removed := k.removed ++ orph.inos

/-- What `kill_orphans` does after a LEB. -/
inductive Killed
  | done (k : Scan)
  | outOfDate (k : Scan)
  | einval

/-- `do_kill_orphans` -/
def doKillOrphans : List OrphNode → Bool → Scan → Killed
  | [], _, k => .done k
  | orph :: nodes, first, k =>
    let k := { k with s := { k.s with cmtNo := max k.s.cmtNo orph.cmtNo } }
    if orph.cmtNo < k.lastCmtNo ∧ k.lastFlagged = true then
      if first then .outOfDate k else .einval
    else doKillOrphans nodes false (k.kill orph)

/-- `kill_orphans`, for `n` LEBs from `lnum` on. -/
def killFrom : Nat → Nat → Scan → Option Scan
  | 0, _, k => some k
  | n + 1, lnum, k =>
    match doKillOrphans (k.s.area lnum).nodes true k with
    | .einval => none
    | .outOfDate k => some k
    | .done k =>
      let endpt := (k.s.area lnum).endpt g
      let s := if endpt ≠ 0 then { k.s with oheadLnum := lnum, oheadOffs := endpt } else k.s
      killFrom n (lnum + 1) { k with s := s }

/-- Memory as it is before a mount; flash is as in `s`. -/
def reset : State :=
  { s with
    toMemory := .empty
    noOrphs := s.mstNoOrphs
    oheadLnum := g.orphFirst
    oheadOffs := 0
    cmtNo := s.mstCmtNo
    pc := .resting
    owed := []
    cmtOwed := []
    cmtGone := [] }

/-- `ubifs_mount_orphans` after an unclean reboot. -/
def ubifsMountOrphans : State :=
  let s := s.reset g
  if s.noOrphs then { s with killed := some [] }
  else
    match killFrom g g.orphLebs g.orphFirst ⟨s, 0, false, []⟩ with
    | none => { s with killed := none, pc := .broken }
    | some k => { k.s with killed := some k.removed }

/-- The first mount: nothing is known of the area but that it is unmapped. -/
def initial (cmtNo : Nat) : State where
  toMemory := .empty
  noOrphs := true
  oheadLnum := g.orphFirst
  oheadOffs := 0
  cmtNo := cmtNo
  pc := .resting
  area := fun _ => ⟨[], false, []⟩
  mstCmtNo := cmtNo
  mstNoOrphs := true
  clash := false
  outOfSpace := false
  owed := []
  cmtOwed := []
  mstOwed := []
  cmtGone := []
  gone := []
  ever := []
  killed := some []

end State

/-! ## Runs -/

/-- What happens next. -/
inductive Event
  | add (alloc : Bool) (inum : Nat)
  | delete (inum : Nat)
  /-- the committer makes a step -/
  | commit (o : Outcome)
  /-- the power is cut, between two steps -/
  | crash
  /-- `back` says which unmapped LEBs come back, and as what -/
  | mount (back : Nat → Option Nat)

/-- A step of the file system; nothing but a mount happens without power. -/
def State.step (g : Geometry) (s : State) : Event → Option State
  | .add alloc inum =>
    if s.pc = .down then none
    else
      match s.ubifsAddOrphan g alloc inum with
      | .error _ => some s
      | .ok m =>
        some { s with
          toMemory := m
          owed := inum :: s.owed
          ever := inum :: s.ever }
  | .delete inum =>
    if s.pc = .down then none
    else
      some { s with
        toMemory := s.ubifsDeleteOrphan inum
        owed := s.owed.filter (· ≠ inum)
        cmtGone := inum :: s.cmtGone
        gone := inum :: s.gone }
  | .commit o => s.commitStep g o
  | .crash => some { s with pc := .down }
  | .mount back =>
    if s.pc = .down then
      some (({ s with area := fun lnum => (s.area lnum).reattach (back lnum) }).ubifsMountOrphans g)
    else none

end Ubifs.Orphans
