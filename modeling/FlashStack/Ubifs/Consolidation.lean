/-
  Log consolidation (`ubifs_consolidate_log`) and the replay of the log.

  A log LEB is what `ubifs_scan` makes of it: its nodes, each with its offset, and where they end.  Every
  LEB can be read, there is memory, and no flash operation fails; the power may be cut after any of them,
  so that what the flash is after each one is kept in `history`.

  `State.takeNode` is the body of the loop of `ubifs_consolidate_log`: the first commit start node
  and the first reference of each bud go into the buffer, and `Replay` is what
  `ubifs_replay_journal` reads from any LEBs there are.
-/
import FlashStack.Lib.Align
import Mathlib

namespace Ubifs.Consolidation

/-- The log starts at this LEB. -/
def ubifsLogLnum : Nat := 3

/-- `SQNUM_WATERMARK`: a number this high is taken for damage. -/
def sqnumWatermark : Nat := 0xFFFFFFFFFF000000

/-- The fields of `struct ubifs_info` that are used here. -/
structure Info where
  lebSize : Nat
  minIoSize : Nat
  lebCnt : Nat
  mainFirst : Nat
  jheadCnt : Nat
  logLebs : Nat
  cmtNo : Nat
  ltailLnum : Nat
  lheadLnum : Nat

/-- `struct ubifs_ref_node` -/
structure Ref where
  sqnum : Nat
  lnum : Nat
  offs : Nat
  jhead : Nat
deriving DecidableEq

/-- A node of the log. -/
inductive Node
  | ref (r : Ref)
  | cs (sqnum cmtNo : Nat)
  | other (sqnum len : Nat)
deriving DecidableEq

namespace Node

/-- The sequence number of a node. -/
def sqnum : Node → Nat
  | ref r => r.sqnum
  | cs sqnum _ => sqnum
  | other sqnum _ => sqnum

/-- The length of a node, with its header. -/
def len : Node → Nat
  | ref _ => 64
  | cs _ _ => 32
  | other _ len => len

end Node

/-- What is written to a LEB of the log, and where the next node would go. -/
structure LogLeb where
  nodes : List (Nat × Node)
  endpt : Nat

/-- An unmapped LEB. -/
def LogLeb.empty : LogLeb := ⟨[], 0⟩

/-- What replay may end with. -/
inductive Errno
  | einval
deriving DecidableEq

section

variable (c : Info)

/-- The last LEB of the log. -/
def logLast : Nat := ubifsLogLnum + c.logLebs - 1

/-- `ubifs_next_log_lnum`: the log is a ring. -/
def ubifsNextLogLnum (lnum : Nat) : Nat :=
  if logLast c < lnum + 1 then ubifsLogLnum else lnum + 1

/-! ## Consolidation -/

/-- The variables of `ubifs_consolidate_log`.  The buffer is what is in it up to `offs`. -/
structure State where
  flash : Nat → LogLeb
  writeLnum : Nat
  buf : List (Nat × Node)
  offs : Nat
  first : Bool
  doneTree : List Nat
  history : List (Nat → LogLeb)

namespace State

variable (s : State)

/-- `ubifs_leb_change` to the buffer, padded. -/
def ubifsLebChange : State :=
  let flash := Function.update s.flash s.writeLnum ⟨s.buf, Lib.align s.offs c.minIoSize⟩
  { s with flash := flash, history := s.history ++ [flash] }

/-- `ubifs_leb_unmap`: one operation on the flash. -/
def ubifsLebUnmap (lnum : Nat) : State :=
  let flash := Function.update s.flash lnum .empty
  { s with flash := flash, history := s.history ++ [flash] }

/-- The buffer is written, and the next LEB begun, if there is no room for so much. -/
def makeRoom (len : Nat) : State :=
  if c.lebSize - s.offs < len then
    { s.ubifsLebChange c with
      writeLnum := ubifsNextLogLnum c s.writeLnum
      buf := []
      offs := 0 }
  else s

/-- The node is put into the buffer, at the next multiple of eight. -/
def putNode (node : Node) : State :=
  { s with
    buf := s.buf ++ [(s.offs, node)]
    offs := s.offs + Lib.align node.len 8 }

/-- `add_node`: the buffer is written out first if the node does not fit in it. -/
def addNode (node : Node) : State := (s.makeRoom c node.len).putNode node

/-- One node of a LEB that has been read.  `done_already` adds a reference to the tree that is not
    there. -/
def takeNode (s : State) (p : Nat × Node) : State :=
  match p.2 with
  | .ref r =>
    if r.lnum ∈ s.doneTree then s
    else { s with doneTree := r.lnum :: s.doneTree }.addNode c (.ref r)
  | .cs sqnum cmtNo =>
    if s.first then { s.addNode c (.cs sqnum cmtNo) with first := false } else s
  | .other _ _ => s

/-- The LEBs from the tail to the head. -/
def readLoop : Nat → Nat → State → Option State
  | 0, _, _ => none
  | fuel + 1, lnum, s =>
    let s := (s.flash lnum).nodes.foldl (takeNode c) s
    if lnum = c.lheadLnum then some s else readLoop fuel (ubifsNextLogLnum c lnum) s

/-- The LEBs behind `lnum`, to the head. -/
def unmapLoop : Nat → Nat → State → Option State
  | 0, _, _ => none
  | fuel + 1, lnum, s =>
    let lnum := ubifsNextLogLnum c lnum
    let s := s.ubifsLebUnmap lnum
    if lnum = c.lheadLnum then some s else unmapLoop fuel lnum s

end State

/-- The new head, or the error; `none` if a loop does not end. -/
def ubifsConsolidateLog (flash : Nat → LogLeb) : Option (Except Errno (Nat × Nat) × State) := do
  let s ← State.readLoop c c.logLebs c.ltailLnum ⟨flash, c.ltailLnum, [], 0, true, [], []⟩
  let s := if s.offs ≠ 0 then
      { s.ubifsLebChange c with offs := Lib.align s.offs c.minIoSize } else s
  if s.writeLnum = c.lheadLnum then return (.error .einval, s)
  else
    let s ← State.unmapLoop c c.logLebs s.writeLnum s
    return (.ok (s.writeLnum, s.offs), s)

/-! ## Replay -/

/-- What the replay of the log makes: the commit start, the list of buds, and the head. -/
structure Replay where
  csSqnum : Nat
  replayBuds : List Ref
  maxSqnum : Nat
  lheadLnum : Nat
  lheadOffs : Nat

namespace Replay

variable (r : Replay)

/-- Whether the bud is there already. -/
def validateRef (ref : Ref) : Except Errno Bool :=
  if c.jheadCnt ≤ ref.jhead ∨ c.lebCnt ≤ ref.lnum ∨ ref.lnum < c.mainFirst ∨ c.lebSize < ref.offs ∨
      ref.offs &&& (c.minIoSize - 1) ≠ 0 then .error .einval
  else
    match r.replayBuds.find? fun bud => bud.lnum = ref.lnum with
    | some bud => if bud.jhead = ref.jhead ∧ bud.offs ≤ ref.offs then .ok true else .error .einval
    | none => .ok false

/-- One node of a LEB of the log, as `replay_log_leb` takes it. -/
def replayNode (r : Replay) (p : Nat × Node) : Except Errno Replay :=
  if sqnumWatermark ≤ p.2.sqnum then .error .einval
  else if p.2.sqnum < r.csSqnum then .error .einval
  else
    let r := { r with maxSqnum := max r.maxSqnum p.2.sqnum }
    match p.2 with
    | .ref ref => do
      if ← r.validateRef c ref then return r
      else return { r with replayBuds := r.replayBuds ++ [ref] }
    | .cs _ _ => if p.1 ≠ 0 then .error .einval else .ok r
    | .other _ _ => .error .einval

/-- The first node of the log must be the commit start node of the last commit. -/
def findCs (node : Node) : Except Errno Replay :=
  if r.csSqnum = 0 then
    match node with
    | .cs sqnum cmtNo => if cmtNo ≠ c.cmtNo then .error .einval else .ok { r with csSqnum := sqnum }
    | _ => .error .einval
  else .ok r

/-- The first part of the result says whether the log ends. -/
def replayLogLeb (lnum : Nat) (sleb : LogLeb) : Except Errno (Bool × Replay) :=
  match sleb.nodes with
  | [] => .ok (true, r)
  | (offs, node) :: _ => do
    let r ← r.findCs c node
    if node.sqnum < r.csSqnum then return (true, r)
    else if offs ≠ 0 then .error .einval
    else
      let r ← sleb.nodes.foldlM (replayNode c) r
      let r := if sleb.endpt ≠ 0 ∨ c.lebSize ≤ r.lheadOffs then
          { r with lheadLnum := lnum, lheadOffs := sleb.endpt } else r
      return (sleb.endpt = 0, r)

/-- The loop of `ubifs_replay_journal`, with so many LEBs left. -/
def replayLoop (flash : Nat → LogLeb) : Nat → Nat → Replay → Except Errno Replay
  | 0, _, r => .ok r
  | k + 1, lnum, r => do
    let lnum := if ubifsLogLnum + c.logLebs ≤ lnum then ubifsLogLnum else lnum
    let (last, r) ← r.replayLogLeb c lnum (flash lnum)
    if last then return r else replayLoop flash k (lnum + 1) r

end Replay

/-- The log, from the LEB on that the master node names. -/
def replayLog (flash : Nat → LogLeb) : Except Errno Replay :=
  Replay.replayLoop c flash c.logLebs c.ltailLnum ⟨0, [], 0, c.ltailLnum, 0⟩

end

end Ubifs.Consolidation
