/-
  The log (`log.c`).

  The log LEBs are a ring.  The tail is where the last commit start node is; reference nodes follow it
  up to the head.  A commit writes a commit start node to the next LEB, and moves the tail there when
  it ends.  New buds may be added at any time but in the short start phase of a commit.  After an
  unclean reboot a replay starts at the commit start node that the master node names, and the master
  node is written some time after the tail has been moved.

  `flash` has the sequence numbers of the nodes that each LEB holds.  `overrun` and `overrated` are
  no variables of the source: they say what must not happen.
-/
import FlashStack.Lib.Reach
import FlashStack.Lib.Ring
import FlashStack.Ubifs.Media
import Mathlib

namespace Ubifs.Log

open Lib

/-- Where the log starts, and the size of a commit start node. -/
def ubifsLogLnum : Nat := 3
def ubifsCsNodeSz : Nat := 32

/-- What the log uses of the geometry. -/
structure Geometry where
  logLebs : Nat
  lebSize : Nat
  minIoSize : Nat
  refNodeSz : Nat
  jheadCnt : Nat
  maxBudBytes : Int

namespace Geometry

/-- A reference node takes whole write units. -/
def refNodeAlsz (g : Geometry) : Nat := align g.refNodeSz g.minIoSize

/-- What the nodes of a commit start take, with references to `refs` heads. -/
def csLen (g : Geometry) (refs : Nat) : Nat :=
  align (ubifsCsNodeSz + refs * g.refNodeSz) g.minIoSize

/-- The size of the log. -/
def logBytes (g : Geometry) : Nat := g.logLebs * g.lebSize

/-- The last LEB of the log. -/
def logLast (g : Geometry) : Nat := ubifsLogLnum + g.logLebs - 1

/-- `max_bud_cnt` -/
def maxBudCnt (g : Geometry) : Int := (g.maxBudBytes + g.lebSize - 1) / g.lebSize

/-- The LEBs that the reference nodes of all buds take, and one in reserve. -/
def requiredLebs (g : Geometry) : Int :=
  (g.refNodeAlsz * g.maxBudCnt + g.lebSize - 1) / g.lebSize + 1

/-- The checks of the mount code that matter to the log: `init_constants_sb` wants room for a full commit
    in a LEB, and room for the reference nodes of all buds in the log. -/
structure Accepted (g : Geometry) : Prop where
  logLebs : 2 ≤ g.logLebs
  minIoSize : 0 < g.minIoSize
  refNodeSz : 0 < g.refNodeSz
  jheadCnt : 1 ≤ g.jheadCnt
  fits : g.csLen g.jheadCnt ≤ g.lebSize
  budsFit : g.requiredLebs ≤ g.logLebs

end Geometry

/-- A LEB of the journal, from `start` on. -/
structure Bud where
  lnum : Nat
  start : Nat
  jhead : Nat

/-- The write-buffer of a journal head. -/
structure Wbuf where
  lnum : Option Nat
  offs : Nat

/-- What there is in a log LEB. -/
structure LogLeb where
  sqnums : List Nat
  used : Nat

/-- Where a commit is. -/
inductive Commit
  | resting
  /-- started; the new tail, and the sequence number of the new commit start node -/
  | running (newTail : Nat) (cs : Nat)
  /-- ended, but the master node is not yet written -/
  | ended (oldTail : Nat) (cs : Nat)
  /-- the master node is written -/
  | written (oldTail : Nat)

/-- The log in memory and on flash, with two flags that say what must not happen. -/
structure State where
  lheadLnum : Nat
  lheadOffs : Nat
  ltailLnum : Nat
  minLogBytes : Int
  buds : List Bud
  oldBuds : List Bud
  budBytes : Int
  cmtBudBytes : Int
  sqnum : Nat
  commit : Commit
  flash : Nat → LogLeb
  /-- the sequence number of the commit start node that the last written master node names -/
  mstCs : Nat
  /-- the log head unmapped or wrote over what a replay needs -/
  overrun : Bool
  /-- `ubifs_add_bud_to_log` took the empty part of the log to be larger than it was -/
  overrated : Bool

namespace State

variable (g : Geometry) (s : State)

/-- A replay needs the nodes from the commit start node on. -/
def needed (lnum : Nat) : Bool := (s.flash lnum).sqnums.any fun sqnum => s.mstCs ≤ sqnum

/-- `ubifs_next_log_lnum`. -/
def nextLogLnum (lnum : Nat) : Nat :=
  let lnum := lnum + 1
  if lnum > g.logLast then ubifsLogLnum else lnum

/-- `empty_log_bytes`. -/
def emptyLogBytes : Int :=
  let h : Int := s.lheadLnum * g.lebSize + s.lheadOffs
  let t : Int := s.ltailLnum * g.lebSize
  if h ≥ t then g.logBytes - h + t else t - h

/-- The bytes of the LEBs from `lnum` on that may be overwritten. -/
def roomFrom : Nat → Nat → Nat
  | 0, _ => 0
  | n + 1, lnum => if s.needed lnum then 0 else g.lebSize + roomFrom n (nextLogLnum g lnum)

/-- How many bytes the head may write before it comes to an LEB that is needed. -/
def room : Nat :=
  (if s.needed s.lheadLnum then g.lebSize - s.lheadOffs else g.lebSize) +
    s.roomFrom g (g.logLebs - 1) (nextLogLnum g s.lheadLnum)

/-- `ubifs_leb_unmap` of the LEB at the head. -/
def unmapHead : State :=
  { s with
    flash := Function.update s.flash s.lheadLnum ⟨[], 0⟩
    overrun := s.overrun || s.needed s.lheadLnum }

/-- Nodes are written at the head, which moves on. -/
def writeHead (nodes len : Nat) : State :=
  let leb := s.flash s.lheadLnum
  let sqnums := (List.range nodes).map (s.sqnum + 1 + ·)
  { s with
    sqnum := s.sqnum + nodes
    lheadOffs := s.lheadOffs + len
    flash := Function.update s.flash s.lheadLnum ⟨leb.sqnums ++ sqnums, s.lheadOffs + len⟩
    overrun := s.overrun || decide (s.lheadOffs < leb.used) || decide (g.lebSize < s.lheadOffs + len) }

/-- `ubifs_add_bud`. -/
def ubifsAddBud (bud : Bud) : State :=
  { s with buds := s.buds ++ [bud], budBytes := s.budBytes + (g.lebSize - bud.start) }

/-- The head moves on if there is no room for a reference node in its LEB. -/
def moveOn : State :=
  if (s.lheadOffs : Int) > g.lebSize - g.refNodeAlsz then
    { s with lheadLnum := nextLogLnum g s.lheadLnum, lheadOffs := 0 }
  else s

/-- Must ensure next log LEB has been unmapped. -/
def clearHead : State := if s.lheadOffs = 0 then s.unmapHead else s

/-- `ubifs_add_bud_to_log`; where the source returns `-EAGAIN` nothing changes.  A bud at the start
    of its LEB is mapped before, which does not touch the log. -/
def ubifsAddBudToLog (jhead lnum offs : Nat) : State :=
  let s := { s with overrated := s.overrated || decide ((s.room g : Int) < s.emptyLogBytes g) }
  -- make sure we have enough space in the log
  if s.emptyLogBytes g - (g.refNodeAlsz : Int) < s.minLogBytes then s
  else if s.budBytes + g.lebSize - offs > g.maxBudBytes then s
  else
    let s := ((s.moveOn g).clearHead).writeHead g 1 g.refNodeAlsz
    s.ubifsAddBud g ⟨lnum, offs, jhead⟩

/-- `remove_buds`, bud by bud: buds that heads point to stay. -/
def removeBud (wbufs : List Wbuf) (s : State) (bud : Bud) : State :=
  match wbufs[bud.jhead]? with
  | some ⟨some lnum, offs⟩ =>
    if lnum = bud.lnum then
      { s with
        cmtBudBytes := s.cmtBudBytes + (offs - bud.start)
        buds := s.buds ++ [{ bud with start := offs }] }
    else
      { s with
        cmtBudBytes := s.cmtBudBytes + (g.lebSize - bud.start)
        oldBuds := s.oldBuds ++ [bud] }
  | _ =>
    { s with
      cmtBudBytes := s.cmtBudBytes + (g.lebSize - bud.start)
      oldBuds := s.oldBuds ++ [bud] }

/-- `remove_buds`: what is behind the heads now has been committed. -/
def removeBuds (wbufs : List Wbuf) : State :=
  s.buds.foldl (removeBud g wbufs) { s with cmtBudBytes := 0, buds := [] }

/-- The heads that get a reference node. -/
def Wbuf.refd (g : Geometry) (wbuf : Wbuf) : Bool := wbuf.lnum.isSome && wbuf.offs ≠ g.lebSize

/-- The head goes to an LEB of its own. -/
def switchLeb : State :=
  if s.lheadOffs ≠ 0 then { s with lheadLnum := nextLogLnum g s.lheadLnum, lheadOffs := 0 } else s

/-- The head leaves an LEB that is full. -/
def leaveFull : State :=
  if s.lheadOffs = g.lebSize then
    { s with lheadLnum := nextLogLnum g s.lheadLnum, lheadOffs := 0 }
  else s

/-- `ubifs_log_start_commit`, where the heads are as in `wbufs`. -/
def ubifsLogStartCommit (wbufs : List Wbuf) : State :=
  let refs := wbufs.countP (Wbuf.refd g)
  let s := s.switchLeb g
  let commit := Commit.running s.lheadLnum (s.sqnum + 1)
  let s := ((s.clearHead).writeHead g (1 + refs) (g.csLen refs)).leaveFull g
  { s.removeBuds g wbufs with commit := commit, minLogBytes := 0 }

/-- `ubifs_log_end_commit` -/
def ubifsLogEndCommit (newTail : Nat) : State :=
  { s with
    ltailLnum := newTail
    minLogBytes := g.lebSize
    budBytes := s.budBytes - s.cmtBudBytes }

/-- The LEBs from `lnum` up to the tail are unmapped. -/
def unmapUpto (s : State) : Nat → Nat → State
  | 0, _ => s
  | n + 1, lnum =>
    if lnum = s.ltailLnum then s
    else
      unmapUpto { s with flash := Function.update s.flash lnum ⟨[], 0⟩ } n (nextLogLnum g lnum)

/-- `ubifs_log_post_commit` -/
def ubifsLogPostCommit (oldTail : Nat) : State :=
  ({ s with oldBuds := [] }).unmapUpto g g.logLebs oldTail

end State

/-- What the rest of the file system asks of the log. -/
inductive Event
  | addBud (jhead lnum offs : Nat)
  | startCommit (wbufs : List Wbuf)
  | endCommit
  /-- `do_commit` writes the master node -/
  | writeMaster
  | postCommit

/-- The calls that `do_commit` makes come in this order; buds are added in between. -/
def State.step (g : Geometry) (s : State) : Event → Option State
  | .addBud jhead lnum offs => some (s.ubifsAddBudToLog g jhead lnum offs)
  | .startCommit wbufs =>
    match s.commit with
    | .resting => if wbufs.length = g.jheadCnt then some (s.ubifsLogStartCommit g wbufs) else none
    | _ => none
  | .endCommit =>
    match s.commit with
    | .running newTail cs =>
      some { s.ubifsLogEndCommit g newTail with commit := .ended s.ltailLnum cs }
    | _ => none
  | .writeMaster =>
    match s.commit with
    | .ended oldTail cs => some { s with mstCs := cs, commit := .written oldTail }
    | _ => none
  | .postCommit =>
    match s.commit with
    | .written oldTail => some { s.ubifsLogPostCommit g oldTail with commit := .resting }
    | _ => none

/-- Mounted when the log has nothing but a commit start node. -/
def State.initial (tail offs : Nat) : State where
  lheadLnum := tail
  lheadOffs := offs
  ltailLnum := tail
  minLogBytes := 0
  buds := []
  oldBuds := []
  budBytes := 0
  cmtBudBytes := 0
  sqnum := 1
  commit := .resting
  flash := Function.update (fun _ => ⟨[], 0⟩) tail ⟨[1], offs⟩
  mstCs := 1
  overrun := false
  overrated := false

/-- The head has not run into the tail, and buds have not got too many bytes. -/
def State.Safe (s : State) : Prop := s.overrun = false ∧ s.overrated = false

/-- What a mount leaves: the log was replayed from the tail up to the head, and consolidated if there
    was no LEB free behind the head.  `min_log_bytes` is not yet set. -/
structure Mounted (g : Geometry) (s : State) : Prop where
  commit : s.commit = .resting
  minLogBytes : s.minLogBytes = 0
  tail : Ring.In ubifsLogLnum g.logLebs s.ltailLnum
  head : ∃ d, d + 1 < g.logLebs ∧ s.lheadLnum = Ring.place ubifsLogLnum g.logLebs s.ltailLnum d ∧
    ∀ lnum, ∀ q ∈ (s.flash lnum).sqnums, s.mstCs ≤ q →
      ∃ k ≤ d, lnum = Ring.place ubifsLogLnum g.logLebs s.ltailLnum k
  offs : 0 < s.lheadOffs ∧ s.lheadOffs ≤ g.lebSize
  used : (s.flash s.lheadLnum).used ≤ s.lheadOffs
  sqnum : ∀ lnum, ∀ q ∈ (s.flash lnum).sqnums, q ≤ s.sqnum
  safe : s.Safe

/-- The commit has ended, and its LEBs can be unmapped. -/
def Commit.isEnded : Commit → Bool
  | .ended .. => true
  | _ => false

/-- No bud is added between the end of a commit and its master node, nor where the head is taken to be
    at the tail; and a commit does not start in the tail, which `min_log_bytes` prevents where it is
    set. -/
def Event.Ok (g : Geometry) (s : State) : Event → Prop
  | .addBud .. =>
    s.commit.isEnded = false ∧
      s.lheadLnum * g.lebSize + s.lheadOffs ≠ s.ltailLnum * g.lebSize
  | .startCommit _ => s.minLogBytes = 0 → (s.switchLeb g).lheadLnum ≠ s.ltailLnum
  | _ => True

instance decidableOk (g : Geometry) (s : State) (e : Event) : Decidable (e.Ok g s) :=
  match e with
  | .addBud .. => inferInstanceAs (Decidable (_ ∧ _))
  | .startCommit _ => inferInstanceAs (Decidable (_ → _))
  | .endCommit | .writeMaster | .postCommit => inferInstanceAs (Decidable True)

end Ubifs.Log
