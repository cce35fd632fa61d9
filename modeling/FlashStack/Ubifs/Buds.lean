/-
  Buds (`log.c`): the LEBs that make up the journal.

  A bud gets into the tree of buds when its reference node is in the log, or when a replay finds one,
  and from then on all bytes behind its start are counted.  The start phase of a commit takes the buds
  out of the tree that no journal head points to; the others begin where their head is.  They are
  counted until the commit ends, and when it is over the old buds are returned and freed.

  Objects have numbers, in the order they get into the tree.  `taken`, `returned` and `freed` are the
  buds that have left the tree, that `ubifs_return_leb` succeeded for, and that were freed; `replayed`
  is what the replay counted.  They are no variables of the source.
-/
import FlashStack.Lib.Reach
import FlashStack.Ubifs.Log

namespace Ubifs.Buds

open Lib
open Log (Geometry Wbuf)

/-- What may go wrong while a bud is added. -/
inductive Errno
  | enomem | erofs | eagain
  | other (val : Nat)
deriving DecidableEq

/-- `struct ubifs_bud`; `id` stands for its address. -/
structure Bud where
  id : Nat
  lnum : Nat
  start : Nat
  jhead : Nat
deriving DecidableEq

/-- Where `do_commit` is, with the tail that it has found. -/
inductive Stage
  | resting
  | started (newLtailLnum : Nat)
  | ended (oldLtailLnum : Nat)
deriving DecidableEq

/-- What `struct ubifs_info` has of the log and the buds. -/
structure Info where
  lheadLnum : Nat
  lheadOffs : Nat
  ltailLnum : Nat
  minLogBytes : Int
  roError : Bool
  replaying : Bool
  stage : Stage
  /-- `COMMIT_BROKEN` -/
  broken : Bool
  /-- the tree, in the order of the LEBs -/
  buds : List Bud
  /-- the lists of the journal heads -/
  heads : Nat → List Nat
  oldBuds : List Bud
  budBytes : Int
  cmtBudBytes : Int
  wbufs : Nat → Wbuf
  nextId : Nat
  taken : List Nat
  returned : List Nat
  freed : List Nat
  replayed : Int

namespace Info

variable (g : Geometry) (s : Info)

/-- `empty_log_bytes`: what is left between head and tail. -/
def emptyLogBytes : Int :=
  let h : Int := s.lheadLnum * g.lebSize + s.lheadOffs
  let t : Int := s.ltailLnum * g.lebSize
  if h ≥ t then g.logBytes - h + t else t - h

/-- A new bud goes to the right of buds in the same LEB. -/
def insertBud (bud : Bud) : List Bud → List Bud
  | [] => [bud]
  | b :: bs => if bud.lnum < b.lnum then bud :: b :: bs else b :: insertBud bud bs

/-- `ubifs_add_bud`: into the tree and onto the list of its head. -/
def ubifsAddBud (lnum start jhead : Nat) : Info :=
  let bud : Bud := ⟨s.nextId, lnum, start, jhead⟩
  { s with
    nextId := s.nextId + 1
    buds := insertBud bud s.buds
    heads := Function.update s.heads jhead (s.heads jhead ++ [bud.id])
    budBytes := s.budBytes + (g.lebSize - start) }

/-- What fails in `ubifs_add_bud_to_log`. -/
structure AddEnv where
  kmalloc : Bool
  kzalloc : Bool
  unmap : Option Errno
  map : Option Errno
  write : Option Errno

/-- The end of `ubifs_add_bud_to_log` at `out_unlock`. -/
def addFailed (err : Errno) : Except Errno Unit × Info :=
  (.error err, if err ≠ .eagain then { s with roError := true } else s)

/-- The head goes to the next LEB when there is no room for another reference node. -/
def moveOn : Info :=
  if (s.lheadOffs : Int) > g.lebSize - g.refNodeAlsz then
    { s with lheadLnum := Log.State.nextLogLnum g s.lheadLnum, lheadOffs := 0 }
  else s

/-- `ubifs_add_bud_to_log`, from the checks to the reference node. -/
def ubifsAddBudToLog (env : AddEnv) (jhead lnum offs : Nat) : Except Errno Unit × Info :=
  if ¬env.kmalloc ∨ ¬env.kzalloc then (.error .enomem, s)
  else if s.roError then s.addFailed .erofs
  -- make sure we have enough space in the log
  else if s.emptyLogBytes g - (g.refNodeAlsz : Int) < s.minLogBytes then s.addFailed .eagain
  else if s.budBytes + g.lebSize - offs > g.maxBudBytes then s.addFailed .eagain
  else
    let s := s.moveOn g
    match if s.lheadOffs = 0 then env.unmap else none with
    | some err => s.addFailed err
    | none =>
      match if offs = 0 then env.map else none with
      | some err => s.addFailed err
      | none =>
        match env.write with
        | some err => s.addFailed err
        | none => (.ok (), { s with lheadOffs := s.lheadOffs + g.refNodeAlsz }.ubifsAddBud g lnum offs jhead)

/-- One bud in `remove_buds`, where the tree is made up again of the buds that stay. -/
def removeBud (s : Info) (bud : Bud) : Info :=
  let wbuf := s.wbufs bud.jhead
  if wbuf.lnum = some bud.lnum then
    { s with
      cmtBudBytes := s.cmtBudBytes + ((wbuf.offs : Int) - bud.start)
      buds := s.buds ++ [{ bud with start := wbuf.offs }] }
  else
    { s with
      cmtBudBytes := s.cmtBudBytes + ((g.lebSize : Int) - bud.start)
      heads := Function.update s.heads bud.jhead ((s.heads bud.jhead).filter (· ≠ bud.id))
      oldBuds := bud :: s.oldBuds
      taken := s.taken ++ [bud.id] }

/-- `remove_buds`: what the commit has made old is put aside. -/
def removeBuds : Info := s.buds.foldl (removeBud g) { s with cmtBudBytes := 0, buds := [] }

/-- What fails in `ubifs_log_start_commit`. -/
structure StartEnv where
  kmalloc : Bool
  unmap : Option Errno
  write : Option Errno

/-- The heads that get a reference node. -/
def refs : Nat := (List.range g.jheadCnt).countP fun i => Log.State.Wbuf.refd g (s.wbufs i)

/-- A commit starts at the beginning of a LEB. -/
def switchLeb : Info :=
  if s.lheadOffs ≠ 0 then
    { s with lheadLnum := Log.State.nextLogLnum g s.lheadLnum, lheadOffs := 0 }
  else s

/-- A head at the end of its LEB goes to the next one. -/
def leaveFull : Info :=
  if s.lheadOffs = g.lebSize then
    { s with lheadLnum := Log.State.nextLogLnum g s.lheadLnum, lheadOffs := 0 }
  else s

/-- The result is the new tail. -/
def ubifsLogStartCommit (env : StartEnv) : Except Errno Nat × Info :=
  if ¬env.kmalloc then (.error .enomem, s)
  else
    let len := g.csLen (s.refs g)
    let s := s.switchLeb g
    match env.unmap with
    | some err => (.error err, s)
    | none =>
      match env.write with
      | some err => (.error err, s)
      | none =>
        let tail := s.lheadLnum
        let s := { s with lheadOffs := s.lheadOffs + len }.leaveFull g
        (.ok tail, { s.removeBuds g with minLogBytes := 0 })

/-- `ubifs_log_end_commit`: the tail moves to where the commit started. -/
def ubifsLogEndCommit (ltailLnum : Nat) : Info :=
  { s with
    ltailLnum := ltailLnum
    minLogBytes := g.lebSize
    budBytes := s.budBytes - s.cmtBudBytes }

/-- The loop over the old buds; it ends where `ubifs_return_leb` fails. -/
def releaseOld (returnLeb : Nat → Option Errno) : List Bud → Info → Option Errno × Info
  | [], s => (none, s)
  | bud :: rest, s =>
    match returnLeb bud.lnum with
    | some err => (some err, s)
    | none =>
      releaseOld returnLeb rest
        { s with
          oldBuds := rest
          returned := s.returned ++ [bud.id]
          freed := s.freed ++ [bud.id] }

/-- What fails in `ubifs_log_post_commit`: `unmap` is the error of a log LEB that cannot be
    unmapped. -/
structure PostEnv where
  returnLeb : Nat → Option Errno
  unmap : Option Errno

/-- The log LEBs are unmapped from the old tail on; the log head does not matter to that. -/
def ubifsLogPostCommit (env : PostEnv) (oldLtailLnum : Nat) : Option Errno × Info :=
  match releaseOld env.returnLeb s.oldBuds s with
  | (some err, s) => (some err, s)
  | (none, s) => (if oldLtailLnum = s.ltailLnum then none else env.unmap, s)

/-- `do_commit` at `out` -/
def commitFailed : Info := { s with broken := true, roError := true }

end Info

/-- What the rest of the file system calls. -/
inductive Call
  /-- `add_replay_bud` -/
  | replayBud (lnum start jhead : Nat)
  /-- `set_bud_lprops` points a head to the end of a bud -/
  | replaySeek (jhead lnum offs : Nat)
  | replayEnd
  /-- `reserve_space` and `switch_gc_head`: if the bud is added, then its head is pointed to it -/
  | reserve (env : Info.AddEnv) (jhead lnum offs : Nat)
  /-- a write-buffer is written out -/
  | write (jhead len : Nat)
  | startCommit (env : Info.StartEnv)
  | endCommit
  | postCommit (env : Info.PostEnv)
  /-- a commit fails in another part of it -/
  | abortCommit

namespace Info

/-- `ubifs_wbuf_seek_nolock` -/
def seek (s : Info) (jhead lnum offs : Nat) : Info :=
  { s with wbufs := Function.update s.wbufs jhead ⟨some lnum, offs⟩ }

/-- There are no writes before the replay has ended, and `do_commit` makes its calls in this order. -/
def step (g : Geometry) (s : Info) : Call → Option Info
  | .replayBud lnum start jhead =>
    if s.replaying then some (s.ubifsAddBud g lnum start jhead) else none
  | .replaySeek jhead lnum offs => if s.replaying then some (s.seek jhead lnum offs) else none
  | .replayEnd =>
    if s.replaying then some { s with replaying := false, replayed := s.budBytes } else none
  | .reserve env jhead lnum offs =>
    if s.replaying then none
    else match s.ubifsAddBudToLog g env jhead lnum offs with
      | (.error _, s) => some s
      | (.ok (), s) => some (s.seek jhead lnum offs)
  | .write jhead len =>
    if s.replaying then none
    else
      let wbuf := s.wbufs jhead
      some { s with wbufs := Function.update s.wbufs jhead ⟨wbuf.lnum, wbuf.offs + len⟩ }
  | .startCommit env =>
    if s.replaying ∨ s.broken ∨ s.stage ≠ .resting then none
    else match s.ubifsLogStartCommit g env with
      | (.error _, s) => some s.commitFailed
      | (.ok tail, s) => some { s with stage := .started tail }
  | .endCommit =>
    if s.broken then none
    else match s.stage with
      | .started tail => some { s.ubifsLogEndCommit g tail with stage := .ended s.ltailLnum }
      | _ => none
  | .postCommit env =>
    if s.broken then none
    else match s.stage with
      | .ended tail =>
        match s.ubifsLogPostCommit env tail with
        | (some _, s) => some s.commitFailed
        | (none, s) => some { s with stage := .resting }
      | _ => none
  | .abortCommit => if s.stage = .resting then none else some s.commitFailed

/-- Buds are inside of their LEBs, and no LEB is added twice.  Heads are pointed into buds, and write
    inside of their LEBs. -/
def Fits (g : Geometry) (s : Info) : Call → Prop
  | .replayBud lnum start _ => start ≤ g.lebSize ∧ lnum ∉ s.buds.map Bud.lnum
  | .replaySeek jhead lnum offs => offs ≤ g.lebSize ∧
      ∃ bud ∈ s.buds, bud.jhead = jhead ∧ bud.lnum = lnum ∧ bud.start ≤ offs
  | .reserve _ _ lnum offs => offs ≤ g.lebSize ∧ lnum ∉ s.buds.map Bud.lnum
  | .write jhead len => (s.wbufs jhead).offs + len ≤ g.lebSize
  | _ => True

instance decidableFits (g : Geometry) (s : Info) (call : Call) : Decidable (s.Fits g call) :=
  match call with
  | .replayBud .. => inferInstanceAs (Decidable (_ ∧ _))
  | .replaySeek .. => inferInstanceAs (Decidable (_ ∧ _))
  | .reserve .. => inferInstanceAs (Decidable (_ ∧ _))
  | .write .. => inferInstanceAs (Decidable (_ ≤ _))
  | .replayEnd | .startCommit _ | .endCommit | .postCommit _ | .abortCommit =>
    inferInstanceAs (Decidable True)

/-- A mount, before the log is replayed. -/
structure Mounting (s : Info) : Prop where
  replaying : s.replaying = true
  stage : s.stage = .resting
  buds : s.buds = []
  oldBuds : s.oldBuds = []
  heads : ∀ jhead, s.heads jhead = []
  wbufs : ∀ jhead, s.wbufs jhead = ⟨none, 0⟩
  budBytes : s.budBytes = 0
  nextId : s.nextId = 0
  ghosts : s.taken = [] ∧ s.returned = [] ∧ s.freed = []

/-- What the buds in the tree take. -/
def treeBytes (g : Geometry) (buds : List Bud) : Int :=
  (buds.map fun bud => (g.lebSize : Int) - bud.start).sum

/-- The bytes that are still counted between the start and the end of a commit. -/
def pending (s : Info) : Int :=
  match s.stage with
  | .started _ => s.cmtBudBytes
  | _ => 0

/-- Whatever is not taken out of the tree is counted, and the LEBs of what is taken out are returned
    once. -/
structure Accounted (g : Geometry) (s : Info) : Prop where
  bytes : s.budBytes = treeBytes g s.buds + s.pending
  bound : s.replaying = false → s.budBytes ≤ max g.maxBudBytes s.replayed
  lists : ∀ bud ∈ s.buds, ∀ jhead,
    (s.heads jhead).count bud.id = if jhead = bud.jhead then 1 else 0
  taken : ∀ id ∈ s.taken, id ∉ s.buds.map Bud.id ∧
    (s.oldBuds.map Bud.id).count id + s.freed.count id = 1 ∧ s.returned.count id = s.freed.count id
  rest : s.stage = .resting → s.oldBuds = []

end Info

end Ubifs.Buds
