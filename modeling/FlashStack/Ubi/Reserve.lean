/-
  What the PEBs of a device are reserved for (`build.c`, `vtbl.c`, `wl.c`, `eba.c`, `vmt.c`).

  Attaching a device and creating, removing and re-sizing its volumes move PEBs between
  `avail_pebs`, the volumes and the reserve for bad PEBs.  `ubi->volumes_lock` is taken for each of
  these moves and given back in between; then erase workers may find that a PEB went bad, and take it
  from the reserve.  `unlocked` stands where the lock is free: the device is observed there, and the
  workers run.  A call that can fail asks `UbiDev.faults` whether it does.
-/
import FlashStack.Lib.Prog
import FlashStack.Ubi.Vtbl

namespace Ubi

open Lib Lib.Prog

/-- The numbers of PEBs that are always reserved, as in `wl.h`, `ubi.h` and `Kconfig`. -/
def wlReservedPebs : Int := 1
def ebaReservedPebs : Int := 1
def minReservedPebs : Int := 2

/-- The errors of these functions that a caller tells apart. -/
inductive Errno
  | enomem
  | enospc
  | einval
  | eexist
  | enfile
  | other
deriving DecidableEq

/-- The types of a volume. -/
inductive VolType
  | dynamic
  | static
deriving DecidableEq

/-- What scanning found: how many PEBs there are of each kind. -/
structure ScanInfo where
  pebCount : Nat
  badPebCount : Nat
  corrPebCount : Nat
  alienPebCount : Nat
  emptyPebCount : Nat
  maybeBadPebCount : Nat
  free : Nat
  erase : Nat
  /-- the PEBs of volumes -/
  used : Nat
  /-- how many LEBs a static volume has data in -/
  usedEbs : Nat → Int
  total : badPebCount + corrPebCount + alienPebCount + free + erase + used = pebCount

/-- What these functions use of `struct ubi_volume`. -/
structure Volume where
  reservedPebs : Int
  volType : VolType
  usedEbs : Int
  name : List UInt8

/-- A step of an erase worker whose PEB went bad. -/
inductive EraseStep
  | reserve
  | markBad

/-- What the PEBs of a device are counted by. -/
structure Pebs where
  /-- `CONFIG_MTD_UBI_BEB_RESERVE`, in percent -/
  bebReserve : Nat
  goodPebCount : Int
  badPebCount : Int
  corrPebCount : Int
  availPebs : Int
  rsvdPebs : Int
  bebRsvdPebs : Int
  bebRsvdLevel : Int
  /-- the PEBs that the wear-levelling sub-system has entries for -/
  managed : Int
  /-- the workers that are about to mark their PEB bad -/
  marking : Nat

namespace Pebs

variable (s : Pebs)

/-- PEBs are no longer available. -/
def reserve (pebs : Int) : Pebs :=
  { s with availPebs := s.availPebs - pebs, rsvdPebs := s.rsvdPebs + pebs }

/-- Bring the reserve for bad PEBs up by `need`, as far as there are available PEBs. -/
def topUp (need : Int) : Pebs :=
  if need > 0 then
    let need := if s.availPebs ≥ need then need else s.availPebs
    { s with
      availPebs := s.availPebs - need
      rsvdPebs := s.rsvdPebs + need
      bebRsvdPebs := s.bebRsvdPebs + need }
  else s

/-- `ubi_calculate_reserved` -/
def calculateReserved : Pebs :=
  let level := s.goodPebCount.tdiv 100 * s.bebReserve
  { s with bebRsvdLevel := if level < minReservedPebs then minReservedPebs else level }

/-- The two sections of `erase_worker` under the lock.  Without a reserve the PEB is not marked. -/
def eraseStep : EraseStep → Pebs
  | .reserve =>
    let s := s.topUp (s.bebRsvdLevel - s.bebRsvdPebs + 1)
    if s.bebRsvdPebs = 0 then s else { s with marking := s.marking + 1 }
  | .markBad =>
    if s.marking = 0 then s
    else calculateReserved
      { s with
        marking := s.marking - 1
        bebRsvdPebs := s.bebRsvdPebs - 1
        badPebCount := s.badPebCount + 1
        goodPebCount := s.goodPebCount - 1
        managed := s.managed - 1 }

end Pebs

/-- `struct ubi_device` as far as PEBs are counted, and what will happen to it. -/
structure UbiDev extends Pebs where
  /-- does the `n`-th call that may fail do so -/
  faults : Nat → Option Errno
  calls : Nat
  /-- what erase workers do when the lock is free for the `n`-th time -/
  background : Nat → List EraseStep
  unlocks : Nat
  badAllowed : Bool
  volumes : List (Option Volume)
  autoresizeVolId : Option Nat
  /-- history: the PEBs that a re-size has given back of a volume that still has the old
      `reserved_pebs`; no code reads it -/
  handedBack : Int

/-- A function of the UBI code, which is observed wherever it gives the lock back. -/
abbrev U := Prog UbiDev UbiDev Errno

/-- The device before it is attached. -/
def UbiDev.new (faults : Nat → Option Errno) (background : Nat → List EraseStep)
    (bebReserve : Nat) (badAllowed : Bool) : UbiDev :=
  ⟨⟨bebReserve, 0, 0, 0, 0, 0, 0, 0, 0, 0⟩, faults, 0, background, 0, badAllowed, [], none, 0⟩

namespace UbiDev

/-- The volume of a slot. -/
def volume (s : UbiDev) (volId : Nat) : Option Volume := (s.volumes[volId]?).join

/-- The slot of a volume is set, or emptied. -/
def setVolume (s : UbiDev) (volId : Nat) (vol : Option Volume) : UbiDev :=
  { s with volumes := s.volumes.set volId vol }

/-- PEBs are no longer available. -/
def reserve (s : UbiDev) (pebs : Int) : UbiDev := { s with toPebs := s.toPebs.reserve pebs }

/-- The reserve for bad PEBs is brought up by `need`, as far as possible. -/
def topUp (s : UbiDev) (need : Int) : UbiDev := { s with toPebs := s.toPebs.topUp need }

/-- What an erase worker does under the lock. -/
def eraseStep (s : UbiDev) (e : EraseStep) : UbiDev := { s with toPebs := s.toPebs.eraseStep e }

/-- History: `pebs` more (or less) are counted both as given back and as the volume's. -/
def handBack (s : UbiDev) (pebs : Int) : UbiDev := { s with handedBack := s.handedBack + pebs }

end UbiDev

/-- Anything that may return an error. -/
def mayFail : U Unit := do
  let s ← getState
  modifyState fun s => { s with calls := s.calls + 1 }
  match s.faults s.calls with
  | none => pure ()
  | some e => stop e

/-- Erase workers run; the device is observed after each step. -/
def eraseSteps : List EraseStep → U Unit
  | [] => pure ()
  | e :: es => do
    modifyState fun s => s.eraseStep e
    let s ← getState
    emit s
    eraseSteps es

/-- `ubi->volumes_lock` is free. -/
def unlocked : U Unit := do
  let s ← getState
  emit s
  modifyState fun s => { s with unlocks := s.unlocks + 1 }
  eraseSteps (s.background s.unlocks)

/-! ## Attaching -/

/-- `struct ubi_mkvol_req` -/
structure MkvolReq where
  volId : Option Nat
  bytes : Nat
  alignment : Nat
  volType : VolType
  name : List UInt8

/-- How many PEBs a request asks for, as an `int`. -/
def MkvolReq.pebs (c : UbiInfo) (req : MkvolReq) : Int :=
  let usableLebSize := c.lebSize - c.lebSize % req.alignment
  toInt (UInt32.ofNat ((req.bytes + usableLebSize - 1) / usableLebSize))

/-- The slot for a new volume. -/
def UbiDev.vacant (s : UbiDev) (c : UbiInfo) (req : MkvolReq) : Option Nat :=
  match req.volId with
  | some volId => some volId
  | none => (List.range c.vtblSlots).find? fun i => (s.volume i).isNone

/-- `ubi_create_volume`, once it is known how many PEBs the volume needs. -/
def createVolume (c : UbiInfo) (req : MkvolReq) (pebs : Int) : U Unit := do
  mayFail
  let s ← getState
  match s.vacant c req with
  | none => stop .enfile
  | some volId => do
    if (s.volume volId).isSome then stop .eexist
    if (s.volumes.take c.vtblSlots).any fun v => v.any (·.name == req.name) then stop .eexist
    if pebs > s.availPebs then stop .enospc
    modifyState fun s => s.reserve pebs
    unlocked
    -- flushing, registering, and changing the volume table
    match ← attempt (fun _ => true) mayFail with
    | .ok _ => do
      let usedEbs := if req.volType = .dynamic then pebs else 0
      modifyState fun s => s.setVolume volId (some ⟨pebs, req.volType, usedEbs, req.name⟩)
      unlocked
    | .error e => do
      modifyState fun s => s.reserve (-pebs)
      unlocked
      stop e

/-- `ubi_create_volume` -/
def ubiCreateVolume (c : UbiInfo) (req : MkvolReq) : U Unit := createVolume c req (req.pebs c)

/-- `ubi_remove_volume` -/
def ubiRemoveVolume (volId : Nat) : U Unit := do
  mayFail
  let s ← getState
  match s.volume volId with
  | none => stop .einval
  | some vol => do
    modifyState fun s => s.setVolume volId none
    unlocked
    -- changing the volume table and unmapping
    match ← attempt (fun _ => true) mayFail with
    | .ok _ => do
      modifyState fun s => s.reserve (-vol.reservedPebs)
      modifyState fun s => s.topUp (s.bebRsvdLevel - s.bebRsvdPebs)
      unlocked
    | .error e => do
      modifyState fun s => s.setVolume volId (some vol)
      unlocked
      stop e

/-- `ubi_resize_volume`: a volume that grows has its PEBs reserved before the volume table is changed,
    one that shrinks gives them back afterwards.  `vol->reserved_pebs` is set without the lock: until
    then the PEBs that were given back are counted twice. -/
def ubiResizeVolume (volId : Nat) (reservedPebs : Int) : U Unit := do
  mayFail
  let s ← getState
  match s.volume volId with
  | none => stop .einval
  | some vol => do
    if vol.volType = .static ∧ reservedPebs < vol.usedEbs then stop .einval
    if reservedPebs = vol.reservedPebs then pure ()
    else do
      mayFail
      let pebs := reservedPebs - vol.reservedPebs
      if pebs > 0 then do
        let s ← getState
        if pebs > s.availPebs then stop .enospc
        modifyState fun s => s.reserve pebs
      unlocked
      -- changing the volume table and unmapping
      match ← attempt (fun _ => true) mayFail with
      | .ok _ => do
        if pebs < 0 then do
          modifyState fun s => s.reserve pebs
          modifyState fun s => s.topUp (s.bebRsvdLevel - s.bebRsvdPebs)
          modifyState fun s => s.handBack (-pebs)
          unlocked
          modifyState fun s => s.handBack pebs
        let usedEbs := if vol.volType = .dynamic then reservedPebs else vol.usedEbs
        modifyState fun s => s.setVolume volId
          (some { vol with reservedPebs := reservedPebs, usedEbs := usedEbs })
        unlocked
      | .error e => do
        if pebs > 0 then modifyState fun s => s.reserve (-pebs)
        unlocked
        stop e

/-- What a user may ask for. -/
inductive VolOp
  | create (req : MkvolReq)
  | remove (volId : Nat)
  | resize (volId : Nat) (reservedPebs : Int)

/-- The function that does it. -/
def VolOp.run (c : UbiInfo) : VolOp → U Unit
  | create req => ubiCreateVolume c req
  | remove volId => ubiRemoveVolume volId
  | resize volId reservedPebs => ubiResizeVolume volId reservedPebs

/-- One request after the other, whether they succeed or not. -/
def runOps (c : UbiInfo) : List VolOp → U Unit
  | [] => pure ()
  | op :: ops => do
    let _ ← attempt (fun _ => true) (op.run c)
    runOps c ops

end Ubi
