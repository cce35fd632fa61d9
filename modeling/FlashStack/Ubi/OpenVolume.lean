/-
  Open volumes and the modes they are open in (`kapi.c`, `cdev.c`).

  A descriptor is opened by the kernel or belongs to a file of the volume's character device.  The
  ioctls that start an update or a change of an LEB turn the descriptor of their file into an exclusive
  one, and the write that brings the last of the data turns it back.  What flash operations and memory
  answer is part of each call.
-/
import FlashStack.Lib.Reach
import Mathlib

open Lib

namespace Ubi.Cdev

/-- The errors of opening, closing and changing. -/
inductive Errno
  | eperm | enoent | eio | enomem | efault | ebusy | enodev | einval | erofs | enotty
deriving DecidableEq

/-- `UBI_READONLY`, `UBI_READWRITE` and `UBI_EXCLUSIVE`. -/
inductive Mode
  | readonly
  | readwrite
  | exclusive
deriving DecidableEq

/-- The mode argument of `ubi_open_volume`. -/
def Mode.ofInt (mode : Int) : Option Mode :=
  if mode = 1 then some .readonly
  else if mode = 2 then some .readwrite
  else if mode = 3 then some .exclusive
  else none

/-- What opening uses of `struct ubi_volume`. -/
structure Volume where
  readers : Int
  writers : Int
  exclusive : Int
  refCount : Int
  reservedPebs : Int
  usableLebSize : Int
  dataPad : Int
  /-- `vol_type == UBI_STATIC_VOLUME` -/
  static : Bool
  directWrites : Bool
  checked : Bool
  corrupted : Bool
  updating : Bool
  changingLeb : Bool

/-- What opening uses of `struct ubi_device`, with its volumes. -/
structure Device where
  vtblSlots : Nat
  lebSize : Int
  refCount : Int
  volumes : Nat → Option Volume

/-- Who has opened a descriptor. -/
inductive Opener
  | kernel
  /-- a file that may be written to if it has been opened so -/
  | file (fmodeWrite : Bool)
deriving DecidableEq

/-- `struct ubi_volume_desc` -/
structure VolumeDesc where
  ubiNum : Nat
  volId : Nat
  mode : Mode
  opener : Opener
deriving DecidableEq

/-- The devices, and the open descriptors in no particular order. -/
structure State where
  devices : Nat → Option Device
  descs : List VolumeDesc

/-- `UBI_MAX_DEVICES` -/
def ubiMaxDevices : Nat := 32

/-! ## Counting users -/

namespace Volume

variable (vol : Volume)

/-- The `switch` of `ubi_open_volume`, `none` for `-EBUSY`, and the reference. -/
def open_ : Mode → Option Volume
  | .readonly =>
    if vol.exclusive ≠ 0 then none
    else some { vol with readers := vol.readers + 1, refCount := vol.refCount + 1 }
  | .readwrite =>
    if vol.exclusive ≠ 0 ∨ 0 < vol.writers then none
    else some { vol with writers := vol.writers + 1, refCount := vol.refCount + 1 }
  | .exclusive =>
    if vol.exclusive ≠ 0 ∨ vol.writers ≠ 0 ∨ vol.readers ≠ 0 then none
    else some { vol with exclusive := 1, refCount := vol.refCount + 1 }

/-- What `ubi_close_volume` does to the volume. -/
def close : Mode → Volume
  | .readonly => { vol with readers := vol.readers - 1, refCount := vol.refCount - 1 }
  | .readwrite => { vol with writers := vol.writers - 1, refCount := vol.refCount - 1 }
  | .exclusive => { vol with exclusive := 0, refCount := vol.refCount - 1 }

/-- `get_exclusive`, which makes the mode of the descriptor `.exclusive`; `none` for `-EBUSY`. -/
def getExclusive : Option Volume :=
  if 1 < vol.readers + vol.writers + vol.exclusive then none
  else some { vol with readers := 0, writers := 0, exclusive := 1 }

/-- `revoke_exclusive`, which makes the mode of the descriptor `mode`. -/
def revokeExclusive (mode : Mode) : Volume :=
  let vol := { vol with exclusive := 0 }
  match mode with
  | .readonly => { vol with readers := 1 }
  | .readwrite => { vol with writers := 1 }
  | .exclusive => { vol with exclusive := 1 }

end Volume

namespace State

variable (s : State)

/-- Something is done to a device, if it is there. -/
def mapDevice (ubiNum : Nat) (f : Device → Device) : State :=
  { s with devices := Function.update s.devices ubiNum ((s.devices ubiNum).map f) }

/-- A volume of a device changes. -/
def setVolume (ubiNum volId : Nat) (vol : Volume) : State :=
  s.mapDevice ubiNum fun ubi => { ubi with volumes := Function.update ubi.volumes volId (some vol) }

/-- `ubi->ref_count += n` -/
def addRef (ubiNum : Nat) (n : Int) : State :=
  s.mapDevice ubiNum fun ubi => { ubi with refCount := ubi.refCount + n }

/-- A volume, if its device has it. -/
def volume (ubiNum volId : Nat) : Option Volume := (s.devices ubiNum).bind (·.volumes volId)

/-! ## Opening and closing -/

/-- What `ubi_open_volume` meets: no memory, an unloading module, an answer of `ubi_check_volume`. -/
structure OpenEnv where
  noMem : Bool
  unloading : Bool
  check : Except Errno Bool

/-- `ubi_close_volume` of the descriptor, which is no longer among the open ones. -/
def ubiCloseVolume (desc : VolumeDesc) : State :=
  match s.volume desc.ubiNum desc.volId with
  | none => s
  | some vol => (s.setVolume desc.ubiNum desc.volId (vol.close desc.mode)).addRef desc.ubiNum (-1)

/-- A volume that has not been checked yet is; it is closed again if that fails. -/
def checkOpened (env : OpenEnv) (desc : VolumeDesc) (vol : Volume) : Except Errno Unit × State :=
  if vol.checked then (.ok (), { s with descs := desc :: s.descs })
  else
    match env.check with
    | .error err => (.error err, s.ubiCloseVolume desc)
    | .ok corrupted =>
      let vol := { vol with corrupted := vol.corrupted || corrupted, checked := true }
      let s := s.setVolume desc.ubiNum desc.volId vol
      (.ok (), { s with descs := desc :: s.descs })

/-- `ubi_open_volume`: the mode may be a number that is none. -/
def ubiOpenVolume (env : OpenEnv) (opener : Opener) (ubiNum volId mode : Int) :
    Except Errno Unit × State :=
  if ubiNum < 0 ∨ ubiMaxDevices ≤ ubiNum then (.error .einval, s)
  else
    match Mode.ofInt mode with
    | none => (.error .einval, s)
    | some mode =>
      match s.devices ubiNum.toNat with
      | none => (.error .enodev, s)
      | some ubi =>
        -- the reference to the device is given back where the opening fails
        if volId < 0 ∨ ubi.vtblSlots ≤ volId then (.error .einval, s)
        else if env.noMem then (.error .enomem, s)
        else if env.unloading then (.error .enodev, s)
        else
          match ubi.volumes volId.toNat with
          | none => (.error .enodev, s)
          | some vol =>
            match vol.open_ mode with
            | none => (.error .ebusy, s)
            | some vol =>
              let desc := ⟨ubiNum.toNat, volId.toNat, mode, opener⟩
              ((s.addRef desc.ubiNum 1).setVolume desc.ubiNum desc.volId vol).checkOpened env desc vol

/-- `vol_cdev_open` -/
def volCdevOpen (env : OpenEnv) (fmodeWrite : Bool) (ubiNum volId : Int) : Except Errno Unit × State :=
  s.ubiOpenVolume env (.file fmodeWrite) ubiNum volId (if fmodeWrite then 2 else 1)

/-- `vol_cdev_release` -/
def volCdevRelease (desc : VolumeDesc) : State :=
  match s.volume desc.ubiNum desc.volId with
  | none => s
  | some vol =>
    let vol :=
      if vol.updating then { vol with updating := false }
      else if vol.changingLeb then { vol with changingLeb := false }
      else vol
    (s.setVolume desc.ubiNum desc.volId vol).ubiCloseVolume desc

/-! ## Writing and ioctls -/

/-- Number `i` of the descriptors and its volume get new values. -/
def put (i : Nat) (desc : VolumeDesc) (vol : Volume) : State :=
  { s.setVolume desc.ubiNum desc.volId vol with descs := s.descs.set i desc }

/-- What a write meets: the answer of `ubi_more_update_data` or `ubi_more_leb_change_data`, whether the
    operation is finished with it, and the answer of `ubi_check_volume`. -/
structure WriteEnv where
  more : Except Errno Nat
  finished : Bool
  check : Except Errno Bool

/-- `vol_cdev_write`; writing directly (`vol_cdev_direct_write`) changes nothing that is modelled. -/
def volCdevWrite (env : WriteEnv) (count i : Nat) (desc : VolumeDesc) (vol : Volume) :
    Except Errno Nat × State :=
  if !vol.updating && !vol.changingLeb then (.ok count, s)
  else
    let vol :=
      if vol.updating then { vol with updating := vol.updating && !env.finished }
      else { vol with changingLeb := vol.changingLeb && !env.finished }
    match env.more with
    | .error err => (.error err, s.put i desc vol)
    | .ok n =>
      if n = 0 then (.ok count, s.put i desc vol)
      else if vol.changingLeb then
        (.ok n, s.put i { desc with mode := .readwrite } (vol.revokeExclusive .readwrite))
      else
        match env.check with
        | .error err => (.error err, s.put i desc vol)
        | .ok corrupted =>
          let vol := { vol with corrupted := vol.corrupted || corrupted, checked := true }
          (.ok n, s.put i { desc with mode := .readwrite } (vol.revokeExclusive .readwrite))

/-- What `ubi_start_update` meets: an error before the update has begun to take data. -/
def ubiStartUpdate (err : Option Errno) (bytes : Int) (vol : Volume) : Option Errno × Volume :=
  (err, { vol with updating := err.isSome || bytes ≠ 0 })

/-- `ubi_start_leb_change` -/
def ubiStartLebChange (err : Option Errno) (bytes : Int) (vol : Volume) : Option Errno × Volume :=
  (err, if bytes = 0 then vol else { vol with changingLeb := true })

/-- What both ioctls do with a valid request: `start` is run with exclusive access, which is given back
    at once if there is no data to come. -/
def startExclusive (start : Volume → Option Errno × Volume) (bytes : Int) (i : Nat) (desc : VolumeDesc)
    (vol : Volume) : Except Errno Unit × State :=
  match vol.getExclusive with
  | none => (.error .ebusy, s)
  | some vol =>
    let (err, vol) := start vol
    let res := err.elim (.ok ()) .error
    if bytes = 0 then
      (res, s.put i { desc with mode := .readwrite } (vol.revokeExclusive .readwrite))
    else (res, s.put i { desc with mode := .exclusive } vol)

/-- `UBI_IOCVOLUP` -/
def iocVolup (capable fault : Bool) (err : Option Errno) (bytes : Int) (i : Nat) (desc : VolumeDesc)
    (ubi : Device) (vol : Volume) : Except Errno Unit × State :=
  if !capable then (.error .eperm, s)
  else if fault then (.error .efault, s)
  else if desc.mode = .readonly then (.error .erofs, s)
  else if bytes < 0 ∨ vol.reservedPebs * ubi.lebSize - vol.dataPad < bytes then (.error .einval, s)
  else s.startExclusive (ubiStartUpdate err bytes) bytes i desc vol

/-- `struct ubi_leb_change_req` -/
structure LebChangeReq where
  lnum : Int
  bytes : Int
  dtype : Int

/-- `UBI_IOCEBCH` -/
def iocEbch (fault : Bool) (err : Option Errno) (req : LebChangeReq) (i : Nat) (desc : VolumeDesc)
    (vol : Volume) : Except Errno Unit × State :=
  if fault then (.error .efault, s)
  else if desc.mode = .readonly ∨ vol.static then (.error .erofs, s)
  else if req.lnum < 0 ∨ vol.reservedPebs ≤ req.lnum ∨ req.bytes < 0 ∨ vol.usableLebSize ≤ req.lnum then
    (.error .einval, s)
  else if req.dtype ≠ 1 ∧ req.dtype ≠ 2 ∧ req.dtype ≠ 3 then (.error .einval, s)
  else s.startExclusive (ubiStartLebChange err req.bytes) req.bytes i desc vol

/-- `UBI_IOCSETVOLPROP`; the one property is `UBI_VOL_PROP_DIRECT_WRITE`. -/
def iocSetVolProp (fault : Bool) (property : Nat) (value : Int) (i : Nat) (desc : VolumeDesc)
    (vol : Volume) : Except Errno Unit × State :=
  if fault then (.error .efault, s)
  else if property = 1 then (.ok (), s.put i desc { vol with directWrites := value ≠ 0 })
  else (.error .einval, s)

end State

/-! ## Runs -/

/-- The calls; a descriptor is named by its place among the open ones. -/
inductive Call
  | openVolume (env : State.OpenEnv) (ubiNum volId mode : Int)
  | closeVolume (i : Nat)
  | cdevOpen (env : State.OpenEnv) (fmodeWrite : Bool) (ubiNum volId : Int)
  | cdevRelease (i : Nat)
  | cdevWrite (env : State.WriteEnv) (count i : Nat)
  | volup (capable fault : Bool) (err : Option Errno) (bytes : Int) (i : Nat)
  | ebch (fault : Bool) (err : Option Errno) (req : State.LebChangeReq) (i : Nat)
  | setVolProp (fault : Bool) (property : Nat) (value : Int) (i : Nat)

namespace State

variable (s : State)

/-- A call on an open descriptor of the kernel or of a file. -/
def onDesc {α : Type} (i : Nat) (file : Bool) (f : VolumeDesc → Device → Volume → α) : Option α := do
  let desc ← s.descs[i]?
  if (desc.opener ≠ .kernel) ↔ file then
    let ubi ← s.devices desc.ubiNum
    let vol ← ubi.volumes desc.volId
    return f desc ubi vol
  else none

/-- The state after a call; there is none if there is no such descriptor, or if the file has not been
    opened for writing, in which case the write does not get to the driver. -/
def step : Call → Option State
  | .openVolume env ubiNum volId mode => some (s.ubiOpenVolume env .kernel ubiNum volId mode).2
  | .closeVolume i => s.onDesc i false fun desc _ _ =>
      ({ s with descs := s.descs.eraseIdx i } : State).ubiCloseVolume desc
  | .cdevOpen env fmodeWrite ubiNum volId => some (s.volCdevOpen env fmodeWrite ubiNum volId).2
  | .cdevRelease i => s.onDesc i true fun desc _ _ =>
      ({ s with descs := s.descs.eraseIdx i } : State).volCdevRelease desc
  | .cdevWrite env count i =>
    if (s.descs[i]?.map VolumeDesc.opener) = some (.file true) then
      s.onDesc i true fun desc _ vol => (s.volCdevWrite env count i desc vol).2
    else none
  | .volup capable fault err bytes i => s.onDesc i true fun desc ubi vol =>
      (s.iocVolup capable fault err bytes i desc ubi vol).2
  | .ebch fault err req i => s.onDesc i true fun desc _ vol => (s.iocEbch fault err req i desc vol).2
  | .setVolProp fault property value i => s.onDesc i true fun desc _ vol =>
      (s.iocSetVolProp fault property value i desc vol).2

/-- Nothing is open. -/
structure Closed : Prop where
  descs : s.descs = []
  devices : ∀ ubiNum ubi, s.devices ubiNum = some ubi → ubi.refCount = 0
  volumes : ∀ ubiNum volId vol, s.volume ubiNum volId = some vol →
    vol.readers = 0 ∧ vol.writers = 0 ∧ vol.exclusive = 0 ∧ vol.refCount = 0

end State

end Ubi.Cdev
