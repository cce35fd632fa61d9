/-
  Creating, removing and re-sizing a volume (`vmt.c`, `vtbl.c`), step by step, when a step may fail.

  The table of a volume's LEBs (`eba_tbl`) is memory at an address, and is freed and replaced as that.
  Erase workers may run while PEBs are waited for; what they do to the counters of the device is in
  `Pebs.eraseStep`.

  The device has the records of the volume table, the volumes by their slots, the memory, and the
  counters of PEBs (`Pebs`).  Each function takes what its calls come to as an argument
  (`CreateEnv`, `RemoveEnv`, `ResizeEnv`, `CopyEnv`): memory, flash writes, registering a device,
  erase workers.  The error paths free what the source frees and undo what it undoes, in the same
  order, so that what is left after an error is what the source leaves.
-/
import FlashStack.Ubi.LayoutVolume
import FlashStack.Ubi.Reserve

namespace Ubi.Vmt

/-- The codes of `errno.h`. -/
def enomem : Int := 12
def ebusy : Int := 16
def eexist : Int := 17
def einval : Int := 22
def enfile : Int := 23
def enospc : Int := 28
def erofs : Int := 30

/-- `UBI_LEB_UNMAPPED` -/
def ubiLebUnmapped : Int := -1

/-- `struct ubi_volume`: its users, and the address of its LEB table. -/
structure VolObj extends Volume where
  refCount : Nat
  ebaTbl : Nat

/-- `struct ubi_device`, its memory, and the copies of its volume table. -/
structure Dev extends Pebs where
  roMode : Bool
  vtbl : Nat → VtblRecord
  volumes : Nat → Option VolObj
  /-- The LEB tables that are allocated. -/
  heap : Nat → Option (List Int)
  volCount : Nat
  /-- The LEBs of the layout volume. -/
  layout : Nat → Option (Nat → VtblRecord)

namespace Dev

variable (s : Dev)

/-- PEBs are no longer available. -/
def reserve (pebs : Int) : Dev := { s with toPebs := s.toPebs.reserve pebs }

/-- The reserve for bad PEBs is brought up to its level, as far as possible. -/
def topUp : Dev := { s with toPebs := s.toPebs.topUp (s.bebRsvdLevel - s.bebRsvdPebs) }

/-- What erase workers do meanwhile. -/
def eraseSteps (es : List EraseStep) : Dev :=
  { s with toPebs := es.foldl Pebs.eraseStep s.toPebs }

/-- A LEB table is allocated at address `a`, or set. -/
def kmalloc (a : Nat) (mapping : List Int) : Dev :=
  { s with heap := Function.update s.heap a (some mapping) }

/-- The LEB table at address `a` is freed. -/
def kfree (a : Nat) : Dev := { s with heap := Function.update s.heap a none }

/-- `ubi->volumes[vol_id]` is set. -/
def setVolume (volId : Nat) (vol : Option VolObj) : Dev :=
  { s with volumes := Function.update s.volumes volId vol }

/-- What a pointer to a LEB table leads to. -/
def mapping (a : Nat) : List Int := (s.heap a).getD []

end Dev

/-! ## The volume table -/

/-- One LEB of the layout volume: what `ubi_eba_unmap_leb` and `ubi_eba_write_leb` return, what erase
workers do, and what is left if something fails. -/
structure CopyEnv where
  unmap : Int
  write : Int
  workers : List EraseStep
  left : Option (Nat → VtblRecord)
  ro : Bool

/-- The table is written to LEB `i` of the layout volume. -/
def writeCopy (env : CopyEnv) (i : Nat) (s : Dev) : Int × Dev :=
  let failed := { s with
    layout := Function.update s.layout i env.left
    roMode := s.roMode || env.ro }
  if env.unmap ≠ 0 then (env.unmap, failed)
  else if env.write ≠ 0 then (env.write, failed.eraseSteps env.workers)
  else (0, { s with layout := Function.update s.layout i (some s.vtbl) }.eraseSteps env.workers)

/-- `n` LEBs, from `i` on. -/
def writeCopies (env : Nat → CopyEnv) : Nat → Nat → Dev → Int × Dev
  | 0, _, s => (0, s)
  | n + 1, i, s =>
    let r := writeCopy (env i) i s
    if r.1 ≠ 0 then r else writeCopies env n (i + 1) r.2

/-- `ubi_change_vtbl_record`: the record is in memory before anything is written, and stays there.
    -/
def ubiChangeVtblRecord (c : UbiInfo) (env : Nat → CopyEnv) (s : Dev) (idx : Nat)
    (vtblRec : Option VtblFields) : Int × Dev :=
  let vtblRec := vtblRec.elim emptyVtblRecord c.record
  writeCopies env ubiLayoutVolumeEbs 0 { s with vtbl := Function.update s.vtbl idx vtblRec }

/-! ## Unmapping -/

/-- What an operation returns and leaves, and whether it has unmapped a LEB of the volume. -/
structure Result where
  err : Int
  dev : Dev
  unmapped : Bool

/-- `leb_write_lock` and `ubi_wl_put_peb` -/
structure UnmapEnv where
  lock : Int
  put : Int

/-- `ubi_eba_unmap_leb` -/
def ubiEbaUnmapLeb (env : UnmapEnv) (s : Dev) (ebaTbl lnum : Nat) : Result :=
  if s.roMode then ⟨-erofs, s, false⟩
  else if env.lock ≠ 0 then ⟨env.lock, s, false⟩
  else
    let pnum := (s.mapping ebaTbl).getD lnum ubiLebUnmapped
    if pnum < 0 then ⟨0, s, false⟩
    else ⟨env.put, s.kmalloc ebaTbl ((s.mapping ebaTbl).set lnum ubiLebUnmapped), true⟩

/-- LEBs are unmapped one after the other, up to the first error. -/
def unmapLebs (env : Nat → UnmapEnv) (ebaTbl : Nat) : List Nat → Dev → Result
  | [], s => ⟨0, s, false⟩
  | lnum :: lnums, s =>
    let r := ubiEbaUnmapLeb (env lnum) s ebaTbl lnum
    if r.err ≠ 0 then r
    else
      let r' := unmapLebs env ebaTbl lnums r.dev
      { r' with unmapped := r.unmapped || r'.unmapped }

/-! ## Creating -/

/-- What the calls of `ubi_create_volume` return. -/
structure CreateEnv where
  allocVol : Bool
  flush : Int
  flushWorkers : List EraseStep
  allocEba : Option Nat
  cdevAdd : Int
  deviceRegister : Int
  volumeSysfsInit : Int
  copy : Nat → CopyEnv

/-- The slot for a new volume. -/
def vacant (c : UbiInfo) (s : Dev) (req : MkvolReq) : Option Nat :=
  match req.volId with
  | some volId => some volId
  | none => (List.range c.vtblSlots).find? fun i => (s.volumes i).isNone

/-- A volume of the table has this name. -/
def nameTaken (c : UbiInfo) (s : Dev) (req : MkvolReq) : Bool :=
  (List.range c.vtblSlots).any fun i => (s.volumes i).any (·.name == req.name)

/-- The record of a new volume. -/
def newRecord (c : UbiInfo) (req : MkvolReq) : VtblFields where
  reservedPebs := UInt32.ofInt (req.pebs c)
  alignment := UInt32.ofNat req.alignment
  dataPad := UInt32.ofNat (c.lebSize % req.alignment)
  volType := if req.volType = .dynamic then ubiVidDynamic else ubiVidStatic
  updMarker := 0
  nameLen := req.name.length
  name := req.name ++ List.replicate (ubiVolNameMax + 1 - req.name.length) 0
  flags := 0

/-- `ubi_create_volume`, with the PEBs reserved.  The release function of a device that has been
registered frees the LEB table. -/
def createReserved (c : UbiInfo) (env : CreateEnv) (s : Dev) (req : MkvolReq) (volId : Nat) :
    Int × Dev :=
  let pebs := req.pebs c
  let s := s.eraseSteps env.flushWorkers
  if env.flush ≠ 0 then (env.flush, s.reserve (-pebs))
  else
    match env.allocEba with
    | none => (-enomem, s.reserve (-pebs))
    | some a =>
      let s := s.kmalloc a (List.replicate pebs.toNat ubiLebUnmapped)
      if env.cdevAdd ≠ 0 then (env.cdevAdd, (s.kfree a).reserve (-pebs))
      else if env.deviceRegister ≠ 0 then (env.deviceRegister, (s.kfree a).reserve (-pebs))
      else if env.volumeSysfsInit ≠ 0 then (env.volumeSysfsInit, (s.kfree a).reserve (-pebs))
      else
        let r := ubiChangeVtblRecord c env.copy s volId (some (newRecord c req))
        if r.1 ≠ 0 then (r.1, (r.2.kfree a).reserve (-pebs))
        else
          let usedEbs := if req.volType = .dynamic then pebs else 0
          let vol : VolObj := ⟨⟨pebs, req.volType, usedEbs, req.name⟩, 0, a⟩
          (0, { r.2.setVolume volId (some vol) with volCount := r.2.volCount + 1 })

/-- `ubi_create_volume` -/
def ubiCreateVolume (c : UbiInfo) (env : CreateEnv) (s : Dev) (req : MkvolReq) : Int × Dev :=
  if s.roMode then (-erofs, s)
  else if !env.allocVol then (-enomem, s)
  else
    match vacant c s req with
    | none => (-enfile, s)
    | some volId =>
      if (s.volumes volId).isSome then (-eexist, s)
      else if nameTaken c s req then (-eexist, s)
      else if req.pebs c > s.availPebs then (-enospc, s)
      else createReserved c env (s.reserve (req.pebs c)) req volId

/-! ## Removing -/

/-- What the calls of `ubi_remove_volume` return. -/
structure RemoveEnv where
  copy : Nat → CopyEnv
  unmap : Nat → UnmapEnv

/-- `vol` is the volume of the descriptor, with the number `volId`. -/
def ubiRemoveVolume (c : UbiInfo) (env : RemoveEnv) (s : Dev) (volId : Nat) (vol : VolObj)
    (noVtbl : Bool) : Result :=
  if s.roMode then ⟨-erofs, s, false⟩
  else if vol.refCount > 1 then ⟨-ebusy, s, false⟩
  else
    let s := s.setVolume volId none
    let r := if !noVtbl then ubiChangeVtblRecord c env.copy s volId none else (0, s)
    if r.1 ≠ 0 then ⟨r.1, r.2.setVolume volId (some vol), false⟩
    else
      let u := unmapLebs env.unmap vol.ebaTbl (List.range vol.reservedPebs.toNat) r.2
      if u.err ≠ 0 then { u with dev := u.dev.setVolume volId (some vol) }
      else
        let s := (u.dev.reserve (-vol.reservedPebs)).topUp
        { u with dev := { s with volCount := s.volCount - 1 } }

/-! ## Re-sizing -/

/-- What the calls of `ubi_resize_volume` return. -/
structure ResizeEnv where
  alloc : Option Nat
  copy : Nat → CopyEnv
  unmap : Nat → UnmapEnv

/-- The larger mapping is the one of the volume from now on. -/
def growMapping (s : Dev) (volId : Nat) (vol : VolObj) (a : Nat) (reservedPebs : Int) : Dev :=
  let pebs := reservedPebs - vol.reservedPebs
  let old := s.mapping vol.ebaTbl
  let s := (s.reserve pebs).kmalloc a (old ++ List.replicate pebs.toNat ubiLebUnmapped)
  (s.kfree vol.ebaTbl).setVolume volId (some { vol with ebaTbl := a })

/-- PEBs are given back, the reserve for bad PEBs is brought up, and the smaller mapping is the one
    of the volume. -/
def shrinkMapping (s : Dev) (volId : Nat) (vol : VolObj) (a : Nat) (reservedPebs : Int) : Dev :=
  let s := (s.reserve (reservedPebs - vol.reservedPebs)).topUp
  let s := s.kmalloc a ((s.mapping vol.ebaTbl).take reservedPebs.toNat)
  (s.kfree vol.ebaTbl).setVolume volId (some { vol with ebaTbl := a })

/-- The new size. -/
def resized (s : Dev) (volId : Nat) (vol : VolObj) (a : Nat) (reservedPebs : Int) : Dev :=
  let usedEbs := if vol.volType = .dynamic then reservedPebs else vol.usedEbs
  s.setVolume volId (some { vol with
    reservedPebs := reservedPebs, usedEbs := usedEbs, ebaTbl := a })

/-- The record of a volume with its new size. -/
def resizedRecord (s : Dev) (volId : Nat) (reservedPebs : Int) : VtblFields :=
  { (s.vtbl volId).toVtblFields with reservedPebs := UInt32.ofInt reservedPebs }

/-- `ubi_resize_volume` from changing the volume table on; `out_acc` and `out_free` are where it
fails. -/
def resizeTable (c : UbiInfo) (env : ResizeEnv) (s : Dev) (volId : Nat) (vol : VolObj) (a : Nat)
    (reservedPebs : Int) : Result :=
  let pebs := reservedPebs - vol.reservedPebs
  let r := ubiChangeVtblRecord c env.copy s volId (some (resizedRecord s volId reservedPebs))
  if r.1 ≠ 0 then
    ⟨r.1, (if pebs > 0 then r.2.reserve (-pebs) else r.2).kfree a, false⟩
  else if pebs < 0 then
    let lnums := (List.range (-pebs).toNat).map (reservedPebs.toNat + ·)
    let u := unmapLebs env.unmap vol.ebaTbl lnums r.2
    if u.err ≠ 0 then { u with dev := u.dev.kfree a }
    else
      let s := shrinkMapping u.dev volId vol a reservedPebs
      { u with dev := resized s volId vol a reservedPebs }
  else ⟨0, resized r.2 volId vol a reservedPebs, false⟩

/-- `ubi_resize_volume` -/
def ubiResizeVolume (c : UbiInfo) (env : ResizeEnv) (s : Dev) (volId : Nat) (vol : VolObj)
    (reservedPebs : Int) : Result :=
  if s.roMode then ⟨-erofs, s, false⟩
  else if vol.volType = .static ∧ reservedPebs < vol.usedEbs then ⟨-einval, s, false⟩
  else if reservedPebs = vol.reservedPebs then ⟨0, s, false⟩
  else
    match env.alloc with
    | none => ⟨-enomem, s, false⟩
    | some a =>
      let s := s.kmalloc a (List.replicate reservedPebs.toNat ubiLebUnmapped)
      let pebs := reservedPebs - vol.reservedPebs
      if vol.refCount > 1 then ⟨-ebusy, s.kfree a, false⟩
      else if pebs > 0 ∧ pebs > s.availPebs then ⟨-enospc, s.kfree a, false⟩
      else
        let s := if pebs > 0 then growMapping s volId vol a reservedPebs else s
        resizeTable c env s volId vol a reservedPebs

/-! ## Calls -/

/-- A call of one of the three functions, with what it meets. -/
inductive VolCall
  | create (env : CreateEnv) (req : MkvolReq)
  | remove (env : RemoveEnv) (volId : Nat) (vol : VolObj) (noVtbl : Bool)
  | resize (env : ResizeEnv) (volId : Nat) (vol : VolObj) (reservedPebs : Int)

namespace VolCall

/-- What it returns and leaves. -/
def run (c : UbiInfo) (s : Dev) : VolCall → Result
  | create env req =>
    let r := ubiCreateVolume c env s req
    ⟨r.1, r.2, false⟩
  | remove env volId vol noVtbl => ubiRemoveVolume c env s volId vol noVtbl
  | resize env volId vol reservedPebs => ubiResizeVolume c env s volId vol reservedPebs

/-- The volume is there with its LEB table, and memory is allocated where there is none. -/
def Ok (s : Dev) : VolCall → Prop
  | create env _ => ∀ a, env.allocEba = some a → s.heap a = none
  | remove _ volId vol _ => s.volumes volId = some vol
  | resize env volId vol _ => s.volumes volId = some vol ∧ (∃ m, s.heap vol.ebaTbl = some m) ∧
    ∀ a, env.alloc = some a → s.heap a = none

/-- Nothing fails before the volume table is changed, and then something does change: a record of the
table, or the mapping of a volume that grows. -/
def Changes (c : UbiInfo) (s : Dev) : VolCall → Prop
  | create env req => s.roMode = false ∧ env.allocVol = true ∧ ∃ volId, vacant c s req = some volId ∧
    s.volumes volId = none ∧ nameTaken c s req = false ∧ req.pebs c ≤ s.availPebs ∧
    env.flush = 0 ∧ env.allocEba.isSome ∧ env.cdevAdd = 0 ∧ env.deviceRegister = 0 ∧
    env.volumeSysfsInit = 0 ∧ s.vtbl volId ≠ c.record (newRecord c req)
  | remove _ volId vol noVtbl => s.roMode = false ∧ vol.refCount ≤ 1 ∧ noVtbl = false ∧
    s.vtbl volId ≠ emptyVtblRecord
  | resize env volId vol reservedPebs => s.roMode = false ∧
    ¬ (vol.volType = .static ∧ reservedPebs < vol.usedEbs) ∧ reservedPebs ≠ vol.reservedPebs ∧
    env.alloc.isSome ∧ vol.refCount ≤ 1 ∧
    (vol.reservedPebs < reservedPebs → reservedPebs - vol.reservedPebs ≤ s.availPebs) ∧
    (vol.reservedPebs < reservedPebs ∨
      s.vtbl volId ≠ c.record (resizedRecord s volId reservedPebs))

end VolCall

/-- Nothing that the claims of a volume rest on has changed.  PEBs that went to the reserve for bad
ones, or went bad, are not the operation's. -/
structure Unchanged (s s' : Dev) : Prop where
  vtbl : s'.vtbl = s.vtbl
  volumes : s'.volumes = s.volumes
  ebaTbl : ∀ volId vol, s.volumes volId = some vol → s'.heap vol.ebaTbl = s.heap vol.ebaTbl
  avail : s'.availPebs + s'.bebRsvdPebs + s'.badPebCount =
    s.availPebs + s.bebRsvdPebs + s.badPebCount
  rsvd : s'.rsvdPebs - s'.bebRsvdPebs - s'.badPebCount =
    s.rsvdPebs - s.bebRsvdPebs - s.badPebCount

end Ubi.Vmt
