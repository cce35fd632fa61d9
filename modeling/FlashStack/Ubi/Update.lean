/-
  Updating a volume: `UBI_IOCVOLUP` of `vol_cdev_ioctl` in `cdev.c`, and `ubi_start_update`,
  `write_leb` and `ubi_more_update_data` in `upd.c`.

  The volume is wiped out, and then the data is collected LEB by LEB, over as many calls of `write` as
  it takes.  An LEB is written when its last byte is there, or the last byte of the update.

  `Arrived` is the invariant of the calls: what has been flushed is what has arrived, LEB by LEB,
  and the rest is in the buffer.  `Bounded` says where writes go, also when some of them fail.
-/
import FlashStack.Ubi.Volume
import Mathlib.Logic.Function.Basic

open Lib

namespace Ubi.Vol

/-! ## The volume -/

/-- How much data is in the volume. -/
structure Used where
  usedBytes : Nat
  usedEbs : Nat
  lastEbBytes : Nat
  corrupted : Bool

/-- What updating uses of a volume. -/
structure UpdVolume where
  sizes : Sizes
  reservedPebs : Nat
  staticVolume : Bool
  /-- what was in the volume before; of a dynamic volume that is all of it -/
  used : Used
  dynamic_used : staticVolume = false → used.usedBytes = reservedPebs * sizes.usableLebSize

/-- An LEB that is mapped, with the `data_size` and `used_ebs` of a static one. -/
structure MappedLeb where
  static : Option (Nat × Nat)
  bytes : Nat → UInt8

/-- The volume while it is updated. -/
structure Updating where
  updating : Bool
  updMarker : Bool
  updBytes : Nat
  updReceived : Nat
  updEbs : Nat
  updBuf : UpdBuf
  leb : Nat → Option MappedLeb
  used : Used
  /-- the `lnum` of every call of `write_leb` -/
  writes : List Nat

/-- The bytes that are read from the volume: `0xFF` where nothing is mapped. -/
def Updating.byte (vol : UpdVolume) (s : Updating) (i : Nat) : UInt8 :=
  flat vol.sizes.usableLebSize (fun lnum off => (s.leb lnum).elim 0xFF fun leb => leb.bytes off) i

/-! ## Starting -/

/-- What the functions do that the request calls. -/
structure StartEnv where
  capable : Bool
  copied : Bool
  readonly : Bool
  users : Nat
  marker : Option Errno
  unmap : Nat → Option Errno
  flush : Option Errno
  clear : Option Errno
  vmalloc : Bool
  /-- what is in the memory that is allocated -/
  memory : Nat → UInt8

/-- `clear_update_marker` as far as it does not write the volume table. -/
def clearUpdateMarker (vol : UpdVolume) (bytes : Nat) (s : Updating) : Updating :=
  let usable := vol.sizes.usableLebSize
  { s with
    used :=
      if vol.staticVolume then
        { usedBytes := bytes
          usedEbs := if bytes % usable ≠ 0 then bytes / usable + 1 else bytes / usable
          lastEbBytes := if bytes % usable ≠ 0 then bytes % usable else usable
          corrupted := false }
      else s.used
    updMarker := false }

/-- The wiping out, up to the first LEB that cannot be unmapped. -/
def unmapLebs (env : StartEnv) : Nat → Except Errno Unit
  | 0 => .ok ()
  | n + 1 =>
    match unmapLebs env n with
    | .error err => .error err
    | .ok () =>
      match env.unmap n with
      | some err => .error err
      | none => .ok ()

/-- What a failed call leaves behind is not looked at. -/
def ubiStartUpdate (vol : UpdVolume) (env : StartEnv) (bytes : Nat) (s : Updating) :
    Except Errno Updating :=
  match env.marker with
  | some err => .error err
  | none =>
    match unmapLebs env vol.reservedPebs with
    | .error err => .error err
    | .ok () =>
      let s := { s with
        updating := true
        updMarker := true
        leb := fun lnum => if lnum < vol.reservedPebs then none else s.leb lnum }
      if bytes = 0 then
        match env.flush with
        | some err => .error err
        | none =>
          match env.clear with
          | some err => .error err
          | none => .ok { clearUpdateMarker vol 0 s with updating := false }
      else if env.vmalloc then
        .ok { s with
          updBuf := ⟨env.memory, []⟩
          updEbs := (bytes + vol.sizes.usableLebSize - 1) / vol.sizes.usableLebSize
          updBytes := bytes
          updReceived := 0 }
      else .error .ENOMEM

/-- `data_pad` is subtracted once, and not from every LEB. -/
def rsvdBytes (vol : UpdVolume) : Int :=
  (vol.reservedPebs : Int) * vol.sizes.lebSize - vol.sizes.dataPad

/-- `UBI_IOCVOLUP`, on a volume with the LEBs `leb`. -/
def ubiIocvolup (vol : UpdVolume) (env : StartEnv) (bytes : Int) (leb : Nat → Option MappedLeb) :
    Except Errno Updating :=
  if !env.capable then .error .EPERM
  else if !env.copied then .error .EFAULT
  else if env.readonly then .error .EROFS
  else if bytes < 0 ∨ rsvdBytes vol < bytes then .error .EINVAL
  else if 1 < env.users then .error .EBUSY
  else ubiStartUpdate vol env bytes.toNat
    ⟨false, false, 0, 0, 0, ⟨fun _ => 0, []⟩, leb, vol.used, []⟩

/-! ## The data -/

/-- What the functions that one call of `write` calls do, the `k`-th time where there are several. -/
structure UpdEnv where
  roMode : Bool
  /-- how many bytes `copy_from_user` does not copy -/
  uncopied : Nat → Nat
  eba : Nat → Option Errno
  flush : Option Errno
  clear : Option Errno

/-- `ubi_eba_write_leb` and `ubi_eba_write_leb_st` -/
def Updating.ebaWrite (eba : Option Errno) (lnum : Nat) (leb : MappedLeb) (s : Updating) :
    Except Errno Unit × Updating :=
  match eba with
  | some err => (.error err, s)
  | none => (.ok (), { s with leb := Function.update s.leb lnum (some leb) })

/-- The `memset` behind the data: dynamic volumes are filled up to an I/O unit with `0xFF`, static
ones to the end of the LEB with zeroes. -/
def fillBuf (vol : UpdVolume) (buf : UpdBuf) (len : Nat) : UpdBuf :=
  if vol.staticVolume then buf.store len (List.replicate (vol.sizes.usableLebSize - len) 0)
  else buf.store len (List.replicate (align len vol.sizes.minIoSize - len) 0xFF)

/-- `write_leb`: the buffer is filled up as the type of the volume wants it, and written. -/
def writeLeb (vol : UpdVolume) (eba : Option Errno) (lnum len : Nat) (s : Updating) :
    Except Errno Unit × Updating :=
  let io := vol.sizes.minIoSize
  let s := { s with writes := s.writes ++ [lnum], updBuf := fillBuf vol s.updBuf len }
  if vol.staticVolume then
    s.ebaWrite eba lnum ⟨some (len, s.updEbs), lebBytes s.updBuf.mem (align len io)⟩
  else
    let len := ubiCalcDataLen io s.updBuf.mem (align len io)
    if len = 0 then (.ok (), s)
    else s.ebaWrite eba lnum ⟨none, lebBytes s.updBuf.mem len⟩

/-- `len` bytes go to the buffer, to offset `offs` of an LEB, and the LEB is written if it is
complete. -/
def acceptChunk (vol : UpdVolume) (env : UpdEnv) (k lnum offs len : Nat) (buf : List UInt8)
    (s : Updating) : Except Errno Unit × Updating :=
  let s := { s with updBuf := s.updBuf.store offs (buf.take (len - env.uncopied k)) }
  if env.uncopied k ≠ 0 then (.error .EFAULT, s)
  else if offs + len = vol.sizes.usableLebSize ∨ s.updReceived + len = s.updBytes then
    match writeLeb vol (env.eba k) lnum (offs + len) s with
    | (.error err, s) => (.error err, s)
    | (.ok (), s) => (.ok (), { s with updReceived := s.updReceived + len })
  else (.ok (), { s with updReceived := s.updReceived + len })

/-- The loop, from the start of an LEB on; `fuel` is for the iterations. -/
def updateLoop (vol : UpdVolume) (env : UpdEnv) :
    Nat → Nat → Nat → List UInt8 → Updating → Except Errno Unit × Updating
  | 0, _, _, _, s => (.ok (), s)
  | fuel + 1, k, lnum, buf, s =>
    if buf.length = 0 then (.ok (), s)
    else
      let len := if vol.sizes.usableLebSize < buf.length then vol.sizes.usableLebSize
        else buf.length
      match acceptChunk vol env k lnum 0 len buf s with
      | (.error err, s) => (.error err, s)
      | (.ok (), s) => updateLoop vol env fuel (k + 1) (lnum + 1) (buf.drop len) s

/-- The rest of an LEB, if it has been begun, and then the loop. -/
def acceptData (vol : UpdVolume) (env : UpdEnv) (buf : List UInt8) (s : Updating) :
    Except Errno Unit × Updating :=
  let usable := vol.sizes.usableLebSize
  let lnum := s.updReceived / usable
  let offs := s.updReceived % usable
  if offs ≠ 0 then
    let len := if buf.length < usable - offs then buf.length else usable - offs
    match acceptChunk vol env 0 lnum offs len buf s with
    | (.error err, s) => (.error err, s)
    | (.ok (), s) => updateLoop vol env buf.length 1 (lnum + 1) (buf.drop len) s
  else updateLoop vol env buf.length 0 lnum buf s

/-- How many of `count` bytes are taken. -/
def Updating.accept (s : Updating) (count : Nat) : Nat :=
  if s.updBytes < s.updReceived + count then s.updBytes - s.updReceived else count

/-- `ubi_more_update_data` -/
def ubiMoreUpdateData (vol : UpdVolume) (env : UpdEnv) (buf : List UInt8) (s : Updating) :
    Except Errno Nat × Updating :=
  if env.roMode then (.error .EROFS, s)
  else
    let toWrite := s.accept buf.length
    match acceptData vol env (buf.take toWrite) s with
    | (.error err, s) => (.error err, s)
    | (.ok (), s) =>
      if s.updReceived = s.updBytes then
        match env.flush, env.clear with
        | some err, _ => (.error err, s)
        | none, some err => (.error err, clearUpdateMarker vol s.updBytes s)
        | none, none => (.ok toWrite, { clearUpdateMarker vol s.updBytes s with updating := false })
      else (.ok 0, s)

/-- The calls that are made as long as the update is not finished. -/
def updateCalls (vol : UpdVolume) (env : Nat → UpdEnv) :
    Nat → List (List UInt8) → Updating → Updating
  | _, [], s => s
  | k, buf :: bufs, s =>
    if s.updating then updateCalls vol env (k + 1) bufs (ubiMoreUpdateData vol (env k) buf s).2
    else s

/-! ## Writing an LEB -/

/-- What an LEB is to hold for its part of the data. -/
def lebOf (vol : UpdVolume) (updEbs : Nat) (data : List UInt8) : Option MappedLeb :=
  if vol.staticVolume then
    some ⟨some (data.length, updEbs), fun i =>
      (data ++ List.replicate (align data.length vol.sizes.minIoSize - data.length) 0).getD i 0xFF⟩
  else if data.all (· = 0xFF) then none
  else some ⟨none, fun i => data.getD i 0xFF⟩

section WriteLeb

variable {vol : UpdVolume} {s : Updating} {lnum len : Nat} {data : List UInt8}

/-- The zeroes behind the data that go to the flash are those of the last I/O unit. -/
theorem fillBuf_static (hstatic : vol.staticVolume = true)
    (hlen : data.length ≤ vol.sizes.usableLebSize) (hdata : span s.updBuf.mem 0 data.length = data) :
    lebBytes (fillBuf vol s.updBuf data.length).mem (align data.length vol.sizes.minIoSize) =
      fun i => (data ++ List.replicate (align data.length vol.sizes.minIoSize - data.length)
        0).getD i 0xFF := by
  have hpos := vol.sizes.minIo_pos
  have hle := le_align (x := data.length) hpos
  have hfit := align_le hpos hlen vol.sizes.io_usable
  have hspan := @UpdBuf.span_store s.updBuf data.length (List.replicate
    (vol.sizes.usableLebSize - data.length) 0)
  rw [hdata, List.length_replicate, Nat.add_sub_cancel' hlen] at hspan
  rw [lebBytes_eq, fillBuf, if_pos hstatic, ← take_span hfit, hspan, List.take_append,
    List.take_of_length_le hle, List.take_replicate, Nat.min_eq_left (by omega)]

/-- The last LEB of a dynamic volume is filled with `0xFF` up to the write unit. -/
theorem fillBuf_dynamic (hdynamic : vol.staticVolume = false)
    (hdata : span s.updBuf.mem 0 data.length = data) :
    lebBytes (fillBuf vol s.updBuf data.length).mem (align data.length vol.sizes.minIoSize) =
      fun i => data.getD i 0xFF := by
  have hle := le_align (x := data.length) vol.sizes.minIo_pos
  have hfill := lebBytes_fill (b := s.updBuf) (n := data.length)
    (m := align data.length vol.sizes.minIoSize - data.length)
  rw [Nat.add_sub_cancel' hle] at hfill
  rw [fillBuf, if_neg (by simp [hdynamic]), hfill, lebBytes_eq, hdata]

/-- Nothing is left to write of data that is all `0xFF`, and of no other. -/
theorem dataLen_eq_zero_iff {mem : Nat → UInt8} {io : Nat} (hio : 0 < io)
    (hmem : lebBytes mem (align data.length io) = fun i => data.getD i 0xFF) :
    ubiCalcDataLen io mem (align data.length io) = 0 ↔ ∀ x ∈ data, x = 0xFF := by
  constructor
  · intro hzero x hx
    obtain ⟨i, hi, rfl⟩ := List.mem_iff_getElem.mp hx
    have htrim := @lebBytes_dataLen mem _ (align data.length io) hio dvd_align
    rw [hzero, hmem] at htrim
    have hat := congrFun htrim i
    rw [List.getD_eq_getElem _ _ hi] at hat
    exact hat.symm
  · intro hall
    have hzero : dataEnd mem (align data.length io) = 0 := by
      refine dataEnd_eq_zero fun i hi => ?_
      have hat := congrFun hmem i
      simp only [lebBytes, if_pos hi] at hat
      rw [hat]
      by_cases hlt : i < data.length
      · rw [List.getD_eq_getElem _ _ hlt]
        exact hall _ (List.getElem_mem hlt)
      · exact List.getD_eq_default _ _ (by omega)
    rw [ubiCalcDataLen, hzero]
    exact align_of_dvd hio (Nat.dvd_zero _)

/-- A LEB that is written without an error holds the data. -/
theorem writeLeb_fine (hlen : data.length ≤ vol.sizes.usableLebSize)
    (hdata : span s.updBuf.mem 0 data.length = data) :
    ∃ leb, writeLeb vol none lnum data.length s =
        (.ok (), { s with
          writes := s.writes ++ [lnum]
          updBuf := fillBuf vol s.updBuf data.length
          leb := leb }) ∧
      (∀ l ≠ lnum, leb l = s.leb l) ∧
      (s.leb lnum = none → leb lnum = lebOf vol s.updEbs data) := by
  unfold writeLeb
  dsimp only
  split
  · rename_i hstatic
    refine ⟨_, rfl, fun l hl => Function.update_of_ne hl _ _, fun _ => ?_⟩
    rw [Function.update_self, lebOf, if_pos hstatic, fillBuf_static hstatic hlen hdata]
  · rename_i hdynamic
    have hdynamic : vol.staticVolume = false := by simpa using hdynamic
    have hmem := fillBuf_dynamic hdynamic hdata
    have hzero := dataLen_eq_zero_iff vol.sizes.minIo_pos hmem
    split
    · rename_i hnone
      refine ⟨s.leb, rfl, fun _ _ => rfl, fun hl => ?_⟩
      rw [hl, lebOf, if_neg (by simp [hdynamic]), if_pos (by simpa using hzero.mp hnone)]
    · rename_i hsome
      refine ⟨_, rfl, fun l hl => Function.update_of_ne hl _ _, fun _ => ?_⟩
      rw [Function.update_self, lebOf, if_neg (by simp [hdynamic]),
        if_neg fun hall => hsome (hzero.mpr (by simpa using hall)),
        lebBytes_dataLen vol.sizes.minIo_pos dvd_align, hmem]

end WriteLeb

/-! ## What has arrived -/

/-- How many LEBs are written when `n` of `bytes` bytes are there. -/
def flushed (usable bytes n : Nat) : Nat :=
  if n = bytes then blockCount usable n else n / usable

/-- `got` has arrived of an update that is announced with `bytes` bytes: the LEBs that it completes
are written over those in `base`, and the rest of it is in the buffer. -/
structure Arrived (vol : UpdVolume) (base : Nat → Option MappedLeb) (bytes : Nat) (s : Updating)
    (got : List UInt8) : Prop where
  updating : s.updating = true
  updBytes : s.updBytes = bytes
  updEbs : s.updEbs = blockCount vol.sizes.usableLebSize bytes
  received : s.updReceived = got.length
  le : got.length ≤ bytes
  used : s.used = vol.used
  leb : ∀ l, base l = none → s.leb l =
    if l < flushed vol.sizes.usableLebSize bytes got.length then
      lebOf vol (blockCount vol.sizes.usableLebSize bytes) (block vol.sizes.usableLebSize got l)
    else none
  writes : s.writes = List.range (flushed vol.sizes.usableLebSize bytes got.length)
  buffer : got.length < bytes → span s.updBuf.mem 0 (got.length % vol.sizes.usableLebSize) =
    got.drop (got.length / vol.sizes.usableLebSize * vol.sizes.usableLebSize)

/-- Nothing fails. -/
structure UpdEnv.Fine (env : UpdEnv) : Prop where
  roMode : env.roMode = false
  uncopied : ∀ k, env.uncopied k = 0
  eba : ∀ k, env.eba k = none
  flush : env.flush = none
  clear : env.clear = none

section Flushed

variable {u bytes n len : Nat}

/-- While data are missing, the LEBs that are full have been written. -/
theorem flushed_of_lt (h : n < bytes) : flushed u bytes n = n / u := if_neg (by omega)

/-- With the last byte of an LEB, or of the data, that LEB is written. -/
theorem flushed_flush (hu : 0 < u) (hn : n < bytes) (hfit : n % u + len ≤ u)
    (hdone : n % u + len = u ∨ n + len = bytes) : flushed u bytes (n + len) = n / u + 1 := by
  have hsplit := Nat.div_add_mod' n u
  have hmod := Nat.mod_lt n hu
  have hpos : 0 < n % u + len := by omega
  rw [flushed]
  split
  · rw [show n + len = n / u * u + (n % u + len) by omega]
    exact blockCount_eq hpos hfit
  · have hfull : n % u + len = u := by omega
    rw [show n + len = (n / u + 1) * u + 0 by rw [Nat.succ_mul]; omega]
    exact block_div hu

theorem div_of_not_flush (hfit : n % u + len < u) :
    (n + len) / u = n / u ∧ (n + len) % u = n % u + len := by
  have hsplit := Nat.div_add_mod' n u
  rw [show n + len = n / u * u + (n % u + len) by omega]
  exact ⟨block_div hfit, block_mod hfit⟩

end Flushed

section Arrive

variable {vol : UpdVolume} {base : Nat → Option MappedLeb} {bytes : Nat} {s : Updating}
  {got buf : List UInt8} {len k : Nat} {env : UpdEnv}

/-- The buffer holds the LEB up to the new bytes. -/
theorem Arrived.stored (h : Arrived vol base bytes s got) (hlt : got.length < bytes)
    (hbuf : len ≤ buf.length) :
    span (s.updBuf.store (got.length % vol.sizes.usableLebSize) (buf.take len)).mem 0
        (got.length % vol.sizes.usableLebSize + len) =
      (got ++ buf.take len).drop
        (got.length / vol.sizes.usableLebSize * vol.sizes.usableLebSize) := by
  have hspan := @UpdBuf.span_store s.updBuf (got.length % vol.sizes.usableLebSize) (buf.take len)
  rw [List.length_take_of_le hbuf, h.buffer hlt] at hspan
  rw [hspan, List.drop_append_of_le_length (Nat.div_mul_le_self _ _)]

/-- The bytes go to the LEB whose turn it is. -/
theorem acceptChunk_fine (henv : env.Fine) (h : Arrived vol base bytes s got)
    (hlt : got.length < bytes) (hbuf : len ≤ buf.length)
    (hfit : got.length % vol.sizes.usableLebSize + len ≤ vol.sizes.usableLebSize)
    (hle : got.length + len ≤ bytes) :
    ∃ s', acceptChunk vol env k (got.length / vol.sizes.usableLebSize)
        (got.length % vol.sizes.usableLebSize) len buf s = (.ok (), s') ∧
      Arrived vol base bytes s' (got ++ buf.take len) := by
  have hu := vol.sizes.usableLebSize_pos
  have hstored := @Arrived.stored _ _ _ _ _ buf _ h hlt hbuf
  have hlen : (got ++ buf.take len).length = got.length + len := by
    rw [List.length_append, List.length_take_of_le hbuf]
  have hsplit := Nat.div_add_mod' got.length vol.sizes.usableLebSize
  unfold acceptChunk
  simp only [henv.uncopied, Nat.sub_zero, ne_eq, not_true_eq_false, if_false, henv.eba]
  split
  · rename_i hdone
    rw [h.received, h.updBytes] at hdone
    have hflushed := flushed_flush hu hlt hfit hdone
    -- the LEB in the buffer
    have hdata : ((got ++ buf.take len).drop
        (got.length / vol.sizes.usableLebSize * vol.sizes.usableLebSize)).length =
        got.length % vol.sizes.usableLebSize + len := by
      rw [List.length_drop, hlen]
      omega
    obtain ⟨leb, hwrite, hother, hnew⟩ := @writeLeb_fine vol { s with
        updBuf := s.updBuf.store (got.length % vol.sizes.usableLebSize) (buf.take len) }
          (got.length / vol.sizes.usableLebSize) _ (hdata ▸ hfit) (by rw [hdata]; exact hstored)
    rw [hdata] at hwrite
    rw [hwrite]
    refine ⟨_, rfl, h.updating, h.updBytes, h.updEbs, ?_, ?_, h.used, fun l hl => ?_, ?_, ?_⟩
    · rw [hlen]
      exact congrArg (· + len) h.received
    · rw [hlen]
      exact hle
    · rw [hlen, hflushed]
      show leb l = _
      rcases Nat.lt_trichotomy l (got.length / vol.sizes.usableLebSize) with hlt' | rfl | hgt
      · rw [hother l (by omega), if_pos (by omega), block_append]
        · have hold := h.leb l hl
          rw [flushed_of_lt hlt, if_pos hlt'] at hold
          exact hold
        · have : (l + 1) * vol.sizes.usableLebSize ≤ _ := Nat.mul_le_mul_right _ hlt'
          omega
      · have hold := h.leb _ hl
        rw [flushed_of_lt hlt, if_neg (Nat.lt_irrefl _)] at hold
        rw [hnew hold, if_pos (Nat.lt_succ_self _), ← h.updEbs]
        refine congrArg (lebOf vol s.updEbs) (block_last ?_).symm
        rw [hlen, Nat.succ_mul]
        omega
      · rw [hother l (by omega), if_neg (by omega)]
        have hold := h.leb l hl
        rw [flushed_of_lt hlt, if_neg (by omega)] at hold
        exact hold
    · rw [hlen, hflushed, List.range_succ]
      show s.writes ++ _ = _
      rw [h.writes, flushed_of_lt hlt]
    · intro hmore
      rw [hlen] at hmore ⊢
      have hfull : got.length + len = (got.length / vol.sizes.usableLebSize + 1) *
          vol.sizes.usableLebSize + 0 := by
        rw [Nat.succ_mul]
        omega
      rw [hfull, block_mod hu, block_div hu, span_zero]
      refine (List.drop_eq_nil_of_le ?_).symm
      rw [hlen]
      omega
  · rename_i hmore
    rw [h.received, h.updBytes, not_or] at hmore
    obtain ⟨hdiv, hmod⟩ := @div_of_not_flush vol.sizes.usableLebSize got.length len (by omega)
    have hlt' : got.length + len < bytes := by omega
    refine ⟨_, rfl, h.updating, h.updBytes, h.updEbs, ?_, ?_, h.used, fun l hl => ?_, ?_, ?_⟩
    · rw [hlen]
      exact congrArg (· + len) h.received
    · rw [hlen]
      exact hle
    · have hold := h.leb l hl
      rw [flushed_of_lt hlt] at hold
      rw [hlen, flushed_of_lt hlt', hdiv]
      show s.leb l = _
      rw [hold]
      refine ite_congr rfl (fun hl' => ?_) fun _ => rfl
      rw [block_append]
      have : (l + 1) * vol.sizes.usableLebSize ≤ _ := Nat.mul_le_mul_right _ hl'
      omega
    · rw [hlen, flushed_of_lt hlt', hdiv, ← flushed_of_lt hlt]
      exact h.writes
    · intro _
      rw [hlen, hmod, hdiv]
      exact hstored

/-- Behind a chunk there is nothing, or the start of the next LEB. -/
theorem rest_place {n : Nat} (hn : n = got.length + len)
    (hcases : len = buf.length ∨
      got.length % vol.sizes.usableLebSize + len = vol.sizes.usableLebSize) :
    buf.drop len = [] ∨ (n % vol.sizes.usableLebSize = 0 ∧
      got.length / vol.sizes.usableLebSize + 1 = n / vol.sizes.usableLebSize) := by
  have hu := vol.sizes.usableLebSize_pos
  rcases hcases with hall | hfull
  · exact Or.inl (List.drop_eq_nil_of_le (by omega))
  · right
    have hsplit := Nat.div_add_mod' got.length vol.sizes.usableLebSize
    have hnext : n = (got.length / vol.sizes.usableLebSize + 1) * vol.sizes.usableLebSize + 0 := by
      rw [Nat.succ_mul]
      omega
    rw [hnext, block_mod hu, block_div hu]
    exact ⟨rfl, rfl⟩

/-- The loop writes each LEB when it is full, and the last one at the end. -/
theorem updateLoop_fine {fuel lnum : Nat} (henv : env.Fine) (h : Arrived vol base bytes s got)
    (hplace : buf = [] ∨ (got.length % vol.sizes.usableLebSize = 0 ∧
      lnum = got.length / vol.sizes.usableLebSize))
    (hle : got.length + buf.length ≤ bytes) (hfuel : buf.length ≤ fuel) :
    ∃ s', updateLoop vol env fuel k lnum buf s = (.ok (), s') ∧
      Arrived vol base bytes s' (got ++ buf) := by
  have hu := vol.sizes.usableLebSize_pos
  induction fuel generalizing s got buf k lnum with
  | zero =>
    obtain rfl := List.length_eq_zero_iff.mp (Nat.le_zero.mp hfuel)
    exact ⟨s, rfl, (List.append_nil got).symm ▸ h⟩
  | succ fuel ih =>
    rw [updateLoop]
    split
    · rename_i hnil
      obtain rfl := List.length_eq_zero_iff.mp hnil
      exact ⟨s, rfl, (List.append_nil got).symm ▸ h⟩
    · rename_i hbuf
      obtain ⟨hoffs, rfl⟩ := hplace.resolve_left fun hnil => hbuf (hnil ▸ rfl)
      dsimp only
      generalize hn : (if vol.sizes.usableLebSize < buf.length then vol.sizes.usableLebSize
        else buf.length) = len
      have hlen : 0 < len ∧ len ≤ buf.length ∧ len ≤ vol.sizes.usableLebSize ∧
          (len = buf.length ∨ len = vol.sizes.usableLebSize) := by
        rw [← hn]
        split <;> omega
      obtain ⟨hpos, hlebuf, hleu, hcases⟩ := hlen
      obtain ⟨s1, hchunk, h1⟩ := acceptChunk_fine (k := k) henv h (by omega) hlebuf (by omega)
        (by omega)
      rw [hoffs] at hchunk
      rw [hchunk]
      have hsplit := Nat.div_add_mod' got.length vol.sizes.usableLebSize
      have hlen1 : (got ++ buf.take len).length = got.length + len := by
        rw [List.length_append, List.length_take_of_le hlebuf]
      obtain ⟨s', hloop, h'⟩ := @ih _ _ (buf.drop len) (k + 1)
        (got.length / vol.sizes.usableLebSize + 1) h1 (rest_place hlen1 (by omega))
        (by rw [hlen1, List.length_drop]; omega) (by rw [List.length_drop]; omega)
      rw [List.append_assoc, List.take_append_drop] at h'
      exact ⟨s', hloop, h'⟩

/-- Data that arrive in one call of `write`. -/
theorem acceptData_fine (henv : env.Fine) (h : Arrived vol base bytes s got)
    (hlt : got.length < bytes) (hle : got.length + buf.length ≤ bytes) :
    ∃ s', acceptData vol env buf s = (.ok (), s') ∧ Arrived vol base bytes s' (got ++ buf) := by
  have hu := vol.sizes.usableLebSize_pos
  have hsplit := Nat.div_add_mod' got.length vol.sizes.usableLebSize
  have hmod := Nat.mod_lt got.length hu
  rw [acceptData, h.received]
  dsimp only
  split
  · rename_i hoffs
    generalize hn : (if buf.length < vol.sizes.usableLebSize -
      got.length % vol.sizes.usableLebSize then buf.length
      else vol.sizes.usableLebSize - got.length % vol.sizes.usableLebSize) = len
    have hlen : len ≤ buf.length ∧ got.length % vol.sizes.usableLebSize + len ≤
        vol.sizes.usableLebSize ∧ (len = buf.length ∨
          got.length % vol.sizes.usableLebSize + len = vol.sizes.usableLebSize) := by
      rw [← hn]
      split <;> omega
    obtain ⟨hlebuf, hfit, hcases⟩ := hlen
    obtain ⟨s1, hchunk, h1⟩ := acceptChunk_fine (k := 0) henv h hlt hlebuf hfit (by omega)
    rw [hchunk]
    have hlen1 : (got ++ buf.take len).length = got.length + len := by
      rw [List.length_append, List.length_take_of_le hlebuf]
    obtain ⟨s', hloop, h'⟩ := @updateLoop_fine _ _ _ _ _ (buf.drop len) 1 _ buf.length
      (got.length / vol.sizes.usableLebSize + 1) henv h1 (rest_place hlen1 hcases)
      (by rw [hlen1, List.length_drop]; omega) (by rw [List.length_drop]; omega)
    rw [List.append_assoc, List.take_append_drop] at h'
    exact ⟨s', hloop, h'⟩
  · rename_i hoffs
    exact updateLoop_fine henv h (Or.inr ⟨by omega, rfl⟩) hle (Nat.le_refl _)

/-- The update is done, with `data`. -/
structure Finished (vol : UpdVolume) (base : Nat → Option MappedLeb) (bytes : Nat) (s : Updating)
    (data : List UInt8) : Prop where
  updating : s.updating = false
  marker : s.updMarker = false
  length : data.length = bytes
  usedBytes : s.used.usedBytes =
    if vol.staticVolume then bytes else vol.reservedPebs * vol.sizes.usableLebSize
  leb : ∀ l, base l = none → s.leb l =
    if l < blockCount vol.sizes.usableLebSize bytes then
      lebOf vol (blockCount vol.sizes.usableLebSize bytes) (block vol.sizes.usableLebSize data l)
    else none
  writes : s.writes = List.range (blockCount vol.sizes.usableLebSize bytes)

/-- A static volume has as many bytes as it got. -/
theorem clearUpdateMarker_usedBytes (hused : s.used = vol.used) :
    (clearUpdateMarker vol bytes s).used.usedBytes =
      if vol.staticVolume then bytes else vol.reservedPebs * vol.sizes.usableLebSize := by
  rw [clearUpdateMarker]
  dsimp only
  split
  · rfl
  · rename_i hdynamic
    rw [hused]
    exact vol.dynamic_used (by simpa using hdynamic)

/-- One call: what still fits is added, and the last byte finishes the update. -/
theorem ubiMoreUpdateData_fine (henv : env.Fine) (h : Arrived vol base bytes s got)
    (hlt : got.length < bytes) :
    if got.length + buf.length < bytes then
      Arrived vol base bytes (ubiMoreUpdateData vol env buf s).2 (got ++ buf) ∧
        (ubiMoreUpdateData vol env buf s).1 = .ok 0
    else Finished vol base bytes (ubiMoreUpdateData vol env buf s).2 ((got ++ buf).take bytes) ∧
      (ubiMoreUpdateData vol env buf s).1 = .ok (bytes - got.length) := by
  have haccept : s.accept buf.length = min buf.length (bytes - got.length) := by
    rw [Updating.accept, h.updBytes, h.received]
    split <;> omega
  have hlen : (buf.take (min buf.length (bytes - got.length))).length =
      min buf.length (bytes - got.length) := List.length_take_of_le (Nat.min_le_left _ _)
  obtain ⟨s', hdata, h'⟩ := @acceptData_fine _ _ _ _ _ (buf.take
    (min buf.length (bytes - got.length))) _ henv h hlt (by omega)
  have hlen' : (got ++ buf.take (min buf.length (bytes - got.length))).length =
      got.length + min buf.length (bytes - got.length) := by rw [List.length_append, hlen]
  unfold ubiMoreUpdateData
  simp only [henv.roMode, Bool.false_eq_true, if_false, haccept, hdata]
  rw [h'.received, h'.updBytes, hlen']
  split
  · rename_i hmore
    rw [if_neg (by omega)]
    rw [Nat.min_eq_left (by omega), List.take_length] at h'
    exact ⟨h', rfl⟩
  · rename_i hall
    rw [if_pos (by omega)]
    simp only [henv.flush, henv.clear]
    have hmin : min buf.length (bytes - got.length) = bytes - got.length := by omega
    rw [hmin] at h' hlen'
    have htake : got ++ buf.take (bytes - got.length) = (got ++ buf).take bytes := by
      rw [List.take_append, List.take_of_length_le (show got.length ≤ bytes by omega)]
    rw [htake] at h' hlen'
    have hbytes : ((got ++ buf).take bytes).length = bytes := by omega
    have hflushed : flushed vol.sizes.usableLebSize bytes ((got ++ buf).take bytes).length =
        blockCount vol.sizes.usableLebSize bytes := by
      rw [flushed, if_pos hbytes, hbytes]
    refine ⟨⟨rfl, rfl, hbytes, ?_, fun l hl => ?_, ?_⟩, by rw [hmin]⟩
    · exact clearUpdateMarker_usedBytes h'.used
    · have hleb := h'.leb l hl
      rw [hflushed] at hleb
      exact hleb
    · rw [← hflushed]
      exact h'.writes

/-- All calls. -/
theorem updateCalls_fine {env : Nat → UpdEnv} {bufs : List (List UInt8)}
    (henv : ∀ k, (env k).Fine) (h : Arrived vol base bytes s got) (hlt : got.length < bytes) :
    if got.length + bufs.flatten.length < bytes then
      Arrived vol base bytes (updateCalls vol env k bufs s) (got ++ bufs.flatten)
    else Finished vol base bytes (updateCalls vol env k bufs s)
      ((got ++ bufs.flatten).take bytes) := by
  induction bufs generalizing s got k with
  | nil =>
    rw [List.flatten_nil, List.length_nil, Nat.add_zero, if_pos hlt, List.append_nil]
    exact h
  | cons buf bufs ih =>
    rw [updateCalls, if_pos h.updating, List.flatten_cons, List.length_append, ← List.append_assoc,
      ← Nat.add_assoc]
    have hstep := @ubiMoreUpdateData_fine _ _ _ _ _ buf _ (henv k) h hlt
    by_cases hmore : got.length + buf.length < bytes
    · rw [if_pos hmore] at hstep
      have hrest := ih (k := k + 1) hstep.1 (by rw [List.length_append]; exact hmore)
      rw [List.length_append] at hrest
      exact hrest
    · rw [if_neg hmore] at hstep
      have hdone : updateCalls vol env (k + 1) bufs (ubiMoreUpdateData vol (env k) buf s).2 =
          (ubiMoreUpdateData vol (env k) buf s).2 := by
        cases bufs with
        | nil => rfl
        | cons _ _ => rw [updateCalls, if_neg (by simp [hstep.1.updating])]
      rw [if_neg (by omega), hdone, List.take_append_of_le_length
        (show bytes ≤ (got ++ buf).length by rw [List.length_append]; omega)]
      exact hstep.1

end Arrive

/-! ## Reading it back -/

section ReadBack

variable {vol : UpdVolume} {base : Nat → Option MappedLeb} {bytes : Nat} {s : Updating}
  {data : List UInt8}

/-- A byte of a LEB is the byte of the data. -/
theorem lebOf_byte {ebs off : Nat} (hoff : vol.staticVolume = true → off < data.length) :
    ((lebOf vol ebs data).elim 0xFF fun leb => leb.bytes off) = data.getD off 0xFF := by
  unfold lebOf
  split
  · rename_i hstatic
    exact List.getD_append _ _ _ _ (hoff hstatic)
  · split
    · rename_i hall
      by_cases hlt : off < data.length
      · rw [List.getD_eq_getElem _ _ hlt]
        have hbyte : data[off] = 0xFF := by simpa using List.all_eq_true.mp hall _ (List.getElem_mem hlt)
        exact hbyte.symm
      · exact (List.getD_eq_default _ _ (Nat.le_of_not_lt hlt)).symm
    · rfl

/-- The data is in the volume, and on a dynamic one `0xFF` behind it. -/
theorem Finished.read (h : Finished vol base bytes s data)
    (hbase : ∀ l < vol.reservedPebs, base l = none)
    (hle : bytes ≤ vol.reservedPebs * vol.sizes.usableLebSize) :
    span (s.byte vol) 0 s.used.usedBytes =
      data ++ List.replicate (s.used.usedBytes - bytes) 0xFF := by
  have hu := vol.sizes.usableLebSize_pos
  have hused : bytes ≤ s.used.usedBytes ∧
      s.used.usedBytes ≤ vol.reservedPebs * vol.sizes.usableLebSize ∧
      (vol.staticVolume = true → s.used.usedBytes = bytes) := by
    rw [h.usedBytes]
    split
    · exact ⟨Nat.le_refl _, hle, fun _ => rfl⟩
    · rename_i hdynamic
      exact ⟨hle, Nat.le_refl _, fun hstatic => absurd hstatic hdynamic⟩
  obtain ⟨hbytes, hreserved, hstatic⟩ := hused
  refine span_eq_of (d := 0xFF) (by simp [h.length, hbytes]) fun i hi => ?_
  have hl : i / vol.sizes.usableLebSize < vol.reservedPebs :=
    (Nat.div_lt_iff_lt_mul hu).mpr (by omega)
  have hsplit := Nat.div_add_mod' i vol.sizes.usableLebSize
  have hmod := Nat.mod_lt i hu
  have hright : (data ++ List.replicate (s.used.usedBytes - bytes) 0xFF).getD i 0xFF =
      data.getD i 0xFF := by
    by_cases hlt : i < data.length
    · exact List.getD_append _ _ _ _ hlt
    · rw [List.getD_append_right _ _ _ _ (Nat.le_of_not_lt hlt), List.getD_eq_default data _
        (Nat.le_of_not_lt hlt)]
      rw [List.getD_eq_getElem?_getD]
      exact List.getElem?_getD_replicate_default_eq _ _ _
  rw [hright, ← @flat_block _ _ data 0xFF i hu, Updating.byte, flat, flat,
    h.leb _ (hbase _ hl)]
  split
  · rename_i hcount
    refine lebOf_byte fun hs => ?_
    rw [block, List.length_take, List.length_drop, h.length]
    have := hstatic hs
    omega
  · rename_i hcount
    rw [lt_blockCount_iff hu] at hcount
    rw [block_of_le (by rw [h.length]; omega)]
    rfl

end ReadBack

/-! ## Where it writes, failing or not -/

/-- Every LEB that was written has a byte of the update. -/
structure Bounded (vol : UpdVolume) (s : Updating) : Prop where
  le : s.updReceived ≤ s.updBytes
  writes : ∀ l ∈ s.writes, l * vol.sizes.usableLebSize < s.updBytes

section Bounds

variable {vol : UpdVolume} {s : Updating} {buf : List UInt8} {env : UpdEnv} {k lnum offs len : Nat}

/-- A LEB is written once. -/
theorem writeLeb_writes {eba : Option Errno} :
    (writeLeb vol eba lnum len s).2.writes = s.writes ++ [lnum] ∧
      (writeLeb vol eba lnum len s).2.updBytes = s.updBytes ∧
      (writeLeb vol eba lnum len s).2.updReceived = s.updReceived := by
  unfold writeLeb Updating.ebaWrite
  dsimp only
  split
  · split <;> exact ⟨rfl, rfl, rfl⟩
  · split
    · exact ⟨rfl, rfl, rfl⟩
    · split <;> exact ⟨rfl, rfl, rfl⟩

/-- A part of a call stays inside the volume. -/
theorem acceptChunk_bounded (h : Bounded vol s)
    (hplace : lnum * vol.sizes.usableLebSize + offs = s.updReceived)
    (hle : s.updReceived + len ≤ s.updBytes) (hsome : 0 < offs + len) :
    Bounded vol (acceptChunk vol env k lnum offs len buf s).2 ∧
      (acceptChunk vol env k lnum offs len buf s).2.updBytes = s.updBytes ∧
      ((acceptChunk vol env k lnum offs len buf s).1 = .ok () →
        (acceptChunk vol env k lnum offs len buf s).2.updReceived = s.updReceived + len) := by
  have hwrite : ∀ l ∈ s.writes ++ [lnum], l * vol.sizes.usableLebSize < s.updBytes := by
    intro l hl
    rcases List.mem_append.mp hl with hl | hl
    · exact h.writes l hl
    · rw [List.mem_singleton.mp hl]
      omega
  unfold acceptChunk
  dsimp only
  split
  · exact ⟨⟨h.le, h.writes⟩, rfl, nofun⟩
  · split
    · obtain ⟨hwrites, hbytes, hreceived⟩ := @writeLeb_writes vol
        { s with updBuf := s.updBuf.store offs (buf.take (len - env.uncopied k)) } lnum (offs + len)
        (env.eba k)
      split
      · rename_i err s' heq
        rw [heq] at hwrites hbytes hreceived
        refine ⟨⟨?_, ?_⟩, hbytes, nofun⟩
        · rw [hreceived, hbytes]
          exact h.le
        · rw [hwrites, hbytes]
          exact hwrite
      · rename_i s' heq
        rw [heq] at hwrites hbytes hreceived
        have hreceived : s'.updReceived = s.updReceived := hreceived
        have hbytes : s'.updBytes = s.updBytes := hbytes
        refine ⟨⟨?_, ?_⟩, hbytes, fun _ => ?_⟩
        · show s'.updReceived + len ≤ s'.updBytes
          omega
        · show ∀ l ∈ s'.writes, _ < s'.updBytes
          rw [hwrites, hbytes]
          exact hwrite
        · show s'.updReceived + len = _
          omega
    · exact ⟨⟨hle, h.writes⟩, rfl, fun _ => rfl⟩

/-- So does the loop. -/
theorem updateLoop_bounded {fuel : Nat} (h : Bounded vol s)
    (hplace : buf = [] ∨ lnum * vol.sizes.usableLebSize = s.updReceived)
    (hle : s.updReceived + buf.length ≤ s.updBytes) :
    Bounded vol (updateLoop vol env fuel k lnum buf s).2 ∧
      (updateLoop vol env fuel k lnum buf s).2.updBytes = s.updBytes := by
  induction fuel generalizing s buf k lnum with
  | zero => exact ⟨h, rfl⟩
  | succ fuel ih =>
    rw [updateLoop]
    split
    · exact ⟨h, rfl⟩
    · rename_i hbuf
      have hplace := hplace.resolve_left fun hnil => hbuf (hnil ▸ rfl)
      have hu := vol.sizes.usableLebSize_pos
      dsimp only
      generalize hn : (if vol.sizes.usableLebSize < buf.length then vol.sizes.usableLebSize
        else buf.length) = len
      have hlen : 0 < len ∧ len ≤ buf.length ∧ (len = buf.length ∨
          len = vol.sizes.usableLebSize) := by
        rw [← hn]
        split <;> omega
      obtain ⟨hpos, hlebuf, hcases⟩ := hlen
      obtain ⟨hchunk, hbytes, hreceived⟩ := @acceptChunk_bounded _ _ buf env k lnum 0 len h hplace
        (by omega) (by omega)
      split
      · rename_i err s' heq
        rw [heq] at hchunk hbytes
        exact ⟨hchunk, hbytes⟩
      · rename_i s' heq
        rw [heq] at hchunk hbytes hreceived
        have hreceived : s'.updReceived = s.updReceived + len := hreceived rfl
        have hbytes : s'.updBytes = s.updBytes := hbytes
        obtain ⟨hrest, heq'⟩ := @ih _ (buf.drop len) (k + 1) (lnum + 1) hchunk
          (by
            rcases hcases with hall | hfull
            · exact Or.inl (List.drop_eq_nil_of_le (by omega))
            · right
              show _ = s'.updReceived
              rw [Nat.succ_mul]
              omega)
          (by
            show s'.updReceived + _ ≤ s'.updBytes
            rw [List.length_drop]
            omega)
        exact ⟨hrest, heq'.trans hbytes⟩

/-- So does a call, whatever was left in the LEB before. -/
theorem acceptData_bounded (h : Bounded vol s)
    (hle : s.updReceived + buf.length ≤ s.updBytes) :
    Bounded vol (acceptData vol env buf s).2 ∧
      (acceptData vol env buf s).2.updBytes = s.updBytes := by
  have hsplit := Nat.div_add_mod' s.updReceived vol.sizes.usableLebSize
  have hmod := Nat.mod_lt s.updReceived vol.sizes.usableLebSize_pos
  unfold acceptData
  dsimp only
  split
  · rename_i hoffs
    generalize hn : (if buf.length < vol.sizes.usableLebSize -
      s.updReceived % vol.sizes.usableLebSize then buf.length
      else vol.sizes.usableLebSize - s.updReceived % vol.sizes.usableLebSize) = len
    have hlen : len ≤ buf.length ∧ (len = buf.length ∨
        s.updReceived % vol.sizes.usableLebSize + len = vol.sizes.usableLebSize) := by
      rw [← hn]
      split <;> omega
    obtain ⟨hlebuf, hcases⟩ := hlen
    obtain ⟨hchunk, hbytes, hreceived⟩ := @acceptChunk_bounded _ _ buf env 0 _ _ len h hsplit
      (by omega) (by omega)
    split
    · rename_i err s' heq
      rw [heq] at hchunk hbytes
      exact ⟨hchunk, hbytes⟩
    · rename_i s' heq
      rw [heq] at hchunk hbytes hreceived
      have hreceived : s'.updReceived = s.updReceived + len := hreceived rfl
      have hbytes : s'.updBytes = s.updBytes := hbytes
      obtain ⟨hrest, heq'⟩ := @updateLoop_bounded _ _ (buf.drop len) env 1
        (s.updReceived / vol.sizes.usableLebSize + 1) buf.length hchunk (by
          rcases hcases with hall | hfull
          · exact Or.inl (List.drop_eq_nil_of_le (by omega))
          · right
            show _ = s'.updReceived
            rw [Nat.succ_mul]
            omega) (by
          show s'.updReceived + _ ≤ s'.updBytes
          rw [List.length_drop]
          omega)
      exact ⟨hrest, heq'.trans hbytes⟩
  · rename_i hoffs
    exact updateLoop_bounded h (Or.inr (by omega)) hle

theorem ubiMoreUpdateData_bounded (h : Bounded vol s) :
    Bounded vol (ubiMoreUpdateData vol env buf s).2 ∧
      (ubiMoreUpdateData vol env buf s).2.updBytes = s.updBytes := by
  have hle := h.le
  have haccept : s.updReceived + (buf.take (s.accept buf.length)).length ≤ s.updBytes := by
    rw [List.length_take]
    unfold Updating.accept
    split <;> omega
  obtain ⟨hdata, hbytes⟩ := @acceptData_bounded _ _ _ env h haccept
  unfold ubiMoreUpdateData
  split
  · exact ⟨h, rfl⟩
  · dsimp only
    split
    · rename_i err s' heq
      rw [heq] at hdata hbytes
      exact ⟨hdata, hbytes⟩
    · rename_i s' heq
      rw [heq] at hdata hbytes
      split
      · split
        · exact ⟨hdata, hbytes⟩
        · exact ⟨⟨hdata.le, hdata.writes⟩, hbytes⟩
        · exact ⟨⟨hdata.le, hdata.writes⟩, hbytes⟩
      · exact ⟨hdata, hbytes⟩

/-- And all calls, when some of the writes fail. -/
theorem updateCalls_bounded {env : Nat → UpdEnv} {bufs : List (List UInt8)} (h : Bounded vol s) :
    Bounded vol (updateCalls vol env k bufs s) ∧
      (updateCalls vol env k bufs s).updBytes = s.updBytes := by
  induction bufs generalizing s k with
  | nil => exact ⟨h, rfl⟩
  | cons buf bufs ih =>
    rw [updateCalls]
    split
    · obtain ⟨hcall, hbytes⟩ := @ubiMoreUpdateData_bounded _ _ buf (env k) h
      obtain ⟨hrest, heq⟩ := ih (k := k + 1) hcall
      exact ⟨hrest, heq.trans hbytes⟩
    · exact ⟨h, rfl⟩

end Bounds

/-! ## Which updates go well -/

/-- However the data comes: only LEBs of the volume are written, what is written does not depend on
how it came, the update is finished with the last byte and not before, and the data is read back. -/
structure UpdateRight (vol : UpdVolume) (bytes : Nat) (s : Updating) : Prop where
  inside : ∀ env bufs, ∀ lnum ∈ (updateCalls vol env 0 bufs s).writes, lnum < vol.reservedPebs
  same : ∀ env env' bufs data, (∀ k, (env k).Fine) → (∀ k, (env' k).Fine) → data.length = bytes →
    bufs.flatten.take bytes = data → ∀ lnum < vol.reservedPebs,
    (updateCalls vol env 0 bufs s).leb lnum = (updateCalls vol env' 0 [data] s).leb lnum
  finishes : ∀ env bufs, (∀ k, (env k).Fine) →
    ((updateCalls vol env 0 bufs s).updating = false ↔ bytes ≤ bufs.flatten.length)
  reads : ∀ env bufs data, (∀ k, (env k).Fine) → data.length = bytes →
    bufs.flatten.take bytes = data →
    span ((updateCalls vol env 0 bufs s).byte vol) 0 (updateCalls vol env 0 bufs s).used.usedBytes =
      data ++ List.replicate ((updateCalls vol env 0 bufs s).used.usedBytes - bytes) 0xFF

section Request

variable {vol : UpdVolume} {env : StartEnv} {bytes : Int} {leb : Nat → Option MappedLeb}
  {s : Updating}

/-- What the volume has when the request returns. -/
def wiped (vol : UpdVolume) (leb : Nat → Option MappedLeb) (lnum : Nat) : Option MappedLeb :=
  if lnum < vol.reservedPebs then none else leb lnum

/-- The volume is empty when the update starts. -/
theorem ubiIocvolup_ok (h : ubiIocvolup vol env bytes leb = .ok s) :
    (bytes.toNat = 0 ∧ Finished vol (wiped vol leb) 0 s []) ∨
      (0 < bytes.toNat ∧ Arrived vol (wiped vol leb) bytes.toNat s []) := by
  unfold ubiIocvolup at h
  split at h
  · cases h
  · split at h
    · cases h
    · split at h
      · cases h
      · split at h
        · cases h
        · split at h
          · cases h
          · unfold ubiStartUpdate at h
            split at h
            · cases h
            · split at h
              · cases h
              · dsimp only at h
                have hcount : blockCount vol.sizes.usableLebSize 0 = 0 := by
                  have := vol.sizes.usableLebSize_pos
                  exact Nat.div_eq_of_lt (by omega)
                split at h
                · rename_i hzero
                  left
                  split at h
                  · cases h
                  · split at h
                    · cases h
                    · cases h
                      refine ⟨hzero, rfl, rfl, rfl, clearUpdateMarker_usedBytes rfl,
                        fun l hl => ?_, ?_⟩
                      · rw [hcount, if_neg (Nat.not_lt_zero l)]
                        exact hl
                      · rw [hcount]
                        rfl
                · rename_i hne
                  right
                  split at h
                  · cases h
                    have hflushed : flushed vol.sizes.usableLebSize bytes.toNat 0 = 0 := by
                      rw [flushed_of_lt (by omega), Nat.zero_div]
                    refine ⟨by omega, rfl, rfl, rfl, rfl, Nat.zero_le _, rfl, fun l hl => ?_, ?_,
                      fun _ => ?_⟩
                    · rw [List.length_nil, hflushed, if_neg (Nat.not_lt_zero l)]
                      exact hl
                    · rw [List.length_nil, hflushed]
                      rfl
                    · rw [List.length_nil, Nat.zero_mod, Nat.zero_div, Nat.zero_mul]
                      rfl
                  · cases h

/-- After the end of the update nothing is written. -/
theorem updateCalls_finished {env : Nat → UpdEnv} {k : Nat} {bufs : List (List UInt8)}
    (h : s.updating = false) : updateCalls vol env k bufs s = s := by
  cases bufs with
  | nil => rfl
  | cons _ _ => rw [updateCalls, if_neg (by simp [h])]

/-- All of the data, however it came. -/
theorem Arrived.finished {base : Nat → Option MappedLeb} {n : Nat} {env : Nat → UpdEnv}
    {bufs : List (List UInt8)} {data : List UInt8} (h : Arrived vol base n s []) (hn : 0 < n)
    (henv : ∀ k, (env k).Fine) (hlen : data.length = n) (hdata : bufs.flatten.take n = data) :
    Finished vol base n (updateCalls vol env 0 bufs s) data := by
  have hcalls := @updateCalls_fine _ _ _ _ _ 0 _ bufs henv h (by simpa using hn)
  have hall : n ≤ bufs.flatten.length := by
    have := congrArg List.length hdata
    rw [List.length_take] at this
    omega
  rw [List.nil_append, List.length_nil, Nat.zero_add, if_neg (by omega), hdata] at hcalls
  exact hcalls

/-- The LEBs that an update writes are as many as its data takes. -/
theorem le_of_right (h : ubiIocvolup vol env bytes leb = .ok s)
    (hright : UpdateRight vol bytes.toNat s) :
    bytes.toNat ≤ vol.reservedPebs * vol.sizes.usableLebSize := by
  rcases ubiIocvolup_ok h with ⟨hzero, -⟩ | ⟨hpos, harrived⟩
  · rw [hzero]
    exact Nat.zero_le _
  · refine Nat.le_of_not_lt fun hlt => ?_
    have hfine : ∀ _ : Nat, UpdEnv.Fine ⟨false, fun _ => 0, fun _ => none, none, none⟩ :=
      fun _ => ⟨rfl, fun _ => rfl, fun _ => rfl, rfl, rfl⟩
    have hdone := @Arrived.finished _ _ _ _ _ [List.replicate bytes.toNat 0]
      (List.replicate bytes.toNat 0) harrived hpos hfine List.length_replicate (by simp)
    have hmem : vol.reservedPebs ∈ List.range (blockCount vol.sizes.usableLebSize bytes.toNat) :=
      List.mem_range.mpr ((lt_blockCount_iff vol.sizes.usableLebSize_pos).mpr hlt)
    rw [← hdone.writes] at hmem
    exact Nat.lt_irrefl _ (hright.inside _ _ _ hmem)

/-- An update goes well when its data fits into the reserved LEBs, the padding of each left out. -/
theorem ubiIocvolup_right_iff (h : ubiIocvolup vol env bytes leb = .ok s) :
    UpdateRight vol bytes.toNat s ↔
      bytes.toNat ≤ vol.reservedPebs * vol.sizes.usableLebSize := by
  refine ⟨le_of_right h, fun hle => ?_⟩
  have hbase : ∀ l < vol.reservedPebs, wiped vol leb l = none := fun l hl => if_pos hl
  rcases ubiIocvolup_ok h with ⟨hzero, hdone⟩ | ⟨hpos, harrived⟩
  · rw [hzero] at hle ⊢
    have hcalls : ∀ env bufs, updateCalls vol env 0 bufs s = s :=
      fun _ _ => updateCalls_finished hdone.updating
    constructor
    · intro env bufs lnum hlnum
      rw [hcalls, hdone.writes, List.mem_range, lt_blockCount_iff vol.sizes.usableLebSize_pos]
        at hlnum
      omega
    · intro env env' bufs data _ _ _ _ lnum _
      rw [hcalls, hcalls]
    · intro env bufs _
      rw [hcalls]
      exact ⟨fun _ => Nat.zero_le _, fun _ => hdone.updating⟩
    · intro env bufs data _ hlen _
      rw [hcalls, List.length_eq_zero_iff.mp hlen]
      exact hdone.read hbase hle
  · constructor
    · intro env bufs lnum hlnum
      have hbounded : Bounded vol s := by
        refine ⟨?_, fun l hl => ?_⟩
        · rw [harrived.received]
          exact Nat.zero_le _
        · rw [harrived.writes, List.length_nil, flushed_of_lt hpos, Nat.zero_div] at hl
          cases hl
      obtain ⟨hcalls, hbytes⟩ := @updateCalls_bounded _ _ 0 env bufs hbounded
      have hlt := hcalls.writes lnum hlnum
      rw [hbytes, harrived.updBytes] at hlt
      exact Nat.lt_of_mul_lt_mul_right (Nat.lt_of_lt_of_le hlt hle)
    · intro env env' bufs data henv henv' hlen hdata lnum hlnum
      have hsplit := harrived.finished hpos henv hlen hdata
      have hwhole := @Arrived.finished _ _ _ _ _ [data] _ harrived hpos henv' hlen
        (by rw [← hlen]; simp)
      rw [hsplit.leb lnum (hbase lnum hlnum), hwhole.leb lnum (hbase lnum hlnum)]
    · intro env bufs henv
      have hcalls := @updateCalls_fine _ _ _ _ _ 0 _ bufs henv harrived (by simpa using hpos)
      rw [List.nil_append, List.length_nil, Nat.zero_add] at hcalls
      split at hcalls
      · rename_i hmore
        refine ⟨fun hfin => ?_, fun hall => by omega⟩
        rw [hcalls.updating] at hfin
        cases hfin
      · rename_i hall
        exact ⟨fun _ => Nat.le_of_not_lt hall, fun _ => hcalls.updating⟩
    · intro env bufs data henv hlen hdata
      exact (harrived.finished hpos henv hlen hdata).read hbase hle

end Request

/-- Two LEBs of 126976 bytes, of which the alignment leaves 122880 each. -/
def padded : UpdVolume where
  sizes := .nand 10240 (by decide) (by decide) (by decide)
  reservedPebs := 2
  staticVolume := true
  used := ⟨0, 0, 0, false⟩
  dynamic_used := nofun

/-- An update starts, and nothing goes wrong. -/
def willing : StartEnv :=
  ⟨true, true, false, 1, none, fun _ => none, none, none, true, fun _ => 0⟩

/-- An update that needs three LEBs is accepted. -/
theorem ubiIocvolup_outside : ∃ s, ubiIocvolup padded willing 249856 (fun _ => none) = .ok s ∧
    ¬ UpdateRight padded 249856 s :=
  ⟨_, rfl, fun hright => absurd
    (@le_of_right padded willing 249856 (fun _ => none) _ rfl hright)
    (by decide)⟩

/-- An update of two LEBs and a half that goes well. -/
theorem ubiIocvolup_inside : ∃ s, ubiIocvolup padded willing 245760 (fun _ => none) = .ok s ∧
    UpdateRight padded 245760 s :=
  ⟨_, rfl, (@ubiIocvolup_right_iff padded willing 245760 (fun _ => none) _ rfl).mpr (by decide)⟩

end Ubi.Vol
