/-
  Attaching: where the headers are (`io_init` in `build.c`) and what reading a VID header reads
  and writes (`ubi_zalloc_vid_hdr` in `ubi.h`, `ubi_io_read` and `ubi_io_read_vid_hdr` in `io.c`).

  `io_init` derives the size of the buffer and the place of the header from what the MTD device
  says and from the offset that the user gives.  The read is of `1024` bytes whatever came out.

  An access is a load or a store of some bytes; what fits is said of all accesses of a read, with
  any answers of the MTD device and any number of retries.
-/
import FlashStack.Lib.Align

open Lib

namespace Ubi.IoInit

def ubiEcHdrSize : Nat := 64
def ubiVidHdrSize : Nat := 64
def ubiIoRetries : Nat := 3

/-- The errors that reading a header may end with. -/
inductive Errno
  | einval | eio | ebadmsg | euclean
  | other (val : Nat)
deriving DecidableEq

/-! ## Geometry -/

/-- What `io_init` looks at of `struct mtd_info`. -/
structure Mtd where
  size : Nat
  erasesize : Nat
  erasesizeShift : Nat
  writesize : Nat
  writebufsize : Nat
  subpageSft : Nat
  numeraseregions : Nat
  norFlash : Bool
  blockIsbad : Bool
  blockMarkbad : Bool
  writeable : Bool
  erasesize_pos : 0 < erasesize
  erasesize_lt : erasesize < 2 ^ 31
  writesize_lt : writesize < 2 ^ 31
  writebufsize_lt : writebufsize < 2 ^ 31

namespace Mtd

variable (mtd : Mtd)

/-- How many eraseblocks of the device make a PEB. -/
def mergedPebCount : Nat :=
  if 4096 < mtd.size >>> mtd.erasesizeShift then
    if 0x400000 / mtd.erasesize = 0 then 1 else 0x400000 / mtd.erasesize
  else 1

/-- `mtd_div_by_eb`, of the size of the device. -/
def mtdDivByEb : Nat :=
  if mtd.erasesizeShift ≠ 0 then mtd.size >>> mtd.erasesizeShift else mtd.size / mtd.erasesize

/-- `ubi->peb_size`: so many erase blocks of the MTD device are one PEB. -/
def pebSize : Nat := mtd.mergedPebCount * mtd.erasesize

/-- The unit in which headers are written: a sub-page, if the device has these. -/
def hdrsMinIoSize : Nat := mtd.writesize >>> mtd.subpageSft

end Mtd

/-- What `io_init` fills in. -/
structure UbiDevice where
  mergedPebCount : Nat
  pebSize : Nat
  pebCount : Nat
  flashSize : Nat
  badAllowed : Bool
  norFlash : Bool
  minIoSize : Nat
  hdrsMinIoSize : Nat
  maxWriteSize : Nat
  ecHdrAlsize : Nat
  vidHdrAlsize : Nat
  vidHdrOffset : Nat
  vidHdrAloffset : Nat
  vidHdrShift : Nat
  lebStart : Nat
  lebSize : Nat
  maxErroneous : Nat
  roMode : Bool

/-- The fields of the device when the sizes of the I/O units are found to be right. -/
def layout (mtd : Mtd) (vidHdrOffset : Nat) : UbiDevice :=
  let ecHdrAlsize := align ubiEcHdrSize mtd.hdrsMinIoSize
  let offset := if vidHdrOffset = 0 then ecHdrAlsize else vidHdrOffset
  let aloffset := if vidHdrOffset = 0 then offset else alignDown offset mtd.hdrsMinIoSize
  let lebStart := align (offset + ubiVidHdrSize) mtd.writesize
  let pebCount := mtd.mtdDivByEb / mtd.mergedPebCount
  { mergedPebCount := mtd.mergedPebCount
    pebSize := mtd.pebSize
    pebCount := pebCount
    flashSize := mtd.size
    badAllowed := mtd.blockIsbad && mtd.blockMarkbad
    norFlash := mtd.norFlash
    minIoSize := mtd.writesize
    hdrsMinIoSize := mtd.hdrsMinIoSize
    maxWriteSize := mtd.writebufsize
    ecHdrAlsize := ecHdrAlsize
    vidHdrAlsize := align ubiVidHdrSize mtd.hdrsMinIoSize
    vidHdrOffset := offset
    vidHdrAloffset := aloffset
    vidHdrShift := offset - aloffset
    lebStart := lebStart
    lebSize := mtd.pebSize - lebStart
    maxErroneous := max 16 (pebCount / 10)
    roMode := decide (offset + ubiVidHdrSize ≤ mtd.hdrsMinIoSize) || !mtd.writeable }

/-- The sizes of the I/O units are ones that UBI can work with. -/
def ioUnitsOk (mtd : Mtd) : Bool :=
  decide mtd.writesize.isPowerOfTwo && decide (mtd.writesize ≤ mtd.writebufsize) &&
    decide (mtd.writebufsize % mtd.writesize = 0) && decide mtd.writebufsize.isPowerOfTwo

/-- `peb_size - UBI_VID_HDR_SIZE` has the type of a `sizeof`: below zero it wraps around. -/
def UbiDevice.offsetsBad (ubi : UbiDevice) : Bool :=
  decide (ubi.vidHdrOffset < ubiEcHdrSize) ||
    decide (ubi.lebStart < ubi.vidHdrOffset + ubiVidHdrSize) ||
    decide ((ubi.pebSize + 2 ^ 32 - ubiVidHdrSize) % 2 ^ 32 < ubi.lebStart) ||
    decide (ubi.lebStart % ubi.minIoSize ≠ 0)

/-- `vidHdrOffset` is the one that the user gives, `0` for the default. -/
def ioInit (mtd : Mtd) (vidHdrOffset : Int) : Except Errno UbiDevice :=
  if mtd.numeraseregions ≠ 0 then .error .einval
  else if vidHdrOffset < 0 then .error .einval
  else if !ioUnitsOk mtd then .error .einval
  else if (layout mtd vidHdrOffset.toNat).vidHdrShift % 4 ≠ 0 then .error .einval
  else if (layout mtd vidHdrOffset.toNat).offsetsBad then .error .einval
  else .ok (layout mtd vidHdrOffset.toNat)

/-! ## Reading a VID header -/

/-- What the MTD device makes of a read of `len` bytes: how many of them it stores, and its error. -/
structure MtdReply (len : Nat) where
  err : Option Errno
  retlen : Nat
  fits : retlen ≤ len
  full : err = none ∨ err = some .euclean → retlen = len

/-- `len` bytes from `start` on. -/
structure Span where
  start : Nat
  len : Nat
deriving DecidableEq

/-- Bytes of a buffer that are written and bytes of the flash that are read. -/
inductive Access
  | store (s : Span)
  | load (s : Span)
deriving DecidableEq

/-- What `mtd->read` returns. -/
inductive ReadResult
  | ok
  | bitflips
  | error (err : Errno)
deriving DecidableEq

/-- The device is asked until it answers or until `retries` more attempts have failed. -/
def mtdRead {len : Nat} (reply : Nat → MtdReply len) (buf addr : Nat) :
    Nat → Nat → List Access × ReadResult
  | retries, attempt =>
    let r := reply attempt
    let accesses : List Access := [.load ⟨addr, len⟩, .store ⟨buf, r.retlen⟩]
    match r.err with
    | none => (accesses, .ok)
    | some .euclean => (accesses, .bitflips)
    | some err =>
      match retries with
      | retries + 1 =>
        let rest := mtdRead reply buf addr retries (attempt + 1)
        (accesses ++ rest.1, rest.2)
      | 0 =>
        if r.retlen ≠ len ∧ err = .ebadmsg then (accesses, .error .eio)
        else (accesses, .error err)

/-- `ubi_io_read`: the first byte of the buffer is spoilt before the device is asked. -/
def ubiIoRead (ubi : UbiDevice) {len : Nat} (reply : Nat → MtdReply len) (buf pnum offset : Nat) :
    List Access × ReadResult :=
  let r := mtdRead reply buf (pnum * ubi.pebSize + offset) ubiIoRetries 0
  (.store ⟨buf, 1⟩ :: r.1, r.2)

/-- `ubi_zalloc_vid_hdr`: where in the allocation of `vid_hdr_alsize` bytes the header is. -/
def ubiZallocVidHdr (ubi : UbiDevice) : Nat := ubi.vidHdrShift

/-- `ubi_io_read_vid_hdr` as far as the bytes are read.  The magic, the CRC and the fields are
checked after that in the `UBI_VID_HDR_SIZE` bytes at `vidHdr`. -/
def ubiIoReadVidHdr (ubi : UbiDevice) (reply : Nat → MtdReply 1024) (pnum vidHdr : Nat) :
    List Access × ReadResult :=
  ubiIoRead ubi reply (vidHdr - ubi.vidHdrShift) pnum ubi.vidHdrAloffset

/-! ## What is accessed -/

section Accesses

variable {len : Nat} {reply : Nat → MtdReply len} {buf addr retries attempt : Nat} {s : Span}

/-- Every attempt is for the same bytes. -/
theorem mtdRead_access {a : Access} (h : a ∈ (mtdRead reply buf addr retries attempt).1) :
    a = .load ⟨addr, len⟩ ∨ ∃ n ≤ len, a = .store ⟨buf, n⟩ := by
  have hone : ∀ k, a ∈ [Access.load ⟨addr, len⟩, .store ⟨buf, (reply k).retlen⟩] →
      a = .load ⟨addr, len⟩ ∨ ∃ n ≤ len, a = .store ⟨buf, n⟩ := by
    intro k hk
    rcases List.mem_cons.mp hk with rfl | hk
    · exact Or.inl rfl
    · exact Or.inr ⟨_, (reply k).fits, List.mem_singleton.mp hk⟩
  induction retries generalizing attempt with
  | zero =>
    rw [mtdRead] at h
    dsimp only at h
    split at h
    · exact hone attempt h
    · exact hone attempt h
    · split at h <;> exact hone attempt h
  | succ retries ih =>
    rw [mtdRead] at h
    dsimp only at h
    split at h
    · exact hone attempt h
    · exact hone attempt h
    · rcases List.mem_append.mp h with h | h
      · exact hone attempt h
      · exact ih h

/-- Reading looks at the buffer for bit-flips. -/
theorem mtdRead_load : .load ⟨addr, len⟩ ∈ (mtdRead reply buf addr retries attempt).1 := by
  cases retries with
  | zero =>
    rw [mtdRead]
    dsimp only
    split
    · exact List.mem_cons_self
    · exact List.mem_cons_self
    · split <;> exact List.mem_cons_self
  | succ retries =>
    rw [mtdRead]
    dsimp only
    split
    · exact List.mem_cons_self
    · exact List.mem_cons_self
    · exact List.mem_append_left _ List.mem_cons_self

/-- The answer of a device that reads everything. -/
def MtdReply.whole (len : Nat) : MtdReply len := ⟨none, len, Nat.le_refl len, fun _ => rfl⟩

/-- Reading that succeeds fills the buffer. -/
theorem mtdRead_whole :
    .store ⟨buf, len⟩ ∈ (mtdRead (fun _ => MtdReply.whole len) buf addr retries attempt).1 := by
  cases retries <;> simp [mtdRead, MtdReply.whole]

end Accesses

/-- The read stays in the buffer and in the PEB, and the whole header is among the bytes read. -/
structure VidHdrReadFits (ubi : UbiDevice) (pnum : Nat) (accesses : List Access) : Prop where
  stores : ∀ s, .store s ∈ accesses → s.start + s.len ≤ ubi.vidHdrAlsize
  loads : ∀ s, .load s ∈ accesses →
    pnum * ubi.pebSize ≤ s.start ∧ s.start + s.len ≤ (pnum + 1) * ubi.pebSize
  covers : ∀ s, .load s ∈ accesses → ubi.vidHdrShift + ubiVidHdrSize ≤ s.len

/-- Reading a VID header stays inside the buffer, if that has room for 1024 bytes. -/
theorem ubiIoReadVidHdr_fits {ubi : UbiDevice} {pnum : Nat} :
    (∀ reply, VidHdrReadFits ubi pnum
      (ubiIoReadVidHdr ubi reply pnum (ubiZallocVidHdr ubi)).1) ↔
    1024 ≤ ubi.vidHdrAlsize ∧ ubi.vidHdrAloffset + 1024 ≤ ubi.pebSize ∧
      ubi.vidHdrShift + ubiVidHdrSize ≤ 1024 := by
  have hbuf : ubiZallocVidHdr ubi - ubi.vidHdrShift = 0 := Nat.sub_self _
  constructor
  · intro h
    obtain ⟨hstores, hloads, hcovers⟩ := h fun _ => MtdReply.whole 1024
    have hload := List.mem_cons_of_mem (Access.store ⟨ubiZallocVidHdr ubi - ubi.vidHdrShift, 1⟩)
      (@mtdRead_load _ (fun _ => MtdReply.whole 1024) (ubiZallocVidHdr ubi - ubi.vidHdrShift)
        (pnum * ubi.pebSize + ubi.vidHdrAloffset) ubiIoRetries 0)
    have hstore := hstores _ (List.mem_cons_of_mem _ mtdRead_whole)
    have hpeb := (hloads _ hload).2
    simp only [Nat.add_mul, Nat.one_mul] at hpeb
    exact ⟨by simpa [hbuf] using hstore, by omega, hcovers _ hload⟩
  · rintro ⟨halsize, hpeb, hshift⟩ reply
    have haccess : ∀ a ∈ (ubiIoReadVidHdr ubi reply pnum (ubiZallocVidHdr ubi)).1,
        a = .load ⟨pnum * ubi.pebSize + ubi.vidHdrAloffset, 1024⟩ ∨
          ∃ n ≤ 1024, a = .store ⟨0, n⟩ := by
      intro a ha
      rcases List.mem_cons.mp ha with rfl | ha
      · exact Or.inr ⟨1, by omega, by rw [hbuf]⟩
      · rw [hbuf] at ha
        exact mtdRead_access ha
    constructor
    · intro s hs
      obtain hs | ⟨n, hn, hs⟩ := haccess _ hs
      · cases hs
      · cases hs
        rw [Nat.zero_add]
        exact Nat.le_trans hn halsize
    · intro s hs
      obtain hs | ⟨n, hn, hs⟩ := haccess _ hs
      · cases hs
        simp only [Nat.add_mul, Nat.one_mul]
        omega
      · cases hs
    · intro s hs
      obtain hs | ⟨n, hn, hs⟩ := haccess _ hs
      · cases hs
        exact hshift
      · cases hs

/-! ## What `io_init` accepts -/

section Accepted

variable {mtd : Mtd} {vidHdrOffset : Int} {ubi : UbiDevice}

/-- What `io_init` has checked. -/
theorem ioInit_ok (h : ioInit mtd vidHdrOffset = .ok ubi) :
    ubi = layout mtd vidHdrOffset.toNat ∧ mtd.writesize.isPowerOfTwo ∧
      ubi.lebStart ≤ (mtd.pebSize + 2 ^ 32 - ubiVidHdrSize) % 2 ^ 32 := by
  unfold ioInit at h
  split at h
  · cases h
  · split at h
    · cases h
    · split at h
      · cases h
      · rename_i hunits
        split at h
        · cases h
        · split at h
          · cases h
          · rename_i hoffsets
            cases h
            simp only [ioUnitsOk, Bool.not_eq_true', Bool.not_eq_false, Bool.and_eq_true,
              decide_eq_true_eq] at hunits
            simp only [UbiDevice.offsetsBad, Bool.or_eq_true, decide_eq_true_eq] at hoffsets
            refine ⟨rfl, hunits.1.1.1, ?_⟩
            exact Nat.le_of_not_lt fun hlt => hoffsets (Or.inl (Or.inr hlt))

/-- A unit that the shift leaves something of is a power of two and divides the write size. -/
theorem hdrsMinIoSize_two_pow (h : mtd.writesize.isPowerOfTwo) (hpos : 0 < mtd.hdrsMinIoSize) :
    (∃ j, mtd.hdrsMinIoSize = 2 ^ j) ∧ mtd.hdrsMinIoSize ∣ mtd.writesize := by
  obtain ⟨k, hk⟩ := h
  have heq : mtd.hdrsMinIoSize = 2 ^ k / 2 ^ mtd.subpageSft := by
    rw [Mtd.hdrsMinIoSize, Nat.shiftRight_eq_div_pow, hk]
  have hle : mtd.subpageSft ≤ k := by
    refine Nat.le_of_not_lt fun hlt => ?_
    rw [Nat.div_eq_of_lt (Nat.pow_lt_pow_right (by omega) hlt)] at heq
    omega
  rw [Nat.pow_div hle (by omega)] at heq
  exact ⟨⟨_, heq⟩, heq ▸ hk ▸ Nat.pow_dvd_pow 2 (Nat.sub_le k _)⟩

/-- The buffer has the size of the unit, once that is more than a header. -/
theorem align_hdrsMinIoSize (h : mtd.writesize.isPowerOfTwo) :
    1024 ≤ align ubiVidHdrSize mtd.hdrsMinIoSize ↔ 1024 ≤ mtd.hdrsMinIoSize := by
  rcases Nat.eq_zero_or_pos mtd.hdrsMinIoSize with hz | hpos
  · rw [hz]
    decide
  · obtain ⟨⟨j, hj⟩, -⟩ := hdrsMinIoSize_two_pow h hpos
    rw [hj, show ubiVidHdrSize = 2 ^ 6 from rfl, show 1024 = 2 ^ 10 from rfl, align_two_pow,
      Nat.pow_le_pow_iff_right (by omega), Nat.pow_le_pow_iff_right (by omega)]
    omega

/-- The header is as far into its unit as its offset says. -/
theorem layout_shift (vidHdrOffset : Nat) :
    (layout mtd vidHdrOffset).vidHdrShift = vidHdrOffset % mtd.hdrsMinIoSize := by
  by_cases hz : vidHdrOffset = 0
  · simp [layout, hz]
  · have := alignDown_add_mod (x := vidHdrOffset) (a := mtd.hdrsMinIoSize)
    simp only [layout, if_neg hz]
    omega

/-- The data starts in a later unit than the header. -/
theorem layout_aloffset (hio : mtd.hdrsMinIoSize ∣ mtd.writesize) (hpos : 0 < mtd.writesize)
    (vidHdrOffset : Nat) :
    (layout mtd vidHdrOffset).vidHdrAloffset + mtd.hdrsMinIoSize ≤
      (layout mtd vidHdrOffset).lebStart := by
  have hstart : (layout mtd vidHdrOffset).vidHdrOffset + ubiVidHdrSize ≤
      (layout mtd vidHdrOffset).lebStart := le_align hpos
  have haloffset : (layout mtd vidHdrOffset).vidHdrAloffset ≤
      (layout mtd vidHdrOffset).vidHdrOffset := by
    by_cases hz : vidHdrOffset = 0
    · simp [layout, hz]
    · simpa [layout, hz] using alignDown_le
  have hunit : mtd.hdrsMinIoSize ∣ (layout mtd vidHdrOffset).vidHdrAloffset := by
    by_cases hz : vidHdrOffset = 0
    · simpa [layout, hz] using dvd_align
    · simpa [layout, hz] using dvd_alignDown
  refine add_le_of_dvd_of_lt hunit (Nat.dvd_trans hio dvd_align) ?_
  exact Nat.lt_of_le_of_lt haloffset (Nat.lt_of_lt_of_le (Nat.lt_add_of_pos_right (by decide))
    hstart)

/-- Reading the VID headers is safe on the devices whose header unit has `1024` bytes and whose
header ends within the first `1024` of its unit. -/
theorem vidHdrReads_fit_iff (h : ioInit mtd vidHdrOffset = .ok ubi) :
    (∀ pnum reply, VidHdrReadFits ubi pnum
      (ubiIoReadVidHdr ubi reply pnum (ubiZallocVidHdr ubi)).1) ↔
    1024 ≤ mtd.hdrsMinIoSize ∧
      vidHdrOffset.toNat % mtd.hdrsMinIoSize + ubiVidHdrSize ≤ 1024 ∧ ubiVidHdrSize ≤ mtd.pebSize := by
  obtain ⟨rfl, hpow, hstart⟩ := ioInit_ok h
  simp only [ubiIoReadVidHdr_fits, forall_const, layout_shift]
  have halsize : (layout mtd vidHdrOffset.toNat).vidHdrAlsize =
    align ubiVidHdrSize mtd.hdrsMinIoSize := rfl
  have hpeb : (layout mtd vidHdrOffset.toNat).pebSize = mtd.pebSize := rfl
  rw [halsize, hpeb, align_hdrsMinIoSize hpow]
  constructor
  · rintro ⟨hio, hfits, hshift⟩
    exact ⟨hio, hshift, Nat.le_trans (by decide) (Nat.le_trans (Nat.le_add_left 1024 _) hfits)⟩
  · rintro ⟨hio, hshift, hpeb⟩
    obtain ⟨-, hdvd⟩ := hdrsMinIoSize_two_pow hpow (by omega)
    have hunit := layout_aloffset hdvd (Nat.pos_of_isPowerOfTwo hpow) vidHdrOffset.toNat
    -- nothing wraps around in a PEB that a header fits into
    have hsub : (mtd.pebSize + 2 ^ 32 - ubiVidHdrSize) % 2 ^ 32 ≤ mtd.pebSize := by
      rw [show mtd.pebSize + 2 ^ 32 - ubiVidHdrSize = mtd.pebSize - ubiVidHdrSize + 2 ^ 32 by omega,
        Nat.add_mod_right]
      exact Nat.le_trans (Nat.mod_le _ _) (Nat.sub_le _ _)
    exact ⟨hio, by omega, hshift⟩

end Accepted

/-- A device with pages of two kilobytes that can be written in quarters. -/
def subpages : Mtd where
  size := 0x8000000
  erasesize := 0x20000
  erasesizeShift := 17
  writesize := 2048
  writebufsize := 2048
  subpageSft := 2
  numeraseregions := 0
  norFlash := false
  blockIsbad := true
  blockMarkbad := true
  writeable := true
  erasesize_pos := by decide
  erasesize_lt := by decide
  writesize_lt := by decide
  writebufsize_lt := by decide

/-- The buffer has half the bytes that are read into it. -/
theorem vidHdrRead_overflows : ioInit subpages 0 = .ok (layout subpages 0) ∧
    ¬ VidHdrReadFits (layout subpages 0) 0 (ubiIoReadVidHdr (layout subpages 0)
      (fun _ => MtdReply.whole 1024) 0 (ubiZallocVidHdr (layout subpages 0))).1 := by
  refine ⟨rfl, fun h => ?_⟩
  exact absurd (h.stores ⟨0, 1024⟩ (by decide +kernel)) (by decide +kernel)

/-- The same device without sub-pages. -/
theorem vidHdrReads_fit_pages :
    VidHdrReadFits (layout { subpages with subpageSft := 0 } 0) 7
      (ubiIoReadVidHdr (layout { subpages with subpageSft := 0 } 0) (fun _ => MtdReply.whole 1024) 7
        (ubiZallocVidHdr (layout { subpages with subpageSft := 0 } 0))).1 :=
  (@vidHdrReads_fit_iff { subpages with subpageSft := 0 } 0 _ rfl).mpr
    (by decide +kernel) 7 _

end Ubi.IoInit
