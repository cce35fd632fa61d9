/-
  Changing an LEB atomically: `UBI_IOCEBCH` of `vol_cdev_ioctl` in `cdev.c`, and
  `ubi_start_leb_change` and `ubi_more_leb_change_data` in `upd.c`.

  The data comes in calls of `write` and is collected in a buffer of as many bytes as the request
  announces.  With the last byte the buffer is filled up to whole I/O units and goes to the LEB.

  A buffer remembers what was stored in it, so that it can be said that all of it was inside
  (`Within`).  The calls keep the buffer (`lebChangeCalls_safe`), whether they fail or not, and
  when all data arrived without an error the LEB holds it (`lebChangeCalls_done`).
-/
import FlashStack.Ubi.Volume
import Mathlib.Logic.Function.Basic

open Lib

namespace Ubi.Vol

/-! ## The request -/

/-- The data types of `ubi-user.h`. -/
def ubiLongterm : Int := 1
def ubiShortterm : Int := 2
def ubiUnknown : Int := 3

/-- `struct ubi_leb_change_req` -/
structure LebChangeReq where
  lnum : Int
  bytes : Int
  dtype : Int

/-- What changing a LEB uses of a volume. -/
structure ChangeVolume where
  sizes : Sizes
  reservedPebs : Nat
  staticVolume : Bool

/-- A volume while an LEB is being changed. -/
structure Changing where
  updBytes : Nat
  updReceived : Nat
  chLnum : Nat
  changingLeb : Bool
  updBuf : UpdBuf
  leb : Nat → Nat → UInt8
  /-- the lengths that `ubi_eba_atomic_leb_change` was called with -/
  lengths : List Nat

/-- What the functions that the request calls do. -/
structure IoctlEnv where
  copied : Bool
  readonly : Bool
  users : Nat
  vmalloc : Bool
  /-- what is in the memory that is allocated -/
  memory : Nat → UInt8
  eba : Option Errno

/-- `ubi_eba_atomic_leb_change`.  When it fails with data to write, the LEB is as before.  Without data
    it unmaps the LEB and maps it again; if the second fails, the LEB has been unmapped all the same, but
    then `ubi_start_leb_change` returns the error, and nothing is said about the LEB. -/
def Changing.atomicLebChange (s : Changing) (eba : Option Errno) (lnum len : Nat) : Changing :=
  { s with
    leb := if eba = none then Function.update s.leb lnum (lebBytes s.updBuf.mem len) else s.leb
    lengths := s.lengths ++ [len] }

/-- `ubi_start_leb_change`: a request of no bytes is done at once. -/
def ubiStartLebChange (env : IoctlEnv) (req : LebChangeReq) (s : Changing) :
    Except Errno Changing :=
  if req.bytes = 0 then
    match env.eba with
    | some err => .error err
    | none => .ok (s.atomicLebChange none req.lnum.toNat 0)
  else if env.vmalloc then
    .ok { s with
      updBytes := req.bytes.toNat
      updReceived := 0
      changingLeb := true
      chLnum := req.lnum.toNat
      updBuf := ⟨env.memory, []⟩ }
  else .error .ENOMEM

/-- The check compares `lnum` with `usable_leb_size`, and `bytes` with nothing from above. -/
def lebChangeReqBad (vol : ChangeVolume) (req : LebChangeReq) : Bool :=
  decide (req.lnum < 0) || decide ((vol.reservedPebs : Int) ≤ req.lnum) || decide (req.bytes < 0) ||
    decide ((vol.sizes.usableLebSize : Int) ≤ req.lnum)

/-- `UBI_IOCEBCH`, on a volume whose LEBs hold `leb`. -/
def ubiIocebch (vol : ChangeVolume) (env : IoctlEnv) (req : LebChangeReq)
    (leb : Nat → Nat → UInt8) : Except Errno Changing :=
  if !env.copied then .error .EFAULT
  else if env.readonly || vol.staticVolume then .error .EROFS
  else if lebChangeReqBad vol req then .error .EINVAL
  else if req.dtype ≠ ubiLongterm ∧ req.dtype ≠ ubiShortterm ∧ req.dtype ≠ ubiUnknown then
    .error .EINVAL
  else if 1 < env.users then .error .EBUSY
  else ubiStartLebChange env req ⟨0, 0, 0, false, ⟨fun _ => 0, []⟩, leb, []⟩

/-! ## The data -/

/-- What the functions that one call of `write` calls do. -/
structure WriteEnv where
  roMode : Bool
  /-- how many bytes `copy_from_user` does not copy -/
  uncopied : Nat
  eba : Option Errno

/-- The `memset` behind the data. -/
def Changing.fill (vol : ChangeVolume) (s : Changing) : Changing :=
  { s with
    updBuf := s.updBuf.store s.updBytes
      (List.replicate (align s.updBytes vol.sizes.minIoSize - s.updBytes) 0xFF) }

/-- The last part of the call, when all bytes are there. -/
def finishLebChange (vol : ChangeVolume) (env : WriteEnv) (s : Changing) (count : Nat) :
    Except Errno Nat × Changing :=
  let buf := (s.fill vol).updBuf
  let len := ubiCalcDataLen vol.sizes.minIoSize buf.mem (align s.updBytes vol.sizes.minIoSize)
  let s := (s.fill vol).atomicLebChange env.eba s.chLnum len
  match env.eba with
  | some err => (.error err, s)
  | none => (.ok count, { s with changingLeb := false })

/-- How many of `count` bytes are taken. -/
def Changing.accept (s : Changing) (count : Nat) : Nat :=
  if s.updBytes < s.updReceived + count then s.updBytes - s.updReceived else count

/-- `ubi_more_leb_change_data`: what is missing is taken from the buffer, and the LEB is changed
    when all is there. -/
def ubiMoreLebChangeData (vol : ChangeVolume) (env : WriteEnv) (buf : List UInt8) (s : Changing) :
    Except Errno Nat × Changing :=
  if env.roMode then (.error .EROFS, s)
  else
    let count := s.accept buf.length
    let s := { s with
      updBuf := s.updBuf.store s.updReceived (buf.take (count - env.uncopied)) }
    if env.uncopied ≠ 0 then (.error .EFAULT, s)
    else
      let s := { s with updReceived := s.updReceived + count }
      if s.updReceived = s.updBytes then finishLebChange vol env s count else (.ok 0, s)

/-- The calls that are made as long as the change is not finished. -/
def lebChangeCalls (vol : ChangeVolume) (env : Nat → WriteEnv) :
    Nat → List (List UInt8) → Changing → Changing
  | _, [], s => s
  | k, buf :: bufs, s =>
    if s.changingLeb then
      lebChangeCalls vol env (k + 1) bufs (ubiMoreLebChangeData vol (env k) buf s).2
    else s

section Calls

variable {vol : ChangeVolume} {s : Changing} {buf : List UInt8}

/-! ## What a call keeps, failing or not -/

/-- The buffer is not overrun, and no more goes to the LEB than it takes. -/
structure Changing.Safe (vol : ChangeVolume) (s : Changing) : Prop where
  received_le : s.updReceived ≤ s.updBytes
  within : s.updBuf.Within s.updBytes
  lengths : ∀ len ∈ s.lengths, len ≤ vol.sizes.usableLebSize

section Safe

variable {env : WriteEnv} {e : Option Errno} {lnum len : Nat}

/-- A LEB that is written with no more than its size stays in it. -/
theorem atomicLebChange_safe (h : s.Safe vol) (hlen : len ≤ vol.sizes.usableLebSize) :
    (s.atomicLebChange e lnum len).Safe vol := by
  refine ⟨h.received_le, h.within, fun l hl => ?_⟩
  rcases List.mem_append.mp hl with hl | hl
  · exact h.lengths l hl
  · rw [List.mem_singleton.mp hl]
    exact hlen

/-- Without a gap up to the I/O unit, nothing is stored behind the data. -/
theorem fill_safe (hio : vol.sizes.minIoSize ∣ s.updBytes) (h : s.Safe vol) :
    (s.fill vol).Safe vol := by
  refine ⟨h.received_le, h.within.store ?_, h.lengths⟩
  rw [align_of_dvd vol.sizes.minIo_pos hio]
  simp

/-- So does the end of a change, when the length is a multiple of the write unit. -/
theorem finishLebChange_safe {count : Nat} (hio : vol.sizes.minIoSize ∣ s.updBytes)
    (hle : s.updBytes ≤ vol.sizes.usableLebSize) (h : s.Safe vol) :
    (finishLebChange vol env s count).2.Safe vol := by
  have hdone := @atomicLebChange_safe _ _ env.eba s.chLnum
    (ubiCalcDataLen vol.sizes.minIoSize (s.fill vol).updBuf.mem
      (align s.updBytes vol.sizes.minIoSize)) (fill_safe hio h) (by
    rw [align_of_dvd vol.sizes.minIo_pos hio]
    exact Nat.le_trans (ubiCalcDataLen_le vol.sizes.minIo_pos hio) hle)
  rw [finishLebChange]
  split
  · exact hdone
  · exact ⟨hdone.received_le, hdone.within, hdone.lengths⟩

/-- No more is accepted than was announced. -/
theorem accept_le (h : s.updReceived ≤ s.updBytes) (count : Nat) :
    s.updReceived + s.accept count ≤ s.updBytes := by
  unfold Changing.accept
  split <;> omega

/-- Each call of `write` stays inside the buffer. -/
theorem ubiMoreLebChangeData_safe (hio : vol.sizes.minIoSize ∣ s.updBytes)
    (hle : s.updBytes ≤ vol.sizes.usableLebSize) (h : s.Safe vol) :
    (ubiMoreLebChangeData vol env buf s).2.Safe vol ∧
      (ubiMoreLebChangeData vol env buf s).2.updBytes = s.updBytes := by
  have hfit := accept_le h.received_le buf.length
  have hlen : (buf.take (s.accept buf.length - env.uncopied)).length ≤ s.accept buf.length :=
    Nat.le_trans (List.length_take_le _ _) (Nat.sub_le _ _)
  have hbuf := @UpdBuf.Within.store _ s.updReceived (buf.take (s.accept buf.length - env.uncopied))
    _ h.within (by omega)
  unfold ubiMoreLebChangeData
  split
  · exact ⟨h, rfl⟩
  · dsimp only
    split
    · exact ⟨⟨h.received_le, hbuf, h.lengths⟩, rfl⟩
    · split
      · refine ⟨finishLebChange_safe hio hle ⟨hfit, hbuf, h.lengths⟩, ?_⟩
        rw [finishLebChange]
        split <;> rfl
      · exact ⟨⟨hfit, hbuf, h.lengths⟩, rfl⟩

end Safe

/-- So do all of them. -/
theorem lebChangeCalls_safe {env : Nat → WriteEnv} {k : Nat} {bufs : List (List UInt8)}
    (hio : vol.sizes.minIoSize ∣ s.updBytes) (hle : s.updBytes ≤ vol.sizes.usableLebSize)
    (h : s.Safe vol) :
    (lebChangeCalls vol env k bufs s).Safe vol ∧
      (lebChangeCalls vol env k bufs s).updBytes = s.updBytes := by
  induction bufs generalizing s k with
  | nil => exact ⟨h, rfl⟩
  | cons buf bufs ih =>
    rw [lebChangeCalls]
    split
    · obtain ⟨hsafe, hbytes⟩ := @ubiMoreLebChangeData_safe _ _ buf (env k) hio hle h
      obtain ⟨hrest, heq⟩ := ih (k := k + 1) (hbytes ▸ hio) (hbytes ▸ hle) hsafe
      exact ⟨hrest, heq.trans hbytes⟩
    · exact ⟨h, rfl⟩

/-! ## What arrives -/

/-- Nothing fails. -/
structure WriteEnv.Fine (env : WriteEnv) : Prop where
  roMode : env.roMode = false
  uncopied : env.uncopied = 0
  eba : env.eba = none

/-- `got` has arrived, and more is to come. -/
structure Changing.Holds (s : Changing) (got : List UInt8) : Prop where
  changing : s.changingLeb = true
  received : s.updReceived = got.length
  span_eq : span s.updBuf.mem 0 got.length = got
  more : got.length < s.updBytes

/-- The change is done, with `data`. -/
structure Changing.Done (s : Changing) (lnum : Nat) (data : List UInt8) : Prop where
  finished : s.changingLeb = false
  content : s.leb lnum = fun i => data.getD i 0xFF

/-- At the end the LEB holds what arrived. -/
theorem finishLebChange_done {env : WriteEnv} {count : Nat} (henv : env.Fine)
    (hreceived : span s.updBuf.mem 0 s.updBytes = buf) :
    (finishLebChange vol env s count).2.Done s.chLnum buf := by
  have hpos := vol.sizes.minIo_pos
  have hle : s.updBytes ≤ align s.updBytes vol.sizes.minIoSize := le_align hpos
  have hfill := lebBytes_fill (b := s.updBuf) (n := s.updBytes)
    (m := align s.updBytes vol.sizes.minIoSize - s.updBytes)
  rw [Nat.add_sub_cancel' hle] at hfill
  have hcontent : lebBytes (s.fill vol).updBuf.mem (ubiCalcDataLen vol.sizes.minIoSize
      (s.fill vol).updBuf.mem (align s.updBytes vol.sizes.minIoSize)) =
      fun i => buf.getD i 0xFF := by
    rw [lebBytes_dataLen hpos dvd_align, ← hreceived, ← lebBytes_eq]
    exact hfill
  rw [finishLebChange]
  simp only [henv.eba]
  refine ⟨rfl, ?_⟩
  simp only [Changing.atomicLebChange, if_true, Function.update_self]
  exact hcontent

/-- One call: the bytes that still fit are added to those that are there. -/
theorem ubiMoreLebChangeData_holds {env : WriteEnv} {got : List UInt8} (henv : env.Fine)
    (h : s.Holds got) :
    if got.length + buf.length < s.updBytes then
      (ubiMoreLebChangeData vol env buf s).2.Holds (got ++ buf)
    else (ubiMoreLebChangeData vol env buf s).2.Done s.chLnum ((got ++ buf).take s.updBytes) := by
  have hmore := h.more
  have hspan := @UpdBuf.span_store s.updBuf got.length (buf.take (s.accept buf.length))
  rw [h.span_eq] at hspan
  unfold ubiMoreLebChangeData
  simp only [henv.roMode, henv.uncopied, h.received, Bool.false_eq_true, if_false, Nat.sub_zero,
    ne_eq, not_true_eq_false]
  split
  · rename_i hlt
    have haccept : s.accept buf.length = buf.length := by
      rw [Changing.accept, h.received, if_neg (by omega)]
    rw [haccept, List.take_length] at hspan ⊢
    rw [if_neg (by omega)]
    exact ⟨h.changing, by simp, by simpa using hspan, by simpa using hlt⟩
  · rename_i hge
    have haccept : s.accept buf.length = s.updBytes - got.length := by
      rw [Changing.accept, h.received]
      split <;> omega
    have hlen : (buf.take (s.updBytes - got.length)).length = s.updBytes - got.length :=
      List.length_take_of_le (by omega)
    rw [haccept] at hspan ⊢
    rw [hlen, Nat.add_sub_cancel' (by omega)] at hspan
    rw [if_pos (by omega), List.take_append,
      List.take_of_length_le (show got.length ≤ s.updBytes by omega)]
    exact @finishLebChange_done vol _ _ _ _ henv hspan

/-- The calls do not change which LEB it is. -/
theorem ubiMoreLebChangeData_chLnum {env : WriteEnv} :
    (ubiMoreLebChangeData vol env buf s).2.chLnum = s.chLnum ∧
      (ubiMoreLebChangeData vol env buf s).2.updBytes = s.updBytes := by
  unfold ubiMoreLebChangeData finishLebChange
  split
  · exact ⟨rfl, rfl⟩
  · dsimp only
    split
    · exact ⟨rfl, rfl⟩
    · split
      · split <;> exact ⟨rfl, rfl⟩
      · exact ⟨rfl, rfl⟩

/-- All calls: in the LEB is what was announced of what came, however it came. -/
theorem lebChangeCalls_done {env : Nat → WriteEnv} {k : Nat} {bufs : List (List UInt8)}
    {got : List UInt8} (henv : ∀ k, (env k).Fine) (h : s.Holds got)
    (hall : s.updBytes ≤ (got ++ bufs.flatten).length) :
    (lebChangeCalls vol env k bufs s).Done s.chLnum ((got ++ bufs.flatten).take s.updBytes) := by
  induction bufs generalizing s k got with
  | nil =>
    have := h.more
    simp only [List.flatten_nil, List.append_nil] at hall
    omega
  | cons buf bufs ih =>
    rw [lebChangeCalls, if_pos h.changing]
    have hstep := @ubiMoreLebChangeData_holds vol _ buf _ _ (henv k) h
    obtain ⟨hlnum, hbytes⟩ := @ubiMoreLebChangeData_chLnum vol s buf (env k)
    split at hstep
    · have hrest := ih (k := k + 1) hstep
        (by simpa [hbytes, List.append_assoc] using hall)
      rw [hlnum, hbytes, List.append_assoc] at hrest
      exact hrest
    · rename_i hge
      have hfinished : lebChangeCalls vol env (k + 1) bufs
          (ubiMoreLebChangeData vol (env k) buf s).2 = (ubiMoreLebChangeData vol (env k) buf s).2 := by
        cases bufs with
        | nil => rfl
        | cons _ _ => rw [lebChangeCalls, if_neg (by simp [hstep.finished])]
      rw [hfinished, List.flatten_cons, ← List.append_assoc,
        List.take_append_of_le_length (by rw [List.length_append]; omega)]
      exact hstep

/-- All bytes in one call: what is stored and how much goes to the LEB. -/
theorem ubiMoreLebChangeData_whole {env : WriteEnv} (henv : env.Fine) (h : s.Holds [])
    (hbuf : buf.length = s.updBytes) :
    (s.updBytes, align s.updBytes vol.sizes.minIoSize - s.updBytes) ∈
        (ubiMoreLebChangeData vol env buf s).2.updBuf.stores ∧
      ubiCalcDataLen vol.sizes.minIoSize (ubiMoreLebChangeData vol env buf s).2.updBuf.mem
        (align s.updBytes vol.sizes.minIoSize) ∈
          (ubiMoreLebChangeData vol env buf s).2.lengths ∧
      ∀ i < s.updBytes, (ubiMoreLebChangeData vol env buf s).2.updBuf.mem i = buf.getD i 0 := by
  have hzero : s.updReceived = 0 := h.received
  have haccept : s.accept buf.length = s.updBytes := by
    rw [Changing.accept, hzero, hbuf]
    split <;> omega
  have hcall : (ubiMoreLebChangeData vol env buf s).2 =
      (finishLebChange vol env { s with
        updBuf := s.updBuf.store 0 buf, updReceived := s.updBytes } s.updBytes).2 := by
    unfold ubiMoreLebChangeData
    simp only [henv.roMode, henv.uncopied, haccept, hzero, Bool.false_eq_true, if_false, ne_eq,
      not_true_eq_false, Nat.zero_add, if_true, Nat.sub_zero, ← hbuf, List.take_length]
  rw [hcall, finishLebChange]
  simp only [henv.eba, Changing.fill, Changing.atomicLebChange, UpdBuf.store]
  refine ⟨by simp, by simp, fun i hi => ?_⟩
  rw [if_neg (by omega), if_pos (by omega), Nat.sub_zero]

end Calls

/-! ## Which requests go well -/

/-- However the data comes: no store goes behind the buffer of the bytes that were asked for, the
LEB gets no more than it takes, and in the end it has the data. -/
structure LebChangeRight (vol : ChangeVolume) (req : LebChangeReq) (s : Changing) : Prop where
  within : ∀ env bufs, (lebChangeCalls vol env 0 bufs s).updBuf.Within req.bytes.toNat
  lengths : ∀ env bufs, ∀ len ∈ (lebChangeCalls vol env 0 bufs s).lengths,
    len ≤ vol.sizes.usableLebSize
  content : ∀ env bufs data, (∀ k, (env k).Fine) → data.length = req.bytes.toNat →
    bufs.flatten.take data.length = data →
    (lebChangeCalls vol env 0 bufs s).Done req.lnum.toNat data

section Request

variable {vol : ChangeVolume} {env : IoctlEnv} {req : LebChangeReq} {leb : Nat → Nat → UInt8}
  {s : Changing}

/-- A volume on which an LEB is about to be changed. -/
structure Started (vol : ChangeVolume) (req : LebChangeReq) (s : Changing) : Prop where
  bytes : s.updBytes = req.bytes.toNat
  lnum : s.chLnum = req.lnum.toNat
  holds : s.Holds []
  safe : s.Safe vol

/-- The check lets through what is not negative and not behind the volume. -/
theorem ubiIocebch_ok (h : ubiIocebch vol env req leb = .ok s) :
    (req.bytes = 0 ∧ s.Done req.lnum.toNat [] ∧ s.updBuf.stores = [] ∧ s.lengths = [0]) ∨
      (0 < req.bytes ∧ Started vol req s) := by
  unfold ubiIocebch at h
  split at h
  · cases h
  · split at h
    · cases h
    · split at h
      · cases h
      · rename_i hbad
        split at h
        · cases h
        · split at h
          · cases h
          · unfold ubiStartLebChange at h
            split at h
            · rename_i hzero
              left
              split at h
              · cases h
              · cases h
                refine ⟨hzero, ⟨rfl, ?_⟩, rfl, rfl⟩
                simp only [Changing.atomicLebChange, if_true, Function.update_self]
                rw [lebBytes_eq]
                rfl
            · rename_i hne
              right
              split at h
              · cases h
                have hpos : 0 < req.bytes := by
                  simp only [lebChangeReqBad, Bool.or_eq_true, decide_eq_true_eq, not_or] at hbad
                  omega
                have hbytes : 0 < req.bytes.toNat := by omega
                exact ⟨hpos, rfl, rfl, ⟨rfl, rfl, rfl, hbytes⟩,
                  ⟨Nat.zero_le _, by simp [UpdBuf.Within], by simp⟩⟩
              · cases h

namespace Started

/-- What one call with all bytes stores behind the data. -/
theorem whole (hstart : Started vol req s) {buf : List UInt8} (hbuf : buf.length = s.updBytes)
    (hright : LebChangeRight vol req s) :
    align s.updBytes vol.sizes.minIoSize = s.updBytes ∧
      ∃ mem, (∀ i < s.updBytes, mem i = buf.getD i 0) ∧
        ubiCalcDataLen vol.sizes.minIoSize mem s.updBytes ≤ vol.sizes.usableLebSize := by
  have hfine : WriteEnv.Fine ⟨false, 0, none⟩ := ⟨rfl, rfl, rfl⟩
  obtain ⟨hstore, hlength, hmem⟩ :=
    @ubiMoreLebChangeData_whole vol _ _ _ hfine hstart.holds hbuf
  have hcall : lebChangeCalls vol (fun _ => ⟨false, 0, none⟩) 0 [buf] s =
      (ubiMoreLebChangeData vol ⟨false, 0, none⟩ buf s).2 := by
    rw [lebChangeCalls, if_pos hstart.holds.changing]
    rfl
  have hwithin := hright.within (fun _ => ⟨false, 0, none⟩) [buf]
  have hlengths := hright.lengths (fun _ => ⟨false, 0, none⟩) [buf]
  rw [hcall] at hwithin hlengths
  rw [← hstart.bytes] at hwithin
  have hle := le_align (x := s.updBytes) vol.sizes.minIo_pos
  have hfill := hwithin _ hstore
  have halign : align s.updBytes vol.sizes.minIoSize = s.updBytes := by omega
  rw [halign] at hlength
  exact ⟨halign, _, hmem, hlengths _ hlength⟩

/-- If the LEB is right in the end, the length was a multiple of the write unit. -/
theorem dvd_of_right (hstart : Started vol req s) (hright : LebChangeRight vol req s) :
    vol.sizes.minIoSize ∣ s.updBytes := by
  obtain ⟨halign, -⟩ := @whole _ _ _ hstart (List.replicate s.updBytes 0) List.length_replicate
    hright
  exact halign ▸ dvd_align

/-- Data without a `0xFF` at the end goes to the LEB as it is. -/
theorem le_of_right (hstart : Started vol req s) (hright : LebChangeRight vol req s) :
    s.updBytes ≤ vol.sizes.usableLebSize := by
  obtain ⟨halign, mem, hmem, hlen⟩ :=
    @whole _ _ _ hstart (List.replicate s.updBytes 0) List.length_replicate hright
  have hmore := hstart.holds.more
  obtain ⟨n, hn⟩ : ∃ n, s.updBytes = n + 1 := Nat.exists_eq_add_one.mpr hmore
  have hlast := hmem n (by omega)
  rw [List.getD_replicate _ (by omega)] at hlast
  rw [ubiCalcDataLen, hn, dataEnd_succ (by rw [hlast]; decide), ← hn, halign] at hlen
  exact hlen

end Started

/-- A request goes well when its size is a whole number of I/O units that fits into the LEB. -/
theorem ubiIocebch_right_iff (h : ubiIocebch vol env req leb = .ok s) :
    LebChangeRight vol req s ↔
      vol.sizes.minIoSize ∣ req.bytes.toNat ∧ req.bytes.toNat ≤ vol.sizes.usableLebSize := by
  rcases ubiIocebch_ok h with ⟨hzero, hdone, hstores, hlengths⟩ | ⟨hpos, hstart⟩
  · have hcalls : ∀ env bufs, lebChangeCalls vol env 0 bufs s = s := by
      intro env bufs
      cases bufs with
      | nil => rfl
      | cons _ _ => rw [lebChangeCalls, if_neg (by simp [hdone.finished])]
    rw [hzero]
    refine ⟨fun _ => ⟨Nat.dvd_zero _, Nat.zero_le _⟩, fun _ => ?_⟩
    constructor
    · intro env bufs
      rw [hcalls, UpdBuf.Within, hstores]
      simp
    · intro env bufs
      rw [hcalls, hlengths]
      simp
    · intro env bufs data _ hlen _
      rw [hcalls]
      rw [hzero] at hlen
      rw [List.length_eq_zero_iff.mp hlen]
      exact hdone
  · constructor
    · intro hright
      rw [← hstart.bytes]
      exact ⟨hstart.dvd_of_right hright, hstart.le_of_right hright⟩
    · rintro ⟨hio, hle⟩
      rw [← hstart.bytes] at hio hle
      constructor
      · intro env bufs
        obtain ⟨hsafe, hbytes⟩ := @lebChangeCalls_safe _ _ env 0 bufs hio hle hstart.safe
        rw [← hstart.bytes, ← hbytes]
        exact hsafe.within
      · intro env bufs
        exact (lebChangeCalls_safe hio hle hstart.safe).1.lengths
      · intro env bufs data henv hlen hdata
        rw [← hstart.bytes] at hlen
        have hall : s.updBytes ≤ ([] ++ bufs.flatten).length := by
          have := congrArg List.length hdata
          rw [List.length_take] at this
          rw [List.nil_append]
          omega
        have hdone := @lebChangeCalls_done vol _ _ 0 _ _ henv hstart.holds hall
        rw [hstart.lnum, List.nil_append, ← hlen, hdata] at hdone
        exact hdone

end Request

/-- A volume on a flash with pages of eight kilobytes. -/
def bigPages : ChangeVolume where
  sizes := ⟨32768, 8192, 1, by decide, by decide, Nat.one_pos, by decide, by decide, by decide⟩
  reservedPebs := 4
  staticVolume := false

/-- An `ioctl` call in which nothing goes wrong. -/
def ready : IoctlEnv := ⟨true, false, 1, true, fun _ => 0, none⟩

/-- Half a page goes to a buffer of half a page, and then the page is filled up. -/
theorem ubiIocebch_overruns : ∃ s,
    ubiIocebch bigPages ready ⟨0, 4096, ubiUnknown⟩ (fun _ _ => 0) = .ok s ∧
      ¬ LebChangeRight bigPages ⟨0, 4096, ubiUnknown⟩ s := by
  refine ⟨_, rfl, fun hright => ?_⟩
  obtain ⟨hzero, -⟩ | ⟨-, hstart⟩ :=
    @ubiIocebch_ok bigPages ready ⟨0, 4096, ubiUnknown⟩ (fun _ _ => 0) _ rfl
  · cases hzero
  · exact absurd (hstart.dvd_of_right hright) (by decide)

/-- A whole page. -/
theorem ubiIocebch_page : ∃ s,
    ubiIocebch bigPages ready ⟨0, 8192, ubiUnknown⟩ (fun _ _ => 0) = .ok s ∧
      LebChangeRight bigPages ⟨0, 8192, ubiUnknown⟩ s :=
  ⟨_, rfl, (@ubiIocebch_right_iff _ ready _ (fun _ _ => 0) _ rfl).mpr (by decide)⟩

end Ubi.Vol
