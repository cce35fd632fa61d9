/-
  The geometry `ubiblk_add_locked` and `ftl_core_io_init` compute for a volume.

  Nothing checks it.  A volume of fewer than 30 LEBs exports no sectors or a negative number of
  them, one of 32 KiB pages has more sectors in a page than an `int` has bits, and the log page of
  a block with more pages than a quarter of the page size overflows.

  The mask of a page is built bit by bit, with shifts that are zero from 32 on; as long as there
  are no more than 31 sectors, each has a bit of its own (`sectorMask_inj`).
-/
import Mathlib.Algebra.Order.Ring.Int
import FlashStack.Uftl.AllOrNothing
import FlashStack.Uftl.Buffers

namespace Uftl

open Lib Lib.Prog

variable {fip : UftlInfo} {m m' : Module} {t : List Event}

/-! ## The bits of `sector_state` -/

/-- The mask of a sector is one bit, or nothing. -/
theorem getLsbD_sectorMask (i j : Nat) :
    (sectorMask i).getLsbD j = (decide (i < 32) && decide (i = j)) := by
  show (BitVec.twoPow 32 i).getLsbD j = _
  rw [BitVec.getLsbD_twoPow]

/-- The state after `set_page_buf_state` for each sector of `l`. -/
def writtenState (l : List Nat) : BitVec 32 := l.foldl (fun st i => st ||| sectorMask i) 0#32

/-- Some masks together. -/
theorem getLsbD_foldl (l : List Nat) (st : BitVec 32) {j : Nat} (hj : j < 32) :
    (l.foldl (fun st i => st ||| sectorMask i) st).getLsbD j =
      (st.getLsbD j || decide (j ∈ l)) := by
  induction l generalizing st with
  | nil => simp
  | cons i l ih =>
    rw [List.foldl_cons, ih, BitVec.getLsbD_or, getLsbD_sectorMask]
    by_cases hij : i = j
    · simp [hij, hj]
    · simp [hij, Ne.symm hij]

theorem getLsbD_writtenState (l : List Nat) {j : Nat} (hj : j < 32) :
    (writtenState l).getLsbD j = decide (j ∈ l) := by
  unfold writtenState
  rw [getLsbD_foldl l _ hj]
  simp

/-- With at most 31 sectors in a page, `sector_state` is `full_state` just when all were written. -/
theorem writtenState_eq_full (hbits : fip.pageSectorNum ≤ 31) {l : List Nat}
    (hl : ∀ i, i ∈ l → i < fip.pageSectorNum) :
    writtenState l = fullStateOf fip ↔ ∀ i, i < fip.pageSectorNum → i ∈ l := by
  have hfull : fullStateOf fip = writtenState (List.range fip.pageSectorNum) := rfl
  rw [hfull]
  constructor
  · intro he i hi
    have hbit := congrArg (·.getLsbD i) he
    simp only [getLsbD_writtenState _ (show i < 32 by omega), List.mem_range, hi, decide_true,
      decide_eq_true_eq] at hbit
    exact hbit
  · intro hall
    refine BitVec.eq_of_getLsbD_eq fun j hj => ?_
    rw [getLsbD_writtenState _ hj, getLsbD_writtenState _ hj, decide_eq_decide, List.mem_range]
    exact ⟨hl j, hall j⟩

/-! ## `full_state` as `init_status` leaves it -/

/-- The mask of a full page is set at the mount. -/
theorem initOffset_fullState {s s' : State} (h : initOffset fip s = .ok () s' t) :
    s'.fullState = fullStateOf fip := by
  unfold initOffset at h
  rw [getState_bind] at h
  by_cases hb : s.ftl.curOffset.block = ftlNomap
  · rw [if_pos hb] at h
    obtain ⟨b, s₁, t₁, t₂, -, hrest, -⟩ := bind_ok h
    obtain ⟨_, s₂, t₃, t₄, -, hset, -⟩ := bind_ok hrest
    cases hset
    rfl
  · rw [if_neg hb] at h
    obtain ⟨_, s₁, t₁, t₂, -, hset, -⟩ := bind_ok h
    cases hset
    rfl

theorem Completed.fullState {a : InitArgs} {s s' : State} (h : Completed a s s') :
    s'.fullState = fullStateOf a.fip := by
  obtain ⟨s₁, t₁, t₂, -, hstatus⟩ := h
  rw [initStatus_eq] at hstatus
  obtain ⟨_, s₂, t₃, t₄, -, hoffset, -⟩ := bind_ok hstatus
  exact initOffset_fullState hoffset

/-! ## Sound geometries -/

/-- `sizeof(struct page_log_info)` -/
def pageLogInfoSize : Int := 12

/-- What the driver takes for granted of the numbers it computes for a volume, and of the
    `full_state` it computes from them. -/
structure GeometrySound (size usableLebSize writesize : Nat) (fullState : BitVec 32) : Prop where
  positive : 0 < exportedSectors size (usableLebSize / writesize : Nat) writesize
  noOverflow : exportedSectors size (usableLebSize / writesize : Nat) writesize ≤ intMax
  /-- A block has a log page, with room for the entries of its data pages. -/
  logPage : 0 ≤ ((usableLebSize / writesize : Nat) : Int) - logPageNumPerBlock ∧
    (logInfoSize : Int) + intSize * (((usableLebSize / writesize : Nat) : Int) - logPageNumPerBlock) ≤
      writesize
  /-- A page has a last sector after its data, with room for the trailer. -/
  trailer : 0 ≤ (ubiblkArgs size usableLebSize writesize).pageSectorNum ∧
    (ubiblkArgs size usableLebSize writesize).pageSectorNum * sectorSize + pageLogInfoSize ≤
      writesize
  fits : ∀ i, i < (ubiblkArgs size usableLebSize writesize).fip.pageSectorNum →
    ((sectorMask i).toNat : Int) = 2 ^ i ∧ ((sectorMask i).toNat : Int) ≤ intMax
  distinct : ∀ i j, i < (ubiblkArgs size usableLebSize writesize).fip.pageSectorNum →
    j < (ubiblkArgs size usableLebSize writesize).fip.pageSectorNum →
    sectorMask i = sectorMask j → i = j
  full : ∀ l : List Nat,
    (∀ i, i ∈ l → i < (ubiblkArgs size usableLebSize writesize).fip.pageSectorNum) →
    (writtenState l = fullState ↔
      ∀ i, i < (ubiblkArgs size usableLebSize writesize).fip.pageSectorNum → i ∈ l)

/-- The volumes the arithmetic is made for. -/
structure GeometryFits (size usableLebSize writesize : Nat) : Prop where
  blocks : 30 ≤ size
  writesize_ge : 1024 ≤ writesize
  writesize_lt : writesize < 33 * 512
  pages_ge : 2 ≤ usableLebSize / writesize
  pages_le : 4 * (usableLebSize / writesize) + 4 ≤ writesize
  product : (size / 5 * 4 - 20) * (writesize / 512 - 1) * (usableLebSize / writesize - 1) < 2 ^ 31

section Arithmetic

variable {size usableLebSize writesize : Nat}

theorem pageSectorNum_eq :
    (ubiblkArgs size usableLebSize writesize).pageSectorNum = (writesize / 512 : Nat) - 1 := rfl

theorem fip_pageSectorNum :
    (ubiblkArgs size usableLebSize writesize).fip.pageSectorNum = writesize / 512 - 1 := by
  show (((writesize / 512 : Nat) : Int) - 1).toNat = _
  omega

/-- What is exported, as a product of three numbers. -/
theorem exportedSectors_eq (pageNum : Nat) :
    exportedSectors size pageNum writesize =
      ((size / 5 * 4 : Nat) - 20 : Int) * ((writesize / 512 : Nat) - 1) * ((pageNum : Int) - 1) := by
  have hblocks : (size : Int).tdiv 5 * 4 - gcBlockNum - ftlLogBlockNum =
      ((size / 5 * 4 : Nat) : Int) - 20 := by
    show ((size / 5 : Nat) : Int) * 4 - (10 : Nat) - (10 : Nat) = _
    omega
  unfold exportedSectors
  rw [hblocks]
  rfl

/-- The product is positive just when all its factors are, once two of them are not negative. -/
theorem product_pos_iff {x y z : Int} (hy : 0 ≤ y) (hz : 0 ≤ z) :
    0 < x * y * z ↔ 0 < x ∧ 0 < y ∧ 0 < z := by
  constructor
  · intro h
    have hxy : 0 < x * y := pos_of_mul_pos_left h hz
    have hx : 0 < x := pos_of_mul_pos_left hxy hy
    exact ⟨hx, pos_of_mul_pos_right hxy (le_of_lt hx), pos_of_mul_pos_right h (le_of_lt hxy)⟩
  · rintro ⟨hx, hy', hz'⟩
    exact Int.mul_pos (Int.mul_pos hx hy') hz'

/-- A mask fits in an `int` just when its bit is one of the lower 31. -/
theorem sectorMask_fits_iff (i : Nat) :
    ((sectorMask i).toNat : Int) = 2 ^ i ∧ ((sectorMask i).toNat : Int) ≤ intMax ↔ i ≤ 30 := by
  have hmask : (sectorMask i).toNat = 2 ^ i % 2 ^ 32 := by
    show (BitVec.twoPow 32 i).toNat = _
    rw [BitVec.toNat_twoPow]
  constructor
  · rintro ⟨heq, hle⟩
    rw [heq] at hle
    by_contra hgt
    have hpow : (2 : Int) ^ 31 ≤ 2 ^ i := pow_le_pow_right₀ (by decide) (by omega)
    unfold intMax at hle
    omega
  · intro hi
    have hpow : 2 ^ i ≤ 2 ^ 30 := Nat.pow_le_pow_right (by decide) hi
    rw [hmask, Nat.mod_eq_of_lt (by omega)]
    refine ⟨by push_cast; rfl, ?_⟩
    unfold intMax
    omega

/-- Masks that fit are different. -/
theorem sectorMask_inj {i j : Nat} (hi : i ≤ 30) (h : sectorMask i = sectorMask j) : i = j := by
  have hbit := congrArg (·.getLsbD i) h
  simp only [getLsbD_sectorMask] at hbit
  have hji : j < 32 ∧ j = i := by simpa [show i < 32 by omega] using hbit
  exact hji.2.symm

/-- It can be negative. -/
theorem natCast_product {x y z : Nat} (hx : 20 ≤ x) (hy : 1 ≤ y) (hz : 1 ≤ z) :
    (((x - 20) * (y - 1) * (z - 1) : Nat) : Int) = ((x : Int) - 20) * (y - 1) * (z - 1) := by
  push_cast [Nat.cast_sub hx, Nat.cast_sub hy, Nat.cast_sub hz]
  rfl

end Arithmetic

/-- **The geometry is sound** on the volumes that `GeometryFits` describes, and on no others, where
    `ftl_core_io_init` returns 0 with the values of `ubiblk_add_locked` and no allocation fails. -/
theorem geometry_sound_iff {size usableLebSize writesize : Nat}
    (h : ftlCoreIoInitAlloc (ubiblkArgs size usableLebSize writesize) m = .ok .zero m' t)
    (hall : ∀ k, m.allocs k = true) :
    GeometrySound size usableLebSize writesize m'.state.fullState ↔
      GeometryFits size usableLebSize writesize := by
  have hfull := (completed_of_granted h hall (Int.natCast_nonneg writesize)).fullState
  constructor
  · intro hs
    obtain ⟨hw, -⟩ := hs.trailer
    obtain ⟨hp, hlog⟩ := hs.logPage
    have hpos := hs.positive
    have hmax := hs.noOverflow
    have hfits := hs.fits
    rw [pageSectorNum_eq] at hw
    rw [exportedSectors_eq] at hpos hmax
    rw [fip_pageSectorNum] at hfits
    unfold logPageNumPerBlock at hp hlog
    unfold logInfoSize intSize at hlog
    obtain ⟨hx, hy, hz⟩ := (product_pos_iff hw hp).mp hpos
    have hlast : writesize / 512 - 1 - 1 ≤ 30 :=
      (sectorMask_fits_iff _).mp (hfits (writesize / 512 - 1 - 1) (by omega))
    rw [← natCast_product (by omega) (by omega) (by omega)] at hmax
    unfold intMax at hmax
    exact ⟨by omega, by omega, by omega, by omega, by omega, by omega⟩
  · intro hg
    have hblocks := hg.blocks
    have hge := hg.writesize_ge
    have hlt := hg.writesize_lt
    have hpages := hg.pages_ge
    have hlog := hg.pages_le
    have hprod := hg.product
    have hcast : exportedSectors size (usableLebSize / writesize : Nat) writesize = _ :=
      (exportedSectors_eq _).trans
        (natCast_product (by omega) (by omega) (by omega)).symm
    have hbits : (ubiblkArgs size usableLebSize writesize).fip.pageSectorNum ≤ 31 := by
      rw [fip_pageSectorNum]
      omega
    refine ⟨?_, ?_, ?_, ?_, fun i hi => ?_, fun i j hi hj => ?_, fun l hl => ?_⟩
    · rw [exportedSectors_eq, product_pos_iff (by omega) (by omega)]
      exact ⟨by omega, by omega, by omega⟩
    · rw [hcast]
      unfold intMax
      omega
    · unfold logPageNumPerBlock logInfoSize intSize
      exact ⟨by omega, by omega⟩
    · rw [pageSectorNum_eq]
      unfold sectorSize pageLogInfoSize
      exact ⟨by omega, by omega⟩
    · exact (sectorMask_fits_iff i).mpr (by omega)
    · exact sectorMask_inj (by omega)
    · rw [hfull]
      exact writtenState_eq_full hbits hl

/-- 30 LEBs of four pages of 2 KiB. -/
theorem geometry_sound_thirtyLebs :
    ∃ m', GeometrySound 30 8192 2048 m'.state.fullState ∧
      ∃ t, ftlCoreIoInitAlloc (ubiblkArgs 30 8192 2048) (.loaded fun _ => true) = .ok .zero m' t := by
  have hrun : (ftlCoreIoInitAlloc (ubiblkArgs 30 8192 2048) (.loaded fun _ => true)).okAnd
      (fun r _ _ => decide (r = .zero)) = true := by decide +kernel
  obtain ⟨r, m', t, hrun, hr⟩ := Res.okAnd_true hrun
  obtain rfl := of_decide_eq_true hr
  exact ⟨m', (geometry_sound_iff hrun fun _ => rfl).mpr
    ⟨by decide, by decide, by decide, by decide, by decide, by decide⟩, t, hrun⟩

/-- A volume of 24 LEBs is accepted and announced with a negative number of sectors. -/
theorem negative_sectors_exported :
    ∃ (size usableLebSize writesize : Nat) (m m' : Module) (t : List Event),
      ftlCoreIoInitAlloc (ubiblkArgs size usableLebSize writesize) m = .ok .zero m' t ∧
      (∀ k, m.allocs k = true) ∧
      ¬GeometrySound size usableLebSize writesize m'.state.fullState := by
  have hrun : (ftlCoreIoInitAlloc (ubiblkArgs (24 : Nat) (8192 : Nat) (2048 : Nat))
      (.loaded fun _ => true)).okAnd (fun r _ _ => decide (r = .zero)) = true := by decide +kernel
  obtain ⟨r, m', t, hrun, hr⟩ := Res.okAnd_true hrun
  obtain rfl := of_decide_eq_true hr
  exact ⟨24, 8192, 2048, _, m', t, hrun, fun _ => rfl, fun hs =>
    absurd hs.positive (by decide)⟩

end Uftl
