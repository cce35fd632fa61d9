/-
  Volumes: how much of an LEB is used (`struct ubi_volume` in `ubi.h`), and the buffer that data for
  an LEB is collected in before it is written (`upd_buf`, `ubi_calc_data_len` in `misc.c`).

  `usable_leb_size` is what is left of an LEB by the alignment of the volume.  What is written is
  cut at the last byte that is not `0xFF` and rounded up to I/O units; an LEB reads as `0xFF`
  behind that, so the cut is not seen (`lebBytes_dataLen`).
-/
import FlashStack.Lib.Align
import FlashStack.Lib.Blocks
import Mathlib.Data.List.GetD

open Lib

namespace Ubi.Vol

/-- The errors of the character device. -/
inductive Errno
  | EPERM | EFAULT | EROFS | EINVAL | EBUSY | EBADF | ENOMEM
  | other (val : Nat)
deriving DecidableEq

/-! ## Sizes -/

/-- The sizes that the LEBs of a volume go by. -/
structure Sizes where
  lebSize : Nat
  minIoSize : Nat
  alignment : Nat
  minIo_pos : 0 < minIoSize
  io : minIoSize ∣ lebSize
  alignment_pos : 0 < alignment
  alignment_le : alignment ≤ lebSize
  aligned : alignment = 1 ∨ minIoSize ∣ alignment
  lebSize_lt : lebSize < 2 ^ 31

namespace Sizes

/-- LEBs of 62 pages of 2 KiB, as a NAND flash with blocks of 128 KiB has them. -/
def nand (alignment : Nat) (hpos : 0 < alignment) (hle : alignment ≤ 126976)
    (haligned : alignment = 1 ∨ 2048 ∣ alignment) : Sizes where
  lebSize := 126976
  minIoSize := 2048
  alignment := alignment
  minIo_pos := by decide
  io := by decide
  alignment_pos := hpos
  alignment_le := hle
  aligned := haligned
  lebSize_lt := by decide

variable (g : Sizes)

/-- `vol->data_pad`: what the alignment leaves of a LEB. -/
def dataPad : Nat := g.lebSize % g.alignment

/-- `vol->usable_leb_size` -/
def usableLebSize : Nat := g.lebSize - g.dataPad

/-- The usable part of a LEB is a multiple of the alignment. -/
theorem usableLebSize_eq : g.usableLebSize = g.lebSize / g.alignment * g.alignment := by
  have := Nat.div_add_mod' g.lebSize g.alignment
  unfold usableLebSize dataPad
  omega

/-- It is not empty. -/
theorem usableLebSize_pos : 0 < g.usableLebSize := by
  have := Nat.mod_lt g.lebSize g.alignment_pos
  have := g.alignment_le
  unfold usableLebSize dataPad
  omega

/-- An aligned LEB still has a whole number of I/O units. -/
theorem io_usable : g.minIoSize ∣ g.usableLebSize := by
  rcases g.aligned with h | h
  · have hpad : g.dataPad = 0 := by
      unfold dataPad
      rw [h]
      exact Nat.mod_one _
    unfold usableLebSize
    rw [hpad]
    exact g.io
  · rw [usableLebSize_eq]
    exact Nat.dvd_trans h (Nat.dvd_mul_left _ _)

end Sizes

/-! ## The buffer -/

/-- Memory from `upd_buf` on, with the places that were stored to: a start and a length each. -/
structure UpdBuf where
  mem : Nat → UInt8
  stores : List (Nat × Nat)

namespace UpdBuf

/-- `copy_from_user` and `memset` to `buf + start`. -/
def store (b : UpdBuf) (start : Nat) (data : List UInt8) : UpdBuf where
  mem := fun i =>
    if start ≤ i ∧ i < start + data.length then data.getD (i - start) 0 else b.mem i
  stores := b.stores ++ [(start, data.length)]

/-- No store goes beyond a buffer of `size` bytes. -/
def Within (b : UpdBuf) (size : Nat) : Prop := ∀ s ∈ b.stores, s.1 + s.2 ≤ size

section Store

variable {b : UpdBuf} {start n i : Nat} {data : List UInt8}

/-- A write to a buffer that has room for it. -/
theorem Within.store {size : Nat} (h : b.Within size) (hfit : start + data.length ≤ size) :
    (b.store start data).Within size := by
  intro s hs
  rcases List.mem_append.mp hs with hs | hs
  · exact h s hs
  · rw [List.mem_singleton.mp hs]
    exact hfit

/-- What is in front of a write is left alone. -/
theorem store_mem_before (h : i < start) : (b.store start data).mem i = b.mem i := by
  simp only [store]
  rw [if_neg (by omega)]

/-- What is stored after the first `n` bytes comes after them. -/
theorem span_store : span (b.store n data).mem 0 (n + data.length) = span b.mem 0 n ++ data := by
  rw [← span_append, Nat.zero_add]
  congr 1
  · refine span_congr fun i hi => ?_
    rw [Nat.zero_add]
    exact store_mem_before hi
  · refine List.ext_getElem length_span fun i _ hi => ?_
    simp only [span, store, List.getElem_map, List.getElem_range', Nat.one_mul,
      Nat.le_add_right, Nat.add_lt_add_iff_left, hi, and_self, if_true, Nat.add_sub_cancel_left]
    exact List.getD_eq_getElem data 0 hi

end Store

end UpdBuf

/-! ## How much of it is data -/

/-- The loop of `ubi_calc_data_len`: one more than the last of `length` bytes that is not `0xFF`. -/
def dataEnd (mem : Nat → UInt8) : Nat → Nat
  | 0 => 0
  | i + 1 => if mem i ≠ 0xFF then i + 1 else dataEnd mem i

/-- `ubi_calc_data_len` -/
def ubiCalcDataLen (minIoSize : Nat) (mem : Nat → UInt8) (length : Nat) : Nat :=
  align (dataEnd mem length) minIoSize

/-- What is in an LEB that `len` bytes were written to, from its start. -/
def lebBytes (mem : Nat → UInt8) (len : Nat) : Nat → UInt8 := fun i =>
  if i < len then mem i else 0xFF

section DataLen

variable {mem : Nat → UInt8} {io length i : Nat}

/-- The data end inside of the buffer. -/
theorem dataEnd_le : dataEnd mem length ≤ length := by
  induction length with
  | zero => exact Nat.le_refl 0
  | succ length ih =>
    rw [dataEnd]
    split <;> omega

/-- Behind the data there is `0xFF`. -/
theorem eq_ff_of_dataEnd_le (h : dataEnd mem length ≤ i) (hi : i < length) : mem i = 0xFF := by
  induction length with
  | zero => omega
  | succ length ih =>
    rw [dataEnd] at h
    split at h
    · omega
    · rename_i hff
      rcases Nat.lt_succ_iff_lt_or_eq.mp hi with hi | rfl
      · exact ih h hi
      · exact Decidable.not_not.mp hff

theorem dataEnd_eq_zero (h : ∀ i < length, mem i = 0xFF) : dataEnd mem length = 0 := by
  induction length with
  | zero => rfl
  | succ length ih =>
    rw [dataEnd, if_neg (by simp [h length (Nat.lt_succ_self length)])]
    exact ih fun i hi => h i (Nat.lt_succ_of_lt hi)

/-- The last byte that is not `0xFF` ends them. -/
theorem dataEnd_succ (h : mem length ≠ 0xFF) : dataEnd mem (length + 1) = length + 1 := by
  rw [dataEnd, if_pos h]

/-- Rounding up stays in a buffer that is a multiple of the write unit. -/
theorem ubiCalcDataLen_le (hio : 0 < io) (h : io ∣ length) : ubiCalcDataLen io mem length ≤ length :=
  align_le hio dataEnd_le h

/-- Leaving out the `0xFF` at the end makes no difference to an LEB. -/
theorem lebBytes_dataLen (hio : 0 < io) (h : io ∣ length) :
    lebBytes mem (ubiCalcDataLen io mem length) = lebBytes mem length := by
  funext i
  have hle : ubiCalcDataLen io mem length ≤ length := ubiCalcDataLen_le hio h
  simp only [lebBytes]
  split
  · rw [if_pos (by omega)]
  · rename_i hge
    split
    · rename_i hi
      have hend := le_align (x := dataEnd mem length) hio
      exact (eq_ff_of_dataEnd_le (Nat.le_trans hend (Nat.le_of_not_lt hge)) hi).symm
    · rfl

/-- Nor does filling it up with them. -/
theorem lebBytes_fill {b : UpdBuf} {n m : Nat} :
    lebBytes (b.store n (List.replicate m 0xFF)).mem (n + m) = lebBytes b.mem n := by
  funext i
  simp only [lebBytes, UpdBuf.store, List.length_replicate]
  by_cases hn : i < n
  · rw [if_pos (by omega), if_neg (by omega), if_pos hn]
  · by_cases hm : i < n + m
    · rw [if_pos hm, if_pos ⟨by omega, hm⟩, if_neg hn, List.getD_replicate _ (by omega)]
    · rw [if_neg hm, if_neg hn]

/-- What a LEB reads as that was written with these data. -/
theorem lebBytes_eq : lebBytes mem length = fun i => (span mem 0 length).getD i 0xFF := by
  funext i
  simp only [lebBytes]
  split
  · rename_i hi
    rw [List.getD_eq_getElem _ _ (by simpa using hi)]
    simp [span]
  · rename_i hi
    rw [List.getD_eq_default _ _ (by simpa using hi)]

end DataLen

end Ubi.Vol
