/-
  Sizes of the on-flash format (`ubifs-media.h`).

  All nodes start at multiples of eight bytes; their lengths need not be multiples of eight.

  What does not depend on the superblock is here: the headers of the node types that the journal
  writes, the largest data and directory entry node, the block size.  The modules of single
  subsystems have the constants that only they use.  `align_eight` is the one fact about the
  rounding of node lengths that budgets and groups need.
-/
import FlashStack.Lib.Align
import Mathlib.Algebra.Order.Group.Nat

namespace Ubifs

open Lib

/-- The sizes of nodes without their data, and the largest of them. -/
def ubifsInoNodeSz : Nat := 160
def ubifsDentNodeSz : Nat := 56
def ubifsDataNodeSz : Nat := 48
def ubifsTrunNodeSz : Nat := 56
def ubifsBlockSize : Nat := 4096
def ubifsMaxNlen : Nat := 255
def ubifsMaxDataNodeSz : Nat := ubifsDataNodeSz + ubifsBlockSize
def ubifsMaxDentNodeSz : Nat := ubifsDentNodeSz + ubifsMaxNlen + 1
def worstComprFactor : Nat := 2

/-- What there is to know about `ALIGN(x, 8)`. -/
theorem align_eight (x : Nat) : x ≤ align x 8 ∧ align x 8 < x + 8 ∧ align x 8 % 8 = 0 := by
  have hword : 8 ∣ align x 8 := dvd_align
  exact ⟨le_align (by decide), align_lt (by decide), Nat.mod_eq_zero_of_dvd hword⟩

end Ubifs
