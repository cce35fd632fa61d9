/-
  Numbers as they are on a medium: a fixed number of bytes, the most significant one first.

  `encode n x` has `n` bytes whatever `x` is, so fields can be cut out of a record by their places;
  `decode_encode` is the round trip of a number that fits.
-/
import Mathlib.Algebra.Group.Nat.Defs
import Mathlib.Data.List.Basic
import Mathlib.Tactic.Common

namespace Lib.BigEndian

/-- The `n` bytes of a number. -/
def encode : Nat → Nat → List UInt8
  | 0, _ => []
  | n + 1, x => encode n (x / 256) ++ [UInt8.ofNat x]

/-- The number that some bytes are. -/
def decode (bs : List UInt8) : Nat := bs.foldl (fun x b => x * 256 + b.toNat) 0

/-- Numbers are written with a fixed number of bytes. -/
@[simp] theorem length_encode (n x : Nat) : (encode n x).length = n := by
  induction n generalizing x with
  | zero => rfl
  | succ n ih => rw [encode, List.length_append, ih, List.length_singleton]

/-- The last byte is the lowest. -/
theorem decode_append_singleton (bs : List UInt8) (b : UInt8) :
    decode (bs ++ [b]) = decode bs * 256 + b.toNat := by
  rw [decode, List.foldl_append]
  rfl

/-- A number that fits is read as it was written. -/
theorem decode_encode {n x : Nat} (h : x < 256 ^ n) : decode (encode n x) = x := by
  induction n generalizing x with
  | zero =>
    rw [Nat.pow_zero, Nat.lt_one_iff] at h
    rw [h]
    rfl
  | succ n ih =>
    have hx : x / 256 < 256 ^ n := by
      rw [Nat.div_lt_iff_lt_mul (by decide), ← Nat.pow_succ]
      exact h
    rw [encode, decode_append_singleton, ih hx, UInt8.toNat_ofNat']
    omega

end Lib.BigEndian
