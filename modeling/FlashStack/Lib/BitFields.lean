/-
  Bit fields, end to end.

  A memory gives a byte for every address; its bit `i` is bit `i % 8` of byte `i / 8`.  Fields of
  different widths are laid one after another from a bit on, the lowest bit of a value first, and the
  rest of the last byte is zero.
-/
import Mathlib.Tactic.Common
import Mathlib.Algebra.Group.Nat.Defs
import Mathlib.Data.List.Basic
import Mathlib.Logic.Function.Basic

namespace Lib

/-- Bytes at addresses. -/
abbrev Memory := Nat → BitVec 8

/-! ## Bits of a memory -/

/-- Bit `i` of the memory, the lowest bit of a byte first. -/
def bitAt (m : Memory) (i : Nat) : Bool := (m (i / 8)).getLsbD (i % 8)

/-- A bit of a byte. -/
theorem bitAt_byte (m : Memory) (a : Nat) {k : Nat} (hk : k < 8) :
    bitAt m (8 * a + k) = (m a).getLsbD k := by
  have hdiv : (8 * a + k) / 8 = a := by omega
  have hmod : (8 * a + k) % 8 = k := by omega
  rw [bitAt, hdiv, hmod]

/-- Bytes are the same if their bits are. -/
theorem byte_eq {m m' : Memory} {a a' : Nat}
    (h : ∀ k < 8, bitAt m (8 * a + k) = bitAt m' (8 * a' + k)) : m a = m' a' := by
  apply BitVec.eq_of_getLsbD_eq
  intro k hk
  rw [← bitAt_byte m a hk, ← bitAt_byte m' a' hk]
  exact h k hk

theorem bitAt_copy {m m' : Memory} {a a' n : Nat} (h : ∀ i < n, m' (a' + i) = m (a + i)) {k : Nat}
    (hk : k < 8 * n) : bitAt m' (8 * a' + k) = bitAt m (8 * a + k) := by
  have hdiv : ∀ x, (8 * x + k) / 8 = x + k / 8 := by omega
  have hmod : ∀ x, (8 * x + k) % 8 = k % 8 := by omega
  unfold bitAt
  rw [hdiv, hdiv, hmod, hmod, h (k / 8) (by omega)]

/-- The bytes from an address on. -/
def bytesAt (m : Memory) (a n : Nat) : List (BitVec 8) := (List.range n).map fun i => m (a + i)

/-- Bytes that were copied. -/
theorem bytesAt_congr {m m' : Memory} {a a' n : Nat} (h : ∀ i < n, m' (a' + i) = m (a + i)) :
    bytesAt m' a' n = bytesAt m a n :=
  List.map_congr_left fun i hi => h i (List.mem_range.mp hi)

/-! ## Fields -/

/-- A value and the number of bits that it is given. -/
structure Field (w : Nat) where
  val : BitVec w
  width : Nat

namespace Field

variable {w : Nat}

/-- The value of a field fits in its width. -/
structure Fits (f : Field w) : Prop where
  pos : 0 < f.width
  le : f.width ≤ w
  lt : f.val.toNat < 2 ^ f.width

/-- Behind its width a field has no bits. -/
theorem Fits.high {f : Field w} (hf : f.Fits) {k : Nat} (hk : f.width ≤ k) :
    f.val.getLsbD k = false :=
  Nat.testBit_lt_two_pow (Nat.lt_of_lt_of_le hf.lt (Nat.pow_le_pow_right (by decide) hk))

/-- How many bits the fields take. -/
def total : List (Field w) → Nat
  | [] => 0
  | f :: fs => f.width + total fs

/-- Bit `k` of the fields; zero behind the last one. -/
def bit : List (Field w) → Nat → Bool
  | [], _ => false
  | f :: fs, k => if k < f.width then f.val.getLsbD k else bit fs (k - f.width)

@[simp] theorem total_nil : total ([] : List (Field w)) = 0 := rfl

@[simp] theorem total_cons (f : Field w) (fs : List (Field w)) :
    total (f :: fs) = f.width + total fs := rfl

@[simp] theorem total_append (fs gs : List (Field w)) : total (fs ++ gs) = total fs + total gs := by
  induction fs with
  | nil => simp
  | cons f fs ih => simp [ih, Nat.add_assoc]

/-- Lists of one width each. -/
theorem total_flatMap {α : Type*} (g : α → List (Field w)) (n : Nat) (xs : List α)
    (h : ∀ x ∈ xs, total (g x) = n) : total (xs.flatMap g) = xs.length * n := by
  induction xs with
  | nil => simp
  | cons x xs ih =>
    have hx := h x List.mem_cons_self
    have hxs := ih fun y hy => h y (List.mem_cons_of_mem x hy)
    rw [List.flatMap_cons, total_append, hx, hxs, List.length_cons, Nat.succ_mul, Nat.add_comm]

end Field

/-! ## Laying fields -/

variable {m m₁ m₂ m' : Memory} {i n n' : Nat} {b b' : Nat → Bool} {w : Nat}

/-- From bit `i` to the end of its byte there is nothing yet. -/
def Clean (m : Memory) (i : Nat) : Prop := ∀ k, i ≤ k → k < (i + 7) / 8 * 8 → bitAt m k = false

/-- There is nothing behind the last bit of a byte. -/
theorem clean_start (m : Memory) (a : Nat) : Clean m (8 * a) := by
  intro k hk hlt
  omega

/-- `m'` is `m` with `n` bits laid from `i` on, and zeros to the end of their last byte. -/
def Laid (m m' : Memory) (i n : Nat) (b : Nat → Bool) : Prop :=
  ∀ k, bitAt m' k = if i ≤ k ∧ k < (i + n + 7) / 8 * 8 then b (k - i) else bitAt m k

/-- The bytes that were touched hold the bits. -/
theorem Laid.inside (h : Laid m m' i n b) {k : Nat} (hk : i ≤ k) (hlt : k < (i + n + 7) / 8 * 8) :
    bitAt m' k = b (k - i) := by
  rw [h k, if_pos ⟨hk, hlt⟩]

/-- The others are as before. -/
theorem Laid.outside (h : Laid m m' i n b) {k : Nat} (hk : k < i ∨ (i + n + 7) / 8 * 8 ≤ k) :
    bitAt m' k = bitAt m k := by
  rw [h k, if_neg (by omega)]

theorem Laid.clean (h : Laid m m' i n b) (hb : ∀ k, n ≤ k → b k = false) : Clean m' (i + n) := by
  intro k hk hlt
  rw [h.inside (by omega) hlt]
  exact hb _ (by omega)

/-- Bits behind bits. -/
theorem Laid.append (h : Laid m m₁ i n b) (h' : Laid m₁ m₂ (i + n) n' b') :
    Laid m m₂ i (n + n') fun k => if k < n then b k else b' (k - n) := by
  intro k
  rw [h' k, h k]
  beta_reduce
  by_cases hfirst : k < i + n
  · rw [if_neg (by omega)]
    by_cases hi : i ≤ k
    · rw [if_pos (by omega), if_pos (by omega), if_pos (by omega)]
    · rw [if_neg (by omega), if_neg (by omega)]
  · by_cases hk : k < (i + n + n' + 7) / 8 * 8
    · rw [if_pos (by omega), if_pos (by omega), if_neg (by omega)]
      congr 1
      omega
    · rw [if_neg (by omega), if_neg (by omega), if_neg (by omega)]

theorem Laid.none (hi : i % 8 = 0) : Laid m m i 0 b := by
  intro k
  rw [if_neg (by omega)]

/-- Only the byte that the bits end in matters. -/
theorem Laid.round (h : Laid m m' i n b) (hn : (i + n + 7) / 8 = (i + n' + 7) / 8) :
    Laid m m' i n' b := by
  intro k
  rw [h k, hn]

theorem Laid.nil (h : Clean m i) : Laid m m i 0 (Field.bit ([] : List (Field w))) := by
  intro k
  split
  · rename_i hk
    exact h k hk.1 hk.2
  · rfl

/-- One field, then the others. -/
theorem Laid.cons {f : Field w} {fs : List (Field w)} (h : Laid m m₁ i f.width f.val.getLsbD)
    (h' : Laid m₁ m₂ (i + f.width) (Field.total fs) (Field.bit fs)) :
    Laid m m₂ i (Field.total (f :: fs)) (Field.bit (f :: fs)) :=
  h.append h'

section Bytes

variable {a : Nat}

/-- Other bytes keep what they have. -/
theorem Laid.other (h : Laid m m' (8 * a) n b) {x : Nat} (hx : x < a ∨ a + (n + 7) / 8 ≤ x) :
    m' x = m x :=
  byte_eq fun k hk => h.outside (by omega)

/-- The bytes that are laid do not depend on what was there. -/
theorem Laid.determined {l l' : Memory} (h : Laid m m' (8 * a) n b) (h' : Laid l l' (8 * a) n b)
    {x : Nat} (hx : a ≤ x) (hlt : x < a + (n + 7) / 8) : m' x = l' x := by
  apply byte_eq
  intro k hk
  rw [h.inside (by omega) (by omega), h'.inside (by omega) (by omega)]

end Bytes

/-! ## Reading fields -/

/-- The fields are there, from bit `i` on. -/
def Holds (m : Memory) (i : Nat) (fs : List (Field w)) : Prop :=
  ∀ k < Field.total fs, bitAt m (i + k) = Field.bit fs k

/-- Fields that were laid down can be read. -/
theorem Laid.holds {fs : List (Field w)} (h : Laid m m' i (Field.total fs) (Field.bit fs)) :
    Holds m' i fs := by
  intro k hk
  rw [h.inside (by omega) (by omega), Nat.add_sub_cancel_left]

/-- The bits of the first field. -/
theorem Holds.head {f : Field w} {fs : List (Field w)} (h : Holds m i (f :: fs)) {k : Nat}
    (hk : k < f.width) : bitAt m (i + k) = f.val.getLsbD k := by
  have hbit := h k (by simp only [Field.total_cons]; omega)
  rwa [Field.bit, if_pos hk] at hbit

/-- The other fields. -/
theorem Holds.tail {f : Field w} {fs : List (Field w)} (h : Holds m i (f :: fs)) :
    Holds m (i + f.width) fs := by
  intro k hk
  have hbit := h (f.width + k) (by simp only [Field.total_cons]; omega)
  rwa [Field.bit, if_neg (by omega), Nat.add_sub_cancel_left, ← Nat.add_assoc] at hbit

/-- Fields that were copied with their bytes. -/
theorem Holds.copy {fs : List (Field w)} {a a' : Nat} (h : Holds m (8 * a) fs)
    (hn : (Field.total fs + 7) / 8 ≤ n) (hcopy : ∀ j < n, m' (a' + j) = m (a + j)) :
    Holds m' (8 * a') fs := by
  intro k hk
  rw [bitAt_copy hcopy (by omega), h k hk]

end Lib
