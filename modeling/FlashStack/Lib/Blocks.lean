/-
  Sequences that are stored in blocks of `b` elements: element `i` is in block `i / b`, at `i % b`.

  `span f start n` is a piece of a sequence as a list.  Writers fill block after block and readers
  go through positions; `block_append` and `flat_block` lead from the one to the other.
-/
import Mathlib.Data.Nat.Basic

namespace Lib

variable {α : Type} {b : Nat}

/-! ## Spans -/

/-- The `n` elements from `start` on. -/
def span (f : Nat → α) (start n : Nat) : List α := (List.range' start n).map f

section Span

variable {f g : Nat → α} {start m n : Nat}

@[simp] theorem length_span : (span f start n).length = n := by simp [span]

@[simp] theorem span_zero : span f start 0 = [] := rfl

/-- Two parts in a row. -/
theorem span_append : span f start m ++ span f (start + m) n = span f start (m + n) := by
  rw [span, span, span, ← List.map_append, List.range'_append_1]

/-- The first part. -/
theorem take_span (h : m ≤ n) : (span f start n).take m = span f start m := by
  rw [← Nat.add_sub_cancel' h, ← span_append]
  exact List.take_left' length_span

/-- It depends on the bytes in it. -/
theorem span_congr (h : ∀ i < n, f (start + i) = g (m + i)) : span f start n = span g m n := by
  refine List.ext_getElem (by simp) fun i hi _ => ?_
  have hi : i < n := by simpa using hi
  simp only [span, List.getElem_map, List.getElem_range', Nat.one_mul]
  exact h i hi

theorem span_eq_of {xs : List α} {d : α} (hlen : xs.length = n)
    (h : ∀ i < n, f i = xs.getD i d) : span f 0 n = xs := by
  refine List.ext_getElem (by simp [hlen]) fun i hi hi' => ?_
  have hat := h i (by omega)
  rw [List.getD_eq_getElem?_getD, List.getElem?_eq_getElem hi', Option.getD_some] at hat
  simp only [span, List.getElem_map, List.getElem_range', Nat.one_mul, Nat.zero_add]
  exact hat

end Span

/-! ## Blocks -/

/-- The sequence that is in the blocks. -/
def flat (b : Nat) (blocks : Nat → Nat → α) (i : Nat) : α := blocks (i / b) (i % b)

section Flat

variable {blocks : Nat → Nat → α} {k off n : Nat}

/-- The number of a block and the offset in it can be told from the position. -/
theorem block_div (h : off < b) : (k * b + off) / b = k := by
  rw [Nat.mul_comm, Nat.mul_add_div (by omega), Nat.div_eq_of_lt h, Nat.add_zero]

theorem block_mod (h : off < b) : (k * b + off) % b = off := by
  rw [Nat.mul_comm, Nat.mul_add_mod, Nat.mod_eq_of_lt h]

/-- A position is in its block. -/
theorem flat_at (h : off < b) : flat b blocks (k * b + off) = blocks k off := by
  rw [flat, block_div h, block_mod h]

/-- What does not leave a block is read from that block. -/
theorem span_flat (h : off + n ≤ b) : span (flat b blocks) (k * b + off) n = span (blocks k) off n := by
  refine span_congr fun i hi => ?_
  rw [Nat.add_assoc]
  exact flat_at (by omega)

end Flat

/-! ## Lists in blocks -/

/-- The elements of `xs` that go to block `k`. -/
def block (b : Nat) (xs : List α) (k : Nat) : List α := (xs.drop (k * b)).take b

/-- How many blocks `n` elements take. -/
def blockCount (b n : Nat) : Nat := (n + b - 1) / b

section Block

variable {xs ys : List α} {d : α} {k i n off : Nat}

theorem blockCount_eq (hpos : 0 < off) (hle : off ≤ b) : blockCount b (k * b + off) = k + 1 := by
  rw [blockCount, show k * b + off + b - 1 = (k + 1) * b + (off - 1) by rw [Nat.succ_mul]; omega]
  exact block_div (by omega)

/-- There are as many blocks as it takes. -/
theorem lt_blockCount_iff (hb : 0 < b) : k < blockCount b n ↔ k * b < n := by
  rw [blockCount, ← Nat.succ_le_iff, Nat.le_div_iff_mul_le hb, Nat.succ_mul]
  omega

/-- A block that is complete does not change any more. -/
theorem block_append (h : (k + 1) * b ≤ xs.length) : block b (xs ++ ys) k = block b xs k := by
  rw [Nat.succ_mul] at h
  rw [block, block, List.drop_append_of_le_length (by omega),
    List.take_append_of_le_length (by rw [List.length_drop]; omega)]

/-- The last block is the rest. -/
theorem block_last (h : xs.length ≤ (k + 1) * b) : block b xs k = xs.drop (k * b) := by
  rw [Nat.succ_mul] at h
  exact List.take_of_length_le (by rw [List.length_drop]; omega)

theorem block_of_le (h : xs.length ≤ k * b) : block b xs k = [] := by
  rw [block, List.drop_eq_nil_of_le h, List.take_nil]

/-- An element of a block. -/
theorem getElem?_block (h : off < b) : (block b xs k)[off]? = xs[k * b + off]? := by
  rw [block, List.getElem?_take_of_lt h, List.getElem?_drop]

/-- The blocks together are the list. -/
theorem flat_block (hb : 0 < b) : flat b (fun k off => (block b xs k).getD off d) i = xs.getD i d := by
  rw [flat, List.getD_eq_getElem?_getD, getElem?_block (Nat.mod_lt i hb), Nat.div_add_mod',
    List.getD_eq_getElem?_getD]

end Block

end Lib
