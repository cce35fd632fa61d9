/-
  Nodes of the LEB properties tree, packed and unpacked.

  `pack_bits` lays a field, and `ubifs_unpack_bits` reads one, wherever it starts.  A node whose
  values fit their fields is read back from any memory that has its bytes.

  `Laid` and `Holds` of `Lib.BitFields` are about bits; `packBits_laid` and `unpack_of_holds` are
  the two ends at which the code meets them.  `NodeAt` is a node with its checksum in memory, and
  it does not matter how it came there.
-/
import FlashStack.Ubifs.Lpt

open Lib

namespace Ubifs.Lpt

open Lp

/-! ## Packing bits -/

/-- The pointer to bit `i`. -/
def bitPtr (i : Nat) : BitPtr := ⟨i / 8, i % 8⟩

/-- The first bit of a byte. -/
theorem bitPtr_byte (a : Nat) : bitPtr (8 * a) = ⟨a, 0⟩ := by
  simp [bitPtr]

section Bits

variable {m m' : Memory} {i n n' j p : Nat} {val : BitVec 32}

/-- A byte that is stored changes its own bits. -/
theorem bitAt_store (m : Memory) (p k : Nat) (val : BitVec 32) : bitAt (store m p val) k =
    if k / 8 = p then val.getLsbD (k % 8) else bitAt m k := by
  unfold bitAt store
  by_cases h : k / 8 = p
  · rw [if_pos h, h, Function.update_self, BitVec.getLsbD_setWidth]
    simp [Nat.mod_lt]
  · rw [if_neg h, Function.update_of_ne h]

/-- The byte in hand takes the low bits of the value above its own. -/
theorem laid_first (val : BitVec 32) (hclean : Clean m i) (hi : i % 8 ≠ 0) :
    Laid m (Function.update m (i / 8) (m (i / 8) ||| val.setWidth 8 <<< (i % 8))) i (8 - i % 8)
      val.getLsbD := by
  intro k
  by_cases h : k / 8 = i / 8
  · have h8 : k % 8 < 8 := Nat.mod_lt _ (by decide)
    have hbit : bitAt m k = (m (i / 8)).getLsbD (k % 8) := by rw [bitAt, h]
    rw [bitAt, h, Function.update_self, BitVec.getLsbD_or, BitVec.getLsbD_shiftLeft,
      BitVec.getLsbD_setWidth, ← hbit]
    by_cases hk : i ≤ k
    · have hsub : k % 8 - i % 8 = k - i := by omega
      have hle : ¬k % 8 < i % 8 := by omega
      have hlt : k - i < 8 := by omega
      rw [if_pos (by omega), hclean k hk (by omega), hsub]
      simp [h8, hle, hlt]
    · have hlt : k % 8 < i % 8 := by omega
      rw [if_neg (by omega)]
      simp [hlt]
  · rw [if_neg (by omega), bitAt, Function.update_of_ne h, bitAt]

/-- The next byte of a value goes behind the part that is there. -/
theorem laid_next (h : Laid m m' i j val.getLsbD) (hp : 8 * p = i + j) :
    Laid m (store m' p (val >>> j)) i (j + 8) val.getLsbD := by
  intro k
  rw [bitAt_store, h k, BitVec.getLsbD_ushiftRight]
  by_cases hk : k / 8 = p
  · have hidx : j + k % 8 = k - i := by omega
    rw [if_pos hk, if_pos (by omega), hidx]
  · rw [if_neg hk]
    by_cases hr : i ≤ k ∧ k < (i + j + 7) / 8 * 8
    · rw [if_pos hr, if_pos (by omega)]
    · rw [if_neg hr, if_neg (by omega)]

/-- `pack_bits` puts the low bits of the value at the pointer, and clears the rest of the last
    byte. -/
theorem packBits_laid (val : BitVec 32) (hclean : Clean m i) (hn : 0 < n) (hle : n ≤ 32) :
    Laid m (packBits m (bitPtr i) val n).1 i n val.getLsbD := by
  have hb8 : i % 8 < 8 := Nat.mod_lt _ (by decide)
  unfold packBits bitPtr
  simp only [← BitVec.shiftRight_add]
  by_cases hb : i % 8 = 0
  · have hfirst : Laid m (store m (i / 8) val) i 8 val.getLsbD := by
      have hnone : Laid m m i 0 val.getLsbD := Laid.none hb
      simpa using laid_next hnone (by omega : 8 * (i / 8) = i + 0)
    simp only [hb, ne_eq, not_true_eq_false, if_false]
    split
    · have h₂ := laid_next hfirst (p := i / 8 + 1) (by omega)
      split
      · have h₃ := laid_next h₂ (p := i / 8 + 2) (by omega)
        split
        · exact (laid_next h₃ (by omega)).round (by omega)
        · exact h₃.round (by omega)
      · exact h₂.round (by omega)
    · exact hfirst.round (by omega)
  · have hfirst := laid_first val hclean hb
    simp only [ne_eq, hb, not_false_eq_true, if_true]
    split
    · have h₂ := laid_next hfirst (p := i / 8 + 1) (by omega)
      split
      · have h₃ := laid_next h₂ (p := i / 8 + 2) (by omega)
        split
        · have h₄ := laid_next h₃ (p := i / 8 + 3) (by omega)
          split
          · exact (laid_next h₄ (by omega)).round (by omega)
          · exact h₄.round (by omega)
        · exact h₃.round (by omega)
      · exact h₂.round (by omega)
    · exact hfirst.round (by omega)

/-- It leaves the pointer behind them. -/
theorem packBits_ptr (hn : 0 < n) (hle : n ≤ 32) :
    (packBits m (bitPtr i) val n).2 = bitPtr (i + n) := by
  unfold packBits bitPtr
  simp only
  split_ifs <;> simp <;> omega
/-! ## Unpacking bits -/

/-- `val` has `n` bits of the memory, and zeros above. -/
def Got (m : Memory) (i n : Nat) (val : BitVec 32) : Prop :=
  ∀ k < 32, val.getLsbD k = (decide (k < n) && bitAt m (i + k))

/-- A byte that is loaded. -/
theorem got_load (m : Memory) (p : Nat) : Got m (8 * p) 8 (load m p 0) := by
  intro k hk
  rw [load, BitVec.shiftLeft_zero, BitVec.getLsbD_setWidth]
  by_cases h8 : k < 8
  · rw [bitAt_byte m p h8]
    simp [h8, hk]
  · have hz : (m p).getLsbD k = false := BitVec.getLsbD_of_ge _ _ (by omega)
    simp [h8, hz]

/-- Of all the bits that were loaded, the low ones are those of the memory. -/
theorem Got.low (h : Got m i n val) (hn : n ≤ 32) {k : Nat} (hk : k < n) :
    val.getLsbD k = bitAt m (i + k) := by
  rw [h k (by omega), decide_eq_true hk, Bool.true_and]

/-- One more byte. -/
theorem Got.more (h : Got m (8 * p) n val) (hn : n % 8 = 0) :
    Got m (8 * p) (n + 8) (val ||| load m (p + n / 8) n) := by
  intro k hk
  rw [BitVec.getLsbD_or, h k hk, load, BitVec.getLsbD_shiftLeft, BitVec.getLsbD_setWidth]
  by_cases hlow : k < n
  · have hlt : k < n + 8 := by omega
    simp [hlow, hlt]
  · by_cases hin : k < n + 8
    · have hidx : 8 * p + k = 8 * (p + n / 8) + (k - n) := by omega
      have hsub : k - n < 32 := by omega
      rw [hidx, bitAt_byte m _ (by omega)]
      simp [hk, hlow, hin, hsub]
    · have hsub : 8 ≤ k - n := by omega
      simp [hlow, hin, hsub]

/-- The low bits come from the byte in hand. -/
theorem above_byte (h : ∀ k < n, val.getLsbD k = bitAt m (8 * (i / 8 + 1) + k)) {k : Nat}
    (hk : k < 32) (hn : k < 8 - i % 8 + n) :
    (val <<< (8 - i % 8) ||| (m (i / 8) >>> (i % 8)).setWidth 32).getLsbD k = bitAt m (i + k) := by
  rw [BitVec.getLsbD_or, BitVec.getLsbD_shiftLeft, BitVec.getLsbD_setWidth,
    BitVec.getLsbD_ushiftRight]
  by_cases hlow : k < 8 - i % 8
  · have hidx : i + k = 8 * (i / 8) + (i % 8 + k) := by omega
    rw [hidx, bitAt_byte m _ (by omega)]
    simp [hk, hlow]
  · have hidx : i + k = 8 * (i / 8 + 1) + (k - (8 - i % 8)) := by omega
    have hlt : k - (8 - i % 8) < n := by omega
    have hge : 8 ≤ i % 8 + k := by omega
    rw [hidx, ← h _ hlt]
    simp [hk, hlow, hge]

/-- The shifts of `ubifs_unpack_bits` cut off what is behind the value. -/
theorem mask_getLsbD (hn : 0 < n) (hle : n ≤ 32) (k : Nat) :
    (val <<< (32 - n) >>> (32 - n)).getLsbD k = (decide (k < n) && val.getLsbD k) := by
  rw [BitVec.getLsbD_ushiftRight, BitVec.getLsbD_shiftLeft]
  by_cases hk : k < n
  · have hlt : 32 - n + k < 32 := by omega
    simp [hk, hlt]
  · have hge : ¬32 - n + k < 32 := by omega
    simp [hk, hge]

/-- `ubifs_unpack_bits` gives the bits at the pointer. -/
theorem ubifsUnpackBits_bits (junk : BitVec 32) (hn : 0 < n) (hle : n ≤ 32) (k : Nat) :
    (ubifsUnpackBits m junk (bitPtr i) n).1.getLsbD k = (decide (k < n) && bitAt m (i + k)) := by
  have hb8 : i % 8 < 8 := Nat.mod_lt _ (by decide)
  unfold ubifsUnpackBits bitPtr
  simp only
  rw [mask_getLsbD hn hle]
  by_cases hk : k < n
  · simp only [hk, decide_true, Bool.true_and]
    by_cases hb : i % 8 = 0
    · obtain ⟨p, rfl⟩ : ∃ p, i = 8 * p := ⟨i / 8, by omega⟩
      have h₁ := got_load m p
      have h₂ := h₁.more (by decide)
      have h₃ := h₂.more (by decide)
      have h₄ := h₃.more (by decide)
      have hdiv : 8 * p / 8 = p := by omega
      simp only [hb, hdiv, ne_eq, not_true_eq_false, if_false, Nat.add_zero]
      have hbytes : (n + 7) / 8 = 1 ∨ (n + 7) / 8 = 2 ∨ (n + 7) / 8 = 3 ∨ (n + 7) / 8 = 4 := by
        omega
      rcases hbytes with h | h | h | h
      · rw [h]
        exact h₁.low (by decide) (by omega)
      · rw [h]
        exact h₂.low (by decide) (by omega)
      · rw [h]
        exact h₃.low (by decide) (by omega)
      · rw [h]
        exact h₄.low (by decide) (by omega)
    · have h₁ := got_load m (i / 8 + 1)
      have h₂ := h₁.more (by decide)
      have h₃ := h₂.more (by decide)
      have h₄ := h₃.more (by decide)
      simp only [hb, ne_eq, not_false_eq_true, if_true]
      have hbytes : (n + i % 8 + 7) / 8 = 1 ∨ (n + i % 8 + 7) / 8 = 2 ∨ (n + i % 8 + 7) / 8 = 3 ∨
        (n + i % 8 + 7) / 8 = 4 ∨ (n + i % 8 + 7) / 8 = 5 := by omega
      rcases hbytes with h | h | h | h | h
      · -- nothing is loaded, and what there was is shifted out of the way
        rw [h]
        exact above_byte (n := 0) (fun k hk => absurd hk (Nat.not_lt_zero k)) (by omega) (by omega)
      · rw [h]
        exact above_byte (fun k => h₁.low (by decide)) (by omega) (by omega)
      · rw [h]
        exact above_byte (fun k => h₂.low (by decide)) (by omega) (by omega)
      · rw [h]
        exact above_byte (fun k => h₃.low (by decide)) (by omega) (by omega)
      · rw [h]
        exact above_byte (fun k => h₄.low (by decide)) (by omega) (by omega)
  · simp [hk]

/-- It leaves the pointer behind them. -/
theorem ubifsUnpackBits_ptr (junk : BitVec 32)  :
    (ubifsUnpackBits m junk (bitPtr i) n).2 = bitPtr (i + n) := by
  unfold ubifsUnpackBits bitPtr
  simp only
  split_ifs <;> simp <;> omega
end Bits

/-! ## Fields in a row -/

section Rows

variable {m m' : Memory} {i : Nat} {f : Field 32} {fs : Fields}

/-- The fields of a node lie one behind the other. -/
theorem packFields_laid (hfs : ∀ f ∈ fs, f.Fits) (hclean : Clean m i) :
    Laid m (packFields m (bitPtr i) fs).1 i (Field.total fs) (Field.bit fs) := by
  induction fs generalizing m i with
  | nil => exact .nil hclean
  | cons f fs ih =>
    have hf := hfs f List.mem_cons_self
    have hlaid := packBits_laid f.val hclean hf.pos hf.le
    have hrest := ih (fun g hg => hfs g (List.mem_cons_of_mem f hg)) (hlaid.clean fun k => hf.high)
    have hpack : packBits m (bitPtr i) f.val f.width =
        ((packBits m (bitPtr i) f.val f.width).1, bitPtr (i + f.width)) :=
      Prod.ext rfl (packBits_ptr hf.pos hf.le)
    rw [packFields, hpack]
    exact hlaid.cons hrest

/-- A field that fits is read back. -/
theorem unpackBits_of_holds (h : Holds m i (f :: fs)) (hf : f.Fits) (val : BitVec 32) :
    ubifsUnpackBits m val (bitPtr i) f.width = (f.val, bitPtr (i + f.width)) := by
  refine Prod.ext ?_ (ubifsUnpackBits_ptr val)
  apply BitVec.eq_of_getLsbD_eq
  intro k hk
  rw [ubifsUnpackBits_bits val hf.pos hf.le]
  by_cases hlow : k < f.width
  · rw [h.head hlow, decide_eq_true hlow, Bool.true_and]
  · rw [decide_eq_false hlow, Bool.false_and, hf.high (Nat.le_of_not_lt hlow)]

/-- A field that fits in its width is read as it was written. -/
theorem unpack_of_holds (junk : Junk) {val : BitVec 32} {w : Nat} (h : Holds m i (⟨val, w⟩ :: fs))
    (hf : Field.Fits ⟨val, w⟩) : unpack junk m (bitPtr i) w = (val.toNat, bitPtr (i + w)) := by
  have hread := unpackBits_of_holds h hf (junk (bitPtr i))
  simp only at hread
  rw [unpack, hread]

end Rows

/-! ## A node in memory -/

section Node

variable {crc16 : Crc} {m m' : Memory} {buf buf' sz : Nat} {fs : Fields}

/-- What the checksum, the type and the fields need. -/
def nodeSz (fs : Fields) : Nat := ubifsLptCrcBytes + (Field.total fs + 7) / 8

/-- A packed node: its fields, and the checksum of its bytes. -/
structure NodeAt (crc16 : Crc) (m : Memory) (buf : Nat) (fs : Fields) : Prop where
  fields : Holds m (8 * (buf + ubifsLptCrcBytes)) fs
  crc : ∀ k < ubifsLptCrcBits, bitAt m (8 * buf + k) =
    (nodeCrc crc16 m buf (nodeSz fs)).getLsbD k

/-- Any bytes that are a copy will do. -/
theorem NodeAt.copy (h : NodeAt crc16 m buf fs)
    (hcopy : ∀ j < nodeSz fs, m' (buf' + j) = m (buf + j)) : NodeAt crc16 m' buf' fs := by
  have hbody : ∀ j < nodeSz fs - ubifsLptCrcBytes,
      m' (buf' + ubifsLptCrcBytes + j) = m (buf + ubifsLptCrcBytes + j) := by
    intro j hj
    rw [Nat.add_assoc, Nat.add_assoc]
    exact hcopy _ (by omega)
  constructor
  · exact h.fields.copy (by rw [nodeSz, Nat.add_sub_cancel_left]) hbody
  · intro k hk
    have hsz : 2 ≤ nodeSz fs := Nat.le_add_right ..
    rw [bitAt_copy hcopy (by unfold ubifsLptCrcBits at hk; omega), h.crc k hk, nodeCrc, nodeCrc,
      bytesAt_congr hbody]

/-- The bytes from `buf` on are written, whatever they were, and no others. -/
structure WritesExactly (pack : Memory → Memory) (buf sz : Nat) : Prop where
  other : ∀ m x, x < buf ∨ buf + sz ≤ x → pack m x = m x
  determined : ∀ m m' x, buf ≤ x → x < buf + sz → pack m x = pack m' x

/-- The fields start behind the checksum. -/
theorem fields_laid (m : Memory) (buf : Nat) (hfs : ∀ f ∈ fs, f.Fits) :
    Laid m (packFields m ⟨buf + ubifsLptCrcBytes, 0⟩ fs).1 (8 * (buf + ubifsLptCrcBytes))
      (Field.total fs) (Field.bit fs) := by
  rw [← bitPtr_byte]
  exact packFields_laid hfs (clean_start m _)

/-- The checksum is in front of them. -/
theorem crc_laid (m : Memory) (buf : Nat) (crc : BitVec 16) :
    Laid m (packBits m ⟨buf, 0⟩ (crc.setWidth 32) ubifsLptCrcBits).1 (8 * buf) ubifsLptCrcBits
      (crc.setWidth 32).getLsbD := by
  rw [← bitPtr_byte]
  exact packBits_laid _ (clean_start m _) (by decide) (by decide)

/-- After packing, the node is in memory. -/
theorem packNode_nodeAt (crc16 : Crc) (m : Memory) (buf : Nat) (hfs : ∀ f ∈ fs, f.Fits) :
    NodeAt crc16 (packNode crc16 m buf (nodeSz fs) fs) buf fs := by
  have hfields := fields_laid m buf hfs
  have hcrc := crc_laid (packFields m ⟨buf + ubifsLptCrcBytes, 0⟩ fs).1 buf
    (nodeCrc crc16 (packFields m ⟨buf + ubifsLptCrcBytes, 0⟩ fs).1 buf (nodeSz fs))
  -- the checksum is laid in front of the fields
  have hkeep : ∀ j, packNode crc16 m buf (nodeSz fs) fs (buf + ubifsLptCrcBytes + j) =
      (packFields m ⟨buf + ubifsLptCrcBytes, 0⟩ fs).1 (buf + ubifsLptCrcBytes + j) := fun j =>
    hcrc.other (by unfold ubifsLptCrcBytes ubifsLptCrcBits; omega)
  constructor
  · exact hfields.holds.copy (Nat.le_refl _) fun j _ => hkeep j
  · intro k hk
    have hcrcEq : nodeCrc crc16 (packNode crc16 m buf (nodeSz fs) fs) buf (nodeSz fs) =
        nodeCrc crc16 (packFields m ⟨buf + ubifsLptCrcBytes, 0⟩ fs).1 buf (nodeSz fs) := by
      rw [nodeCrc, nodeCrc, bytesAt_congr fun j _ => hkeep j]
    have hbit := hcrc.inside (k := 8 * buf + k) (by omega) (by omega)
    rw [hcrcEq]
    rw [Nat.add_sub_cancel_left, BitVec.getLsbD_setWidth] at hbit
    refine hbit.trans ?_
    unfold ubifsLptCrcBits at hk
    rw [decide_eq_true (by omega), Bool.true_and]

/-- Packing changes no byte outside the node, and each byte of the node depends on the fields
    alone. -/
theorem packNode_writes (crc16 : Crc) (buf : Nat) (hfs : ∀ f ∈ fs, f.Fits) :
    WritesExactly (fun m => packNode crc16 m buf (nodeSz fs) fs) buf (nodeSz fs) := by
  have hsz : nodeSz fs = 2 + (Field.total fs + 7) / 8 := rfl
  have hbuf : buf + ubifsLptCrcBytes = buf + 2 := rfl
  constructor
  · intro m x hx
    have hfields := fields_laid m buf hfs
    have hcrc := crc_laid (packFields m ⟨buf + ubifsLptCrcBytes, 0⟩ fs).1 buf
      (nodeCrc crc16 (packFields m ⟨buf + ubifsLptCrcBytes, 0⟩ fs).1 buf (nodeSz fs))
    calc packNode crc16 m buf (nodeSz fs) fs x
        = (packFields m ⟨buf + ubifsLptCrcBytes, 0⟩ fs).1 x :=
          hcrc.other (by unfold ubifsLptCrcBits; omega)
      _ = m x := hfields.other (by omega)
  · intro m m' x hx hlt
    -- the body first, for the checksum is of the body
    have hbody : ∀ x, buf + ubifsLptCrcBytes ≤ x → x < buf + nodeSz fs →
        (packFields m ⟨buf + ubifsLptCrcBytes, 0⟩ fs).1 x =
          (packFields m' ⟨buf + ubifsLptCrcBytes, 0⟩ fs).1 x := fun x hx hlt =>
      (fields_laid m buf hfs).determined (fields_laid m' buf hfs) hx (by omega)
    have hcrcEq : nodeCrc crc16 (packFields m ⟨buf + ubifsLptCrcBytes, 0⟩ fs).1 buf (nodeSz fs) =
        nodeCrc crc16 (packFields m' ⟨buf + ubifsLptCrcBytes, 0⟩ fs).1 buf (nodeSz fs) := by
      rw [nodeCrc, nodeCrc, bytesAt_congr fun j hj => hbody _ (by omega) (by omega)]
    have hcrc := crc_laid (packFields m ⟨buf + ubifsLptCrcBytes, 0⟩ fs).1 buf
      (nodeCrc crc16 (packFields m ⟨buf + ubifsLptCrcBytes, 0⟩ fs).1 buf (nodeSz fs))
    have hcrc' := crc_laid (packFields m' ⟨buf + ubifsLptCrcBytes, 0⟩ fs).1 buf
      (nodeCrc crc16 (packFields m' ⟨buf + ubifsLptCrcBytes, 0⟩ fs).1 buf (nodeSz fs))
    rw [← hcrcEq] at hcrc'
    show packNode crc16 m buf (nodeSz fs) fs x = packNode crc16 m' buf (nodeSz fs) fs x
    by_cases hfront : x < buf + 2
    · have hboth := hcrc.determined hcrc' hx (by unfold ubifsLptCrcBits; omega)
      rw [packNode, packNode, ← hcrcEq]
      exact hboth
    · rw [packNode, packNode, ← hcrcEq, hcrc.other (by unfold ubifsLptCrcBits; omega),
        hcrc'.other (by unfold ubifsLptCrcBits; omega)]
      exact hbody x (by omega) hlt

/-- The checksum of a packed node is right. -/
theorem NodeAt.crc_ok (junk : Junk) (h : NodeAt crc16 m buf fs) :
    checkLptCrc crc16 junk m buf (nodeSz fs) = .ok () := by
  have hcrc : (ubifsUnpackBits m (junk ⟨buf, 0⟩) ⟨buf, 0⟩ ubifsLptCrcBits).1.setWidth 16 =
      nodeCrc crc16 m buf (nodeSz fs) := by
    apply BitVec.eq_of_getLsbD_eq
    intro k hk
    have hk' : k < ubifsLptCrcBits := hk
    rw [BitVec.getLsbD_setWidth, ← bitPtr_byte, ubifsUnpackBits_bits _ (by decide) (by decide),
      decide_eq_true hk, decide_eq_true hk', Bool.true_and, Bool.true_and]
    exact h.crc k hk
  exact if_pos hcrc

/-- So is its type. -/
theorem NodeAt.type_ok (junk : Junk) {type : BitVec 32}
    (h : NodeAt crc16 m buf (⟨type, ubifsLptTypeBits⟩ :: fs))
    (ht : type.toNat < 2 ^ ubifsLptTypeBits) :
    checkLptType junk m ⟨buf + ubifsLptCrcBytes, 0⟩ type =
      .ok (bitPtr (8 * (buf + ubifsLptCrcBytes) + ubifsLptTypeBits)) := by
  have hfits : Field.Fits ⟨type, ubifsLptTypeBits⟩ :=
    ⟨by show 0 < ubifsLptTypeBits; decide, by show ubifsLptTypeBits ≤ 32; decide, ht⟩
  have hread := unpackBits_of_holds h.fields hfits (junk ⟨buf + ubifsLptCrcBytes, 0⟩)
  rw [bitPtr_byte] at hread
  rw [checkLptType, hread]
  exact if_pos rfl

end Node

end Ubifs.Lpt
