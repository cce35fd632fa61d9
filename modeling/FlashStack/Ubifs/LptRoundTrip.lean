/-
  What is packed is unpacked.

  The number of an inner node has a leading one above two bits for each row, and the widths of the
  geometry have room for that as for all other values.  What is not saved is what only matters in
  memory: whether a LEB was taken, and what an entry of the table of LPT LEBs was reserved for.

  For each kind of node there are three facts: its values fit their fields (`fits_pnode`), the
  fields have the size of the geometry (`nodeSz_pnode`), and the fields in memory are read back
  (`unpackPnode_nodeAt`).  `lpt_round_trip` has them for all four kinds.
-/
import FlashStack.Ubifs.LptNodes

open Lib

namespace Ubifs.Lpt

open Lp

/-! ## Widths -/

/-- `fls` gives the width of a number. -/
theorem lt_two_pow_fls (n : Nat) : n < 2 ^ fls n := by
  unfold fls
  split
  · rename_i h
    rw [h]
    decide
  · exact Nat.lt_log2_self

/-- The width grows with the number. -/
theorem fls_le {n k : Nat} (h : n < 2 ^ k) : fls n ≤ k := by
  unfold fls
  split
  · exact Nat.zero_le k
  · rename_i hn
    exact (Nat.log2_lt hn).mpr h

theorem lt_fls {n k : Nat} (h : 2 ^ k ≤ n) : k < fls n :=
  (Nat.pow_lt_pow_iff_right (by decide)).mp (Nat.lt_of_le_of_lt h (lt_two_pow_fls n))

theorem fls_pos {n : Nat} (h : 0 < n) : 0 < fls n := lt_fls h

/-- The number of nodes of `d` entries each. -/
theorem divRoundUp_four (n : Nat) : divRoundUp n ubifsLptFanout = (n + 3) / 4 := rfl

/-! ## Numbers and heights -/

theorem calcNnodeNum_loop_lt (row col num : Nat) :
    calcNnodeNum.loop row col num < (num + 1) * 4 ^ row := by
  induction row generalizing col num with
  | zero => simp [calcNnodeNum.loop]
  | succ row ih =>
    have hdigit : num <<< 2 ||| col &&& 3 = 4 * num + col % 4 := by
      have hand : col &&& 3 = col % 4 := Nat.and_two_pow_sub_one_eq_mod col 2
      rw [hand, Nat.shiftLeft_eq, Nat.mul_comm, ← Nat.two_pow_add_eq_or_of_lt (by omega)]
    calc calcNnodeNum.loop (row + 1) col num
        = calcNnodeNum.loop row (col >>> 2) (4 * num + col % 4) := by
          rw [← hdigit]
          rfl
      _ < (4 * num + col % 4 + 1) * 4 ^ row := ih ..
      _ ≤ (4 * (num + 1)) * 4 ^ row := Nat.mul_le_mul_right _ (by omega)
      _ = (num + 1) * 4 ^ (row + 1) := by
        rw [Nat.pow_succ, Nat.mul_comm 4, Nat.mul_assoc, Nat.mul_comm 4]

/-- The number of an nnode has two bits for each row and one more. -/
theorem calcNnodeNum_lt (row col : Nat) : calcNnodeNum row col < 2 * 4 ^ row :=
  calcNnodeNum_loop_lt row col 1

/-- The height is the least one with enough leaves, but not less than one. -/
theorem hghtLoop_spec (max n h : Nat) (hn : 0 < n) (hpow : n = 4 ^ h) :
    max ≤ 4 ^ hghtLoop max n h hn ∧ h ≤ hghtLoop max n h hn ∧
      (h < hghtLoop max n h hn → 4 ^ (hghtLoop max n h hn - 1) < max) := by
  fun_induction hghtLoop max n h hn with
  | case1 n h hn hlt ih =>
    have hshift : n <<< ubifsLptFanoutShift = 4 ^ (h + 1) := by
      rw [hpow, Nat.shiftLeft_eq, Nat.pow_succ]
      rfl
    obtain ⟨henough, hle, hleast⟩ := ih hshift
    refine ⟨henough, Nat.le_of_succ_le hle, fun _ => ?_⟩
    rcases Nat.lt_or_eq_of_le hle with hmore | heq
    · exact hleast hmore
    · rw [← heq, Nat.add_sub_cancel, ← hpow]
      exact hlt
  | case2 n h hn hge =>
    refine ⟨?_, Nat.le_refl _, fun hlt => absurd hlt (Nat.lt_irrefl _)⟩
    omega

section Geometry

variable {c : Info}

/-- The sizes, in terms of the widths. -/
theorem geom_pnodeSz (c : Info) : c.geom.pnodeSz = (ubifsLptCrcBits + ubifsLptTypeBits +
    (if c.bigLpt then c.geom.pcntBits else 0) +
    (c.geom.spaceBits * 2 + 1) * ubifsLptFanout + 7) / 8 := rfl

theorem geom_nnodeSz (c : Info) : c.geom.nnodeSz = (ubifsLptCrcBits + ubifsLptTypeBits +
    (if c.bigLpt then c.geom.pcntBits else 0) +
    (c.geom.lptLnumBits + c.geom.lptOffsBits) * ubifsLptFanout + 7) / 8 := rfl

theorem geom_ltabSz (c : Info) : c.geom.ltabSz = (ubifsLptCrcBits + ubifsLptTypeBits +
    c.lptLebs * c.geom.lptSpcBits * 2 + 7) / 8 := rfl

theorem geom_lsaveSz (c : Info) : c.geom.lsaveSz = (ubifsLptCrcBits + ubifsLptTypeBits +
    c.geom.lnumBits * c.lsaveCnt + 7) / 8 := rfl

/-- The tree is as high as it has to be. -/
theorem lptHght_spec (c : Info) :
    divRoundUp (c.mainLebs + c.maxLebCnt - c.lebCnt) ubifsLptFanout ≤ 4 ^ c.geom.lptHght ∧
      1 ≤ c.geom.lptHght ∧ (1 < c.geom.lptHght → 4 ^ (c.geom.lptHght - 1) <
        divRoundUp (c.mainLebs + c.maxLebCnt - c.lebCnt) ubifsLptFanout) :=
  hghtLoop_spec _ _ 1 _ rfl

/-- Numbers of inner nodes have room where the leaves are counted. -/
theorem nnodeNum_lt (hc : c.Checked) {row : Nat} (hrow : row < c.geom.lptHght) (col : Nat) :
    calcNnodeNum row col < 2 ^ c.geom.pcntBits := by
  have hcnt : 2 ^ (2 * row) ≤ divRoundUp c.maxLebCnt ubifsLptFanout - 1 := by
    have hmin := hc.lebCnt
    have hmain := hc.mainLebs
    have hmax := hc.maxLebCnt
    obtain ⟨-, -, hleast⟩ := lptHght_spec c
    simp only [divRoundUp_four, ubifsMinLebCnt] at *
    rw [Nat.pow_mul]
    by_cases hone : row = 0
    · rw [hone]
      omega
    · have hpow : 4 ^ row ≤ 4 ^ (c.geom.lptHght - 1) := Nat.pow_le_pow_right (by decide) (by omega)
      have := hleast (by omega)
      show 4 ^ row ≤ _
      omega
  calc calcNnodeNum row col < 2 * 4 ^ row := calcNnodeNum_lt row col
    _ = 2 ^ (2 * row + 1) := by rw [Nat.pow_succ, Nat.pow_mul, Nat.mul_comm]
    _ ≤ 2 ^ c.geom.pcntBits := Nat.pow_le_pow_right (by decide) (lt_fls hcnt)

end Geometry

/-! ## Values that fit -/

/-- A number below a power of two fits in that many bits. -/
theorem fits_ofNat {x w : Nat} (hx : x < 2 ^ w) (hw : 0 < w) (hle : w ≤ 32) :
    Field.Fits (⟨BitVec.ofNat 32 x, w⟩ : Field 32) := by
  refine ⟨hw, hle, ?_⟩
  rw [BitVec.toNat_ofNat]
  exact Nat.lt_of_le_of_lt (Nat.mod_le x _) hx

/-- It is read as it was written. -/
theorem toNat_ofNat_of_fits {x w : Nat} (hx : x < 2 ^ w) (hle : w ≤ 32) :
    (BitVec.ofNat 32 x).toNat = x := by
  rw [BitVec.toNat_ofNat]
  exact Nat.mod_eq_of_lt (Nat.lt_of_lt_of_le hx (Nat.pow_le_pow_right (by decide) hle))

/-- The space of a LEB is counted in units of eight bytes. -/
theorem ofInt_shiftRight_three (x : Nat) :
    BitVec.ofInt 32 ((8 * x : Int) >>> (3 : Nat)) = BitVec.ofNat 32 x := by
  have hdiv : (8 * x : Int) >>> (3 : Nat) = x := by
    rw [Int.shiftRight_eq_div_pow]
    omega
  rw [hdiv, BitVec.ofInt_natCast]

section Domain

variable (c : Info)

/-- Space that a LEB can have. -/
structure Space (x : Int) : Prop where
  nonneg : 0 ≤ x
  le : x ≤ c.lebSize
  dvd : 8 ∣ x

/-- A pnode that a file system of this geometry can have. -/
structure PnodeOf (pnode : Pnode) : Prop where
  num : pnode.num < divRoundUp c.maxLebCnt ubifsLptFanout
  four : pnode.lprops.length = ubifsLptFanout
  free : ∀ lp ∈ pnode.lprops, Space c lp.free
  dirty : ∀ lp ∈ pnode.lprops, Space c lp.dirty

/-- A node that was never written, or a place in the LPT area. -/
def NbranchOf (b : Nbranch) : Prop :=
  b.lnum = 0 ∧ b.offs = 0 ∨ c.lptFirst ≤ b.lnum ∧ b.lnum ≤ c.lptLast ∧ b.offs < c.lebSize

/-- An nnode that it can have. -/
structure NnodeOf (nnode : Nnode) : Prop where
  num : ∃ row < c.geom.lptHght, ∃ col, nnode.num = calcNnodeNum row col
  four : nnode.nbranch.length = ubifsLptFanout
  nbranch : ∀ b ∈ nnode.nbranch, NbranchOf c b

/-- A table of the LEBs of the tree that it can have. -/
structure LtabOf (ltab : List LptLprops) : Prop where
  length : ltab.length = c.lptLebs
  space : ∀ lp ∈ ltab, lp.free + lp.dirty ≤ c.lebSize

/-- A table of saved LEBs that it can have. -/
structure LsaveOf (lsave : List Nat) : Prop where
  length : lsave.length = c.lsaveCnt
  main : ∀ lnum ∈ lsave, c.mainFirst ≤ lnum ∧ lnum < c.lebCnt

end Domain

/-- Widths that `pack_bits` takes. -/
structure Geom.Widths (g : Geom) : Prop where
  space : 0 < g.spaceBits ∧ g.spaceBits ≤ 32
  lptLnum : 0 < g.lptLnumBits ∧ g.lptLnumBits ≤ 32
  lptOffs : 0 < g.lptOffsBits ∧ g.lptOffsBits ≤ 32
  lptSpc : 0 < g.lptSpcBits ∧ g.lptSpcBits ≤ 32
  pcnt : 0 < g.pcntBits ∧ g.pcntBits ≤ 32
  lnum : 0 < g.lnumBits ∧ g.lnumBits ≤ 32

/-- The checks of the geometry keep the widths below 32 bits. -/
theorem Info.Checked.widths {c : Info} (hc : c.Checked) : c.geom.Widths := by
  obtain ⟨hleb, hint, hcnt, hmax, hmaxInt, -, -, hlpt, harea⟩ := hc
  unfold ubifsMinLebSz at hleb
  unfold ubifsMinLebCnt at hcnt
  unfold ubifsMinLptLebs at hlpt
  have hbits : 13 < fls c.lebSize := lt_fls (by omega)
  have hlebBits : fls c.lebSize ≤ 31 := fls_le hint
  constructor
  · show 0 < fls c.lebSize - 3 ∧ fls c.lebSize - 3 ≤ 32
    omega
  · exact ⟨fls_pos (by omega), fls_le (by omega)⟩
  · exact ⟨fls_pos (by omega), fls_le (by omega)⟩
  · exact ⟨fls_pos (by omega), fls_le (by omega)⟩
  · have hfour := divRoundUp_four c.maxLebCnt
    exact ⟨fls_pos (by omega), fls_le (by omega)⟩
  · exact ⟨fls_pos (by omega), fls_le (by omega)⟩

section Fit

variable {c : Info}

/-- Space in units of eight bytes. -/
theorem Space.units {x : Int} (h : Space c x) :
    ∃ k : Nat, x = 8 * k ∧ k < 2 ^ c.geom.spaceBits := by
  obtain ⟨k, rfl⟩ := h.dvd
  have hle := h.le
  have hnonneg := h.nonneg
  obtain ⟨n, rfl⟩ := Int.eq_ofNat_of_zero_le (by omega : 0 ≤ k)
  refine ⟨n, rfl, ?_⟩
  have hfls : 8 * n < 2 ^ fls c.lebSize := Nat.lt_of_le_of_lt (by omega) (lt_two_pow_fls _)
  have hpow : 2 ^ fls c.lebSize ≤ 2 ^ (fls c.lebSize - 3) * 2 ^ 3 := by
    rw [← Nat.pow_add]
    exact Nat.pow_le_pow_right (by decide) (by omega)
  show n < 2 ^ (fls c.lebSize - 3)
  omega

/-- The number of a node fits. -/
theorem fits_num (hc : c.Checked) {num : Nat} (hnum : num < 2 ^ c.geom.pcntBits) :
    ∀ f ∈ numFields c num, f.Fits := by
  intro f hf
  unfold numFields at hf
  split at hf
  · obtain rfl := List.mem_singleton.mp hf
    exact fits_ofNat hnum hc.widths.pcnt.1 hc.widths.pcnt.2
  · cases hf

/-- So does space, and the flag. -/
theorem fits_space (hc : c.Checked) {x : Int} (h : Space c x) :
    Field.Fits (⟨BitVec.ofInt 32 (x >>> (3 : Nat)), c.geom.spaceBits⟩ : Field 32) := by
  obtain ⟨k, rfl, hk⟩ := h.units
  rw [ofInt_shiftRight_three]
  exact fits_ofNat hk hc.widths.space.1 hc.widths.space.2

theorem fits_flag (flag : Bool) : Field.Fits (⟨if flag then 1 else 0, 1⟩ : Field 32) := by
  cases flag with
  | true => exact ⟨by decide, by decide, by decide⟩
  | false => exact ⟨by decide, by decide, by decide⟩

/-- So LEB properties fit. -/
theorem fits_lprops (hc : c.Checked) {lp : Lprops} (hfree : Space c lp.free)
    (hdirty : Space c lp.dirty) : ∀ f ∈ lpropsFields c lp, f.Fits := by
  unfold lpropsFields
  simp only [List.mem_cons, List.not_mem_nil, or_false, forall_eq_or_imp, forall_eq]
  exact ⟨fits_space hc hfree, fits_space hc hdirty, fits_flag lp.flags.index⟩

/-- A node that was never written is one LEB behind the last one. -/
def branchVal (c : Info) (b : Nbranch) : Nat :=
  if b.lnum = 0 then c.lptLebs else b.lnum - c.lptFirst

/-- The fields of a branch, as numbers. -/
theorem nbranchFields_eq (hc : c.Checked) {b : Nbranch} (hb : NbranchOf c b) :
    nbranchFields c b = [⟨BitVec.ofNat 32 (branchVal c b), c.geom.lptLnumBits⟩,
      ⟨BitVec.ofNat 32 b.offs, c.geom.lptOffsBits⟩] := by
  have hlebs := hc.lptLebs
  have hfirst := hc.lptFirst
  unfold ubifsMinLptLebs at hlebs
  unfold nbranchFields branchVal
  rcases hb with ⟨h0, -⟩ | ⟨hge, -, -⟩
  · have hsub : (((c.lptLast + 1 : Nat) : Int) - c.lptFirst) = (c.lptLebs : Nat) := by
      unfold Info.lptLast
      omega
    simp only [h0, if_true, hsub, BitVec.ofInt_natCast]
  · have hsub : ((b.lnum : Int) - c.lptFirst) = ((b.lnum - c.lptFirst : Nat) : Int) := by omega
    have hne : b.lnum ≠ 0 := by omega
    simp only [hne, if_false, hsub, BitVec.ofInt_natCast]

/-- They are small enough. -/
theorem branchVal_lt (hc : c.Checked) {b : Nbranch} (hb : NbranchOf c b) :
    branchVal c b < 2 ^ c.geom.lptLnumBits := by
  have hlebs := hc.lptLebs
  have hpow : c.lptLebs < 2 ^ c.geom.lptLnumBits := lt_two_pow_fls _
  unfold ubifsMinLptLebs at hlebs
  unfold branchVal
  rcases hb with ⟨h0, -⟩ | ⟨hge, hle, -⟩
  · rw [if_pos h0]
    exact hpow
  · unfold Info.lptLast at hle
    split <;> omega

theorem branchOffs_lt (hc : c.Checked) {b : Nbranch} (hb : NbranchOf c b) :
    b.offs < 2 ^ c.geom.lptOffsBits := by
  have hleb := hc.lebSize
  have hpow : c.lebSize - 1 < 2 ^ c.geom.lptOffsBits := lt_two_pow_fls _
  unfold ubifsMinLebSz at hleb
  rcases hb with ⟨-, h0⟩ | ⟨-, -, hlt⟩ <;> omega

/-- So a branch fits. -/
theorem fits_nbranch (hc : c.Checked) {b : Nbranch} (hb : NbranchOf c b) :
    ∀ f ∈ nbranchFields c b, f.Fits := by
  rw [nbranchFields_eq hc hb]
  simp only [List.mem_cons, List.not_mem_nil, or_false, forall_eq_or_imp, forall_eq]
  exact ⟨fits_ofNat (branchVal_lt hc hb) hc.widths.lptLnum.1 hc.widths.lptLnum.2,
    fits_ofNat (branchOffs_lt hc hb) hc.widths.lptOffs.1 hc.widths.lptOffs.2⟩

/-- And an entry of the table. -/
theorem fits_ltabEntry (hc : c.Checked) {lp : LptLprops} (h : lp.free + lp.dirty ≤ c.lebSize) :
    ∀ f ∈ ltabEntryFields c lp, f.Fits := by
  have hpow : c.lebSize < 2 ^ c.geom.lptSpcBits := lt_two_pow_fls _
  unfold ltabEntryFields
  simp only [List.mem_cons, List.not_mem_nil, or_false, forall_eq_or_imp, forall_eq]
  exact ⟨fits_ofNat (by omega) hc.widths.lptSpc.1 hc.widths.lptSpc.2,
    fits_ofNat (by omega) hc.widths.lptSpc.1 hc.widths.lptSpc.2⟩

/-- And a LEB number. -/
theorem lsaveLnum_lt (hc : c.Checked) {lnum : Nat} (h : lnum < c.lebCnt) :
    lnum < 2 ^ c.geom.lnumBits := by
  have hmax := hc.maxLebCnt
  have hpow : c.maxLebCnt - 1 < 2 ^ c.geom.lnumBits := lt_two_pow_fls _
  omega

theorem fits_type {type : BitVec 32} (h : type.toNat < 2 ^ ubifsLptTypeBits) :
    Field.Fits (⟨type, ubifsLptTypeBits⟩ : Field 32) :=
  ⟨by show 0 < ubifsLptTypeBits; decide, by show ubifsLptTypeBits ≤ 32; decide, h⟩

/-- The fields of a pnode fit in their widths. -/
theorem fits_pnode (hc : c.Checked) {pnode : Pnode} (h : PnodeOf c pnode) :
    ∀ f ∈ pnodeFields c pnode, f.Fits := by
  have hnum : pnode.num < 2 ^ c.geom.pcntBits := by
    have hpow : divRoundUp c.maxLebCnt ubifsLptFanout - 1 < 2 ^ c.geom.pcntBits := lt_two_pow_fls _
    have := h.num
    omega
  intro f hf
  rcases List.mem_cons.mp hf with rfl | hf
  · exact fits_type (by decide)
  · rcases List.mem_append.mp hf with hf | hf
    · exact fits_num hc hnum f hf
    · obtain ⟨lp, hlp, hf⟩ := List.mem_flatMap.mp hf
      exact fits_lprops hc (h.free lp hlp) (h.dirty lp hlp) f hf

/-- So do those of an nnode. -/
theorem fits_nnode (hc : c.Checked) {nnode : Nnode} (h : NnodeOf c nnode) :
    ∀ f ∈ nnodeFields c nnode, f.Fits := by
  obtain ⟨row, hrow, col, hnum⟩ := h.num
  intro f hf
  rcases List.mem_cons.mp hf with rfl | hf
  · exact fits_type (by decide)
  · rcases List.mem_append.mp hf with hf | hf
    · exact fits_num hc (hnum ▸ nnodeNum_lt hc hrow col) f hf
    · obtain ⟨b, hb, hf⟩ := List.mem_flatMap.mp hf
      exact fits_nbranch hc (h.nbranch b hb) f hf

/-- And those of the two tables. -/
theorem fits_ltab (hc : c.Checked) {ltab : List LptLprops} (h : LtabOf c ltab) :
    ∀ f ∈ ltabFields c ltab, f.Fits := by
  intro f hf
  rcases List.mem_cons.mp hf with rfl | hf
  · exact fits_type (by decide)
  · obtain ⟨lp, hlp, hf⟩ := List.mem_flatMap.mp hf
    exact fits_ltabEntry hc (h.space lp hlp) f hf

theorem fits_lsave (hc : c.Checked) {lsave : List Nat} (h : LsaveOf c lsave) :
    ∀ f ∈ lsaveFields c lsave, f.Fits := by
  intro f hf
  rcases List.mem_cons.mp hf with rfl | hf
  · exact fits_type (by decide)
  · obtain ⟨lnum, hlnum, hf⟩ := List.mem_flatMap.mp hf
    obtain rfl := List.mem_singleton.mp hf
    exact fits_ofNat (lsaveLnum_lt hc (h.main lnum hlnum).2) hc.widths.lnum.1 hc.widths.lnum.2

/-! ## Sizes -/

theorem total_num (c : Info) (num : Nat) :
    Field.total (numFields c num) = if c.bigLpt then c.geom.pcntBits else 0 := by
  unfold numFields
  split <;> rfl

/-- The size of a node, from its fields. -/
theorem nodeSz_cons (type : BitVec 32) (fs : Fields) : nodeSz (⟨type, ubifsLptTypeBits⟩ :: fs) =
    (ubifsLptCrcBits + ubifsLptTypeBits + Field.total fs + 7) / 8 := by
  show 2 + (4 + Field.total fs + 7) / 8 = (16 + 4 + Field.total fs + 7) / 8
  omega

/-- The size of a node is that of the geometry. -/
theorem nodeSz_pnode {pnode : Pnode} (h : PnodeOf c pnode) :
    nodeSz (pnodeFields c pnode) = c.geom.pnodeSz := by
  have hlprops := Field.total_flatMap (lpropsFields c) (c.geom.spaceBits * 2 + 1) pnode.lprops
    fun lp _ => by simp [lpropsFields]; omega
  rw [pnodeFields, nodeSz_cons, Field.total_append, total_num, hlprops, h.four, geom_pnodeSz,
    Nat.mul_comm ubifsLptFanout]
  simp only [Nat.add_assoc]

theorem nodeSz_nnode {nnode : Nnode} (h : NnodeOf c nnode) :
    nodeSz (nnodeFields c nnode) = c.geom.nnodeSz := by
  have hbranches := Field.total_flatMap (nbranchFields c) (c.geom.lptLnumBits + c.geom.lptOffsBits)
    nnode.nbranch fun b _ => by simp [nbranchFields]
  rw [nnodeFields, nodeSz_cons, Field.total_append, total_num, hbranches, h.four, geom_nnodeSz,
    Nat.mul_comm ubifsLptFanout]
  simp only [Nat.add_assoc]

/-- The same for the tables. -/
theorem nodeSz_ltab {ltab : List LptLprops} (h : ltab.length = c.lptLebs) :
    nodeSz (ltabFields c ltab) = c.geom.ltabSz := by
  have hentries := Field.total_flatMap (ltabEntryFields c) (c.geom.lptSpcBits * 2) ltab
    fun lp _ => by simp [ltabEntryFields]; omega
  rw [ltabFields, nodeSz_cons, hentries, h, geom_ltabSz, ← Nat.mul_assoc]

theorem nodeSz_lsave {lsave : List Nat} (h : LsaveOf c lsave) :
    nodeSz (lsaveFields c lsave) = c.geom.lsaveSz := by
  have hentries := Field.total_flatMap
    (fun lnum => [(⟨BitVec.ofNat 32 lnum, c.geom.lnumBits⟩ : Field 32)]) c.geom.lnumBits lsave
    fun lnum _ => rfl
  rw [lsaveFields, nodeSz_cons, hentries, h.length, geom_lsaveSz, Nat.mul_comm c.lsaveCnt]

end Fit
/-! ## Reading back -/

section Reading

variable {c : Info} {g : Consts} {crc16 : Crc} (junk : Junk) {m : Memory} {i : Nat} {fs : Fields}

/-- What is read of properties that were saved: the index flag, but not whether the LEB is taken. -/
def restored (g : Consts) (old lp : Lprops) : Lprops :=
  let flags : Flags := { cat := .list .uncat, taken := false, index := lp.flags.index }
  let lp := { old with free := lp.free, dirty := lp.dirty, flags := flags }
  { lp with flags := { flags with cat := ubifsCategorizeLprops g lp } }

/-- Space is a multiple of eight bytes, so nothing is lost. -/
theorem unpack_space (hc : c.Checked) {x : Int} (hx : Space c x)
    (h : Holds m i (⟨BitVec.ofInt 32 (x >>> (3 : Nat)), c.geom.spaceBits⟩ :: fs)) :
    ∃ n : Nat, unpack junk m (bitPtr i) c.geom.spaceBits = (n, bitPtr (i + c.geom.spaceBits)) ∧
      (n : Int) <<< (3 : Nat) = x := by
  have hfits := fits_space hc hx
  obtain ⟨k, rfl, hk⟩ := hx.units
  refine ⟨k, ?_, ?_⟩
  · rw [unpack_of_holds junk h hfits, ofInt_shiftRight_three,
      toNat_ofNat_of_fits hk hc.widths.space.2]
  · rw [Int.shiftLeft_eq]
    omega

/-- A flag is read back. -/
theorem unpack_flag {flag : Bool} (h : Holds m i (⟨if flag then 1 else 0, 1⟩ :: fs)) :
    ∃ n : Nat, unpack junk m (bitPtr i) 1 = (n, bitPtr (i + 1)) ∧ decide (n ≠ 0) = flag := by
  refine ⟨_, unpack_of_holds junk h (fits_flag flag), ?_⟩
  cases flag with
  | true => rfl
  | false => rfl

/-- The LEB properties of a pnode are read back, with the category and the taken flag of the old
    ones. -/
theorem unpackLprops_holds (hc : c.Checked) {olds lps : List Lprops}
    (hlen : olds.length = lps.length) (hfree : ∀ lp ∈ lps, Space c lp.free)
    (hdirty : ∀ lp ∈ lps, Space c lp.dirty)
    (h : Holds m i (lps.flatMap (lpropsFields c))) :
    unpackLprops c g junk m (bitPtr i) olds = List.zipWith (restored g) olds lps := by
  induction lps generalizing olds i with
  | nil =>
    obtain rfl := List.eq_nil_of_length_eq_zero hlen
    rfl
  | cons lp lps ih =>
    obtain ⟨old, olds, rfl⟩ := List.exists_cons_of_length_eq_add_one hlen
    rw [List.flatMap_cons, lpropsFields, List.cons_append, List.cons_append, List.cons_append,
      List.nil_append] at h
    obtain ⟨free, hreadFree, hfreeEq⟩ := unpack_space junk hc (hfree lp List.mem_cons_self) h
    obtain ⟨dirty, hreadDirty, hdirtyEq⟩ :=
      unpack_space junk hc (hdirty lp List.mem_cons_self) h.tail
    obtain ⟨flag, hreadFlag, hflagEq⟩ := unpack_flag junk h.tail.tail
    have hrest := ih (Nat.succ.inj hlen) (fun x hx => hfree x (List.mem_cons_of_mem lp hx))
      (fun x hx => hdirty x (List.mem_cons_of_mem lp hx)) h.tail.tail.tail
    simp only at hreadDirty hreadFlag hrest
    rw [unpackLprops, hreadFree]
    simp only
    rw [hreadDirty]
    simp only
    rw [hreadFlag]
    simp only
    rw [hrest, hfreeEq, hdirtyEq, hflagEq]
    rfl

/-- The number is read back, if it was written. -/
theorem unpackNum_holds (hc : c.Checked) {num : Nat} (hnum : num < 2 ^ c.geom.pcntBits) (old : Nat)
    (h : Holds m i (numFields c num ++ fs)) : ∃ j,
      unpackNum c junk m (bitPtr i) old = (if c.bigLpt then num else old, bitPtr j) ∧
        Holds m j fs := by
  unfold numFields at h
  unfold unpackNum
  split
  · rename_i hbig
    rw [if_pos hbig, List.singleton_append] at h
    refine ⟨_, ?_, h.tail⟩
    rw [unpack_of_holds junk h (fits_ofNat hnum hc.widths.pcnt.1 hc.widths.pcnt.2),
      toNat_ofNat_of_fits hnum hc.widths.pcnt.2]
  · rename_i hsmall
    rw [if_neg hsmall, List.nil_append] at h
    exact ⟨i, rfl, h⟩

/-- The branches are read back, those to nowhere included. -/
theorem unpackNbranches_holds (hc : c.Checked) {branches : List Nbranch}
    (hof : ∀ b ∈ branches, NbranchOf c b) (h : Holds m i (branches.flatMap (nbranchFields c))) :
    unpackNbranches c junk m branches.length (bitPtr i) = branches := by
  induction branches generalizing i with
  | nil => rfl
  | cons b branches ih =>
    have hb := hof b List.mem_cons_self
    have hlnum := branchVal_lt hc hb
    have hoffs := branchOffs_lt hc hb
    rw [List.flatMap_cons, nbranchFields_eq hc hb, List.cons_append, List.cons_append,
      List.nil_append] at h
    have hreadLnum := unpack_of_holds junk h
      (fits_ofNat hlnum hc.widths.lptLnum.1 hc.widths.lptLnum.2)
    have hreadOffs := unpack_of_holds junk h.tail
      (fits_ofNat hoffs hc.widths.lptOffs.1 hc.widths.lptOffs.2)
    have hrest := ih (fun x hx => hof x (List.mem_cons_of_mem b hx)) h.tail.tail
    rw [toNat_ofNat_of_fits hlnum hc.widths.lptLnum.2] at hreadLnum
    rw [toNat_ofNat_of_fits hoffs hc.widths.lptOffs.2] at hreadOffs
    simp only at hreadOffs hrest
    rw [List.length_cons, unpackNbranches, hreadLnum]
    simp only
    rw [hreadOffs]
    simp only
    rw [hrest]
    -- the LEB behind the last one is that of no node
    have hback : (if branchVal c b + c.lptFirst = c.lptLast + 1 then 0
        else branchVal c b + c.lptFirst) = b.lnum := by
      have hlebs := hc.lptLebs
      have hfirst := hc.lptFirst
      unfold ubifsMinLptLebs at hlebs
      unfold branchVal Info.lptLast
      rcases hb with ⟨h0, -⟩ | ⟨hge, hle, -⟩
      · rw [if_pos h0, if_pos (by omega), h0]
      · unfold Info.lptLast at hle
        have hne : ¬b.lnum = 0 := by omega
        rw [if_neg hne, if_neg (by omega)]
        omega
    rw [hback]

/-- The entries of the table are read back. -/
theorem unpackLtabEntries_holds (hc : c.Checked) {ltab : List LptLprops}
    (hspace : ∀ lp ∈ ltab, lp.free + lp.dirty ≤ c.lebSize)
    (h : Holds m i (ltab.flatMap (ltabEntryFields c))) :
    unpackLtabEntries c junk m ltab.length (bitPtr i) =
      .ok (ltab.map fun lp => { lp with tgc := false, cmt := false }) := by
  induction ltab generalizing i with
  | nil => rfl
  | cons lp ltab ih =>
    have hsum := hspace lp List.mem_cons_self
    have hpow : c.lebSize < 2 ^ c.geom.lptSpcBits := lt_two_pow_fls _
    have hfree : lp.free < 2 ^ c.geom.lptSpcBits := by omega
    have hdirty : lp.dirty < 2 ^ c.geom.lptSpcBits := by omega
    rw [List.flatMap_cons, ltabEntryFields, List.cons_append, List.cons_append,
      List.nil_append] at h
    have hreadFree := unpack_of_holds junk h
      (fits_ofNat hfree hc.widths.lptSpc.1 hc.widths.lptSpc.2)
    have hreadDirty := unpack_of_holds junk h.tail
      (fits_ofNat hdirty hc.widths.lptSpc.1 hc.widths.lptSpc.2)
    have hrest := ih (fun x hx => hspace x (List.mem_cons_of_mem lp hx)) h.tail.tail
    rw [toNat_ofNat_of_fits hfree hc.widths.lptSpc.2] at hreadFree
    rw [toNat_ofNat_of_fits hdirty hc.widths.lptSpc.2] at hreadDirty
    simp only at hreadDirty hrest
    rw [List.length_cons, unpackLtabEntries, hreadFree]
    simp only
    rw [hreadDirty]
    simp only
    rw [if_neg (by omega), hrest]
    rfl

/-- So are those of the other table. -/
theorem unpackLsaveEntries_holds (hc : c.Checked) {lsave : List Nat}
    (hmain : ∀ lnum ∈ lsave, c.mainFirst ≤ lnum ∧ lnum < c.lebCnt)
    (h : Holds m i (lsave.flatMap fun lnum => [⟨BitVec.ofNat 32 lnum, c.geom.lnumBits⟩])) :
    unpackLsaveEntries c junk m lsave.length (bitPtr i) = .ok lsave := by
  induction lsave generalizing i with
  | nil => rfl
  | cons lnum lsave ih =>
    have hin := hmain lnum List.mem_cons_self
    have hlt := lsaveLnum_lt hc hin.2
    rw [List.flatMap_cons, List.singleton_append] at h
    have hread := unpack_of_holds junk h (fits_ofNat hlt hc.widths.lnum.1 hc.widths.lnum.2)
    have hrest := ih (fun x hx => hmain x (List.mem_cons_of_mem lnum hx)) h.tail
    rw [toNat_ofNat_of_fits hlt hc.widths.lnum.2] at hread
    simp only at hrest
    rw [List.length_cons, unpackLsaveEntries, hread]
    simp only
    rw [if_neg (by omega), hrest]
    rfl

/-! ## Nodes -/

/-- A pnode that was packed is unpacked. -/
theorem unpackPnode_nodeAt (hc : c.Checked) {pnode old : Pnode} {buf : Nat} (h : PnodeOf c pnode)
    (hold : old.lprops.length = ubifsLptFanout) (hat : NodeAt crc16 m buf (pnodeFields c pnode)) :
    unpackPnode c g crc16 junk m buf old = .ok
      { num := if c.bigLpt then pnode.num else old.num
        lprops := List.zipWith (restored g) old.lprops pnode.lprops } := by
  have hnum : pnode.num < 2 ^ c.geom.pcntBits := by
    have hpow : divRoundUp c.maxLebCnt ubifsLptFanout - 1 < 2 ^ c.geom.pcntBits := lt_two_pow_fls _
    have := h.num
    omega
  obtain ⟨j, hreadNum, hholds⟩ := unpackNum_holds junk hc hnum old.num hat.fields.tail
  have hlprops := unpackLprops_holds junk (g := g) hc (hold.trans h.four.symm) h.free
    h.dirty hholds
  have hcrc := hat.crc_ok junk
  rw [nodeSz_pnode h] at hcrc
  simp only at hreadNum
  rw [unpackPnode, hat.type_ok junk (by decide)]
  simp only [bind, Except.bind]
  rw [hreadNum]
  simp only
  rw [hlprops, hcrc]
  rfl

/-- An nnode that was packed is unpacked. -/
theorem unpackNnode_nodeAt (hc : c.Checked) {nnode old : Nnode} {buf : Nat} (h : NnodeOf c nnode)
    (hat : NodeAt crc16 m buf (nnodeFields c nnode)) :
    ubifsUnpackNnode c crc16 junk m buf old = .ok
      { num := if c.bigLpt then nnode.num else old.num, nbranch := nnode.nbranch } := by
  obtain ⟨row, hrow, col, hnum⟩ := h.num
  obtain ⟨j, hreadNum, hholds⟩ := unpackNum_holds junk hc
    (hnum ▸ nnodeNum_lt hc hrow col) old.num hat.fields.tail
  have hbranches := unpackNbranches_holds junk hc h.nbranch hholds
  have hcrc := hat.crc_ok junk
  rw [nodeSz_nnode h] at hcrc
  rw [h.four] at hbranches
  simp only at hreadNum
  rw [ubifsUnpackNnode, hat.type_ok junk (by decide)]
  simp only [bind, Except.bind]
  rw [hreadNum]
  simp only
  rw [hbranches, hcrc]
  rfl

/-- The table of the LEBs of the tree is unpacked. -/
theorem unpackLtab_nodeAt (hc : c.Checked) {ltab : List LptLprops} {buf : Nat} (h : LtabOf c ltab)
    (hat : NodeAt crc16 m buf (ltabFields c ltab)) : unpackLtab c crc16 junk m buf =
      .ok (ltab.map fun lp => { lp with tgc := false, cmt := false }) := by
  have hentries := unpackLtabEntries_holds junk hc h.space hat.fields.tail
  have hcrc := hat.crc_ok junk
  rw [nodeSz_ltab h.length] at hcrc
  rw [h.length] at hentries
  simp only at hentries
  rw [unpackLtab, hat.type_ok junk (by decide)]
  simp only [bind, Except.bind]
  rw [hentries]
  simp only
  rw [hcrc]
  rfl

/-- The table of saved LEBs is unpacked. -/
theorem unpackLsave_nodeAt (hc : c.Checked) {lsave : List Nat} {buf : Nat} (h : LsaveOf c lsave)
    (hat : NodeAt crc16 m buf (lsaveFields c lsave)) :
    unpackLsave c crc16 junk m buf = .ok lsave := by
  have hentries := unpackLsaveEntries_holds junk hc h.main hat.fields.tail
  have hcrc := hat.crc_ok junk
  rw [nodeSz_lsave h] at hcrc
  rw [h.length] at hentries
  simp only at hentries
  rw [unpackLsave, hat.type_ok junk (by decide)]
  simp only [bind, Except.bind]
  rw [hentries]
  simp only
  rw [hcrc]
  rfl

end Reading

/-! ## The round trip -/

section RoundTrip

variable (c : Info) (g : Consts) (crc16 : Crc) (junk : Junk)

/-- Nodes of a geometry are unpacked with the values they were packed with, where these are saved,
    and packing writes as many bytes as the geometry says. -/
theorem lpt_round_trip (hc : c.Checked) (m : Memory) (buf : Nat) :
    (∀ pnode old, PnodeOf c pnode → old.lprops.length = ubifsLptFanout →
      unpackPnode c g crc16 junk (ubifsPackPnode c crc16 m buf pnode) buf old = .ok
        { num := if c.bigLpt then pnode.num else old.num
          lprops := List.zipWith (restored g) old.lprops pnode.lprops } ∧
      WritesExactly (ubifsPackPnode c crc16 · buf pnode) buf c.geom.pnodeSz) ∧
    (∀ nnode old, NnodeOf c nnode →
      ubifsUnpackNnode c crc16 junk (ubifsPackNnode c crc16 m buf nnode) buf old = .ok
        { num := if c.bigLpt then nnode.num else old.num, nbranch := nnode.nbranch } ∧
      WritesExactly (ubifsPackNnode c crc16 · buf nnode) buf c.geom.nnodeSz) ∧
    (∀ ltab, LtabOf c ltab →
      unpackLtab c crc16 junk (ubifsPackLtab c crc16 m buf ltab) buf = .ok
        (ltab.map fun lp => { lp with tgc := false, cmt := false }) ∧
      WritesExactly (ubifsPackLtab c crc16 · buf ltab) buf c.geom.ltabSz) ∧
    ∀ lsave, LsaveOf c lsave →
      unpackLsave c crc16 junk (ubifsPackLsave c crc16 m buf lsave) buf = .ok lsave ∧
      WritesExactly (ubifsPackLsave c crc16 · buf lsave) buf c.geom.lsaveSz := by
  refine ⟨fun pnode old h hold => ?_, fun nnode old h => ?_, fun ltab h => ?_, fun lsave h => ?_⟩
  · have hfits := fits_pnode hc h
    unfold ubifsPackPnode
    rw [← nodeSz_pnode h]
    exact ⟨unpackPnode_nodeAt junk hc h hold (packNode_nodeAt crc16 m buf hfits),
      packNode_writes crc16 buf hfits⟩
  · have hfits := fits_nnode hc h
    unfold ubifsPackNnode
    rw [← nodeSz_nnode h]
    exact ⟨unpackNnode_nodeAt junk hc h (packNode_nodeAt crc16 m buf hfits),
      packNode_writes crc16 buf hfits⟩
  · have hfits := fits_ltab hc h
    unfold ubifsPackLtab
    rw [← nodeSz_ltab h.length]
    exact ⟨unpackLtab_nodeAt junk hc h (packNode_nodeAt crc16 m buf hfits),
      packNode_writes crc16 buf hfits⟩
  · have hfits := fits_lsave hc h
    unfold ubifsPackLsave
    rw [← nodeSz_lsave h]
    exact ⟨unpackLsave_nodeAt junk hc h (packNode_nodeAt crc16 m buf hfits),
      packNode_writes crc16 buf hfits⟩

/-- All that the properties of a LEB have, but the category. -/
def SameButCat (lp lp' : Lprops) : Prop :=
  lp'.free = lp.free ∧ lp'.dirty = lp.dirty ∧ lp'.flags.taken = lp.flags.taken ∧
    lp'.flags.index = lp.flags.index

end RoundTrip

/-- A small volume, with the big model. -/
def smallInfo : Info where
  lebSize := 16384
  minIoSize := 2048
  lebCnt := 20
  maxLebCnt := 20
  mainLebs := 12
  lptFirst := 5
  lptLebs := 2
  lsaveCnt := 2
  bigLpt := true

/-- The geometry of the tests passes the checks of the code. -/
theorem smallInfo_checked : smallInfo.Checked := by
  constructor <;> decide

/-- LEBs of 16 KiB. -/
def smallConsts : Consts where
  lebSize := 16384
  minIdxNodeSz := 48
  deadWm := 2048
  darkWm := 4256

/-- The reflected polynomial, bit by bit. -/
def plainCrc16 : Crc := fun crc bytes =>
  bytes.foldl (fun crc b => (List.range 8).foldl
    (fun crc _ => if crc.getLsbD 0 then crc >>> 1 ^^^ 0xA001 else crc >>> 1)
    (crc ^^^ b.setWidth 16)) crc

/-- A LEB that is half full, as the journal has it. -/
def halfFull (taken : Bool) : Lprops where
  lnum := 8
  free := 8192
  dirty := 2048
  flags := { cat := .list .uncat, taken := taken, index := false }
  hpos := 0

/-- Four LEBs that are half full, and taken or not. -/
def halfFullPnode (taken : Bool) : Pnode where
  num := 2
  lprops := List.replicate 4 (halfFull taken)

theorem halfFullPnode_of (taken : Bool) : PnodeOf smallInfo (halfFullPnode taken) := by
  have hspace : Space smallInfo 8192 ∧ Space smallInfo 2048 :=
    ⟨⟨by decide, by decide, by decide⟩, ⟨by decide, by decide, by decide⟩⟩
  refine ⟨by show 2 < divRoundUp 20 4; decide, rfl, ?_, ?_⟩
  · intro lp hlp
    rw [List.eq_of_mem_replicate hlp]
    exact hspace.1
  · intro lp hlp
    rw [List.eq_of_mem_replicate hlp]
    exact hspace.2

/-- A root with a branch that was never written. -/
def smallRoot : Nnode where
  num := calcNnodeNum 0 0
  nbranch := [⟨5, 0⟩, ⟨6, 100⟩, ⟨5, 16383⟩, ⟨0, 0⟩]

theorem smallRoot_of : NnodeOf smallInfo smallRoot := by
  have hrow := (lptHght_spec smallInfo).2.1
  exact ⟨⟨0, hrow, 0, rfl⟩, rfl, by unfold NbranchOf smallRoot; decide⟩

/-- Nodes of a small volume, over ones. -/
theorem lpt_round_trip_small :
    unpackPnode smallInfo smallConsts plainCrc16 (fun _ => 7)
        (ubifsPackPnode smallInfo plainCrc16 (fun _ => 255) 0 (halfFullPnode true)) 0
        (halfFullPnode true) =
      .ok { num := 2
            lprops := List.replicate 4
              { halfFull true with
                flags := { cat := .heap .free, taken := false, index := false } } } ∧
    ubifsUnpackNnode smallInfo plainCrc16 (fun _ => 7)
        (ubifsPackNnode smallInfo plainCrc16 (fun _ => 255) 0 smallRoot) 0 ⟨0, []⟩ =
      .ok smallRoot ∧
    unpackLtab smallInfo plainCrc16 (fun _ => 7)
        (ubifsPackLtab smallInfo plainCrc16 (fun _ => 255) 0
          [⟨16384, 0, false, true⟩, ⟨0, 100, false, false⟩]) 0 =
      .ok [⟨16384, 0, false, false⟩, ⟨0, 100, false, false⟩] ∧
    unpackLsave smallInfo plainCrc16 (fun _ => 7)
        (ubifsPackLsave smallInfo plainCrc16 (fun _ => 255) 0 [8, 19]) 0 = .ok [8, 19] := by
  obtain ⟨hpnode, hnnode, hltab, hlsave⟩ := lpt_round_trip smallInfo smallConsts plainCrc16
    (fun _ => 7) smallInfo_checked (fun _ => 255) 0
  exact ⟨(hpnode _ _ (halfFullPnode_of true) rfl).1, (hnnode _ _ smallRoot_of).1,
    (hltab _ ⟨rfl, by decide⟩).1, (hlsave _ ⟨rfl, by decide⟩).1⟩

/-- That a LEB is taken is not on the media. -/
theorem taken_not_saved : ¬∀ (c : Info) (g : Consts) (crc16 : Crc) (junk : Junk) (m : Memory)
    (buf : Nat) (pnode old : Pnode), c.Checked → PnodeOf c pnode →
      old.lprops.length = ubifsLptFanout → ∃ pnode',
        unpackPnode c g crc16 junk (ubifsPackPnode c crc16 m buf pnode) buf old = .ok pnode' ∧
          List.Forall₂ SameButCat pnode.lprops pnode'.lprops := by
  intro hall
  have hof := halfFullPnode_of true
  obtain ⟨pnode', hok, hsame⟩ := hall smallInfo smallConsts plainCrc16 (fun _ => 7) (fun _ => 255) 0
    (halfFullPnode true) (halfFullPnode true) smallInfo_checked hof rfl
  have hat := packNode_nodeAt plainCrc16 (fun _ => 255) 0
    (fits_pnode smallInfo_checked hof)
  rw [nodeSz_pnode hof] at hat
  have hfour : (halfFullPnode true).lprops.length = ubifsLptFanout := rfl
  have hread := unpackPnode_nodeAt (fun _ => 7) (g := smallConsts) smallInfo_checked hof hfour hat
  obtain rfl := Except.ok.inj (hok.symm.trans hread)
  cases hsame with
  | cons hhead _ => exact absurd hhead.2.2.1 (by decide)

end Ubifs.Lpt
