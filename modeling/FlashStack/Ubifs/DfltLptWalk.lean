/-
  The default LEB properties tree, read again.

  The number of a node says how to get there: the digits of its column, the one of the root first when
  it is read from the low end.  So what is computed from the parent is what was written.

  What a pnode or an nnode is checked for when it is read holds of those that were written
  (`Dflt.validatePnode`), so no read of the walk fails, and the leaves come in the order of their
  numbers (`walk_dflt`).
-/
import FlashStack.Ubifs.DfltLptTree
import FlashStack.Ubifs.LptRead

open Lib

namespace Ubifs.Lpt

open Lp Lib.NextFit

/-! ## Numbers -/

theorem and_fanout (n : Nat) : n &&& (ubifsLptFanout - 1) = n % 4 := Nat.and_two_pow_sub_one_eq_mod n 2

/-- Two bits are appended. -/
theorem shift_or (n : Nat) {d : Nat} (hd : d < 4) : n <<< ubifsLptFanoutShift ||| d = 4 * n + d := by
  rw [← Nat.shiftLeft_add_eq_or_of_lt (by exact hd), Nat.shiftLeft_eq, Nat.mul_comm]
  rfl

theorem loop_succ (row col num : Nat) : calcNnodeNum.loop (row + 1) col num =
    calcNnodeNum.loop row (col / 4) (4 * num + col % 4) := by
  have hshift : col >>> ubifsLptFanoutShift = col / 4 := Nat.shiftRight_eq_div_pow col 2
  rw [← shift_or num (Nat.mod_lt col (by decide)), ← and_fanout, ← hshift]
  rfl

/-- The digit that comes last is the one of the row below the root. -/
theorem loop_snoc (row col num : Nat) : calcNnodeNum.loop (row + 1) col num =
    4 * calcNnodeNum.loop row col num + col / 4 ^ row % 4 := by
  induction row generalizing col num with
  | zero =>
    rw [loop_succ, Nat.pow_zero, Nat.div_one]
    rfl
  | succ row ih =>
    have hdiv : col / 4 / 4 ^ row = col / 4 ^ (row + 1) := by
      rw [Nat.div_div_eq_div_mul, Nat.pow_succ, Nat.mul_comm]
    rw [loop_succ, ih, hdiv, ← loop_succ]

/-- What is in front of the digits stays there. -/
theorem loop_eq (row col num : Nat) : calcNnodeNum.loop row col num =
    num * 4 ^ row + calcNnodeNum.loop row col 0 := by
  induction row with
  | zero => simp [calcNnodeNum.loop]
  | succ row ih =>
    have hpow : num * 4 ^ (row + 1) = 4 * (num * 4 ^ row) := by
      rw [Nat.pow_succ, ← Nat.mul_assoc, Nat.mul_comm 4]
    rw [loop_snoc, loop_snoc row col 0, ih, hpow]
    omega

theorem loop_zero_lt (row col : Nat) : calcNnodeNum.loop row col 0 < 4 ^ row := by
  have hlt := calcNnodeNum_loop_lt row col 0
  omega

theorem two_pow_shift (n : Nat) : 2 ^ (n * ubifsLptFanoutShift) = 4 ^ n := by
  rw [Nat.mul_comm, Nat.pow_mul]
  rfl

theorem xor_top {x n : Nat} (hx : x < 2 ^ n) : (2 ^ n + x) ^^^ 2 ^ n = x := by
  apply Nat.eq_of_testBit_eq
  intro i
  rw [Nat.add_comm, ← Nat.or_two_pow_eq_add_of_lt hx, Nat.testBit_xor, Nat.testBit_or,
    Nat.testBit_two_pow]
  by_cases hi : n = i
  · subst hi
    simp [Nat.testBit_lt_two_pow hx]
  · simp [hi]

/-- The first digit is in place of the leading one. -/
theorem calcNnodeNum_child (row col : Nat) {iip : Nat} (hiip : iip < 4) :
    calcNnodeNum (row + 1) (4 * col + iip) =
      (4 + iip) * 4 ^ row + calcNnodeNum.loop row col 0 := by
  have hdiv : (4 * col + iip) / 4 = col := by omega
  have hmod : (4 * col + iip) % 4 = iip := by omega
  rw [calcNnodeNum, loop_succ, hdiv, hmod, loop_eq]

/-- The number of a child is what it was when it was written. -/
theorem calcNnodeNumFromParent_eq {c : Info} {parent : CachedNnode} {row col iip : Nat}
    (hnum : parent.node.num = calcNnodeNum row col) (hrow : row + parent.level = c.geom.lptHght)
    (hiip : iip < 4) :
    calcNnodeNumFromParent c (some parent) iip = calcNnodeNum (row + 1) (4 * col + iip) := by
  have hshift : c.geom.lptHght - parent.level = row := by omega
  have hlt : calcNnodeNum.loop row col 0 < 2 ^ (row * ubifsLptFanoutShift) := by
    rw [two_pow_shift]
    exact loop_zero_lt row col
  have hparent : calcNnodeNum row col =
      2 ^ (row * ubifsLptFanoutShift) + calcNnodeNum.loop row col 0 := by
    rw [calcNnodeNum, loop_eq, Nat.one_mul, two_pow_shift]
  simp only [calcNnodeNumFromParent]
  rw [hshift, hnum, hparent, Nat.one_shiftLeft, xor_top hlt, Nat.or_comm,
    ← Nat.shiftLeft_add_eq_or_of_lt hlt, Nat.shiftLeft_eq, two_pow_shift,
    calcNnodeNum_child row col hiip]
  rfl

/-- The digits are turned round again. -/
theorem pnodeNumLoop_eq (row num col x : Nat) :
    pnodeNumLoop row num (calcNnodeNum.loop row col x) = num * 4 ^ row + col % 4 ^ row := by
  induction row generalizing num with
  | zero => simp [pnodeNumLoop, Nat.mod_one]
  | succ row ih =>
    have hdigit : calcNnodeNum.loop (row + 1) col x % 4 = col / 4 ^ row % 4 := by
      rw [loop_snoc]
      omega
    have hrest : calcNnodeNum.loop (row + 1) col x >>> ubifsLptFanoutShift =
        calcNnodeNum.loop row col x := by
      rw [loop_snoc, Nat.shiftRight_eq_div_pow]
      show _ / 4 = _
      omega
    have hpow : num * 4 ^ (row + 1) = 4 * num * 4 ^ row := by
      rw [Nat.pow_succ, Nat.mul_comm (4 ^ row), ← Nat.mul_assoc, Nat.mul_comm num]
    rw [pnodeNumLoop, and_fanout, hdigit, shift_or num (Nat.mod_lt _ (by decide)), hrest, ih,
      Nat.add_mul, Nat.mod_pow_succ, hpow, Nat.mul_comm (col / 4 ^ row % 4)]
    omega

theorem calcPnodeNumFromParent_eq {c : Info} {parent : CachedNnode} {col iip : Nat}
    (hnum : parent.node.num = calcNnodeNum (c.geom.lptHght - 1) col)
    (hcol : col < 4 ^ (c.geom.lptHght - 1)) (hiip : iip < 4) :
    calcPnodeNumFromParent c parent iip = 4 * col + iip := by
  have hloop := pnodeNumLoop_eq (c.geom.lptHght - 1) 0 col 1
  rw [Nat.zero_mul, Nat.zero_add, Nat.mod_eq_of_lt hcol] at hloop
  rw [calcPnodeNumFromParent, hnum, calcNnodeNum, hloop, shift_or col hiip]

/-! ## What is checked -/

section Check

variable {c : Info}

theorem Dflt.validBranch (hd : Dflt c) {l : Nat} (hl : l ≤ c.geom.lptHght) (x : Nat) :
    validBranch c (c.lebSize - rowSz c l) (childBranch c l x) = true := by
  unfold childBranch
  split
  · rename_i hx
    have harea := hd.spot_area (Nat.lt_trans (row_lt_treeCnt hl hx) (treeCnt_lt_streamCnt c))
    have hinside := hd.spot_inside (rowOff c l + x)
    have hfirst := hd.checked.lptFirst
    rw [streamSz_row hl hx] at hinside
    unfold Lpt.validBranch
    rw [if_neg (by simp only; omega)]
    exact decide_eq_true ⟨harea.1, harea.2, by simp only; omega⟩
  · rfl

theorem Dflt.validateNnode (hd : Dflt c) {l x iip : Nat} {nnode : Nnode}
    {parent : Option CachedNnode} (hl : l < c.geom.lptHght) (hlvl : levelBelow c parent = l + 1)
    (hnum : c.bigLpt → nnode.num = calcNnodeNumFromParent c parent iip)
    (hbranches : nnode.nbranch = (dfltNnode c l x).nbranch) :
    validateNnode c nnode parent iip = .ok () := by
  have hsz : (if l + 1 = 1 then c.lebSize - c.geom.pnodeSz else c.lebSize - c.geom.nnodeSz) =
      c.lebSize - rowSz c l := by
    unfold rowSz
    by_cases h0 : l = 0
    · rw [if_pos h0, if_pos (by omega)]
    · rw [if_neg h0, if_neg (by omega)]
  have hall : nnode.nbranch.all (Lpt.validBranch c (c.lebSize - rowSz c l)) = true := by
    rw [hbranches, List.all_eq_true]
    intro b hb
    obtain ⟨j, -, rfl⟩ := List.mem_map.mp hb
    exact hd.validBranch (Nat.le_of_lt hl) _
  unfold Lpt.validateNnode
  rw [if_neg (fun h => h.2 (hnum h.1))]
  simp only [hlvl]
  rw [if_neg (by omega), hsz, if_pos hall]

/-- The space of a LEB adds up, and what is free can be written. -/
structure Usable (c : Info) (lp : Lprops) : Prop where
  free : Space c lp.free
  dirty : Space c lp.dirty
  io : (c.minIoSize : Int) ∣ lp.free
  sum : lp.dirty + lp.free ≤ c.lebSize

theorem Dflt.usable_node (hd : Dflt c) {x : Nat} (hx : x ≤ 160) (h8 : 8 ∣ x) (index : Bool) :
    Usable c (dfltLprops (c.lebSize - align x c.minIoSize) (align x c.minIoSize - x) index) := by
  obtain ⟨hfree, hdirty⟩ := hd.space_node hx h8
  refine ⟨hfree, hdirty, ?_, ?_⟩
  · have hleb : (c.minIoSize : Int) ∣ c.lebSize := Int.natCast_dvd_natCast.mpr hd.minIo_dvd
    exact Int.dvd_sub hleb (Int.natCast_dvd_natCast.mpr Lib.dvd_align)
  · show ((align x c.minIoSize : Nat) : Int) - x + (c.lebSize - (align x c.minIoSize : Nat)) ≤ _
    omega

theorem Dflt.usable_empty (hd : Dflt c) : Usable c (dfltLprops c.lebSize 0 false) := by
  obtain ⟨hfree, hdirty⟩ := hd.space_empty
  refine ⟨hfree, hdirty, Int.natCast_dvd_natCast.mpr hd.minIo_dvd, ?_⟩
  show (0 : Int) + c.lebSize ≤ _
  omega

theorem Dflt.usable (hd : Dflt c) (k : Nat) : ∀ lp ∈ (dfltPnode c k).lprops, Usable c lp := by
  have hidx := hd.usable_node (by decide : align (Index.idxNodeSz 1) 8 ≤ 160) (by decide) true
  have hino := hd.usable_node (by decide : ubifsInoNodeSz ≤ 160) (by decide) false
  unfold dfltPnode
  split
  · unfold firstPnode
    simp only [List.mem_cons, List.not_mem_nil, or_false, forall_eq_or_imp, forall_eq]
    exact ⟨hidx, hino, hd.usable_empty, hd.usable_empty⟩
  · intro lp hlp
    rw [List.eq_of_mem_replicate hlp]
    exact hd.usable_empty

theorem Usable.valid {lp lp' : Lprops} (h : Usable c lp) (hfree : lp'.free = lp.free)
    (hdirty : lp'.dirty = lp.dirty) : validLprops c lp' = true := by
  obtain ⟨hf, hd, hio, hsum⟩ := h
  unfold validLprops
  rw [hfree, hdirty]
  have hmod : lp.free % c.minIoSize = 0 := Int.emod_eq_zero_of_dvd hio
  have h8f : lp.free % 8 = 0 := Int.emod_eq_zero_of_dvd hf.dvd
  have h8d : lp.dirty % 8 = 0 := Int.emod_eq_zero_of_dvd hd.dvd
  exact decide_eq_true ⟨hf.nonneg, hf.le, hmod, h8f, hd.nonneg, hd.le, h8d, hsum⟩

end Check

/-! ## What is read -/

/-- The nodes of the tree are on the flash. -/
def Stored (c : Info) (crc16 : Crc) (flash : Nat → Memory) : Prop :=
  ∀ n ∈ rowNodes c c.geom.lptHght, NodeAt crc16 (flash n.lnum) n.offs n.fields

/-- A leaf in memory. -/
def leafOf (c : Info) (g : Consts) (k : Nat) : Pnode :=
  setPnodeLnum c { num := k
                   lprops := List.zipWith (restored g) (List.replicate ubifsLptFanout zeroLprops)
                     (dfltPnode c k).lprops }

section Read

variable {c : Info} {g : Consts} {crc16 : Crc} {junk : Junk} {flash : Nat → Memory}
  {nodBuf : Memory}

theorem leaf_mem (l : Nat) {k : Nat} (hk : k < c.geom.pnodeCnt) :
    placedAt c k (pnodeFields c (dfltPnode c k)) ∈ rowNodes c l := by
  induction l with
  | zero => exact List.mem_map.mpr ⟨k, List.mem_range.mpr hk, rfl⟩
  | succ l ih => exact List.mem_append_left _ ih

theorem inner_mem {l l' i : Nat} (hl : l < l') (hi : i < rowCnt c (l + 1)) :
    placedAt c (rowOff c (l + 1) + i) (nnodeFields c (dfltNnode c l i)) ∈ rowNodes c l' := by
  induction l' with
  | zero => exact absurd hl (Nat.not_lt_zero l)
  | succ l' ih =>
    rcases Nat.lt_or_eq_of_le (Nat.le_of_lt_succ hl) with hlt | rfl
    · exact List.mem_append_left _ (ih hlt)
    · exact List.mem_append_right _ (List.mem_map.mpr ⟨i, List.mem_range.mpr hi, rfl⟩)

/-- The buffer has the bytes of the node that is read. -/
theorem NodeAt.read {lnum offs n : Nat} {fs : Fields} (h : NodeAt crc16 (flash lnum) offs fs)
    (hn : nodeSz fs = n) : NodeAt crc16 (ubiRead flash nodBuf lnum offs n) 0 fs := by
  refine h.copy fun j hj => ?_
  rw [Nat.zero_add]
  exact if_pos (hn ▸ hj)

/-- LEB zero means that a node was not written. -/
theorem childBranch_lnum (hd : Dflt c) {l x : Nat} (hl : l ≤ c.geom.lptHght) :
    (childBranch c l x).lnum = 0 ↔ rowCnt c l ≤ x := by
  unfold childBranch
  split
  · rename_i hx
    have harea := hd.spot_area (Nat.lt_trans (row_lt_treeCnt hl hx) (treeCnt_lt_streamCnt c))
    have hfirst := hd.checked.lptFirst
    simp only
    omega
  · rename_i hx
    simpa using hx

theorem branchTo_child {l i iip lvl : Nat} (hiip : iip < ubifsLptFanout) :
    branchTo ⟨0, 0⟩ (some ⟨dfltNnode c l i, lvl⟩) iip =
      childBranch c l (ubifsLptFanout * i + iip) := by
  simp only [branchTo, dfltNnode, List.getD_eq_getElem?_getD]
  rw [List.getElem?_map, List.getElem?_range hiip]
  rfl

/-- A leaf that was not written is as one that was. -/
theorem restored_empty (k : Nat) :
    List.zipWith (restored g) (List.replicate ubifsLptFanout zeroLprops) (emptyPnode c k).lprops =
      List.replicate ubifsLptFanout (unwrittenLprops c g) := by
  rw [emptyPnode, List.zipWith_replicate', restored, unwrittenLprops]
  rfl

@[simp] theorem dfltPnode_num (k : Nat) : (dfltPnode c k).num = k := by
  unfold dfltPnode
  split
  · rename_i h0
    exact h0.symm
  · rfl

theorem mem_restored {olds lps : List Lprops} {lp' : Lprops}
    (h : lp' ∈ List.zipWith (restored g) olds lps) :
    ∃ lp ∈ lps, lp'.free = lp.free ∧ lp'.dirty = lp.dirty := by
  obtain ⟨i, hi, rfl⟩ := List.getElem_of_mem h
  rw [List.length_zipWith] at hi
  rw [List.getElem_zipWith]
  exact ⟨_, List.getElem_mem (by omega), rfl, rfl⟩

theorem Dflt.validatePnode (hd : Dflt c) {parent : CachedNnode} {k num iip : Nat}
    (hnum : c.bigLpt → num = calcPnodeNumFromParent c parent iip) {olds : List Lprops} :
    validatePnode c ⟨num, List.zipWith (restored g) olds (dfltPnode c k).lprops⟩ parent iip =
      .ok () := by
  have hall : (List.zipWith (restored g) olds (dfltPnode c k).lprops).all (validLprops c) = true := by
    rw [List.all_eq_true]
    intro lp' hlp'
    obtain ⟨lp, hlp, hfree, hdirty⟩ := mem_restored hlp'
    exact (hd.usable k lp hlp).valid hfree hdirty
  unfold Lpt.validatePnode
  rw [if_neg (fun h => h.2 (hnum h.1)), if_pos hall]

/-- Every leaf is read, with its number and its LEBs. -/
theorem readPnode_dflt (hd : Dflt c) (hs : Stored c crc16 flash) {i iip : Nat}
    (hi : i < 4 ^ (c.geom.lptHght - 1)) (hiip : iip < ubifsLptFanout) :
    readPnode c g crc16 junk flash nodBuf ⟨dfltNnode c 0 i, 1⟩ iip =
      .ok (leafOf c g (ubifsLptFanout * i + iip)) := by
  have hnum : calcPnodeNumFromParent c ⟨dfltNnode c 0 i, 1⟩ iip = ubifsLptFanout * i + iip :=
    calcPnodeNumFromParent_eq rfl hi hiip
  have hvalid := @Dflt.validatePnode _ g hd _ (ubifsLptFanout * i + iip)
    (if c.bigLpt then ubifsLptFanout * i + iip else 0) _ (fun hbig => (if_pos hbig).trans hnum.symm)
    (List.replicate ubifsLptFanout zeroLprops)
  have hlnum := childBranch_lnum (x := ubifsLptFanout * i + iip) hd (Nat.zero_le c.geom.lptHght)
  unfold readPnode leafOf
  rw [branchTo_child hiip, hnum]
  generalize ubifsLptFanout * i + iip = k at hvalid hlnum ⊢
  by_cases hk : k < rowCnt c 0
  · have hof := hd.pnodeOf hk
    have hat := hs _ (leaf_mem _ hk)
    have hread := @unpackPnode_nodeAt _ g _ junk _ hd.checked _
      ⟨0, List.replicate ubifsLptFanout zeroLprops⟩ _ hof List.length_replicate
      (@NodeAt.read _ _ nodBuf _ _ _ _ hat (nodeSz_pnode hof))
    have hbranch : childBranch c 0 k = ⟨(nodeSpot c k).1, (nodeSpot c k).2⟩ := by
      rw [childBranch, if_pos hk, rowOff, Nat.zero_add]
    have hwritten : ¬(childBranch c 0 k).lnum = 0 := fun h => absurd (hlnum.mp h) (Nat.not_le.mpr hk)
    unfold placedAt at hread
    rw [hbranch] at hwritten ⊢
    simp only [dfltPnode_num] at hread
    simp only [bind, Except.bind, if_neg hwritten, hread]
    rw [hvalid]
    cases hbig : c.bigLpt with
    | true => rfl
    | false => rfl
  · have habsent : (childBranch c 0 k).lnum = 0 := hlnum.mpr (Nat.le_of_not_lt hk)
    have hpos := hd.pnodeCnt_pos
    have hk0 : k ≠ 0 := by
      rintro rfl
      exact hk hpos
    have hempty : dfltPnode c k = emptyPnode c k := if_neg hk0
    rw [hempty, restored_empty] at hvalid ⊢
    simp only [bind, Except.bind, if_pos habsent, pure, Except.pure]
    rw [hvalid]
    cases hbig : c.bigLpt with
    | true => rfl
    | false => rfl

/-- Where nothing was written there are no branches. -/
theorem nbranch_absent {l x : Nat} (hx : rowCnt c (l + 1) ≤ x) :
    (dfltNnode c l x).nbranch = List.replicate ubifsLptFanout ⟨0, 0⟩ := by
  have hbelow : rowCnt c l ≤ x * 4 := (divRoundUp_le (rowCnt c l) x).mp hx
  rw [List.eq_replicate_iff]
  constructor
  · rw [dfltNnode, List.length_map, List.length_range]
  · intro b hb
    obtain ⟨j, -, rfl⟩ := List.mem_map.mp hb
    rw [childBranch, if_neg]
    unfold ubifsLptFanout
    omega

theorem ubifsReadNnode_dflt (hd : Dflt c) (hs : Stored c crc16 flash) {root : Nbranch}
    {parent : Option CachedNnode} {l x iip : Nat} (hl : l < c.geom.lptHght)
    (hbranch : branchTo root parent iip = childBranch c (l + 1) x)
    (hlvl : levelBelow c parent = l + 1)
    (hnum : calcNnodeNumFromParent c parent iip = calcNnodeNum (c.geom.lptHght - 1 - l) x) :
    ubifsReadNnode c crc16 junk flash nodBuf root parent iip = .ok ⟨dfltNnode c l x, l + 1⟩ := by
  have hvalid := @Dflt.validateNnode _ hd _ x _ ⟨if c.bigLpt then calcNnodeNum
    (c.geom.lptHght - 1 - l) x else 0,
      (dfltNnode c l x).nbranch⟩ _ hl hlvl (fun hbig => (if_pos hbig).trans hnum.symm) rfl
  have hlnum := childBranch_lnum (x := x) hd (Nat.succ_le_of_lt hl)
  unfold ubifsReadNnode
  rw [hbranch, hnum, hlvl]
  by_cases hx : x < rowCnt c (l + 1)
  · have hof := hd.nnodeOf hl x
    have hat := hs _ (inner_mem hl hx)
    have hread := @unpackNnode_nodeAt _ _ junk _ hd.checked _
      ⟨0, List.replicate ubifsLptFanout ⟨0, 0⟩⟩ _ hof (@NodeAt.read _ _ nodBuf _ _ _ _ hat
      (nodeSz_nnode hof))
    have hspot : childBranch c (l + 1) x = ⟨(nodeSpot c (rowOff c (l + 1) + x)).1,
        (nodeSpot c (rowOff c (l + 1) + x)).2⟩ := if_pos hx
    have hwritten : ¬(childBranch c (l + 1) x).lnum = 0 := fun h => absurd (hlnum.mp h) (Nat.not_le.mpr hx)
    rw [hspot] at hwritten ⊢
    unfold placedAt at hread
    simp only at hread
    simp only [bind, Except.bind, if_neg hwritten, hread]
    have hnode : (dfltNnode c l x).num = calcNnodeNum (c.geom.lptHght - 1 - l) x := rfl
    rw [hnode, hvalid]
    cases hbig : c.bigLpt with
    | true => rfl
    | false => rfl
  · have habsent : (childBranch c (l + 1) x).lnum = 0 := hlnum.mpr (Nat.le_of_not_lt hx)
    rw [← nbranch_absent (Nat.le_of_not_lt hx)]
    simp only [bind, Except.bind, if_pos habsent]
    cases hbig : c.bigLpt with
    | true =>
      rw [hbig, if_pos rfl] at hvalid
      simp only [if_true, pure, Except.pure]
      rw [hvalid]
      rfl
    | false =>
      rw [hbig, if_neg Bool.false_ne_true] at hvalid
      simp only [Bool.false_eq_true, if_false, pure, Except.pure]
      rw [hvalid]
      rfl

/-! ## The walk -/

/-- A traversal succeeds if every step of it does. -/
theorem mapM_ok {ε α β : Type*} {f : α → Except ε β} {h : α → β} {xs : List α}
    (hf : ∀ x ∈ xs, f x = .ok (h x)) : xs.mapM f = .ok (xs.map h) := by
  induction xs with
  | nil => rfl
  | cons x xs ih =>
    rw [List.mapM_cons, hf x List.mem_cons_self, ih fun y hy => hf y (List.mem_cons_of_mem x hy)]
    rfl

/-- `n` blocks of `m` numbers. -/
theorem flatten_range {α : Type*} (f : Nat → α) (n m : Nat) :
    ((List.range n).map fun j => (List.range m).map fun k => f (j * m + k)).flatten =
      (List.range (n * m)).map f := by
  induction n with
  | zero => simp
  | succ n ih =>
    rw [List.range_succ, List.map_append, List.flatten_append, ih, List.map_singleton,
      List.flatten_singleton, Nat.succ_mul, List.range_add, List.map_append, List.map_map]
    rfl

/-- Below an inner node are the leaves of its part of the row. -/
theorem walkBelow_dflt (hd : Dflt c) (hs : Stored c crc16 flash) {l : Nat}
    (hl : l < c.geom.lptHght) {i : Nat} (hi : i < 4 ^ (c.geom.lptHght - 1 - l)) :
    walkBelow c g crc16 junk flash nodBuf (l + 1) ⟨dfltNnode c l i, l + 1⟩ =
      .ok ((List.range (4 ^ (l + 1))).map fun k => leafOf c g (i * 4 ^ (l + 1) + k)) := by
  induction l generalizing i with
  | zero =>
    rw [walkBelow, mapM_ok fun iip hiip => readPnode_dflt hd hs hi (List.mem_range.mp hiip)]
    congr 1
    apply List.map_congr_left
    intro k _
    rw [Nat.mul_comm]
    rfl
  | succ l ih =>
    have hchild : ∀ iip ∈ List.range ubifsLptFanout,
        (do let child ← ubifsReadNnode c crc16 junk flash nodBuf ⟨0, 0⟩
              (some ⟨dfltNnode c (l + 1) i, l + 2⟩) iip
            walkBelow c g crc16 junk flash nodBuf (l + 1) child) =
          .ok ((List.range (4 ^ (l + 1))).map fun k =>
            leafOf c g ((ubifsLptFanout * i + iip) * 4 ^ (l + 1) + k)) := by
      intro iip hiip
      have hlt : iip < 4 := List.mem_range.mp hiip
      have hrow : c.geom.lptHght - 1 - l = c.geom.lptHght - 1 - (l + 1) + 1 := by omega
      have hcol : 4 * i + iip < 4 ^ (c.geom.lptHght - 1 - l) := by
        rw [hrow, Nat.pow_succ]
        omega
      have hnum := @calcNnodeNumFromParent_eq c ⟨dfltNnode c (l + 1) i, l + 2⟩
        (c.geom.lptHght - 1 - (l + 1)) i _ rfl (by simp only; omega) hlt
      rw [← hrow] at hnum
      rw [ubifsReadNnode_dflt hd hs (Nat.lt_of_succ_lt hl) (branchTo_child hlt) rfl hnum]
      exact ih (Nat.lt_of_succ_lt hl) hcol
    rw [walkBelow, mapM_ok hchild]
    have hpow : 4 ^ (l + 1 + 1) = ubifsLptFanout * 4 ^ (l + 1) := Nat.pow_succ'
    have hidx : ∀ j k, (ubifsLptFanout * i + j) * 4 ^ (l + 1) + k =
        i * 4 ^ (l + 1 + 1) + (j * 4 ^ (l + 1) + k) := by
      intro j k
      rw [hpow, Nat.add_mul, Nat.mul_comm ubifsLptFanout i, Nat.mul_assoc, Nat.add_assoc]
    simp only [bind, Except.bind, pure, Except.pure, hidx]
    rw [flatten_range (fun k => leafOf c g (i * 4 ^ (l + 1 + 1) + k)), ← hpow]

theorem readRoot_dflt (hd : Dflt c) (hs : Stored c crc16 flash) {root : Nbranch}
    (hroot : (root.lnum, root.offs) = nodeSpot c (rowOff c c.geom.lptHght)) {l : Nat}
    (hl : c.geom.lptHght = l + 1) :
    ubifsReadNnode c crc16 junk flash nodBuf root none 0 = .ok ⟨dfltNnode c l 0, l + 1⟩ := by
  have hrow : c.geom.lptHght - 1 - l = 0 := by omega
  have hone := hd.rowCnt_hght
  rw [hl] at hone hroot
  have hbranch : branchTo root none 0 = childBranch c (l + 1) 0 := by
    rw [childBranch, if_pos (by rw [hone]; exact Nat.one_pos), Nat.add_zero, ← hroot]
    rfl
  exact ubifsReadNnode_dflt hd hs (by omega) hbranch hl (by rw [hrow]; rfl)

theorem walk_dflt (hd : Dflt c) (hs : Stored c crc16 flash) {root : Nbranch}
    (hroot : (root.lnum, root.offs) = nodeSpot c (rowOff c c.geom.lptHght)) :
    walk c g crc16 junk flash nodBuf root =
      .ok ((List.range (4 ^ c.geom.lptHght)).map (leafOf c g)) := by
  obtain ⟨l, hl⟩ := Nat.exists_eq_succ_of_ne_zero (Nat.pos_iff_ne_zero.mp (lptHght_spec c).2.1)
  have hrow : c.geom.lptHght - 1 - l = 0 := by omega
  have hread := @readRoot_dflt _ _ junk _ nodBuf hd hs _ hroot _ hl
  have hbelow := @walkBelow_dflt _ g _ junk _ nodBuf hd hs l (by omega) 0 (by rw [hrow]; decide)
  simp only [walk, bind, Except.bind, hread, hbelow]
  rw [hl]
  simp only [Nat.zero_mul, Nat.zero_add]

end Read

end Ubifs.Lpt
