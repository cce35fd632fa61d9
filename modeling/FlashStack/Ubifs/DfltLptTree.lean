/-
  The default LEB properties tree, written.

  A row above the leaves has a quarter of the nodes below it.  Whatever node the writer is at, its
  branches are to the next nodes of the row below: the cursor of the branches finds the same spots as
  the writer did.

  The numbers of the nodes follow from their rows and columns, and the widths of the branches from
  the geometry; so each node that is packed is one that can be unpacked.
-/
import FlashStack.Ubifs.DfltLptPlaces

open Lib

namespace Ubifs.Lpt

open Lp Lib.NextFit

/-! ## Rows and levels -/

section Rows

variable {c : Info}

theorem divRoundUp_le (n m : Nat) : divRoundUp n ubifsLptFanout ≤ m ↔ n ≤ m * 4 := by
  rw [divRoundUp_four]
  omega

theorem rowCnt_le (l m : Nat) : rowCnt c l ≤ m ↔ c.geom.pnodeCnt ≤ m * 4 ^ l := by
  induction l generalizing m with
  | zero => rw [Nat.pow_zero, Nat.mul_one, rowCnt]
  | succ l ih => rw [rowCnt, divRoundUp_le, ih, Nat.pow_succ, Nat.mul_assoc, Nat.mul_comm 4]

theorem Dflt.pnodeCnt_eq (hd : Dflt c) :
    divRoundUp (c.mainLebs + c.maxLebCnt - c.lebCnt) ubifsLptFanout = c.geom.pnodeCnt := by
  rw [hd.whole, Nat.add_sub_cancel]
  rfl

theorem Dflt.pnodeCnt_pos (hd : Dflt c) : 0 < c.geom.pnodeCnt := by
  have hmain := hd.mainLebs
  show 0 < (c.mainLebs + 3) / 4
  omega

theorem Dflt.rowCnt_pos (hd : Dflt c) (l : Nat) : 0 < rowCnt c l := by
  have hpos := hd.pnodeCnt_pos
  have hle := rowCnt_le (c := c) l 0
  omega

/-- There is one root, and it is at the height of the geometry. -/
theorem Dflt.rowCnt_hght (hd : Dflt c) : rowCnt c c.geom.lptHght = 1 := by
  have hpos := hd.rowCnt_pos c.geom.lptHght
  obtain ⟨henough, -, -⟩ := lptHght_spec c
  rw [hd.pnodeCnt_eq] at henough
  have hle := (rowCnt_le (c := c) c.geom.lptHght 1).mpr (by omega)
  omega

theorem Dflt.rowCnt_gt (hd : Dflt c) {l : Nat} (hl : l + 1 < c.geom.lptHght) :
    1 < rowCnt c (l + 1) := by
  obtain ⟨-, -, hleast⟩ := lptHght_spec c
  rw [hd.pnodeCnt_eq] at hleast
  have hlt := hleast (by omega)
  have hpow : 4 ^ (l + 1) ≤ 4 ^ (c.geom.lptHght - 1) := Nat.pow_le_pow_right (by decide) (by omega)
  have hle := rowCnt_le (c := c) (l + 1) 1
  omega

theorem hghtLoop_succ (max n h : Nat) (hn : 0 < n) :
    hghtLoop max n (h + 1) hn = hghtLoop max n h hn + 1 := by
  fun_induction hghtLoop max n h hn with
  | case1 n h hn hlt ih =>
    rw [hghtLoop, dif_pos hlt]
    exact ih
  | case2 n h hn hge => rw [hghtLoop, dif_neg hge]

/-- The row of the inner nodes above the leaves. -/
theorem Dflt.row_eq (hd : Dflt c) :
    hghtLoop c.geom.pnodeCnt ubifsLptFanout 0 (by decide) = c.geom.lptHght - 1 := by
  have hhght : c.geom.lptHght = hghtLoop c.geom.pnodeCnt ubifsLptFanout (0 + 1) (by decide) := by
    rw [← hd.pnodeCnt_eq]
    rfl
  rw [hhght, hghtLoop_succ, Nat.add_sub_cancel]

end Rows

/-! ## The inner nodes -/

section Inner

variable (c : Info)

/-- The branch to column `x` of row `l`. -/
def childBranch (l x : Nat) : Nbranch :=
  if x < rowCnt c l then ⟨(nodeSpot c (rowOff c l + x)).1, (nodeSpot c (rowOff c l + x)).2⟩
  else ⟨0, 0⟩

/-- The inner node at column `i` of the row above `l`. -/
def dfltNnode (l i : Nat) : Nnode where
  num := calcNnodeNum (c.geom.lptHght - 1 - l) i
  nbranch := (List.range ubifsLptFanout).map fun j => childBranch c l (ubifsLptFanout * i + j)

/-- The first `n` nnodes of a row. -/
def innerNodes (l n : Nat) : List Placed :=
  (List.range n).map fun i => placedAt c (rowOff c (l + 1) + i) (nnodeFields c (dfltNnode c l i))

/-- The tree, up to a row. -/
def rowNodes : Nat → List Placed
  | 0 => leafNodes c c.geom.pnodeCnt
  | l + 1 => rowNodes l ++ innerNodes c l (rowCnt c (l + 1))

/-- The cursor of the branches is at column `x` of row `l`. -/
structure CursorAt (l x : Nat) (b : Below) : Prop where
  bcnt : b.bcnt = rowCnt c l - x
  bsz : b.bsz = rowSz c l
  fill : (b.blnum, b.boffs) = nodeFill c (rowOff c l + min x (rowCnt c l))

variable {c}

theorem length_rowNodes (l : Nat) : (rowNodes c l).length = rowOff c (l + 1) := by
  induction l with
  | zero =>
    rw [rowNodes, length_leafNodes]
    exact (Nat.zero_add _).symm
  | succ l ih =>
    rw [rowNodes, List.length_append, ih, innerNodes, List.length_map, List.length_range]
    rfl

theorem innerNodes_succ (l n : Nat) : innerNodes c l (n + 1) = innerNodes c l n ++
    [placedAt c (rowOff c (l + 1) + n) (nnodeFields c (dfltNnode c l n))] := by
  simp [innerNodes, List.range_succ]

theorem treeCnt_lt_streamCnt (c : Info) : treeCnt c < streamCnt c := by
  unfold streamCnt
  omega

theorem Dflt.rowSz_pos (l : Nat) : 0 < rowSz c l := by
  unfold rowSz
  split
  · rw [geom_pnodeSz]
    unfold ubifsLptCrcBits
    omega
  · rw [geom_nnodeSz]
    unfold ubifsLptCrcBits
    omega

theorem Dflt.childBranch_of (hd : Dflt c) {l : Nat} (hl : l ≤ c.geom.lptHght) (x : Nat) :
    NbranchOf c (childBranch c l x) := by
  unfold childBranch
  split
  · rename_i hx
    have hcnt := Nat.lt_trans (row_lt_treeCnt hl hx) (treeCnt_lt_streamCnt c)
    have harea := hd.spot_area hcnt
    have hinside := hd.spot_inside (rowOff c l + x)
    have hpos : 0 < rowSz c l := Dflt.rowSz_pos l
    rw [streamSz_row hl hx] at hinside
    exact .inr ⟨harea.1, harea.2, by simp only; omega⟩
  · exact .inl ⟨rfl, rfl⟩

theorem Dflt.nnodeOf (hd : Dflt c) {l : Nat} (hl : l < c.geom.lptHght) (i : Nat) :
    NnodeOf c (dfltNnode c l i) := by
  constructor
  · exact ⟨c.geom.lptHght - 1 - l, by omega, i, rfl⟩
  · rw [dfltNnode, List.length_map, List.length_range]
  · intro b hb
    obtain ⟨j, -, rfl⟩ := List.mem_map.mp hb
    exact hd.childBranch_of (Nat.le_of_lt hl) _

/-- The place that the cursor finds for the next branch. -/
theorem CursorAt.spot {l x : Nat} {b : Below} (h : CursorAt c l x b) (hl : l ≤ c.geom.lptHght)
    (hx : x < rowCnt c l) :
    nodeSpot c (rowOff c l + x) = NextFit.place c.lebSize (b.blnum, b.boffs) b.bsz := by
  have hfill := h.fill
  rw [Nat.min_eq_left (Nat.le_of_lt hx)] at hfill
  rw [hfill, h.bsz, ← streamSz_row hl hx]
  rfl

theorem CursorAt.next {l x : Nat} {b : Below} (h : CursorAt c l x b) (hl : l ≤ c.geom.lptHght)
    (hx : x < rowCnt c l) : CursorAt c l (x + 1)
      { blnum := (nodeSpot c (rowOff c l + x)).1
        boffs := (nodeSpot c (rowOff c l + x)).2 + b.bsz
        bcnt := b.bcnt - 1
        bsz := b.bsz } := by
  refine ⟨?_, h.bsz, ?_⟩
  · show b.bcnt - 1 = rowCnt c l - (x + 1)
    rw [h.bcnt]
    omega
  · have hsucc : nodeFill c (rowOff c l + (x + 1)) = ((nodeSpot c (rowOff c l + x)).1,
        (nodeSpot c (rowOff c l + x)).2 + streamSz c (rowOff c l + x)) := rfl
    rw [Nat.min_eq_left hx, hsucc, streamSz_row hl hx, h.bsz]

theorem CursorAt.stay {l x : Nat} {b : Below} (h : CursorAt c l x b) (hx : rowCnt c l ≤ x) :
    CursorAt c l (x + 1) b := by
  refine ⟨?_, h.bsz, ?_⟩
  · rw [h.bcnt]
    omega
  · rw [h.fill, Nat.min_eq_right hx, Nat.min_eq_right (Nat.le_succ_of_le hx)]

theorem setBranches_written (n : Nat) {b : Below} (hb : b.bcnt ≠ 0) {p : Nat × Nat}
    (hp : p = NextFit.place c.lebSize (b.blnum, b.boffs) b.bsz) : setBranches c (n + 1) b =
      ((⟨p.1, p.2⟩ : Nbranch) :: (setBranches c n ⟨p.1, p.2 + b.bsz, b.bcnt - 1, b.bsz⟩).1,
        (setBranches c n ⟨p.1, p.2 + b.bsz, b.bcnt - 1, b.bsz⟩).2) := by
  rw [hp]
  unfold NextFit.place
  simp only [setBranches, if_pos hb]
  by_cases hroom : b.boffs + b.bsz ≤ c.lebSize
  · rw [if_neg (by omega), if_pos hroom]
  · rw [if_pos (by omega), if_neg hroom]

theorem setBranches_absent (n : Nat) {b : Below} (hb : b.bcnt = 0) : setBranches c (n + 1) b =
    (⟨0, 0⟩ :: (setBranches c n b).1, (setBranches c n b).2) := by
  have hzero : ¬b.bcnt ≠ 0 := fun h => h hb
  simp only [setBranches, if_neg hzero]

theorem map_range_succ {α : Type*} (f : Nat → α) (x n : Nat) :
    (List.range (n + 1)).map (fun j => f (x + j)) =
      f x :: (List.range n).map fun j => f (x + 1 + j) := by
  rw [List.range_succ_eq_map, List.map_cons, List.map_map]
  congr 1
  apply List.map_congr_left
  intro j _
  simp only [Function.comp, Nat.succ_eq_add_one]
  congr 1
  omega

/-- The cursor goes where the writer went. -/
theorem setBranches_spec {l : Nat} (hl : l ≤ c.geom.lptHght) (n : Nat) {x : Nat} {b : Below}
    (h : CursorAt c l x b) :
    (setBranches c n b).1 = (List.range n).map (fun j => childBranch c l (x + j)) ∧
      CursorAt c l (x + n) (setBranches c n b).2 := by
  induction n generalizing x b with
  | zero => exact ⟨rfl, h⟩
  | succ n ih =>
    have hidx : x + (n + 1) = x + 1 + n := by omega
    rw [map_range_succ, hidx]
    by_cases hx : x < rowCnt c l
    · have hb : b.bcnt ≠ 0 := by
        rw [h.bcnt]
        omega
      obtain ⟨hlist, hend⟩ := ih (h.next hl hx)
      rw [setBranches_written n hb (h.spot hl hx)]
      refine ⟨?_, hend⟩
      rw [hlist, childBranch, if_pos hx]
    · have hb : b.bcnt = 0 := by
        rw [h.bcnt]
        omega
      obtain ⟨hlist, hend⟩ := ih (h.stay (Nat.le_of_not_lt hx))
      rw [setBranches_absent n hb]
      refine ⟨?_, hend⟩
      rw [hlist, childBranch, if_neg hx]

end Inner

/-! ## Row after row -/

section Climb

variable {c : Info} {env : Env} {crc16 : Crc} {s s' : Writer} {nodes : List Placed}

/-- The root is remembered besides. -/
theorem Ready.withRoot (h : Ready c crc16 s nodes) (lnum offs : Nat) :
    Ready c crc16 { s with lptLnum := lnum, lptOffs := offs } nodes :=
  ⟨⟨h.good.first, h.good.inPlace, h.good.used, h.good.fits, h.good.ltab⟩, h.packed, h.onSpot, h.spot⟩

theorem length_inner (l n : Nat) : (rowNodes c l ++ innerNodes c l n).length =
    rowOff c (l + 1) + n := by
  rw [List.length_append, length_rowNodes, innerNodes, List.length_map, List.length_range]

theorem addNnode_reached (hd : Dflt c) {l i : Nat} (hl : l < c.geom.lptHght)
    (hi : i < rowCnt c (l + 1)) (h : Ready c crc16 s (rowNodes c l ++ innerNodes c l i)) :
    Reached c crc16 (addNnode c crc16 (dfltNnode c l i) s)
      (rowNodes c l ++ innerNodes c l (i + 1)) := by
  have hof := hd.nnodeOf hl i
  have hsz := nodeSz_nnode hof
  have hstream : streamSz c (rowOff c (l + 1) + i) = c.geom.nnodeSz := streamSz_row hl hi
  have hpacked := h.pack hd (fits_nnode hd.checked hof) (by rw [hsz, length_inner, hstream])
  rw [length_inner, List.append_assoc, ← innerNodes_succ] at hpacked
  have heq : addNnode c crc16 (dfltNnode c l i) s =
      s.pack crc16 (nnodeFields c (dfltNnode c l i)) := by
    unfold addNnode Writer.pack ubifsPackNnode
    rw [hsz]
  rw [heq]
  exact hpacked

theorem addNnodes_reached (hd : Dflt c) {l : Nat} (hl : l < c.geom.lptHght) (k : Nat) {i : Nat}
    {b b' : Below} (hk : i + k = rowCnt c (l + 1)) (hb : CursorAt c l (ubifsLptFanout * i) b)
    (h : Reached c crc16 s (rowNodes c l ++ innerNodes c l i))
    (hok : addNnodes c env crc16 (rowCnt c (l + 1)) (c.geom.lptHght - 1 - l) k i b s =
      .ok (b', s')) :
    Reached c crc16 s' (rowNodes c (l + 1)) ∧
      CursorAt c l (ubifsLptFanout * rowCnt c (l + 1)) b' ∧
      (rowCnt c (l + 1) = 1 → (s'.lptLnum, s'.lptOffs) =
        if k = 0 then (s.lptLnum, s.lptOffs) else nodeSpot c (rowOff c (l + 1))) := by
  induction k generalizing i b s with
  | zero =>
    obtain ⟨rfl, rfl⟩ := Prod.mk.inj (Except.ok.inj hok)
    rw [Nat.add_zero] at hk
    rw [hk] at h hb
    exact ⟨h, hb, fun _ => rfl⟩
  | succ k ih =>
    simp only [addNnodes, bind, Except.bind] at hok
    split at hok
    · cases hok
    · rename_i s₁ hroom
      have hi : i < rowCnt c (l + 1) := by omega
      have hstream : streamSz c (rowOff c (l + 1) + i) = c.geom.nnodeSz := streamSz_row hl hi
      have hready := h.room hd (by rw [length_inner]; exact hstream) hroom
      obtain ⟨hbranches, hcursor⟩ := setBranches_spec (Nat.le_of_lt hl) ubifsLptFanout hb
      have hnode : (⟨calcNnodeNum (c.geom.lptHght - 1 - l) i,
          (setBranches c ubifsLptFanout b).1⟩ : Nnode) = dfltNnode c l i := by
        rw [hbranches]
        rfl
      rw [hnode] at hok
      have hnext : CursorAt c l (ubifsLptFanout * (i + 1)) (setBranches c ubifsLptFanout b).2 :=
        hcursor
      by_cases hone : rowCnt c (l + 1) = 1
      · rw [if_pos hone] at hok
        have hadd := addNnode_reached hd hl hi (hready.withRoot s₁.lnum s₁.len)
        obtain ⟨hreached, hend, hroot⟩ := ih (by omega) hnext hadd hok
        refine ⟨hreached, hend, fun _ => ?_⟩
        have hk0 : k = 0 := by omega
        have hi0 : i = 0 := by omega
        have hspot := hready.spot
        rw [length_inner, hi0, Nat.add_zero] at hspot
        rw [hroot hone, if_pos hk0, if_neg (Nat.succ_ne_zero k)]
        exact hspot
      · rw [if_neg hone] at hok
        have hadd := addNnode_reached hd hl hi hready
        obtain ⟨hreached, hend, -⟩ := ih (by omega) hnext hadd hok
        exact ⟨hreached, hend, fun h => absurd h hone⟩

/-- Behind a row the cursor is at the start of the next one. -/
theorem CursorAt.rowEnd {l : Nat} {b : Below}
    (h : CursorAt c l (ubifsLptFanout * rowCnt c (l + 1)) b) : CursorAt c (l + 1) 0
      { blnum := b.blnum, boffs := b.boffs, bcnt := rowCnt c (l + 1), bsz := c.geom.nnodeSz } := by
  have hall : rowCnt c l ≤ ubifsLptFanout * rowCnt c (l + 1) := by
    have := (divRoundUp_le (rowCnt c l) (rowCnt c (l + 1))).mp (Nat.le_refl _)
    rwa [Nat.mul_comm] at this
  refine ⟨rfl, (if_neg (Nat.succ_ne_zero l)).symm, ?_⟩
  rw [h.fill, Nat.min_eq_right hall, Nat.zero_min]
  rfl

theorem addRows_reached (hd : Dflt c) {l : Nat} (hl : l < c.geom.lptHght) {b : Below}
    {s s' : Writer}
    (hb : CursorAt c l 0 b) (h : Reached c crc16 s (rowNodes c l))
    (hok : addRows c env crc16 (rowCnt c l) (c.geom.lptHght - 1 - l) b s = .ok s') :
    Reached c crc16 s' (rowNodes c c.geom.lptHght) ∧
      (s'.lptLnum, s'.lptOffs) = nodeSpot c (rowOff c c.geom.lptHght) := by
  rw [addRows] at hok
  simp only [bind, Except.bind] at hok
  split at hok
  · cases hok
  · rename_i p hrow
    obtain ⟨b', s₁⟩ := p
    have hcnt : divRoundUp (rowCnt c l) ubifsLptFanout = rowCnt c (l + 1) := rfl
    rw [hcnt] at hrow hok
    have hstart : rowNodes c l ++ innerNodes c l 0 = rowNodes c l := by
      rw [innerNodes, List.range_zero, List.map_nil, List.append_nil]
    have hpos := hd.rowCnt_pos (l + 1)
    obtain ⟨hreached, hcursor, hroot⟩ := addNnodes_reached hd hl (rowCnt c (l + 1)) (Nat.zero_add _)
      hb (by rw [hstart]; exact h) hrow
    by_cases hmore : 1 < rowCnt c (l + 1)
    · rw [dif_pos hmore] at hok
      have hl' : l + 1 < c.geom.lptHght := by
        rcases Nat.lt_or_eq_of_le (Nat.succ_le_of_lt hl) with hlt | heq
        · exact hlt
        · have hone : rowCnt c (l + 1) = 1 := by
            rw [← Nat.succ_eq_add_one, heq]
            exact hd.rowCnt_hght
          exact absurd hone (Nat.ne_of_gt hmore)
      have hrowIdx : c.geom.lptHght - 1 - l - 1 = c.geom.lptHght - 1 - (l + 1) := by omega
      rw [hrowIdx] at hok
      exact addRows_reached hd hl' hcursor.rowEnd hreached hok
    · rw [dif_neg hmore] at hok
      obtain rfl := Except.ok.inj hok
      have hone : rowCnt c (l + 1) = 1 := by omega
      have htop : c.geom.lptHght = l + 1 := by
        rcases Nat.lt_or_eq_of_le (Nat.succ_le_of_lt hl) with hlt | heq
        · exact absurd (hd.rowCnt_gt hlt) hmore
        · exact heq.symm
      rw [htop]
      refine ⟨hreached, ?_⟩
      rw [hroot hone, if_neg (by omega)]
termination_by c.geom.lptHght - l

end Climb

/-! ## The tables -/

section Tables

variable {c : Info} {env : Env} {crc16 : Crc} {s s' : Writer} {nodes : List Placed}

theorem Dflt.lsaveOf (hd : Dflt c) : LsaveOf c (dfltLsave c) := by
  have hmain := hd.mainLebs
  have hle := hd.checked.mainLebs
  constructor
  · rw [dfltLsave, List.length_map, List.length_range]
  · intro lnum hlnum
    obtain ⟨i, -, rfl⟩ := List.mem_map.mp hlnum
    unfold Info.mainFirst
    split <;> omega

/-- The nodes without the last one. -/
def saveNodes (c : Info) : List Placed :=
  if c.bigLpt then
    rowNodes c c.geom.lptHght ++ [placedAt c (treeCnt c) (lsaveFields c (dfltLsave c))]
  else rowNodes c c.geom.lptHght

theorem length_saveNodes (c : Info) : (saveNodes c).length + 1 = streamCnt c := by
  unfold saveNodes streamCnt
  split
  · rw [List.length_append, length_rowNodes, List.length_singleton]
    rfl
  · rw [length_rowNodes]
    rfl

theorem Dflt.pnodeCnt_le (c : Info) : c.geom.pnodeCnt ≤ treeCnt c := by
  rw [treeCnt_eq]
  exact Nat.le_add_right ..

theorem streamSz_lsave (hbig : c.bigLpt) : streamSz c (treeCnt c) = c.geom.lsaveSz := by
  have hle := Dflt.pnodeCnt_le c
  unfold streamSz
  rw [if_neg (by omega), if_neg (by omega), if_pos ⟨hbig, rfl⟩]

theorem streamSz_ltab (c : Info) : streamSz c (saveNodes c).length = c.geom.ltabSz := by
  have hle := Dflt.pnodeCnt_le c
  have hlen := length_saveNodes c
  unfold streamCnt at hlen
  unfold streamSz
  by_cases hbig : c.bigLpt
  · rw [if_pos hbig] at hlen
    rw [if_neg (by omega), if_neg (by omega), if_neg (by omega)]
  · rw [if_neg hbig] at hlen
    rw [if_neg (by omega), if_neg (by omega), if_neg (fun h => hbig h.1)]

theorem addLsave_reached (hd : Dflt c) (h : Reached c crc16 s (rowNodes c c.geom.lptHght))
    {lsaveLnum lsaveOffs : Nat}
    (hok : addLsave c env crc16 s = .ok (lsaveLnum, lsaveOffs, s')) :
    Reached c crc16 s' (saveNodes c) ∧ s'.lptLnum = s.lptLnum ∧ s'.lptOffs = s.lptOffs := by
  have hlen : (rowNodes c c.geom.lptHght).length = treeCnt c := length_rowNodes _
  unfold addLsave at hok
  unfold saveNodes
  split at hok
  · rename_i hbig
    simp only [bind, Except.bind] at hok
    split at hok
    · cases hok
    · rename_i s₁ hroom
      obtain ⟨-, -, -, hlnum, hoffs⟩ :=
        makeRoom_good h.good (Nat.lt_of_lt_of_le (by decide) hd.minIo) hroom
      have hready := h.room hd (by rw [hlen]; exact streamSz_lsave hbig) hroom
      have hof := hd.lsaveOf
      have hsz := nodeSz_lsave hof
      have hpacked := hready.pack hd (fits_lsave hd.checked hof)
        (by rw [hsz, hlen, streamSz_lsave hbig])
      rw [hlen] at hpacked
      obtain ⟨-, -, rfl⟩ := Prod.mk.inj (Except.ok.inj hok) |>.imp id Prod.mk.inj
      rw [if_pos hbig]
      refine ⟨?_, hlnum, hoffs⟩
      have heq : s₁.pack crc16 (lsaveFields c (dfltLsave c)) = { s₁ with
          buf := ubifsPackLsave c crc16 s₁.buf s₁.len (dfltLsave c)
          len := s₁.len + c.geom.lsaveSz
          nodes := s₁.nodes ++ [⟨s₁.lnum, s₁.len, lsaveFields c (dfltLsave c)⟩] } := by
        unfold Writer.pack ubifsPackLsave
        rw [hsz]
      rw [← heq]
      exact hpacked
  · rename_i hsmall
    obtain ⟨-, -, rfl⟩ := Prod.mk.inj (Except.ok.inj hok) |>.imp id Prod.mk.inj
    rw [if_neg hsmall]
    exact ⟨h, rfl, rfl⟩

/-- The table in the end: for each LPT LEB what its nodes leave. -/
def finalLtab (c : Info) (nodes : List Placed) : List LptLprops :=
  (List.range c.lptLebs).map fun i => lebEntry c (used nodes (c.lptFirst + i))

theorem Dflt.align_used (hd : Dflt c) {x : Nat} (hx : x ≤ c.lebSize) :
    x ≤ align x c.minIoSize ∧ align x c.minIoSize ≤ c.lebSize := by
  have hio : 0 < c.minIoSize := Nat.lt_of_lt_of_le (by decide) hd.minIo
  exact ⟨le_align hio, Lib.align_le hio hx hd.minIo_dvd⟩

/-- An entry accounts for the LEB. -/
theorem Dflt.lebEntry_sum (hd : Dflt c) {x : Nat} (hx : x ≤ c.lebSize) :
    (lebEntry c x).free + (lebEntry c x).dirty + x = c.lebSize := by
  have := hd.align_used hx
  unfold lebEntry
  simp only
  omega

theorem lebEntry_zero (hd : Dflt c) : lebEntry c 0 = ⟨c.lebSize, 0, false, false⟩ := by
  have hzero : align 0 c.minIoSize = 0 := by
    have hio := hd.minIo
    unfold align
    rw [Nat.div_eq_of_lt (by omega), Nat.zero_mul]
  rw [lebEntry, hzero]
  rfl

theorem ltabSoFar_last (hd : Dflt c) {lnum : Nat} (hle : ∀ n ∈ nodes, n.lnum ≤ lnum) :
    ltabSoFar c nodes (lnum + 1) = finalLtab c nodes := by
  apply List.map_congr_left
  intro i _
  split
  · rfl
  · -- no node is that far
    have hnone : used nodes (c.lptFirst + i) = 0 := by
      apply used_of_ne
      intro n hn
      have := hle n hn
      omega
    rw [hnone, lebEntry_zero hd]

theorem finalLtab_of (hd : Dflt c) (hfits : ∀ lnum, used nodes lnum ≤ c.lebSize) :
    LtabOf c (finalLtab c nodes) := by
  constructor
  · rw [finalLtab, List.length_map, List.length_range]
  · intro lp hlp
    obtain ⟨i, -, rfl⟩ := List.mem_map.mp hlp
    have := hd.lebEntry_sum (hfits (c.lptFirst + i))
    omega

end Tables

/-! ## The whole -/

/-- What is on the flash. -/
structure Written (c : Info) (crc16 : Crc) (r : DfltLpt) : Prop where
  info : r.info = c
  onSpot : OnSpot c r.nodes
  count : r.nodes.length = streamCnt c
  tree : ∃ tables, r.nodes = rowNodes c c.geom.lptHght ++ tables
  onFlash : ∀ n ∈ r.nodes, NodeAt crc16 (r.flash n.lnum) n.offs n.fields
  root : (r.lptLnum, r.lptOffs) = nodeSpot c (rowOff c c.geom.lptHght)
  fits : ∀ lnum, used r.nodes lnum ≤ c.lebSize
  ltab : (⟨r.ltabLnum, r.ltabOffs, ltabFields c (finalLtab c r.nodes)⟩ : Placed) ∈ r.nodes

section Written

variable {c : Info} {env : Env} {crc16 : Crc} {s s' : Writer}

/-- The table that is packed is the one in the end, though it is in a LEB that it is about. -/
theorem Ready.lastLtab (h : Ready c crc16 s (saveNodes c)) (hd : Dflt c) {t : List LptLprops}
    (ht : t = setLtab c s.ltab s.lnum (c.lebSize - align (s.len + c.geom.ltabSz) c.minIoSize)
      (align (s.len + c.geom.ltabSz) c.minIoSize - (s.len + c.geom.ltabSz))) :
    t = finalLtab c (s.nodes ++ [⟨s.lnum, s.len, ltabFields c t⟩]) ∧ LtabOf c t := by
  have hlen : t.length = c.lptLebs := by
    rw [ht, h.good.ltab]
    simp [setLtab, ltabSoFar]
  have hsz := nodeSz_ltab hlen
  have hroom := h.room hd (hsz.trans (streamSz_ltab c).symm)
  have hused : used (s.nodes ++ [⟨s.lnum, s.len, ltabFields c t⟩]) s.lnum =
      s.len + c.geom.ltabSz := by
    rw [used_append, if_pos rfl, h.good.used, hsz]
  have hle : ∀ n ∈ s.nodes ++ [⟨s.lnum, s.len, ltabFields c t⟩], n.lnum ≤ s.lnum := by
    intro n hn
    rcases List.mem_append.mp hn with hn | hn
    · exact (h.good.inPlace n hn).le
    · rw [List.mem_singleton.mp hn]
  have hfinal : t = finalLtab c (s.nodes ++ [⟨s.lnum, s.len, ltabFields c t⟩]) := by
    have hset := @setLtab_soFar _ (s.nodes ++ [⟨s.lnum, s.len, ltabFields c t⟩]) _ h.good.first
    rw [hused, ltabSoFar_append, ← h.good.ltab, ← ht, ltabSoFar_last hd hle] at hset
    exact hset
  refine ⟨hfinal, ?_⟩
  rw [hfinal]
  exact finalLtab_of hd (used_append_le h.good hroom)

/-- The last LEB is written. -/
theorem addLtab_written (hd : Dflt c) (h : Reached c crc16 s (saveNodes c))
    {ltabLnum ltabOffs nheadOffs : Nat}
    (hok : addLtab c env crc16 s = .ok (ltabLnum, ltabOffs, nheadOffs, s')) :
    OnSpot c s'.nodes ∧ s'.nodes.length = streamCnt c ∧
      (∀ n ∈ s'.nodes, NodeAt crc16 (s'.flash n.lnum) n.offs n.fields) ∧
      (∀ lnum, used s'.nodes lnum ≤ c.lebSize) ∧
      s'.nodes = saveNodes c ++ [⟨ltabLnum, ltabOffs, ltabFields c (finalLtab c s'.nodes)⟩] ∧
      s'.lptLnum = s.lptLnum ∧ s'.lptOffs = s.lptOffs := by
  have hio : 0 < c.minIoSize := Nat.lt_of_lt_of_le (by decide) hd.minIo
  unfold addLtab at hok
  simp only [bind, Except.bind] at hok
  split at hok
  · cases hok
  · rename_i s₁ hroom
    obtain ⟨-, -, -, hlnum, hoffs⟩ := makeRoom_good h.good hio hroom
    have hready := h.room hd (streamSz_ltab c) hroom
    generalize ht : setLtab c s₁.ltab s₁.lnum
      (c.lebSize - align (s₁.len + c.geom.ltabSz) c.minIoSize)
      (align (s₁.len + c.geom.ltabSz) c.minIoSize - (s₁.len + c.geom.ltabSz)) = t at hok
    obtain ⟨hfinal, hof⟩ := hready.lastLtab hd ht.symm
    have hsz := nodeSz_ltab hof.length
    have hpacked := hready.pack hd (fits_ltab hd.checked hof) (hsz.trans (streamSz_ltab c).symm)
    have hlast : placedAt c (saveNodes c).length (ltabFields c t) =
        ⟨s₁.lnum, s₁.len, ltabFields c t⟩ := by
      rw [placedAt, ← hready.spot]
    rw [hlast] at hpacked
    split at hok
    · cases hok
    · rename_i s₂ hchange
      obtain ⟨-, rfl⟩ := ubiLebChange_ok hchange
      obtain ⟨rfl, rfl, rfl⟩ : s₁.lnum = ltabLnum ∧ s₁.len = ltabOffs ∧ _ = s' := by
        obtain ⟨h₁, h₂⟩ := Prod.mk.inj (Except.ok.inj hok)
        obtain ⟨h₂, h₃⟩ := Prod.mk.inj h₂
        exact ⟨h₁, h₂, (Prod.mk.inj h₃).2⟩
      have hnodes := hready.packed
      have hcount : (saveNodes c ++ [(⟨s₁.lnum, s₁.len, ltabFields c t⟩ : Placed)]).length =
          streamCnt c := by
        rw [List.length_append, List.length_singleton, length_saveNodes]
      rw [hnodes] at hfinal
      simp only [hnodes]
      refine ⟨hpacked.onSpot, hcount, ?_, ?_, ?_, hlnum, hoffs⟩
      · intro n hn
        have hflushed := hpacked.good.flushed (le_align hio) n (by rw [hpacked.packed]; exact hn)
        unfold Writer.pack at hflushed
        rw [hsz] at hflushed
        exact hflushed
      · have hle := hpacked.good.fits
        rwa [hpacked.packed] at hle
      · rw [← hfinal]

/-- The first leaf has the start of the first LEB. -/
theorem start_ready (hd : Dflt c) (hlnum : s.lnum = c.lptFirst) (hlen : s.len = 0)
    (hnodes : s.nodes = []) (hltab : s.ltab = List.replicate c.lptLebs ⟨c.lebSize, 0, false, false⟩) :
    Ready c crc16 s (leafNodes c 0) := by
  refine ⟨⟨Nat.le_of_eq hlnum.symm, ?_, ?_, ?_, ?_⟩, hnodes, ?_, ?_⟩
  · rw [hnodes]
    exact fun n hn => absurd hn List.not_mem_nil
  · rw [hnodes, hlen]
    rfl
  · intro lnum
    rw [hnodes]
    exact Nat.zero_le _
  · rw [hltab, hnodes, hlnum]
    apply List.ext_getElem
    · simp [ltabSoFar]
    · intro i _ _
      simp [ltabSoFar]
  · intro k n hk
    simp [leafNodes] at hk
  · have hroom : (0 : Nat) + streamSz c 0 ≤ c.lebSize := by
      rw [Nat.zero_add]
      exact hd.streamSz_le 0
    rw [hlnum, hlen, length_leafNodes]
    exact (if_pos hroom).symm

theorem writeDfltLpt_written (hd : Dflt c) {flash : Nat → Memory} {buf : Memory} {r : DfltLpt}
    (hok : writeDfltLpt c env crc16 flash buf = .ok r) : Written c crc16 r := by
  unfold writeDfltLpt at hok
  simp only [bind, Except.bind] at hok
  have hpos := hd.pnodeCnt_pos
  generalize hs : (⟨flash, 0, List.replicate c.lptLebs ⟨c.lebSize, 0, false, false⟩, buf, c.lptFirst,
    0, 0, 0, []⟩ : Writer) = s at hok
  have hready : Ready c crc16 s (leafNodes c 0) := by
    rw [← hs]
    exact start_ready hd rfl rfl rfl rfl
  have hfirst : dfltPnode c 0 = firstPnode c := if_pos rfl
  have hleaf := addPnode_reached hd hpos hready
  rw [hfirst] at hleaf
  split at hok
  · cases hok
  · rename_i s₁ hleaves
    have hleavesR := addPnodes_reached hd (c.geom.pnodeCnt - 1) Nat.one_pos (by omega) hleaf hleaves
    split at hok
    · cases hok
    · rename_i s₂ hrows
      have hcursor : CursorAt c 0 0
          { blnum := c.lptFirst, boffs := 0, bcnt := c.geom.pnodeCnt, bsz := c.geom.pnodeSz } :=
        ⟨rfl, rfl, rfl⟩
      rw [hd.row_eq] at hrows
      obtain ⟨htree, hroot⟩ := addRows_reached hd (lptHght_spec c).2.1 hcursor hleavesR hrows
      split at hok
      · cases hok
      · rename_i p hlsave
        obtain ⟨lsaveLnum, lsaveOffs, s₃⟩ := p
        obtain ⟨hsave, hlnum, hoffs⟩ := addLsave_reached hd htree hlsave
        split at hok
        · cases hok
        · rename_i p hltab
          obtain ⟨ltabLnum, ltabOffs, nheadOffs, s₄⟩ := p
          obtain ⟨honSpot, hcount, honFlash, hfits, hnodes, hlnum', hoffs'⟩ :=
            addLtab_written hd hsave hltab
          obtain rfl := Except.ok.inj hok
          refine ⟨rfl, honSpot, hcount, ?_, honFlash, ?_, hfits, ?_⟩
          · obtain ⟨tables, htables⟩ : ∃ tables,
                saveNodes c = rowNodes c c.geom.lptHght ++ tables := by
              unfold saveNodes
              split
              · exact ⟨_, rfl⟩
              · exact ⟨[], (List.append_nil _).symm⟩
            refine ⟨tables ++ [⟨ltabLnum, ltabOffs, ltabFields c (finalLtab c s₄.nodes)⟩],
              hnodes.trans ?_⟩
            rw [htables, List.append_assoc]
          · show (s₄.lptLnum, s₄.lptOffs) = _
            rw [hlnum', hoffs', hlnum, hoffs]
            exact hroot
          · show _ ∈ s₄.nodes
            have hmem : (⟨ltabLnum, ltabOffs, ltabFields c (finalLtab c s₄.nodes)⟩ : Placed) ∈
                saveNodes c ++ [⟨ltabLnum, ltabOffs, ltabFields c (finalLtab c s₄.nodes)⟩] :=
              List.mem_append_right _ (List.mem_singleton_self _)
            rwa [← hnodes] at hmem

/-! ## The geometry is found -/

theorem lptLebsLoop_spec {mainLebs rounds : Nat} {c₀ c : Info}
    (h : lptLebsLoop mainLebs rounds c₀ = .ok c)
    (hlebs : ubifsMinLptLebs ≤ c₀.lptLebs) (hsum : c₀.mainLebs + c₀.lptLebs = mainLebs)
    (hmain : 0 < c₀.mainLebs) (hleb : 0 < c₀.lebSize) :
    ∃ mainLebs' lptLebs', c = { c₀ with mainLebs := mainLebs', lptLebs := lptLebs' } ∧
      ubifsMinLptLebs ≤ lptLebs' ∧ mainLebs' + lptLebs' = mainLebs ∧ 0 < mainLebs' ∧
      4 * c.geom.lptSz ≤ c.lebSize * c.lptLebs ∧ c.geom.ltabSz ≤ c.lebSize := by
  induction rounds generalizing c₀ with
  | zero => cases h
  | succ rounds ih =>
    simp only [lptLebsLoop] at h
    split at h
    · rename_i hmore
      split at h
      · cases h
      · obtain ⟨m, l, hc, hrest⟩ := ih h (by simp only; omega) (by simp only; omega)
          (by simp only; omega) hleb
        exact ⟨m, l, hc, hrest⟩
    · rename_i hmore
      split at h
      · cases h
      · obtain rfl := Except.ok.inj h
        refine ⟨_, _, rfl, hlebs, hsum, hmain, ?_, by omega⟩
        have hdiv := Nat.div_add_mod (c₀.geom.lptSz * 4 + c₀.lebSize - 1) c₀.lebSize
        have hmod := Nat.mod_lt (c₀.geom.lptSz * 4 + c₀.lebSize - 1) hleb
        have hle := Nat.mul_le_mul_left c₀.lebSize (Nat.le_of_not_lt hmore)
        omega

end Written

end Ubifs.Lpt
