/-
  Where the nodes of the default LEB properties tree are.

  The nodes are a stream: the leaves, the inner nodes row by row, the tables.  Each of them is at the
  spot of the stream that next-fit gives it, in the buffer or, when that was written, in its LEB.  Both
  the writer and the cursor of the branches follow the stream.

  `Good` says of the writer that the nodes so far are in place; `Reached` and `Ready` add which
  nodes of the stream these are, before and after room was made for the next one.
-/
import FlashStack.Lib.Align
import FlashStack.Lib.NextFit
import FlashStack.Ubifs.DfltLpt
import FlashStack.Ubifs.LptRoundTrip

open Lib

namespace Ubifs.Lpt

open Lp Lib.NextFit

/-! ## The writer -/

section Writer

variable {c : Info} {env : Env} {crc16 : Crc} {s s' : Writer}

/-- The node is in the buffer, or in its LEB. -/
def InPlace (crc16 : Crc) (s : Writer) (n : Placed) : Prop :=
  n.lnum = s.lnum ∧ n.offs + nodeSz n.fields ≤ s.len ∧ NodeAt crc16 s.buf n.offs n.fields ∨
    n.lnum < s.lnum ∧ NodeAt crc16 (s.flash n.lnum) n.offs n.fields

/-- How much of a LEB is used by nodes. -/
def used (nodes : List Placed) (lnum : Nat) : Nat :=
  (nodes.map fun n => if n.lnum = lnum then nodeSz n.fields else 0).sum

/-- What is in the table for a LEB that is written with `len` bytes of nodes. -/
def lebEntry (c : Info) (len : Nat) : LptLprops where
  free := c.lebSize - align len c.minIoSize
  dirty := align len c.minIoSize - len
  tgc := false
  cmt := false

/-- The table has the LEBs that are written. -/
def ltabSoFar (c : Info) (nodes : List Placed) (lnum : Nat) : List LptLprops :=
  (List.range c.lptLebs).map fun i =>
    if c.lptFirst + i < lnum then lebEntry c (used nodes (c.lptFirst + i))
    else ⟨c.lebSize, 0, false, false⟩

/-- What holds after each node: those that are out are in place, and the LEB is filled up to `len`.
    -/
structure Good (c : Info) (crc16 : Crc) (s : Writer) : Prop where
  first : c.lptFirst ≤ s.lnum
  inPlace : ∀ n ∈ s.nodes, InPlace crc16 s n
  used : used s.nodes s.lnum = s.len
  fits : ∀ lnum, Lpt.used s.nodes lnum ≤ c.lebSize
  ltab : s.ltab = ltabSoFar c s.nodes s.lnum

/-- A node that was placed is not behind the writer. -/
theorem InPlace.le {n : Placed} (h : InPlace crc16 s n) : n.lnum ≤ s.lnum := by
  rcases h with ⟨h, -, -⟩ | ⟨h, -⟩ <;> omega

/-- A node takes its bytes in its LEB. -/
theorem used_append (nodes : List Placed) (n : Placed) (lnum : Nat) :
    used (nodes ++ [n]) lnum = used nodes lnum + if n.lnum = lnum then nodeSz n.fields else 0 := by
  simp [used]

theorem used_of_ne {nodes : List Placed} {lnum : Nat} (h : ∀ n ∈ nodes, n.lnum ≠ lnum) :
    used nodes lnum = 0 := by
  unfold used
  induction nodes with
  | nil => rfl
  | cons n nodes ih =>
    rw [List.map_cons, List.sum_cons, if_neg (h n List.mem_cons_self), Nat.zero_add]
    exact ih fun x hx => h x (List.mem_cons_of_mem n hx)

/-- The entry of the LEB that is written next. -/
theorem setLtab_soFar {nodes : List Placed} {lnum : Nat} (hfirst : c.lptFirst ≤ lnum) :
    setLtab c (ltabSoFar c nodes lnum) lnum (c.lebSize - align (used nodes lnum) c.minIoSize)
      (align (used nodes lnum) c.minIoSize - used nodes lnum) =
    ltabSoFar c nodes (lnum + 1) := by
  apply List.ext_getElem
  · simp [setLtab, ltabSoFar]
  · intro i h₁ h₂
    simp only [setLtab, ltabSoFar, List.getElem_modify, List.getElem_map, List.getElem_range]
    by_cases hi : lnum - c.lptFirst = i
    · have heq : c.lptFirst + i = lnum := by omega
      simp [hi, heq, lebEntry]
    · have hiff : c.lptFirst + i < lnum ↔ c.lptFirst + i < lnum + 1 := by omega
      simp [hi, hiff]

/-- What `ubi_leb_change` does when it does not fail. -/
theorem ubiLebChange_ok {lnum len : Nat} (h : ubiLebChange c env s lnum len = .ok s') :
    len ≤ c.lebSize ∧ s' = { s with
      flash := Function.update s.flash lnum fun a => if a < len then s.buf a else 0xff
      changes := s.changes + 1 } := by
  unfold ubiLebChange at h
  split at h
  · cases h
  · split at h
    · cases h
    · exact ⟨by omega, (Except.ok.inj h).symm⟩

/-- The buffer in its LEB, with ones behind the nodes. -/
theorem InPlace.written {n : Placed} (h : InPlace crc16 s n) {flash : Nat → Memory}
    (hin : ∀ a < s.len, flash s.lnum a = s.buf a) (hother : ∀ l < s.lnum, flash l = s.flash l) :
    NodeAt crc16 (flash n.lnum) n.offs n.fields := by
  rcases h with ⟨hlnum, hend, hat⟩ | ⟨hlt, hat⟩
  · rw [hlnum]
    exact hat.copy fun j hj => hin _ (by omega)
  · rw [hother _ hlt]
    exact hat

/-- The buffer is written with ones behind the nodes. -/
theorem Good.flushed (hg : Good c crc16 s) {alen : Nat} (hlen : s.len ≤ alen) (n : Placed)
    (hn : n ∈ s.nodes) : NodeAt crc16 (Function.update s.flash s.lnum (fun a =>
      if a < alen then memset s.buf s.len 0xff (alen - s.len) a else 0xff) n.lnum) n.offs
      n.fields := by
  apply (hg.inPlace n hn).written
  · intro a ha
    have hlt : a < alen := Nat.lt_of_lt_of_le ha hlen
    have hout : ¬(s.len ≤ a ∧ a < s.len + (alen - s.len)) := by omega
    simp [hlt, memset, hout]
  · intro l hl
    exact Function.update_of_ne (by omega) ..

/-- A LEB that is full is written, and the next one starts. -/
theorem makeRoom_good (hg : Good c crc16 s) (hio : 0 < c.minIoSize) {sz : Nat}
    (h : makeRoom c env sz s = .ok s') :
    Good c crc16 s' ∧ s'.nodes = s.nodes ∧ (s'.lnum, s'.len) = NextFit.place c.lebSize (s.lnum, s.len) sz ∧
      s'.lptLnum = s.lptLnum ∧ s'.lptOffs = s.lptOffs := by
  unfold makeRoom at h
  split at h
  · rename_i hfull
    simp only [bind, Except.bind] at h
    split at h
    · cases h
    · rename_i s₁ hchange
      obtain ⟨-, rfl⟩ := ubiLebChange_ok hchange
      obtain rfl := Except.ok.inj h
      have hplace : NextFit.place c.lebSize (s.lnum, s.len) sz = (s.lnum + 1, 0) := if_neg (by omega)
      refine ⟨⟨?_, ?_, ?_, hg.fits, ?_⟩, rfl, hplace.symm, rfl, rfl⟩
      · exact Nat.le_succ_of_le hg.first
      · intro n hn
        refine .inr ⟨Nat.lt_succ_of_le (hg.inPlace n hn).le, ?_⟩
        exact hg.flushed (le_align hio) n hn
      · -- no node is in the next LEB yet
        exact used_of_ne fun n hn => by
          have := (hg.inPlace n hn).le
          simp only
          omega
      · show setLtab c s.ltab s.lnum _ _ = ltabSoFar c s.nodes (s.lnum + 1)
        rw [hg.ltab, ← hg.used]
        exact setLtab_soFar hg.first
  · rename_i hroom
    obtain rfl := Except.ok.inj h
    refine ⟨hg, rfl, ?_, rfl, rfl⟩
    unfold NextFit.place
    rw [if_pos (by omega)]

/-- A node is packed behind the others in the buffer. -/
def Writer.pack (crc16 : Crc) (s : Writer) (fs : Fields) : Writer :=
  { s with
    buf := packNode crc16 s.buf s.len (nodeSz fs) fs
    len := s.len + nodeSz fs
    nodes := s.nodes ++ [⟨s.lnum, s.len, fs⟩] }

theorem used_append_le (hg : Good c crc16 s) {fs : Fields} (hroom : s.len + nodeSz fs ≤ c.lebSize)
    (lnum : Nat) : used (s.nodes ++ [⟨s.lnum, s.len, fs⟩]) lnum ≤ c.lebSize := by
  rw [used_append]
  by_cases hl : s.lnum = lnum
  · rw [if_pos hl, ← hl, hg.used]
    exact hroom
  · rw [if_neg hl]
    exact hg.fits lnum

/-- The LEB in hand is not in the table yet. -/
theorem ltabSoFar_append (nodes : List Placed) (lnum offs : Nat) (fs : Fields) :
    ltabSoFar c (nodes ++ [⟨lnum, offs, fs⟩]) lnum = ltabSoFar c nodes lnum := by
  apply List.map_congr_left
  intro i _
  by_cases hi : c.lptFirst + i < lnum
  · have hne : lnum ≠ c.lptFirst + i := by omega
    simp only [hi, if_true, used_append, hne, if_false, Nat.add_zero]
  · simp only [hi, if_false]

/-- A node that fits is packed. -/
theorem pack_good (hg : Good c crc16 s) {fs : Fields} (hfs : ∀ f ∈ fs, f.Fits)
    (hroom : s.len + nodeSz fs ≤ c.lebSize) : Good c crc16 (s.pack crc16 fs) := by
  have hwrites := packNode_writes crc16 s.len hfs
  constructor
  · exact hg.first
  · intro n hn
    rcases List.mem_append.mp hn with hn | hn
    · rcases hg.inPlace n hn with ⟨hlnum, hend, hat⟩ | hwritten
      · refine .inl ⟨hlnum, Nat.le_trans hend (Nat.le_add_right ..), ?_⟩
        exact hat.copy fun j hj => hwrites.other _ _ (by omega)
      · exact .inr hwritten
    · obtain rfl := List.mem_singleton.mp hn
      exact .inl ⟨rfl, Nat.le_refl _, packNode_nodeAt crc16 s.buf s.len hfs⟩
  · show used (s.nodes ++ [_]) s.lnum = s.len + nodeSz fs
    rw [used_append, if_pos rfl, hg.used]
  · intro lnum
    exact used_append_le hg hroom lnum
  · show s.ltab = ltabSoFar c (s.nodes ++ [_]) s.lnum
    rw [hg.ltab, ltabSoFar_append]

end Writer

/-! ## The stream of nodes -/

section Stream

variable (c : Info)

/-- How many nodes there are in a row; the leaves are row zero. -/
def rowCnt : Nat → Nat
  | 0 => c.geom.pnodeCnt
  | l + 1 => divRoundUp (rowCnt l) ubifsLptFanout

/-- How many nodes come before a row. -/
def rowOff : Nat → Nat
  | 0 => 0
  | l + 1 => rowOff l + rowCnt c l

/-- The size of a node of the row. -/
def rowSz (l : Nat) : Nat := if l = 0 then c.geom.pnodeSz else c.geom.nnodeSz

/-- How many nodes are in the tree. -/
def treeCnt : Nat := rowOff c (c.geom.lptHght + 1)

/-- The size of the `k`-th thing that is written. -/
def streamSz (k : Nat) : Nat :=
  if k < c.geom.pnodeCnt then c.geom.pnodeSz
  else if k < treeCnt c then c.geom.nnodeSz
  else if c.bigLpt ∧ k = treeCnt c then c.geom.lsaveSz
  else c.geom.ltabSz

/-- How many nodes there are, with the tables. -/
def streamCnt : Nat := treeCnt c + (if c.bigLpt then 1 else 0) + 1

/-- Where it goes. -/
def nodeSpot (k : Nat) : Nat × Nat := spot c.lebSize (streamSz c) c.lptFirst k

/-- Where the one after it would go. -/
def nodeFill (k : Nat) : Nat × Nat := fill c.lebSize (streamSz c) c.lptFirst k

variable {c}

/-- Rows are written from the leaves to the root. -/
theorem rowOff_mono {l l' : Nat} (h : l ≤ l') : rowOff c l ≤ rowOff c l' := by
  induction l' with
  | zero => rw [Nat.le_zero.mp h]
  | succ l' ih =>
    rcases Nat.lt_or_eq_of_le h with hlt | rfl
    · exact Nat.le_trans (ih (Nat.lt_succ_iff.mp hlt)) (Nat.le_add_right ..)
    · exact Nat.le_refl _

/-- A node of a row is one of the tree. -/
theorem row_lt_treeCnt {l i : Nat} (hl : l ≤ c.geom.lptHght) (hi : i < rowCnt c l) :
    rowOff c l + i < treeCnt c :=
  Nat.lt_of_lt_of_le (Nat.add_lt_add_left hi _) (rowOff_mono (l := l + 1) (Nat.succ_le_succ hl))

/-- It has the size of its row. -/
theorem streamSz_row {l i : Nat} (hl : l ≤ c.geom.lptHght) (hi : i < rowCnt c l) :
    streamSz c (rowOff c l + i) = rowSz c l := by
  have htree := row_lt_treeCnt hl hi
  unfold streamSz rowSz
  cases l with
  | zero =>
    have hleaf : rowOff c 0 + i < c.geom.pnodeCnt := by
      rw [rowOff, Nat.zero_add]
      exact hi
    rw [if_pos hleaf, if_pos rfl]
  | succ l =>
    have hbehind : rowOff c 1 ≤ rowOff c (l + 1) := rowOff_mono (Nat.succ_le_succ (Nat.zero_le l))
    have hone : rowOff c 1 = c.geom.pnodeCnt := Nat.zero_add _
    rw [if_neg (by omega), if_pos htree, if_neg (Nat.succ_ne_zero l)]

/-! ## The size of it all -/

/-- The loop counts the nnodes of all rows. -/
theorem nnodeCntLoop_eq (k l acc : Nat) :
    nnodeCntLoop k (rowCnt c l) acc + rowOff c (l + 1) = acc + rowOff c (l + 1 + k) := by
  induction k generalizing l acc with
  | zero => rfl
  | succ k ih =>
    have hstep := ih (l + 1) (acc + rowCnt c (l + 1))
    have hoff : rowOff c (l + 1 + 1) = rowOff c (l + 1) + rowCnt c (l + 1) := rfl
    have hidx : l + 1 + (k + 1) = l + 1 + 1 + k := by omega
    rw [hidx]
    show nnodeCntLoop k (rowCnt c (l + 1)) (acc + rowCnt c (l + 1)) + _ = _
    omega

/-- The geometry counts the nodes of the tree. -/
theorem treeCnt_eq (c : Info) : treeCnt c = c.geom.pnodeCnt + c.geom.nnodeCnt := by
  have hloop := nnodeCntLoop_eq (c := c) (c.geom.lptHght - 1) 1 (rowCnt c 1)
  have hhght := (lptHght_spec c).2.1
  have hidx : 1 + 1 + (c.geom.lptHght - 1) = c.geom.lptHght + 1 := by omega
  have hone : rowOff c (1 + 1) = c.geom.pnodeCnt + rowCnt c 1 := by
    show 0 + rowCnt c 0 + rowCnt c 1 = _
    rw [Nat.zero_add]
    rfl
  have hcnt : nnodeCntLoop (c.geom.lptHght - 1) (rowCnt c 1) (rowCnt c 1) = c.geom.nnodeCnt := rfl
  rw [hidx] at hloop
  unfold treeCnt
  omega

theorem sum_range_const {f : Nat → Nat} {n x : Nat} (h : ∀ k < n, f k = x) :
    ((List.range n).map f).sum = n * x := by
  induction n with
  | zero => simp
  | succ n ih =>
    rw [List.range_succ, List.map_append, List.sum_append, List.map_singleton, List.sum_singleton,
      ih fun k hk => h k (Nat.lt_succ_of_lt hk), h n (Nat.lt_succ_self n), Nat.succ_mul]

theorem sum_range_add (f : Nat → Nat) (n m : Nat) : ((List.range (n + m)).map f).sum =
    ((List.range n).map f).sum + ((List.range m).map fun k => f (n + k)).sum := by
  rw [List.range_add, List.map_append, List.sum_append, List.map_map]
  rfl

theorem sum_range_mono (f : Nat → Nat) {n m : Nat} (h : n ≤ m) :
    ((List.range n).map f).sum ≤ ((List.range m).map f).sum := by
  obtain ⟨d, rfl⟩ := Nat.le.dest h
  rw [sum_range_add]
  exact Nat.le_add_right ..

/-- The wastage comes on top. -/
theorem lptSz_ge (c : Info) : c.geom.pnodeCnt * c.geom.pnodeSz + c.geom.nnodeCnt * c.geom.nnodeSz +
    c.geom.ltabSz + (if c.bigLpt then c.geom.lsaveSz else 0) ≤ c.geom.lptSz := Nat.le_add_right ..

/-- All nodes together are not larger than what was worked out. -/
theorem streamSz_sum (c : Info) :
    ((List.range (streamCnt c)).map (streamSz c)).sum ≤ c.geom.lptSz := by
  have hleaves : ((List.range c.geom.pnodeCnt).map (streamSz c)).sum =
      c.geom.pnodeCnt * c.geom.pnodeSz := sum_range_const fun k hk => if_pos hk
  have hinner : ((List.range c.geom.nnodeCnt).map fun k => streamSz c (c.geom.pnodeCnt + k)).sum =
      c.geom.nnodeCnt * c.geom.nnodeSz := by
    apply sum_range_const
    intro k hk
    have htree := treeCnt_eq c
    unfold streamSz
    rw [if_neg (by omega), if_pos (by omega)]
  have htree : ((List.range (treeCnt c)).map (streamSz c)).sum =
      c.geom.pnodeCnt * c.geom.pnodeSz + c.geom.nnodeCnt * c.geom.nnodeSz := by
    rw [treeCnt_eq, sum_range_add, hleaves, hinner]
  have hpnodes : c.geom.pnodeCnt ≤ treeCnt c := by
    rw [treeCnt_eq]
    exact Nat.le_add_right ..
  have hsz := lptSz_ge c
  unfold streamCnt
  by_cases hbig : c.bigLpt
  · rw [if_pos hbig] at hsz ⊢
    have hlsave : streamSz c (treeCnt c) = c.geom.lsaveSz := by
      unfold streamSz
      rw [if_neg (by omega), if_neg (by omega), if_pos ⟨hbig, rfl⟩]
    have hltab : streamSz c (treeCnt c + 1) = c.geom.ltabSz := by
      unfold streamSz
      rw [if_neg (by omega), if_neg (by omega), if_neg (by omega)]
    rw [List.range_succ, List.range_succ]
    simp only [List.map_append, List.sum_append, List.map_singleton, List.sum_singleton]
    omega
  · rw [if_neg hbig] at hsz ⊢
    have hltab : streamSz c (treeCnt c) = c.geom.ltabSz := by
      unfold streamSz
      rw [if_neg (by omega), if_neg (by omega), if_neg (fun h => hbig h.1)]
    rw [Nat.add_zero, List.range_succ]
    simp only [List.map_append, List.sum_append, List.map_singleton, List.sum_singleton]
    omega

end Stream

/-! ## A default geometry -/

/-- What `create_default_filesystem` and `calc_dflt_lpt_geom` see to. -/
structure Dflt (c : Info) : Prop where
  checked : c.Checked
  whole : c.maxLebCnt = c.lebCnt
  mainLebs : 0 < c.mainLebs
  minIo : 8 ≤ c.minIoSize
  eight : 8 ∣ c.minIoSize
  minIo_dvd : c.minIoSize ∣ c.lebSize
  enough : 4 * c.geom.lptSz ≤ c.lebSize * c.lptLebs
  ltabSz : c.geom.ltabSz ≤ c.lebSize
  lsaveCnt : c.lsaveCnt = defaultLsaveCnt

section Dflt

variable {c : Info}

/-- Nodes of either kind are small. -/
theorem Dflt.pnodeSz_le (hd : Dflt c) : c.geom.pnodeSz ≤ 64 := by
  have hw := hd.checked.widths
  have hspace := hw.space.2
  have hpcnt := hw.pcnt.2
  rw [geom_pnodeSz]
  unfold ubifsLptCrcBits ubifsLptTypeBits ubifsLptFanout
  split <;> omega

theorem Dflt.nnodeSz_le (hd : Dflt c) : c.geom.nnodeSz ≤ 64 := by
  have hw := hd.checked.widths
  have hlnum := hw.lptLnum.2
  have hoffs := hw.lptOffs.2
  have hpcnt := hw.pcnt.2
  rw [geom_nnodeSz]
  unfold ubifsLptCrcBits ubifsLptTypeBits ubifsLptFanout
  split <;> omega

/-- The table of saved LEBs is small, too. -/
theorem Dflt.lsaveSz_le (hd : Dflt c) : c.geom.lsaveSz ≤ 2048 := by
  have hlnum := hd.checked.widths.lnum.2
  rw [geom_lsaveSz, hd.lsaveCnt]
  unfold ubifsLptCrcBits ubifsLptTypeBits defaultLsaveCnt
  omega

/-- So everything fits in a LEB. -/
theorem Dflt.streamSz_le (hd : Dflt c) (k : Nat) : streamSz c k ≤ c.lebSize := by
  have hleb := hd.checked.lebSize
  have hpnode := hd.pnodeSz_le
  have hnnode := hd.nnodeSz_le
  have hlsave := hd.lsaveSz_le
  have hltab := hd.ltabSz
  unfold ubifsMinLebSz at hleb
  unfold streamSz
  split_ifs <;> omega

/-- Half of the LEBs are enough, even if they are filled badly. -/
theorem Dflt.spot_area (hd : Dflt c) {k : Nat} (hk : k < streamCnt c) :
    c.lptFirst ≤ (nodeSpot c k).1 ∧ (nodeSpot c k).1 ≤ c.lptLast := by
  have hle : c.lptFirst ≤ (nodeSpot c k).1 := le_spot k
  have hbound : ((nodeSpot c k).1 - c.lptFirst) * c.lebSize ≤ 2 * c.geom.lptSz :=
    calc ((nodeSpot c k).1 - c.lptFirst) * c.lebSize
        ≤ 2 * ((List.range (k + 1)).map (streamSz c)).sum := spot_bound k
      _ ≤ 2 * ((List.range (streamCnt c)).map (streamSz c)).sum :=
          Nat.mul_le_mul_left 2 (sum_range_mono _ hk)
      _ ≤ 2 * c.geom.lptSz := Nat.mul_le_mul_left 2 (streamSz_sum c)
  have hleb := hd.checked.lebSize
  have hlebs := hd.checked.lptLebs
  unfold ubifsMinLebSz at hleb
  unfold ubifsMinLptLebs at hlebs
  have hhalf : c.lebSize * (2 * ((nodeSpot c k).1 - c.lptFirst)) ≤ c.lebSize * c.lptLebs := by
    refine Nat.le_trans ?_ hd.enough
    rw [Nat.mul_left_comm, Nat.mul_comm c.lebSize]
    omega
  have := Nat.le_of_mul_le_mul_left hhalf (by omega)
  unfold Info.lptLast
  omega

/-- And lies inside of one. -/
theorem Dflt.spot_inside (hd : Dflt c) (k : Nat) :
    (nodeSpot c k).2 + streamSz c k ≤ c.lebSize := NextFit.spot_inside (hd.streamSz_le k)

/-! ## The leaves -/

/-- The leaves: all LEBs are empty but the first two. -/
def dfltPnode (c : Info) (k : Nat) : Pnode := if k = 0 then firstPnode c else emptyPnode c k

theorem Dflt.align_le (hd : Dflt c) {x : Nat} (hx : x ≤ 160) : align x c.minIoSize ≤ c.lebSize := by
  have hleb := hd.checked.lebSize
  have hio := hd.minIo
  unfold ubifsMinLebSz at hleb
  exact Lib.align_le (by omega) (by omega) hd.minIo_dvd

/-- LEBs are multiples of eight bytes. -/
theorem Dflt.eight_leb (hd : Dflt c) : 8 ∣ c.lebSize := Nat.dvd_trans hd.eight hd.minIo_dvd

/-- The space of a LEB with one node of the size `x`. -/
theorem Dflt.space_node (hd : Dflt c) {x : Nat} (hx : x ≤ 160) (h8 : 8 ∣ x) :
    Space c (c.lebSize - align x c.minIoSize) ∧ Space c (align x c.minIoSize - x) := by
  have hle := hd.align_le hx
  have hge : x ≤ align x c.minIoSize := le_align (Nat.lt_of_lt_of_le (by decide) hd.minIo)
  have hio : c.minIoSize ∣ align x c.minIoSize := Lib.dvd_align
  have h8io : 8 ∣ align x c.minIoSize := Nat.dvd_trans hd.eight hio
  have h8leb := hd.eight_leb
  constructor
  · constructor <;> omega
  · constructor <;> omega

theorem Dflt.space_empty (hd : Dflt c) : Space c c.lebSize ∧ Space c 0 := by
  have h8leb := hd.eight_leb
  constructor
  · constructor <;> omega
  · constructor <;> omega

/-- The pnodes of an empty file system. -/
theorem Dflt.pnodeOf (hd : Dflt c) {k : Nat} (hk : k < c.geom.pnodeCnt) :
    PnodeOf c (dfltPnode c k) := by
  have hidx := hd.space_node (by decide : align (Index.idxNodeSz 1) 8 ≤ 160) (by decide)
  have hino := hd.space_node (by decide : ubifsInoNodeSz ≤ 160) (by decide)
  have hempty := hd.space_empty
  have hnum : k < divRoundUp c.maxLebCnt ubifsLptFanout := by
    have hmain := hd.checked.mainLebs
    have hmax := hd.checked.maxLebCnt
    refine Nat.lt_of_lt_of_le hk ?_
    show (c.mainLebs + 3) / 4 ≤ (c.maxLebCnt + 3) / 4
    omega
  unfold dfltPnode
  split
  · rename_i h0
    subst h0
    constructor
    · exact hnum
    · rfl
    · unfold firstPnode dfltLprops
      simp only [List.mem_cons, List.not_mem_nil, or_false, forall_eq_or_imp, forall_eq]
      exact ⟨hidx.1, hino.1, hempty.1, hempty.1⟩
    · unfold firstPnode dfltLprops
      simp only [List.mem_cons, List.not_mem_nil, or_false, forall_eq_or_imp, forall_eq]
      exact ⟨hidx.2, hino.2, hempty.2, hempty.2⟩
  · constructor
    · exact hnum
    · exact List.length_replicate
    · intro lp hlp
      rw [List.eq_of_mem_replicate hlp]
      exact hempty.1
    · intro lp hlp
      rw [List.eq_of_mem_replicate hlp]
      exact hempty.2

end Dflt

/-! ## One node after another -/

/-- Node `k` of the stream, with its fields. -/
def placedAt (c : Info) (k : Nat) (fs : Fields) : Placed where
  lnum := (nodeSpot c k).1
  offs := (nodeSpot c k).2
  fields := fs

/-- The nodes are at their spots. -/
def OnSpot (c : Info) (nodes : List Placed) : Prop :=
  ∀ k n, nodes[k]? = some n → n = placedAt c k n.fields ∧ nodeSz n.fields = streamSz c k

/-- The writer has packed these nodes. -/
structure Reached (c : Info) (crc16 : Crc) (s : Writer) (nodes : List Placed) : Prop where
  good : Good c crc16 s
  packed : s.nodes = nodes
  onSpot : OnSpot c nodes
  fill : (s.lnum, s.len) = nodeFill c nodes.length

section Steps

variable {c : Info} {env : Env} {crc16 : Crc} {s s' s₁ : Writer} {nodes : List Placed} {fs : Fields}

/-- The place of the next node is found. -/
structure Ready (c : Info) (crc16 : Crc) (s : Writer) (nodes : List Placed) : Prop where
  good : Good c crc16 s
  packed : s.nodes = nodes
  onSpot : OnSpot c nodes
  spot : (s.lnum, s.len) = nodeSpot c nodes.length

/-- After making room the next node can be packed. -/
theorem Reached.room (h : Reached c crc16 s nodes) (hd : Dflt c) {sz : Nat}
    (hsz : streamSz c nodes.length = sz) (hroom : makeRoom c env sz s = .ok s') :
    Ready c crc16 s' nodes := by
  obtain ⟨hgood, hnodes, hplace, -, -⟩ :=
    makeRoom_good h.good (Nat.lt_of_lt_of_le (by decide) hd.minIo) hroom
  refine ⟨hgood, hnodes.trans h.packed, h.onSpot, ?_⟩
  rw [hplace, h.fill, ← hsz]
  rfl

/-- It fits. -/
theorem Ready.room (h : Ready c crc16 s nodes) (hd : Dflt c)
    (hsz : nodeSz fs = streamSz c nodes.length) : s.len + nodeSz fs ≤ c.lebSize := by
  have hinside := hd.spot_inside nodes.length
  rw [← h.spot, ← hsz] at hinside
  exact hinside

/-- It is packed. -/
theorem Ready.pack (h : Ready c crc16 s nodes) (hd : Dflt c) (hfs : ∀ f ∈ fs, f.Fits)
    (hsz : nodeSz fs = streamSz c nodes.length) :
    Reached c crc16 (s.pack crc16 fs) (nodes ++ [placedAt c nodes.length fs]) := by
  obtain ⟨hlnum, hlen⟩ := Prod.mk.inj h.spot
  have hplaced : (⟨s.lnum, s.len, fs⟩ : Placed) = placedAt c nodes.length fs := by
    unfold placedAt
    rw [hlnum, hlen]
    rfl
  refine ⟨pack_good h.good hfs (h.room hd hsz), ?_, ?_, ?_⟩
  · show s.nodes ++ [⟨s.lnum, s.len, fs⟩] = _
    rw [h.packed, hplaced]
  · intro k n hk
    by_cases hlt : k < nodes.length
    · rw [List.getElem?_append_left hlt] at hk
      exact h.onSpot k n hk
    · rw [List.getElem?_append_right (Nat.le_of_not_lt hlt), List.getElem?_singleton] at hk
      split at hk
      · rename_i hzero
        have hkeq : k = nodes.length := by omega
        obtain rfl := Option.some.inj hk
        rw [hkeq]
        exact ⟨rfl, hsz⟩
      · cases hk
  · rw [List.length_append, List.length_singleton]
    show (s.lnum, s.len + nodeSz fs) = _
    rw [nodeFill, fill_succ, hsz, hlnum, hlen]
    rfl

end Steps

/-! ## The leaves, one after another -/

section Leaves

variable {c : Info} {env : Env} {crc16 : Crc} {s s' : Writer}

/-- The first `n` pnodes, in the order in which they are written. -/
def leafNodes (c : Info) (n : Nat) : List Placed :=
  (List.range n).map fun k => placedAt c k (pnodeFields c (dfltPnode c k))

@[simp] theorem length_leafNodes (c : Info) (n : Nat) : (leafNodes c n).length = n := by
  simp [leafNodes]

theorem leafNodes_succ (c : Info) (n : Nat) : leafNodes c (n + 1) =
    leafNodes c n ++ [placedAt c n (pnodeFields c (dfltPnode c n))] := by
  simp [leafNodes, List.range_succ]

/-- One pnode. -/
theorem addPnode_reached (hd : Dflt c) {k : Nat} (hk : k < c.geom.pnodeCnt)
    (h : Ready c crc16 s (leafNodes c k)) :
    Reached c crc16 (addPnode c crc16 (dfltPnode c k) s) (leafNodes c (k + 1)) := by
  have hof := hd.pnodeOf hk
  have hsz := nodeSz_pnode hof
  have hstream : streamSz c k = c.geom.pnodeSz := if_pos hk
  have hpacked := h.pack hd (fits_pnode hd.checked hof) (by rw [hsz, length_leafNodes, hstream])
  rw [length_leafNodes, ← leafNodes_succ] at hpacked
  have heq : addPnode c crc16 (dfltPnode c k) s = s.pack crc16 (pnodeFields c (dfltPnode c k)) := by
    unfold addPnode Writer.pack ubifsPackPnode
    rw [hsz]
  rw [heq]
  exact hpacked

/-- All pnodes. -/
theorem addPnodes_reached (hd : Dflt c) (n : Nat) {k : Nat} (hk : 0 < k)
    (hn : k + n = c.geom.pnodeCnt) (h : Reached c crc16 s (leafNodes c k))
    (hok : addPnodes c env crc16 n (emptyPnode c k) s = .ok s') :
    Reached c crc16 s' (leafNodes c c.geom.pnodeCnt) := by
  induction n generalizing k s with
  | zero =>
    obtain rfl := Except.ok.inj hok
    rwa [← hn]
  | succ n ih =>
    simp only [addPnodes, bind, Except.bind] at hok
    split at hok
    · cases hok
    · rename_i s₁ hroom
      have hlt : k < c.geom.pnodeCnt := by omega
      have hready := h.room hd (by rw [length_leafNodes]; exact if_pos hlt) hroom
      have hadd := addPnode_reached hd hlt hready
      rw [dfltPnode, if_neg (Nat.pos_iff_ne_zero.mp hk)] at hadd
      exact ih (Nat.succ_pos k) (by omega) hadd hok

end Leaves

end Ubifs.Lpt
