/-
  A default LEB properties tree is readable.

  The caller chooses the areas, and `calc_dflt_lpt_geom` how many LEBs of them are for the tree.  The
  size of a LEB has to be a multiple of the I/O unit: what is free is saved in units of eight bytes, and
  is compared with the I/O unit when it is read.

  `dflt_lpt_readable` puts the parts together: the geometry is found (`DfltLptTree`), all nodes are
  in place (`DfltLptPlaces`), and a walk from the root reads and accepts each of them
  (`DfltLptWalk`).
-/
import FlashStack.Ubifs.DfltLptWalk

open Lib

namespace Ubifs.Lpt

open Lp Lib.NextFit

/-! ## The geometry -/

/-- What `init_constants_early` and `create_default_filesystem` make sure of. -/
structure Fresh (c : Info) (mainLebs lptFirst : Nat) : Prop where
  lebSize : ubifsMinLebSz ≤ c.lebSize
  int : c.lebSize < 2 ^ 31
  minIo : 8 ≤ c.minIoSize
  power : c.minIoSize.isPowerOfTwo
  lebCnt : ubifsMinLebCnt ≤ c.lebCnt
  whole : c.maxLebCnt = c.lebCnt
  maxInt : c.maxLebCnt < 2 ^ 31
  lsaveCnt : c.lsaveCnt = defaultLsaveCnt
  first : 0 < lptFirst
  area : lptFirst + mainLebs ≤ c.lebCnt

section Geometry

variable {c c' : Info} {mainLebs lptFirst : Nat}

theorem Fresh.eight (h : Fresh c mainLebs lptFirst) : 8 ∣ c.minIoSize := by
  obtain ⟨k, hk⟩ := h.power
  have h8 : 2 ^ 3 ≤ 2 ^ k := hk ▸ h.minIo
  rw [hk]
  exact Nat.pow_dvd_pow 2 ((Nat.pow_le_pow_iff_right (by decide)).mp h8)

/-- The geometry that is found is one of a default tree. -/
theorem Fresh.dflt (h : Fresh c mainLebs lptFirst) (hio : c.minIoSize ∣ c.lebSize)
    (hgeom : calcDfltLptGeom c mainLebs = .ok c') :
    Dflt { c' with lptFirst := lptFirst } ∧ c'.mainLebs < c'.lebCnt := by
  unfold calcDfltLptGeom at hgeom
  split at hgeom
  · cases hgeom
  · rename_i hmore
    have hleb := h.lebSize
    have harea := h.area
    have hfirst := h.first
    unfold ubifsMinLebSz at hleb
    unfold ubifsMinLptLebs at hmore hgeom
    obtain ⟨big, hloop⟩ : ∃ big, lptLebsLoop mainLebs 64
        { c with lptLebs := 2, mainLebs := mainLebs - 2, bigLpt := big } = .ok c' := by
      simp only at hgeom
      split at hgeom
      · exact ⟨true, hgeom⟩
      · exact ⟨false, hgeom⟩
    obtain ⟨mainLebs', lptLebs', rfl, hlebs, hsum, hmain, henough, hltab⟩ :=
      lptLebsLoop_spec hloop (Nat.le_refl _) (by simp only; omega) (by simp only; omega)
        (by simp only; omega)
    refine ⟨⟨⟨h.lebSize, h.int, h.lebCnt, h.whole.ge, h.maxInt, ?_, h.first, hlebs, ?_⟩, h.whole,
      hmain, h.minIo, h.eight, hio, henough, hltab, h.lsaveCnt⟩, ?_⟩
    · simp only
      omega
    · simp only
      omega
    · simp only
      omega

/-- Whatever is created was written with a default geometry. -/
theorem Fresh.written (h : Fresh c mainLebs lptFirst) (hio : c.minIoSize ∣ c.lebSize) {env : Env}
    {crc16 : Crc} {flash : Nat → Memory} {buf : Memory} {r : DfltLpt}
    (hok : ubifsCreateDfltLpt c env crc16 mainLebs lptFirst flash buf = .ok r) :
    Dflt r.info ∧ r.info.mainLebs < r.info.lebCnt ∧ Written r.info crc16 r := by
  simp only [ubifsCreateDfltLpt, bind, Except.bind] at hok
  split at hok
  · cases hok
  · rename_i c' hgeom
    obtain ⟨hd, hmain⟩ := h.dflt hio hgeom
    split at hok
    · have hw := writeDfltLpt_written hd hok
      rw [hw.info]
      exact ⟨hd, hmain, hw⟩
    · cases hok

end Geometry

/-! ## The LEBs of the leaves -/

/-- The LEBs that the leaves are about; those behind the end of the volume have no number. -/
def visited (leaves : List Pnode) : List Lprops :=
  (leaves.flatMap (·.lprops)).filter (·.lnum ≠ 0)

section Visited

variable {c : Info} {g : Consts}

/-- LEBs of a pnode are numbered, up to the end of the main area. -/
theorem setLnums_lnums {lps : List Lprops} (hnone : ∀ lp ∈ lps, lp.lnum = 0) {lnum : Nat}
    (hpos : 0 < lnum) : ((setLnums c lnum lps).filter (·.lnum ≠ 0)).map (·.lnum) =
      List.range' lnum (min lps.length (c.lebCnt - lnum)) := by
  induction lps generalizing lnum with
  | nil => simp [setLnums]
  | cons lp lps ih =>
    have hrest := ih (fun x hx => hnone x (List.mem_cons_of_mem lp hx)) (Nat.succ_pos lnum)
    unfold setLnums
    split
    · rename_i hend
      have hall : (lp :: lps).filter (·.lnum ≠ 0) = [] := by
        rw [List.filter_eq_nil_iff]
        intro x hx
        simpa using hnone x hx
      rw [hall, Nat.sub_eq_zero_of_le hend, Nat.min_zero]
      rfl
    · rename_i hmore
      have hsome : lnum ≠ 0 := Nat.pos_iff_ne_zero.mp hpos
      have hcnt : min (lp :: lps).length (c.lebCnt - lnum) =
          min lps.length (c.lebCnt - (lnum + 1)) + 1 := by
        rw [List.length_cons]
        omega
      rw [List.filter_cons_of_pos (by simpa using hsome), List.map_cons, hrest, hcnt,
        List.range'_succ]

/-- The numbering changes nothing else. -/
theorem mem_setLnums {lps : List Lprops} {lnum : Nat} {lp : Lprops} (h : lp ∈ setLnums c lnum lps) :
    ∃ i old, lps[i]? = some old ∧ lp.free = old.free ∧ lp.dirty = old.dirty ∧
      (lp.lnum = lnum + i ∨ lp.lnum = old.lnum) := by
  induction lps generalizing lnum with
  | nil => cases h
  | cons x lps ih =>
    unfold setLnums at h
    split at h
    · obtain ⟨i, hi⟩ := List.getElem?_of_mem h
      exact ⟨i, lp, hi, rfl, rfl, .inr rfl⟩
    · rcases List.mem_cons.mp h with rfl | h
      · exact ⟨0, x, rfl, rfl, rfl, .inl rfl⟩
      · obtain ⟨i, old, hi, hfree, hdirty, hlnum⟩ := ih h
        refine ⟨i + 1, old, hi, hfree, hdirty, hlnum.imp_left fun h => ?_⟩
        omega

theorem leafOf_lprops (k : Nat) : (leafOf c g k).lprops = setLnums c (4 * k + c.mainFirst)
    (List.zipWith (restored g) (List.replicate ubifsLptFanout zeroLprops)
      (dfltPnode c k).lprops) := by
  have hshift : k <<< ubifsLptFanoutShift = 4 * k := by
    rw [Nat.shiftLeft_eq, Nat.mul_comm]
    rfl
  rw [leafOf, setPnodeLnum, hshift]

theorem length_restored (k : Nat) : (List.zipWith (restored g)
    (List.replicate ubifsLptFanout zeroLprops) (dfltPnode c k).lprops).length = ubifsLptFanout := by
  have hfour : (dfltPnode c k).lprops.length = ubifsLptFanout := by
    unfold dfltPnode
    split
    · rfl
    · exact List.length_replicate
  rw [List.length_zipWith, List.length_replicate, hfour, Nat.min_self]

theorem restored_lnum {lps : List Lprops} {lp : Lprops}
    (h : lp ∈ List.zipWith (restored g) (List.replicate ubifsLptFanout zeroLprops) lps) :
    lp.lnum = 0 := by
  obtain ⟨i, hi, rfl⟩ := List.getElem_of_mem h
  rw [List.getElem_zipWith, List.getElem_replicate]
  rfl

/-- All LEBs of the main area are visited, in order. -/
theorem visited_lnums (hmain : 0 < c.mainFirst) (n : Nat) :
    (visited ((List.range n).map (leafOf c g))).map (·.lnum) =
      List.range' c.mainFirst (min (4 * n) (c.lebCnt - c.mainFirst)) := by
  induction n with
  | zero => simp [visited]
  | succ n ih =>
    have hleaf := @setLnums_lnums c _ (fun lp => @restored_lnum g ((dfltPnode c n).lprops) _)
      (4 * n + c.mainFirst) (by omega)
    rw [length_restored, ← leafOf_lprops] at hleaf
    have hstep : visited ((List.range (n + 1)).map (leafOf c g)) =
        visited ((List.range n).map (leafOf c g)) ++
          (leafOf c g n).lprops.filter (·.lnum ≠ 0) := by
      unfold visited
      rw [List.range_succ, List.map_append, List.flatMap_append, List.filter_append]
      simp
    rw [hstep, List.map_append, ih, hleaf]
    by_cases hroom : 4 * n ≤ c.lebCnt - c.mainFirst
    · have hnext : 4 * n + min ubifsLptFanout (c.lebCnt - (4 * n + c.mainFirst)) =
          min (4 * (n + 1)) (c.lebCnt - c.mainFirst) := by
        unfold ubifsLptFanout
        omega
      rw [Nat.min_eq_left hroom, Nat.add_comm _ c.mainFirst, List.range'_append_1,
        Nat.add_comm c.mainFirst, hnext]
    · -- the whole leaf is behind the end
      have hnone : c.lebCnt - (4 * n + c.mainFirst) = 0 := by omega
      rw [hnone, Nat.min_zero, List.range'_zero, List.append_nil, Nat.min_eq_right (by omega),
        Nat.min_eq_right (by omega)]

/-- All LEBs are empty but the first two. -/
theorem dfltPnode_empty {k i : Nat} {lp : Lprops} (h : (dfltPnode c k).lprops[i]? = some lp)
    (hki : 2 ≤ 4 * k + i) : lp.free = c.lebSize ∧ lp.dirty = 0 := by
  unfold dfltPnode at h
  split at h
  · rename_i h0
    subst h0
    match i, h with
    | 2, h => exact Option.some.inj h ▸ ⟨rfl, rfl⟩
    | 3, h => exact Option.some.inj h ▸ ⟨rfl, rfl⟩
  · rw [List.eq_of_mem_replicate (List.mem_of_getElem? h)]
    exact ⟨rfl, rfl⟩

theorem visited_empty (hmain : 0 < c.mainFirst) {n : Nat} {lp : Lprops}
    (h : lp ∈ visited ((List.range n).map (leafOf c g))) (hlnum : c.mainFirst + 2 ≤ lp.lnum) :
    lp.free = c.lebSize ∧ lp.dirty = 0 := by
  obtain ⟨hmem, -⟩ := List.mem_filter.mp h
  obtain ⟨pnode, hpnode, hlp⟩ := List.mem_flatMap.mp hmem
  obtain ⟨k, -, rfl⟩ := List.mem_map.mp hpnode
  rw [leafOf_lprops] at hlp
  obtain ⟨i, old, hold, hfree, hdirty, hat⟩ := mem_setLnums hlp
  have hzero := restored_lnum (List.mem_of_getElem? hold)
  have hki : 2 ≤ 4 * k + i := by omega
  obtain ⟨_, lp', -, hlp', rfl⟩ := List.getElem?_zipWith_eq_some.mp hold
  obtain ⟨hfree', hdirty'⟩ := dfltPnode_empty hlp' hki
  exact ⟨hfree.trans hfree', hdirty.trans hdirty'⟩

end Visited

/-! ## The tree is readable -/

section Readable

variable (g : Consts) (crc16 : Crc) (junk : Junk) (nodBuf : Memory)

/-- The way down the first branches, as many inner nodes as the level says. -/
def leftmost (c : Info) (flash : Nat → Memory) : Nat → CachedNnode → Except Errno Nbranch
  | 0, _ => .error .einval
  | 1, nnode => .ok (branchTo ⟨0, 0⟩ (some nnode) 0)
  | level + 2, nnode => do
    let child ← ubifsReadNnode c crc16 junk flash nodBuf ⟨0, 0⟩ (some nnode) 0
    leftmost c flash (level + 1) child

/-- What a mount relies on. -/
structure Readable (r : DfltLpt) : Prop where
  leaves : ∃ leaves,
    walk r.info g crc16 junk r.flash nodBuf ⟨r.lptLnum, r.lptOffs⟩ = .ok leaves ∧
    (visited leaves).map (·.lnum) = List.range' r.info.mainFirst r.info.mainLebs ∧
    ∀ lp ∈ visited leaves, r.info.mainFirst + 2 ≤ lp.lnum → lp.free = r.info.lebSize ∧ lp.dirty = 0
  height : ∃ root,
    ubifsReadNnode r.info crc16 junk r.flash nodBuf ⟨r.lptLnum, r.lptOffs⟩ none 0 = .ok root ∧
    leftmost crc16 junk nodBuf r.info r.flash r.info.geom.lptHght root = .ok ⟨r.info.lptFirst, 0⟩
  onFlash : ∀ n ∈ r.nodes, NodeAt crc16 (r.flash n.lnum) n.offs n.fields
  inside : ∀ n ∈ r.nodes, r.info.lptFirst ≤ n.lnum ∧ n.lnum ≤ r.info.lptLast ∧
    n.offs + nodeSz n.fields ≤ r.info.lebSize
  apart : r.nodes.Pairwise fun n n' => n.lnum = n'.lnum → n.offs + nodeSz n.fields ≤ n'.offs
  ltab : ∃ ltab, unpackLtab r.info crc16 junk
      (ubiRead r.flash nodBuf r.ltabLnum r.ltabOffs r.info.geom.ltabSz) 0 = .ok ltab ∧
    ltab.length = r.info.lptLebs ∧
    ∀ i lp, ltab[i]? = some lp →
      lp.free + lp.dirty + used r.nodes (r.info.lptFirst + i) = r.info.lebSize ∧
      lp.free + align (used r.nodes (r.info.lptFirst + i)) r.info.minIoSize = r.info.lebSize

variable {g crc16 junk nodBuf}

theorem leftmost_dflt {c : Info} {flash : Nat → Memory} (hd : Dflt c) (hs : Stored c crc16 flash)
    {l : Nat} (hl : l < c.geom.lptHght) :
    leftmost crc16 junk nodBuf c flash (l + 1) ⟨dfltNnode c l 0, l + 1⟩ =
      .ok ⟨c.lptFirst, 0⟩ := by
  induction l with
  | zero =>
    have hspot : nodeSpot c 0 = (c.lptFirst, 0) := by
      have hroom : (0 : Nat) + streamSz c 0 ≤ c.lebSize := by
        rw [Nat.zero_add]
        exact hd.streamSz_le 0
      exact if_pos hroom
    have hpos := hd.rowCnt_pos 0
    rw [leftmost, branchTo_child (by decide), Nat.mul_zero, Nat.add_zero, childBranch, if_pos hpos,
      rowOff, Nat.add_zero, hspot]
  | succ l ih =>
    have hrow : c.geom.lptHght - 1 - l = c.geom.lptHght - 1 - (l + 1) + 1 := by omega
    have hnum := @calcNnodeNumFromParent_eq c ⟨dfltNnode c (l + 1) 0, l + 2⟩
      (c.geom.lptHght - 1 - (l + 1)) 0 0 rfl (by simp only; omega) (by decide)
    rw [← hrow] at hnum
    have hread := @ubifsReadNnode_dflt _ _ junk _ nodBuf hd hs _ _ _ _ _ (Nat.lt_of_succ_lt hl)
      (branchTo_child (by decide)) rfl hnum
    simp only [leftmost, bind, Except.bind, hread]
    exact ih (Nat.lt_of_succ_lt hl)

theorem OnSpot.apart {c : Info} {nodes : List Placed} (h : OnSpot c nodes) :
    nodes.Pairwise fun n n' => n.lnum = n'.lnum → n.offs + nodeSz n.fields ≤ n'.offs := by
  rw [List.pairwise_iff_getElem]
  intro j k hj hk hjk hsame
  obtain ⟨hat, hsz⟩ := h j _ (List.getElem?_eq_getElem hj)
  obtain ⟨hat', -⟩ := h k _ (List.getElem?_eq_getElem hk)
  have hlnum : nodes[j].lnum = (nodeSpot c j).1 := congrArg Placed.lnum hat
  have hoffs : nodes[j].offs = (nodeSpot c j).2 := congrArg Placed.offs hat
  have hlnum' : nodes[k].lnum = (nodeSpot c k).1 := congrArg Placed.lnum hat'
  have hoffs' : nodes[k].offs = (nodeSpot c k).2 := congrArg Placed.offs hat'
  have hbefore := @spot_before c.lebSize (streamSz c) c.lptFirst _ _ hjk
  unfold nodeSpot at hlnum hoffs hlnum' hoffs'
  omega

theorem Written.inside {c : Info} {r : DfltLpt} (hd : Dflt c) (hw : Written c crc16 r) {n : Placed}
    (hn : n ∈ r.nodes) :
    c.lptFirst ≤ n.lnum ∧ n.lnum ≤ c.lptLast ∧ n.offs + nodeSz n.fields ≤ c.lebSize := by
  obtain ⟨k, hk, rfl⟩ := List.getElem_of_mem hn
  obtain ⟨hat, hsz⟩ := hw.onSpot k _ (List.getElem?_eq_getElem hk)
  have hlnum : r.nodes[k].lnum = (nodeSpot c k).1 := congrArg Placed.lnum hat
  have hoffs : r.nodes[k].offs = (nodeSpot c k).2 := congrArg Placed.offs hat
  have harea := hd.spot_area (hw.count ▸ hk)
  have hinside := hd.spot_inside k
  rw [hlnum, hoffs, hsz]
  exact ⟨harea.1, harea.2, hinside⟩

theorem Written.ltab_read {c : Info} {r : DfltLpt} (hd : Dflt c) (hw : Written c crc16 r) :
    unpackLtab c crc16 junk (ubiRead r.flash nodBuf r.ltabLnum r.ltabOffs c.geom.ltabSz) 0 =
      .ok (finalLtab c r.nodes) := by
  have hof := finalLtab_of hd hw.fits
  have hat := hw.onFlash _ hw.ltab
  have hread := unpackLtab_nodeAt junk hd.checked hof
    (@NodeAt.read _ _ nodBuf _ _ _ _ hat (nodeSz_ltab hof.length))
  rw [hread]
  congr 1
  rw [finalLtab, List.map_map]
  rfl

theorem Written.readable {r : DfltLpt} (hd : Dflt r.info) (hw : Written r.info crc16 r)
    (hmain : r.info.mainLebs < r.info.lebCnt) : Readable g crc16 junk nodBuf r := by
  have hs : Stored r.info crc16 r.flash := by
    intro n hn
    obtain ⟨tables, htree⟩ := hw.tree
    exact hw.onFlash n (htree ▸ List.mem_append_left tables hn)
  have hfirst : 0 < r.info.mainFirst := Nat.sub_pos_of_lt hmain
  refine ⟨?_, ?_, hw.onFlash, fun n hn => hw.inside hd hn, hw.onSpot.apart, ?_⟩
  · refine ⟨_, walk_dflt hd hs hw.root, ?_, fun lp hlp => visited_empty hfirst hlp⟩
    have hall : min (4 * 4 ^ r.info.geom.lptHght) (r.info.lebCnt - r.info.mainFirst) =
        r.info.mainLebs := by
      have henough := (rowCnt_le (c := r.info) r.info.geom.lptHght 1).mp hd.rowCnt_hght.le
      have hcnt : r.info.geom.pnodeCnt = (r.info.mainLebs + 3) / 4 := rfl
      unfold Info.mainFirst
      omega
    rw [visited_lnums hfirst, hall]
  · have hhght := (lptHght_spec r.info).2.1
    obtain ⟨l, hl⟩ := Nat.exists_eq_succ_of_ne_zero (Nat.pos_iff_ne_zero.mp hhght)
    have hleft := @leftmost_dflt _ junk nodBuf _ _ hd hs l (by omega)
    refine ⟨_, readRoot_dflt hd hs hw.root hl, ?_⟩
    rw [hl]
    exact hleft
  · refine ⟨_, hw.ltab_read hd, ?_, ?_⟩
    · rw [finalLtab, List.length_map, List.length_range]
    · intro i lp hlp
      have hi : i < r.info.lptLebs := by
        have hlt := (List.getElem?_eq_some_iff.mp hlp).1
        rwa [finalLtab, List.length_map, List.length_range] at hlt
      have hentry : lebEntry r.info (used r.nodes (r.info.lptFirst + i)) = lp := by
        rw [finalLtab, List.getElem?_map, List.getElem?_range hi] at hlp
        exact Option.some.inj hlp
      have hfits := hw.fits (r.info.lptFirst + i)
      have halign := hd.align_used hfits
      rw [← hentry]
      refine ⟨hd.lebEntry_sum hfits, ?_⟩
      unfold lebEntry
      simp only
      omega

end Readable

/-- A default tree can be read if the size of a LEB is a multiple of the I/O unit. -/
theorem dflt_lpt_readable {c : Info} {env : Env} {crc16 : Crc} {mainLebs lptFirst : Nat}
    {flash : Nat → Memory} {buf : Memory} {r : DfltLpt} (h : Fresh c mainLebs lptFirst)
    (hio : c.minIoSize ∣ c.lebSize)
    (hok : ubifsCreateDfltLpt c env crc16 mainLebs lptFirst flash buf = .ok r) (g : Consts)
    (junk : Junk) (nodBuf : Memory) : Readable g crc16 junk nodBuf r := by
  obtain ⟨hd, hmain, hw⟩ := h.written hio hok
  exact hw.readable hd hmain

/-- A small volume, before its areas are known. -/
def freshInfo (lebSize : Nat) : Info where
  lebSize := lebSize
  minIoSize := 8
  lebCnt := 20
  maxLebCnt := 20
  mainLebs := 0
  lptFirst := 0
  lptLebs := 0
  lsaveCnt := defaultLsaveCnt
  bigLpt := false

theorem freshInfo_fresh {lebSize : Nat} (h : ubifsMinLebSz ≤ lebSize) (hint : lebSize < 2 ^ 31) :
    Fresh (freshInfo lebSize) 14 5 :=
  ⟨h, hint, Nat.le_refl 8, ⟨3, rfl⟩, by show 17 ≤ 20; decide, rfl, by show 20 < 2 ^ 31; decide, rfl,
    by decide, by show 5 + 14 ≤ 20; decide⟩

/-- Memory is there and no write fails. -/
def noFaults : Env where
  alloc := true
  faults := fun _ => none

/-- A tree is made for a volume with LEBs of 64 KiB, and can be read. -/
theorem dflt_lpt_readable_small : ∃ r,
    ubifsCreateDfltLpt (freshInfo 65536) noFaults plainCrc16 14 5 (fun _ _ => 255) (fun _ => 0) =
      .ok r ∧ Readable smallConsts plainCrc16 (fun _ => 0) (fun _ => 0) r := by
  have hcreated : (ubifsCreateDfltLpt (freshInfo 65536) noFaults plainCrc16 14 5 (fun _ _ => 255)
      (fun _ => 0)).isOk := by decide +kernel
  cases hok : ubifsCreateDfltLpt (freshInfo 65536) noFaults plainCrc16 14 5 (fun _ _ => 255)
      (fun _ => 0) with
  | error err =>
    rw [hok] at hcreated
    exact absurd hcreated Bool.false_ne_true
  | ok r =>
    exact ⟨r, rfl, dflt_lpt_readable (freshInfo_fresh (by decide) (by decide)) (by decide) hok
      smallConsts (fun _ => 0) (fun _ => 0)⟩

/-! ## An odd size -/

section Odd

variable {c : Info} {g : Consts} {crc16 : Crc} {junk : Junk} {flash : Nat → Memory} {nodBuf : Memory}

/-- Leaves that are read have passed the check. -/
def Units (leaves : List Pnode) : Prop := ∀ leaf ∈ leaves, ∀ lp ∈ leaf.lprops, lp.free % 8 = 0

theorem validatePnode_units {pnode : Pnode} {parent : CachedNnode} {iip : Nat}
    (h : validatePnode c pnode parent iip = .ok ()) : ∀ lp ∈ pnode.lprops, lp.free % 8 = 0 := by
  unfold validatePnode at h
  split at h
  · cases h
  · split at h
    · rename_i hall
      intro lp hlp
      exact (of_decide_eq_true (List.all_eq_true.mp hall lp hlp)).2.2.2.1
    · cases h

theorem readPnode_units {parent : CachedNnode} {iip : Nat} {pnode : Pnode}
    (h : readPnode c g crc16 junk flash nodBuf parent iip = .ok pnode) :
    ∀ lp ∈ pnode.lprops, lp.free % 8 = 0 := by
  have hchecked : ∀ raw raw' : Pnode, validatePnode c raw parent iip = .ok () →
      raw'.lprops = raw.lprops → setPnodeLnum c raw' = pnode →
      ∀ lp ∈ pnode.lprops, lp.free % 8 = 0 := by
    intro raw raw' hvalid hsame hpnode lp hlp
    rw [← hpnode] at hlp
    obtain ⟨i, old, hold, hfree, -⟩ := mem_setLnums hlp
    rw [hfree]
    exact validatePnode_units hvalid old (hsame ▸ List.mem_of_getElem? hold)
  simp only [readPnode, bind, Except.bind] at h
  split at h
  · -- made up
    simp only [pure, Except.pure] at h
    split at h
    · cases h
    · rename_i hvalid
      exact hchecked _ _ hvalid (by split <;> rfl) (Except.ok.inj h)
  · split at h
    · cases h
    · split at h
      · cases h
      · rename_i hvalid
        exact hchecked _ _ hvalid (by split <;> rfl) (Except.ok.inj h)

theorem mapM_mem {ε α β : Type*} {f : α → Except ε β} {xs : List α} {ys : List β}
    (h : xs.mapM f = .ok ys) {y : β} (hy : y ∈ ys) : ∃ x ∈ xs, f x = .ok y := by
  induction xs generalizing ys with
  | nil =>
    obtain rfl := Except.ok.inj h
    cases hy
  | cons x xs ih =>
    rw [List.mapM_cons] at h
    simp only [bind, Except.bind] at h
    split at h
    · cases h
    · rename_i hx
      split at h
      · cases h
      · rename_i hxs
        obtain rfl := Except.ok.inj h
        rcases List.mem_cons.mp hy with rfl | hy
        · exact ⟨x, List.mem_cons_self, hx⟩
        · obtain ⟨x', hx', hf⟩ := ih hxs hy
          exact ⟨x', List.mem_cons_of_mem x hx', hf⟩

theorem walkBelow_units {lvl : Nat} {nnode : CachedNnode} {leaves : List Pnode}
    (h : walkBelow c g crc16 junk flash nodBuf lvl nnode = .ok leaves) : Units leaves := by
  induction lvl generalizing nnode leaves with
  | zero =>
    obtain rfl := Except.ok.inj h
    exact fun leaf hleaf => absurd hleaf List.not_mem_nil
  | succ lvl ih =>
    cases lvl with
    | zero =>
      intro leaf hleaf
      obtain ⟨iip, -, hread⟩ := mapM_mem h hleaf
      exact readPnode_units hread
    | succ lvl =>
      simp only [walkBelow, bind, Except.bind] at h
      split at h
      · cases h
      · rename_i parts hparts
        obtain rfl := Except.ok.inj h
        intro leaf hleaf
        obtain ⟨part, hpart, hleaf⟩ := List.mem_flatten.mp hleaf
        obtain ⟨iip, -, hchild⟩ := mapM_mem hparts hpart
        split at hchild
        · cases hchild
        · exact ih hchild leaf hleaf

theorem walk_units {root : Nbranch} {leaves : List Pnode}
    (h : walk c g crc16 junk flash nodBuf root = .ok leaves) : Units leaves := by
  simp only [walk, bind, Except.bind] at h
  split at h
  · cases h
  · exact walkBelow_units h

end Odd

/-- LEBs of 65406 bytes, which is what a volume with the alignment three has on a NOR flash. -/
theorem odd_lpt_unreadable : ¬∀ (c : Info) (env : Env) (crc16 : Crc) (mainLebs lptFirst : Nat)
    (flash : Nat → Memory) (buf : Memory) (r : DfltLpt) (g : Consts) (junk : Junk) (nodBuf : Memory),
    Fresh c mainLebs lptFirst →
    ubifsCreateDfltLpt c env crc16 mainLebs lptFirst flash buf = .ok r →
    Readable g crc16 junk nodBuf r := by
  intro hall
  have hcreated : (ubifsCreateDfltLpt (freshInfo 65406) noFaults plainCrc16 14 5 (fun _ _ => 255)
      (fun _ => 0)).toOption.any
        fun r => decide (r.info.lebSize = 65406 ∧ 3 ≤ r.info.mainLebs) := by decide +kernel
  cases hok : ubifsCreateDfltLpt (freshInfo 65406) noFaults plainCrc16 14 5 (fun _ _ => 255)
      (fun _ => 0) with
  | error err =>
    rw [hok] at hcreated
    exact absurd hcreated Bool.false_ne_true
  | ok r =>
    rw [hok] at hcreated
    obtain ⟨hleb, hmain⟩ := of_decide_eq_true hcreated
    have hread := hall _ _ _ _ _ _ _ r smallConsts (fun _ => 0) (fun _ => 0)
      (freshInfo_fresh (by decide) (by decide)) hok
    obtain ⟨leaves, hwalk, hlnums, hempty⟩ := hread.leaves
    have hmem : r.info.mainFirst + 2 ∈ (visited leaves).map (·.lnum) := by
      rw [hlnums, List.mem_range'_1]
      omega
    obtain ⟨lp, hlp, hlnum⟩ := List.mem_map.mp hmem
    obtain ⟨hfree, -⟩ := hempty lp hlp hlnum.ge
    obtain ⟨leaf, hleaf, hin⟩ := List.mem_flatMap.mp (List.mem_filter.mp hlp).1
    have hunits := walk_units hwalk leaf hleaf lp hin
    rw [hfree, hleb] at hunits
    exact absurd hunits (by decide)

end Ubifs.Lpt
