/-
  What a volume operation leaves behind that fails before it has unmapped a LEB.

  `ubi_change_vtbl_record` puts the record into the table in memory first and does not take it out if
  it then fails; a volume that grows has given up its old mapping by then, and the new one is freed.
  So nothing changes exactly if the operation fails before it gets there, or would have written the
  record that there is.
-/
import FlashStack.Ubi.VolumeOps

namespace Ubi.Vmt

variable {c : UbiInfo} {s s' s'' : Dev}

/-! ## Erase workers -/

/-- PEBs that the reserve takes are no longer available, and those that go bad were in the reserve. -/
theorem topUp_sums (p : Pebs) (need : Int) :
    (p.topUp need).availPebs + (p.topUp need).bebRsvdPebs = p.availPebs + p.bebRsvdPebs ∧
      (p.topUp need).rsvdPebs - (p.topUp need).bebRsvdPebs = p.rsvdPebs - p.bebRsvdPebs ∧
      (p.topUp need).badPebCount = p.badPebCount := by
  unfold Pebs.topUp
  split
  · refine ⟨?_, ?_, rfl⟩
    · show p.availPebs - _ + (p.bebRsvdPebs + _) = _
      omega
    · show p.rsvdPebs + _ - (p.bebRsvdPebs + _) = _
      omega
  · exact ⟨rfl, rfl, rfl⟩

theorem eraseStep_sums (p : Pebs) (e : EraseStep) :
    (p.eraseStep e).availPebs + (p.eraseStep e).bebRsvdPebs + (p.eraseStep e).badPebCount =
        p.availPebs + p.bebRsvdPebs + p.badPebCount ∧
      (p.eraseStep e).rsvdPebs - (p.eraseStep e).bebRsvdPebs - (p.eraseStep e).badPebCount =
        p.rsvdPebs - p.bebRsvdPebs - p.badPebCount := by
  cases e with
  | reserve =>
    obtain ⟨havail, hrsvd, hbad⟩ := topUp_sums p (p.bebRsvdLevel - p.bebRsvdPebs + 1)
    unfold Pebs.eraseStep
    dsimp only
    split
    · exact ⟨by omega, by omega⟩
    · exact ⟨by dsimp only; omega, by dsimp only; omega⟩
  | markBad =>
    unfold Pebs.eraseStep
    dsimp only
    split
    · exact ⟨rfl, rfl⟩
    · refine ⟨?_, ?_⟩
      · show p.availPebs + (p.bebRsvdPebs - 1) + (p.badPebCount + 1) = _
        omega
      · show p.rsvdPebs - (p.bebRsvdPebs - 1) - (p.badPebCount + 1) = _
        omega

theorem eraseSteps_sums (es : List EraseStep) (p : Pebs) :
    (es.foldl Pebs.eraseStep p).availPebs + (es.foldl Pebs.eraseStep p).bebRsvdPebs +
          (es.foldl Pebs.eraseStep p).badPebCount =
        p.availPebs + p.bebRsvdPebs + p.badPebCount ∧
      (es.foldl Pebs.eraseStep p).rsvdPebs - (es.foldl Pebs.eraseStep p).bebRsvdPebs -
          (es.foldl Pebs.eraseStep p).badPebCount =
        p.rsvdPebs - p.bebRsvdPebs - p.badPebCount := by
  induction es generalizing p with
  | nil => exact ⟨rfl, rfl⟩
  | cons e es ih =>
    obtain ⟨havail, hrsvd⟩ := eraseStep_sums p e
    obtain ⟨havail', hrsvd'⟩ := ih (p.eraseStep e)
    exact ⟨havail'.trans havail, hrsvd'.trans hrsvd⟩

/-- What does not depend on the volume table but for the copies of it; erase workers may have run. -/
structure Kept (s s' : Dev) : Prop where
  vtbl : s'.vtbl = s.vtbl
  volumes : s'.volumes = s.volumes
  heap : s'.heap = s.heap
  workers : ∃ es : List EraseStep, s'.toPebs = es.foldl Pebs.eraseStep s.toPebs

/-- Nothing has changed. -/
theorem Kept.refl : Kept s s := ⟨rfl, rfl, rfl, [], rfl⟩

/-- Steps in a row. -/
theorem Kept.trans (h : Kept s s') (h' : Kept s' s'') : Kept s s'' := by
  obtain ⟨es, hes⟩ := h.workers
  obtain ⟨es', hes'⟩ := h'.workers
  refine ⟨h'.vtbl.trans h.vtbl, h'.volumes.trans h.volumes, h'.heap.trans h.heap, es ++ es', ?_⟩
  rw [hes', hes, List.foldl_append]

/-- Workers only move PEBs between these three counts. -/
theorem Kept.avail (h : Kept s s') : s'.availPebs + s'.bebRsvdPebs + s'.badPebCount =
    s.availPebs + s.bebRsvdPebs + s.badPebCount := by
  obtain ⟨es, hes⟩ := h.workers
  rw [hes]
  exact (eraseSteps_sums es s.toPebs).1

/-- And the reserved ones follow them. -/
theorem Kept.rsvd (h : Kept s s') : s'.rsvdPebs - s'.bebRsvdPebs - s'.badPebCount =
    s.rsvdPebs - s.bebRsvdPebs - s.badPebCount := by
  obtain ⟨es, hes⟩ := h.workers
  rw [hes]
  exact (eraseSteps_sums es s.toPebs).2

/-- Erase workers keep the volumes and the table. -/
theorem kept_eraseSteps (es : List EraseStep) : Kept s (s.eraseSteps es) :=
  ⟨rfl, rfl, rfl, es, rfl⟩

/-! ## The volume table -/

/-- So does writing a copy of the table, whether it succeeds or not. -/
theorem writeCopy_kept (env : CopyEnv) (i : Nat) : Kept s (writeCopy env i s).2 := by
  have hlayout : ∀ {l : Nat → Option (Nat → VtblRecord)} {ro : Bool},
      Kept s { s with layout := l, roMode := ro } := ⟨rfl, rfl, rfl, [], rfl⟩
  unfold writeCopy
  split
  · exact hlayout
  · split
    · exact hlayout.trans (kept_eraseSteps env.workers)
    · exact hlayout.trans (kept_eraseSteps env.workers)

/-- And all copies. -/
theorem writeCopies_kept (env : Nat → CopyEnv) (n i : Nat) : Kept s (writeCopies env n i s).2 := by
  induction n generalizing i s with
  | zero => exact .refl
  | succ n ih =>
    have hcopy := writeCopy_kept (s := s) (env i) i
    rw [writeCopies]
    split
    · exact hcopy
    · exact hcopy.trans (ih (i + 1))

/-- The record is in the table in memory, whatever `ubi_change_vtbl_record` returns. -/
theorem ubiChangeVtblRecord_kept (env : Nat → CopyEnv) (idx : Nat) (f : Option VtblFields) :
    Kept { s with vtbl := Function.update s.vtbl idx (f.elim emptyVtblRecord c.record) }
      (ubiChangeVtblRecord c env s idx f).2 :=
  writeCopies_kept env _ _

/-- A record that is written is a change, unless it was there. -/
theorem update_vtbl_iff {idx : Nat} {r : VtblRecord} :
    Function.update s.vtbl idx r = s.vtbl ↔ s.vtbl idx = r := by
  constructor
  · intro h
    have := congrFun h idx
    rw [Function.update_self] at this
    exact this.symm
  · rintro rfl
    exact Function.update_eq_self idx s.vtbl

/-! ## Unmapping -/

/-- Unmapping that fails before it removes the LEB changes nothing. -/
theorem ubiEbaUnmapLeb_dev {env : UnmapEnv} {ebaTbl lnum : Nat}
    (h : (ubiEbaUnmapLeb env s ebaTbl lnum).unmapped = false) :
    (ubiEbaUnmapLeb env s ebaTbl lnum).dev = s := by
  unfold ubiEbaUnmapLeb at h ⊢
  split
  · rfl
  · rename_i hro
    rw [if_neg hro] at h
    split
    · rfl
    · rename_i hlock
      rw [if_neg hlock] at h
      dsimp only at h ⊢
      split
      · rfl
      · rename_i hneg
        rw [if_neg hneg] at h
        cases h

/-- Nothing happens as long as no LEB is unmapped. -/
theorem unmapLebs_dev {env : Nat → UnmapEnv} {ebaTbl : Nat} {lnums : List Nat}
    (h : (unmapLebs env ebaTbl lnums s).unmapped = false) :
    (unmapLebs env ebaTbl lnums s).dev = s := by
  induction lnums generalizing s with
  | nil => rfl
  | cons lnum lnums ih =>
    rw [unmapLebs] at h ⊢
    dsimp only at h ⊢
    split
    · rename_i herr
      rw [if_pos herr] at h
      exact ubiEbaUnmapLeb_dev h
    · rename_i herr
      rw [if_neg herr] at h
      obtain ⟨hfirst, hrest⟩ := Bool.or_eq_false_iff.mp h
      exact (ih hrest).trans (ubiEbaUnmapLeb_dev hfirst)

/-! ## Undoing -/

theorem Unchanged.refl : Unchanged s s := ⟨rfl, rfl, fun _ _ _ => rfl, rfl, rfl⟩

/-- What was allocated is given back. -/
theorem kfree_kmalloc {a : Nat} {m : List Int} (h : s.heap a = none) : (s.kmalloc a m).kfree a = s := by
  simp only [Dev.kmalloc, Dev.kfree, Function.update_idem]
  rw [← h, Function.update_eq_self]

/-- PEBs that are reserved are given back. -/
theorem unchanged_reserved (pebs : Int) (es : List EraseStep) :
    Unchanged s (((s.reserve pebs).eraseSteps es).reserve (-pebs)) := by
  have hkept := kept_eraseSteps (s := s.reserve pebs) es
  have havail := hkept.avail
  have hrsvd := hkept.rsvd
  refine ⟨rfl, rfl, fun _ _ _ => rfl, ?_, ?_⟩
  · simp only [Dev.reserve, Pebs.reserve] at havail ⊢
    omega
  · simp only [Dev.reserve, Pebs.reserve] at hrsvd ⊢
    omega

/-! ## Creating -/

/-- A creation that fails after PEBs were reserved. -/
theorem createReserved_iff {env : CreateEnv} {req : MkvolReq} {volId : Nat}
    (hfresh : ∀ a, env.allocEba = some a → s.heap a = none)
    (herr : (createReserved c env (s.reserve (req.pebs c)) req volId).1 ≠ 0) :
    Unchanged s (createReserved c env (s.reserve (req.pebs c)) req volId).2 ↔
      ¬ (env.flush = 0 ∧ env.allocEba.isSome ∧ env.cdevAdd = 0 ∧ env.deviceRegister = 0 ∧
        env.volumeSysfsInit = 0 ∧ s.vtbl volId ≠ c.record (newRecord c req)) := by
  have hundone := unchanged_reserved (s := s) (req.pebs c) env.flushWorkers
  unfold createReserved at herr ⊢
  dsimp only at herr ⊢
  by_cases hflush : env.flush = 0
  swap
  · rw [if_pos hflush]
    exact iff_of_true hundone fun h => hflush h.1
  rw [if_neg (not_not.mpr hflush)] at herr ⊢
  cases halloc : env.allocEba with
  | none => exact iff_of_true hundone fun h => by simp at h
  | some a =>
    rw [halloc] at herr
    have hheap : ((s.reserve (req.pebs c)).eraseSteps env.flushWorkers).heap a = none :=
      hfresh a halloc
    dsimp only at herr ⊢
    -- What was allocated is freed on every way out.
    rw [kfree_kmalloc hheap]
    by_cases hcdev : env.cdevAdd = 0
    swap
    · rw [if_pos hcdev]
      exact iff_of_true hundone fun h => hcdev h.2.2.1
    by_cases hreg : env.deviceRegister = 0
    swap
    · rw [if_neg (not_not.mpr hcdev), if_pos hreg]
      exact iff_of_true hundone fun h => hreg h.2.2.2.1
    by_cases hsysfs : env.volumeSysfsInit = 0
    swap
    · rw [if_neg (not_not.mpr hcdev), if_neg (not_not.mpr hreg), if_pos hsysfs]
      exact iff_of_true hundone fun h => hsysfs h.2.2.2.2.1
    rw [if_neg (not_not.mpr hcdev), if_neg (not_not.mpr hreg), if_neg (not_not.mpr hsysfs)]
      at herr ⊢
    have hflushed := kept_eraseSteps (s := s.reserve (req.pebs c)) env.flushWorkers
    have hkept := ubiChangeVtblRecord_kept (c := c) (s := ((s.reserve (req.pebs c)).eraseSteps
      env.flushWorkers).kmalloc a (List.replicate (req.pebs c).toNat ubiLebUnmapped)) env.copy volId
      (some (newRecord c req))
    generalize ubiChangeVtblRecord c env.copy _ volId _ = r at *
    by_cases hr : r.1 = 0
    · rw [if_neg (not_not.mpr hr)] at herr
      exact absurd rfl herr
    rw [if_pos hr]
    -- The table was not written, but the record is new in memory.
    have hvtbl : ((r.2.kfree a).reserve (-req.pebs c)).vtbl =
        Function.update s.vtbl volId (c.record (newRecord c req)) := hkept.vtbl
    constructor
    · -- a record that was there before gives itself away
      intro h hall
      refine hall.2.2.2.2.2 (update_vtbl_iff.mp ?_)
      rw [← hvtbl, h.vtbl]
    · -- where it is the old one, all else is as before: the counts and the heap, too
      intro hnot
      have hsame : s.vtbl volId = c.record (newRecord c req) := by
        by_contra hne
        exact hnot ⟨hflush, rfl, hcdev, hreg, hsysfs, hne⟩
      have hheap' : (r.2.kfree a).heap = s.heap := by
        show Function.update r.2.heap a none = s.heap
        rw [hkept.heap]
        exact congrArg Dev.heap (kfree_kmalloc hheap)
      have havail := hkept.avail.trans hflushed.avail
      have hrsvd := hkept.rsvd.trans hflushed.rsvd
      refine ⟨hvtbl.trans (update_vtbl_iff.mpr hsame), hkept.volumes, fun _ _ _ => ?_, ?_, ?_⟩
      · exact congrFun hheap' _
      · simp only [Dev.kfree, Dev.reserve, Pebs.reserve] at havail ⊢
        omega
      · simp only [Dev.kfree, Dev.reserve, Pebs.reserve] at hrsvd ⊢
        omega

/-- A creation that fails. -/
theorem ubiCreateVolume_iff {env : CreateEnv} {req : MkvolReq}
    (hok : (VolCall.create env req).Ok s) (herr : (ubiCreateVolume c env s req).1 ≠ 0) :
    Unchanged s (ubiCreateVolume c env s req).2 ↔ ¬ (VolCall.create env req).Changes c s := by
  unfold VolCall.Changes
  unfold ubiCreateVolume at herr ⊢
  by_cases hro : s.roMode = true
  · rw [if_pos hro]
    exact iff_of_true .refl fun h => by simp [hro] at h
  rw [if_neg hro] at herr ⊢
  by_cases halloc : env.allocVol = true
  swap
  · rw [if_pos (by simpa using halloc)]
    exact iff_of_true .refl fun h => halloc h.2.1
  rw [if_neg (by simpa using halloc)] at herr ⊢
  cases hvacant : vacant c s req with
  | none =>
    refine iff_of_true .refl ?_
    rintro ⟨-, -, _, heq, -⟩
    rw [hvacant] at heq
    cases heq
  | some volId =>
    rw [hvacant] at herr
    dsimp only at herr ⊢
    by_cases hthere : (s.volumes volId).isSome = true
    · rw [if_pos hthere]
      refine iff_of_true .refl ?_
      rintro ⟨-, -, _, heq, hfree, -⟩
      rw [hvacant] at heq
      cases heq
      simp [hfree] at hthere
    rw [if_neg hthere] at herr ⊢
    by_cases hname : nameTaken c s req = true
    · rw [if_pos hname]
      refine iff_of_true .refl ?_
      rintro ⟨-, -, _, heq, -, hnot, -⟩
      rw [hnot] at hname
      cases hname
    rw [if_neg hname] at herr ⊢
    -- Up to here nothing was reserved.
    by_cases hpebs : req.pebs c > s.availPebs
    · rw [if_pos hpebs]
      refine iff_of_true .refl ?_
      rintro ⟨-, -, _, heq, -, -, hle, -⟩
      omega
    rw [if_neg hpebs] at herr ⊢
    rw [createReserved_iff hok herr, not_iff_not]
    constructor
    · intro hrest
      exact ⟨Bool.eq_false_iff.mpr hro, halloc, volId, hvacant,
        Option.not_isSome_iff_eq_none.mp hthere, Bool.eq_false_iff.mpr hname, not_lt.mp hpebs, hrest⟩
    · rintro ⟨-, -, _, heq, -, -, -, hrest⟩
      rw [hvacant] at heq
      cases heq
      exact hrest

/-! ## Removing -/

/-- The volume is put back into the table. -/
theorem setVolume_restore {volId : Nat} {vol : VolObj} {v : Option VolObj}
    (h : s.volumes volId = some vol) :
    Function.update (Function.update s.volumes volId v) volId (some vol) = s.volumes := by
  rw [Function.update_idem, ← h, Function.update_eq_self]

/-- A removal that fails. -/
theorem ubiRemoveVolume_iff {env : RemoveEnv} {volId : Nat} {vol : VolObj} {noVtbl : Bool}
    (hok : (VolCall.remove env volId vol noVtbl).Ok s)
    (herr : (ubiRemoveVolume c env s volId vol noVtbl).err ≠ 0)
    (hnone : (ubiRemoveVolume c env s volId vol noVtbl).unmapped = false) :
    Unchanged s (ubiRemoveVolume c env s volId vol noVtbl).dev ↔
      ¬ (VolCall.remove env volId vol noVtbl).Changes c s := by
  have hvol : s.volumes volId = some vol := hok
  unfold VolCall.Changes
  unfold ubiRemoveVolume at herr hnone ⊢
  by_cases hro : s.roMode = true
  · rw [if_pos hro]
    exact iff_of_true .refl fun h => by simp [hro] at h
  rw [if_neg hro] at herr hnone ⊢
  by_cases hbusy : vol.refCount > 1
  · rw [if_pos hbusy]
    exact iff_of_true .refl fun h => by omega
  rw [if_neg hbusy] at herr hnone ⊢
  dsimp only at herr hnone ⊢
  -- wherever it fails, it is with the table of this point
  have hback : ∀ t : Dev, (noVtbl = true ∧ Kept (s.setVolume volId none) t ∨
      noVtbl = false ∧ Kept { s.setVolume volId none with
        vtbl := Function.update s.vtbl volId emptyVtblRecord } t) →
      (Unchanged s (t.setVolume volId (some vol)) ↔ ¬ (s.roMode = false ∧ vol.refCount ≤ 1 ∧
        noVtbl = false ∧ s.vtbl volId ≠ emptyVtblRecord)) := by
    have hsame : ∀ {t u : Dev}, Kept u t → u.volumes = Function.update s.volumes volId none →
        u.heap = s.heap → u.toPebs = s.toPebs → u.vtbl = s.vtbl →
        Unchanged s (t.setVolume volId (some vol)) := by
      intro t u hk hvolumes hheap hpebs hvtbl
      refine ⟨hk.vtbl.trans hvtbl, ?_, fun _ _ _ => congrFun (hk.heap.trans hheap) _, ?_, ?_⟩
      · show Function.update t.volumes volId (some vol) = s.volumes
        rw [hk.volumes, hvolumes, setVolume_restore hvol]
      · rw [← hpebs]
        exact hk.avail
      · rw [← hpebs]
        exact hk.rsvd
    rintro t (⟨hno, hk⟩ | ⟨hno, hk⟩)
    · exact iff_of_true (hsame hk rfl rfl rfl rfl) fun h => by simp [hno] at h
    · constructor
      · intro h hall
        exact hall.2.2.2 (update_vtbl_iff.mp (hk.vtbl.symm.trans h.vtbl))
      · intro hnot
        have hempty : s.vtbl volId = emptyVtblRecord := by
          by_contra hne
          exact hnot ⟨Bool.eq_false_iff.mpr hro, not_lt.mp hbusy, hno, hne⟩
        exact hsame hk rfl rfl rfl (update_vtbl_iff.mpr hempty)
  have htable : noVtbl = true ∧ Kept (s.setVolume volId none) (if (!noVtbl) = true then
        ubiChangeVtblRecord c env.copy (s.setVolume volId none) volId none
        else (0, s.setVolume volId none)).2 ∨
      noVtbl = false ∧ Kept { s.setVolume volId none with
        vtbl := Function.update s.vtbl volId emptyVtblRecord } (if (!noVtbl) = true then
        ubiChangeVtblRecord c env.copy (s.setVolume volId none) volId none
        else (0, s.setVolume volId none)).2 := by
    cases noVtbl with
    | true => exact Or.inl ⟨rfl, .refl⟩
    | false =>
      exact Or.inr ⟨rfl, ubiChangeVtblRecord_kept (s := s.setVolume volId none) env.copy volId none⟩
  generalize (if (!noVtbl) = true then
    ubiChangeVtblRecord c env.copy (s.setVolume volId none) volId none
    else (0, s.setVolume volId none)) = r at *
  by_cases hr : r.1 = 0
  swap
  · rw [if_pos hr]
    exact hback r.2 htable
  rw [if_neg (not_not.mpr hr)] at herr hnone ⊢
  split at herr
  · rename_i hu
    rw [if_pos hu] at hnone ⊢
    have hdev := unmapLebs_dev (show (unmapLebs env.unmap vol.ebaTbl _ r.2).unmapped = false from hnone)
    show Unchanged s ((unmapLebs env.unmap vol.ebaTbl _ r.2).dev.setVolume volId (some vol)) ↔ _
    rw [hdev]
    exact hback r.2 htable
  · rename_i hu
    exact absurd (not_not.mp hu) herr

/-! ## Re-sizing -/

/-- A volume that grows has no mapping left. -/
theorem resizeTable_grow {env : ResizeEnv} {volId a : Nat} {vol : VolObj} {reservedPebs : Int}
    {m : List Int} (hvol : s.volumes volId = some vol) (hm : s.heap vol.ebaTbl = some m)
    (hgrow : vol.reservedPebs < reservedPebs)
    (herr : (resizeTable c env (growMapping (s.kmalloc a (List.replicate reservedPebs.toNat
      ubiLebUnmapped)) volId vol a reservedPebs) volId vol a reservedPebs).err ≠ 0) :
    ¬ Unchanged s (resizeTable c env (growMapping (s.kmalloc a (List.replicate reservedPebs.toNat
      ubiLebUnmapped)) volId vol a reservedPebs) volId vol a reservedPebs).dev := by
  intro h
  have htbl := h.ebaTbl volId vol hvol
  rw [hm] at htbl
  unfold resizeTable at herr htbl
  dsimp only at herr htbl
  have hkept := ubiChangeVtblRecord_kept (c := c) (s := growMapping (s.kmalloc a
    (List.replicate reservedPebs.toNat ubiLebUnmapped)) volId vol a reservedPebs) env.copy volId
    (some (resizedRecord (growMapping (s.kmalloc a (List.replicate reservedPebs.toNat
      ubiLebUnmapped)) volId vol a reservedPebs) volId reservedPebs))
  generalize ubiChangeVtblRecord c env.copy _ volId _ = r at *
  by_cases hr : r.1 = 0
  · rw [if_neg (not_not.mpr hr), if_neg (by omega)] at herr
    exact herr rfl
  rw [if_pos hr, if_pos (by omega)] at htbl
  have hfreed : r.2.heap vol.ebaTbl = none := by
    rw [hkept.heap]
    exact Function.update_self _ _ _
  have hnone : ((r.2.reserve (-(reservedPebs - vol.reservedPebs))).kfree a).heap vol.ebaTbl =
      none := by
    show Function.update r.2.heap a none vol.ebaTbl = none
    rw [Function.update_apply]
    split
    · rfl
    · exact hfreed
  have htbl' := htbl.symm.trans hnone
  cases htbl'

/-- One that shrinks still has it, and the record is the only difference. -/
theorem resizeTable_shrink {env : ResizeEnv} {volId a : Nat} {vol : VolObj} {reservedPebs : Int}
    {m : List Int} (hfresh : s.heap a = none) (hshrink : reservedPebs < vol.reservedPebs)
    (herr : (resizeTable c env (s.kmalloc a m) volId vol a reservedPebs).err ≠ 0)
    (hnone : (resizeTable c env (s.kmalloc a m) volId vol a reservedPebs).unmapped = false) :
    Unchanged s (resizeTable c env (s.kmalloc a m) volId vol a reservedPebs).dev ↔
      s.vtbl volId = c.record (resizedRecord s volId reservedPebs) := by
  unfold resizeTable at herr hnone ⊢
  dsimp only at herr hnone ⊢
  have hkept := ubiChangeVtblRecord_kept (c := c) (s := s.kmalloc a m) env.copy volId
    (some (resizedRecord (s.kmalloc a m) volId reservedPebs))
  -- After the table was changed only the record can differ.
  have hback : ∀ t : Dev, Kept { s.kmalloc a m with
      vtbl := Function.update s.vtbl volId (c.record (resizedRecord s volId reservedPebs)) } t →
      (Unchanged s (t.kfree a) ↔ s.vtbl volId = c.record (resizedRecord s volId reservedPebs)) := by
    intro t hk
    constructor
    · intro h
      exact update_vtbl_iff.mp (hk.vtbl.symm.trans h.vtbl)
    · intro hsame
      refine ⟨hk.vtbl.trans (update_vtbl_iff.mpr hsame), hk.volumes, fun _ _ _ => ?_, hk.avail,
        hk.rsvd⟩
      have hheap : (t.kfree a).heap = ((s.kmalloc a m).kfree a).heap := by
        show Function.update t.heap a none = _
        rw [hk.heap]
        rfl
      rw [hheap, kfree_kmalloc hfresh]
  generalize ubiChangeVtblRecord c env.copy _ volId _ = r at *
  by_cases hr : r.1 = 0
  -- the table was not written
  swap
  · rw [if_pos hr, if_neg (by omega)]
    exact hback r.2 hkept
  rw [if_neg (not_not.mpr hr), if_pos (by omega)] at herr hnone ⊢
  split at herr
  · -- it was, and an LEB could not be unmapped
    rename_i hu
    rw [if_pos hu] at hnone ⊢
    have hdev := unmapLebs_dev (show (unmapLebs env.unmap vol.ebaTbl _ r.2).unmapped = false
      from hnone)
    show Unchanged s ((unmapLebs env.unmap vol.ebaTbl _ r.2).dev.kfree a) ↔ _
    rw [hdev]
    exact hback r.2 hkept
  · rename_i hu
    exact absurd (not_not.mp hu) herr

/-- A resize that fails. -/
theorem ubiResizeVolume_iff {env : ResizeEnv} {volId : Nat} {vol : VolObj} {reservedPebs : Int}
    (hok : (VolCall.resize env volId vol reservedPebs).Ok s)
    (herr : (ubiResizeVolume c env s volId vol reservedPebs).err ≠ 0)
    (hnone : (ubiResizeVolume c env s volId vol reservedPebs).unmapped = false) :
    Unchanged s (ubiResizeVolume c env s volId vol reservedPebs).dev ↔
      ¬ (VolCall.resize env volId vol reservedPebs).Changes c s := by
  obtain ⟨hvol, ⟨m, hm⟩, hfresh⟩ := hok
  unfold VolCall.Changes
  unfold ubiResizeVolume at herr hnone ⊢
  by_cases hro : s.roMode = true
  · rw [if_pos hro]
    exact iff_of_true .refl fun h => by simp [hro] at h
  rw [if_neg hro] at herr hnone ⊢
  by_cases hsmall : vol.volType = .static ∧ reservedPebs < vol.usedEbs
  · rw [if_pos hsmall]
    exact iff_of_true .refl fun h => h.2.1 hsmall
  rw [if_neg hsmall] at herr hnone ⊢
  by_cases hsize : reservedPebs = vol.reservedPebs
  · rw [if_pos hsize]
    exact iff_of_true .refl fun h => h.2.2.1 hsize
  rw [if_neg hsize] at herr hnone ⊢
  cases halloc : env.alloc with
  | none =>
    refine iff_of_true .refl ?_
    rintro ⟨-, -, -, hsome, -⟩
    rw [halloc] at hsome
    cases hsome
  | some a =>
    rw [halloc] at herr hnone
    have ha := hfresh a halloc
    dsimp only at herr hnone ⊢
    rw [kfree_kmalloc ha] at herr hnone ⊢
    by_cases hbusy : vol.refCount > 1
    · rw [if_pos hbusy]
      exact iff_of_true .refl fun h => by omega
    rw [if_neg hbusy] at herr hnone ⊢
    have havail : (s.kmalloc a (List.replicate reservedPebs.toNat ubiLebUnmapped)).availPebs =
        s.availPebs := rfl
    rw [havail] at herr hnone ⊢
    by_cases hfull : reservedPebs - vol.reservedPebs > 0 ∧
        reservedPebs - vol.reservedPebs > s.availPebs
    · rw [if_pos hfull]
      refine iff_of_true .refl fun h => ?_
      have := h.2.2.2.2.2.1 (by omega)
      omega
    rw [if_neg hfull] at herr hnone ⊢
    -- A volume that grows has a new table in memory, which it keeps; one that shrinks does not.
    by_cases hgrow : reservedPebs - vol.reservedPebs > 0
    · rw [if_pos hgrow] at herr hnone ⊢
      refine iff_of_false (resizeTable_grow hvol hm (by omega) herr) (not_not.mpr ?_)
      exact ⟨Bool.eq_false_iff.mpr hro, hsmall, hsize, by rw [halloc]; rfl, not_lt.mp hbusy, fun _ => by omega,
        Or.inl (by omega)⟩
    · rw [if_neg hgrow] at herr hnone ⊢
      rw [resizeTable_shrink ha (by omega) herr hnone]
      constructor
      · intro hsame h
        rcases h.2.2.2.2.2.2 with hlt | hne
        · omega
        · exact hne hsame
      · intro hnot
        by_contra hne
        exact hnot ⟨Bool.eq_false_iff.mpr hro, hsmall, hsize, by rw [halloc]; rfl, not_lt.mp hbusy,
          fun hlt => by omega, Or.inr hne⟩

/-! ## All three -/

/-- A volume operation that fails before it has unmapped a LEB changes nothing exactly if it would not
have got as far as changing a record of the volume table or the mapping of a volume that grows. -/
theorem failed_op_unchanged_iff (c : UbiInfo) (s : Dev) (call : VolCall) (hok : call.Ok s)
    (herr : (call.run c s).err ≠ 0) (hnone : (call.run c s).unmapped = false) :
    Unchanged s (call.run c s).dev ↔ ¬ call.Changes c s := by
  cases call with
  | create env req => exact ubiCreateVolume_iff hok herr
  | remove env volId vol noVtbl => exact ubiRemoveVolume_iff hok herr hnone
  | resize env volId vol reservedPebs => exact ubiResizeVolume_iff hok herr hnone

/-! ### No memory for a lock -/

/-- A volume of four LEBs with its LEB table at an address. -/
def fourLebs (name : List UInt8) (ebaTbl : Nat) : VolObj := ⟨⟨4, .dynamic, 4, name⟩, 1, ebaTbl⟩

/-- The record of a volume of four LEBs. -/
def fourRecord : VtblRecord := plainUbiInfo.record ⟨4, 1, 0, 1, 0, 1, [65], 0⟩

/-- Two volumes, and ten PEBs to spare. -/
def twoVolumes : Dev where
  roMode := false
  vtbl _ := fourRecord
  volumes i := if i = 0 then some (fourLebs [65] 100) else if i = 1 then some (fourLebs [66] 200)
    else none
  heap a := if a = 100 ∨ a = 200 then some [5, 6, 7, 8] else none
  toPebs := ⟨1, 24, 0, 0, 10, 14, 2, 2, 24, 0⟩
  volCount := 2
  layout _ := some fun _ => fourRecord

/-- A copy of the table is written. -/
def copied : CopyEnv := ⟨0, 0, [], none, false⟩

/-- There is no memory for the lock of the first copy, which stays as it is. -/
def noLock : Nat → CopyEnv := fun _ => ⟨-enomem, 0, [], some fun _ => fourRecord, false⟩

/-- The first volume shall grow to six LEBs. -/
def growFirst : VolCall := .resize ⟨some 300, noLock, fun _ => ⟨0, 0⟩⟩ 0 (fourLebs [65] 100) 6

/-- The second one shall shrink to three. -/
def shrinkSecond : VolCall :=
  .resize ⟨some 400, fun _ => copied, fun _ => ⟨0, 0⟩⟩ 1 (fourLebs [66] 200) 3

/-- The example is a call that a user can make. -/
theorem growFirst_ok : growFirst.Ok twoVolumes := by
  refine ⟨rfl, ⟨_, rfl⟩, fun a ha => ?_⟩
  cases ha
  rfl

/-- The volume has lost its LEB table, and its new size is written when another volume is re-sized. -/
theorem failed_grow_written :
    growFirst.Ok twoVolumes ∧ (growFirst.run plainUbiInfo twoVolumes).err = -enomem ∧
      (growFirst.run plainUbiInfo twoVolumes).unmapped = false ∧
      ¬ Unchanged twoVolumes (growFirst.run plainUbiInfo twoVolumes).dev ∧
      ((growFirst.run plainUbiInfo twoVolumes).dev.volumes 0).map
        (fun vol => (growFirst.run plainUbiInfo twoVolumes).dev.heap vol.ebaTbl) = some none ∧
      (shrinkSecond.run plainUbiInfo (growFirst.run plainUbiInfo twoVolumes).dev).err = 0 ∧
      ((shrinkSecond.run plainUbiInfo (growFirst.run plainUbiInfo twoVolumes).dev).dev.layout 0).map
        (fun vtbl => (vtbl 0).reservedPebs) = some 6 := by
  refine ⟨growFirst_ok, by decide +kernel, by decide +kernel, fun h => ?_, by decide +kernel,
    by decide +kernel, by decide +kernel⟩
  have hsize := congrArg VtblRecord.toVtblFields (congrFun h.vtbl 0)
  have hsize := congrArg VtblFields.reservedPebs hsize
  exact absurd hsize (by decide +kernel)

/-- Said with the general theorem. -/
theorem failed_op_unchanged_grow :
    Unchanged twoVolumes (growFirst.run plainUbiInfo twoVolumes).dev ↔
      ¬ growFirst.Changes plainUbiInfo twoVolumes :=
  failed_op_unchanged_iff plainUbiInfo twoVolumes growFirst growFirst_ok (by decide +kernel)
    (by decide +kernel)

end Ubi.Vmt
