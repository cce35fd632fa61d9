/-
  The volume operations move PEBs in one way, whichever model is asked.

  `Reserve` has what an operation does between two free locks in one call that may fail, and follows
  the counters; `VolumeOps` goes through the calls one by one.  The counters are the same (`Pebs`), and
  so are the volumes but for their LEB tables (`Agrees`).  For each call of `VolumeOps` there are an
  outcome of the calls of `Reserve` and steps of its erase workers with which the operation there ends
  in a device that still agrees.  So what is proved about the counters in the one model holds of the
  other.
-/
import FlashStack.Ubi.Commitment
import FlashStack.Ubi.VolumeFailure

open Lib Lib.Prog

namespace Ubi.Vmt

variable {c : UbiInfo} {s s' : Dev} {t : UbiDev}

/-- The same counters and the same volumes. -/
structure Agrees (c : UbiInfo) (s : Dev) (t : UbiDev) : Prop where
  pebs : t.toPebs = s.toPebs
  slots : c.vtblSlots ≤ t.volumes.length
  volumes : ∀ i < c.vtblSlots, t.volume i = (s.volumes i).map VolObj.toVolume

/-- The device of `Reserve` as it will be: `f n` is the outcome of the call after the next `n`, and
    `es` is what the erase workers do when the lock is free next. -/
def arrange (t : UbiDev) (f : Nat → Option Errno) (es : List EraseStep) : UbiDev :=
  { t with
    faults := fun n => f (n - t.calls)
    background := fun n => if n = t.unlocks then es else [] }

/-- The operation returns if `err` is no error and stops otherwise, in a device that agrees. -/
def Ends (c : UbiInfo) (err : Int) (s' : Dev) (x : U Unit) (t : UbiDev) : Prop :=
  wp (fun _ => True) (fun _ => True) x (fun _ t' => err = 0 ∧ Agrees c s' t')
    (fun _ t' => err ≠ 0 ∧ Agrees c s' t') t

/-! ## The steps of `Reserve` -/

section Steps

variable {α : Type} {Q : Unit → UbiDev → Prop} {E : Errno → UbiDev → Prop}

/-- A call that does not fail. -/
theorem wp_mayFail_none (hf : t.faults t.calls = none)
    (hQ : Q () { t with calls := t.calls + 1 }) :
    wp (fun _ => True) (fun _ => True) mayFail Q E t := by
  unfold mayFail
  simp only [wp_bind, wp_getState, wp_modifyState, hf]
  exact hQ

/-- A call that fails. -/
theorem wp_mayFail_some {e : Errno} (hf : t.faults t.calls = some e)
    (hE : E e { t with calls := t.calls + 1 }) :
    wp (fun _ => True) (fun _ => True) mayFail Q E t := by
  unfold mayFail
  simp only [wp_bind, wp_getState, wp_modifyState, hf]
  exact hE

/-- Erase workers only change the counts. -/
theorem wp_eraseSteps (es : List EraseStep) :
    ∀ t : UbiDev, Q () { t with toPebs := es.foldl Pebs.eraseStep t.toPebs } →
      wp (fun _ => True) (fun _ => True) (eraseSteps es) Q E t := by
  induction es with
  | nil => exact fun t hQ => hQ
  | cons e es ih =>
    intro t hQ
    unfold eraseSteps
    simp only [wp_bind, wp_getState, wp_modifyState, wp_emit]
    exact fun _ => ⟨trivial, ih _ hQ⟩

/-- Some of them run while the lock is free. -/
theorem wp_unlocked {es : List EraseStep} (hb : t.background t.unlocks = es)
    (hQ : Q () { t with
      toPebs := es.foldl Pebs.eraseStep t.toPebs
      unlocks := t.unlocks + 1 }) :
    wp (fun _ => True) (fun _ => True) unlocked Q E t := by
  unfold unlocked
  simp only [wp_bind, wp_getState, wp_modifyState, wp_emit]
  refine fun _ => ⟨trivial, ?_⟩
  rw [hb]
  exact wp_eraseSteps es _ hQ

end Steps

/-! ## Agreeing -/

/-- Agreement is about the counts and what the volumes have reserved. -/
theorem Agrees.congr {t' : UbiDev} (h : Agrees c s t) (hpebs : t'.toPebs = s'.toPebs)
    (hs : ∀ i, (s'.volumes i).map VolObj.toVolume = (s.volumes i).map VolObj.toVolume)
    (ht : t'.volumes = t.volumes) : Agrees c s' t' := by
  refine ⟨hpebs, ht ▸ h.slots, fun i hi => ?_⟩
  rw [UbiDev.volume_congr ht, hs]
  exact h.volumes i hi

theorem Agrees.called {t' : UbiDev} (h : Agrees c s t) (hpebs : t'.toPebs = t.toPebs)
    (ht : t'.volumes = t.volumes) : Agrees c s t' :=
  h.congr (hpebs.trans h.pebs) (fun _ => rfl) ht

/-- An operation that fails in its first call. -/
theorem Ends.first {err : Int} (h : Agrees c s t) (herr : err ≠ 0) (x : Unit → U Unit) :
    ∃ f es, Ends c err s (mayFail >>= x) (arrange t f es) := by
  refine ⟨fun _ => some .other, [], wp_bind.mpr (wp_mayFail_some rfl ?_)⟩
  exact ⟨herr, h.called rfl rfl⟩

/-- One that gets beyond it. -/
theorem Ends.later {err : Int} {x : Unit → U Unit} (f : Nat → Option Errno)
    (es : List EraseStep) (h : Agrees c s t)
    (hx : ∀ t', Agrees c s t' → (∀ n, t'.faults (t'.calls + n) = f n) →
      (∀ n, t'.background (t'.unlocks + n) = if n = 0 then es else []) →
      Ends c err s' (x ()) t') :
    ∃ f es, Ends c err s' (mayFail >>= x) (arrange t f es) := by
  refine ⟨fun n => if n = 0 then none else f (n - 1), es, wp_bind.mpr (wp_mayFail_none ?_ ?_)⟩
  · show (if t.calls - t.calls = 0 then none else f (t.calls - t.calls - 1)) = none
    rw [if_pos (Nat.sub_self _)]
  · refine hx _ (h.called rfl rfl) (fun n => ?_) fun n => ?_
    · show (if t.calls + 1 + n - t.calls = 0 then none else f (t.calls + 1 + n - t.calls - 1)) = f n
      have hn : t.calls + 1 + n - t.calls = n + 1 := by omega
      rw [hn, if_neg (Nat.succ_ne_zero n), Nat.add_sub_cancel]
    · show (if t.unlocks + n = t.unlocks then es else []) = _
      simp only [Nat.add_eq_left]

/-! ## Creating -/

/-- A free slot is found in both. -/
theorem vacant_eq (h : Agrees c s t) (req : MkvolReq) : t.vacant c req = vacant c s req := by
  unfold UbiDev.vacant vacant
  cases req.volId with
  | some volId => rfl
  | none =>
    refine List.find?_congr fun i hi => ?_
    rw [h.volumes i (List.mem_range.mp hi), Option.isNone_map]

/-- It is a slot of the table. -/
theorem vacant_lt {req : MkvolReq} {volId : Nat}
    (hin : ∀ volId, req.volId = some volId → volId < c.vtblSlots)
    (hvacant : vacant c s req = some volId) : volId < c.vtblSlots := by
  unfold vacant at hvacant
  cases hreq : req.volId with
  | some i =>
    rw [hreq] at hvacant
    cases hvacant
    exact hin _ hreq
  | none =>
    rw [hreq] at hvacant
    exact List.mem_range.mp (List.mem_of_find?_eq_some hvacant)

/-- A name is taken in both. -/
theorem nameTaken_eq (h : Agrees c s t) (req : MkvolReq) :
    (t.volumes.take c.vtblSlots).any (fun v => v.any (·.name == req.name)) = nameTaken c s req := by
  have hvol : ∀ i < c.vtblSlots, t.volumes[i]? = some ((s.volumes i).map VolObj.toVolume) := by
    intro i hi
    have hlt := Nat.lt_of_lt_of_le hi h.slots
    have := h.volumes i hi
    unfold UbiDev.volume at this
    rw [List.getElem?_eq_getElem hlt] at this ⊢
    exact congrArg some this
  unfold nameTaken
  rw [Bool.eq_iff_iff, List.any_eq_true, List.any_eq_true]
  constructor
  · rintro ⟨v, hv, hname⟩
    obtain ⟨i, hi, hget⟩ := List.mem_iff_getElem.mp hv
    rw [List.length_take] at hi
    have hslot : i < c.vtblSlots := by omega
    have hget := List.getElem?_eq_some_iff.mpr ⟨by rwa [List.length_take], hget⟩
    rw [List.getElem?_take_of_lt hslot, hvol i hslot] at hget
    refine ⟨i, List.mem_range.mpr hslot, ?_⟩
    rw [← Option.some.inj hget, Option.any_map] at hname
    exact hname
  · rintro ⟨i, hi, hname⟩
    have hslot := List.mem_range.mp hi
    refine ⟨(s.volumes i).map VolObj.toVolume, ?_, ?_⟩
    · refine List.mem_of_getElem? (i := i) ?_
      rw [List.getElem?_take_of_lt hslot]
      exact hvol i hslot
    · rw [Option.any_map]
      exact hname

/-- A slot of both devices is set. -/
theorem Agrees.setVolume (h : Agrees c s t) {volId : Nat} (hin : volId < c.vtblSlots)
    (v : Option VolObj) :
    Agrees c (s.setVolume volId v) (t.setVolume volId (v.map VolObj.toVolume)) := by
  refine ⟨h.pebs, ?_, fun i hi => ?_⟩
  · show c.vtblSlots ≤ (t.volumes.set volId _).length
    rw [List.length_set]
    exact h.slots
  · show ((t.volumes.set volId _)[i]?).join = (Function.update s.volumes volId v i).map _
    by_cases hiv : i = volId
    · subst hiv
      rw [List.getElem?_set_self (Nat.lt_of_lt_of_le hin h.slots), Option.join_some,
        Function.update_self]
    · rw [List.getElem?_set_ne (Ne.symm hiv), Function.update_of_ne hiv]
      exact h.volumes i hi

/-- Whatever happens on the way, PEBs are reserved for a volume that is there in the end, or given
    back. -/
theorem createReserved_spec (env : CreateEnv) (req : MkvolReq) (volId : Nat) :
    ∃ es : List EraseStep,
      (createReserved c env s req volId).1 = 0 ∧
          (createReserved c env s req volId).2.toPebs = es.foldl Pebs.eraseStep s.toPebs ∧
          (∃ vol : VolObj, vol.toVolume = ⟨req.pebs c, req.volType,
              if req.volType = .dynamic then req.pebs c else 0, req.name⟩ ∧
            (createReserved c env s req volId).2.volumes =
              Function.update s.volumes volId (some vol)) ∨
        (createReserved c env s req volId).1 ≠ 0 ∧
          (createReserved c env s req volId).2.toPebs =
            (es.foldl Pebs.eraseStep s.toPebs).reserve (-req.pebs c) ∧
          (createReserved c env s req volId).2.volumes = s.volumes := by
  unfold createReserved
  dsimp only
  split
  · exact ⟨env.flushWorkers, .inr ⟨‹_›, rfl, rfl⟩⟩
  · cases env.allocEba with
    | none =>
      have herr : -enomem ≠ 0 := by decide
      exact ⟨env.flushWorkers, .inr ⟨herr, rfl, rfl⟩⟩
    | some a =>
      dsimp only
      split
      · exact ⟨env.flushWorkers, .inr ⟨‹_›, rfl, rfl⟩⟩
      split
      · exact ⟨env.flushWorkers, .inr ⟨‹_›, rfl, rfl⟩⟩
      split
      · exact ⟨env.flushWorkers, .inr ⟨‹_›, rfl, rfl⟩⟩
      obtain ⟨-, hvols, -, es, hes⟩ := ubiChangeVtblRecord_kept (c := c)
        (s := (s.eraseSteps env.flushWorkers).kmalloc a
          (List.replicate (req.pebs c).toNat ubiLebUnmapped)) env.copy volId
        (some (newRecord c req))
      have hsteps : es.foldl Pebs.eraseStep (env.flushWorkers.foldl Pebs.eraseStep s.toPebs) =
          (env.flushWorkers ++ es).foldl Pebs.eraseStep s.toPebs := List.foldl_append.symm
      refine ⟨env.flushWorkers ++ es, ?_⟩
      split
      · refine .inr ⟨‹_›, ?_, hvols⟩
        rw [← hsteps]
        exact congrArg (Pebs.reserve · (-req.pebs c)) hes
      · refine .inl ⟨rfl, hes.trans hsteps, ⟨⟨_, _, _, _⟩, 0, a⟩, rfl, ?_⟩
        exact congrArg (Function.update · volId _) hvols

/-- A creation ends the same way in both, with the faults and the workers of that run. -/
theorem ubiCreateVolume_ends (env : CreateEnv) (req : MkvolReq)
    (hin : ∀ volId, req.volId = some volId → volId < c.vtblSlots) (h : Agrees c s t) :
    ∃ f es, Ends c (ubiCreateVolume c env s req).1 (ubiCreateVolume c env s req).2
      (Ubi.ubiCreateVolume c req) (arrange t f es) := by
  unfold ubiCreateVolume Ubi.ubiCreateVolume createVolume
  split
  · have herr : -erofs ≠ 0 := by decide
    exact Ends.first h herr _
  split
  · have herr : -enomem ≠ 0 := by decide
    exact Ends.first h herr _
  cases hvacant : vacant c s req with
  | none =>
    -- All slots are taken: nothing was reserved yet.
    have herr : -enfile ≠ 0 := by decide
    refine Ends.later (fun _ => none) [] h fun t h _ _ => wp_bind.mpr (wp_getState.mpr ?_)
    rw [vacant_eq h, hvacant]
    exact ⟨herr, h⟩
  | some volId =>
    have hslot : volId < c.vtblSlots := vacant_lt hin hvacant
    dsimp only
    obtain ⟨es, hes⟩ := createReserved_spec (c := c) (s := s.reserve (req.pebs c)) env req volId
    generalize createReserved c env (s.reserve (req.pebs c)) req volId = r at hes ⊢
    refine Ends.later (fun _ => if r.1 = 0 then none else some .other) es h fun t h hf hb =>
      wp_bind.mpr (wp_getState.mpr ?_)
    have herr : -eexist ≠ 0 := by decide
    have henospc : -enospc ≠ 0 := by decide
    rw [vacant_eq h, hvacant]
    dsimp only
    rw [h.volumes volId hslot, Option.isSome_map, nameTaken_eq h, h.pebs]
    -- The other early ends are under `volumes_lock`, before the PEBs are reserved.
    by_cases hthere : (s.volumes volId).isSome = true
    · rw [if_pos hthere, if_pos hthere]
      exact ⟨herr, h⟩
    rw [if_neg hthere, if_neg hthere]
    by_cases hname : nameTaken c s req = true
    · rw [if_pos hname, if_pos hname]
      exact ⟨herr, h⟩
    rw [if_neg hname, if_neg hname]
    by_cases hpebs : req.pebs c > s.availPebs
    · rw [if_pos hpebs, if_pos hpebs]
      exact ⟨henospc, h⟩
    rw [if_neg hpebs, if_neg hpebs]
    -- From here on the lock is free, and the erase workers of the run step in.
    refine wp_bind.mpr (wp_modifyState.mpr (wp_bind.mpr (wp_unlocked (hb 0) (wp_bind.mpr ?_))))
    rw [wp_attempt]
    have hreserve : (t.reserve (req.pebs c)).toPebs = (s.reserve (req.pebs c)).toPebs :=
      congrArg (Pebs.reserve · _) h.pebs
    rcases hes with ⟨hr, hdone, vol, hvol, hvols⟩ | ⟨hr, hdone, hvols⟩
    · -- the volume is there
      refine wp_mayFail_none ((hf 0).trans (if_pos hr)) (wp_bind.mpr (wp_modifyState.mpr ?_))
      refine wp_unlocked (hb 1) ⟨hr, (h.setVolume hslot (some vol)).congr ?_ (fun i => by rw [hvols]; rfl) ?_⟩
      · rw [hdone, ← hreserve]
        rfl
      · rw [Option.map_some, hvol]
        rfl
    · -- it failed: the PEBs are given back, and the slot is empty again
      refine wp_mayFail_some ((hf 0).trans (if_neg hr)) ?_
      refine wp_bind.mpr (wp_modifyState.mpr (wp_bind.mpr (wp_unlocked (hb 1) ⟨hr, ?_⟩)))
      refine h.congr ?_ (fun i => by rw [hvols]; rfl) rfl
      rw [hdone, ← hreserve]
      rfl

/-! ## Removing -/

/-- Unmapping does not change counts or volumes. -/
theorem unmapLebs_same (env : Nat → UnmapEnv) (ebaTbl : Nat) (lnums : List Nat) :
    (unmapLebs env ebaTbl lnums s).dev.toPebs = s.toPebs ∧
      (unmapLebs env ebaTbl lnums s).dev.volumes = s.volumes := by
  induction lnums generalizing s with
  | nil => exact ⟨rfl, rfl⟩
  | cons lnum lnums ih =>
    have hone : (ubiEbaUnmapLeb (env lnum) s ebaTbl lnum).dev.toPebs = s.toPebs ∧
        (ubiEbaUnmapLeb (env lnum) s ebaTbl lnum).dev.volumes = s.volumes := by
      unfold ubiEbaUnmapLeb
      split
      · exact ⟨rfl, rfl⟩
      split
      · exact ⟨rfl, rfl⟩
      dsimp only
      split
      · exact ⟨rfl, rfl⟩
      · exact ⟨rfl, rfl⟩
    rw [unmapLebs]
    dsimp only
    split
    · exact hone
    · obtain ⟨hpebs, hvols⟩ := @ih (ubiEbaUnmapLeb (env lnum) s ebaTbl lnum).dev
      exact ⟨hpebs.trans hone.1, hvols.trans hone.2⟩

/-- Once it has begun, the PEBs of the volume are given back, or the volume is there again. -/
theorem removing_spec (env : RemoveEnv) {volId : Nat} {vol : VolObj} (noVtbl : Bool)
    (hvol : s.volumes volId = some vol) (hro : ¬s.roMode = true) (hbusy : ¬vol.refCount > 1) :
    ∃ es : List EraseStep,
      (ubiRemoveVolume c env s volId vol noVtbl).err = 0 ∧
          (ubiRemoveVolume c env s volId vol noVtbl).dev.toPebs =
            (let p := (es.foldl Pebs.eraseStep s.toPebs).reserve (-vol.reservedPebs)
            p.topUp (p.bebRsvdLevel - p.bebRsvdPebs)) ∧
          (ubiRemoveVolume c env s volId vol noVtbl).dev.volumes =
            Function.update s.volumes volId none ∨
        (ubiRemoveVolume c env s volId vol noVtbl).err ≠ 0 ∧
          (ubiRemoveVolume c env s volId vol noVtbl).dev.toPebs =
            es.foldl Pebs.eraseStep s.toPebs ∧
          (ubiRemoveVolume c env s volId vol noVtbl).dev.volumes = s.volumes := by
  unfold ubiRemoveVolume
  rw [if_neg hro, if_neg hbusy]
  dsimp only
  have htable : ∃ es : List EraseStep, (if (!noVtbl) = true then
        ubiChangeVtblRecord c env.copy (s.setVolume volId none) volId none
        else (0, s.setVolume volId none)).2.toPebs = es.foldl Pebs.eraseStep s.toPebs ∧
      (if (!noVtbl) = true then ubiChangeVtblRecord c env.copy (s.setVolume volId none) volId none
        else (0, s.setVolume volId none)).2.volumes = Function.update s.volumes volId none := by
    split
    · obtain ⟨-, hvols, -, es, hes⟩ :=
        ubiChangeVtblRecord_kept (c := c) (s := s.setVolume volId none) env.copy volId none
      exact ⟨es, hes, hvols⟩
    · exact ⟨[], rfl, rfl⟩
  generalize (if (!noVtbl) = true then
    ubiChangeVtblRecord c env.copy (s.setVolume volId none) volId none
    else (0, s.setVolume volId none)) = r at htable ⊢
  obtain ⟨es, hes, hvols⟩ := htable
  obtain ⟨hupebs, huvols⟩ := unmapLebs_same (s := r.2) env.unmap vol.ebaTbl
    (List.range vol.reservedPebs.toNat)
  have hback : ∀ u : Dev, u.volumes = r.2.volumes →
      (u.setVolume volId (some vol)).volumes = s.volumes := by
    intro u hu
    show Function.update u.volumes volId (some vol) = s.volumes
    rw [hu, hvols, setVolume_restore hvol]
  refine ⟨es, ?_⟩
  split
  · -- the table was not written
    exact .inr ⟨‹_›, hes, hback r.2 rfl⟩
  split
  · -- it was, and an LEB could not be unmapped
    exact .inr ⟨‹_›, hupebs.trans hes, hback _ huvols⟩
  · -- removed: the PEBs go to the reserve of bad ones first
    refine .inl ⟨not_not.mp ‹_›, ?_, huvols.trans hvols⟩
    rw [← hes, ← hupebs]
    rfl

/-- So does a removal. -/
theorem ubiRemoveVolume_ends (env : RemoveEnv) {volId : Nat} {vol : VolObj} (noVtbl : Bool)
    (hvol : s.volumes volId = some vol) (hslot : volId < c.vtblSlots) (h : Agrees c s t) :
    ∃ f es, Ends c (ubiRemoveVolume c env s volId vol noVtbl).err
      (ubiRemoveVolume c env s volId vol noVtbl).dev (Ubi.ubiRemoveVolume volId)
      (arrange t f es) := by
  unfold Ubi.ubiRemoveVolume
  by_cases hro : s.roMode = true
  · have herr : -erofs ≠ 0 := by decide
    rw [ubiRemoveVolume, if_pos hro]
    exact Ends.first h herr _
  by_cases hbusy : vol.refCount > 1
  · have herr : -ebusy ≠ 0 := by decide
    rw [ubiRemoveVolume, if_neg hro, if_pos hbusy]
    exact Ends.first h herr _
  obtain ⟨es, hes⟩ := removing_spec (c := c) env noVtbl hvol hro hbusy
  generalize ubiRemoveVolume c env s volId vol noVtbl = r at hes ⊢
  refine Ends.later (fun _ => if r.err = 0 then none else some .other) es h fun t h hf hb =>
    wp_bind.mpr (wp_getState.mpr ?_)
  rw [h.volumes volId hslot, hvol, Option.map_some]
  dsimp only
  refine wp_bind.mpr (wp_modifyState.mpr (wp_bind.mpr (wp_unlocked (hb 0) (wp_bind.mpr ?_))))
  rw [wp_attempt]
  have hgone := h.setVolume hslot none
  rcases hes with ⟨hr, hdone, hvols⟩ | ⟨hr, hdone, hvols⟩
  · -- the second critical section gives the PEBs back
    refine wp_mayFail_none ((hf 0).trans (if_pos hr)) ?_
    refine wp_bind.mpr (wp_modifyState.mpr (wp_bind.mpr (wp_modifyState.mpr ?_)))
    refine wp_unlocked (hb 1) ⟨hr, hgone.congr ?_ (fun i => by rw [hvols]; rfl) rfl⟩
    rw [hdone, ← h.pebs]
    rfl
  · -- the volume is put back into its slot
    refine wp_mayFail_some ((hf 0).trans (if_neg hr)) ?_
    refine wp_bind.mpr (wp_modifyState.mpr (wp_bind.mpr (wp_unlocked (hb 1) ⟨hr, ?_⟩)))
    refine (hgone.setVolume hslot (some vol)).congr ?_ (fun i => ?_) rfl
    · rw [hdone, ← h.pebs]
      rfl
    · rw [hvols, ← setVolume_restore (v := none) hvol]
      rfl

/-! ## Re-sizing -/

/-- The volume that `ubi_resize_volume` leaves. -/
def resizedTo (vol : Volume) (reservedPebs : Int) : Volume :=
  { vol with
    reservedPebs := reservedPebs
    usedEbs := if vol.volType = .dynamic then reservedPebs else vol.usedEbs }

/-- PEBs that were reserved are given back if it fails, and those of a volume that shrinks if not. -/
theorem resizeTable_spec (env : ResizeEnv) (volId : Nat) (vol : VolObj) (a : Nat)
    (reservedPebs : Int) : ∃ es : List EraseStep,
      (resizeTable c env s volId vol a reservedPebs).err = 0 ∧
          (resizeTable c env s volId vol a reservedPebs).dev.toPebs =
            (let p := es.foldl Pebs.eraseStep s.toPebs
            let q := p.reserve (reservedPebs - vol.reservedPebs)
            if reservedPebs - vol.reservedPebs < 0 then q.topUp (q.bebRsvdLevel - q.bebRsvdPebs)
            else p) ∧
          (∃ vol' : VolObj, vol'.toVolume = resizedTo vol.toVolume reservedPebs ∧
            (resizeTable c env s volId vol a reservedPebs).dev.volumes =
              Function.update s.volumes volId (some vol')) ∨
        (resizeTable c env s volId vol a reservedPebs).err ≠ 0 ∧
          (resizeTable c env s volId vol a reservedPebs).dev.toPebs =
            (let p := es.foldl Pebs.eraseStep s.toPebs
            if reservedPebs - vol.reservedPebs > 0 then p.reserve (-(reservedPebs - vol.reservedPebs))
            else p) ∧
          (resizeTable c env s volId vol a reservedPebs).dev.volumes = s.volumes := by
  unfold resizeTable
  dsimp only
  obtain ⟨-, hvols, -, es, hes⟩ := ubiChangeVtblRecord_kept (c := c) (s := s) env.copy volId
    (some (resizedRecord s volId reservedPebs))
  generalize ubiChangeVtblRecord c env.copy s volId _ = r at hvols hes ⊢
  refine ⟨es, ?_⟩
  have hset : ∀ v : VolObj, Function.update r.2.volumes volId (some v) =
      Function.update s.volumes volId (some v) := fun v => congrArg (Function.update · volId _) hvols
  split
  · -- the table was not written: what a growing volume has reserved is given back
    refine .inr ⟨‹_›, ?_, ?_⟩
    · rw [← hes]
      split
      · rfl
      · rfl
    · split
      · exact hvols
      · exact hvols
  split
  · obtain ⟨hupebs, huvols⟩ := unmapLebs_same (s := r.2) env.unmap vol.ebaTbl
      ((List.range (-(reservedPebs - vol.reservedPebs)).toNat).map (reservedPebs.toNat + ·))
    generalize unmapLebs env.unmap vol.ebaTbl _ r.2 = u at hupebs huvols ⊢
    split
    · -- an LEB could not be unmapped, which only a shrinking volume does
      refine .inr ⟨‹_›, ?_, huvols.trans hvols⟩
      rw [if_neg (by omega), ← hes]
      exact hupebs
    · -- a smaller volume
      refine .inl ⟨not_not.mp ‹_›, ?_, ⟨⟨_, _, _, _⟩, vol.refCount, a⟩, rfl, ?_⟩
      · rw [← hes, ← hupebs]
        rfl
      · show Function.update (Function.update u.dev.volumes volId _) volId _ = _
        rw [Function.update_idem, huvols]
        exact hset _
  · -- a larger volume
    exact .inl ⟨rfl, hes, ⟨⟨_, _, _, _⟩, vol.refCount, a⟩, rfl, hset _⟩

/-- All of it, when it gets as far as changing the table. -/
theorem resizing_spec (env : ResizeEnv) {volId : Nat} {vol : VolObj} (reservedPebs : Int) {a : Nat}
    (hvol : s.volumes volId = some vol) : ∃ es : List EraseStep,
      let d := reservedPebs - vol.reservedPebs
      let s₁ := s.kmalloc a (List.replicate reservedPebs.toNat ubiLebUnmapped)
      let r := resizeTable c env (if d > 0 then growMapping s₁ volId vol a reservedPebs else s₁)
        volId vol a reservedPebs
      let p := es.foldl Pebs.eraseStep (if d > 0 then s.toPebs.reserve d else s.toPebs)
      r.err = 0 ∧
          r.dev.toPebs = (if d < 0 then
            (p.reserve d).topUp ((p.reserve d).bebRsvdLevel - (p.reserve d).bebRsvdPebs) else p) ∧
          (∃ vol' : VolObj, vol'.toVolume = resizedTo vol.toVolume reservedPebs ∧
            ∀ i, (r.dev.volumes i).map VolObj.toVolume =
              (Function.update s.volumes volId (some vol') i).map VolObj.toVolume) ∨
        r.err ≠ 0 ∧ r.dev.toPebs = (if d > 0 then p.reserve (-d) else p) ∧
          ∀ i, (r.dev.volumes i).map VolObj.toVolume = (s.volumes i).map VolObj.toVolume := by
  dsimp only
  generalize hs₁ : (if reservedPebs - vol.reservedPebs > 0 then growMapping (s.kmalloc a
    (List.replicate reservedPebs.toNat ubiLebUnmapped)) volId vol a reservedPebs
    else s.kmalloc a (List.replicate reservedPebs.toNat ubiLebUnmapped)) = s₁
  have hpebs : s₁.toPebs = if reservedPebs - vol.reservedPebs > 0 then
      s.toPebs.reserve (reservedPebs - vol.reservedPebs) else s.toPebs := by
    rw [← hs₁]
    split
    · rfl
    · rfl
  have hvols : s₁.volumes = s.volumes ∨
      s₁.volumes = Function.update s.volumes volId (some { vol with ebaTbl := a }) := by
    rw [← hs₁]
    split
    · exact .inr rfl
    · exact .inl rfl
  obtain ⟨es, hes⟩ := resizeTable_spec (c := c) (s := s₁) env volId vol a reservedPebs
  rw [hpebs] at hes
  refine ⟨es, ?_⟩
  rcases hes with ⟨hr, hdone, vol', hvol', hset⟩ | ⟨hr, hdone, hback⟩
  · refine .inl ⟨hr, hdone, vol', hvol', fun i => ?_⟩
    rw [hset]
    rcases hvols with hv | hv
    · rw [hv]
    · rw [hv, Function.update_idem]
  · refine .inr ⟨hr, hdone, fun i => ?_⟩
    rw [hback]
    rcases hvols with hv | hv
    · rw [hv]
    · rw [hv, Function.update_apply]
      split
      · rename_i hi
        rw [hi, hvol]
        rfl
      · rfl

/-- So does a resize. -/
theorem ubiResizeVolume_ends (env : ResizeEnv) {volId : Nat} {vol : VolObj} (reservedPebs : Int)
    (hvol : s.volumes volId = some vol) (hslot : volId < c.vtblSlots) (h : Agrees c s t) :
    ∃ f es, Ends c (ubiResizeVolume c env s volId vol reservedPebs).err
      (ubiResizeVolume c env s volId vol reservedPebs).dev
      (Ubi.ubiResizeVolume volId reservedPebs) (arrange t f es) := by
  unfold ubiResizeVolume Ubi.ubiResizeVolume
  have hthere : ∀ t : UbiDev, Agrees c s t → t.volume volId = some vol.toVolume := fun t h => by
    rw [h.volumes volId hslot, hvol, Option.map_some]
  split
  · -- read-only mode
    have herr : -erofs ≠ 0 := by decide
    exact Ends.first h herr _
  split
  · rename_i hsmall
    have herr : -einval ≠ 0 := by decide
    refine Ends.later (fun _ => none) [] h fun t h _ _ => wp_bind.mpr (wp_getState.mpr ?_)
    rw [hthere t h]
    dsimp only
    rw [if_pos hsmall]
    exact ⟨herr, h⟩
  rename_i hsmall
  split
  · rename_i hsame
    refine Ends.later (fun _ => none) [] h fun t h _ _ => wp_bind.mpr (wp_getState.mpr ?_)
    rw [hthere t h]
    dsimp only
    rw [if_neg hsmall, if_pos hsame]
    exact ⟨rfl, h⟩
  rename_i hsame
  cases env.alloc with
  | none =>
    have herr : -enomem ≠ 0 := by decide
    refine Ends.later (fun _ => some .other) [] h fun t h hf _ => wp_bind.mpr (wp_getState.mpr ?_)
    rw [hthere t h]
    dsimp only
    rw [if_neg hsmall, if_neg hsame]
    exact wp_bind.mpr (wp_mayFail_some (hf 0) ⟨herr, h.called rfl rfl⟩)
  | some a =>
    dsimp only
    -- The tables agree on how the call ends before it has reserved anything.
    by_cases hbusy : vol.refCount > 1
    · have herr : -ebusy ≠ 0 := by decide
      rw [if_pos hbusy]
      refine Ends.later (fun _ => some .other) [] h fun t h hf _ => wp_bind.mpr (wp_getState.mpr ?_)
      rw [hthere t h]
      dsimp only
      rw [if_neg hsmall, if_neg hsame]
      exact wp_bind.mpr (wp_mayFail_some (hf 0) ⟨herr, h.congr h.pebs (fun _ => rfl) rfl⟩)
    rw [if_neg hbusy]
    have hcount : (s.kmalloc a (List.replicate reservedPebs.toNat ubiLebUnmapped)).availPebs =
        s.availPebs := rfl
    rw [hcount]
    by_cases hfull : reservedPebs - vol.reservedPebs > 0 ∧ reservedPebs - vol.reservedPebs > s.availPebs
    · have herr : -enospc ≠ 0 := by decide
      rw [if_pos hfull]
      refine Ends.later (fun _ => none) [] h fun t h hf _ => wp_bind.mpr (wp_getState.mpr ?_)
      rw [hthere t h]
      dsimp only
      rw [if_neg hsmall, if_neg hsame]
      refine wp_bind.mpr (wp_mayFail_none (hf 0) ?_)
      rw [if_pos hfull.1]
      refine wp_bind.mpr (wp_getState.mpr ?_)
      have havail : reservedPebs - vol.reservedPebs > t.availPebs := by
        rw [h.pebs]
        exact hfull.2
      rw [if_pos havail]
      exact ⟨herr, h.congr h.pebs (fun _ => rfl) rfl⟩
    rw [if_neg hfull]
    obtain ⟨es, hes⟩ := resizing_spec (c := c) (a := a) env reservedPebs hvol
    dsimp only at hes
    generalize resizeTable c env _ volId vol a reservedPebs = r at hes ⊢
    refine Ends.later (fun n => if n = 0 ∨ r.err = 0 then none else some .other) es h
      fun t h hf hb => wp_bind.mpr (wp_getState.mpr ?_)
    rw [hthere t h]
    dsimp only
    rw [if_neg hsmall, if_neg hsame]
    refine wp_bind.mpr (wp_mayFail_none ((hf 0).trans (if_pos (.inl rfl))) ?_)
    have hset := fun vol' => h.setVolume hslot (some vol')
    have hlate : r.err ≠ 0 → ¬(1 = 0 ∨ r.err = 0) := by omega
    rw [← h.pebs] at hes
    -- A growing volume reserves the PEBs first, a shrinking one gives them back when all is done.
    by_cases hgrow : reservedPebs - vol.reservedPebs > 0
    · simp only [if_pos hgrow, if_neg (Int.not_lt.mpr (Int.le_of_lt hgrow))] at hes ⊢
      have havail : ¬reservedPebs - vol.reservedPebs > t.availPebs := fun hlt =>
        hfull ⟨hgrow, h.pebs ▸ hlt⟩
      refine wp_bind.mpr (wp_getState.mpr ?_)
      rw [if_neg havail]
      refine wp_bind.mpr (wp_modifyState.mpr (wp_bind.mpr (wp_unlocked (hb 0) (wp_bind.mpr ?_))))
      rw [wp_attempt]
      rcases hes with ⟨hr, hdone, vol', hvol', hvols⟩ | ⟨hr, hdone, hvols⟩
      · -- it has grown
        refine wp_mayFail_none ((hf 1).trans (if_pos (.inr hr))) (wp_bind.mpr ?_)
        refine wp_modifyState.mpr (wp_unlocked (hb 1) ⟨hr, (hset vol').congr ?_ hvols ?_⟩)
        · exact hdone.symm
        · rw [Option.map_some, hvol']
          rfl
      · -- it has not: the PEBs are given back
        refine wp_mayFail_some ((hf 1).trans (if_neg (hlate hr))) (wp_bind.mpr ?_)
        refine wp_modifyState.mpr (wp_bind.mpr (wp_unlocked (hb 1) ⟨hr, h.congr ?_ hvols rfl⟩))
        exact hdone.symm
    · have hneg : reservedPebs - vol.reservedPebs < 0 := by omega
      simp only [if_neg hgrow, if_pos hneg] at hes ⊢
      refine wp_bind.mpr (wp_unlocked (hb 0) (wp_bind.mpr ?_))
      rw [wp_attempt]
      rcases hes with ⟨hr, hdone, vol', hvol', hvols⟩ | ⟨hr, hdone, hvols⟩
      · -- it has shrunk: the lock is free before the new size is set
        refine wp_mayFail_none ((hf 1).trans (if_pos (.inr hr))) (wp_bind.mpr ?_)
        refine wp_modifyState.mpr (wp_bind.mpr (wp_modifyState.mpr (wp_bind.mpr ?_)))
        refine wp_modifyState.mpr (wp_bind.mpr (wp_unlocked (hb 1) (wp_bind.mpr ?_)))
        refine wp_modifyState.mpr (wp_bind.mpr (wp_modifyState.mpr ?_))
        refine wp_unlocked (hb 2) ⟨hr, (hset vol').congr ?_ hvols ?_⟩
        · exact hdone.symm
        · rw [Option.map_some, hvol']
          rfl
      · -- it has not: nothing was given back yet
        refine wp_mayFail_some ((hf 1).trans (if_neg (hlate hr))) ?_
        refine wp_bind.mpr (wp_unlocked (hb 1) ⟨hr, h.congr ?_ hvols rfl⟩)
        exact hdone.symm

/-! ## All three -/

/-- The operation of a call. -/
def VolCall.op : VolCall → VolOp
  | create _ req => .create req
  | remove _ volId _ _ => .remove volId
  | resize _ volId _ reservedPebs => .resize volId reservedPebs

/-- Its volume has a slot of the table, as `ubi_cdev_ioctl` and `ubi_open_volume` see to. -/
def VolCall.InTable (c : UbiInfo) : VolCall → Prop
  | create _ req => ∀ volId, req.volId = some volId → volId < c.vtblSlots
  | remove _ volId _ _ => volId < c.vtblSlots
  | resize _ volId _ _ => volId < c.vtblSlots

/-- Every call of `VolumeOps` is an operation of `Reserve`, with the same end. -/
theorem run_ends (call : VolCall) (hok : call.Ok s) (hin : call.InTable c) (h : Agrees c s t) :
    ∃ f es, Ends c (call.run c s).err (call.run c s).dev (call.op.run c) (arrange t f es) := by
  cases call with
  | create env req => exact ubiCreateVolume_ends env req hin h
  | remove env volId vol noVtbl => exact ubiRemoveVolume_ends env noVtbl hok hin h
  | resize env volId vol reservedPebs => exact ubiResizeVolume_ends env reservedPebs hok.1 hin h

/-- What holds of the counters in `Reserve` is kept. -/
theorem run_holds (call : VolCall) (hok : call.Ok s) (hin : call.InTable c)
    (hpos : call.op.NotNegative c) (h : Agrees c s t) (ht : Holds 0 t) :
    ∃ t', Agrees c (call.run c s).dev t' ∧ Holds 0 t' := by
  obtain ⟨f, es, hends⟩ := run_ends call hok hin h
  have hholds := op_spec c call.op hpos (s := arrange t f es) ⟨ht.avail, ht.volumes, ht.within⟩
  cases hx : call.op.run c (arrange t f es) with
  | ok a t' tr =>
    exact ⟨t', (wp_ok hends hx fun _ _ => trivial).1.2, (wp_ok hholds hx fun _ _ => trivial).1⟩
  | stop e t' tr =>
    exact ⟨t', (wp_stopped hends hx fun _ _ => trivial).1.2,
      (wp_stopped hholds hx fun _ _ => trivial).1⟩

/-- One call after the other. -/
def runCalls (c : UbiInfo) (s : Dev) (calls : List VolCall) : Dev :=
  calls.foldl (fun s call => (call.run c s).dev) s

/-- Each call is one that can be made when it is made. -/
def AllOk (c : UbiInfo) : Dev → List VolCall → Prop
  | _, [] => True
  | s, call :: calls =>
    (call.Ok s ∧ call.InTable c ∧ call.op.NotNegative c) ∧ AllOk c (call.run c s).dev calls

/-- The PEBs of a device that agrees with a covered one stay covered: what is available never gets
    negative, whatever fails. -/
theorem runCalls_holds (calls : List VolCall) :
    ∀ {s : Dev} {t : UbiDev}, AllOk c s calls → Agrees c s t → Holds 0 t →
      0 ≤ (runCalls c s calls).availPebs ∧ ∃ t', Agrees c (runCalls c s calls) t' ∧ Holds 0 t' := by
  induction calls with
  | nil =>
    intro s t _ h ht
    have havail := ht.avail
    rw [h.pebs] at havail
    exact ⟨havail, t, h, ht⟩
  | cons call calls ih =>
    rintro s t ⟨⟨hok, hin, hpos⟩, hrest⟩ h ht
    obtain ⟨t', h', ht'⟩ := run_holds call hok hin hpos h ht
    exact ih hrest h' ht'

end Ubi.Vmt
