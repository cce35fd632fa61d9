/-
  No PEB is promised twice.

  `Holds r s` is the invariant, where `r` PEBs are reserved for an operation that is under way: what
  is available, what the volumes have, `r`, and the reserves together are no more than the PEBs that
  the wear-levelling sub-system manages.  Each move of PEBs under the lock keeps it, and so does a
  step of an erase worker; the operations are followed from one such move to the next.

  A re-size that shrinks a volume sets `vol->reserved_pebs` only after it has given the PEBs back and
  freed the lock.  In between they are counted twice, and the bound is higher by these PEBs
  (`UbiDev.handedBack`).
-/
import FlashStack.Ubi.Reserve

namespace Ubi

open Lib Lib.Prog

/-! ## The invariant -/

/-- What a slot of the volume table has reserved. -/
def pebsOf (v : Option Volume) : Int := v.elim 0 Volume.reservedPebs

namespace UbiDev

/-- What all volumes have reserved. -/
def volumePebs (s : UbiDev) : Int := (s.volumes.map pebsOf).sum

/-- The PEBs are over-committed by `n` at most. -/
def CoveredBut (n : Int) (s : UbiDev) : Prop :=
  0 ≤ s.availPebs ∧ s.availPebs + s.volumePebs + ebaReservedPebs + wlReservedPebs + s.bebRsvdPebs ≤
    s.managed + n

/-- The PEBs are not over-committed. -/
def Covered (s : UbiDev) : Prop :=
  0 ≤ s.availPebs ∧ s.availPebs + s.volumePebs + ebaReservedPebs + wlReservedPebs + s.bebRsvdPebs ≤
    s.managed

instance (n : Int) (s : UbiDev) : Decidable (s.CoveredBut n) := inferInstanceAs (Decidable (_ ∧ _))

instance (s : UbiDev) : Decidable s.Covered := inferInstanceAs (Decidable (_ ∧ _))

/-- Nothing was handed back twice, so everything is covered. -/
theorem CoveredBut.covered {s : UbiDev} (h : s.CoveredBut s.handedBack) (hnone : s.handedBack = 0) :
    s.Covered := by
  obtain ⟨havail, hsum⟩ := h
  rw [hnone, add_zero] at hsum
  exact ⟨havail, hsum⟩

end UbiDev

/-- The invariant, while `r` PEBs are reserved for an operation that is under way. -/
structure Holds (r : Int) (s : UbiDev) : Prop where
  avail : 0 ≤ s.availPebs
  volumes : ∀ v ∈ s.volumes, 0 ≤ pebsOf v
  within : s.availPebs + s.volumePebs + r + ebaReservedPebs + wlReservedPebs + s.bebRsvdPebs ≤
    s.managed + s.handedBack

section Moves

variable {r : Int} {s : UbiDev}

/-- What the invariant says while somebody may look. -/
theorem Holds.covered (h : Holds r s) (hr : 0 ≤ r) : s.CoveredBut s.handedBack := by
  have := h.within
  exact ⟨h.avail, by omega⟩

/-- Replacing a volume, or replacing nothing. -/
theorem sum_set_le (vols : List (Option Volume)) (i : Nat) (v : Option Volume) (hv : 0 ≤ pebsOf v) :
    ((vols.set i v).map pebsOf).sum ≤ (vols.map pebsOf).sum - pebsOf (vols[i]?).join + pebsOf v := by
  induction vols generalizing i with
  | nil => simpa [pebsOf] using hv
  | cons w ws ih =>
    cases i with
    | zero =>
      simp
      omega
    | succ i =>
      have := ih i
      simp only [List.set_cons_succ, List.map_cons, List.sum_cons, List.getElem?_cons_succ]
      omega

/-- A volume is found in the table. -/
theorem UbiDev.volume_congr {s' : UbiDev} {i : Nat} (h : s'.volumes = s.volumes) :
    s'.volume i = s.volume i := by
  unfold UbiDev.volume
  rw [h]

theorem Holds.pebsOf_volume_nonneg (h : Holds r s) (i : Nat) : 0 ≤ pebsOf (s.volume i) := by
  unfold UbiDev.volume
  cases hi : s.volumes[i]? with
  | none => exact le_rfl
  | some v => exact h.volumes v (List.mem_of_getElem? hi)

/-- No volume has a negative number of PEBs. -/
theorem Holds.volume_nonneg (h : Holds r s) {i : Nat} {vol : Volume} (hv : s.volume i = some vol) :
    0 ≤ vol.reservedPebs := by
  have := h.pebsOf_volume_nonneg i
  rwa [hv] at this

/-- PEBs go from a volume to what is pending, or back. -/
theorem Holds.setVolume (h : Holds r s) {r' : Int} {v : Option Volume} (i : Nat)
    (hv : 0 ≤ pebsOf v) (hle : pebsOf v + r' ≤ pebsOf (s.volume i) + r) :
    Holds r' (s.setVolume i v) := by
  have hsum : (s.setVolume i v).volumePebs ≤ s.volumePebs - pebsOf (s.volume i) + pebsOf v :=
    sum_set_le s.volumes i v hv
  refine ⟨h.avail, fun w hw => ?_, ?_⟩
  · rcases List.mem_or_eq_of_mem_set hw with hw | rfl
    · exact h.volumes w hw
    · exact hv
  · have := h.within
    show s.availPebs + (s.setVolume i v).volumePebs + r' + _ + _ + s.bebRsvdPebs ≤
      s.managed + s.handedBack
    omega

/-- PEBs go from what is available to what is pending, or back. -/
theorem Holds.reserve (h : Holds r s) (pebs : Int) (havail : pebs ≤ s.availPebs) :
    Holds (r + pebs) (s.reserve pebs) := by
  refine ⟨?_, h.volumes, ?_⟩
  · show 0 ≤ s.availPebs - pebs
    omega
  · have := h.within
    show s.availPebs - pebs + s.volumePebs + (r + pebs) + _ + _ + s.bebRsvdPebs ≤
      s.managed + s.handedBack
    omega

/-- PEBs that are counted twice raise the bound. -/
theorem Holds.handBack (h : Holds r s) (pebs : Int) : Holds (r + pebs) (s.handBack pebs) := by
  refine ⟨h.avail, h.volumes, ?_⟩
  have := h.within
  show s.availPebs + s.volumePebs + (r + pebs) + _ + _ + s.bebRsvdPebs ≤
    s.managed + (s.handedBack + pebs)
  omega

/-- Other counters, of which the available PEBs and those in reserve are together no more. -/
theorem Holds.count (h : Holds r s) {p : Pebs} (havail : 0 ≤ p.availPebs)
    (hle : p.availPebs + p.bebRsvdPebs - p.managed ≤ s.availPebs + s.bebRsvdPebs - s.managed) :
    Holds r { s with toPebs := p } := by
  refine ⟨havail, h.volumes, ?_⟩
  have := h.within
  show p.availPebs + s.volumePebs + r + _ + _ + p.bebRsvdPebs ≤ p.managed + s.handedBack
  omega

/-- The pool of PEBs for bad ones is filled from what is available. -/
theorem Holds.topUp (h : Holds r s) (need : Int) : Holds r (s.topUp need) := by
  have havail := h.avail
  unfold UbiDev.topUp Pebs.topUp
  split
  · refine h.count ?_ ?_
    · show 0 ≤ s.availPebs - if s.availPebs ≥ need then need else s.availPebs
      split
      · omega
      · omega
    · show s.availPebs - _ + (s.bebRsvdPebs + _) - s.managed ≤ _
      omega
  · exact h

/-- A PEB that goes bad was in the reserve. -/
theorem Holds.eraseStep (h : Holds r s) (e : EraseStep) : Holds r (s.eraseStep e) := by
  cases e with
  | reserve =>
    have ht := h.topUp (s.bebRsvdLevel - s.bebRsvdPebs + 1)
    unfold UbiDev.eraseStep Pebs.eraseStep
    dsimp only
    split
    · exact ht
    · exact ⟨ht.avail, ht.volumes, ht.within⟩
  | markBad =>
    unfold UbiDev.eraseStep Pebs.eraseStep
    dsimp only
    split
    · exact h
    · refine h.count h.avail ?_
      show s.availPebs + (s.bebRsvdPebs - 1) - (s.managed - 1) ≤ _
      omega

end Moves

/-! ## Programs -/

/-- All states that are observed are covered, but for what a re-size has given back. -/
def Guards {α : Type} (x : U α) (Q : α → UbiDev → Prop) (E : UbiDev → Prop) (s : UbiDev) : Prop :=
  wp (fun _ => True) (fun s => s.CoveredBut s.handedBack) x Q (fun _ => E) s

section Programs

variable {α β : Type} {r : Int} {s : UbiDev}

/-- Steps in a row; what is reported on the way is reported once. -/
theorem Guards.bind {x : U α} {f : α → U β} {Q : α → UbiDev → Prop} {R : β → UbiDev → Prop}
    {E : UbiDev → Prop} (hx : Guards x Q E s) (hf : ∀ a s', Q a s' → Guards (f a) R E s') :
    Guards (x >>= f) R E s := wp_bind.mpr (wp_mono hx hf fun _ _ h => h)

theorem Guards.getState {f : UbiDev → U β} {R : β → UbiDev → Prop} {E : UbiDev → Prop}
    (hf : Guards (f s) R E s) : Guards (getState >>= f) R E s :=
  wp_bind.mpr (wp_getState.mpr hf)

theorem Guards.modify {f : UbiDev → UbiDev} {g : Unit → U β} {R : β → UbiDev → Prop}
    {E : UbiDev → Prop} (hg : Guards (g ()) R E (f s)) : Guards (modifyState f >>= g) R E s :=
  wp_bind.mpr (wp_modifyState.mpr hg)

/-- A point at which the lock is free: all is covered there. -/
theorem Guards.observe {g : Unit → U β} {R : β → UbiDev → Prop} {E : UbiDev → Prop}
    (hs : s.CoveredBut s.handedBack) (hg : Guards (g ()) R E s) : Guards (emit s >>= g) R E s :=
  wp_bind.mpr (wp_emit.mpr fun _ => ⟨hs, hg⟩)

theorem Guards.ite {p : Prop} [Decidable p] {x y : U α} {Q : α → UbiDev → Prop} {E : UbiDev → Prop}
    (hx : p → Guards x Q E s) (hy : ¬p → Guards y Q E s) : Guards (if p then x else y) Q E s :=
  wp_ite.mpr ⟨hx, hy⟩

/-- A guard at which the program may stop. -/
theorem Guards.stopIf {p : Prop} [Decidable p] {e : Errno} {f : Unit → U β}
    {R : β → UbiDev → Prop} {E : UbiDev → Prop} (hE : E s) (hf : ¬p → Guards (f ()) R E s) :
    Guards (if p then stop e >>= f else f ()) R E s :=
  Guards.ite (fun _ => hE) hf

/-- A call that may fail leaves the sums alone. -/
theorem Guards.mayFail {E : UbiDev → Prop} {Q : Unit → UbiDev → Prop}
    (hQ : ∀ n, Q () { s with calls := n }) (hE : ∀ n, E { s with calls := n }) :
    Guards mayFail Q E s := by
  unfold Ubi.mayFail Guards
  simp only [wp_bind, wp_getState, wp_modifyState]
  cases s.faults s.calls with
  | none => exact hQ _
  | some e => exact hE _

/-- So does the counter of such calls. -/
theorem Holds.called (h : Holds r s) (n : Nat) : Holds r { s with calls := n } :=
  ⟨h.avail, h.volumes, h.within⟩

theorem mayFail_spec (h : Holds r s) :
    Guards mayFail (fun _ s' => Holds r s' ∧ s'.volumes = s.volumes) (Holds r) s :=
  Guards.mayFail (fun n => ⟨h.called n, rfl⟩) h.called

/-- Erase workers run at any point at which the lock is free. -/
theorem eraseSteps_spec (hr : 0 ≤ r) (es : List EraseStep) (vols : List (Option Volume)) (E : UbiDev → Prop) :
    ∀ s, Holds r s → s.volumes = vols →
      Guards (eraseSteps es) (fun _ s' => Holds r s' ∧ s'.volumes = vols) E s := by
  induction es with
  | nil => exact fun s h hvols => ⟨h, hvols⟩
  | cons e es ih =>
    intro s h hvols
    have he := h.eraseStep e
    refine Guards.modify (Guards.getState (Guards.observe (he.covered hr) ?_))
    exact ih _ he hvols

/-- The lock is given back and taken again. -/
theorem unlocked_spec (hr : 0 ≤ r) (h : Holds r s) (E : UbiDev → Prop) :
    Guards unlocked (fun _ s' => Holds r s' ∧ s'.volumes = s.volumes) E s := by
  refine Guards.getState (Guards.observe (h.covered hr) (Guards.modify ?_))
  exact eraseSteps_spec hr _ s.volumes E _ ⟨h.avail, h.volumes, h.within⟩ rfl

/-- Whatever fails is caught. -/
theorem Guards.attempt {x : U α} {R E : UbiDev → Prop} (h : Guards x (fun _ => R) R s) :
    Guards (attempt (fun _ => true) x) (fun _ => R) E s := by
  unfold Guards
  rw [wp_attempt]
  exact wp_mono h (fun _ _ hR => hR) fun _ _ hR => hR

/-- The rest of an operation, between two free locks, may fail. -/
theorem attempt_spec {vols : List (Option Volume)} {E : UbiDev → Prop}
    (h : Holds r s ∧ s.volumes = vols) :
    Guards (Prog.attempt (fun _ => true) Ubi.mayFail)
      (fun _ s' => Holds r s' ∧ s'.volumes = vols) E s :=
  Guards.attempt (Guards.mayFail (fun n => ⟨h.1.called n, h.2⟩) fun n => ⟨h.1.called n, h.2⟩)

/-- The end of an operation. -/
theorem unlocked_last (h : Holds 0 s) (E : UbiDev → Prop) :
    Guards unlocked (fun _ => Holds 0) E s :=
  wp_mono (unlocked_spec le_rfl h E) (fun _ _ h => h.1) fun _ _ h => h

/-- The end of an operation that failed. -/
theorem unlocked_stop (h : Holds 0 s) (e : Errno) (Q : α → UbiDev → Prop) :
    Guards (unlocked >>= fun _ => stop e) Q (Holds 0) s :=
  Guards.bind (unlocked_last h _) fun _ _ h => h

/-- Creating a volume, with any error on the way. -/
theorem createVolume_spec (c : UbiInfo) (req : MkvolReq) (pebs : Int) (hpebs : 0 ≤ pebs)
    (h : Holds 0 s) : Guards (createVolume c req pebs) (fun _ => Holds 0) (Holds 0) s := by
  unfold createVolume
  refine Guards.bind (mayFail_spec h) fun _ s₁ ⟨h, _⟩ => ?_
  refine Guards.getState ?_
  cases s₁.vacant c req with
  | none => exact h
  | some volId =>
    refine Guards.stopIf h fun hvol => ?_
    refine Guards.stopIf h fun _ => ?_
    refine Guards.stopIf h fun havail => ?_
    have h := h.reserve _ (not_lt.mp havail)
    rw [zero_add] at h
    refine Guards.modify (Guards.bind (unlocked_spec hpebs h _) fun _ s₂ h => ?_)
    refine Guards.bind (attempt_spec h) fun res s₃ ⟨h, hvols⟩ => ?_
    cases res with
    | ok _ =>
      have hnone : s₃.volume volId = none := by
        rw [UbiDev.volume_congr (s := s₁) hvols]
        exact Option.not_isSome_iff_eq_none.mp hvol
      refine Guards.modify (unlocked_last (h.setVolume volId ?_ ?_) _)
      · exact hpebs
      · rw [hnone]
        show pebs + 0 ≤ 0 + pebs
        omega
    | error e =>
      refine Guards.modify (unlocked_stop ?_ e _)
      have havail := h.avail
      have := h.reserve (-pebs) (by omega)
      rwa [add_neg_cancel] at this

/-- Removing a volume. -/
theorem ubiRemoveVolume_spec (volId : Nat) (h : Holds 0 s) :
    Guards (ubiRemoveVolume volId) (fun _ => Holds 0) (Holds 0) s := by
  unfold ubiRemoveVolume
  refine Guards.bind (mayFail_spec h) fun _ s₁ ⟨h, _⟩ => ?_
  refine Guards.getState ?_
  cases hvol : s₁.volume volId with
  | none => exact h
  | some vol =>
    have hvol₀ : 0 ≤ vol.reservedPebs := h.volume_nonneg hvol
    have hle : pebsOf none + vol.reservedPebs ≤ pebsOf (s₁.volume volId) + 0 := by
      rw [hvol]
      show 0 + vol.reservedPebs ≤ vol.reservedPebs + 0
      omega
    have h := h.setVolume volId le_rfl hle
    refine Guards.modify (Guards.bind (unlocked_spec hvol₀ h _) fun _ s₂ h => ?_)
    refine Guards.bind (attempt_spec h) fun res s₃ ⟨h, hvols⟩ => ?_
    have havail := h.avail
    cases res with
    | ok _ =>
      have h := h.reserve (-vol.reservedPebs) (by omega)
      rw [add_neg_cancel] at h
      exact Guards.modify (Guards.modify (unlocked_last (h.topUp _) _))
    | error e =>
      refine Guards.modify (unlocked_stop (h.setVolume volId ?_ ?_) e _)
      · exact hvol₀
      · show vol.reservedPebs + 0 ≤ pebsOf (s₃.volume volId) + vol.reservedPebs
        have := h.pebsOf_volume_nonneg volId
        omega

/-- Resizing a volume, in either direction. -/
theorem ubiResizeVolume_spec (volId : Nat) (reservedPebs : Int) (hpebs : 0 ≤ reservedPebs)
    (h : Holds 0 s) :
    Guards (ubiResizeVolume volId reservedPebs) (fun _ => Holds 0) (Holds 0) s := by
  unfold ubiResizeVolume
  refine Guards.bind (mayFail_spec h) fun _ s₁ ⟨h, _⟩ => ?_
  refine Guards.getState ?_
  cases hvol : s₁.volume volId with
  | none => exact h
  | some vol =>
    refine Guards.stopIf h fun _ => ?_
    refine Guards.ite (fun _ => h) fun hne => ?_
    refine Guards.bind (mayFail_spec h) fun _ s₂ ⟨h, hvols₂⟩ => ?_
    by_cases hgrow : reservedPebs - vol.reservedPebs > 0
    · simp only [hgrow, if_true]
      refine Guards.getState (Guards.stopIf h fun havail => ?_)
      have h := h.reserve _ (not_lt.mp havail)
      rw [zero_add] at h
      refine Guards.modify (Guards.bind (unlocked_spec hgrow.le h _) fun _ s₃ h => ?_)
      refine Guards.bind (attempt_spec h) fun res s₄ ⟨h, hvols⟩ => ?_
      cases res with
      | ok _ =>
        refine Guards.ite (fun hneg => absurd hneg (by omega)) fun _ => ?_
        refine Guards.modify (unlocked_last (h.setVolume volId ?_ ?_) _)
        · exact hpebs
        · rw [UbiDev.volume_congr (hvols.trans hvols₂), hvol]
          show reservedPebs + 0 ≤ vol.reservedPebs + (reservedPebs - vol.reservedPebs)
          omega
      | error e =>
        refine Guards.modify (unlocked_stop ?_ e _)
        have havail := h.avail
        have := h.reserve (-(reservedPebs - vol.reservedPebs)) (by omega)
        rwa [add_neg_cancel] at this
    · simp only [hgrow, if_false]
      refine Guards.bind (unlocked_spec le_rfl h _) fun _ s₃ h => ?_
      refine Guards.bind (attempt_spec h) fun res s₄ ⟨h, hvols⟩ => ?_
      have hvol₄ := (UbiDev.volume_congr (i := volId) (hvols.trans hvols₂)).trans hvol
      cases res with
      | ok _ =>
        have havail := h.avail
        refine Guards.ite (fun hneg => ?_) fun hneg => absurd hneg (by omega)
        have h := (h.reserve (reservedPebs - vol.reservedPebs) (by omega)).topUp
          ((s₄.reserve (reservedPebs - vol.reservedPebs)).bebRsvdLevel -
            (s₄.reserve (reservedPebs - vol.reservedPebs)).bebRsvdPebs)
        -- until the volume is changed, what is given back is counted twice
        have h := h.handBack (-(reservedPebs - vol.reservedPebs))
        rw [zero_add, add_neg_cancel] at h
        refine Guards.modify (Guards.modify (Guards.modify
          (Guards.bind (unlocked_spec le_rfl h _) fun _ s₅ ⟨h, hvols₅⟩ => ?_)))
        have hvol₅ : s₅.volume volId = some vol :=
          (UbiDev.volume_congr hvols₅).trans hvol₄
        have h := h.handBack (reservedPebs - vol.reservedPebs)
        refine Guards.modify (Guards.modify (unlocked_last (h.setVolume volId ?_ ?_) _))
        · exact hpebs
        · show reservedPebs + 0 ≤ pebsOf (s₅.volume volId) + (0 + (reservedPebs - vol.reservedPebs))
          rw [hvol₅]
          show reservedPebs + 0 ≤ vol.reservedPebs + (0 + (reservedPebs - vol.reservedPebs))
          omega
      | error e => exact unlocked_stop h e _

end Programs

/-! ## Attaching -/

section Attaching

variable {c : UbiInfo} {si : ScanInfo} {s : UbiDev}

/-- The volumes found so far, before anything else is reserved. -/
structure Found (si : ScanInfo) (s : UbiDev) : Prop where
  good : s.goodPebCount = si.pebCount - si.badPebCount
  corr : s.corrPebCount = si.corrPebCount
  fresh : s.bebRsvdPebs = 0 ∧ s.handedBack = 0
  volumes : ∀ v ∈ s.volumes, 0 ≤ pebsOf v

theorem Found.called (h : Found si s) (n : Nat) : Found si { s with calls := n } :=
  ⟨h.good, h.corr, h.fresh, h.volumes⟩

/-- A volume of the table is added to those that were found. -/
theorem Found.append (h : Found si s) {v : Option Volume} (hv : 0 ≤ pebsOf v) :
    Found si { s with volumes := s.volumes ++ [v] } := by
  refine ⟨h.good, h.corr, h.fresh, fun w hw => ?_⟩
  rcases List.mem_append.mp hw with hw | hw
  · exact h.volumes w hw
  · rwa [List.mem_singleton.mp hw]

end Attaching

/-! ## Runs -/

/-- The number of PEBs that is asked for is not negative as an `int`. -/
def VolOp.NotNegative (c : UbiInfo) : VolOp → Prop
  | create req => 0 ≤ req.pebs c
  | remove _ => True
  | resize _ reservedPebs => 0 ≤ reservedPebs

/-- One operation of a user. -/
theorem op_spec (c : UbiInfo) (op : VolOp) (hop : op.NotNegative c) {s : UbiDev} (h : Holds 0 s) :
    Guards (op.run c) (fun _ => Holds 0) (Holds 0) s := by
  cases op with
  | create req => exact createVolume_spec c req _ hop h
  | remove volId => exact ubiRemoveVolume_spec volId h
  | resize volId reservedPebs => exact ubiResizeVolume_spec volId reservedPebs hop h

/-- A volume of four LEBs. -/
def fourLebs : VolOp := .create ⟨none, 507904, 1, .dynamic, [97]⟩

end Ubi
