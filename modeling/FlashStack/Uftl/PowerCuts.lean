/-
  Power cuts.

  The power may be cut anywhere: between two requests, inside one, in the middle of a page, or while the
  driver mounts what an earlier cut has left (`Powered`).  What is on flash is a chain of blocks then as
  before, so that the next mount comes through, and what was synced is read (`power_cuts_lose_nothing`).

  Three things must not happen, since the driver does not cope with them: that a log page is torn, that
  a page is programmed after a mount that found the last block full but without its log page, and that the
  power is cut when the numbers of the blocks have reached `INT_MAX`.  The first is excluded by `Served`,
  the second by `Kept`, the third by `Numbered`.
-/
import FlashStack.Uftl.Remount

namespace Uftl

open Lib Lib.Prog

/-! ## Runs with power cuts -/

/-- A page is programmed. -/
def Event.isProgram : Event → Bool
  | .program .. => true
  | _ => false

/-- What happens in a session; `full` says what the mount found. -/
def Kept (full : Bool) (x : Event) : Prop := Served x ∧ (full = true → x.isProgram = false)

instance (full : Bool) : DecidablePred (Kept full) := fun _ => inferInstanceAs (Decidable (_ ∧ _))

theorem calm_kept (full : Bool) : Calm (Kept full) :=
  ⟨fun hx => hx.1.1, fun _ hx => hx.1.1, fun hx => absurd hx.1 not_served_noFreeBlock⟩

theorem not_kept_noFreeBlock {full : Bool} {P : Prop} (h : Kept full .noFreeBlock) : P :=
  absurd h.1 not_served_noFreeBlock

theorem kept_full {full : Bool} (h : full = true) (b p : Nat) : ¬Kept full (.program b p) := by
  intro hx
  cases hx.2 h

/-- The power is off.  It was cut after an answer, inside a request, or inside a mount. -/
inductive Powered (fip : UftlInfo) (cap : Nat) : State → Prop
  | erased {s} : s.vol.Erased fip → s.journal = [] → Powered fip cap s
  | mount {s s₁ s₂ t} : Powered fip cap s → Boot s s₁ →
      ftlCoreIoInit fip cap s₁ = .stop .powerCut s₂ t → (∀ x ∈ t, Served x) → Powered fip cap s₂
  | idle {s s₁ s₂ s₃ t h} : Powered fip cap s → Boot s s₁ →
      ftlCoreIoInit fip cap s₁ = .ok () s₂ t → (∀ x ∈ t, Served x) →
      Session fip (Kept (s₂.full fip)) fip.virtualSectorNum s₂ h s₃ → Numbered s₃ →
      Powered fip cap s₃
  | request {s s₁ s₂ s₃ s₄ t t' h} {r : Request} : Powered fip cap s → Boot s s₁ →
      ftlCoreIoInit fip cap s₁ = .ok () s₂ t → (∀ x ∈ t, Served x) →
      Session fip (Kept (s₂.full fip)) fip.virtualSectorNum s₂ h s₃ →
      r.Inside fip fip.virtualSectorNum → r.serve fip s₃ = .stop .powerCut s₄ t' →
      (∀ x ∈ t', Kept (s₂.full fip) x) → Numbered s₄ → Powered fip cap s₄

variable {fip : UftlInfo} {cap : Nat} {s s₁ s' : State}

/-! ## What is on flash -/

/-- A mount, of whatever a power cut has left. -/
theorem mount_spec {D : Nat → Option (Nat → Sector)} (hwf : fip.Wf) (hboot : Boot s s₁)
    (htr : Tracked fip fip.virtualSectorNum s.journal D) (hdisk : Disk fip True intMax s.vol D) :
    wp Served Fed (ftlCoreIoInit fip cap)
      (fun _ s₂ => Mounted fip True (s₂.full fip = true) fip.virtualSectorNum s₂ D ∧
        FreePool s₂.pool ∧ s₂.fullState = fullStateOf fip ∧ s₂.journal = s.journal ∧
        s₂.ftl.emptyBlockFifo.cap = cap)
      (MountCut fip D s₁) s₁ := by
  obtain ⟨⟨b, k, i, hi, hch⟩, hD⟩ := hdisk.reattached hboot.flash
  have hfed : ∀ {P : Prop}, Served .noFreeBlock → P := fun hx => absurd hx not_served_noFreeBlock
  refine wp_mono (ftlCoreIoInit_spec (s := s₁) hwf calm_served hboot.booted hch hi hD
    fun hx => hfed hx) ?_ fun _ _ he => he
  intro _ s₂ h
  have hjournal : s₂.journal = s.journal := h.journal.trans hboot.journal
  exact ⟨h.mounted (hboot.journal ▸ htr) h.ready.full, h.pool, h.fullState, hjournal, h.cap⟩

/-- A session that begins with a mount. -/
theorem Session.kept {D : Nat → Option (Nat → Sector)} {h : List (Request × Option Sector)} {full : Bool}
    (hwf : fip.Wf) (hm : Mounted fip True (full = true) fip.virtualSectorNum s D)
    (hs : Session fip (Kept full) fip.virtualSectorNum s h s') :
    ∃ D', Advance fip True (Kept full) (full = true) fip.virtualSectorNum (effects fip h) s D s' D' :=
  hs.advance hwf (calm_kept full) (fun hf b p => kept_full hf b p) (Nat.le_refl _) hm
    fun hx => not_kept_noFreeBlock hx

/-- **What was synced is on flash** whenever the power is off. -/
theorem Powered.disk (hwf : fip.Wf) (h : Powered fip cap s) :
    ∃ D, Tracked fip fip.virtualSectorNum s.journal D ∧ Disk fip True intMax s.vol D := by
  induction h with
  | erased herased hjournal =>
    refine ⟨fun _ => none, hjournal ▸ ⟨fun _ _ => rfl, fun _ _ _ => rfl⟩,
      (herased.disk hwf).mono (by decide)⟩
  | mount _ hboot hrun ht ih =>
    obtain ⟨D, htr, hdisk⟩ := ih
    obtain ⟨⟨-, -, hdisk', hjournal⟩, -⟩ := wp_stopped (mount_spec hwf hboot htr hdisk) hrun ht
    exact ⟨D, by rw [hjournal, hboot.journal]; exact htr, hdisk'⟩
  | idle _ hboot hrun ht hs hid ih =>
    obtain ⟨D, htr, hdisk⟩ := ih
    obtain ⟨⟨hm, -⟩, -⟩ := wp_ok (mount_spec hwf hboot htr hdisk) hrun ht
    obtain ⟨D', ha⟩ := hs.kept hwf hm
    exact ⟨D', ha.mounted.tracked, ha.mounted.ready.disk.mono hid.le⟩
  | request _ hboot hrun ht hs hin hcut ht' hid ih =>
    obtain ⟨D, htr, hdisk⟩ := ih
    obtain ⟨⟨hm, -⟩, -⟩ := wp_ok (mount_spec hwf hboot htr hdisk) hrun ht
    obtain ⟨D', ha⟩ := hs.kept hwf hm
    obtain ⟨⟨D'', htr', hend⟩, -⟩ := wp_stopped (serve_spec hwf (calm_kept _)
      (fun hf b p => kept_full hf b p) (Nat.le_refl _) ha.mounted ha.supplied hin) hcut ht'
    rcases hend with ⟨-, -, hdisk'⟩ | ⟨hbug, -⟩
    · exact ⟨D'', htr', hdisk'.mono hid.le⟩
    · cases hbug

/-! ## Reading it back -/

/-- What the requests of a session leave of the contents there were before. -/
theorem effects_or (C : Contents) (h : List (Request × Option Sector)) (sector : Nat) :
    effects fip h C (sector / fip.pageSectorNum) (sector % fip.pageSectorNum) =
      (lastWrite h sector).or (C (sector / fip.pageSectorNum) (sector % fip.pageSectorNum)) := by
  induction h with
  | nil => rfl
  | cons x h ih =>
    obtain ⟨r, a⟩ := x
    cases r with
    | write k d =>
      change (effects fip h C).write _ _ d _ _ =
        (if k = sector then some d else lastWrite h sector).or _
      by_cases hk : k = sector
      · rw [if_pos hk, hk, Contents.write, Function.update_self, Function.update_self]
        rfl
      · rw [if_neg hk, ← ih, Contents.write]
        by_cases hv : sector / fip.pageSectorNum = k / fip.pageSectorNum
        · rw [← hv, Function.update_self, Function.update_of_ne]
          intro hmod
          have hsector := Nat.div_add_mod sector fip.pageSectorNum
          have hwritten := Nat.div_add_mod k fip.pageSectorNum
          rw [← hv, ← hmod] at hwritten
          exact hk (hwritten.symm.trans hsector)
        · rw [Function.update_of_ne hv]
    | read k => exact ih
    | queueFlush => exact ih
    | allFlush => exact ih

/-- The contents of the pages on flash. -/
def onFlash (D : Nat → Option (Nat → Sector)) : Contents := fun v k => (D v).map (· k)

/-- After the mount no buffer is in use. -/
theorem Caches.mounted {D : Nat → Option (Nat → Sector)} (hbits : fip.pageSectorNum ≤ 31)
    (hfull : s.fullState = fullStateOf fip) (hpool : FreePool s.pool) :
    Caches fip (onFlash D) s D where
  bits := hbits
  full := hfull
  unique i _ v hi _ hs _ := by
    have hfree : (v : Int) = -1 := hs.symm.trans (hpool i hi).1
    omega
  buffered i v _ _ hi hs _ _ := by
    have hfree : (v : Int) = -1 := hs.symm.trans (hpool i hi).1
    omega
  flash v k x _ _ hx := Option.map_eq_some_iff.mp hx

/-- Every read of a session returned the last data written before, or else what was on flash. -/
theorem Session.reads {D : Nat → Option (Nat → Sector)} {h rest : List (Request × Option Sector)}
    {full : Bool} {C : Contents} (hwf : fip.Wf)
    (hm : Mounted fip True (full = true) fip.virtualSectorNum s D) (hc : Caches fip C s D)
    (hs : Session fip (Kept full) fip.virtualSectorNum s h s') {k : Nat} {x : Option Sector}
    (hsuf : (Request.read k, x) :: rest <:+ h) {d : Sector}
    (hd : (lastWrite rest k).or (C (k / fip.pageSectorNum) (k % fip.pageSectorNum)) = some d) :
    x = some d := by
  induction hs with
  | start => exact absurd hsuf.length_le (by simp)
  | @serve h s₁ s₂ t y r hs₁ hin hrun ht ih =>
    rcases List.suffix_cons_iff.mp hsuf with heq | hsuf
    · obtain ⟨D₁, ha⟩ := hs₁.kept hwf hm
      obtain ⟨⟨-, hret⟩, -⟩ := wp_ok (serve_spec hwf (calm_kept full)
        (fun hf b p => kept_full hf b p) (Nat.le_refl _) ha.mounted ha.supplied hin) hrun ht
      obtain ⟨hrx, rfl⟩ := List.cons.inj heq
      obtain ⟨rfl, rfl⟩ := Prod.mk.inj hrx
      exact hret k rfl _ (ha.caches C hc) d ((effects_or C rest k).trans hd)
    · exact ih hsuf
  | refuse _ _ _ _ ih => exact ih hsuf

/-- **What was synced is read after any number of power cuts**, unless it was written again since.  A
    mount can only end early if the power is cut again. -/
theorem power_cuts_lose_nothing (hwf : fip.Wf) (hbits : fip.pageSectorNum ≤ 31)
    (h : Powered fip cap s) (hboot : Boot s s₁) :
    (∀ s₂ t h s₃, ftlCoreIoInit fip cap s₁ = .ok () s₂ t → (∀ x ∈ t, Served x) →
      Session fip (Kept (s₂.full fip)) fip.virtualSectorNum s₂ h s₃ →
      ∃ D : Nat → Option (Nat → Sector),
        (∀ v, v < fip.virtualSectorNum → Allowed s.journal v (D v)) ∧
        ∀ k x rest, (Request.read k, x) :: rest <:+ h → ∀ d,
          (lastWrite rest k).or (onFlash D (k / fip.pageSectorNum) (k % fip.pageSectorNum)) = some d →
          x = some d) ∧
    ∀ e s₂ t, ftlCoreIoInit fip cap s₁ = .stop e s₂ t → (∀ x ∈ t, Served x) →
      e = .powerCut ∧ s₁.mayCut := by
  obtain ⟨D, htr, hdisk⟩ := h.disk hwf
  have hspec : wp Served Fed (ftlCoreIoInit fip cap) _ _ s₁ := mount_spec hwf hboot htr hdisk
  constructor
  · intro s₂ t h s₃ hrun ht hs
    obtain ⟨⟨hm, hpool, hfull, -⟩, -⟩ := wp_ok hspec hrun ht
    refine ⟨D, htr.allowed, ?_⟩
    intro k x rest hsuf d hd
    exact hs.reads hwf hm (.mounted hbits hfull hpool) hsuf hd
  · intro e s₂ t hrun ht
    obtain ⟨⟨hcut, hmay, -⟩, -⟩ := wp_stopped hspec hrun ht
    exact ⟨hcut, hmay⟩

/-! ## The tables -/

/-- What `sector_index`, the page states and the fifo have to do with each other. -/
structure Ftl.Sound (fip : UftlInfo) (f : Ftl) : Prop where
  mapped : ∀ v, v < fip.virtualSectorNum → f.sectorIndex v = ftlNomap ∨
    ∃ b p, b < fip.lebNum ∧ p < fip.ftlPageNum ∧ f.sectorIndex v = fip.pageIndex b p
  injective : ∀ v w, v < fip.virtualSectorNum → w < fip.virtualSectorNum →
    f.sectorIndex v = f.sectorIndex w → f.sectorIndex v = ftlNomap ∨ v = w
  inUse : ∀ b p, b < fip.lebNum → p < fip.ftlPageNum →
    (f.pageState b p = .pageUsing ↔
      ∃ v, v < fip.virtualSectorNum ∧ f.sectorIndex v = fip.pageIndex b p)
  count : ∀ b, b < fip.lebNum → f.usingPage b = f.countUsing fip b
  nodup : f.emptyBlockFifo.items.Nodup
  fifo : ∀ b ∈ f.emptyBlockFifo.items, b < fip.lebNum ∧ (b : Int) ≠ f.curOffset.block ∧
    ∀ p, p < fip.ftlPageNum → f.pageState b p = .pageEmpty
  cover : ∀ b, b < fip.lebNum → b ∈ f.emptyBlockFifo.items ∨ (b : Int) = f.curOffset.block ∨
    ∀ p, p < fip.ftlPageNum → f.pageState b p ≠ .pageEmpty

/-- Tables that agree with the volume are sound. -/
theorem Books.sound {D : Nat → Option (Nat → Sector)} (h : Books fip noOrphan s.ftl s.vol D) :
    s.ftl.Sound fip := by
  have hmapped : ∀ v, v < fip.virtualSectorNum → s.ftl.sectorIndex v = ftlNomap ∨
      ∃ b p, b < fip.lebNum ∧ p < fip.ftlPageNum ∧ s.ftl.sectorIndex v = fip.pageIndex b p := by
    intro v hv
    have hheld := h.held v hv
    cases hD : D v with
    | none =>
      rw [hD] at hheld
      exact .inl hheld
    | some d =>
      rw [hD] at hheld
      obtain ⟨b, p, pg, hidx, hb, hp, -⟩ := hheld
      exact .inr ⟨b, p, hb, hp, hidx⟩
  refine ⟨hmapped, ?_, ?_, h.count, h.nodup, h.fifo, h.cover⟩
  · intro v w hv hw heq
    rcases hmapped v hv with hno | ⟨b, p, hb, hp, hidx⟩
    · exact .inl hno
    · exact .inr (h.injective hv hw hp hidx (heq ▸ hidx))
  · intro b p hb hp
    exact (h.inUse b p hb hp).trans (or_iff_left id)

/-- **The tables agree with each other and with the fifo** between any two requests, after any number of
    power cuts. -/
theorem tables_sound {s₂ s₃ : State} {t : List Event} {h : List (Request × Option Sector)}
    (hwf : fip.Wf) (hcap : fip.lebNum ≤ cap) (hp : Powered fip cap s) (hboot : Boot s s₁)
    (hrun : ftlCoreIoInit fip cap s₁ = .ok () s₂ t) (ht : ∀ x ∈ t, Served x)
    (hs : Session fip (Kept (s₂.full fip)) fip.virtualSectorNum s₂ h s₃) : s₃.ftl.Sound fip := by
  obtain ⟨D, htr, hdisk⟩ := hp.disk hwf
  obtain ⟨⟨hm, -, -, -, hcap₂⟩, -⟩ := wp_ok (mount_spec hwf hboot htr hdisk) hrun ht
  obtain ⟨D', ha⟩ := hs.kept hwf hm
  obtain ⟨b, k, hinv, -, hpos⟩ := ha.mounted.ready
  have hlen : fip.lebNum ≤ s₃.ftl.emptyBlockFifo.cap := by
    rw [ha.frame.cap, hcap₂]
    exact hcap
  exact (hinv.books hpos hlen).sound

/-! ## A torn page -/

/-- The power is cut in the middle of a page. -/
def cutScript (n : Nat) : Fault := if n = 11 then .cut true else .ok

/-- Sector 0 has been synced, sector 1 not. -/
def tornPage (s : State) : Bool :=
  match s.journal with
  | [r₁, r₀] => decide (r₁.sector = 1 ∧ r₁.returned = false ∧ r₀.sector = 0 ∧ r₀.returned = true ∧
      (r₀.data 0).toList = sampleSector.toList)
  | _ => false

theorem tornPage_allowed {s : State} {x : Option (Nat → Sector)} (h : tornPage s = true)
    (hallowed : Allowed s.journal 0 x) : x.map (· 0) = some sampleSector := by
  unfold tornPage at h
  split at h
  · rename_i r₁ r₀ hjournal
    obtain ⟨hsector₁, -, hsector₀, hreturned, hdata⟩ := of_decide_eq_true h
    rw [hjournal, Allowed, Allowed, if_neg (by omega), if_pos (by omega)] at hallowed
    rcases hallowed with rfl | ⟨hno, -⟩
    · exact congrArg some (Vector.toList_inj.mp hdata)
    · rw [hreturned] at hno
      cases hno
  · cases h

/-- The next mount, and a read of sector 0. -/
theorem torn_run :
    ∃ s s₂ t s₃ x, Powered threeBlocks 4 s ∧ tornPage s = true ∧
      ftlCoreIoInit threeBlocks 4 (restart s) = .ok () s₂ t ∧ (∀ x ∈ t, Served x) ∧
      Session threeBlocks (Kept (s₂.full threeBlocks)) threeBlocks.virtualSectorNum s₂ [(.read 0, x)] s₃ := by
  have hrun : (ftlCoreIoInit threeBlocks 4 (.cold .blank cutScript [])).okAnd (fun _ s₁ t₀ =>
      decide (∀ x ∈ t₀, Served x) &&
      (serveAll threeBlocks [.write 0 sampleSector, .allFlush, .write 1 sampleSector] s₁).okAnd
        fun _ s t => decide (∀ x ∈ t, Kept (s₁.full threeBlocks) x) &&
          (Request.allFlush.serve threeBlocks s).stopAnd fun e s t =>
            decide (e = .powerCut) && decide (∀ x ∈ t, Kept (s₁.full threeBlocks) x) && tornPage s &&
            decide (Numbered s) &&
            (ftlCoreIoInit threeBlocks 4 (restart s)).okAnd fun _ s₂ t =>
              decide (∀ x ∈ t, Served x) &&
              (Request.serve threeBlocks (.read 0) s₂).okAnd fun _ _ t =>
                decide (∀ x ∈ t, Kept (s₂.full threeBlocks) x)) = true := by decide +kernel
  obtain ⟨_, s₁, t₀, hinit, hrun⟩ := Res.okAnd_true hrun
  rw [Bool.and_eq_true, decide_eq_true_eq] at hrun
  obtain ⟨h, s, t, hserve, hrun'⟩ := Res.okAnd_true hrun.2
  rw [Bool.and_eq_true, decide_eq_true_eq] at hrun'
  obtain ⟨e, s', t', hcut, hrun''⟩ := Res.stopAnd_true hrun'.2
  simp only [Bool.and_eq_true, decide_eq_true_eq] at hrun''
  obtain ⟨⟨⟨⟨rfl, ht'⟩, htorn⟩, hid⟩, hmount⟩ := hrun''
  obtain ⟨_, s₂, t₂, hinit₂, hread⟩ := Res.okAnd_true hmount
  rw [Bool.and_eq_true, decide_eq_true_eq] at hread
  obtain ⟨x, s₃, t₃, hread₃, ht₃⟩ := Res.okAnd_true hread.2
  have hs := Session.start.serveAll hserve
    (W := threeBlocks.virtualSectorNum) (by decide) hrun'.1
  rw [List.append_nil] at hs
  have hblank : Powered threeBlocks 4 (.cold .blank cutScript []) :=
    .erased (firstBoot_cold cutScript).erased rfl
  have hboot : Boot (.cold .blank cutScript []) (.cold .blank cutScript []) :=
    ⟨⟨rfl, rfl⟩, ⟨rfl, fun _ => .inl rfl⟩, rfl⟩
  have hflush : Request.allFlush.Inside threeBlocks threeBlocks.virtualSectorNum := trivial
  have hpowered : Powered threeBlocks 4 s' :=
    .request hblank hboot hinit hrun.1 hs hflush hcut ht' hid
  have hs₂ : Session threeBlocks (Kept (s₂.full threeBlocks)) threeBlocks.virtualSectorNum s₂
      [(.read 0, x)] s₃ := Session.start.serve (by decide) hread₃ (of_decide_eq_true ht₃)
  exact ⟨s', s₂, t₂, s₃, x, hpowered, htorn, hinit₂, hread.1, hs₂⟩

/-- After the cut the page is read as it was before. -/
theorem torn_page_read :
    ∃ s s₂ s₃ x, Powered threeBlocks 4 s ∧ tornPage s = true ∧
      Session threeBlocks (Kept (s₂.full threeBlocks)) threeBlocks.virtualSectorNum s₂ [(.read 0, x)] s₃ ∧
      x = some sampleSector := by
  obtain ⟨s, s₂, t, s₃, x, hpowered, htorn, hrun, ht, hs⟩ := torn_run
  refine ⟨s, s₂, s₃, x, hpowered, htorn, hs, ?_⟩
  obtain ⟨D, hallowed, hreads⟩ := (power_cuts_lose_nothing wf_threeBlocks (by decide) hpowered
    (boot_restart s)).1 s₂ t _ s₃ hrun ht hs
  exact hreads 0 x [] List.suffix_rfl sampleSector (tornPage_allowed htorn (hallowed 0 (by decide)))

theorem torn_page_tables : ∃ s s₃ : State, Powered threeBlocks 4 s ∧ tornPage s = true ∧
    s₃.ftl.Sound threeBlocks := by
  obtain ⟨s, s₂, t, s₃, x, hpowered, htorn, hrun, ht, hs⟩ := torn_run
  exact ⟨s, s₃, hpowered, htorn, tables_sound wf_threeBlocks (by decide) hpowered (boot_restart s) hrun
    ht hs⟩

end Uftl
