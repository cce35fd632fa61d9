/-
  What mounting rebuilds, and what it costs.

  After a flush of all buffers, the next mount finds the same map, whatever unmapped LEBs read as
  (`mount_rebuilds_map`).  Two things no code checks are needed for that: a log page has room for the
  entries of a block, else the flush itself writes behind `block_log_page` (`flush_overruns`), and
  `block_id`, an `int` that only grows, has not reached `INT_MAX` (`Numbered`).

  A mount also forgets `check_count`: `sync_one_buf` looks for garbage only after more than
  `ftl_page_num` pages, so a device that is remounted more often than that never collects any, and
  runs out of blocks (`remounts_exhaust_fifo`).  With two blocks' worth of pages at each remount it
  does not, as long as `check_count` does not wrap either (`free_block_available`).
-/
import FlashStack.Uftl.ReadBack

namespace Uftl

open Lib Lib.Prog

variable {fip : UftlInfo} {cap : Nat} {R : State → Prop}

/-! ## The map -/

/-- Write each of the sectors. -/
def writes (sectors : List Nat) : List Request := sectors.map (.write · sampleSector)

/-- Write each of the sectors, and flush all buffers. -/
def flushed (sectors : List Nat) : List Request := writes sectors ++ [.allFlush]

/-- The next session starts with cold memory, on flash as it was left. -/
def restart (s : State) : State := .cold s.vol (fun _ => .ok) s.journal

/-- The device boots. -/
theorem boot_restart (s : State) : Boot s (restart s) :=
  ⟨⟨rfl, rfl⟩, ⟨rfl, fun _ => .inl rfl⟩, rfl⟩

/-- Sessions one after the other, each ended by a flush of all buffers and a clean remount.  The states
    they were shut down in are returned. -/
def cleanSessions (fip : UftlInfo) (cap : Nat) : List (List Request) → M (List State)
  | [] => pure []
  | rs :: rest => do
    let _ ← serveAll fip rs
    let _ ← ftlCoreIoAllFlush fip
    let s ← getState
    modifyState restart
    ftlCoreIoInit fip cap
    let ss ← cleanSessions fip cap rest
    pure (s :: ss)

/-- A computed run is a clean run. -/
theorem Clean.cleanSessions {A : Event → Prop} {rss : List (List Request)} {s s' : State}
    {ss : List State} {t : List Event} (hs : Clean fip cap A R s)
    (hrun : cleanSessions fip cap rss s = .ok ss s' t)
    (hin : ∀ rs ∈ rss, ∀ r ∈ rs, r.Inside fip fip.virtualSectorNum) (hR : ∀ s ∈ ss, R s)
    (ht : ∀ x ∈ t, A x) : Clean fip cap A R s' := by
  induction rss generalizing s ss t with
  | nil =>
    cases hrun
    exact hs
  | cons rs rss ih =>
    obtain ⟨h, s₁, t₁, u₁, hserve, hrun₁, rfl⟩ := bind_ok hrun
    obtain ⟨x, s₂, t₂, u₂, hflush, hrun₂, rfl⟩ := bind_ok hrun₁
    rw [getState_bind] at hrun₂
    obtain ⟨_, s₃, t₃, u₃, hboot, hrun₃, rfl⟩ := bind_ok hrun₂
    obtain ⟨_, s₄, t₄, u₄, hinit, hrun₄, rfl⟩ := bind_ok hrun₃
    obtain ⟨ss', s₅, t₅, u₅, hrest, hpure, rfl⟩ := bind_ok hrun₄
    cases hboot
    cases hpure
    simp only [List.forall_mem_append, List.forall_mem_cons] at ht hR
    obtain ⟨ht₁, ht₂, -, ht₄, ht₅, -⟩ := ht
    exact ih (.remount (.serve hs (Session.start.serveAll hserve (hin rs (List.mem_cons_self ..)) ht₁))
      hflush ht₂ hR.1 (boot_restart s₂) hinit ht₄) hrest
      (fun rs' hrs' => hin rs' (List.mem_cons_of_mem _ hrs')) hR.2 ht₅

/-- The blocks that were written so far have numbers below `INT_MAX`, so that the next one still gets
    an `int` above theirs. -/
def Numbered (s : State) : Prop := s.ftl.stamp < intMax

instance : DecidablePred Numbered := fun _ => inferInstanceAs (Decidable (_ < _))

theorem Numbered.le {s : State} (h : Numbered s) : s.ftl.stamp ≤ intMax := Int.le_of_lt h

/-- The tables of `s'` are those of a mount after the driver was shut down in `s`. -/
structure Rebuilt (fip : UftlInfo) (s s' : State) : Prop where
  /-- every virtual sector is mapped as before -/
  index : ∀ v, v < fip.virtualSectorNum → s'.ftl.sectorIndex v = s.ftl.sectorIndex v
  /-- the indexed pages are the pages in use -/
  inUse : ∀ b p, b < fip.lebNum → p < fip.ftlPageNum →
    (s'.ftl.pageState b p = .pageUsing ↔
      ∃ v, v < fip.virtualSectorNum ∧ s'.ftl.sectorIndex v = fip.pageIndex b p)
  count : ∀ b, b < fip.lebNum → s'.ftl.usingPage b = s'.ftl.countUsing fip b
  /-- the write position is behind the pages of the current block, which have the current id and
      are noted in `block_log_page`; the rest of the block is erased -/
  position : ∃ b k : Nat, s'.ftl.curOffset = ⟨b, (k : Int) - 1⟩ ∧ b < fip.lebNum ∧
    k ≤ fip.ftlPageNum ∧
    (∀ p, p < k → ∃ pg, (s'.vol.leb b).page p = .written pg ∧ pg.log.id = s'.ftl.blockId ∧
      s'.ftl.blockLogPage.entry p = pg.log.sector) ∧
    (∀ p, k ≤ p → p < fip.ftlPageNum → (s'.vol.leb b).page p = .erased) ∧
    -- the pages of the other blocks are older
    ∀ b' p pg, b' < fip.lebNum → b' ≠ b → p < fip.ftlPageNum →
      (s'.vol.leb b').page p = .written pg → pg.log.id < s'.ftl.blockId

/-- The map of the mount is the one from before. -/
theorem Mounted.rebuilt {U : Prop} {W : Nat} {s s' : State} {D : Nat → Option (Nat → Sector)}
    (h : Mounted fip True U W s' D) (hid : s'.ftl.stamp ≤ intMax)
    (hidx : ∀ v, v < fip.virtualSectorNum → s'.ftl.sectorIndex v = s.ftl.sectorIndex v) :
    Rebuilt fip s s' := by
  obtain ⟨b, k, hinv, -, hpos⟩ := h.ready
  have hblock : s'.ftl.blockId = s'.ftl.stamp :=
    hinv.id.trans (wrapInt_of_le (Int.le_of_lt hinv.stamp_pos) hid)
  refine ⟨hidx, fun b' p hb' hp => (hinv.inUse b' p hb' hp).trans (or_iff_left id),
    hinv.count, b, k, ?_, hinv.chain.lt, hinv.le, fun p hp => ?_, hinv.clean, ?_⟩
  · rw [← hinv.curBlock, ← hpos]
  · obtain ⟨pg, hpg, hg⟩ := (hinv.chain.cur (by omega)).1.head p hp
    exact ⟨pg, hpg, hg.id.trans hinv.id.symm, hinv.entries p hp pg hpg⟩
  · intro b' p pg hb' hne hp hpg
    obtain ⟨j, hg⟩ := hinv.chain.good hb' hp hpg
    have h0 := hg.sector_nonneg
    have hc : Copy fip (s'.vol.leb b') p pg.log.sector.toNat j :=
      ⟨hp, pg, hpg, by omega, hg.stamp⟩
    rcases (hinv.chain.copy hb' hc).2.2.2 with hlt | ⟨-, he, -⟩
    · rw [hblock, hg.id_eq (by omega)]
      exact hlt
    · exact absurd he hne

/-- **Mount rebuilds the map**, as long as the numbers of the blocks do not reach `INT_MAX`; and no
    request before it leaves the tables or the buffers. -/
theorem mount_rebuilds_map (hwf : fip.Wf) {s : State} (h : Clean fip cap Served Numbered s) :
    (∀ (r : Request) e s₁ t, r.Inside fip fip.virtualSectorNum → r.serve fip s = .stop e s₁ t →
      (∀ x ∈ t, Served x) → e = .powerCut ∨ e = .bug) ∧
    ∀ r s₁ t, ftlCoreIoAllFlush fip s = .ok r s₁ t → (∀ x ∈ t, Served x) → Numbered s₁ →
      ∀ s₂, Boot s₁ s₂ → (∀ n, s₂.env.faults n = .ok) →
        (∀ s₃ t', ftlCoreIoInit fip cap s₂ = .ok () s₃ t' → (∀ x ∈ t', Served x) →
          Rebuilt fip s₁ s₃) ∧
        ∀ e s₃ t', ftlCoreIoInit fip cap s₂ = .stop e s₃ t' → ¬∀ x ∈ t', Served x := by
  have hfed : ∀ {P : Prop}, Served .noFreeBlock → P := fun hx => absurd hx not_served_noFreeBlock
  obtain ⟨D, hm, -⟩ := h.mounted hwf calm_served (fun _ => Numbered.le) fun hx => hfed hx
  constructor
  · intro r e s₁ t hin hserve ht
    obtain ⟨⟨_, -, he⟩, -⟩ := wp_stopped (serve_spec hwf calm_served (fun hf => hf.elim)
      (Nat.le_refl _) hm (fun hx => hfed hx) hin) hserve ht
    exact he.imp And.left And.left
  · intro r s₁ t hflush ht hid s₂ hboot hok
    obtain ⟨⟨-, -, D', ha⟩, -⟩ := wp_ok (ftlCoreIoAllFlush_spec hwf calm_served (fun hf => hf.elim)
      (Nat.le_refl _) hm fun hx => hfed hx) hflush ht
    have hspec := @remount_spec fip Served _ _ _ _ cap hwf calm_served ha.mounted hboot hid.le
      fun hx => hfed hx
    refine ⟨fun s₃ t' hinit ht' => ?_, fun e s₃ t' hinit ht' => ?_⟩
    · obtain ⟨⟨hm', -, hidx, hstamp⟩, -⟩ := wp_ok hspec hinit ht'
      have hlt : s₁.ftl.stamp < intMax := hid
      exact hm'.rebuilt (by omega) hidx
    · obtain ⟨⟨-, ⟨n, p, hcut⟩, -⟩, -⟩ := wp_stopped hspec hinit ht'
      rw [hok] at hcut
      cases hcut

/-- A volume that was written, flushed and mounted again. -/
theorem threeBlocks_rebuilt : ∃ s₁ s₃, Rebuilt threeBlocks s₁ s₃ ∧ s₁.ftl.sectorIndex 0 ≠ -1 := by
  have hrun : (ftlCoreIoInit threeBlocks 4 (.cold .blank (fun _ => .ok) [])).okAnd (fun _ s t₀ =>
      decide (∀ x ∈ t₀, Served x) &&
      (cleanSessions threeBlocks 4 [[.write 0 sampleSector], [.write 1 sampleSector]] s).okAnd
        fun ss s t => decide ((∀ s ∈ ss, Numbered s) ∧ ∀ x ∈ t, Served x) &&
          (ftlCoreIoAllFlush threeBlocks s).okAnd fun _ s₁ t₁ =>
            decide ((∀ x ∈ t₁, Served x) ∧ Numbered s₁ ∧ s₁.ftl.sectorIndex 0 ≠ -1) &&
            (ftlCoreIoInit threeBlocks 4 (restart s₁)).okAnd fun _ _ t' =>
              decide (∀ x ∈ t', Served x)) = true := by decide +kernel
  obtain ⟨_, s₀, t₀, hinit, hrun⟩ := Res.okAnd_true hrun
  rw [Bool.and_eq_true, decide_eq_true_eq] at hrun
  obtain ⟨ss, s, t, hclean, hrun'⟩ := Res.okAnd_true hrun.2
  rw [Bool.and_eq_true, decide_eq_true_eq] at hrun'
  obtain ⟨_, s₁, t₁, hflush, hcheck⟩ := Res.okAnd_true hrun'.2
  rw [Bool.and_eq_true, decide_eq_true_eq] at hcheck
  obtain ⟨⟨ht₁, hid, hmap⟩, hcheck⟩ := hcheck
  obtain ⟨_, s₃, t', hmount, ht'⟩ := Res.okAnd_true hcheck
  have hs : Clean threeBlocks 4 Served Numbered s :=
    .cleanSessions (.init (firstBoot_cold _) hinit hrun.1) hclean (by decide) hrun'.1.1 hrun'.1.2
  exact ⟨s₁, s₃, ((mount_rebuilds_map wf_threeBlocks hs).2 _ s₁ t₁ hflush ht₁ hid _
    (boot_restart s₁) fun _ => rfl).1 s₃ t' hmount (of_decide_eq_true ht'), hmap⟩

/-- Two blocks of 256 pages of 1024 bytes: the entry of the last data page does not fit into the log
    page. -/
def bigBlocks : UftlInfo := .ofVolume 12 256 1024 400

/-- Requests inside of the device. -/
theorem writes_inside {W : Nat} {sectors : List Nat}
    (h : ∀ k ∈ sectors, k / fip.pageSectorNum < W) : ∀ r ∈ writes sectors, r.Inside fip W := by
  intro r hr
  obtain ⟨k, hk, rfl⟩ := List.mem_map.mp hr
  exact h k hk

theorem flushed_inside {W : Nat} {sectors : List Nat}
    (h : ∀ k ∈ sectors, k / fip.pageSectorNum < W) : ∀ r ∈ flushed sectors, r.Inside fip W :=
  List.forall_mem_append.mpr ⟨writes_inside h, by simp [Request.Inside]⟩

/-- One sector for each data page of a block. -/
def fillBlock : List Request :=
  flushed (.range' 0 64) ++ flushed (.range' 64 64) ++ flushed (.range' 128 64) ++
    writes (.range' 192 63)

theorem fillBlock_inside : ∀ r ∈ fillBlock, r.Inside bigBlocks bigBlocks.virtualSectorNum := by
  simp only [fillBlock, List.forall_mem_append]
  exact ⟨⟨⟨flushed_inside (by decide), flushed_inside (by decide)⟩, flushed_inside (by decide)⟩,
    writes_inside (by decide)⟩

/-- A session that fills the first block: the last flush writes the entry of page 254 behind
    `block_log_page`. -/
theorem flush_overruns : ∃ s, Clean bigBlocks 2 Served Numbered s ∧
    ∃ s₁ t, ftlCoreIoAllFlush bigBlocks s = .stop .outOfBuffer s₁ t ∧ ∀ x ∈ t, Served x := by
  have hrun : (ftlCoreIoInit bigBlocks 2 (.cold .blank (fun _ => .ok) [])).okAnd (fun _ s t₀ =>
      decide (∀ x ∈ t₀, Served x) &&
      (serveAll bigBlocks fillBlock s).okAnd fun _ s t =>
        decide (∀ x ∈ t, Served x) &&
        (ftlCoreIoAllFlush bigBlocks s).stopAnd fun e _ t =>
          decide (e = .outOfBuffer) && decide (∀ x ∈ t, Served x)) = true := by decide +kernel
  obtain ⟨_, s₀, t₀, hinit, hrun⟩ := Res.okAnd_true hrun
  rw [Bool.and_eq_true, decide_eq_true_eq] at hrun
  obtain ⟨h, s, t, hserve, hrun'⟩ := Res.okAnd_true hrun.2
  rw [Bool.and_eq_true, decide_eq_true_eq] at hrun'
  obtain ⟨e, s₁, t₁, hflush, hcheck⟩ := Res.stopAnd_true hrun'.2
  rw [Bool.and_eq_true, decide_eq_true_eq, decide_eq_true_eq] at hcheck
  obtain ⟨rfl, ht₁⟩ := hcheck
  exact ⟨s, .serve (.init (firstBoot_cold _) hinit hrun.1)
    (Session.start.serveAll hserve fillBlock_inside hrun'.1), s₁, t₁, hflush, ht₁⟩

/-! ## Free blocks -/

/-- At least two blocks' worth of pages can still be programmed. -/
def HasRoom (fip : UftlInfo) (s : State) : Prop := 2 * (fip.ftlPageNum : Int) ≤ s.ftl.room fip

instance (fip : UftlInfo) : DecidablePred (HasRoom fip) := fun _ =>
  inferInstanceAs (Decidable (_ ≤ _))

theorem steady_noFreeBlock : Steady .noFreeBlock := ⟨trivial, by decide⟩

/-- In a session that is supplied, every request for a free block is served. -/
theorem Session.served {L : Prop} {W : Nat} {s s' : State} {D : Nat → Option (Nat → Sector)}
    {h : List (Request × Option Sector)} (hwf : fip.Wf) (hW : W ≤ fip.virtualSectorNum)
    (h₀ : Mounted fip L False W s D) (hsup : Supplied fip s) (hs : Session fip Steady W s h s') :
    Session fip Served W s h s' := by
  have hrun : ∀ {h s'}, Session fip Steady W s h s' → ∃ D', Mounted fip L False W s' D' ∧
      Supplied fip s' := fun hs =>
    let ⟨D', ha⟩ := hs.advance hwf calm_steady (fun hf => hf.elim) hW h₀ fun _ => hsup
    ⟨D', ha.mounted, ha.supplied steady_noFreeBlock⟩
  induction hs with
  | start => exact .start
  | serve hs hin hr ht ih =>
    obtain ⟨D', hm, hsup'⟩ := hrun hs
    have hfed := (wp_ok (serve_spec hwf calm_steady (fun hf => hf.elim) hW hm (fun _ => hsup')
      hin) hr ht).2
    exact ih.serve hin hr fun x hx => ⟨(ht x hx).1, hfed x hx⟩
  | refuse hs hin hr ht ih =>
    obtain ⟨D', hm, hsup'⟩ := hrun hs
    have hfed := (wp_stopped (serve_spec hwf calm_steady (fun hf => hf.elim) hW hm
      (fun _ => hsup') hin) hr ht).2
    exact ih.refuse hin hr fun x hx => ⟨(ht x hx).1, hfed x hx⟩

/-- The state of a clean remount with pages to spare and numbers to spare. -/
def Spare (fip : UftlInfo) (s : State) : Prop := HasRoom fip s ∧ Numbered s

/-- A clean run each remount of which finds room is a run in which every request for a free block
    was served. -/
theorem Clean.served (hwf : fip.Wf) (hcap : fip.lebNum ≤ cap) (hleb : 2 ≤ fip.lebNum) {s : State}
    (h : Clean fip cap Steady (Spare fip) s) : Clean fip cap Served (Spare fip) s := by
  have hid : ∀ s, Spare fip s → s.ftl.stamp ≤ intMax := fun _ hs => hs.2.le
  have hfed : Steady .noFreeBlock → fip.lebNum ≤ cap ∧ 2 ≤ fip.lebNum ∧
      ∀ s, Spare fip s → 2 * (fip.ftlPageNum : Int) ≤ s.ftl.room fip := fun _ =>
    ⟨hcap, hleb, fun _ => And.left⟩
  induction h with
  | init hboot hrun ht =>
    have := (wp_ok (mountErased_spec hwf calm_steady hboot fun _ => ⟨hcap, hleb⟩) hrun ht).2
    exact .init hboot hrun fun x hx => ⟨(ht x hx).1, this x hx⟩
  | serve h hs ih =>
    obtain ⟨D, hm, hsup⟩ := h.mounted hwf calm_steady hid hfed
    exact ih.serve (hs.served hwf (Nat.le_refl _) hm (hsup steady_noFreeBlock))
  | remount h hflush ht hR hboot hrun ht' ih =>
    obtain ⟨D, hm, hsup⟩ := h.mounted hwf calm_steady hid hfed
    obtain ⟨⟨-, -, D', ha⟩, hev⟩ := wp_ok (ftlCoreIoAllFlush_spec hwf calm_steady
      (fun hf => hf.elim) (Nat.le_refl _) hm hsup) hflush ht
    have hev' := (wp_ok (remount_spec hwf calm_steady ha.mounted hboot (hid _ hR) fun _ =>
      ⟨hcap, hR.1⟩) hrun ht').2
    exact ih.remount hflush (fun x hx => ⟨(ht x hx).1, hev x hx⟩) hR hboot hrun
      fun x hx => ⟨(ht' x hx).1, hev' x hx⟩

/-- **Free blocks do not run out** in runs each remount of which finds room and in which no counter
    wraps: neither in the mounts and requests that led to a state, nor in the next request. -/
theorem free_block_available {size pageNum pageSize : Nat} (hsize : 30 ≤ size) (hpage : 2 ≤ pageNum)
    (hps : 1024 ≤ pageSize)
    (hlog : logInfoSize + intSize * (pageNum - logPageNumPerBlock) ≤ pageSize)
    (hcap : size - ftlLogBlockNum ≤ cap) {s : State}
    (h : Clean (.ofDevice size pageNum pageSize) cap Steady
      (Spare (.ofDevice size pageNum pageSize)) s) :
    Clean (.ofDevice size pageNum pageSize) cap Served
      (Spare (.ofDevice size pageNum pageSize)) s ∧
    ∀ r : Request, r.Inside (.ofDevice size pageNum pageSize)
        (UftlInfo.ofDevice size pageNum pageSize).virtualSectorNum →
      (∀ x ∈ (r.serve (.ofDevice size pageNum pageSize) s).events, Steady x) →
      ∀ x ∈ (r.serve (.ofDevice size pageNum pageSize) s).events, x ≠ .noFreeBlock := by
  have hwf := UftlInfo.ofDevice_wf hsize hpage hps hlog
  have hleb : 2 ≤ (UftlInfo.ofDevice size pageNum pageSize).lebNum := by
    show 2 ≤ size - ftlLogBlockNum
    unfold ftlLogBlockNum
    omega
  obtain ⟨D, hm, hsup⟩ := h.mounted hwf calm_steady (fun _ hs => hs.2.le) fun _ =>
    ⟨hcap, hleb, fun _ => And.left⟩
  exact ⟨h.served hwf hcap hleb, fun r hin => wp_events (serve_spec hwf calm_steady
    (fun hf => hf.elim) (Nat.le_refl _) hm hsup hin)⟩

/-- Six pages a block, one of them for the log, on the smallest volume. -/
def smallDevice : UftlInfo := .ofDevice 30 6 1024

/-- A device with room at its first remount. -/
theorem free_block_smallDevice : ∃ s, Clean smallDevice 32 Served (Spare smallDevice) s ∧
    ∀ x ∈ (Request.allFlush.serve smallDevice s).events, x ≠ .noFreeBlock := by
  have hrun : (ftlCoreIoInit smallDevice 32 (.cold .blank (fun _ => .ok) [])).okAnd (fun _ s t₀ =>
      decide (∀ x ∈ t₀, Steady x) &&
      (cleanSessions smallDevice 32 [writes [0, 1]] s).okAnd fun ss s t =>
        decide ((∀ s ∈ ss, HasRoom smallDevice s ∧ Numbered s) ∧ ∀ x ∈ t, Steady x) &&
        (serveAll smallDevice (writes [1, 2]) s).okAnd fun _ s t =>
          decide (∀ x ∈ t, Steady x) &&
          decide (∀ x ∈ (Request.allFlush.serve smallDevice s).events, Steady x)) = true := by
    decide +kernel
  obtain ⟨_, s₀, t₀, hinit, hrun⟩ := Res.okAnd_true hrun
  rw [Bool.and_eq_true, decide_eq_true_eq] at hrun
  obtain ⟨ss, s₁, t₁, hclean, hrun'⟩ := Res.okAnd_true hrun.2
  rw [Bool.and_eq_true, decide_eq_true_eq] at hrun'
  obtain ⟨h, s, t, hserve, hcheck⟩ := Res.okAnd_true hrun'.2
  rw [Bool.and_eq_true, decide_eq_true_eq, decide_eq_true_eq] at hcheck
  have hs₁ : Clean smallDevice 32 Steady (Spare smallDevice) s₁ :=
    .cleanSessions (.init (firstBoot_cold _) hinit hrun.1) hclean (by decide) hrun'.1.1 hrun'.1.2
  have hs : Clean smallDevice 32 Steady (Spare smallDevice) s :=
    .serve hs₁ (Session.start.serveAll hserve (by decide) hcheck.1)
  have := free_block_available (by decide) (by decide) (by decide) (by decide) (by decide) hs
  exact ⟨s, this.1, this.2 .allFlush trivial hcheck.2⟩

/-- Seventy pages fill fourteen blocks; then one block a session is filled while it is never long
    enough to collect garbage.  The last flush finds no free block. -/
theorem remounts_exhaust_fifo : ∃ s, Clean smallDevice 32 Served (fun _ => True) s ∧
    .noFreeBlock ∈ (Request.allFlush.serve smallDevice s).events := by
  have hrun : (ftlCoreIoInit smallDevice 32 (.cold .blank (fun _ => .ok) [])).okAnd (fun _ s t₀ =>
      decide (∀ x ∈ t₀, Served x) &&
      (cleanSessions smallDevice 32
        [((List.range 14).map fun i => flushed [i, i + 1, i + 2, i + 3, i + 4]).flatten ++
            writes [14, 15, 16, 17, 18],
          writes [15, 16, 17, 18, 19], flushed [16, 17, 18, 19] ++ writes [19],
          flushed [17, 18, 19] ++ writes [18, 19],
          flushed [18, 19] ++ flushed [19] ++ flushed [19] ++ writes [19]] s).okAnd fun _ s t =>
        decide (∀ x ∈ t, Served x) &&
        (serveAll smallDevice (flushed [19] ++ flushed [19] ++ flushed [19] ++ flushed [19] ++
          flushed [19] ++ writes [19]) s).okAnd fun _ s t =>
          decide (∀ x ∈ t, Served x) &&
          decide (.noFreeBlock ∈ (Request.allFlush.serve smallDevice s).events)) = true := by
    decide +kernel
  obtain ⟨_, s₀, t₀, hinit, hrun⟩ := Res.okAnd_true hrun
  rw [Bool.and_eq_true, decide_eq_true_eq] at hrun
  obtain ⟨_, s₁, t₁, hclean, hrun'⟩ := Res.okAnd_true hrun.2
  rw [Bool.and_eq_true, decide_eq_true_eq] at hrun'
  obtain ⟨h, s, t, hserve, hcheck⟩ := Res.okAnd_true hrun'.2
  rw [Bool.and_eq_true, decide_eq_true_eq, decide_eq_true_eq] at hcheck
  have hs : Clean smallDevice 32 Served (fun _ => True) s₁ :=
    .cleanSessions (.init (firstBoot_cold _) hinit hrun.1) hclean (by decide) (fun _ _ => trivial)
      hrun'.1
  exact ⟨s, .serve hs (Session.start.serveAll hserve (by decide) hcheck.1), hcheck.2⟩

end Uftl
