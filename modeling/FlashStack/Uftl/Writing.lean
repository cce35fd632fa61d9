/-
  Specifications of `get_new_page` and of one page write.

  All specifications of the driver are `wp A Fed`: the events of the run are assumed to satisfy `A`,
  and `get_first_empty_block` is shown not to find the fifo empty (`Fed`).  A caller discharges the
  latter either by assuming it (`A` excludes `noFreeBlock`) or by counting: `Ftl.room` is the number
  of pages that can be programmed before the fifo runs dry.

  A run that does not return ended by a power cut the script provides for, or in `BUG()`; what it
  leaves on flash still carries the data (`Disk`).
-/
import FlashStack.Uftl.Transitions

namespace Uftl

open Lib Lib.Prog

variable {fip : UftlInfo} {L : Prop} {A : Event → Prop}

/-- Every request for a free block is served. -/
def Fed (x : Event) : Prop := x ≠ .noFreeBlock

/-- No flash operation returns an error and no cut hits a log page.  Where it is to be shown that the
    fifo is not found empty, `check_count` does not wrap. -/
structure Calm (A : Event → Prop) : Prop where
  noError : ¬A .flashError
  noTear : ∀ b, ¬A (.tearLog b)
  noWrap : A .noFreeBlock → ¬A .countWraps

/-- The number of pages that can be programmed with the blocks at hand. -/
def Ftl.room (fip : UftlInfo) (f : Ftl) : Int :=
  fip.ftlPageNum - 1 - f.curOffset.page + fip.ftlPageNum * f.emptyBlockFifo.items.length

/-- What flash operations and table updates leave alone. -/
structure Frame (s s' : State) : Prop where
  pool : s'.pool = s.pool
  checkCount : s'.checkCount = s.checkCount
  fullState : s'.fullState = s.fullState
  journal : s'.journal = s.journal
  faults : s'.env.faults = s.env.faults

/-- What writing does not change. -/
theorem Frame.refl (s : State) : Frame s s := ⟨rfl, rfl, rfl, rfl, rfl⟩

theorem Frame.trans {s s' s'' : State} (h : Frame s s') (h' : Frame s' s'') : Frame s s'' :=
  ⟨h'.pool.trans h.pool, h'.checkCount.trans h.checkCount, h'.fullState.trans h.fullState,
    h'.journal.trans h.journal, h'.faults.trans h.faults⟩

theorem Frame.onFtl (s : State) (g : Ftl → Ftl) : Frame s (s.onFtl g) := ⟨rfl, rfl, rfl, rfl, rfl⟩

theorem Frame.tick (s : State) : Frame s s.tick := ⟨rfl, rfl, rfl, rfl, rfl⟩

theorem Frame.onVol (s : State) (g : Volume → Volume) : Frame s (s.onVol g) :=
  ⟨rfl, rfl, rfl, rfl, rfl⟩

/-- The script of `s` cuts the power somewhere. -/
def State.mayCut (s : State) : Prop := ∃ n p, s.env.faults n = .cut p

/-! ## Flash operations -/

section Operations

variable {s : State}

/-- An operation without failure: it takes effect, or the power is cut before or after it did. -/
theorem flashOp_spec (hA : Calm A) {full part : Volume → Volume} {done torn : List Event}
    {G : Event → Prop} (hdone : ∀ x ∈ done, G x) (htorn : ∀ x ∈ torn, G x) :
    wp A G (flashOp full part done torn)
      (fun _ s' => (∀ x ∈ done, A x) ∧ s' = s.tick.onVol full)
      (fun e s' => e = .powerCut ∧ s.mayCut ∧
        (s' = s.tick ∨ (∀ x ∈ torn, A x) ∧ s' = s.tick.onVol part)) s := by
  have along : ∀ {t : List Event} {R : Prop}, (∀ x ∈ t, G x) → ((∀ x ∈ t, A x) → R) →
      Along A G t R := by
    intro t R
    induction t with
    | nil => exact fun _ hR => hR fun x hx => absurd hx (List.not_mem_nil)
    | cons x t ih =>
      intro hG hR hx
      refine ⟨hG x (List.mem_cons_self ..), ih (fun y hy => hG y (List.mem_cons_of_mem _ hy))
        fun ht => hR fun y hy => ?_⟩
      rcases List.mem_cons.mp hy with rfl | hy
      · exact hx
      · exact ht y hy
  unfold wp flashOp
  cases hf : s.env.faults s.env.flashOps with
  | ok => exact along hdone fun h => ⟨h, rfl⟩
  | fail p => cases p <;> exact fun h => absurd h hA.noError
  | cut p =>
    cases p with
    | false => exact ⟨rfl, ⟨_, _, hf⟩, .inl rfl⟩
    | true => exact along htorn fun h => ⟨rfl, ⟨_, _, hf⟩, .inr ⟨h, rfl⟩⟩

/-- Pages and the log page are in the volume. -/
theorem inVolume_page (hpages : fip.lebPageNum = fip.ftlPageNum + 1) {b p : Nat}
    (hb : b < fip.lebNum) (hp : p ≤ fip.ftlPageNum) : fip.inVolume b p := by
  unfold UftlInfo.inVolume
  omega

/-- Reading a page that is not torn. -/
theorem ftlRead_spec (hA : Calm A) (hwf : fip.Wf) {b p : Nat} {pg : Page} (hb : b < fip.lebNum)
    (hp : p < fip.ftlPageNum) (hr : ((s.vol.leb b).page p).read .blank = some pg) :
    wp A Fed (ftlRead fip b p) (fun r s' => r = pg ∧ s' = s.tick)
      (fun e s' => e = .powerCut ∧ s.mayCut ∧ s' = s.tick) s := by
  unfold ftlRead
  rw [if_pos (inVolume_page hwf.leb_page hb (Nat.le_of_lt hp)), wp_bind]
  refine wp_mono (flashOp_spec hA (by simp) (by simp)) ?_ ?_
  · rintro _ s' ⟨-, rfl⟩
    simp only [wp_bind, wp_getState, Int.toNat_natCast]
    have : ((s.tick.onVol id).vol.leb b).page p = (s.vol.leb b).page p := rfl
    rw [this, hr]
    exact ⟨rfl, rfl⟩
  · rintro e s' ⟨rfl, hcut, rfl | ⟨-, rfl⟩⟩
    · exact ⟨rfl, hcut, rfl⟩
    · exact ⟨rfl, hcut, rfl⟩

/-- Reading a page the driver wrote. -/
theorem ftlRead_written (hA : Calm A) (hwf : fip.Wf) {b p : Nat} {pg : Page} (hb : b < fip.lebNum)
    (hp : p < fip.ftlPageNum) (hpg : (s.vol.leb b).page p = .written pg) :
    wp A Fed (ftlRead fip b p) (fun r s' => r = pg ∧ s' = s.tick)
      (fun e s' => e = .powerCut ∧ s.mayCut ∧ s' = s.tick) s :=
  ftlRead_spec hA hwf hb hp (by rw [hpg]; rfl)

/-- Programming an erased page. -/
theorem ftlWrite_spec (hA : Calm A) (hwf : fip.Wf) {b p : Nat} {pg : Page} (hb : b < fip.lebNum)
    (hp : p < fip.ftlPageNum) (he : (s.vol.leb b).page p = .erased) :
    wp A Fed (ftlWrite fip b p pg)
      (fun _ s' => A (.program b p) ∧ s' = s.tick.onVol (·.setPage b p (.written pg)))
      (fun e s' => e = .powerCut ∧ s.mayCut ∧
        (s' = s.tick ∨ A (.program b p) ∧ s' = s.tick.onVol (·.setPage b p .torn))) s := by
  unfold ftlWrite
  rw [if_pos (inVolume_page hwf.leb_page hb (Nat.le_of_lt hp))]
  simp only [Int.toNat_natCast]
  refine wp_mono (flashOp_spec hA (by simp [Fed]) (by simp [Fed])) ?_ ?_
  · rintro _ s' ⟨hev, rfl⟩
    refine ⟨hev _ (List.mem_singleton_self _), ?_⟩
    have : (s.vol.leb b).page p = .erased := he
    simp only [State.onVol, State.tick, this, Cell.program]
  · rintro e s' ⟨rfl, hcut, rfl | ⟨hev, rfl⟩⟩
    · exact ⟨rfl, hcut, .inl rfl⟩
    · exact ⟨rfl, hcut, .inr ⟨hev _ (List.mem_singleton_self _), rfl⟩⟩

/-- Writing the log page of a block that has none: a cut leaves the block without. -/
theorem ftlWriteLog_spec (hA : Calm A) (hwf : fip.Wf) {b : Nat} {l : LogPage} (hb : b < fip.lebNum)
    (he : (s.vol.leb b).log = .erased) :
    wp A Fed (ftlWriteLog fip b l) (fun _ s' => s' = s.tick.onVol (·.setLog b (.written l)))
      (fun e s' => e = .powerCut ∧ s.mayCut ∧ s' = s.tick) s := by
  unfold ftlWriteLog
  rw [if_pos (inVolume_page hwf.leb_page hb (Nat.le_refl _))]
  simp only [Int.toNat_natCast]
  refine wp_mono (flashOp_spec hA (by simp) (by simp [Fed])) ?_ ?_
  · rintro _ s' ⟨-, rfl⟩
    have : (s.vol.leb b).log = .erased := he
    simp only [State.onVol, State.tick, this, Cell.program]
  · rintro e s' ⟨rfl, hcut, rfl | ⟨hev, -⟩⟩
    · exact ⟨rfl, hcut, rfl⟩
    · exact absurd (hev _ (List.mem_singleton_self _)) (hA.noTear b)

/-- `ftl_erase` with the lazy unmap. -/
theorem ftlErase_spec (hA : Calm A) (hwf : fip.Wf) {b : Nat} (hb : b < fip.lebNum) :
    wp A Fed (ftlErase fip b true) (fun _ s' => s' = s.tick.onVol (·.unmap b))
      (fun e s' => e = .powerCut ∧ s.mayCut ∧ (s' = s.tick ∨ s' = s.tick.onVol (·.unmap b))) s := by
  unfold ftlErase
  rw [if_pos (by exact_mod_cast inVolume_page hwf.leb_page hb (Nat.zero_le _))]
  simp only [Int.toNat_natCast, if_true]
  refine wp_mono (flashOp_spec hA (by simp) (by simp)) ?_ ?_
  · rintro _ s' ⟨-, rfl⟩
    rfl
  · rintro e s' ⟨rfl, hcut, rfl | ⟨-, rfl⟩⟩
    · exact ⟨rfl, hcut, .inl rfl⟩
    · exact ⟨rfl, hcut, .inr rfl⟩

/-- `kfifo_in` on the tables. -/
theorem kfifoIn_spec {b : Nat} {E : Exit → State → Prop} :
    wp A Fed (kfifoIn b) (fun _ s' => s' = s.onFtl (·.pushBlock b)) E s := by
  simp only [kfifoIn, wp_bind, wp_getState, wp_ite, wp_modifyState, wp_emit]
  refine ⟨fun h => ?_, fun h _ => ⟨by simp [Fed], ?_⟩⟩
  · simp only [State.onFtl, Ftl.pushBlock, if_pos h]
  · simp only [State.onFtl, Ftl.pushBlock, if_neg h]

end Operations

/-! ## `get_new_page` -/

/-- The page tables of two states of the driver are the same. -/
structure SameTables (f f' : Ftl) : Prop where
  sectorIndex : f'.sectorIndex = f.sectorIndex
  pageState : f'.pageState = f.pageState
  usingPage : f'.usingPage = f.usingPage
  cap : f'.emptyBlockFifo.cap = f.emptyBlockFifo.cap

section NewPage

variable {s : State} {X : Nat → Nat → Prop} {b k : Nat} {D : Nat → Option (Nat → Sector)}

/-- The write position may move within the block. -/
theorem InvAt.setPagePos {f : Ftl} {vol : Volume} (h : InvAt fip L X b k f vol D) (q : Int) :
    InvAt fip L X b k { f with curOffset := { f.curOffset with page := q } } vol D :=
  { chain := h.chain, stamp_pos := h.stamp_pos, id := h.id, curBlock := h.curBlock, le := h.le
    clean := h.clean, cleanLog := h.cleanLog, others := h.others, nodup := h.nodup, fifo := h.fifo
    queued := h.queued, index := h.index, empty := h.empty, inUse := h.inUse
    orphan := h.orphan, count := h.count, entries := h.entries }

/-- What `get_new_page` did when it returns page `k'` of block `b'`: it moved behind the last page,
    or to the first page of a queued block.  Tables and flash still agree if the block it left has
    its log page. -/
structure NewPage (fip : UftlInfo) (L : Prop) (X : Nat → Nat → Prop) (D : Nat → Option (Nat → Sector))
    (b k : Nat) (s s' : State) (b' k' : Nat) : Prop where
  block_lt : b' < fip.lebNum
  page_lt : k' < fip.ftlPageNum
  vol : s'.vol = s.vol
  frame : Frame s s'
  tables : SameTables s.ftl s'.ftl
  pos : s'.ftl.curOffset.page = k'
  stamp_le : s.ftl.stamp ≤ s'.ftl.stamp
  room : s'.ftl.room fip + 1 = s.ftl.room fip
  block : k < fip.ftlPageNum ∧ b' = b ∨ k = fip.ftlPageNum ∧ b' ∈ s.ftl.emptyBlockFifo.items
  fifo : ∀ a ∈ s'.ftl.emptyBlockFifo.items, a ∈ s.ftl.emptyBlockFifo.items
  inv : Logged fip L b k s.ftl s.vol → InvAt fip L X b' k' s'.ftl s'.vol D

/-- Without a free block the code runs into its `BUG`. -/
theorem wp_getFirstEmptyBlock_nil {Q : Int → State → Prop} {E : Exit → State → Prop}
    (hq : s.ftl.emptyBlockFifo.items = []) (hno : ¬A .noFreeBlock) :
    wp A Fed getFirstEmptyBlock Q E s := by
  unfold getFirstEmptyBlock
  rw [wp_bind, wp_getState, hq]
  simp only [wp_bind, wp_emit]
  exact fun hA => absurd hA hno

/-- The first free block is taken. -/
theorem wp_getFirstEmptyBlock_cons {Q : Int → State → Prop} {E : Exit → State → Prop} {b : Nat}
    {rest : List Nat} (hq : s.ftl.emptyBlockFifo.items = b :: rest)
    (h : Q b (s.onFtl fun f =>
      { f with emptyBlockFifo := { f.emptyBlockFifo with items := rest } })) :
    wp A Fed getFirstEmptyBlock Q E s := by
  unfold getFirstEmptyBlock
  rw [wp_bind, wp_getState, hq]
  exact h

/-- The next page, or the first one of a new block. -/
theorem getNewPage_spec (hwf : fip.Wf) (h : InvAt fip L X b k s.ftl s.vol D)
    (hpage : s.ftl.curOffset.page = (k : Int) - 1)
    (hroom : A .noFreeBlock → 0 < s.ftl.room fip) {E : Exit → State → Prop} :
    wp A Fed (getNewPage fip)
      (fun r s' => ∃ b' k', r = fip.pageIndex b' k' ∧ NewPage fip L X D b k s s' b' k') E s := by
  have hP := hwf.page_pos
  have hle := h.le
  have hpos : s.ftl.curOffset.page + 1 = k := by omega
  simp only [getNewPage, wp_bind, wp_modifyState, wp_getState, wp_when, wp_pure]
  refine ⟨fun hfull => ?_, fun hfull => ?_⟩
  · -- the block is full
    have hk : k = fip.ftlPageNum := by
      have : s.ftl.curOffset.page + 1 = fip.ftlPageNum := hfull
      omega
    subst hk
    cases hq : s.ftl.emptyBlockFifo.items with
    | nil =>
      refine wp_getFirstEmptyBlock_nil hq fun hno => ?_
      have hr := hroom hno
      unfold Ftl.room at hr
      rw [hq, hpage] at hr
      simp at hr
    | cons b' rest =>
      refine wp_getFirstEmptyBlock_cons hq ?_
      have hmem : b' ∈ s.ftl.emptyBlockFifo.items := by rw [hq]; exact List.mem_cons_self ..
      refine ⟨b', 0, rfl,
        { block_lt := (h.fifo b' hmem).1, page_lt := hP, vol := rfl
          frame := ⟨rfl, rfl, rfl, rfl, rfl⟩, tables := ⟨rfl, rfl, rfl, rfl⟩, pos := rfl
          stamp_le := Int.le_of_lt (Int.lt_succ _)
          room := ?_, block := .inr ⟨rfl, hmem⟩
          fifo := fun a ha => by rw [hq]; exact List.mem_cons_of_mem _ ha
          inv := fun hlog => h.nextBlock (hlog rfl) hP hq }⟩
      show (fip.ftlPageNum : Int) - 1 - 0 + fip.ftlPageNum * (rest.length : Nat) + 1 = _
      unfold Ftl.room
      rw [hq, hpage, List.length_cons]
      push_cast
      rw [Int.mul_add]
      omega
  · have hk : k < fip.ftlPageNum := by
      have : ¬s.ftl.curOffset.page + 1 = fip.ftlPageNum := hfull
      omega
    refine ⟨b, k, ?_,
      { block_lt := h.chain.lt, page_lt := hk, vol := rfl, frame := ⟨rfl, rfl, rfl, rfl, rfl⟩
        tables := ⟨rfl, rfl, rfl, rfl⟩, pos := hpos, stamp_le := Int.le_refl _, room := ?_
        block := .inl ⟨hk, rfl⟩
        fifo := fun a ha => ha, inv := fun _ => h.setPagePos _ }⟩
    · show s.ftl.curOffset.block * fip.ftlPageNum + (s.ftl.curOffset.page + 1) = _
      rw [h.curBlock, hpos]
      rfl
    · show (fip.ftlPageNum : Int) - 1 - (s.ftl.curOffset.page + 1) +
        fip.ftlPageNum * s.ftl.emptyBlockFifo.items.length + 1 = s.ftl.room fip
      unfold Ftl.room
      omega

end NewPage

/-! ## One page write -/

section Program

variable {s : State} {X : Nat → Nat → Prop} {b k v : Nat} {f : Ftl} {pg : Page}
  {D : Nat → Option (Nat → Sector)}

/-- A torn page carries no data, so the others are as they were. -/
theorem InvAt.tear_disk {vol : Volume} (h : InvAt fip L X b k f vol D) (hk : k < fip.ftlPageNum) :
    Disk fip L f.stamp (vol.setPage b k .torn) D := by
  refine ⟨⟨b, k, _, Int.le_refl _, h.chain.tear hk h.clean (h.cleanLog hk)⟩, fun w hw => ?_⟩
  exact (h.index w hw).dataAt.same
    (sameCopies_setPage (h.clean k (Nat.le_refl k) hk) fun pg' he => by cases he)

/-- The page is programmed, the log page is not (yet). -/
theorem InvAt.program_disk {vol : Volume} (h : InvAt fip L X b k f vol D) (hk : k < fip.ftlPageNum)
    (hg : Good fip f.stamp pg) (hs : pg.log.sector = v) :
    Disk fip L f.stamp (vol.setPage b k (.written pg)) (Function.update D v (some pg.data)) := by
  have hch := h.chain.program hk h.clean (h.cleanLog hk) hg
  have hsame : ((vol.setPage b k (.written pg)).leb b).page k = .written pg := by
    rw [Volume.setPage, Volume.setLeb_same, Leb.setPage_same]
  refine ⟨⟨b, k + 1, _, Int.le_refl _, hch⟩, fun w hw => ?_⟩
  by_cases hwv : w = v
  · subst hwv
    rw [Function.update_self]
    exact ⟨b, k, pg, hch.newest_last ⟨hk, pg, hsame, hs, hg.stamp⟩, hsame, rfl⟩
  · rw [Function.update_of_ne hwv]
    refine (h.index w hw).dataAt.same
      (sameCopies_setPage (h.clean k (Nat.le_refl k) hk) fun pg' he => ?_)
    cases he
    rw [hs]
    omega

/-- The log entry of a page is in the buffer. -/
theorem wp_setLogEntry (hwf : fip.Wf) {G : Event → Prop} (hk : k < fip.ftlPageNum) {v : Int}
    {Q : Unit → State → Prop} {E : Exit → State → Prop} :
    wp A G (setLogEntry fip k v) Q E s ↔ Q () (s.onFtl (·.logEntry k v)) := by
  rw [setLogEntry, if_pos (hwf.inLogPage hk), wp_modifyState]

/-- Programming page `k`, noting it in `block_log_page` and, after the last page, writing the log
    page.  The tables may already map the sector to the page, or not. -/
theorem program_spec (hwf : fip.Wf) (hA : Calm A) (h : InvAt fip L X b k f s.vol D)
    (hstamp : s.ftl.stamp = f.stamp) (hk : k < fip.ftlPageNum) (hg : Good fip f.stamp pg)
    (hs : pg.log.sector = v) {Q : Unit → State → Prop} {E : Exit → State → Prop}
    (hQ : ∀ s', A (.program b k) → Frame s s' → s'.ftl = s.ftl.written fip k v →
      s'.vol = s.vol.written fip b k pg s'.ftl.blockLogPage → Q () s')
    (hE : ∀ s', s.mayCut → Frame s s' → s'.ftl.stamp = s.ftl.stamp →
      (s'.vol = s.vol ∨ A (.program b k) ∧ (Disk fip L s'.ftl.stamp s'.vol D ∨
        Disk fip L s'.ftl.stamp s'.vol (Function.update D v (some pg.data)))) →
      E .powerCut s') :
    wp A Fed (ftlWrite fip b k pg) (fun _ s' =>
      wp A Fed (setLogEntry fip k v) (fun _ s' => wp A Fed (closeBlock fip b k) Q E s') E s') E s := by
  refine wp_mono (ftlWrite_spec hA hwf h.chain.lt hk (h.clean k (Nat.le_refl k) hk)) ?_ ?_
  · rintro _ s₁ ⟨hev, rfl⟩
    have hframe : Frame s ((s.tick.onVol (·.setPage b k (.written pg))).onFtl (·.logEntry k v)) :=
      ⟨rfl, rfl, rfl, rfl, rfl⟩
    simp only [wp_setLogEntry hwf hk, closeBlock, wp_when, wp_bind, wp_modifyState, wp_getState]
    refine ⟨fun hlast => ?_, fun hlast => ?_⟩
    · have hlast : k + 1 = fip.ftlPageNum := by omega
      have hlogfree : ((s.vol.setPage b k (.written pg)).leb b).log = .erased := by
        rw [Volume.setPage, Volume.setLeb_same, Leb.setPage_log]
        exact h.cleanLog hk
      refine wp_mono (ftlWriteLog_spec hA hwf h.chain.lt hlogfree) ?_ ?_
      · rintro _ s₂ rfl
        refine hQ _ hev ⟨rfl, rfl, rfl, rfl, rfl⟩ ?_ ?_
        · simp only [Ftl.written, if_pos hlast]
          rfl
        · simp only [Volume.written, if_pos hlast]
          rfl
      · rintro e s₂ ⟨rfl, hcut, rfl⟩
        refine hE _ hcut ⟨rfl, rfl, rfl, rfl, rfl⟩ rfl (.inr ⟨hev, .inr ?_⟩)
        exact (h.program_disk hk hg hs).mono (Int.le_of_eq hstamp.symm)
    · have hlast : ¬k + 1 = fip.ftlPageNum := by omega
      refine hQ _ hev hframe ?_ ?_
      · simp only [Ftl.written, if_neg hlast]
        rfl
      · simp only [Volume.written, if_neg hlast]
        rfl
  · rintro e s₁ ⟨rfl, hcut, rfl | ⟨hev, rfl⟩⟩
    · exact hE _ hcut ⟨rfl, rfl, rfl, rfl, rfl⟩ rfl (.inl rfl)
    · refine hE _ hcut ⟨rfl, rfl, rfl, rfl, rfl⟩ rfl (.inr ⟨hev, .inl ?_⟩)
      exact (h.tear_disk hk).mono (Int.le_of_eq hstamp.symm)

end Program

end Uftl
