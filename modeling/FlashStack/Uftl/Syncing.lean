/-
  Specification of `sync_one_buf`.

  The function merges, writes, remaps and collects garbage; each part has its specification here
  and `syncOneBuf_spec` strings them together.  What the whole does to the data on flash: the
  virtual sector of the buffer gets `mergedData`, every other one keeps what it has.

  A session that starts on a full block without log page (`U`) is special: the tables are right,
  but the next page write would leave that block without log page for good.  The specifications
  cover such sessions up to their first page write.
-/
import FlashStack.Uftl.Recycling

namespace Uftl

open Lib Lib.Prog

variable {fip : UftlInfo} {L : Prop} {A : Event → Prop} {U : Prop} {W : Nat}

/-! ## The driver between operations -/

/-- Tables and flash agree; the current block has its log page if it is full, unless `U`. -/
def Ready (fip : UftlInfo) (L : Prop) (U : Prop) (f : Ftl) (vol : Volume) (D : Nat → Option (Nat → Sector)) :
    Prop :=
  ∃ b k, InvAt fip L noOrphan b k f vol D ∧ (U ∨ Logged fip L b k f vol) ∧
    f.curOffset.page = (k : Int) - 1

/-- Between two operations the device is ready. -/
theorem Inv.ready {f : Ftl} {vol : Volume} {D : Nat → Option (Nat → Sector)}
    (h : Inv fip L noOrphan f vol D) : Ready fip L U f vol D := by
  obtain ⟨b, k, hinv, hlog, hpos⟩ := h
  exact ⟨b, k, hinv, .inr hlog, hpos⟩

/-- The buffers hold virtual sectors below `W`, free ones are clean. -/
structure PoolOk (W : Nat) (pool : Nat → PageBuf) : Prop where
  sector : ∀ i, i < bufNum → (pool i).sector = ftlNomap ∨ ∃ v, v < W ∧ (pool i).sector = (v : Nat)
  free : ∀ i, i < bufNum → (pool i).sector = ftlNomap →
    (pool i).sectorState = 0 ∧ (pool i).read = false

/-- What flash may hold for virtual sector `v` according to the journal: the page whose sync
    returned last, or one whose sync began after that. -/
def Allowed : List SyncRecord → Nat → Option (Nat → Sector) → Prop
  | [], _, x => x = none
  | r :: rest, v, x =>
    if r.sector = (v : Int) then x = some r.data ∨ r.returned = false ∧ Allowed rest v x
    else Allowed rest v x

/-- The data on flash is as the journal has it, and no virtual sector from `W` on was written. -/
structure Tracked (fip : UftlInfo) (W : Nat) (journal : List SyncRecord)
    (D : Nat → Option (Nat → Sector)) : Prop where
  allowed : ∀ v, v < fip.virtualSectorNum → Allowed journal v (D v)
  sparse : ∀ v, W ≤ v → v < fip.virtualSectorNum → D v = none

/-- The driver between operations, with the data `D` on flash. -/
structure Mounted (fip : UftlInfo) (L : Prop) (U : Prop) (W : Nat) (s : State)
    (D : Nat → Option (Nat → Sector)) : Prop where
  ready : Ready fip L U s.ftl s.vol D
  pool : PoolOk W s.pool
  tracked : Tracked fip W s.journal D

/-- The run from `s` did not return: the power was cut or `BUG()` was reached. -/
def Stopped (fip : UftlInfo) (L : Prop) (W : Nat) (s : State) (e : Exit) (s' : State) : Prop :=
  ∃ D, Tracked fip W s'.journal D ∧
    (e = .powerCut ∧ s.mayCut ∧ Disk fip L s'.ftl.stamp s'.vol D ∨ e = .bug ∧ Stuck fip L D s')

/-- What every operation leaves alone. -/
structure OpFrame (s s' : State) : Prop where
  fullState : s'.fullState = s.fullState
  faults : s'.env.faults = s.env.faults
  cap : s'.ftl.emptyBlockFifo.cap = s.ftl.emptyBlockFifo.cap

/-- Enough pages to last until garbage is collected: `sync_one_buf` looks for garbage only when
    `check_count` exceeds the number of pages of a block. -/
structure Supplied (fip : UftlInfo) (s : State) : Prop where
  cap : fip.lebNum ≤ s.ftl.emptyBlockFifo.cap
  count : 0 ≤ s.checkCount ∧ s.checkCount ≤ intMax
  early : s.checkCount ≤ fip.ftlPageNum →
    2 * (fip.ftlPageNum : Int) ≤ s.ftl.room fip + s.checkCount
  late : fip.ftlPageNum < s.checkCount → lowBlockNum ≤ s.ftl.getEmptyBlockNum

/-- What the accounts of free pages see of a state. -/
theorem Supplied.congr {s s' : State} (h : Supplied fip s) (hf : s'.ftl = s.ftl)
    (hc : s'.checkCount = s.checkCount) : Supplied fip s' :=
  ⟨by rw [hf]; exact h.cap, by rw [hc]; exact h.count, by rw [hf, hc]; exact h.early,
    by rw [hf, hc]; exact h.late⟩

/-- What no operation changes. -/
theorem OpFrame.refl (s : State) : OpFrame s s := ⟨rfl, rfl, rfl⟩

theorem OpFrame.trans {s s' s'' : State} (h : OpFrame s s') (h' : OpFrame s' s'') : OpFrame s s'' :=
  ⟨h'.fullState.trans h.fullState, h'.faults.trans h.faults, h'.cap.trans h.cap⟩

theorem OpFrame.mayCut {s s' : State} (h : OpFrame s s') (hc : s'.mayCut) : s.mayCut := by
  unfold State.mayCut at *
  rwa [h.faults] at hc

/-- An operation that stops. -/
theorem Stopped.trans {s s' s'' : State} {e : Exit} (hf : OpFrame s s')
    (h : Stopped fip L W s' e s'') : Stopped fip L W s e s'' := by
  obtain ⟨D, ht, hd⟩ := h
  exact ⟨D, ht, hd.imp_left fun ⟨he, hc, hd⟩ => ⟨he, hf.mayCut hc, hd⟩⟩

/-- What is on flash. -/
theorem Ready.disk {f : Ftl} {vol : Volume} {D : Nat → Option (Nat → Sector)}
    (h : Ready fip L U f vol D) : Disk fip L f.stamp vol D := by
  obtain ⟨b, k, hinv, -⟩ := h
  exact hinv.disk

theorem Left.stopped {s s₁ s' : State} {D : Nat → Option (Nat → Sector)} {e : Exit}
    (h : Left fip L s₁ D e s') (hc : s₁.mayCut → s.mayCut) (ht : Tracked fip W s₁.journal D) :
    Stopped fip L W s e s' := by
  obtain ⟨hj, hd⟩ := h
  exact ⟨D, hj ▸ ht, hd.imp_left fun ⟨he, hcut, hd⟩ => ⟨he, hc hcut, hd⟩⟩

/-! ## The history of a page -/

section Journal

variable {J : List SyncRecord} {D : Nat → Option (Nat → Sector)} {v : Nat} {d : Nat → Sector}

/-- A sync has begun: the old data is still allowed. -/
theorem Tracked.begin (h : Tracked fip W J D) : Tracked fip W (⟨v, d, false⟩ :: J) D := by
  refine ⟨fun w hw => ?_, h.sparse⟩
  unfold Allowed
  split
  · exact .inr ⟨rfl, h.allowed w hw⟩
  · exact h.allowed w hw

/-- A sync has begun, or returned: the new data is allowed. -/
theorem Tracked.update (h : Tracked fip W J D) (hv : v < W) (r : Bool) :
    Tracked fip W (⟨v, d, r⟩ :: J) (Function.update D v (some d)) := by
  refine ⟨fun w hw => ?_, fun w hw hlt => ?_⟩
  · unfold Allowed
    by_cases hwv : w = v
    · subst hwv
      rw [if_pos rfl, Function.update_self]
      exact .inl rfl
    · rw [if_neg (by show ¬((v : Nat) : Int) = w; omega), Function.update_of_ne hwv]
      exact h.allowed w hw
  · rw [Function.update_of_ne (by omega)]
    exact h.sparse w hw hlt

end Journal

/-! ## Merging -/

section Merge

variable {s : State} {b k v i : Nat} {f : Ftl} {vol : Volume} {D : Nat → Option (Nat → Sector)}
  {X : Nat → Nat → Prop}

/-- A virtual sector without index has no data, one with an index has that of the page. -/
theorem InvAt.indexed (h : InvAt fip L X b k f vol D) (hv : v < fip.virtualSectorNum) :
    f.sectorIndex v = ftlNomap ∧ D v = none ∨
    ∃ b' p pg, f.sectorIndex v = fip.pageIndex b' p ∧ b' < fip.lebNum ∧ p < fip.ftlPageNum ∧
      (vol.leb b').page p = .written pg ∧ D v = some pg.data := by
  have hx := h.index v hv
  cases hD : D v with
  | none =>
    rw [hD] at hx
    exact .inl ⟨hx.1, rfl⟩
  | some d =>
    rw [hD] at hx
    obtain ⟨b', p, pg, hidx, hn, hpg, rfl⟩ := hx
    exact .inr ⟨b', p, pg, hidx, hn.block_lt, hn.page_lt, hpg, rfl⟩

/-- The data `sync_one_buf` writes for buffer `i`: sectors that were not written come from flash,
    unless the whole page was read before. -/
def State.mergedData (fip : UftlInfo) (s : State) (i v : Nat) (D : Nat → Option (Nat → Sector)) :
    Nat → Sector :=
  let buf := s.pool i
  if buf.sectorState ≠ s.fullState ∧ buf.read = false then
    match D v with
    | none => buf.dataBuf.data
    | some d => fun j => if j < fip.pageSectorNum ∧ buf.dirty j = false then d j
        else buf.dataBuf.data j
  else buf.dataBuf.data

/-- Replace the data of buffer `i`. -/
def State.withData (s : State) (i : Nat) (d : Nat → Sector) : State :=
  s.setBuf i fun buf => { buf with dataBuf := { buf.dataBuf with data := d } }

theorem withData_self (s : State) (i : Nat) : s.withData i (s.pool i).dataBuf.data = s := by
  unfold State.withData State.setBuf
  rw [Function.update_eq_self]

/-- The sectors that are not in the buffer are read from the page. -/
theorem mergeBuf_spec (hwf : fip.Wf) (hA : Calm A) (h : InvAt fip L X b k s.ftl s.vol D)
    (hv : v < fip.virtualSectorNum) (hs : (s.pool i).sector = v) :
    wp A Fed (mergeBuf fip i)
      (fun _ s' => s' = s.withData i (s.mergedData fip i v D) ∨
        s' = s.tick.withData i (s.mergedData fip i v D))
      (fun e s' => e = .powerCut ∧ s.mayCut ∧ s' = s.tick) s := by
  simp only [mergeBuf, wp_bind, wp_getState, wp_when, hs, wp_getSectorIndex hv]
  refine ⟨fun hneed => ?_, fun hneed => ?_⟩
  · rcases h.indexed hv with ⟨hi, hD⟩ | ⟨b', p, pg, hi, hb, hp, hpg, hD⟩
    · refine ⟨fun hne => absurd hi hne, fun _ => .inl ?_⟩
      unfold State.mergedData
      rw [if_pos hneed, hD]
      exact (withData_self s i).symm
    · refine ⟨fun _ => ?_, fun hne => absurd (hi.symm.trans (not_not.mp hne))
        (pageIndex_ne_nomap b' p)⟩
      rw [hi, pageIndex_tdiv hp, pageIndex_tmod hp]
      refine wp_mono (ftlRead_written hA hwf hb hp hpg) ?_ (fun _ _ he => he)
      rintro r s₁ ⟨rfl, rfl⟩
      refine .inr ?_
      unfold State.mergedData
      rw [if_pos hneed, hD]
      rfl
  · refine .inl ?_
    unfold State.mergedData
    rw [if_neg hneed]
    exact (withData_self s i).symm

end Merge

/-! ## Writing -/

section Write

variable {s : State} {b k v i : Nat} {D : Nat → Option (Nat → Sector)} {m : Nat → Sector}

/-- The page `sync_one_buf` writes while the tables are `f`. -/
def bufPage (v : Nat) (f : Ftl) (m : Nat → Sector) : Page :=
  ⟨m, ⟨magicNum, v, f.blockId⟩, f.stamp⟩

/-- The buffer was written to page `k'` of block `b'`; `f` are the tables `get_new_page` left.  The
    virtual sector is not mapped to the page yet. -/
structure Written (fip : UftlInfo) (L : Prop) (D : Nat → Option (Nat → Sector)) (i v : Nat) (m : Nat → Sector)
    (s s' : State) (b' k' : Nat) (f : Ftl) : Prop where
  inv : InvAt fip L noOrphan b' k' f s.vol D
  page_lt : k' < fip.ftlPageNum
  pos : f.curOffset.page = k'
  tables : SameTables s.ftl f
  room : f.room fip + 1 = s.ftl.room fip
  ftl : s'.ftl = f.written fip k' v
  vol : s'.vol = s.vol.written fip b' k' (bufPage v f m) s'.ftl.blockLogPage
  pool : ∀ j, j ≠ i → s'.pool j = s.pool j
  sector : (s'.pool i).sector = v
  journal : s'.journal = ⟨v, m, false⟩ :: s.journal
  checkCount : s'.checkCount = s.checkCount
  fullState : s'.fullState = s.fullState
  faults : s'.env.faults = s.env.faults

/-- The page that is written is a good one. -/
theorem bufPage_good {X : Nat → Nat → Prop} {f : Ftl} {vol : Volume} (hv : v < fip.virtualSectorNum)
    (h : InvAt fip L X b k f vol D) : Good fip f.stamp (bufPage v f m) :=
  ⟨rfl, h.id, rfl, h.stamp_pos, Int.natCast_nonneg v, Int.ofNat_lt.mpr hv⟩

/-- The buffer is written to a new page. -/
theorem writeBuf_spec (hwf : fip.Wf) (hA : Calm A) (hU : U → ∀ b p, ¬A (.program b p))
    (h : InvAt fip L noOrphan b k s.ftl s.vol D) (hlog : U ∨ Logged fip L b k s.ftl s.vol)
    (hpos : s.ftl.curOffset.page = (k : Int) - 1) (hv : v < W) (hW : W ≤ fip.virtualSectorNum)
    (hs : (s.pool i).sector = v) (hm : (s.pool i).dataBuf.data = m)
    (ht : Tracked fip W s.journal D) (hroom : A .noFreeBlock → 0 < s.ftl.room fip) :
    wp A Fed (writeBuf fip i)
      (fun r s' => ∃ b' k' f, r = fip.pageIndex b' k' ∧ Written fip L D i v m s s' b' k' f)
      (Stopped fip L W s) s := by
  simp only [writeBuf, wp_bind]
  refine wp_mono (getNewPage_spec hwf h hpos hroom) ?_ (fun _ _ hf => hf)
  rintro idx s₁ ⟨b', k', rfl, hnew⟩
  have hne : fip.pageIndex b' k' ≠ -1 := pageIndex_ne_nomap b' k'
  have hpool : s₁.pool = s.pool := hnew.frame.pool
  have hsec : (s₁.pool i).sector = v := by rw [hpool]; exact hs
  rw [wp_ite]
  refine ⟨fun he => absurd he hne, fun _ => ?_⟩
  simp only [wp_bind, wp_modifyState, wp_getState, pageIndex_tdiv hnew.page_lt,
    pageIndex_tmod hnew.page_lt, Int.toNat_natCast, wp_pure]
  -- the state in which the page is written
  generalize hs₂ : State.syncStarts (s₁.setBuf i fun b =>
    { b with dataBuf :=
      { b.dataBuf with log := ⟨magicNum, b.sector, s₁.ftl.blockId⟩, stamp := s₁.ftl.stamp } }) i = s₂
  have hbuf : s₂.pool i =
      { s.pool i with sector := (v : Int), dataBuf := bufPage v s₁.ftl m } := by
    subst hs₂
    show Function.update s₁.pool i _ i = _
    rw [Function.update_self, hsec, hpool, ← hm]
    rfl
  have hother : ∀ j, j ≠ i → s₂.pool j = s.pool j := by
    intro j hj
    subst hs₂
    show Function.update s₁.pool i _ j = _
    rw [Function.update_of_ne hj, hpool]
  have hjournal : s₂.journal = ⟨v, m, false⟩ :: s.journal := by
    have : s₂.journal = ⟨(s₂.pool i).sector, (s₂.pool i).dataBuf.data, false⟩ :: s₁.journal := by
      subst hs₂
      rfl
    rw [this, hbuf, hnew.frame.journal]
    rfl
  have hsector : (s₂.pool i).sector = v := by rw [hbuf]
  have hdata : (s₂.pool i).dataBuf = bufPage v s₁.ftl m := by rw [hbuf]
  have hftl : s₂.ftl = s₁.ftl := by subst hs₂; rfl
  have hvol : s₂.vol = s.vol := by
    rw [← hnew.vol]
    subst hs₂
    rfl
  have hfaults : s₂.env.faults = s.env.faults := by
    rw [← hnew.frame.faults]
    subst hs₂
    rfl
  have hcount : s₂.checkCount = s.checkCount := by
    rw [← hnew.frame.checkCount]
    subst hs₂
    rfl
  have hfull : s₂.fullState = s.fullState := by
    rw [← hnew.frame.fullState]
    subst hs₂
    rfl
  have hcut : s₂.mayCut → s.mayCut := by
    unfold State.mayCut
    rw [hfaults]
    exact id
  have ht₂ : Tracked fip W s₂.journal D := hjournal ▸ ht.begin
  have ht₂' : Tracked fip W s₂.journal (Function.update D v (some m)) :=
    hjournal ▸ ht.update hv false
  have hvlt : v < fip.virtualSectorNum := Nat.lt_of_lt_of_le hv hW
  rw [hdata, hsector]
  by_cases hlogged : Logged fip L b k s.ftl s.vol
  · have hinv : InvAt fip L noOrphan b' k' s₁.ftl s₂.vol D := by
      rw [hvol, ← hnew.vol]
      exact hnew.inv hlogged
    have hstamp : s₂.ftl.stamp = s₁.ftl.stamp := by rw [hftl]
    refine program_spec hwf hA hinv hstamp hnew.page_lt (bufPage_good hvlt hinv) rfl ?_ ?_
    · intro s' _ hf hftl' hvol'
      rw [hftl] at hftl'
      rw [hvol] at hvol'
      exact ⟨b', k', s₁.ftl, rfl,
        { inv := hvol ▸ hinv, page_lt := hnew.page_lt, pos := hnew.pos, tables := hnew.tables
          room := hnew.room, ftl := hftl', vol := hvol'
          pool := fun j hj => by rw [hf.pool]; exact hother j hj
          sector := by rw [hf.pool]; exact hsector
          journal := hf.journal.trans hjournal
          checkCount := hf.checkCount.trans hcount
          fullState := hf.fullState.trans hfull
          faults := hf.faults.trans hfaults }⟩
    · intro s' hc hf hst hd
      rcases hd with hvol' | ⟨-, hd | hd⟩
      · refine ⟨D, hf.journal ▸ ht₂, .inl ⟨rfl, hcut hc, ?_⟩⟩
        rw [hvol', hst, hstamp]
        exact hinv.disk
      · exact ⟨D, hf.journal ▸ ht₂, .inl ⟨rfl, hcut hc, hd⟩⟩
      · exact ⟨_, hf.journal ▸ ht₂', .inl ⟨rfl, hcut hc, hd⟩⟩
  · -- a full block without log page: no page is programmed in this session
    have hu : U := hlog.resolve_right hlogged
    have hk : k = fip.ftlPageNum := by
      by_contra hk
      exact hlogged fun he => absurd he hk
    have hmem : b' ∈ s.ftl.emptyBlockFifo.items := by
      rcases hnew.block with ⟨hlt, -⟩ | ⟨-, hmem⟩
      · omega
      · exact hmem
    have herased : (s₂.vol.leb b').page k' = .erased := by
      rw [hvol]
      exact (h.fifo b' hmem).2.2.1 k' hnew.page_lt
    refine wp_mono (ftlWrite_spec hA hwf hnew.block_lt hnew.page_lt herased) ?_ ?_
    · rintro _ s' ⟨hev, -⟩
      exact absurd hev (hU hu b' k')
    · rintro e s' ⟨rfl, hc, rfl | ⟨hev, -⟩⟩
      · refine ⟨D, ht₂, .inl ⟨rfl, hcut hc, ?_⟩⟩
        rw [show s₂.tick.vol = s.vol from hvol]
        exact h.disk.mono (hftl ▸ hnew.stamp_le)
      · exact absurd hev (hU hu b' k')

end Write

/-! ## Remapping -/

section Remap

variable {s s₀ : State} {b k v i : Nat} {f : Ftl} {D : Nat → Option (Nat → Sector)}
  {m : Nat → Sector}

theorem InvAt.room_nonneg {X : Nat → Nat → Prop} {vol : Volume} (h : InvAt fip L X b k f vol D)
    (hpos : f.curOffset.page = (k : Int) - 1) :
    (fip.ftlPageNum : Int) * f.getEmptyBlockNum ≤ f.room fip ∧ 0 ≤ f.room fip := by
  have hle := h.le
  have hmul : 0 ≤ (fip.ftlPageNum : Int) * f.emptyBlockFifo.items.length :=
    Int.mul_nonneg (by omega) (by omega)
  unfold Ftl.room Ftl.getEmptyBlockNum
  omega

/-- An unmapped sector leaves no orphan behind. -/
theorem orphaned_unmapped (hi : f.sectorIndex v = ftlNomap) :
    orphaned fip noOrphan f v = noOrphan := by
  funext b p
  refine propext ⟨?_, fun hf => hf.elim⟩
  rintro (hf | ⟨-, -, hbp⟩)
  · exact hf
  · exact absurd (hbp.symm.trans hi) (pageIndex_ne_nomap b p)

/-- Recycling the block whose page was discarded, if it has no live page left. -/
theorem recycleEmptied_spec (hwf : fip.Wf) (hA : Calm A) (hframe : Frame s₀ s)
    (hcap : s.ftl.emptyBlockFifo.cap = s₀.ftl.emptyBlockFifo.cap)
    (hroom : s.ftl.room fip = s₀.ftl.room fip)
    (h : InvAt fip L noOrphan b k s.ftl s.vol D) (hlog : Logged fip L b k s.ftl s.vol)
    (hpos : s.ftl.curOffset.page = (k : Int) - 1) {B : Nat} (hB : B < fip.lebNum) :
    wp A Fed (when (s.ftl.getBlockUsingPageNum fip B = 0) (scrubBlock fip B))
      (fun _ s' => Inv fip L noOrphan s'.ftl s'.vol D ∧ Frame s₀ s' ∧
        s'.ftl.emptyBlockFifo.cap = s₀.ftl.emptyBlockFifo.cap ∧
        (fip.lebNum ≤ s₀.ftl.emptyBlockFifo.cap → s₀.ftl.room fip ≤ s'.ftl.room fip))
      (Left fip L s₀ D) s := by
  have hP := hwf.page_pos
  rw [wp_when]
  refine ⟨fun hzero => ?_, fun _ => ⟨⟨b, k, h, hlog, hpos⟩, hframe, hcap,
    fun _ => by rw [hroom]⟩⟩
  obtain ⟨hfree, hfull, hnum, -⟩ := h.victim hwf hB (by omega)
  rw [hzero] at hnum
  refine wp_mono (scrubBlock_spec hwf hA hB h hlog hpos hfull hfree fun _ => ?_) ?_ ?_
  · rw [← hnum]
    exact (h.room_nonneg hpos).2
  · intro _ s₂ h₂
    refine ⟨h₂.inv, hframe.trans h₂.frame, h₂.cap.trans hcap, fun hc => ?_⟩
    have := h₂.room (by rw [hcap]; exact hc)
    omega
  · exact fun e s₂ hl => hl.trans hframe

/-- **`sync_one_buf` after the write**: the sector is mapped to its new page, the old page becomes
    garbage, and its block is recycled if that was its last live page. -/
theorem remapSector_spec (hwf : fip.Wf) (hA : Calm A)
    (h : Written fip L D i v m s₀ s b k f) (hv : v < fip.virtualSectorNum) :
    wp A Fed (remapSector fip v (fip.pageIndex b k))
      (fun _ s' => Inv fip L noOrphan s'.ftl s'.vol (Function.update D v (some m)) ∧ Frame s s' ∧
        s'.ftl.emptyBlockFifo.cap = s.ftl.emptyBlockFifo.cap ∧
        (fip.lebNum ≤ s.ftl.emptyBlockFifo.cap → s.ftl.room fip ≤ s'.ftl.room fip))
      (Left fip L s (Function.update D v (some m))) s := by
  have hk := h.page_lt
  obtain ⟨hinv, hlogged⟩ := h.inv.append hk hv (bufPage_good (m := m) hv h.inv) rfl
  have hlogpage : s.ftl.blockLogPage = (f.written fip k v).blockLogPage := by rw [h.ftl]
  rw [← hlogpage, ← h.vol, ← h.ftl] at hinv hlogged
  have hpos : (s.ftl.mapTo fip b k v).curOffset.page = ((k + 1 : Nat) : Int) - 1 := by
    show s.ftl.curOffset.page = _
    rw [h.ftl, Ftl.written_curOffset, h.pos]
    push_cast
    omega
  have hold : s.ftl.sectorIndex v = f.sectorIndex v := by rw [h.ftl, Ftl.written_sectorIndex]
  simp only [remapSector, wp_bind, wp_getSectorIndex hv, pageIndex_tdiv hk, pageIndex_tmod hk,
    wp_setPageState h.inv.chain.lt hk, wp_setSectorIndex hv, addBlockUsingPage, wp_modifyState,
    wp_when, Int.toNat_natCast]
  show (_ → wp A Fed _ _ _ (s.onFtl (·.mapTo fip b k v))) ∧ (_ → _)
  rcases h.inv.indexed hv with ⟨hi, -⟩ | ⟨bo, po, pg, hi, hbo, hpo, -⟩
  · -- the first write of the sector
    rw [orphaned_unmapped hi] at hinv
    exact ⟨fun hne => absurd (hold.trans hi) hne,
      fun _ => ⟨⟨b, k + 1, hinv, hlogged, hpos⟩, ⟨rfl, rfl, rfl, rfl, rfl⟩, rfl,
        fun _ => Int.le_refl _⟩⟩
  · rw [orphaned_mapped hbo hpo hi] at hinv
    have hdis := hinv.discard (.inr ⟨rfl, rfl⟩ : noOrphan bo po ∨ bo = bo ∧ po = po)
    have hnone : (fun b' p => (noOrphan b' p ∨ b' = bo ∧ p = po) ∧ ¬(b' = bo ∧ p = po)) =
        noOrphan := by
      funext b' p
      exact propext ⟨fun hx => hx.1.elim id fun he => absurd he hx.2, fun hf => hf.elim⟩
    rw [hnone] at hdis
    have hidx := hold.trans hi
    refine ⟨fun _ => ?_, fun hne => absurd (hidx.symm.trans (not_not.mp hne))
      (pageIndex_ne_nomap bo po)⟩
    rw [hidx]
    simp only [pageIndex_tdiv hpo, pageIndex_tmod hpo, wp_setPageState hbo hpo, delBlockUsingPage,
      wp_modifyState, wp_getState, Int.toNat_natCast]
    have hframe : Frame s (s.onFtl fun f => (f.mapTo fip b k v).discardPage bo po) :=
      ⟨rfl, rfl, rfl, rfl, rfl⟩
    have hrec := recycleEmptied_spec hwf hA hframe rfl rfl hdis hlogged hpos hbo
    rw [wp_when] at hrec
    exact hrec

/-! ## Garbage and release -/

/-- `check_count++`; the counter is not at its end where it matters. -/
theorem countPage_spec (hA : Calm A) {E : Exit → State → Prop} :
    wp A Fed countPage
      (fun _ s' => s' = { s with checkCount := wrapInt (s.checkCount + 1) } ∧
        (A .noFreeBlock → s.checkCount ≠ intMax)) E s := by
  simp only [countPage, wp_bind, wp_getState, wp_when, wp_emit, wp_modifyState]
  refine ⟨fun _ hwrap => ⟨by simp [Fed], trivial, fun hn => absurd hwrap (hA.noWrap hn)⟩, fun hne => ?_⟩
  exact ⟨trivial, fun _ => hne⟩

/-- The last step of `sync_one_buf` on the accounts: enough pages remain, or garbage is
    collected. -/
theorem checkGarbage_spec (hwf : fip.Wf) (hA : Calm A) (h : Inv fip L noOrphan s.ftl s.vol D)
    (hfed : A .noFreeBlock → fip.lebNum ≤ s.ftl.emptyBlockFifo.cap ∧
      (0 ≤ s.checkCount ∧ s.checkCount ≤ intMax) ∧
      (s.checkCount < fip.ftlPageNum →
        2 * (fip.ftlPageNum : Int) ≤ s.ftl.room fip + (s.checkCount + 1)) ∧
      (fip.ftlPageNum ≤ s.checkCount → (fip.ftlPageNum : Int) - 1 ≤ s.ftl.room fip)) :
    wp A Fed (checkGarbage fip)
      (fun _ s' => Inv fip L noOrphan s'.ftl s'.vol D ∧ OpFrame s s' ∧ s'.pool = s.pool ∧
        s'.journal = s.journal ∧ (A .noFreeBlock → Supplied fip s'))
      (Left fip L s D) s := by
  have hcount : A .noFreeBlock → s.checkCount ≠ intMax →
      wrapInt (s.checkCount + 1) = s.checkCount + 1 ∧ s.checkCount + 1 ≤ intMax := by
    intro hn hne
    have hrange := (hfed hn).2.1
    exact ⟨wrapInt_of_le (by omega) (by omega), by omega⟩
  simp only [checkGarbage, wp_bind]
  refine wp_mono (countPage_spec hA) ?_ fun _ _ hf => hf
  rintro _ s₁ ⟨rfl, hsteady⟩
  simp only [wp_bind, wp_modifyState, wp_getState, wp_when]
  refine ⟨fun hgc => ?_, fun hno => ?_⟩
  · -- garbage is collected: there are ten free blocks then, and the count starts again
    have hover : (fip.ftlPageNum : Int) < wrapInt (s.checkCount + 1) := hgc.1
    have h₁ : Inv fip L noOrphan
        (State.ftl { s with checkCount := wrapInt (s.checkCount + 1) })
        (State.vol { s with checkCount := wrapInt (s.checkCount + 1) }) D := h
    refine wp_mono (garbageChecking_spec hwf hA h₁ fun hn => ?_) ?_ ?_
    · obtain ⟨hcap, -, -, hlate⟩ := hfed hn
      have hwrap := hcount hn (hsteady hn)
      exact ⟨hcap, hlate (by omega)⟩
    · rintro _ s' ⟨hinv, hf, hempty, hcap⟩
      refine ⟨hinv, ⟨hf.fullState, hf.faults, hcap⟩, hf.pool, hf.journal, fun hn => ?_⟩
      obtain ⟨b', k', hinv', -, hpos'⟩ := hinv
      have hr := (hinv'.room_nonneg hpos').1
      refine
        { cap := by
            rw [show s'.ftl.emptyBlockFifo.cap = s.ftl.emptyBlockFifo.cap from hcap]
            exact (hfed hn).1
          count := ⟨Int.le_refl 0, (by decide : (0 : Int) ≤ intMax)⟩
          early := fun _ => ?_
          late := fun hc => ?_ }
      · have hten : (fip.ftlPageNum : Int) * gcBlockNum ≤
            fip.ftlPageNum * s'.ftl.getEmptyBlockNum :=
          Int.mul_le_mul_of_nonneg_left (by exact_mod_cast hempty) (by omega)
        unfold gcBlockNum at hten
        show 2 * (fip.ftlPageNum : Int) ≤ s'.ftl.room fip + 0
        omega
      · -- the count is 0, so not late
        have hc : (fip.ftlPageNum : Int) < 0 := hc
        omega
    · intro e s' hl
      exact ⟨hl.1, hl.2.imp_left fun hcut => ⟨hcut.1, hcut.2.1, hcut.2.2⟩⟩
  · -- it is not: the count was small still, or the free blocks are enough
    refine ⟨h, ⟨rfl, rfl, rfl⟩, trivial, trivial, fun hn => ?_⟩
    obtain ⟨hcap, hrange, hearly, -⟩ := hfed hn
    obtain ⟨hwrap, hle⟩ := hcount hn (hsteady hn)
    rw [hwrap] at hno ⊢
    refine ⟨hcap, ⟨by show 0 ≤ s.checkCount + 1; omega, hle⟩, fun hc => ?_, fun hc => ?_⟩
    · have hc : s.checkCount + 1 ≤ fip.ftlPageNum := hc
      exact hearly (by omega)
    · have hc : (fip.ftlPageNum : Int) < s.checkCount + 1 := hc
      have hno : ¬(s.checkCount + 1 > fip.ftlPageNum ∧ s.ftl.getEmptyBlockNum < lowBlockNum) := hno
      show lowBlockNum ≤ s.ftl.getEmptyBlockNum
      omega

end Remap

/-! ## `sync_one_buf` -/

section Sync

variable {s : State} {b k i : Nat} {D : Nat → Option (Nat → Sector)}

/-- `sync_one_buf` returned 0 for buffer `i`: the buffer is free, and if it was dirty its virtual
    sector has the merged data. -/
structure Synced (fip : UftlInfo) (L : Prop) (U : Prop) (W : Nat) (i : Nat) (D : Nat → Option (Nat → Sector))
    (s s' : State) (D' : Nat → Option (Nat → Sector)) : Prop where
  ready : Ready fip L U s'.ftl s'.vol D'
  frame : OpFrame s s'
  pool : ∀ j, j ≠ i → s'.pool j = s.pool j
  free : (s'.pool i).sector = ftlNomap ∧ (s'.pool i).sectorState = 0 ∧ (s'.pool i).read = false
  tracked : Tracked fip W s'.journal D'
  data : (s.pool i).sectorState = 0 ∧ D' = D ∨
    ∃ v, v < W ∧ (s.pool i).sector = (v : Nat) ∧
      D' = Function.update D v (some (s.mergedData fip i v D))

/-- A supplied driver has room for the next page, and for garbage collection after it. -/
theorem Supplied.room (h : Supplied fip s) (hinv : InvAt fip L noOrphan b k s.ftl s.vol D)
    (hpos : s.ftl.curOffset.page = (k : Int) - 1) (hwf : fip.Wf) :
    0 < s.ftl.room fip ∧
      (s.checkCount < fip.ftlPageNum → 2 * (fip.ftlPageNum : Int) ≤ s.ftl.room fip + s.checkCount) ∧
      (fip.ftlPageNum ≤ s.checkCount → (fip.ftlPageNum : Int) ≤ s.ftl.room fip) := by
  have hP := hwf.page_pos
  have hfree := (hinv.room_nonneg hpos).1
  by_cases hc : s.checkCount ≤ fip.ftlPageNum
  · have := h.early hc
    exact ⟨by omega, fun _ => this, fun _ => by omega⟩
  · have hlate := h.late (by omega)
    have hfive : (fip.ftlPageNum : Int) * lowBlockNum ≤ fip.ftlPageNum * s.ftl.getEmptyBlockNum :=
      Int.mul_le_mul_of_nonneg_left (by exact_mod_cast hlate) (by omega)
    unfold lowBlockNum at hfive
    exact ⟨by omega, fun _ => by omega, fun _ => by omega⟩

/-- It is free then. -/
theorem releaseBuf_spec {E : Exit → State → Prop} :
    wp A Fed (releaseBuf i)
      (fun _ s' => s'.ftl = s.ftl ∧ s'.vol = s.vol ∧ s'.journal = s.journal ∧
        s'.fullState = s.fullState ∧ s'.env.faults = s.env.faults ∧ s'.checkCount = s.checkCount ∧
        (∀ j, j ≠ i → s'.pool j = s.pool j) ∧
        (s'.pool i).sector = ftlNomap ∧ (s'.pool i).sectorState = 0 ∧ (s'.pool i).read = false)
      E s := by
  unfold releaseBuf readJiffies
  rw [wp_bind, wp_bind, wp_getState, wp_bind, wp_modifyState, wp_pure, wp_modifyState]
  refine ⟨rfl, rfl, rfl, rfl, rfl, rfl, fun j hj => ?_, ?_⟩
  · exact Function.update_of_ne hj ..
  · simp [State.setBuf]

theorem State.syncReturns_journal {s : State} {r : SyncRecord} {rest : List SyncRecord}
    (h : s.journal = r :: rest) : s.syncReturns.journal = { r with returned := true } :: rest := by
  unfold State.syncReturns
  rw [h]

/-- **`sync_one_buf`**. -/
theorem syncOneBuf_spec (hwf : fip.Wf) (hA : Calm A) (hU : U → ∀ b p, ¬A (.program b p))
    (hW : W ≤ fip.virtualSectorNum) (hi : i < bufNum) (h : Mounted fip L U W s D)
    (hfed : A .noFreeBlock → Supplied fip s) :
    wp A Fed (syncOneBuf fip i)
      (fun _ s' => (∃ D', Synced fip L U W i D s s' D') ∧ (A .noFreeBlock → Supplied fip s'))
      (Stopped fip L W s) s := by
  simp only [syncOneBuf, wp_bind, wp_getState, wp_when]
  refine ⟨fun hdirty => ?_, fun hclean => ?_⟩
  · obtain ⟨b, k, hinv, hlog, hpos⟩ := h.ready
    obtain ⟨v, hv, hs⟩ : ∃ v, v < W ∧ (s.pool i).sector = (v : Nat) := by
      rcases h.pool.sector i hi with hn | hv
      · exact absurd (h.pool.free i hi hn).1 hdirty
      · exact hv
    have hvlt : v < fip.virtualSectorNum := Nat.lt_of_lt_of_le hv hW
    generalize hm : s.mergedData fip i v D = m
    refine wp_mono (mergeBuf_spec hwf hA hinv hvlt hs) ?_ ?_
    · -- merged: only the data of buffer `i` changed
      intro _ s₁ hs₁
      rw [hm] at hs₁
      have hftl₁ : s₁.ftl = s.ftl := by rcases hs₁ with rfl | rfl <;> rfl
      have hvol₁ : s₁.vol = s.vol := by rcases hs₁ with rfl | rfl <;> rfl
      have hjournal₁ : s₁.journal = s.journal := by rcases hs₁ with rfl | rfl <;> rfl
      have hfaults₁ : s₁.env.faults = s.env.faults := by rcases hs₁ with rfl | rfl <;> rfl
      have hcount₁ : s₁.checkCount = s.checkCount := by rcases hs₁ with rfl | rfl <;> rfl
      have hfull₁ : s₁.fullState = s.fullState := by rcases hs₁ with rfl | rfl <;> rfl
      have hbuf₁ : s₁.pool i =
          { s.pool i with dataBuf := { (s.pool i).dataBuf with data := m } } := by
        rcases hs₁ with rfl | rfl <;> exact Function.update_self ..
      have hother₁ : ∀ j, j ≠ i → s₁.pool j = s.pool j := by
        intro j hj
        rcases hs₁ with rfl | rfl <;> exact Function.update_of_ne hj ..
      have hframe₁ : OpFrame s s₁ := ⟨hfull₁, hfaults₁, by rw [hftl₁]⟩
      refine wp_mono (writeBuf_spec (D := D) (v := v) (m := m) (b := b) (k := k) hwf hA hU
        (by rw [hftl₁, hvol₁]; exact hinv) (by rw [hftl₁, hvol₁]; exact hlog)
        (by rw [hftl₁]; exact hpos) hv hW (by rw [hbuf₁]; exact hs) (by rw [hbuf₁])
        (by rw [hjournal₁]; exact h.tracked) fun hn => ?_) ?_ (fun e s' hst => hst.trans hframe₁)
      · rw [hftl₁]
        exact ((hfed hn).room hinv hpos hwf).1
      · rintro idx s₂ ⟨b', k', f, rfl, hw⟩
        rw [hs]
        have hframe₂ : s₂.mayCut → s.mayCut := by
          unfold State.mayCut
          rw [hw.faults, hfaults₁]
          exact id
        have htracked₂ : Tracked fip W s₂.journal (Function.update D v (some m)) := by
          rw [hw.journal, hjournal₁]
          exact h.tracked.update hv false
        have hcap₂ : s₂.ftl.emptyBlockFifo.cap = s.ftl.emptyBlockFifo.cap := by
          rw [hw.ftl, Ftl.written_fifo, hw.tables.cap, hftl₁]
        have hroom₂ : s₂.ftl.room fip + 1 = s.ftl.room fip := by
          rw [← hftl₁, ← hw.room, hw.ftl]
          unfold Ftl.room
          rw [Ftl.written_curOffset, Ftl.written_fifo]
        have hcount₂ : s₂.checkCount = s.checkCount := hw.checkCount.trans hcount₁
        refine wp_mono (remapSector_spec hwf hA hw hvlt) ?_
          (fun e s' hl => hl.stopped hframe₂ htracked₂)
        rintro _ s₃ ⟨hinv₃, hf₃, hcap₃, hroom₃⟩
        refine wp_mono (checkGarbage_spec hwf hA hinv₃ fun hn => ?_) ?_ ?_
        · have hsup := hfed hn
          obtain ⟨-, hearly, hlate⟩ := hsup.room hinv hpos hwf
          have hcap := hsup.cap
          have := hroom₃ (by omega)
          rw [hf₃.checkCount, hcount₂]
          refine ⟨by omega, hsup.count, fun hc => ?_, fun hc => ?_⟩
          · have := hearly hc
            omega
          · have := hlate hc
            omega
        · rintro _ s₄ ⟨hinv₄, hf₄, hpool₄, hjournal₄, hsup₄⟩
          simp only [wp_modifyState]
          have hj₄ : s₄.syncReturns.journal = ⟨v, m, true⟩ :: s.journal := by
            have hlast : s₄.journal = ⟨v, m, false⟩ :: s.journal := by
              rw [hjournal₄, hf₃.journal, hw.journal, hjournal₁]
            exact State.syncReturns_journal hlast
          refine wp_mono (releaseBuf_spec) ?_ (fun _ _ hf => hf)
          rintro _ s₅ ⟨hftl₅, hvol₅, hjournal₅, hfull₅, hfaults₅, hcount₅, hother₅, hfree₅⟩
          refine ⟨⟨Function.update D v (some m),
            { ready := by rw [hftl₅, hvol₅]; exact hinv₄.ready
              frame := ⟨?_, ?_, ?_⟩, pool := fun j hj => ?_, free := hfree₅, tracked := ?_
              data := .inr ⟨v, hv, hs, by rw [hm]⟩ }⟩, fun hn => ?_⟩
          · rw [hfull₅]
            exact hf₄.fullState.trans (hf₃.fullState.trans (hw.fullState.trans hfull₁))
          · rw [hfaults₅]
            exact hf₄.faults.trans (hf₃.faults.trans (hw.faults.trans hfaults₁))
          · rw [hftl₅]
            exact hf₄.cap.trans (hcap₃.trans hcap₂)
          · rw [hother₅ j hj]
            show s₄.pool j = _
            rw [hpool₄, hf₃.pool, hw.pool j hj, hother₁ j hj]
          · rw [hjournal₅, hj₄]
            exact h.tracked.update hv true
          · exact (hsup₄ hn).congr hftl₅ hcount₅
        · intro e s' hl
          refine hl.stopped (fun hc => hframe₂ (hf₃.mayCut hc)) ?_
          rw [hf₃.journal]
          exact htracked₂
    · rintro e s₁ ⟨rfl, hcut, rfl⟩
      exact ⟨D, h.tracked, .inl ⟨rfl, hcut, hinv.disk⟩⟩
  · have hclean : (s.pool i).sectorState = 0 := not_not.mp hclean
    refine wp_mono (releaseBuf_spec) ?_ (fun _ _ hf => hf)
    rintro _ s₅ ⟨hftl₅, hvol₅, hjournal₅, hfull₅, hfaults₅, hcount₅, hother₅, hfree₅⟩
    refine ⟨⟨D,
      { ready := by rw [hftl₅, hvol₅]; exact h.ready
        frame := ⟨hfull₅, hfaults₅, by rw [hftl₅]⟩, pool := hother₅, free := hfree₅
        tracked := by rw [hjournal₅]; exact h.tracked
        data := .inl ⟨hclean, rfl⟩ }⟩, fun hn => ?_⟩
    exact (hfed hn).congr hftl₅ hcount₅

end Sync

end Uftl
