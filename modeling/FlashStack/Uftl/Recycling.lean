/-
  Specifications of `scrub_block` and of garbage collection.

  `scrub_block` copies the live pages of a block one by one.  The source pages stay `PAGE_USING`
  (they are orphans) until the block is recycled, and the invariant of the loop says so:
  `ScrubAt B j` holds before round `j`, when the live pages below `j` have been moved.

  When all live pages have been moved, nothing in the block is live, and it can be erased and put
  into the fifo (`scrubEnd_spec`).  The collector repeats that while garbage is left and the fifo
  is low (`gcLoop_spec`).
-/
import FlashStack.Uftl.Writing
import Mathlib.Data.Finset.Card
import Mathlib.Data.Finset.Prod

namespace Uftl

open Lib Lib.Prog

variable {fip : UftlInfo} {L : Prop} {A : Event → Prop}

/-! ## Table accesses -/

section Tables

variable {G : Event → Prop} {Q : Unit → State → Prop} {E : Exit → State → Prop} {s : State}

/-- The tables have an entry for each sector. -/
theorem inSectorTable_of_lt {v : Nat} (h : v < fip.virtualSectorNum) : fip.inSectorTable v := by
  unfold UftlInfo.inSectorTable perIndexNum
  omega

/-- They are read inside of their bounds. -/
theorem wp_getSectorIndex {Q : Int → State → Prop} {v : Nat} (h : v < fip.virtualSectorNum) :
    wp A G (getSectorIndex fip v) Q E s ↔ Q (s.ftl.sectorIndex v) s := by
  simp [getSectorIndex, inSectorTable_of_lt h]

theorem wp_setSectorIndex {v : Nat} {i : Int} (h : v < fip.virtualSectorNum) :
    wp A G (setSectorIndex fip v i) Q E s ↔
      Q () (s.onFtl fun f => { f with sectorIndex := Function.update f.sectorIndex v i }) := by
  simp [setSectorIndex, inSectorTable_of_lt h]

/-- And written. -/
theorem wp_setPageState {b p : Nat} {st : PageState} (hb : b < fip.lebNum)
    (hp : p < fip.ftlPageNum) :
    wp A G (setPageState fip b p st) Q E s ↔ Q () (s.onFtl (·.setState b p st)) := by
  have : fip.inBlockTable b p := by unfold UftlInfo.inBlockTable; omega
  simp [setPageState, this]

end Tables

/-! ## What a run that does not return leaves -/

/-- `garbage_checking` wants a block and every block is full of live pages or has empty ones. -/
def Stuck (fip : UftlInfo) (L : Prop) (D : Nat → Option (Nat → Sector)) (s : State) : Prop :=
  Inv fip L noOrphan s.ftl s.vol D ∧ s.ftl.getEmptyBlockNum < gcBlockNum ∧ s.ftl.gcVictim fip = none

/-- The run from `s` was cut, or stopped in `BUG()`; the data `D` is on flash. -/
def Left (fip : UftlInfo) (L : Prop) (s : State) (D : Nat → Option (Nat → Sector)) (e : Exit) (s' : State) :
    Prop :=
  s'.journal = s.journal ∧
    (e = .powerCut ∧ s.mayCut ∧ Disk fip L s'.ftl.stamp s'.vol D ∨ e = .bug ∧ Stuck fip L D s')

theorem Frame.mayCut {s s' : State} (h : Frame s s') (hc : s'.mayCut) : s.mayCut := by
  unfold State.mayCut at *
  rwa [h.faults] at hc

/-- What a cut leaves behind. -/
theorem Left.trans {s s' s'' : State} {D : Nat → Option (Nat → Sector)} {e : Exit}
    (hf : Frame s s') (h : Left fip L s' D e s'') : Left fip L s D e s'' :=
  ⟨h.1.trans hf.journal, h.2.imp_left fun ⟨he, hc, hd⟩ => ⟨he, hf.mayCut hc, hd⟩⟩

theorem Left.cut {s s' : State} {D : Nat → Option (Nat → Sector)} (hf : Frame s s')
    (hc : s.mayCut) (hd : Disk fip L s'.ftl.stamp s'.vol D) : Left fip L s D .powerCut s' :=
  ⟨hf.journal, .inl ⟨rfl, hc, hd⟩⟩

/-! ## `scrub_block` -/

section Scrub

variable {s : State} {X : Nat → Nat → Prop} {b k v : Nat} {D : Nat → Option (Nat → Sector)}

/-- The page written by the driver, whatever block it is in, can be written again. -/
theorem Chain.good {vol : Volume} {b' p : Nat} {i : Int} {pg : Page} (h : Chain fip L vol b k i)
    (hb : b' < fip.lebNum) (hp : p < fip.ftlPageNum) (hpg : (vol.leb b').page p = .written pg) :
    ∃ j, Good fip j pg := by
  have hcell : ∀ {c : Leb} {j : Int} {n : Nat}, Shape fip c j n → c.page p = .written pg →
      ∃ j, Good fip j pg := by
    intro c j n hs hc
    by_cases hn : p < n
    · obtain ⟨pg', hpg', hg⟩ := hs.head p hn
      rw [hc] at hpg'
      cases hpg'
      exact ⟨j, hg⟩
    · rcases hs.tail p (by omega) hp with he | ⟨-, he⟩ <;> rw [hc] at he <;> cases he
  rcases h.shape hb with hs | ⟨-, ⟨j, -, hc⟩ | ⟨-, -, hs⟩⟩
  · exact hcell hs.1 hpg
  · exact hcell hc.1 hpg
  · exact hcell hs hpg

/-- A page that is copied gets the stamp of its new block. -/
theorem Good.withId {i j id : Int} {pg : Page} (h : Good fip j pg) (hi : 0 < i) (hid : id = wrapInt i) :
    Good fip i { pg with log := { pg.log with id := id }, stamp := i } :=
  ⟨h.magic, hid, rfl, hi, h.sector_nonneg, h.sector_lt⟩

/-- Mapping a mapped sector elsewhere leaves one more orphan. -/
theorem orphaned_mapped {f : Ftl} {B j : Nat} (hB : B < fip.lebNum) (hj : j < fip.ftlPageNum)
    (hi : f.sectorIndex v = fip.pageIndex B j) :
    orphaned fip X f v = fun b p => X b p ∨ b = B ∧ p = j := by
  funext b p
  refine propext (or_congr_right ⟨?_, ?_⟩)
  · rintro ⟨-, hp, hbp⟩
    obtain ⟨rfl, rfl⟩ := pageIndex_inj hj hp (hi.symm.trans hbp)
    exact ⟨rfl, rfl⟩
  · rintro ⟨rfl, rfl⟩
    exact ⟨hB, hj, hi⟩

/-- Between the rounds of `scrub_block` on block `B`: the live pages below `j` were moved, the
    source pages are orphans, and `B` is not the block that is being filled (unless it is full). -/
structure ScrubAt (fip : UftlInfo) (L : Prop) (B j : Nat) (X : Nat → Nat → Prop) (b k : Nat) (f : Ftl)
    (vol : Volume) (D : Nat → Option (Nat → Sector)) : Prop where
  inv : InvAt fip L X b k f vol D
  logged : Logged fip L b k f vol
  pos : f.curOffset.page = (k : Int) - 1
  full : B = b → k = fip.ftlPageNum
  notFree : B ∉ f.emptyBlockFifo.items
  orphans : ∀ b' p, X b' p → b' = B ∧ p < j
  moved : ∀ p, p < j → p < fip.ftlPageNum → ¬f.Live fip B p

/-- What one round does to the tables besides: the block keeps its page states, garbage elsewhere
    stays garbage and none is added. -/
structure Moved (fip : UftlInfo) (B : Nat) (f f' : Ftl) : Prop where
  states : f'.pageState B = f.pageState B
  garbage : ∀ b' p, f'.pageState b' p = .pageDiscard ↔ f.pageState b' p = .pageDiscard
  cap : f'.emptyBlockFifo.cap = f.emptyBlockFifo.cap

/-- No page was moved. -/
theorem Moved.refl (B : Nat) (f : Ftl) : Moved fip B f f := ⟨rfl, fun _ _ => Iff.rfl, rfl⟩

theorem Moved.trans {B : Nat} {f f' f'' : Ftl} (h : Moved fip B f f') (h' : Moved fip B f' f'') :
    Moved fip B f f'' :=
  ⟨h'.states.trans h.states, fun b p => (h'.garbage b p).trans (h.garbage b p), h'.cap.trans h.cap⟩

/-- The new page of `scrub_block` is not in the block it empties. -/
theorem ScrubAt.newPage_ne {B j b' k' : Nat} {s₂ : State}
    (h : ScrubAt fip L B j X b k s.ftl s.vol D) (hnew : NewPage fip L X D b k s s₂ b' k') : b' ≠ B := by
  rintro rfl
  rcases hnew.block with ⟨hk, hb⟩ | ⟨-, hmem⟩
  · exact absurd (h.full hb) (by omega)
  · exact h.notFree hmem

/-- The tables and flash after one live page was copied. -/
theorem ScrubAt.append {B j b' k' : Nat} {s₂ : State} {pg : Page} (hB : B < fip.lebNum)
    (hj : j < fip.ftlPageNum) (h : ScrubAt fip L B j X b k s.ftl s.vol D)
    (hv : v < fip.virtualSectorNum) (hi : s.ftl.sectorIndex v = fip.pageIndex B j)
    (hnew : NewPage fip L X D b k s s₂ b' k') (hgood : Good fip s₂.ftl.stamp pg)
    (hsec : pg.log.sector = v) (hD : D v = some pg.data) :
    ScrubAt fip L B (j + 1) (fun b p => X b p ∨ b = B ∧ p = j) b' (k' + 1)
      ((s₂.ftl.written fip k' v).mapTo fip b' k' v)
      (s₂.vol.written fip b' k' pg (s₂.ftl.written fip k' v).blockLogPage) D ∧
    Moved fip B s.ftl ((s₂.ftl.written fip k' v).mapTo fip b' k' v) := by
  have hinv := hnew.inv h.logged
  have hne := h.newPage_ne hnew
  have hi₂ : s₂.ftl.sectorIndex v = fip.pageIndex B j := by
    rw [hnew.tables.sectorIndex]
    exact hi
  obtain ⟨hinv', hlogged'⟩ := hinv.append hnew.page_lt hv hgood hsec
  rw [orphaned_mapped hB hj hi₂, ← hD, Function.update_eq_self] at hinv'
  have hcur : ((s₂.ftl.written fip k' v).mapTo fip b' k' v).curOffset = s₂.ftl.curOffset :=
    Ftl.written_curOffset ..
  have hfifo : ((s₂.ftl.written fip k' v).mapTo fip b' k' v).emptyBlockFifo =
      s₂.ftl.emptyBlockFifo := Ftl.written_fifo ..
  have hstate : ∀ b'' p, ((s₂.ftl.written fip k' v).mapTo fip b' k' v).pageState b'' p =
      if b'' = b' ∧ p = k' then .pageUsing else s.ftl.pageState b'' p := by
    intro b'' p
    rw [mapTo_pageState, Ftl.written_pageState, hnew.tables.pageState]
  refine ⟨
    { inv := hinv', logged := hlogged', pos := ?_, full := fun he => absurd he.symm hne
      notFree := ?_, orphans := ?_, moved := ?_ }, ?_, fun b'' p => ?_, ?_⟩
  · rw [hcur, hnew.pos]
    push_cast
    omega
  · rw [hfifo]
    exact fun hmem => h.notFree (hnew.fifo B hmem)
  · rintro b'' p (hX | ⟨rfl, rfl⟩)
    · have := h.orphans b'' p hX
      exact ⟨this.1, by omega⟩
    · exact ⟨rfl, by omega⟩
  · intro p hp hpP
    rw [live_mapTo hv hnew.page_lt hpP, Ftl.written_sectorIndex]
    rintro (⟨he, -⟩ | ⟨w, hw, hwv, hiw⟩)
    · exact hne he.symm
    · rw [hnew.tables.sectorIndex] at hiw
      by_cases hpj : p = j
      · subst hpj
        exact hwv (h.inv.injective hw hv hj hiw hi)
      · exact h.moved p (by omega) hpP ⟨w, hw, hiw⟩
  · funext p
    rw [hstate, if_neg fun hc => hne hc.1.symm]
  · rw [hstate]
    split
    · -- the new page was empty before
      obtain ⟨rfl, rfl⟩ := ‹b'' = b' ∧ p = k'›
      have hempty := (hinv.empty b'' p hnew.block_lt hnew.page_lt).mpr
        (hinv.clean p (Nat.le_refl p) hnew.page_lt)
      rw [hnew.tables.pageState] at hempty
      simp [hempty]
    · exact Iff.rfl
  · rw [hfifo, hnew.tables.cap]

/-- Only `get_new_page` uses up room. -/
theorem room_mapTo_written (f : Ftl) (w : Int) :
    ((f.written fip k w).mapTo fip b k v).room fip = f.room fip := by
  show (f.written fip k w).room fip = _
  unfold Ftl.room
  rw [Ftl.written_curOffset, Ftl.written_fifo]

/-- One round on a live page. -/
theorem scrubPage_spec (hwf : fip.Wf) (hA : Calm A) {B j : Nat} (hB : B < fip.lebNum)
    (hj : j < fip.ftlPageNum) (h : ScrubAt fip L B j X b k s.ftl s.vol D)
    (hv : v < fip.virtualSectorNum) (hi : s.ftl.sectorIndex v = fip.pageIndex B j)
    (hroom : A .noFreeBlock → 0 < s.ftl.room fip) :
    wp A Fed (scrubPage fip B j)
      (fun _ s' => (∃ X' b' k', ScrubAt fip L B (j + 1) X' b' k' s'.ftl s'.vol D) ∧
        Moved fip B s.ftl s'.ftl ∧ Frame s s' ∧ s'.ftl.room fip + 1 = s.ftl.room fip)
      (Left fip L s D) s := by
  obtain ⟨_, hpg, hsec, hD, -⟩ := h.inv.live_page hv hi hj
  simp only [scrubPage, wp_bind, wp_attempt]
  refine wp_mono (ftlRead_written hA hwf hB hj hpg) ?_ ?_
  · -- the page is read; a new page is found for it, since the pages left are enough
    rintro pg s₁ ⟨rfl, rfl⟩
    have h₁ : ScrubAt fip L B j X b k s.tick.ftl s.tick.vol D := h
    refine wp_mono (getNewPage_spec hwf h₁.inv h.pos hroom) ?_ (fun _ _ hf => hf)
    rintro idx s₂ ⟨b', k', rfl, hnew⟩
    have hframe : Frame s s₂ := (Frame.tick s).trans hnew.frame
    have hinv := hnew.inv h.logged
    obtain ⟨j₀, hgood₀⟩ := h.inv.chain.good hB hj hpg
    have hgood := hgood₀.withId hinv.stamp_pos hinv.id
    have hnonneg : 0 ≤ fip.pageIndex b' k' := pageIndex_nonneg b' k'
    rw [wp_ite]
    refine ⟨fun hneg => absurd hneg (by omega), fun _ => ?_⟩
    simp only [wp_bind, hsec, pageIndex_tdiv hnew.page_lt, pageIndex_tmod hnew.page_lt,
      wp_setSectorIndex hv, wp_setPageState hnew.block_lt hnew.page_lt, addBlockUsingPage,
      wp_modifyState, wp_getState, Int.toNat_natCast]
    have hspec := program_spec (s := s₂.onFtl (·.mapTo fip b' k' v)) hwf hA hinv rfl
      hnew.page_lt hgood hsec (Q := fun _ s' =>
        (∃ X' b' k', ScrubAt fip L B (j + 1) X' b' k' s'.ftl s'.vol D) ∧
        Moved fip B s.ftl s'.ftl ∧ Frame s s' ∧ s'.ftl.room fip + 1 = s.ftl.room fip)
      (E := Left fip L s D) ?_ ?_
    · simp only [hsec] at hspec
      exact hspec
    · -- it is programmed, and the sector maps to it
      intro s' _ hf hftl hvol
      rw [show (s₂.onFtl (·.mapTo fip b' k' v)).ftl = s₂.ftl.mapTo fip b' k' v from rfl,
        Ftl.mapTo_written] at hftl
      obtain ⟨hat, hmoved⟩ := h₁.append hB hj hv hi hnew hgood hsec hD
      have hlog : s'.ftl.blockLogPage = (s₂.ftl.written fip k' v).blockLogPage := by rw [hftl]; rfl
      rw [hlog] at hvol
      refine ⟨⟨fun b p => X b p ∨ b = B ∧ p = j, b', k' + 1, ?_⟩, ?_,
        hframe.trans ((Frame.onFtl s₂ _).trans hf), ?_⟩
      · rw [hftl, hvol]
        exact hat
      · rw [hftl]
        exact hmoved
      · rw [hftl, room_mapTo_written]
        exact hnew.room
    · -- the power was cut in that: the old copy is still on flash, with the same data
      intro s' hcut hf hstamp hd
      refine .cut (hframe.trans ((Frame.onFtl s₂ _).trans hf)) (hframe.mayCut hcut) ?_
      rcases hd with hvol | ⟨-, hd | hd⟩
      · rw [hvol, hstamp]
        exact hinv.disk
      · exact hd
      · have hdata : Function.update D v (some pg.data) = D := by
          rw [← hD, Function.update_eq_self]
        rwa [hdata] at hd
  · -- the power was cut in the read
    rintro e s₁ ⟨rfl, hcut, rfl⟩
    exact .cut (.tick s) hcut h.inv.disk

/-- `scrub_block` has recycled block `B`. -/
structure Scrubbed (fip : UftlInfo) (L : Prop) (B : Nat) (D : Nat → Option (Nat → Sector)) (s s' : State) :
    Prop where
  inv : Inv fip L noOrphan s'.ftl s'.vol D
  frame : Frame s s'
  garbage : ∀ b' p, s'.ftl.pageState b' p = .pageDiscard ↔
    b' ≠ B ∧ s.ftl.pageState b' p = .pageDiscard
  cap : s'.ftl.emptyBlockFifo.cap = s.ftl.emptyBlockFifo.cap
  room : fip.lebNum ≤ s.ftl.emptyBlockFifo.cap →
    s'.ftl.room fip + s.ftl.usingPage B = s.ftl.room fip + fip.ftlPageNum

/-- The number of live pages of `B` below `j`. -/
def Ftl.usingBelow (f : Ftl) (B j : Nat) : Nat :=
  (List.range j).countP fun p => f.pageState B p = .pageUsing

/-- One more page that is in use, or not. -/
theorem usingBelow_succ (f : Ftl) (B j : Nat) :
    f.usingBelow B (j + 1) = f.usingBelow B j + if f.pageState B j = .pageUsing then 1 else 0 := by
  simp [Ftl.usingBelow, List.range_succ, List.countP_append, List.countP_singleton]

theorem usingBelow_mono (f : Ftl) (B : Nat) {i j : Nat} (h : i ≤ j) :
    f.usingBelow B i ≤ f.usingBelow B j :=
  (List.range_sublist.mpr h).countP_le

/-- A block without live pages need not be copied. -/
theorem InvAt.not_live (h : InvAt fip L noOrphan b k s.ftl s.vol D) {B : Nat} (hB : B < fip.lebNum)
    (hz : s.ftl.usingPage B = 0) (p : Nat) (hp : p < fip.ftlPageNum) : ¬s.ftl.Live fip B p := by
  intro hl
  have husing := (h.inUse B p hB hp).mpr (.inl hl)
  rw [h.count B hB, Int.natCast_eq_zero, Ftl.countUsing, countP_range_eq_zero] at hz
  have := hz p hp
  simp [husing] at this

/-- Once no page of `B` is live, it is not the block that is being filled. -/
theorem ScrubAt.ne_current {B : Nat} (hwf : fip.Wf)
    (h : ScrubAt fip L B fip.ftlPageNum X b k s.ftl s.vol D) : B ≠ b := by
  rintro rfl
  have hk := h.full rfl
  have hP := hwf.page_pos
  exact h.moved (k - 1) (by omega) (by omega) (h.inv.last_live (by omega))

/-- A queued block is room for its pages. -/
theorem room_pushBlock {f : Ftl} {B : Nat}
    (hfree : f.emptyBlockFifo.items.length < f.emptyBlockFifo.cap) :
    (f.pushBlock B).room fip = f.room fip + fip.ftlPageNum := by
  unfold Ftl.room
  rw [Ftl.pushBlock_curOffset, Ftl.pushBlock, if_pos hfree]
  simp only [List.length_append, List.length_singleton]
  push_cast
  rw [Int.mul_add]
  omega

/-- The end of `scrub_block`: the block is unmapped and queued. -/
theorem scrubEnd_spec (hwf : fip.Wf) (hA : Calm A) {B : Nat} (hB : B < fip.lebNum) {s₁ : State}
    (h : ScrubAt fip L B fip.ftlPageNum X b k s₁.ftl s₁.vol D) (hmoved : Moved fip B s.ftl s₁.ftl)
    (hframe : Frame s s₁) (hroom : s₁.ftl.room fip + s.ftl.usingPage B = s.ftl.room fip) :
    wp A Fed (ftlErase fip B true >>= fun _ => kfifoIn B >>= fun _ =>
        modifyState fun s => s.onFtl (·.clearBlock B))
      (fun _ => Scrubbed fip L B D s) (Left fip L s D) s₁ := by
  have hne := h.ne_current hwf
  have hno : ∀ p, p < fip.ftlPageNum → ¬s₁.ftl.Live fip B p := fun p hp => h.moved p hp hp
  have hrec := h.inv.recycle hB hne hno h.notFree
  have horphans : (fun b' p => X b' p ∧ b' ≠ B) = noOrphan := by
    funext b' p
    exact propext ⟨fun hx => hx.2 (h.orphans b' p hx.1).1, fun hf => hf.elim⟩
  rw [horphans] at hrec
  simp only [wp_bind, wp_modifyState]
  refine wp_mono (ftlErase_spec hA hwf hB) ?_ ?_
  · -- the block is unmapped
    rintro _ s₂ rfl
    refine wp_mono (kfifoIn_spec) ?_ (fun _ _ hf => hf)
    · rintro _ s₃ rfl
      refine
        { inv := ⟨b, k, hrec, ?_, ?_⟩
          frame := hframe.trans ⟨rfl, rfl, rfl, rfl, rfl⟩
          garbage := fun b' p => ?_, cap := ?_, room := fun hcap => ?_ }
      · -- the block being filled is not touched
        intro hk hL
        show LogOk fip ((s₁.vol.unmap B).leb b) (s₁.ftl.pushBlock B).stamp
        rw [Volume.unmap_other _ hne.symm, Ftl.pushBlock_stamp]
        exact h.logged hk hL
      · show (s₁.ftl.pushBlock B).curOffset.page = _
        rw [Ftl.pushBlock_curOffset]
        exact h.pos
      · -- the garbage of `B` is gone
        show ((s₁.ftl.pushBlock B).clearBlock B).pageState b' p = _ ↔ _
        rw [clearBlock_pageState, Ftl.pushBlock_pageState]
        split
        · rename_i hb
          exact ⟨fun hc => (by cases hc), fun hc => absurd hb hc.1⟩
        · rename_i hb
          rw [hmoved.garbage]
          exact ⟨fun hc => ⟨hb, hc⟩, fun hc => hc.2⟩
      · show (s₁.ftl.pushBlock B).emptyBlockFifo.cap = _
        rw [Ftl.pushBlock_cap, hmoved.cap]
      · have hfree := h.inv.fifo_room (by rw [hmoved.cap]; exact hcap)
        show (s₁.ftl.pushBlock B).room fip + _ = _
        rw [room_pushBlock hfree]
        omega
  · -- the power was cut before or behind the unmapping
    rintro e s₂ ⟨rfl, hcut, rfl | rfl⟩
    · exact .cut (hframe.trans (.tick s₁)) (hframe.mayCut hcut) h.inv.disk
    · refine .cut (hframe.trans ⟨rfl, rfl, rfl, rfl, rfl⟩) (hframe.mayCut hcut) (hrec.disk.mono ?_)
      exact Int.le_of_eq (Ftl.pushBlock_stamp s₁.ftl B)

/-- **`scrub_block`** on a block that is not free and not (unless full) being written. -/
theorem scrubBlock_spec (hwf : fip.Wf) (hA : Calm A) {B : Nat} (hB : B < fip.lebNum)
    (h : InvAt fip L noOrphan b k s.ftl s.vol D) (hlog : Logged fip L b k s.ftl s.vol)
    (hpos : s.ftl.curOffset.page = (k : Int) - 1) (hfull : B = b → k = fip.ftlPageNum)
    (hfree : B ∉ s.ftl.emptyBlockFifo.items)
    (hroom : A .noFreeBlock → s.ftl.usingPage B ≤ s.ftl.room fip) :
    wp A Fed (scrubBlock fip B) (fun _ => Scrubbed fip L B D s) (Left fip L s D) s := by
  simp only [scrubBlock, wp_bind, wp_getState, wp_when]
  have hcount : s.ftl.usingPage B = s.ftl.usingBelow B fip.ftlPageNum := h.count B hB
  refine ⟨fun _ => ?_, fun hz => ?_⟩
  · -- `I j`: the live pages below `j` are moved, each took one page of room
    refine wp_mono (wp_forUpto (fun j s₁ => (∃ X b k, ScrubAt fip L B j X b k s₁.ftl s₁.vol D) ∧
      Moved fip B s.ftl s₁.ftl ∧ Frame s s₁ ∧
      s₁.ftl.room fip + s.ftl.usingBelow B j = s.ftl.room fip) ?_ ?_) ?_ (fun _ _ hl => hl)
    · exact ⟨⟨noOrphan, b, k, h, hlog, hpos, hfull, hfree, fun _ _ hf => hf.elim,
        fun p hp => absurd hp (Nat.not_lt_zero p)⟩, .refl B _, .refl s, by simp [Ftl.usingBelow]⟩
    · rintro j hj s₁ ⟨⟨X₁, b₁, k₁, h₁⟩, hmoved, hframe, hr⟩
      simp only [wp_bind, wp_getState, wp_when]
      have hstate : s₁.ftl.pageState B j = s.ftl.pageState B j := by rw [hmoved.states]
      refine ⟨fun husing => ?_, fun husing => ?_⟩
      · obtain ⟨v, hv, hi⟩ : s₁.ftl.Live fip B j := by
          rcases (h₁.inv.inUse B j hB hj).mp husing with hl | hX
          · exact hl
          · exact absurd (h₁.orphans B j hX).2 (Nat.lt_irrefl j)
        have hsucc := usingBelow_succ s.ftl B j
        rw [if_pos (hstate ▸ husing)] at hsucc
        have hmono := usingBelow_mono s.ftl B (show j + 1 ≤ fip.ftlPageNum from hj)
        refine wp_mono (scrubPage_spec hwf hA hB hj h₁ hv hi fun hno => ?_) ?_ ?_
        · have := hroom hno
          omega
        · rintro _ s₂ ⟨hat, hm, hf, hr₂⟩
          exact ⟨hat, hmoved.trans hm, hframe.trans hf, by omega⟩
        · exact fun e s₂ hl => hl.trans hframe
      · have hsucc := usingBelow_succ s.ftl B j
        rw [if_neg (hstate ▸ husing)] at hsucc
        refine ⟨⟨X₁, b₁, k₁, h₁.inv, h₁.logged, h₁.pos, h₁.full, h₁.notFree, ?_, ?_⟩, hmoved,
          hframe, by omega⟩
        · intro b' p hX
          have := h₁.orphans b' p hX
          exact ⟨this.1, by omega⟩
        · intro p hp hpP hl
          by_cases hpj : p = j
          · subst hpj
            exact husing ((h₁.inv.inUse B p hB hpP).mpr (.inl hl))
          · exact h₁.moved p (by omega) hpP hl
    · rintro _ s₁ ⟨⟨X₁, b₁, k₁, h₁⟩, hmoved, hframe, hr⟩
      have hend := scrubEnd_spec (s := s) hwf hA hB h₁ hmoved hframe (by omega)
      simpa only [wp_bind] using hend
  · have hz : s.ftl.usingPage B = 0 := not_not.mp hz
    have hat : ScrubAt fip L B fip.ftlPageNum noOrphan b k s.ftl s.vol D :=
      ⟨h, hlog, hpos, hfull, hfree, fun _ _ hf => hf.elim, fun p _ hp => h.not_live hB hz p hp⟩
    have hend := scrubEnd_spec (s := s) hwf hA hB hat (.refl B _) (.refl s) (by omega)
    simpa only [wp_bind] using hend

end Scrub

/-! ## `garbage_checking` -/

section Garbage

variable {s : State} {b k : Nat} {f : Ftl} {vol : Volume} {D : Nat → Option (Nat → Sector)}

/-- The block that is collected has garbage. -/
theorem gcVictim_some {B : Nat} (h : f.gcVictim fip = some B) :
    B < fip.lebNum ∧ f.getBlockUsingPageNum fip B < fip.ftlPageNum := by
  unfold Ftl.gcVictim at h
  rcases foldl_argmin (f.getBlockUsingPageNum fip) fip.ftlPageNum (List.range fip.lebNum) with
    ⟨hr, -⟩ | ⟨a, ha, hr, hlt⟩
  · rw [hr] at h
    cases h
  · rw [hr] at h
    cases h
    exact ⟨List.mem_range.mp ha, hlt⟩

/-- If there is none, no block has. -/
theorem gcVictim_none (h : f.gcVictim fip = none) (B : Nat) (hB : B < fip.lebNum) :
    fip.ftlPageNum ≤ f.getBlockUsingPageNum fip B := by
  unfold Ftl.gcVictim at h
  rcases foldl_argmin (f.getBlockUsingPageNum fip) fip.ftlPageNum (List.range fip.lebNum) with
    ⟨-, hall⟩ | ⟨a, -, hr, -⟩
  · exact hall B (List.mem_range.mpr hB)
  · rw [hr] at h
    cases h

/-- A block that is neither free nor being filled has no empty page. -/
theorem InvAt.written_of_full {X : Nat → Nat → Prop} (h : InvAt fip L X b k f vol D) (hwf : fip.Wf)
    {B : Nat} (hB : B < fip.lebNum) (hfull : B = b → k = fip.ftlPageNum)
    (hblank : ¬Blank fip (vol.leb B)) (p : Nat) (hp : p < fip.ftlPageNum) :
    ∃ pg, (vol.leb B).page p = .written pg := by
  have hP := hwf.page_pos
  by_cases hb : B = b
  · have hk := hfull hb
    obtain ⟨pg, hpg, -⟩ := (h.chain.cur (by omega)).1.head p (by omega)
    exact ⟨pg, hb ▸ hpg⟩
  · rcases h.others B hB hb with hbl | ⟨j, hc⟩
    · exact absurd hbl hblank
    · obtain ⟨pg, hpg, -⟩ := hc.1.head p hp
      exact ⟨pg, hpg⟩

/-- What a block that reports fewer live pages than it has pages is like: it can be recycled, and
    it holds garbage. -/
theorem InvAt.victim (h : InvAt fip L noOrphan b k f vol D) (hwf : fip.Wf) {B : Nat}
    (hB : B < fip.lebNum) (hn : f.getBlockUsingPageNum fip B < fip.ftlPageNum) :
    B ∉ f.emptyBlockFifo.items ∧ (B = b → k = fip.ftlPageNum) ∧
      f.getBlockUsingPageNum fip B = f.usingPage B ∧
      ∃ p, p < fip.ftlPageNum ∧ f.pageState B p = .pageDiscard := by
  have hP := hwf.page_pos
  unfold Ftl.getBlockUsingPageNum at hn ⊢
  split at hn
  · omega
  rename_i hc
  rw [if_neg hc]
  obtain ⟨hcur, hfirst⟩ := not_or.mp hc
  have hblank : ¬Blank fip (vol.leb B) := fun hbl =>
    hfirst ((h.empty B 0 hB hP).mpr (hbl.1 0 hP))
  have hfull : B = b → k = fip.ftlPageNum := by
    rintro rfl
    by_contra hk
    have hle := h.le
    exact hcur ⟨h.curBlock.symm, (h.empty B _ hB (by omega)).mpr
      (h.clean _ (by omega) (by omega))⟩
  refine ⟨fun hmem => hblank (h.fifo B hmem).2.2, hfull, rfl, ?_⟩
  -- not every page is live, and none is empty
  by_contra hno
  have hall : ∀ p, p < fip.ftlPageNum → decide (f.pageState B p = .pageUsing) = true := by
    intro p hp
    obtain ⟨pg, hpg⟩ := h.written_of_full hwf hB hfull hblank p hp
    have hne : f.pageState B p ≠ .pageEmpty := fun he => by
      have := (h.empty B p hB hp).mp he
      rw [hpg] at this
      cases this
    cases hst : f.pageState B p with
    | pageEmpty => exact absurd hst hne
    | pageUsing => rfl
    | pageDiscard => exact absurd ⟨p, hp, hst⟩ hno
  rw [h.count B hB, Ftl.countUsing, countP_range_eq.mpr hall] at hn
  omega

/-- The number of garbage pages. -/
def Ftl.garbage (fip : UftlInfo) (f : Ftl) : Nat :=
  ((Finset.range fip.lebNum ×ˢ Finset.range fip.ftlPageNum).filter
    fun q => f.pageState q.1 q.2 = .pageDiscard).card

/-- There is no more garbage than pages. -/
theorem garbage_le (f : Ftl) : f.garbage fip ≤ fip.lebNum * fip.ftlPageNum := by
  refine (Finset.card_filter_le _ _).trans ?_
  rw [Finset.card_product, Finset.card_range, Finset.card_range]

/-- Recycling a block with a garbage page leaves less garbage. -/
theorem garbage_lt {f' : Ftl} {B p : Nat}
    (h : ∀ b p, f'.pageState b p = .pageDiscard ↔ b ≠ B ∧ f.pageState b p = .pageDiscard)
    (hB : B < fip.lebNum) (hp : p < fip.ftlPageNum) (hg : f.pageState B p = .pageDiscard) :
    f'.garbage fip < f.garbage fip := by
  refine Finset.card_lt_card (Finset.ssubset_iff_subset_ne.mpr ⟨fun q hq => ?_, fun he => ?_⟩)
  · rw [Finset.mem_filter] at hq ⊢
    exact ⟨hq.1, ((h q.1 q.2).mp hq.2).2⟩
  · have hmem : (B, p) ∈ (Finset.range fip.lebNum ×ˢ Finset.range fip.ftlPageNum).filter
        fun q => f.pageState q.1 q.2 = .pageDiscard := by
      simp [hB, hp, hg]
    rw [← he, Finset.mem_filter] at hmem
    exact ((h B p).mp hmem.2).1 rfl

/-- The loop of `garbage_checking`: every round leaves less garbage, and more room. -/
theorem gcLoop_spec (hwf : fip.Wf) (hA : Calm A) (n : Nat) :
    ∀ s, Inv fip L noOrphan s.ftl s.vol D → s.ftl.garbage fip < n →
      (A .noFreeBlock → fip.lebNum ≤ s.ftl.emptyBlockFifo.cap ∧
        (fip.ftlPageNum : Int) - 1 ≤ s.ftl.room fip) →
      wp A Fed (gcLoop fip gcBlockNum n)
        (fun _ s' => Inv fip L noOrphan s'.ftl s'.vol D ∧ Frame s s' ∧
          gcBlockNum ≤ s'.ftl.getEmptyBlockNum ∧
          s'.ftl.emptyBlockFifo.cap = s.ftl.emptyBlockFifo.cap)
        (Left fip L s D) s := by
  induction n with
  | zero => exact fun s _ hg => absurd hg (Nat.not_lt_zero _)
  | succ n ih =>
    intro s hinv hg hroom
    simp only [gcLoop, wp_bind, wp_getState, wp_when]
    refine ⟨fun hlow => ?_, fun hlow => ⟨hinv, .refl s, by omega, trivial⟩⟩
    cases hvic : s.ftl.gcVictim fip with
    | none => exact ⟨rfl, .inr ⟨rfl, hinv, hlow, hvic⟩⟩
    | some B =>
      obtain ⟨hB, hn⟩ := gcVictim_some hvic
      obtain ⟨b, k, h, hlog, hpos⟩ := hinv
      obtain ⟨hfree, hfull, hnum, p, hp, hdis⟩ := h.victim hwf hB hn
      simp only [wp_bind]
      refine wp_mono (scrubBlock_spec hwf hA hB h hlog hpos hfull hfree fun hno => ?_) ?_
        (fun _ _ hl => hl)
      · have := (hroom hno).2
        omega
      · intro _ s₁ h₁
        have hless := garbage_lt h₁.garbage hB hp hdis
        refine wp_mono (ih s₁ h₁.inv (by omega) fun hno => ?_) ?_ ?_
        · obtain ⟨hcap, hr⟩ := hroom hno
          have := h₁.room hcap
          exact ⟨by rw [h₁.cap]; exact hcap, by omega⟩
        · rintro _ s₂ ⟨hi, hf, hempty, hcap⟩
          exact ⟨hi, h₁.frame.trans hf, hempty, hcap.trans h₁.cap⟩
        · exact fun e s₂ hl => hl.trans h₁.frame

/-- **`garbage_checking`** terminates, and returns with `GC_BLOCK_NUM` free blocks. -/
theorem garbageChecking_spec (hwf : fip.Wf) (hA : Calm A)
    (hinv : Inv fip L noOrphan s.ftl s.vol D)
    (hroom : A .noFreeBlock → fip.lebNum ≤ s.ftl.emptyBlockFifo.cap ∧
      (fip.ftlPageNum : Int) - 1 ≤ s.ftl.room fip) :
    wp A Fed (garbageChecking fip gcBlockNum)
      (fun _ s' => Inv fip L noOrphan s'.ftl s'.vol D ∧ Frame s s' ∧
        gcBlockNum ≤ s'.ftl.getEmptyBlockNum ∧
        s'.ftl.emptyBlockFifo.cap = s.ftl.emptyBlockFifo.cap)
      (Left fip L s D) s :=
  gcLoop_spec hwf hA _ s hinv (Nat.lt_succ_of_le (garbage_le s.ftl)) hroom

end Garbage

end Uftl
