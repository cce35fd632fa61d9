/-
  The transitions of the accounting invariant: `append`, `discard`, `recycle` and `nextBlock`.

  `Ftl.mapTo` and `Ftl.written` are what the driver does to its tables when it programs a page —
  `sync_one_buf` and `scrub_block` do it in different orders, but to different fields — and
  `Volume.written` is what happens on flash: the page and, after the last one of a block, its log
  page.
-/
import FlashStack.Uftl.Accounting
import FlashStack.Lib.Counting

namespace Uftl

open Lib

variable {fip : UftlInfo} {L : Prop}

/-! ## What programming a page changes -/

/-- Map virtual sector `v` to page `k` of block `b`. -/
def Ftl.mapTo (fip : UftlInfo) (f : Ftl) (b k v : Nat) : Ftl :=
  let g := (f.setState b k .pageUsing).addUsing b 1
  { g with sectorIndex := Function.update g.sectorIndex v (fip.pageIndex b k) }

/-- Note the page in `block_log_page`, and complete its header after the last page. -/
def Ftl.written (fip : UftlInfo) (f : Ftl) (k : Nat) (v : Int) : Ftl :=
  if k + 1 = fip.ftlPageNum then (f.logEntry k v).logHeader else f.logEntry k v

/-- Program the page and, after the last page, the log page. -/
def Volume.written (fip : UftlInfo) (vol : Volume) (b k : Nat) (pg : Page) (l : LogPage) : Volume :=
  let w := vol.setPage b k (.written pg)
  if k + 1 = fip.ftlPageNum then w.setLog b (.written l) else w

/-- The table and the log page can be changed in either order. -/
theorem Ftl.mapTo_written (f : Ftl) (b k v : Nat) (w : Int) :
    (f.mapTo fip b k v).written fip k w = (f.written fip k w).mapTo fip b k v := by
  unfold Ftl.written
  split <;> rfl

@[simp] theorem Ftl.written_sectorIndex (f : Ftl) (k : Nat) (v : Int) :
    (f.written fip k v).sectorIndex = f.sectorIndex := by unfold Ftl.written; split <;> rfl

@[simp] theorem Ftl.written_pageState (f : Ftl) (k : Nat) (v : Int) :
    (f.written fip k v).pageState = f.pageState := by unfold Ftl.written; split <;> rfl

@[simp] theorem Ftl.written_usingPage (f : Ftl) (k : Nat) (v : Int) :
    (f.written fip k v).usingPage = f.usingPage := by unfold Ftl.written; split <;> rfl

@[simp] theorem Ftl.written_curOffset (f : Ftl) (k : Nat) (v : Int) :
    (f.written fip k v).curOffset = f.curOffset := by unfold Ftl.written; split <;> rfl

@[simp] theorem Ftl.written_blockId (f : Ftl) (k : Nat) (v : Int) :
    (f.written fip k v).blockId = f.blockId := by unfold Ftl.written; split <;> rfl

@[simp] theorem Ftl.written_stamp (f : Ftl) (k : Nat) (v : Int) :
    (f.written fip k v).stamp = f.stamp := by unfold Ftl.written; split <;> rfl

@[simp] theorem Ftl.written_fifo (f : Ftl) (k : Nat) (v : Int) :
    (f.written fip k v).emptyBlockFifo = f.emptyBlockFifo := by unfold Ftl.written; split <;> rfl

@[simp] theorem Ftl.written_entry (f : Ftl) (k : Nat) (v : Int) :
    (f.written fip k v).blockLogPage.entry = Function.update f.blockLogPage.entry k v := by
  unfold Ftl.written; split <;> rfl

@[simp] theorem Volume.written_former (vol : Volume) (b k : Nat) (pg : Page) (l : LogPage) :
    (vol.written fip b k pg l).former = vol.former := by
  unfold Volume.written
  dsimp only
  split <;> rfl

/-- The pages after the write do not depend on the log page. -/
theorem Volume.written_page (vol : Volume) (b k b' p : Nat) (pg : Page) (l : LogPage) :
    ((vol.written fip b k pg l).leb b').page p =
      ((vol.setPage b k (.written pg)).leb b').page p := by
  unfold Volume.written
  dsimp only
  split
  · by_cases hb : b' = b
    · subst hb
      rw [Volume.setLog, Volume.setLeb_same]
      rfl
    · rw [Volume.setLog, Volume.setLeb_other _ _ hb]
  · rfl

/-- Other blocks do not change. -/
theorem Volume.written_other (vol : Volume) {b k b' : Nat} (pg : Page) (l : LogPage) (h : b' ≠ b) :
    (vol.written fip b k pg l).leb b' = vol.leb b' := by
  unfold Volume.written
  dsimp only
  split
  · rw [Volume.setLog, Volume.setLeb_other _ _ h, Volume.setPage, Volume.setLeb_other _ _ h]
  · rw [Volume.setPage, Volume.setLeb_other _ _ h]

/-- The page is written. -/
theorem Volume.written_same (vol : Volume) (b k : Nat) (pg : Page) (l : LogPage) :
    ((vol.written fip b k pg l).leb b).page k = .written pg := by
  rw [Volume.written_page, Volume.setPage, Volume.setLeb_same, Leb.setPage_same]

theorem Volume.written_page_other (vol : Volume) {b k p : Nat} (pg : Page) (l : LogPage)
    (h : p ≠ k) : ((vol.written fip b k pg l).leb b).page p = (vol.leb b).page p := by
  rw [Volume.written_page, Volume.setPage, Volume.setLeb_same, Leb.setPage_other _ _ h]

/-- Other sectors keep their copies. -/
theorem sameCopies_written {vol : Volume} {b k w : Nat} {pg : Page} {l : LogPage}
    (hk : (vol.leb b).page k = .erased) (hw : pg.log.sector ≠ (w : Int)) :
    SameCopies fip vol (vol.written fip b k pg l) w := by
  intro b' p pg' hb hp hv
  rw [Volume.written_page]
  exact sameCopies_setPage hk (fun pg'' h => by cases h; exact hw) b' p pg' hb hp hv

theorem Indexed.same {vol vol' : Volume} {v : Nat} {idx : Int} {d : Option (Nat → Sector)}
    (h : Indexed fip vol v idx d) (hs : SameCopies fip vol vol' v) : Indexed fip vol' v idx d := by
  cases d with
  | none => exact ⟨h.1, fun b p j hb hc => h.2 b p j hb ((hs.copy hb).mp hc)⟩
  | some d =>
    obtain ⟨b, p, pg, hidx, hn, hpg, hd⟩ := h
    obtain ⟨hv, hp⟩ := hn.sector hpg
    exact ⟨b, p, pg, hidx, hs.newest hn, (hs b p pg hn.block_lt hp hv).mpr hpg, hd⟩

theorem DataAt.same {vol vol' : Volume} {v : Nat} {d : Option (Nat → Sector)}
    (h : DataAt fip vol v d) (hs : SameCopies fip vol vol' v) : DataAt fip vol' v d := by
  cases d with
  | none => exact fun b p j hb hc => h b p j hb ((hs.copy hb).mp hc)
  | some d =>
    obtain ⟨b, p, pg, hn, hpg, hd⟩ := h
    obtain ⟨hv, hp⟩ := hn.sector hpg
    exact ⟨b, p, pg, hs.newest hn, (hs b p pg hn.block_lt hp hv).mpr hpg, hd⟩

/-! ## `append` -/

/-- The orphans after virtual sector `v` is mapped elsewhere. -/
def orphaned (fip : UftlInfo) (X : Nat → Nat → Prop) (f : Ftl) (v : Nat) : Nat → Nat → Prop :=
  fun b p => X b p ∨ b < fip.lebNum ∧ p < fip.ftlPageNum ∧ f.sectorIndex v = fip.pageIndex b p

section Append

variable {X : Nat → Nat → Prop} {b k v : Nat} {f : Ftl} {vol : Volume}
  {D : Nat → Option (Nat → Sector)} {pg : Page}

/-- The chain after the page, and the log page if it was the last one, is programmed. -/
theorem InvAt.append_chain (h : InvAt fip L X b k f vol D) (hk : k < fip.ftlPageNum)
    (hg : Good fip f.stamp pg) :
    Chain fip L (vol.written fip b k pg (f.written fip k pg.log.sector).blockLogPage) b (k + 1)
      f.stamp ∧
    (k + 1 = fip.ftlPageNum →
      LogOk fip ((vol.written fip b k pg (f.written fip k pg.log.sector).blockLogPage).leb b)
        f.stamp) := by
  have hch := h.chain.program hk h.clean (h.cleanLog hk) hg
  -- The last page of a block brings its log page with it.
  by_cases hlast : k + 1 = fip.ftlPageNum
  · have hentry : ∀ p, p < fip.ftlPageNum → ∀ pg',
        ((vol.setPage b k (.written pg)).leb b).page p = .written pg' →
        (f.written fip k pg.log.sector).blockLogPage.entry p = pg'.log.sector := by
      intro p hp pg' hpg'
      rw [Volume.setPage, Volume.setLeb_same] at hpg'
      rw [Ftl.written_entry]
      by_cases hpk : p = k
      · subst hpk
        rw [Leb.setPage_same] at hpg'
        cases hpg'
        exact Function.update_self ..
      · rw [Leb.setPage_other _ _ hpk] at hpg'
        rw [Function.update_of_ne hpk]
        exact h.entries p (by omega) pg' hpg'
    rw [hlast] at hch ⊢
    have hmagic : (f.written fip k pg.log.sector).blockLogPage.magic = magicNum := by
      unfold Ftl.written
      rw [if_pos hlast]
      rfl
    have hid : (f.written fip k pg.log.sector).blockLogPage.id = wrapInt f.stamp := by
      unfold Ftl.written
      rw [if_pos hlast]
      exact h.id
    have hlog := hch.writeLog (by omega) hmagic hid hentry
    unfold Volume.written
    dsimp only
    rw [if_pos hlast]
    exact ⟨hlog.1, fun _ => hlog.2⟩
  · unfold Volume.written
    dsimp only
    rw [if_neg hlast]
    exact ⟨hch, fun he => absurd he hlast⟩

/-- A sector other than `v` maps where it did; `v` maps to the new page. -/
theorem live_mapTo {g : Ftl} {b' p : Nat} (hv : v < fip.virtualSectorNum)
    (hk : k < fip.ftlPageNum) (hp : p < fip.ftlPageNum) :
    (g.mapTo fip b k v).Live fip b' p ↔
      b' = b ∧ p = k ∨ ∃ w, w < fip.virtualSectorNum ∧ w ≠ v ∧
        g.sectorIndex w = fip.pageIndex b' p := by
  have hidx : ∀ w, (g.mapTo fip b k v).sectorIndex w =
      if w = v then fip.pageIndex b k else g.sectorIndex w := by
    intro w
    show Function.update g.sectorIndex v _ w = _
    by_cases hw : w = v
    · rw [if_pos hw, hw, Function.update_self]
    · rw [if_neg hw, Function.update_of_ne hw]
  constructor
  · rintro ⟨w, hw, hi⟩
    rw [hidx] at hi
    split at hi
    · obtain ⟨rfl, rfl⟩ := pageIndex_inj hk hp hi
      exact .inl ⟨rfl, rfl⟩
    · exact .inr ⟨w, hw, ‹_›, hi⟩
  · rintro (⟨rfl, rfl⟩ | ⟨w, hw, hne, hi⟩)
    · exact ⟨v, hv, by rw [hidx, if_pos rfl]⟩
    · exact ⟨w, hw, by rw [hidx, if_neg hne, hi]⟩

/-- The new page is in use. -/
theorem mapTo_pageState {g : Ftl} {b' p : Nat} :
    (g.mapTo fip b k v).pageState b' p =
      if b' = b ∧ p = k then .pageUsing else g.pageState b' p := by
  show Function.update g.pageState b (Function.update (g.pageState b) k .pageUsing) b' p = _
  by_cases hb : b' = b
  · subst hb
    rw [Function.update_self]
    by_cases hp : p = k
    · rw [hp, Function.update_self, if_pos ⟨rfl, rfl⟩]
    · rw [Function.update_of_ne hp, if_neg fun hc => hp hc.2]
  · rw [Function.update_of_ne hb, if_neg fun hc => hb hc.1]

/-- The counters after a sector is mapped to a page that is not in use. -/
theorem mapTo_count {g : Ftl} {b' : Nat} (hk : k < fip.ftlPageNum)
    (hne : g.pageState b k ≠ .pageUsing) (hcount : g.usingPage b' = g.countUsing fip b') :
    (g.mapTo fip b k v).usingPage b' = (g.mapTo fip b k v).countUsing fip b' := by
  unfold Ftl.countUsing at hcount ⊢
  by_cases hb : b' = b
  · subst hb
    have hu : (g.mapTo fip b' k v).usingPage b' = g.usingPage b' + 1 := Function.update_self ..
    have hst : (g.mapTo fip b' k v).pageState b' =
        Function.update (g.pageState b') k .pageUsing := Function.update_self ..
    have hc := countP_range_update (fun st => decide (st = PageState.pageUsing))
      (g.pageState b') k .pageUsing fip.ftlPageNum hk
    rw [hu, hst, hcount]
    simp only [decide_true, Bool.toNat_true, hne, decide_false, Bool.toNat_false] at hc
    omega
  · have hu : (g.mapTo fip b k v).usingPage b' = g.usingPage b' := Function.update_of_ne hb ..
    have hst : (g.mapTo fip b k v).pageState b' = g.pageState b' := Function.update_of_ne hb ..
    rw [hu, hst, hcount]

/-- **append**: page `k` of the block that is being filled is programmed with the data of `v`. -/
theorem InvAt.append (h : InvAt fip L X b k f vol D) (hk : k < fip.ftlPageNum)
    (hv : v < fip.virtualSectorNum) (hg : Good fip f.stamp pg) (hs : pg.log.sector = v) :
    InvAt fip L (orphaned fip X f v) b (k + 1) ((f.written fip k v).mapTo fip b k v)
      (vol.written fip b k pg (f.written fip k v).blockLogPage)
      (Function.update D v (some pg.data)) ∧
    Logged fip L b (k + 1) ((f.written fip k v).mapTo fip b k v)
      (vol.written fip b k pg (f.written fip k v).blockLogPage) := by
  obtain ⟨hch, hlogged⟩ := h.append_chain hk hg
  rw [hs] at hch hlogged
  have hbk := h.clean k (Nat.le_refl k) hk
  have hempty : f.pageState b k = .pageEmpty := (h.empty b k h.chain.lt hk).mpr hbk
  have hnotusing : f.pageState b k ≠ .pageUsing := by rw [hempty]; simp
  have hnotlive : ¬(f.Live fip b k ∨ X b k) := fun hc =>
    hnotusing ((h.inUse b k h.chain.lt hk).mpr hc)
  -- the other sectors keep their pages
  have hsame : ∀ w, w ≠ v → SameCopies fip vol
      (vol.written fip b k pg (f.written fip k v).blockLogPage) w := fun w hw =>
    sameCopies_written hbk (by rw [hs]; omega)
  have hcopy : Copy fip ((vol.written fip b k pg (f.written fip k v).blockLogPage).leb b) k v
      f.stamp := ⟨hk, pg, Volume.written_same .., hs, hg.stamp⟩
  refine ⟨?_, fun hk1 => ?_⟩
  · refine
    { chain := by simpa [Ftl.mapTo, Ftl.setState, Ftl.addUsing] using hch
      stamp_pos := by simpa [Ftl.mapTo, Ftl.setState, Ftl.addUsing] using h.stamp_pos
      id := by simpa [Ftl.mapTo, Ftl.setState, Ftl.addUsing] using h.id
      curBlock := by simpa [Ftl.mapTo, Ftl.setState, Ftl.addUsing] using h.curBlock
      le := hk
      clean := ?_, cleanLog := ?_, others := ?_
      nodup := by simpa [Ftl.mapTo, Ftl.setState, Ftl.addUsing] using h.nodup
      fifo := ?_, queued := ?_, index := ?_, empty := ?_, inUse := ?_, orphan := ?_, count := ?_
      entries := ?_ }
    · intro p hp hpP
      rw [Volume.written_page_other _ _ _ (by omega)]
      exact h.clean p (by omega) hpP
    · intro hk1
      unfold Volume.written
      dsimp only
      rw [if_neg (by omega), Volume.setPage, Volume.setLeb_same, Leb.setPage_log]
      exact h.cleanLog hk
    · intro b' hb' hne
      rw [Volume.written_other _ _ _ hne]
      exact h.others b' hb' hne
    · intro b' hb'
      have hb' := h.fifo b' (by simpa [Ftl.mapTo, Ftl.setState, Ftl.addUsing] using hb')
      refine ⟨hb'.1, hb'.2.1, ?_⟩
      rw [Volume.written_other _ _ _ hb'.2.1]
      exact hb'.2.2
    · intro hcap b' hb' hne hblank
      rw [Volume.written_other _ _ _ hne] at hblank
      have hcap : fip.lebNum ≤ f.emptyBlockFifo.cap := by
        simpa [Ftl.mapTo, Ftl.setState, Ftl.addUsing] using hcap
      simpa [Ftl.mapTo, Ftl.setState, Ftl.addUsing] using h.queued hcap b' hb' hne hblank
    · intro w hw
      by_cases hwv : w = v
      · subst hwv
        have hi : ((f.written fip k w).mapTo fip b k w).sectorIndex w = fip.pageIndex b k :=
          Function.update_self ..
        rw [hi, Function.update_self]
        exact ⟨b, k, pg, rfl, hch.newest_last hcopy, Volume.written_same .., rfl⟩
      · have hi : ((f.written fip k v).mapTo fip b k v).sectorIndex w = f.sectorIndex w := by
          show Function.update (f.written fip k v).sectorIndex v _ w = _
          rw [Function.update_of_ne hwv, Ftl.written_sectorIndex]
        rw [hi, Function.update_of_ne hwv]
        exact (h.index w hw).same (hsame w hwv)
    · intro b' p hb' hp
      rw [mapTo_pageState, Ftl.written_pageState]
      split
      · obtain ⟨rfl, rfl⟩ := ‹b' = b ∧ p = k›
        rw [Volume.written_same]
        simp
      · rename_i hne
        rw [h.empty b' p hb' hp]
        by_cases hb : b' = b
        · subst hb
          rw [Volume.written_page_other _ _ _ fun hp => hne ⟨rfl, hp⟩]
        · rw [Volume.written_other _ _ _ hb]
    · intro b' p hb' hp
      rw [mapTo_pageState, live_mapTo hv hk hp, Ftl.written_pageState, Ftl.written_sectorIndex]
      split
      · exact ⟨fun _ => .inl (.inl ‹_›), fun _ => rfl⟩
      · rename_i hne
        rw [h.inUse b' p hb' hp]
        constructor
        · rintro (⟨w, hw, hi⟩ | hX)
          · by_cases hwv : w = v
            · exact .inr (.inr ⟨hb', hp, hwv ▸ hi⟩)
            · exact .inl (.inr ⟨w, hw, hwv, hi⟩)
          · exact .inr (.inl hX)
        · rintro ((hc | ⟨w, hw, -, hi⟩) | (hX | ⟨-, -, hi⟩))
          · exact absurd hc hne
          · exact .inl ⟨w, hw, hi⟩
          · exact .inr hX
          · exact .inl ⟨v, hv, hi⟩
    · rintro b' p hX
      -- an orphan page is not the page just written
      have hcase : b' < fip.lebNum ∧ p < fip.ftlPageNum ∧ ¬(b' = b ∧ p = k) ∧
          ∀ w, w < fip.virtualSectorNum → w ≠ v → f.sectorIndex w ≠ fip.pageIndex b' p := by
        rcases hX with hX | ⟨hb', hp, hi⟩
        · obtain ⟨hb', hp, hnl⟩ := h.orphan b' p hX
          exact ⟨hb', hp, by rintro ⟨rfl, rfl⟩; exact hnotlive (.inr hX),
            fun w hw _ hi => hnl ⟨w, hw, hi⟩⟩
        · exact ⟨hb', hp, by rintro ⟨rfl, rfl⟩; exact hnotlive (.inl ⟨v, hv, hi⟩),
            fun w hw hwv hiw => hwv (h.injective hw hv hp hiw hi)⟩
      obtain ⟨hb', hp, hne, hno⟩ := hcase
      refine ⟨hb', hp, ?_⟩
      rw [live_mapTo hv hk hp, Ftl.written_sectorIndex]
      rintro (hc | ⟨w, hw, hwv, hi⟩)
      · exact hne hc
      · exact hno w hw hwv hi
    · intro b' hb'
      apply mapTo_count hk
      · rw [Ftl.written_pageState]
        exact hnotusing
      · show (f.written fip k v).usingPage b' = _
        rw [Ftl.written_usingPage, h.count b' hb']
        unfold Ftl.countUsing
        rw [Ftl.written_pageState]
    · intro p hp pg' hpg'
      show (f.written fip k v).blockLogPage.entry p = _
      rw [Ftl.written_entry]
      by_cases hpk : p = k
      · subst hpk
        rw [Volume.written_same] at hpg'
        cases hpg'
        rw [Function.update_self, hs]
      · rw [Volume.written_page_other _ _ _ hpk] at hpg'
        rw [Function.update_of_ne hpk]
        exact h.entries p (by omega) pg' hpg'
  · intro _
    show LogOk fip _ (f.written fip k v).stamp
    rw [Ftl.written_stamp]
    exact hlogged hk1

end Append

/-! ## `discard` -/

/-- The page states of one changed entry. -/
theorem setState_pageState (f : Ftl) (b p b' p' : Nat) (st : PageState) :
    (f.setState b p st).pageState b' p' = if b' = b ∧ p' = p then st else f.pageState b' p' := by
  show Function.update f.pageState b (Function.update (f.pageState b) p st) b' p' = _
  by_cases hb : b' = b
  · subst hb
    rw [Function.update_self]
    by_cases hp : p' = p
    · rw [hp, Function.update_self, if_pos ⟨rfl, rfl⟩]
    · rw [Function.update_of_ne hp, if_neg fun hc => hp hc.2]
  · rw [Function.update_of_ne hb, if_neg fun hc => hb hc.1]

/-- Mark page `p` of block `b` as garbage. -/
def Ftl.discardPage (f : Ftl) (b p : Nat) : Ftl := (f.setState b p .pageDiscard).addUsing b (-1)

/-- The old page is garbage. -/
theorem discardPage_pageState (f : Ftl) (b p b' p' : Nat) :
    (f.discardPage b p).pageState b' p' =
      if b' = b ∧ p' = p then .pageDiscard else f.pageState b' p' := setState_pageState ..

section Shrink

variable {X : Nat → Nat → Prop} {b k bo po : Nat} {f : Ftl} {vol : Volume}
  {D : Nat → Option (Nat → Sector)}

/-- **discard**: an orphan is marked as garbage. -/
theorem InvAt.discard (h : InvAt fip L X b k f vol D) (hX : X bo po) :
    InvAt fip L (fun b' p => X b' p ∧ ¬(b' = bo ∧ p = po)) b k (f.discardPage bo po) vol D := by
  obtain ⟨hbo, hpo, hnl⟩ := h.orphan bo po hX
  have husing : f.pageState bo po = .pageUsing := (h.inUse bo po hbo hpo).mpr (.inr hX)
  refine
    { chain := h.chain, stamp_pos := h.stamp_pos, id := h.id, curBlock := h.curBlock, le := h.le
      clean := h.clean, cleanLog := h.cleanLog, others := h.others, nodup := h.nodup, fifo := h.fifo
      queued := h.queued, index := h.index, empty := ?_, inUse := ?_
      orphan := fun b' p hx => h.orphan b' p hx.1, count := ?_, entries := h.entries }
  · -- empty: the page was in use, so not empty
    intro b' p hb' hp
    rw [discardPage_pageState, ← h.empty b' p hb' hp]
    split
    · obtain ⟨rfl, rfl⟩ := ‹b' = bo ∧ p = po›
      rw [husing]
      simp
    · exact Iff.rfl
  · -- inUse: it loses the mark, and nothing maps to it
    intro b' p hb' hp
    have hlive : (f.discardPage bo po).Live fip b' p ↔ f.Live fip b' p := Iff.rfl
    rw [discardPage_pageState, hlive]
    split
    · obtain ⟨rfl, rfl⟩ := ‹b' = bo ∧ p = po›
      exact ⟨fun hc => (by cases hc),
        fun hc => hc.elim (absurd · hnl) fun hc => absurd ⟨rfl, rfl⟩ hc.2⟩
    · rename_i hne
      rw [h.inUse b' p hb' hp]
      exact or_congr_right ⟨fun hx => ⟨hx, hne⟩, fun hx => hx.1⟩
  · -- count: one page less in `bo`
    intro b' hb'
    have hcount := h.count b' hb'
    unfold Ftl.countUsing at hcount ⊢
    by_cases hb : b' = bo
    · subst hb
      have hu : (f.discardPage b' po).usingPage b' = f.usingPage b' - 1 := by
        show Function.update f.usingPage b' _ b' = _
        rw [Function.update_self]
        rfl
      have hst : (f.discardPage b' po).pageState b' =
          Function.update (f.pageState b') po .pageDiscard := Function.update_self ..
      have hc := countP_range_update (fun st => decide (st = PageState.pageUsing))
        (f.pageState b') po .pageDiscard fip.ftlPageNum hpo
      rw [hu, hst, hcount]
      simp only [decide_true, Bool.toNat_true, husing, reduceCtorEq, decide_false,
        Bool.toNat_false] at hc
      omega
    · have hu : (f.discardPage bo po).usingPage b' = f.usingPage b' :=
        Function.update_of_ne hb ..
      have hst : (f.discardPage bo po).pageState b' = f.pageState b' :=
        Function.update_of_ne hb ..
      rw [hu, hst, hcount]

/-! ## `recycle` -/

/-- `kfifo_in` on the tables. -/
def Ftl.pushBlock (f : Ftl) (block : Nat) : Ftl :=
  if f.emptyBlockFifo.items.length < f.emptyBlockFifo.cap then
    { f with emptyBlockFifo := { f.emptyBlockFifo with items := f.emptyBlockFifo.items ++ [block] } }
  else f

@[simp] theorem Ftl.pushBlock_sectorIndex (f : Ftl) (b : Nat) :
    (f.pushBlock b).sectorIndex = f.sectorIndex := by unfold Ftl.pushBlock; split <;> rfl

@[simp] theorem Ftl.pushBlock_pageState (f : Ftl) (b : Nat) :
    (f.pushBlock b).pageState = f.pageState := by unfold Ftl.pushBlock; split <;> rfl

@[simp] theorem Ftl.pushBlock_usingPage (f : Ftl) (b : Nat) :
    (f.pushBlock b).usingPage = f.usingPage := by unfold Ftl.pushBlock; split <;> rfl

@[simp] theorem Ftl.pushBlock_blockLogPage (f : Ftl) (b : Nat) :
    (f.pushBlock b).blockLogPage = f.blockLogPage := by unfold Ftl.pushBlock; split <;> rfl

@[simp] theorem Ftl.pushBlock_curOffset (f : Ftl) (b : Nat) :
    (f.pushBlock b).curOffset = f.curOffset := by unfold Ftl.pushBlock; split <;> rfl

@[simp] theorem Ftl.pushBlock_blockId (f : Ftl) (b : Nat) :
    (f.pushBlock b).blockId = f.blockId := by unfold Ftl.pushBlock; split <;> rfl

@[simp] theorem Ftl.pushBlock_stamp (f : Ftl) (b : Nat) :
    (f.pushBlock b).stamp = f.stamp := by unfold Ftl.pushBlock; split <;> rfl

@[simp] theorem Ftl.pushBlock_cap (f : Ftl) (b : Nat) :
    (f.pushBlock b).emptyBlockFifo.cap = f.emptyBlockFifo.cap := by
  unfold Ftl.pushBlock; split <;> rfl

/-- One block is freed. -/
theorem Ftl.mem_pushBlock {f : Ftl} {b a : Nat} (h : a ∈ (f.pushBlock b).emptyBlockFifo.items) :
    a ∈ f.emptyBlockFifo.items ∨ a = b := by
  unfold Ftl.pushBlock at h
  split at h
  · simpa using h
  · exact .inl h

theorem Ftl.mem_pushBlock_of_mem {f : Ftl} {b a : Nat} (h : a ∈ f.emptyBlockFifo.items) :
    a ∈ (f.pushBlock b).emptyBlockFifo.items := by
  unfold Ftl.pushBlock
  split
  · exact List.mem_append_left _ h
  · exact h

/-- All of its pages are empty. -/
theorem clearBlock_pageState (f : Ftl) (b b' p : Nat) :
    (f.clearBlock b).pageState b' p = if b' = b then .pageEmpty else f.pageState b' p := by
  show Function.update f.pageState b (fun _ => .pageEmpty) b' p = _
  by_cases hb : b' = b
  · rw [hb, Function.update_self, if_pos rfl]
  · rw [Function.update_of_ne hb, if_neg hb]

/-- The fifo has room for every block that is not in it. -/
theorem InvAt.fifo_room (h : InvAt fip L X b k f vol D)
    (hcap : fip.lebNum ≤ f.emptyBlockFifo.cap) :
    f.emptyBlockFifo.items.length < f.emptyBlockFifo.cap :=
  Nat.lt_of_lt_of_le
    (length_lt_of_nodup h.nodup (fun a ha => (h.fifo a ha).1) h.chain.lt
      fun hb => (h.fifo b hb).2.1 rfl) hcap

/-- The counters after a block is queued and cleared. -/
theorem recycle_count {B b' : Nat} (hcount : f.usingPage b' = f.countUsing fip b') :
    ((f.pushBlock B).clearBlock B).usingPage b' =
      ((f.pushBlock B).clearBlock B).countUsing fip b' := by
  unfold Ftl.countUsing at hcount ⊢
  show Function.update (f.pushBlock B).usingPage B 0 b' = _
  by_cases hbB : b' = B
  · subst hbB
    rw [Function.update_self]
    have hz : (List.range fip.ftlPageNum).countP
        (fun p => decide (((f.pushBlock b').clearBlock b').pageState b' p = .pageUsing)) = 0 :=
      countP_range_eq_zero.mpr fun p _ => by rw [clearBlock_pageState, if_pos rfl]; rfl
    rw [hz]
    rfl
  · rw [Function.update_of_ne hbB, Ftl.pushBlock_usingPage, hcount]
    congr 1
    exact List.countP_congr fun p _ => by
      rw [clearBlock_pageState, if_neg hbB, Ftl.pushBlock_pageState]

/-- **recycle**: a block no sector maps to is unmapped and queued. -/
theorem InvAt.recycle (h : InvAt fip L X b k f vol D) {B : Nat} (hB : B < fip.lebNum) (hne : B ≠ b)
    (hno : ∀ p, p < fip.ftlPageNum → ¬f.Live fip B p) (hfifo : B ∉ f.emptyBlockFifo.items) :
    InvAt fip L (fun b' p => X b' p ∧ b' ≠ B) b k ((f.pushBlock B).clearBlock B) (vol.unmap B) D := by
  have hlive : ∀ b' p, ((f.pushBlock B).clearBlock B).Live fip b' p ↔ f.Live fip b' p := by
    intro b' p
    show (∃ v, v < _ ∧ (f.pushBlock B).sectorIndex v = _) ↔ _
    rw [Ftl.pushBlock_sectorIndex]
    exact Iff.rfl
  refine
    { chain := ?_, stamp_pos := ?_, id := ?_, curBlock := ?_, le := h.le, clean := ?_, cleanLog := ?_
      others := ?_, nodup := ?_, fifo := ?_, queued := ?_, index := ?_, empty := ?_, inUse := ?_
      orphan := ?_, count := ?_, entries := ?_ }
  · -- chain: `B` may go, as all its copies are dominated by newer ones
    show Chain fip L _ b k (f.pushBlock B).stamp
    rw [Ftl.pushBlock_stamp]
    exact h.chain.unmap hB (fun he => absurd he hne) (h.chain.dominated h.index hB hno)
  · show 0 < (f.pushBlock B).stamp
    rw [Ftl.pushBlock_stamp]
    exact h.stamp_pos
  · show (f.pushBlock B).blockId = wrapInt (f.pushBlock B).stamp
    rw [Ftl.pushBlock_blockId, Ftl.pushBlock_stamp]
    exact h.id
  · show (f.pushBlock B).curOffset.block = b
    rw [Ftl.pushBlock_curOffset]
    exact h.curBlock
  · rw [Volume.unmap_other _ hne.symm]
    exact h.clean
  · rw [Volume.unmap_other _ hne.symm]
    exact h.cleanLog
  · -- others: `B` is blank
    intro b' hb' hbb
    by_cases hbB : b' = B
    · rw [hbB, Volume.unmap_same]
      exact .inl blank_unmapped
    · rw [Volume.unmap_other _ hbB]
      exact h.others b' hb' hbb
  · show ((f.pushBlock B).emptyBlockFifo.items).Nodup
    unfold Ftl.pushBlock
    split
    · exact List.nodup_append.mpr ⟨h.nodup, List.nodup_singleton B, fun a ha a' ha' => by
        rw [List.mem_singleton.mp ha']; rintro rfl; exact hfifo ha⟩
    · exact h.nodup
  · -- fifo: `B` is not the block being filled
    intro b' hb'
    rcases Ftl.mem_pushBlock hb' with hold | rfl
    · obtain ⟨hlt, hneb, hblank⟩ := h.fifo b' hold
      refine ⟨hlt, hneb, ?_⟩
      rw [Volume.unmap_other _ (by rintro rfl; exact hfifo hold)]
      exact hblank
    · exact ⟨hB, hne, by rw [Volume.unmap_same]; exact blank_unmapped⟩
  · -- queued: there is room for `B`, as it was not queued
    intro hcap b' hb' hbb hblank
    have hcap' : fip.lebNum ≤ f.emptyBlockFifo.cap := by
      have : ((f.pushBlock B).clearBlock B).emptyBlockFifo.cap = f.emptyBlockFifo.cap :=
        Ftl.pushBlock_cap ..
      omega
    show b' ∈ (f.pushBlock B).emptyBlockFifo.items
    by_cases hbB : b' = B
    · unfold Ftl.pushBlock
      rw [if_pos (h.fifo_room hcap'), hbB]
      exact List.mem_append_right _ (List.mem_singleton_self B)
    · rw [Volume.unmap_other _ hbB] at hblank
      exact Ftl.mem_pushBlock_of_mem (h.queued hcap' b' hb' hbb hblank)
  · -- index: no sector maps to `B`
    intro v hv
    show Indexed fip _ v ((f.pushBlock B).sectorIndex v) (D v)
    rw [Ftl.pushBlock_sectorIndex]
    exact (h.index v hv).unmap hv hno
  · -- empty
    intro b' p hb' hp
    rw [clearBlock_pageState, Ftl.pushBlock_pageState]
    split
    · rename_i hbB
      rw [hbB, Volume.unmap_same]
      simp [Leb.unmapped]
    · rename_i hbB
      rw [Volume.unmap_other _ hbB]
      exact h.empty b' p hb' hp
  · -- inUse: its orphans go with `B`
    intro b' p hb' hp
    rw [clearBlock_pageState, Ftl.pushBlock_pageState, hlive]
    split
    · rename_i hbB
      subst hbB
      exact ⟨fun hc => (by cases hc),
        fun hc => hc.elim (absurd · (hno p hp)) fun hc => absurd rfl hc.2⟩
    · rename_i hbB
      rw [h.inUse b' p hb' hp]
      exact or_congr_right ⟨fun hx => ⟨hx, hbB⟩, fun hx => hx.1⟩
  · rintro b' p ⟨hX, -⟩
    rw [hlive]
    exact h.orphan b' p hX
  · exact fun b' hb' => recycle_count (h.count b' hb')
  · -- entries: the log page that is made up is that of another block
    intro p hp pg hpg
    show (f.pushBlock B).blockLogPage.entry p = _
    rw [Ftl.pushBlock_blockLogPage]
    rw [Volume.unmap_other _ hne.symm] at hpg
    exact h.entries p hp pg hpg

/-! ## `nextBlock` -/

/-- Take the first queued block for writing. -/
def Ftl.nextBlock (f : Ftl) (block : Nat) (rest : List Nat) : Ftl :=
  { f.nextId with
    emptyBlockFifo := { f.emptyBlockFifo with items := rest }
    curOffset := ⟨block, 0⟩ }

/-- The id is that of the number. -/
theorem Ftl.nextId_id {f : Ftl} (h : f.blockId = wrapInt f.stamp) :
    f.nextId.blockId = wrapInt f.nextId.stamp := by
  show wrapInt (f.blockId + 1) = wrapInt (f.stamp + 1)
  rw [h, wrapInt_succ]

/-- **nextBlock**: the full block has its log page, a blank block is opened. -/
theorem InvAt.nextBlock (h : InvAt fip L X b fip.ftlPageNum f vol D)
    (hlog : L → LogOk fip (vol.leb b) f.stamp) (hP : 0 < fip.ftlPageNum) {b' : Nat} {rest : List Nat}
    (hq : f.emptyBlockFifo.items = b' :: rest) :
    InvAt fip L X b' 0 (f.nextBlock b' rest) vol D := by
  have hmem : b' ∈ f.emptyBlockFifo.items := by rw [hq]; exact List.mem_cons_self ..
  obtain ⟨hlt, hne, hblank⟩ := h.fifo b' hmem
  have hnodup : (b' :: rest).Nodup := hq ▸ h.nodup
  obtain ⟨hnotin, hrest⟩ := List.nodup_cons.mp hnodup
  have hin : ∀ a ∈ rest, a ∈ f.emptyBlockFifo.items := fun a ha => by
    rw [hq]; exact List.mem_cons_of_mem _ ha
  have hclosed : Closed fip L (vol.leb b) f.stamp := ⟨(h.chain.cur hP).1, hlog⟩
  have hpos := h.stamp_pos
  refine
    { chain := h.chain.next hlog hP hlt
      stamp_pos := by show 0 < f.stamp + 1; omega
      id := Ftl.nextId_id h.id
      curBlock := rfl, le := Nat.zero_le _
      clean := fun p _ hp => hblank.1 p hp
      cleanLog := fun _ => hblank.2
      others := ?_, nodup := hrest, fifo := ?_, queued := ?_, index := h.index, empty := h.empty
      inUse := h.inUse, orphan := h.orphan, count := h.count
      entries := fun p hp => absurd hp (Nat.not_lt_zero p) }
  · -- others: the block that was full is closed
    intro b'' hb'' hne''
    by_cases hbb : b'' = b
    · rw [hbb]
      exact .inr ⟨_, hclosed⟩
    · exact h.others b'' hb'' hbb
  · -- fifo: the block that is opened has left it
    intro b'' hb''
    obtain ⟨hlt'', -, hblank''⟩ := h.fifo b'' (hin b'' hb'')
    exact ⟨hlt'', by rintro rfl; exact hnotin hb'', hblank''⟩
  · -- queued: the block that was full is not blank
    intro hcap b'' hb'' hne'' hblank''
    have hbb : b'' ≠ b := by
      rintro rfl
      obtain ⟨pg, hpg, -⟩ := hclosed.1.head 0 hP
      rw [hblank''.1 0 hP] at hpg
      cases hpg
    have hmem'' := h.queued hcap b'' hb'' hbb hblank''
    rw [hq] at hmem''
    exact (List.mem_cons.mp hmem'').resolve_left hne''

end Shrink

end Uftl
