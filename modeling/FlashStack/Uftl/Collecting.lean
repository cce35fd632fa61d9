/-
  What `scrub_block` and `garbage_checking` achieve.

  Where no flash operation fails, `garbage_checking` returns with `GC_BLOCK_NUM` free blocks on every
  volume `ubiblk_add` accepts: the exported sectors leave a fifth of the volume and 20 LEBs, so a
  block with garbage is found as long as few blocks are free, and each round leaves less garbage.
  That holds where a log page has room for an entry of each data page; elsewhere the entry of the last
  page of a block is written behind the buffer (`garbageChecking_returns_iff`).

  Where operations fail, `scrub_block` is wrong in two ways.  A page that cannot be read is skipped
  and the block is erased all the same, with its sector still mapped to it.  And an error half-way
  leaves the pages that were copied in use, next to their copies.
-/
import FlashStack.Uftl.Scrubbing
import FlashStack.Uftl.Sessions

namespace Uftl

open Lib Lib.Prog

variable {fip : UftlInfo}

/-! ## A worn device -/

/-- 20 blocks of three pages for 13 virtual sectors. -/
def wornDevice : UftlInfo := .ofDevice 30 4 1024

/-- A page with one live sector. -/
def wornPage (v : Nat) : Page := ⟨fun _ => sampleSector, ⟨magicNum, v, 1⟩, 1⟩

/-- Blocks 1 to 12 hold three copies of a sector each, the last of which is live.  Block 0 is the
    current one, the others are free. -/
def wornFtl : Ftl where
  sectorIndex := fun v => if v < 12 then (v + 1 : Nat) * 3 + 2 else ftlNomap
  pageState := fun b p =>
    if 1 ≤ b ∧ b ≤ 12 then if p = 2 then .pageUsing else .pageDiscard else .pageEmpty
  usingPage := fun b => if 1 ≤ b ∧ b ≤ 12 then 1 else 0
  blockLogPage := .blank
  curOffset := ⟨0, -1⟩
  blockId := 13
  stamp := 13
  emptyBlockFifo := ⟨32, [13, 14, 15, 16, 17, 18, 19]⟩

/-- Twelve blocks are in use, each with one live page. -/
def wornVolume : Volume where
  leb := fun b => if 1 ≤ b ∧ b ≤ 12 then
    ⟨fun _ => .written (wornPage (b - 1)), .written ⟨magicNum, b, fun _ => (b - 1 : Nat)⟩, true⟩
  else .unmapped
  former := fun _ => []

/-- The newest copies. -/
def wornData (v : Nat) : Option (Nat → Sector) :=
  if v < 12 then some fun _ => sampleSector else none

/-- The device, as `init_status` has left it. -/
def wornState (faults : Nat → Fault) : State :=
  { State.cold wornVolume faults [] with ftl := wornFtl, mounted := true }

/-- The device of the example is well formed. -/
theorem wf_worn : wornDevice.Wf :=
  UftlInfo.ofDevice_wf (by decide) (by decide) (by decide) (by decide)

/-- Its tables agree with its volume. -/
theorem books_wornFtl : Books wornDevice noOrphan wornFtl wornVolume wornData where
  curBlock := by decide
  curPage := by decide
  current := by
    intro b p hb hp
    change (b : Int) = 0 at hb
    obtain rfl : b = 0 := by omega
    exact iff_of_true rfl (by show (-1 : Int) < p; omega)
  held := by
    intro v hv
    show Held wornDevice wornVolume v (if v < 12 then ((v + 1 : Nat) * 3 + 2 : Int) else ftlNomap)
      (if v < 12 then some fun _ => sampleSector else none)
    split
    · -- sector `v` is on the last page of block `v + 1`
      refine ⟨v + 1, 2, wornPage v, rfl, ?_, by decide, ?_, rfl, rfl⟩
      · show v + 1 < 20
        omega
      · show ((if 1 ≤ v + 1 ∧ v + 1 ≤ 12 then _ else _ : Leb).page 2) = _
        rw [if_pos (by omega)]
        rfl
    · rfl
  inUse := by
    intro b p hb hp
    unfold noOrphan
    rw [or_false]
    show (if 1 ≤ b ∧ b ≤ 12 then if p = 2 then PageState.pageUsing else .pageDiscard
      else .pageEmpty) = .pageUsing ↔
        ∃ v, v < 13 ∧ (if v < 12 then ((v + 1 : Nat) * 3 + 2 : Int) else ftlNomap) = b * 3 + p
    have hp : p < 3 := hp
    constructor
    · intro h
      split at h
      · split at h
        · exact ⟨b - 1, by omega, by rw [if_pos (by omega)]; omega⟩
        · cases h
      · cases h
    · rintro ⟨v, hv, hi⟩
      unfold ftlNomap at hi
      split at hi
      · rw [if_pos (by omega), if_pos (by omega)]
      · omega
  orphan := fun b p h => h.elim
  count := by decide
  erased := by
    intro b p hb hp h
    have hno : ¬(1 ≤ b ∧ b ≤ 12) := by
      intro hc
      have h : (if 1 ≤ b ∧ b ≤ 12 then if p = 2 then PageState.pageUsing else .pageDiscard
        else .pageEmpty) = .pageEmpty := h
      rw [if_pos hc] at h
      split at h <;> cases h
    show ((if 1 ≤ b ∧ b ≤ 12 then _ else _ : Leb).page p) = _
    rw [if_neg hno]
    rfl
  nodup := by decide
  fifo := by decide
  cover := by decide

theorem books_worn (faults : Nat → Fault) :
    Books wornDevice noOrphan (wornState faults).ftl (wornState faults).vol wornData := books_wornFtl

/-! ## Pages that cannot be read -/

section ReadErrors

variable {s s' : State} {B : Nat} {D : Nat → Option (Nat → Sector)} {t : List Event}

/-- `scrub_block` on `B` from `s` to `s'` left no sector behind: none is mapped to the block, and
    those that were are unmapped or mapped to their data. -/
structure NoneLeft (fip : UftlInfo) (B : Nat) (D : Nat → Option (Nat → Sector)) (s s' : State) :
    Prop where
  outside : ∀ v p, v < fip.virtualSectorNum → p < fip.ftlPageNum →
    s'.ftl.sectorIndex v ≠ fip.pageIndex B p
  kept : ∀ v p, v < fip.virtualSectorNum → p < fip.ftlPageNum →
    s.ftl.sectorIndex v = fip.pageIndex B p →
      s'.ftl.sectorIndex v = ftlNomap ∨ Held fip s'.vol v (s'.ftl.sectorIndex v) (D v)

/-- **`scrub_block`** that returns 0 left no sector behind exactly if it could read all live pages of
    the block. -/
theorem scrubBlock_noneLeft (hwf : fip.Wf) (h : Books fip noOrphan s.ftl s.vol D)
    (hB : B < fip.lebNum) (hs : s.ftl.Scrubbable fip B) (hrun : scrubBlock fip B s = .ok () s' t) :
    NoneLeft fip B D s s' ↔
      ∀ i, i < s.ftl.usingBelow B fip.ftlPageNum → s.copyRead fip i = .ok := by
  obtain ⟨X, s₁, hc, hftl, hvol, -⟩ := (scrubBlock_ends hwf h hB hs).ok hrun
  have hindex : s'.ftl.sectorIndex = s₁.ftl.sectorIndex := by
    rw [hftl]
    exact Ftl.pushBlock_sectorIndex ..
  constructor
  · intro hn
    by_contra hall
    push Not at hall
    obtain ⟨p, -, hp, v, hv, hi⟩ := hc.skipped hall
    exact hn.outside v p hv hp (by rw [hindex, hi])
  · intro hall
    obtain ⟨-, -, hno⟩ := hc.clean hall
    refine ⟨fun v p hv hp hi => ?_, fun v p hv hp _ => .inr ?_⟩
    · rw [hindex] at hi
      exact hno p hp hp ⟨v, hv, hi⟩
    · rw [hindex, hvol]
      apply (hc.books.held v hv).same
      intro b q pg hidx hq hpg
      have hbB : b ≠ B := by
        rintro rfl
        exact hno q hq hq ⟨v, hv, hidx⟩
      rwa [Volume.unmap_other _ hbB]

theorem scrubBlock_noneLeft_worn : ∃ s' t, scrubBlock wornDevice 1 (wornState fun _ => .ok) =
    .ok () s' t ∧ NoneLeft wornDevice 1 wornData (wornState fun _ => .ok) s' := by
  have hrun : (scrubBlock wornDevice 1 (wornState fun _ => .ok)).okAnd (fun _ _ _ => true) = true := by
    decide +kernel
  obtain ⟨_, s', t, hrun, -⟩ := Res.okAnd_true hrun
  exact ⟨s', t, hrun, (scrubBlock_noneLeft wf_worn (books_worn _)
    (by decide) (by decide) hrun).mpr fun _ _ => rfl⟩

/-- The first flash operation fails: the page of sector 0 cannot be read, and sector 0 stays mapped to
    the block that was erased. -/
theorem scrubBlock_leaves_sector : ∃ s' t,
    Books wornDevice noOrphan (wornState (Function.update (fun _ => .ok) 0 (.fail false))).ftl
      (wornState (Function.update (fun _ => .ok) 0 (.fail false))).vol wornData ∧
    (wornState (Function.update (fun _ => .ok) 0 (.fail false))).ftl.Scrubbable wornDevice 1 ∧
    scrubBlock wornDevice 1 (wornState (Function.update (fun _ => .ok) 0 (.fail false))) =
      .ok () s' t ∧
    ¬NoneLeft wornDevice 1 wornData
      (wornState (Function.update (fun _ => .ok) 0 (.fail false))) s' := by
  have hrun : (scrubBlock wornDevice 1
      (wornState (Function.update (fun _ => .ok) 0 (.fail false)))).okAnd (fun _ s' _ =>
        decide (s'.ftl.sectorIndex 0 = wornDevice.pageIndex 1 2)) = true := by decide +kernel
  obtain ⟨_, s', t, hrun, hindex⟩ := Res.okAnd_true hrun
  exact ⟨s', t, books_worn _, by decide, hrun, fun hn =>
    hn.outside 0 2 (by decide) (by decide) (of_decide_eq_true hindex)⟩

end ReadErrors

/-! ## Errors half-way -/

section Errors

variable {s s' : State} {B : Nat} {D : Nat → Option (Nat → Sector)} {t : List Event} {x : Errno}

/-- **`scrub_block`** that returns an error left the map consistent exactly if it failed before it
    copied a page. -/
theorem scrubBlock_consistent (hwf : fip.Wf) (h : Books fip noOrphan s.ftl s.vol D)
    (hB : B < fip.lebNum) (hs : s.ftl.Scrubbable fip B) (hu : s.ftl.usingPage B ≠ 0)
    (hrun : scrubBlock fip B s = .stop (.errno x) s' t) :
    Consistent fip s' D ↔ s.FailsEarly fip B := by
  have hcount : s.ftl.usingPage B = s.ftl.usingBelow B fip.ftlPageNum := h.count B hB
  exact ((scrubBlock_ends hwf h hB hs).stopped hrun).kept (by omega) x rfl

/-- Nothing is copied: no page can be read, and the block cannot be unmapped. -/
theorem scrubBlock_consistent_worn : ∃ s' t,
    scrubBlock wornDevice 1 (wornState fun _ => .fail false) = .stop (.errno .eio) s' t ∧
      Consistent wornDevice s' wornData := by
  have hrun : (scrubBlock wornDevice 1 (wornState fun _ => .fail false)).stopAnd
      (fun e _ _ => decide (e = .errno .eio)) = true := by decide +kernel
  obtain ⟨e, s', t, hrun, he⟩ := Res.stopAnd_true hrun
  rw [of_decide_eq_true he] at hrun
  exact ⟨s', t, hrun, (scrubBlock_consistent wf_worn (books_worn _) (by decide) (by decide) (by decide) hrun).mpr
      (.inr ⟨fun i _ hi => (by cases hi), rfl⟩)⟩

/-- The second flash operation fails: sector 0 is mapped to the page that could not be written, and
    its old page is still in use. -/
theorem scrubBlock_tears_map : ∃ s' t,
    Books wornDevice noOrphan (wornState (Function.update (fun _ => .ok) 1 (.fail false))).ftl
      (wornState (Function.update (fun _ => .ok) 1 (.fail false))).vol wornData ∧
    (wornState (Function.update (fun _ => .ok) 1 (.fail false))).ftl.Scrubbable wornDevice 1 ∧
    (wornState (Function.update (fun _ => .ok) 1 (.fail false))).ftl.usingPage 1 ≠ 0 ∧
    scrubBlock wornDevice 1 (wornState (Function.update (fun _ => .ok) 1 (.fail false))) =
      .stop (.errno .eio) s' t ∧
    ¬Consistent wornDevice s' wornData := by
  have hrun : (scrubBlock wornDevice 1
      (wornState (Function.update (fun _ => .ok) 1 (.fail false)))).stopAnd (fun e s' _ =>
        decide (e = .errno .eio ∧ s'.ftl.pageState 1 2 = .pageUsing ∧
          ∀ v, v < wornDevice.virtualSectorNum →
            s'.ftl.sectorIndex v ≠ wornDevice.pageIndex 1 2)) = true := by decide +kernel
  obtain ⟨e, s', t, hrun, hcheck⟩ := Res.stopAnd_true hrun
  obtain ⟨rfl, huse, hno⟩ := of_decide_eq_true hcheck
  refine ⟨s', t, books_worn _, by decide, by decide, hrun, fun hc => ?_⟩
  obtain ⟨v, hv, hi⟩ := (hc.inUse 1 2 (by decide) (by decide)).mp huse
  exact hno v hv hi

end Errors

/-! ## `garbage_checking` without errors -/

section Returns

variable {s : State} {B : Nat} {f : Ftl} {vol : Volume} {D : Nat → Option (Nat → Sector)}

/-- A run that cannot stop returns. -/
theorem Ends.returns {α : Type} {c : M α} {Q : α → State → Prop}
    (h : Ends c Q (fun _ _ => False) s) : ∃ a s' t, c s = .ok a s' t ∧ Q a s' := by
  cases hc : c s with
  | ok a s' t => exact ⟨a, s', t, rfl, h.ok hc⟩
  | stop e s' t => exact (h.stopped hc).elim

/-- Once all pages of `B` were copied, it is not the block being filled. -/
theorem Copying.ne_current {X : Nat → Nat → Prop} {s₁ : State} (hwf : fip.Wf)
    (h : Copying fip B D s fip.ftlPageNum X s₁) (hlast : s.ftl.LastLive fip)
    (hno : ∀ p, p < fip.ftlPageNum → ¬s₁.ftl.Live fip B p) : (B : Int) ≠ s₁.ftl.curOffset.block := by
  intro hcur
  have hP := hwf.page_pos
  exact hno _ (by omega) (h.last hlast (h.full hcur) B hcur)

/-- `scrub_block` where no flash operation fails and the free pages suffice. -/
theorem scrubBlock_returns (hwf : fip.Wf) (h : Books fip noOrphan s.ftl s.vol D)
    (hlast : s.ftl.LastLive fip) (hcap : fip.lebNum ≤ s.ftl.emptyBlockFifo.cap) (hB : B < fip.lebNum)
    (hs : s.ftl.Scrubbable fip B) (hok : ∀ n, s.env.faults n = .ok)
    (hroom : s.ftl.usingPage B ≤ s.ftl.room fip) :
    Ends (scrubBlock fip B) (fun _ s' => Books fip noOrphan s'.ftl s'.vol D ∧ s'.ftl.LastLive fip ∧
        (∀ b p, s'.ftl.pageState b p = .pageDiscard ↔ b ≠ B ∧ s.ftl.pageState b p = .pageDiscard) ∧
        s'.ftl.emptyBlockFifo.cap = s.ftl.emptyBlockFifo.cap ∧ s'.env.faults = s.env.faults ∧
        s'.ftl.room fip + s.ftl.usingPage B = s.ftl.room fip + fip.ftlPageNum)
      (fun _ _ => False) s := by
  have hcount : s.ftl.usingPage B = s.ftl.usingBelow B fip.ftlPageNum := h.count B hB
  refine wp_mono (scrubBlock_ends hwf h hB hs) ?_ ?_
  · rintro _ s' ⟨X, s₁, hc, hftl, hvol, hfaults⟩
    -- No operation fails, so each live page of `B` was copied.
    obtain ⟨-, hr, hno⟩ := hc.clean fun i _ => hok _
    have hno : ∀ p, p < fip.ftlPageNum → ¬s₁.ftl.Live fip B p := fun p hp => hno p hp hp
    have hne := hc.ne_current hwf hlast hno
    have hcap₁ : fip.lebNum ≤ s₁.ftl.emptyBlockFifo.cap := by
      rw [hc.moved.cap]
      exact hcap
    have hbooks := hc.books.recycle hB hne hno hc.notFree hcap₁
    -- All orphans were in `B`, and `B` is erased.
    have horphans : (fun b p => X b p ∧ b ≠ B) = noOrphan := by
      funext b p
      exact propext ⟨fun hx => hx.2 (hc.orphans b p hx.1).1, fun hf => hf.elim⟩
    rw [horphans] at hbooks
    rw [hftl, hvol]
    refine ⟨hbooks, ?_, fun b p => ?_, ?_, hfaults, ?_⟩
    · -- the last page of the current block is as before
      have hl := hc.last hlast
      unfold Ftl.LastLive Ftl.Live at hl ⊢
      show (s₁.ftl.pushBlock B).curOffset.page + 1 = _ →
        ∀ b : Nat, (b : Int) = (s₁.ftl.pushBlock B).curOffset.block → ∃ v, _ ∧
          (s₁.ftl.pushBlock B).sectorIndex v = _
      rw [Ftl.pushBlock_curOffset, Ftl.pushBlock_sectorIndex]
      exact hl
    · -- the garbage of `B` is gone
      rw [clearBlock_pageState, Ftl.pushBlock_pageState]
      split
      · rename_i hb
        exact ⟨fun hd => (by cases hd), fun hd => absurd hb hd.1⟩
      · rename_i hb
        rw [hc.moved.garbage]
        exact ⟨fun hd => ⟨hb, hd⟩, fun hd => hd.2⟩
    · show (s₁.ftl.pushBlock B).emptyBlockFifo.cap = _
      rw [Ftl.pushBlock_cap, hc.moved.cap]
    · -- `B` is back in the fifo
      show (s₁.ftl.pushBlock B).room fip + _ = _
      rw [room_pushBlock (hc.books.fifo_room hB hc.notFree hcap₁)]
      omega
  · -- a flash operation failed, or there was no page to copy to
    rintro e s' ⟨hcause, -⟩
    rcases hcause with ⟨n, hn⟩ | hlt
    · exact hn (hok n)
    · omega

/-- A block that reports fewer live pages than it has pages can be recycled, and holds garbage. -/
theorem Books.victim (hwf : fip.Wf) (h : Books fip noOrphan f vol D) (hB : B < fip.lebNum)
    (hn : f.getBlockUsingPageNum fip B < fip.ftlPageNum) :
    f.Scrubbable fip B ∧ f.getBlockUsingPageNum fip B = f.usingPage B ∧
      ∃ p, p < fip.ftlPageNum ∧ f.pageState B p = .pageDiscard := by
  unfold Ftl.getBlockUsingPageNum at hn ⊢
  split at hn
  · omega
  rename_i hs
  rw [if_neg hs]
  refine ⟨hs, rfl, ?_⟩
  obtain ⟨hfree, hfull⟩ := h.scrubbable hwf hs
  have hnotEmpty : ∀ p, p < fip.ftlPageNum → f.pageState B p ≠ .pageEmpty := by
    intro p hp he
    rcases h.cover B hB with hmem | hcur | hall
    · exact hfree hmem
    · have := (h.current B p hcur hp).mp he
      have := hfull hcur
      omega
    · exact hall p hp he
  -- not every page is live, and none is empty
  by_contra hno
  have hall : ∀ p, p < fip.ftlPageNum → decide (f.pageState B p = .pageUsing) = true := by
    intro p hp
    cases hst : f.pageState B p with
    | pageEmpty => exact absurd hst (hnotEmpty p hp)
    | pageUsing => rfl
    | pageDiscard => exact absurd ⟨p, hp, hst⟩ hno
  rw [h.count B hB, Ftl.countUsing, countP_range_eq.mpr hall] at hn
  omega

/-- No victim is found only where the virtual sectors fill all blocks but `GC_BLOCK_NUM`. -/
theorem Books.crowded (h : Books fip noOrphan f vol D)
    (hfew : f.getEmptyBlockNum < gcBlockNum) (hnone : f.gcVictim fip = none) :
    (fip.lebNum - gcBlockNum) * fip.ftlPageNum ≤ fip.virtualSectorNum := by
  -- the blocks that are neither free nor being filled
  let busy := Finset.range fip.lebNum \
    (f.curOffset.block.toNat :: f.emptyBlockFifo.items).toFinset
  let page := fun v => (((f.sectorIndex v).tdiv fip.ftlPageNum).toNat,
    ((f.sectorIndex v).tmod fip.ftlPageNum).toNat)
  have hbusy : fip.lebNum - gcBlockNum ≤ busy.card := by
    have h₁ := Finset.le_card_sdiff (f.curOffset.block.toNat :: f.emptyBlockFifo.items).toFinset
      (Finset.range fip.lebNum)
    have h₂ := List.toFinset_card_le (f.curOffset.block.toNat :: f.emptyBlockFifo.items)
    rw [List.length_cons] at h₂
    rw [Finset.card_range] at h₁
    have : f.emptyBlockFifo.items.length < gcBlockNum := hfew
    show _ ≤ (Finset.range fip.lebNum \ _).card
    omega
  -- every page of such a block is live
  have hlive : busy ×ˢ Finset.range fip.ftlPageNum ⊆
      (Finset.range fip.virtualSectorNum).image page := by
    rintro ⟨n, p⟩ hnp
    obtain ⟨hn, hp⟩ := Finset.mem_product.mp hnp
    obtain ⟨hlt, hnot⟩ := Finset.mem_sdiff.mp hn
    have hlt := Finset.mem_range.mp hlt
    have hp := Finset.mem_range.mp hp
    rw [List.mem_toFinset, List.mem_cons, not_or] at hnot
    have hcur : (n : Int) ≠ f.curOffset.block := by
      have := h.curBlock
      have := hnot.1
      omega
    have hnotEmpty := ((h.cover n hlt).resolve_left hnot.2).resolve_left hcur
    have hfull := gcVictim_none hnone n hlt
    rw [Ftl.getBlockUsingPageNum, if_neg (not_or.mpr ⟨fun hc => hcur hc.1, hnotEmpty 0 (by omega)⟩),
      h.count n hlt] at hfull
    have hall : f.countUsing fip n = fip.ftlPageNum := by
      have : f.countUsing fip n ≤ fip.ftlPageNum := by
        unfold Ftl.countUsing
        exact Nat.le_trans List.countP_le_length (by rw [List.length_range])
      omega
    have huse := countP_range_eq.mp hall p hp
    obtain ⟨v, hv, hi⟩ := ((h.inUse n p hlt hp).mp (of_decide_eq_true huse)).resolve_right id
    refine Finset.mem_image.mpr ⟨v, Finset.mem_range.mpr hv, ?_⟩
    show ((_ : Nat), (_ : Nat)) = _
    rw [hi, pageIndex_tdiv hp, pageIndex_tmod hp]
    simp
  have hcard := (Finset.card_le_card hlive).trans Finset.card_image_le
  rw [Finset.card_product, Finset.card_range, Finset.card_range] at hcard
  exact Nat.le_trans (Nat.mul_le_mul_right _ hbusy) hcard

/-- The loop of `garbage_checking`, where the blocks in use leave some garbage. -/
theorem gcLoop_returns (hwf : fip.Wf)
    (hspare : fip.virtualSectorNum < (fip.lebNum - gcBlockNum) * fip.ftlPageNum) (n : Nat) :
    ∀ s, Books fip noOrphan s.ftl s.vol D → s.ftl.LastLive fip →
      fip.lebNum ≤ s.ftl.emptyBlockFifo.cap → (∀ n, s.env.faults n = .ok) →
      (fip.ftlPageNum : Int) - 1 ≤ s.ftl.room fip → s.ftl.garbage fip < n →
      Ends (gcLoop fip gcBlockNum n) (fun _ s' => gcBlockNum ≤ s'.ftl.getEmptyBlockNum ∧
        Books fip noOrphan s'.ftl s'.vol D) (fun _ _ => False) s := by
  induction n with
  | zero => exact fun s _ _ _ _ _ hg => absurd hg (Nat.not_lt_zero _)
  | succ n ih =>
    intro s h hlast hcap hok hroom hg
    unfold Ends
    simp only [gcLoop, wp_bind, wp_getState, wp_when]
    refine ⟨fun hlow => ?_, fun hlow => ⟨by omega, h⟩⟩
    cases hvic : s.ftl.gcVictim fip with
    | none => exact absurd (h.crowded hlow hvic) (by omega)
    | some B =>
      obtain ⟨hB, hn⟩ := gcVictim_some hvic
      obtain ⟨hs, hnum, p, hp, hdis⟩ := h.victim hwf hB hn
      simp only [wp_bind]
      refine wp_mono (scrubBlock_returns hwf h hlast hcap hB hs hok (by omega)) ?_
        (fun _ _ hf => hf)
      rintro _ s₁ ⟨h₁, hlast₁, hgar, hcap₁, hfaults, hroom₁⟩
      have hless := garbage_lt hgar hB hp hdis
      exact ih s₁ h₁ hlast₁ (by rw [hcap₁]; exact hcap) (by rw [hfaults]; exact hok) (by omega)
        (by omega)

/-- The exported sectors leave garbage in all but `GC_BLOCK_NUM` blocks. -/
theorem spare_ofDevice {size pageNum pageSize : Nat} (hsize : 30 ≤ size) (hpages : 2 ≤ pageNum)
    (hbytes : 1024 ≤ pageSize) :
    (UftlInfo.ofDevice size pageNum pageSize).virtualSectorNum <
      ((UftlInfo.ofDevice size pageNum pageSize).lebNum - gcBlockNum) *
        (UftlInfo.ofDevice size pageNum pageSize).ftlPageNum := by
  have hpos : 0 < pageSize / 512 - 1 := by omega
  show (size / 5 * 4 - 10 - 10) * (pageSize / 512 - 1) * (pageNum - 1) / (pageSize / 512 - 1) + 1 <
    (size - 10 - 10) * (pageNum - 1)
  rw [Nat.mul_right_comm, Nat.mul_div_cancel _ hpos]
  have hle : size / 5 * 4 - 10 - 10 + 2 ≤ size - 10 - 10 := by omega
  have hmul := Nat.mul_le_mul_right (pageNum - 1) hle
  rw [Nat.add_mul] at hmul
  omega

/-- The accounting that `garbage_checking` starts from: the current block is not full, there is a free
    block, no flash operation fails, and the fifo holds all blocks. -/
structure Accounted (fip : UftlInfo) (s : State) (D : Nat → Option (Nat → Sector)) : Prop where
  books : Books fip noOrphan s.ftl s.vol D
  notFull : s.ftl.curOffset.page + 1 < fip.ftlPageNum
  free : s.ftl.emptyBlockFifo.items ≠ []
  noError : ∀ n, s.env.faults n = .ok
  cap : fip.lebNum ≤ s.ftl.emptyBlockFifo.cap

/-- `garbage_checking` returns from `s`, with `GC_BLOCK_NUM` free blocks and all data in place. -/
def Collects (fip : UftlInfo) (s : State) (D : Nat → Option (Nat → Sector)) : Prop :=
  ∃ s' t, garbageChecking fip gcBlockNum s = .ok () s' t ∧ gcBlockNum ≤ s'.ftl.getEmptyBlockNum ∧
    Books fip noOrphan s'.ftl s'.vol D

/-- Where the log page has room for all entries, `garbage_checking` returns. -/
theorem Accounted.collects {size pageNum pageSize : Nat} (hsize : 30 ≤ size) (hpages : 2 ≤ pageNum)
    (hbytes : 1024 ≤ pageSize)
    (hlog : logInfoSize + intSize * (pageNum - logPageNumPerBlock) ≤ pageSize)
    (h : Accounted (.ofDevice size pageNum pageSize) s D) :
    Collects (.ofDevice size pageNum pageSize) s D := by
  have hwf := UftlInfo.ofDevice_wf hsize hpages hbytes hlog
  have hlen : 1 ≤ s.ftl.emptyBlockFifo.items.length := List.length_pos_of_ne_nil h.free
  have hnot := h.notFull
  have hroom : ((UftlInfo.ofDevice size pageNum pageSize).ftlPageNum : Int) - 1 ≤
      s.ftl.room (.ofDevice size pageNum pageSize) := by
    unfold Ftl.room
    have := Int.mul_le_mul_of_nonneg_left (Int.ofNat_le.mpr hlen)
      (Int.natCast_nonneg (UftlInfo.ofDevice size pageNum pageSize).ftlPageNum)
    omega
  have hloop := gcLoop_returns hwf (spare_ofDevice hsize hpages hbytes) _ s h.books
    (fun hfull => absurd hfull (by omega)) h.cap h.noError hroom
    (Nat.lt_succ_of_le (garbage_le s.ftl))
  obtain ⟨_, s', t, hrun, hq⟩ := hloop.returns
  exact ⟨s', t, hrun, hq⟩

end Returns

/-! ## A log page that is too small -/

section Spill

variable {s : State}

/-- A page with one live sector. -/
def spillPage (v : Nat) : Page := ⟨fun _ => sampleSector, ⟨magicNum, v, 1⟩, 1⟩

/-- Every block from 2 on has one live page, its first; block 1 is free, and the last page of block 0
    is the next to be written. -/
def spillFtl (fip : UftlInfo) : Ftl where
  sectorIndex := fun v => if v + 2 < fip.lebNum then fip.pageIndex (v + 2) 0 else ftlNomap
  pageState := fun b p =>
    if b = 0 then if p + 1 < fip.ftlPageNum then .pageDiscard else .pageEmpty
    else if b = 1 then .pageEmpty
    else if p = 0 then .pageUsing else .pageDiscard
  usingPage := fun b => if 2 ≤ b then 1 else 0
  blockLogPage := .blank
  curOffset := ⟨0, (fip.ftlPageNum : Int) - 2⟩
  blockId := 1
  stamp := 1
  emptyBlockFifo := ⟨fip.lebNum, [1]⟩

/-- All pages of block 0 but the last are written. -/
def spillVolume (fip : UftlInfo) : Volume where
  leb := fun b =>
    if b = 0 then
      ⟨fun p => if p + 1 < fip.ftlPageNum then .written (spillPage 0) else .erased, .erased, true⟩
    else if b = 1 then .unmapped
    else ⟨fun _ => .written (spillPage (b - 2)), .written ⟨magicNum, 1, fun _ => (b - 2 : Nat)⟩, true⟩
  former := fun _ => []

/-- What the sectors hold. -/
def spillData (fip : UftlInfo) (v : Nat) : Option (Nat → Sector) :=
  if v + 2 < fip.lebNum then some fun _ => sampleSector else none

/-- The device, as `init_status` has left it. -/
def spillState (fip : UftlInfo) : State :=
  { State.cold (spillVolume fip) (fun _ => .ok) [] with ftl := spillFtl fip, mounted := true }

/-- One of the pages is in use. -/
theorem spillFtl_count {b : Nat} (hP : 0 < fip.ftlPageNum) (hb : 2 ≤ b) :
    (spillFtl fip).countUsing fip b = 1 := by
  have hfirst : (List.range fip.ftlPageNum).count 0 = 1 :=
    List.count_eq_one_of_mem List.nodup_range (List.mem_range.mpr hP)
  rw [← hfirst]
  unfold Ftl.countUsing List.count
  refine List.countP_congr fun p _ => ?_
  show decide ((if b = 0 then _ else if b = 1 then _ else
    if p = 0 then PageState.pageUsing else .pageDiscard) = .pageUsing) = true ↔ _
  rw [if_neg (by omega), if_neg (by omega)]
  by_cases hp : p = 0 <;> simp [hp]

theorem accounted_spill (hP : 2 ≤ fip.ftlPageNum) (hleb : 3 ≤ fip.lebNum)
    (hsectors : fip.lebNum ≤ fip.virtualSectorNum) :
    Accounted fip (spillState fip) (spillData fip) where
  books :=
    { curBlock := by show (0 : Int) ≤ 0 ∧ (0 : Int) < fip.lebNum; omega
      curPage := by
        show (-1 : Int) ≤ fip.ftlPageNum - 2 ∧ (fip.ftlPageNum : Int) - 2 < fip.ftlPageNum
        omega
      current := by
        intro b p hb hp
        change (b : Int) = 0 at hb
        obtain rfl : b = 0 := by omega
        show (if p + 1 < fip.ftlPageNum then PageState.pageDiscard else .pageEmpty) = .pageEmpty ↔
          (fip.ftlPageNum : Int) - 2 < p
        split
        · exact ⟨fun he => (by cases he), fun he => by omega⟩
        · exact iff_of_true rfl (by omega)
      held := by
        intro v hv
        show Held fip (spillVolume fip) v
          (if v + 2 < fip.lebNum then fip.pageIndex (v + 2) 0 else ftlNomap)
          (if v + 2 < fip.lebNum then some fun _ => sampleSector else none)
        split
        · exact ⟨v + 2, 0, spillPage v, rfl, by omega, by omega, rfl, rfl, rfl⟩
        · rfl
      -- Page 0 of each block from the third on is in use, by sector `b - 2`.
      inUse := by
        intro b p hb hp
        unfold noOrphan
        rw [or_false]
        constructor
        · intro h
          have h : (if b = 0 then if p + 1 < fip.ftlPageNum then PageState.pageDiscard else .pageEmpty
            else if b = 1 then .pageEmpty else if p = 0 then .pageUsing else .pageDiscard) =
              .pageUsing := h
          split at h
          · split at h <;> cases h
          split at h
          · cases h
          split at h
          · rename_i h0 h1 hp0
            refine ⟨b - 2, by omega, ?_⟩
            show (if b - 2 + 2 < fip.lebNum then fip.pageIndex (b - 2 + 2) 0 else ftlNomap) = _
            rw [if_pos (by omega), hp0, show b - 2 + 2 = b by omega]
          · cases h
        · rintro ⟨v, hv, hi⟩
          have hi : (if v + 2 < fip.lebNum then fip.pageIndex (v + 2) 0 else ftlNomap) =
            fip.pageIndex b p := hi
          split at hi
          · obtain ⟨rfl, rfl⟩ := pageIndex_inj (by omega) hp hi
            rfl
          · exact absurd hi.symm (pageIndex_ne_nomap b p)
      orphan := fun _ _ h => h.elim
      count := by
        intro b hb
        show (if 2 ≤ b then (1 : Int) else 0) = (spillFtl fip).countUsing fip b
        split
        · rw [spillFtl_count (by omega) ‹_›]
          rfl
        · have hno : (spillFtl fip).countUsing fip b = 0 := by
            refine countP_range_eq_zero.mpr fun p _ => decide_eq_false ?_
            show (if b = 0 then if p + 1 < fip.ftlPageNum then PageState.pageDiscard else .pageEmpty
              else if b = 1 then .pageEmpty else _) ≠ .pageUsing
            split
            · split <;> exact fun he => by cases he
            · rw [if_pos (by omega)]
              exact fun he => by cases he
          rw [hno]
          rfl
      erased := by
        intro b p hb hp h
        have h : (if b = 0 then if p + 1 < fip.ftlPageNum then PageState.pageDiscard else .pageEmpty
          else if b = 1 then .pageEmpty else if p = 0 then .pageUsing else .pageDiscard) =
            .pageEmpty := h
        split at h
        · rename_i hb0
          split at h
          · cases h
          · rename_i hlast
            rw [hb0]
            exact if_neg hlast
        split at h
        · rename_i hb1
          rw [hb1]
          rfl
        split at h <;> cases h
      nodup := List.nodup_singleton 1
      fifo := by
        intro b hb
        obtain rfl := List.mem_singleton.mp hb
        exact ⟨by omega, by show (1 : Int) ≠ 0; omega, fun _ _ => rfl⟩
      cover := by
        intro b hb
        rcases Nat.lt_or_ge b 2 with hlt | hge
        · rcases Nat.lt_or_ge b 1 with h0 | h1
          · exact .inr (.inl (by show (b : Int) = 0; omega))
          · exact .inl (List.mem_singleton.mpr (by omega))
        · refine .inr (.inr fun p _ => ?_)
          show (if b = 0 then _ else if b = 1 then _ else
            if p = 0 then PageState.pageUsing else .pageDiscard) ≠ .pageEmpty
          rw [if_neg (by omega), if_neg (by omega)]
          split <;> exact fun he => by cases he }
  notFull := by
    show (fip.ftlPageNum : Int) - 2 + 1 < fip.ftlPageNum
    omega
  free := List.cons_ne_nil _ _
  noError := fun _ => rfl
  cap := Nat.le_refl _

/-- The first page that is copied goes to the last page of block 0, whose entry is behind the buffer. -/
theorem spill_overruns (hpages : fip.lebPageNum = fip.ftlPageNum + 1) (hP : 2 ≤ fip.ftlPageNum)
    (hleb : 3 ≤ fip.lebNum) (hsectors : fip.lebNum ≤ fip.virtualSectorNum)
    (hlog : ¬fip.inLogPage (fip.ftlPageNum - 1)) :
    Ends (garbageChecking fip gcBlockNum) (fun _ _ => False) (fun e _ => e = .outOfBuffer)
      (spillState fip) := by
  have hacc := accounted_spill hP hleb hsectors
  unfold Ends
  simp only [garbageChecking, gcLoop, wp_bind, wp_getState, wp_when]
  refine ⟨fun _ => ?_, fun hno => absurd (by decide : 1 < gcBlockNum) hno⟩
  have hfew : (spillState fip).ftl.getBlockUsingPageNum fip 2 = 1 := by
    unfold Ftl.getBlockUsingPageNum
    rw [if_neg]
    · rfl
    · rintro (⟨h, -⟩ | h)
      · exact absurd h (by decide : ¬((2 : Nat) : Int) = 0)
      · cases h
  cases hvic : (spillState fip).ftl.gcVictim fip with
  | none =>
    have := gcVictim_none hvic 2 (by omega)
    omega
  | some B =>
    obtain ⟨hB, hn⟩ := gcVictim_some hvic
    -- the victim is neither the current block nor the free one
    have hB2 : 2 ≤ B := by
      by_contra hlt
      unfold Ftl.getBlockUsingPageNum at hn
      rw [if_pos] at hn
      · omega
      · rcases Nat.lt_or_ge B 1 with h0 | h1
        · obtain rfl : B = 0 := by omega
          exact .inl ⟨rfl, if_neg (by omega)⟩
        · obtain rfl : B = 1 := by omega
          exact .inr rfl
    have huse : (spillState fip).ftl.usingPage B ≠ 0 := by
      rw [show (spillState fip).ftl.usingPage B = 1 from if_pos hB2]
      decide
    have hstate : (spillState fip).ftl.pageState B 0 = .pageUsing := by
      show (if B = 0 then _ else if B = 1 then _ else _) = PageState.pageUsing
      rw [if_neg (by omega), if_neg (by omega), if_pos rfl]
    have hpage : ((spillState fip).vol.leb B).page 0 = .written (spillPage (B - 2)) := by
      show (if B = 0 then _ else if B = 1 then _ else _ : Leb).page 0 = _
      rw [if_neg (by omega), if_neg (by omega)]
    simp only [wp_bind, scrubBlock, wp_getState, wp_when]
    refine ⟨fun _ => ?_, fun hz => absurd huse hz⟩
    refine wp_mono (wp_forUpto (fun j s => j = 0 ∧ s = spillState fip) ⟨rfl, rfl⟩ ?_)
      (fun _ _ h => absurd h.1 (by omega)) fun _ _ he => he
    rintro _ - _ ⟨rfl, rfl⟩
    simp only [wp_bind, wp_getState, wp_when, scrubPage, wp_attempt]
    refine ⟨fun _ => ?_, fun hno => absurd hstate hno⟩
    refine ends_ftlRead hpages hB (by omega) hpage (fun _ => ?_) (fun q hf => by cases hf)
      fun q hf => by cases hf
    refine ends_getNewPage (by omega) (s := (spillState fip).tick) hacc.books
      (fun b k f' hadv => ?_) fun hno => absurd hno.1 (Int.ne_of_lt hacc.notFull)
    rcases hadv with ⟨-, hb, hk, -⟩ | ⟨hfull, -⟩
    · obtain rfl : b = 0 := by
        have hb : (b : Int) = 0 := hb
        omega
      obtain rfl : k = fip.ftlPageNum - 1 := by
        have hk : (k : Int) = fip.ftlPageNum - 2 + 1 := hk
        omega
      have hlast : fip.ftlPageNum - 1 < fip.ftlPageNum := by omega
      have hb0 : 0 < fip.lebNum := by omega
      have hv : B - 2 < fip.virtualSectorNum := by omega
      have hsector : (spillPage (B - 2)).log.sector = (B - 2 : Nat) := rfl
      have herased : ((spillState fip).vol.leb 0).page (fip.ftlPageNum - 1) = .erased :=
        if_neg (by omega)
      have hnonneg := @pageIndex_nonneg fip 0 (fip.ftlPageNum - 1)
      rw [wp_ite]
      refine ⟨fun hneg => absurd hneg (by omega), fun _ => ?_⟩
      simp only [wp_bind, hsector, pageIndex_tdiv hlast, pageIndex_tmod hlast, wp_setSectorIndex hv,
        wp_setPageState hb0 hlast, addBlockUsingPage, wp_modifyState, wp_getState, Int.toNat_natCast]
      refine ends_ftlWrite hpages hb0 hlast herased (fun _ => ?_) fun hf => absurd rfl hf
      rw [setLogEntry, if_neg hlog]
      exact rfl
    · exact absurd hfull (Int.ne_of_lt hacc.notFull)

/-- The exported sectors suffice for a live page in each block. -/
theorem sectors_ofDevice {size pageNum pageSize : Nat} (hsize : 30 ≤ size) (hpages : 255 < pageNum)
    (hbytes : 1024 ≤ pageSize) :
    (UftlInfo.ofDevice size pageNum pageSize).lebNum ≤
      (UftlInfo.ofDevice size pageNum pageSize).virtualSectorNum := by
  have hpos : 0 < pageSize / 512 - 1 := by omega
  show size - 10 ≤
    (size / 5 * 4 - 10 - 10) * (pageSize / 512 - 1) * (pageNum - 1) / (pageSize / 512 - 1) + 1
  rw [Nat.mul_right_comm, Nat.mul_div_cancel _ hpos]
  have hmul : (size / 5 * 4 - 10 - 10) * 255 ≤ (size / 5 * 4 - 10 - 10) * (pageNum - 1) :=
    Nat.mul_le_mul_left _ (by omega)
  omega

/-- **`garbage_checking`** returns, with `GC_BLOCK_NUM` free blocks and all data in place, from every
    state with that accounting exactly if the log page has room for an entry of each data page. -/
theorem garbageChecking_returns_iff {size pageNum pageSize : Nat} (hsize : 30 ≤ size)
    (hpages : 2 ≤ pageNum) (hbytes : 1024 ≤ pageSize) :
    (∀ s D, Accounted (.ofDevice size pageNum pageSize) s D →
      Collects (.ofDevice size pageNum pageSize) s D) ↔
      logInfoSize + intSize * (pageNum - logPageNumPerBlock) ≤ pageSize := by
  refine ⟨fun hall => ?_, fun hlog s D h => h.collects hsize hpages hbytes hlog⟩
  by_contra hlog
  have hmany : 255 < pageNum := by
    unfold logInfoSize intSize logPageNumPerBlock at hlog
    omega
  have hP : (UftlInfo.ofDevice size pageNum pageSize).ftlPageNum = pageNum - 1 := rfl
  have hleb : (UftlInfo.ofDevice size pageNum pageSize).lebNum = size - 10 := rfl
  have hsectors := sectors_ofDevice hsize hmany hbytes
  have hspill : Ends (garbageChecking (.ofDevice size pageNum pageSize) gcBlockNum) (fun _ _ => False)
      (fun e _ => e = .outOfBuffer) (spillState (.ofDevice size pageNum pageSize)) := by
    refine spill_overruns ?_ (by omega) (by omega) hsectors fun hin => hlog ?_
    · show pageNum = pageNum - 1 + 1
      omega
    · have hin : logInfoSize + intSize * (pageNum - 1 - 1 + 1) ≤ pageSize := hin
      rwa [show pageNum - 1 - 1 + 1 = pageNum - logPageNumPerBlock by
        unfold logPageNumPerBlock
        omega] at hin
  obtain ⟨s', t, hrun, -⟩ := hall _ _ (accounted_spill (by omega) (by omega) hsectors)
  exact hspill.ok hrun

theorem garbageChecking_returns_worn : Collects wornDevice (wornState fun _ => .ok) wornData :=
  (garbageChecking_returns_iff (by decide) (by decide) (by decide)).mpr (by decide) _ _
    ⟨books_worn _, by decide, by decide, fun _ => rfl, by decide⟩

/-- Blocks of 256 pages of 1024 bytes: entry 254 of the log page is behind its buffer. -/
def spillDevice : UftlInfo := .ofDevice 30 256 1024

theorem garbageChecking_overruns :
    Accounted spillDevice (spillState spillDevice) (spillData spillDevice) ∧
      ¬Collects spillDevice (spillState spillDevice) (spillData spillDevice) := by
  refine ⟨accounted_spill (by decide) (by decide) (by decide), ?_⟩
  rintro ⟨s', t, hrun, -⟩
  exact (spill_overruns (by decide) (by decide) (by decide) (by decide) (by decide)).ok hrun

end Spill

end Uftl
