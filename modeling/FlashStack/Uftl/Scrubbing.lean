/-
  `scrub_block` under flash operations that fail, and `garbage_checking` without.

  The specifications of `Recycling` assume that no flash operation returns an error.  Here nothing is
  assumed: `scrubBlock_ends` says what `scrub_block` leaves for every script of failures, in terms of
  which reads of the live pages succeed.  A page that cannot be read is skipped, and stays mapped;
  a page that is copied leaves its source `PAGE_USING` (in `X`) until the block is recycled.

  1. flash operations and `get_new_page`, for every script;
  2. `Copying`, what holds before each round of the loop, and that a round keeps it;
  3. `scrub_block`: all its exits;
  4. `garbage_checking` returns on the volumes that `ubiblk_add` sets up.
-/
import FlashStack.Uftl.Books
import FlashStack.Uftl.Recycling
import FlashStack.Uftl.Dev

namespace Uftl

open Lib Lib.Prog

variable {fip : UftlInfo}

/-! ## Flash operations that may fail -/

section Operations

variable {α : Type} {s : State} {E : Exit → State → Prop}

/-- What a run ends with, whatever happens on the way. -/
def Ends (c : M α) (Q : α → State → Prop) (E : Exit → State → Prop) (s : State) : Prop :=
  wp (fun _ => True) (fun _ => True) c Q E s

theorem along_true {R : Prop} (t : List Event) :
    Along (fun _ => True) (fun _ => True) t R ↔ R := by
  induction t with
  | nil => exact Iff.rfl
  | cons x t ih => exact ⟨fun h => ih.mp (h trivial).2, fun h _ => ⟨trivial, ih.mpr h⟩⟩

/-- What is known of a run that returns. -/
theorem Ends.ok {c : M α} {Q : α → State → Prop} {a : α} {s' : State} {t : List Event}
    (h : Ends c Q E s) (hc : c s = .ok a s' t) : Q a s' :=
  (wp_ok h hc fun _ _ => trivial).1

/-- And of one that stops. -/
theorem Ends.stopped {c : M α} {Q : α → State → Prop} {e : Exit} {s' : State} {t : List Event}
    (h : Ends c Q E s) (hc : c s = .stop e s' t) : E e s' :=
  (wp_stopped h hc fun _ _ => trivial).1

/-- The script decides what a flash operation does. -/
theorem ends_flashOp {full part : Volume → Volume} {done torn : List Event} {Q : Unit → State → Prop}
    (hok : s.env.faults s.env.flashOps = .ok → Q () (s.tick.onVol full))
    (hfail : ∀ q, s.env.faults s.env.flashOps = .fail q →
      E (.errno .eio) (if q then s.tick.onVol part else s.tick))
    (hcut : ∀ q, s.env.faults s.env.flashOps = .cut q →
      E .powerCut (if q then s.tick.onVol part else s.tick)) :
    Ends (flashOp full part done torn) Q E s := by
  unfold Ends wp flashOp
  cases hf : s.env.faults s.env.flashOps with
  | ok => exact (along_true _).mpr (hok hf)
  | fail q => cases q <;> exact (along_true _).mpr (hfail _ hf)
  | cut q => cases q <;> exact (along_true _).mpr (hcut _ hf)

/-- Reading a page that was written. -/
theorem ends_ftlRead (hpages : fip.lebPageNum = fip.ftlPageNum + 1) {b p : Nat} {pg : Page}
    {Q : Page → State → Prop}
    (hb : b < fip.lebNum) (hp : p < fip.ftlPageNum) (hpg : (s.vol.leb b).page p = .written pg)
    (hok : s.env.faults s.env.flashOps = .ok → Q pg s.tick)
    (hfail : ∀ q, s.env.faults s.env.flashOps = .fail q → E (.errno .eio) s.tick)
    (hcut : ∀ q, s.env.faults s.env.flashOps = .cut q → E .powerCut s.tick) :
    Ends (ftlRead fip b p) Q E s := by
  unfold ftlRead
  rw [if_pos (inVolume_page hpages hb (Nat.le_of_lt hp))]
  have hid : s.tick.onVol id = s.tick := rfl
  refine wp_bind.mpr (ends_flashOp (fun hf => ?_) (fun q hf => ?_) fun q hf => ?_)
  · rw [wp_bind, wp_getState, Int.toNat_natCast, hid]
    have hread : (s.tick.vol.leb b).page p = .written pg := hpg
    rw [Int.toNat_natCast, hread]
    exact hok hf
  · rw [hid, ite_self]
    exact hfail q hf
  · rw [hid, ite_self]
    exact hcut q hf

/-- Programming an erased page. -/
theorem ends_ftlWrite (hpages : fip.lebPageNum = fip.ftlPageNum + 1) {b p : Nat} {pg : Page}
    {Q : Unit → State → Prop}
    (hb : b < fip.lebNum) (hp : p < fip.ftlPageNum) (he : (s.vol.leb b).page p = .erased)
    (hok : s.env.faults s.env.flashOps = .ok → Q () (s.tick.onVol (·.setPage b p (.written pg))))
    (hstop : s.env.faults s.env.flashOps ≠ .ok →
      ∀ e s', s'.ftl = s.ftl → s'.env.faults = s.env.faults → E e s') :
    Ends (ftlWrite fip b p pg) Q E s := by
  unfold ftlWrite
  rw [if_pos (inVolume_page hpages hb (Nat.le_of_lt hp))]
  have hvol : s.tick.onVol (fun v => v.setPage b p (((v.leb b).page p).program pg)) =
      s.tick.onVol (·.setPage b p (.written pg)) := by
    simp only [State.onVol, State.tick, he, Cell.program]
  simp only [Int.toNat_natCast]
  refine ends_flashOp (fun hf => hvol ▸ hok hf) (fun q hf => hstop (by simp [hf]) _ _ ?_ ?_)
    fun q hf => hstop (by simp [hf]) _ _ ?_ ?_
  all_goals cases q <;> rfl

/-- Writing a log page: whatever becomes of it, no data page changes. -/
theorem ends_ftlWriteLog (hwf : fip.Wf) {b : Nat} {l : LogPage} {Q : Unit → State → Prop}
    (hb : b < fip.lebNum)
    (hok : s.env.faults s.env.flashOps = .ok → ∀ c, Q () (s.tick.onVol (·.setLog b c)))
    (hstop : s.env.faults s.env.flashOps ≠ .ok →
      ∀ e s', s'.ftl = s.ftl → s'.env.faults = s.env.faults → E e s') :
    Ends (ftlWriteLog fip b l) Q E s := by
  unfold ftlWriteLog
  rw [if_pos (inVolume_page hwf.leb_page hb (Nat.le_refl _))]
  simp only [Int.toNat_natCast]
  refine ends_flashOp (fun hf => hok hf _) (fun q hf => hstop (by simp [hf]) _ _ ?_ ?_)
    fun q hf => hstop (by simp [hf]) _ _ ?_ ?_
  all_goals cases q <;> rfl

/-- `ftl_erase` with the lazy unmap. -/
theorem ends_ftlErase (hwf : fip.Wf) {b : Nat} {Q : Unit → State → Prop} (hb : b < fip.lebNum)
    (hok : s.env.faults s.env.flashOps = .ok → Q () (s.tick.onVol (·.unmap b)))
    (hfail : ∀ q, s.env.faults s.env.flashOps = .fail q →
      E (.errno .eio) (if q then s.tick.onVol (·.unmap b) else s.tick))
    (hcut : ∀ q, s.env.faults s.env.flashOps = .cut q →
      E .powerCut (if q then s.tick.onVol (·.unmap b) else s.tick)) :
    Ends (ftlErase fip b true) Q E s := by
  unfold ftlErase
  rw [if_pos (by exact_mod_cast inVolume_page hwf.leb_page hb (Nat.zero_le _))]
  simp only [Int.toNat_natCast, if_true]
  exact ends_flashOp hok hfail hcut

/-- `kfifo_in` on the tables. -/
theorem ends_kfifoIn {b : Nat} {Q : Unit → State → Prop} (h : Q () (s.onFtl (·.pushBlock b))) :
    Ends (kfifoIn b) Q E s := by
  unfold Ends kfifoIn
  simp only [wp_bind, wp_getState, wp_ite, wp_modifyState, wp_emit]
  refine ⟨fun hlt => ?_, fun hlt _ => ⟨trivial, ?_⟩⟩
  · simpa only [State.onFtl, Ftl.pushBlock, if_pos hlt] using h
  · simpa only [State.onFtl, Ftl.pushBlock, if_neg hlt] using h

/-- The tables after `get_new_page` found no block: `cur_offset` is at block -1. -/
def Ftl.exhausted (f : Ftl) : Ftl := { f.nextId with curOffset := ⟨-1, 0⟩ }

/-- `get_new_page` returns the next page, or a negative index. -/
theorem ends_getNewPage (hP : 0 < fip.ftlPageNum) {X : Nat → Nat → Prop}
    {D : Nat → Option (Nat → Sector)}
    {Q : Int → State → Prop} (h : Books fip X s.ftl s.vol D)
    (hnew : ∀ b k f', Advanced fip s.ftl f' b k → Q (fip.pageIndex b k) (s.onFtl fun _ => f'))
    (hno : s.ftl.NoPage fip → ∀ i, i < 0 → Q i (s.onFtl Ftl.exhausted)) :
    Ends (getNewPage fip) Q E s := by
  have hcur := h.curBlock
  have hpage := h.curPage
  unfold Ends getNewPage
  simp only [wp_bind, wp_modifyState, wp_getState, wp_when, wp_pure]
  refine ⟨fun hfull => ?_, fun hfull => ?_⟩
  · have hfull : s.ftl.curOffset.page + 1 = fip.ftlPageNum := hfull
    unfold getFirstEmptyBlock
    rw [wp_bind, wp_getState]
    cases hq : s.ftl.emptyBlockFifo.items with
    | nil =>
      have hitems : (s.onFtl fun f => { f with curOffset :=
          { f.curOffset with page := f.curOffset.page + 1 } }).ftl.emptyBlockFifo.items = [] := hq
      simp only [hitems, wp_bind, wp_emit, wp_pure]
      refine fun _ => ⟨trivial, hno ⟨hfull, hq⟩ _ ?_⟩
      show (-1 : Int) * fip.ftlPageNum + 0 < 0
      omega
    | cons b rest =>
      have hitems : (s.onFtl fun f => { f with curOffset :=
          { f.curOffset with page := f.curOffset.page + 1 } }).ftl.emptyBlockFifo.items =
            b :: rest := hq
      simp only [hitems, wp_bind, wp_modifyState, wp_pure]
      exact hnew b 0 _ (.inr ⟨hfull, rfl, rest, hq, rfl⟩)
  · have hfull : s.ftl.curOffset.page + 1 ≠ fip.ftlPageNum := hfull
    have hb : ((s.ftl.curOffset.block.toNat : Nat) : Int) = s.ftl.curOffset.block :=
      Int.toNat_of_nonneg hcur.1
    have hk : (((s.ftl.curOffset.page + 1).toNat : Nat) : Int) = s.ftl.curOffset.page + 1 :=
      Int.toNat_of_nonneg (by omega)
    have hgoal := hnew s.ftl.curOffset.block.toNat (s.ftl.curOffset.page + 1).toNat _
      (.inl ⟨hfull, hb, hk, rfl⟩)
    unfold UftlInfo.pageIndex at hgoal
    rw [hb, hk] at hgoal
    exact hgoal

end Operations

/-! ## What the loop does -/

/-- The flash operations of the first `i` copies when none fails: a read and a write for each, and a
    log page after the last page of a block.  The copies go to page `c` and the pages after it. -/
def copyOps (P c : Nat) : Nat → Nat
  | 0 => 0
  | i + 1 => copyOps P c i + if (c + i) % P + 1 = P then 3 else 2

/-- What becomes of the read of the `i`-th live page if the pages before it are copied. -/
def State.copyRead (fip : UftlInfo) (s : State) (i : Nat) : Fault :=
  s.env.faults (s.env.flashOps + copyOps fip.ftlPageNum (s.ftl.curOffset.page + 1).toNat i)

/-- What becomes of the `i`-th flash operation. -/
def State.nextOp (s : State) (i : Nat) : Fault := s.env.faults (s.env.flashOps + i)

/-- If the block being filled is full, its last page is live. -/
def Ftl.LastLive (fip : UftlInfo) (f : Ftl) : Prop :=
  f.curOffset.page + 1 = fip.ftlPageNum →
    ∀ b : Nat, (b : Int) = f.curOffset.block → f.Live fip b (fip.ftlPageNum - 1)

/-- The map is consistent: each sector is mapped to its data, the pages in use are those that a
    sector maps to, and `using_page` counts them. -/
structure Consistent (fip : UftlInfo) (s : State) (D : Nat → Option (Nat → Sector)) : Prop where
  held : ∀ v, v < fip.virtualSectorNum → Held fip s.vol v (s.ftl.sectorIndex v) (D v)
  inUse : ∀ b p, b < fip.lebNum → p < fip.ftlPageNum →
    (s.ftl.pageState b p = .pageUsing ↔ s.ftl.Live fip b p)
  count : ∀ b, b < fip.lebNum → s.ftl.usingPage b = s.ftl.countUsing fip b

/-- `scrub_block` on `B` fails before it has changed anything: at the first page it could read there
    is no page to write to, or no page can be read and the block cannot be unmapped. -/
def State.FailsEarly (fip : UftlInfo) (s : State) (B : Nat) : Prop :=
  (∃ i, i < s.ftl.usingBelow B fip.ftlPageNum ∧ s.nextOp i = .ok) ∧ s.ftl.NoPage fip ∨
    (∀ i, i < s.ftl.usingBelow B fip.ftlPageNum → s.nextOp i ≠ .ok) ∧
      s.nextOp (s.ftl.usingBelow B fip.ftlPageNum) = .fail false

/-- How `scrub_block` on `B`, called in `s`, stops. -/
structure Halted (fip : UftlInfo) (B : Nat) (D : Nat → Option (Nat → Sector)) (s : State) (e : Exit)
    (s' : State) : Prop where
  cause : (∃ n, s.env.faults n ≠ .ok) ∨ s.ftl.room fip < s.ftl.usingBelow B fip.ftlPageNum
  kept : s.ftl.usingBelow B fip.ftlPageNum ≠ 0 → ∀ x, e = .errno x →
    (Consistent fip s' D ↔ s.FailsEarly fip B)

/-- `scrub_block` on `B`, called in `s`, has come to page `j`, in state `s₁`; `X` holds the pages of
    `B` that were copied. -/
structure Copying (fip : UftlInfo) (B : Nat) (D : Nat → Option (Nat → Sector)) (s : State) (j : Nat)
    (X : Nat → Nat → Prop) (s₁ : State) : Prop where
  start : -1 ≤ s.ftl.curOffset.page
  books : Books fip X s₁.ftl s₁.vol D
  full : (B : Int) = s₁.ftl.curOffset.block → s₁.ftl.curOffset.page + 1 = fip.ftlPageNum
  notFree : B ∉ s₁.ftl.emptyBlockFifo.items
  orphans : ∀ b p, X b p → b = B ∧ p < j
  moved : Moved fip B s.ftl s₁.ftl
  faults : s₁.env.faults = s.env.faults
  last : s.ftl.LastLive fip → s₁.ftl.LastLive fip
  /-- every page was copied -/
  clean : (∀ i, i < s.ftl.usingBelow B j → s.copyRead fip i = .ok) →
    s₁.env.flashOps = s.env.flashOps +
      copyOps fip.ftlPageNum (s.ftl.curOffset.page + 1).toNat (s.ftl.usingBelow B j) ∧
    s₁.ftl.room fip + s.ftl.usingBelow B j = s.ftl.room fip ∧
    ∀ p, p < j → p < fip.ftlPageNum → ¬s₁.ftl.Live fip B p
  /-- a page was skipped -/
  skipped : (∃ i, i < s.ftl.usingBelow B j ∧ s.copyRead fip i ≠ .ok) →
    ∃ p, p < j ∧ p < fip.ftlPageNum ∧ s₁.ftl.Live fip B p
  /-- every page was skipped -/
  waiting : (∀ i, i < s.ftl.usingBelow B j → s.nextOp i ≠ .ok) →
    s₁.env.flashOps = s.env.flashOps + s.ftl.usingBelow B j ∧ s₁.ftl = s.ftl ∧ s₁.vol = s.vol ∧
      ∀ b p, ¬X b p
  /-- a page was copied -/
  started : (∃ i, i < s.ftl.usingBelow B j ∧ s.nextOp i = .ok) →
    ¬s.ftl.NoPage fip ∧ ∃ p, X B p

section Copy

variable {s s₁ : State} {X : Nat → Nat → Prop} {B j b k : Nat} {f' : Ftl}
  {D : Nat → Option (Nat → Sector)}

/-- A superseded page that is still in use. -/
theorem Books.not_consistent {p : Nat} {vol : Volume} (h : Books fip X s.ftl vol D) (hX : X b p) :
    ¬Consistent fip s D := by
  intro hc
  obtain ⟨hb, hp, hno⟩ := h.orphan b p hX
  exact hno ((hc.inUse b p hb hp).mp ((h.inUse b p hb hp).mpr (.inr hX)))

/-- When nothing is left behind, the map is right. -/
theorem Books.consistent (h : Books fip X s.ftl s.vol D) (hX : ∀ b p, ¬X b p) :
    Consistent fip s D where
  held := h.held
  inUse := fun b p hb hp => (h.inUse b p hb hp).trans (or_iff_left (hX b p))
  count := h.count

/-- A page in use that was not copied yet is live. -/
theorem Copying.live (h : Copying fip B D s j X s₁) (hB : B < fip.lebNum) (hj : j < fip.ftlPageNum)
    (huse : s₁.ftl.pageState B j = .pageUsing) : s₁.ftl.Live fip B j := by
  rcases (h.books.inUse B j hB hj).mp huse with hl | hX
  · exact hl
  · exact absurd (h.orphans B j hX).2 (Nat.lt_irrefl j)

/-- The new page is not in the block that is emptied. -/
theorem Copying.newPage_ne (h : Copying fip B D s j X s₁) (hadv : Advanced fip s₁.ftl f' b k) :
    b ≠ B := by
  rintro rfl
  rcases hadv with ⟨hne, hblk, -, -⟩ | ⟨-, -, rest, hq, -⟩
  · exact hne (h.full hblk)
  · exact h.notFree (by rw [hq]; exact List.mem_cons_self ..)

/-- The copies fill one page after the other. -/
theorem Copying.newPage_eq (hwf : fip.Wf) (h : Copying fip B D s j X s₁)
    (hadv : Advanced fip s₁.ftl f' b k)
    (hroom : s₁.ftl.room fip + s.ftl.usingBelow B j = s.ftl.room fip) :
    ((s.ftl.curOffset.page + 1).toNat + s.ftl.usingBelow B j) % fip.ftlPageNum = k := by
  have hk := (hadv.empty hwf h.books).2.1
  have hstart := h.start
  unfold Ftl.room at hroom
  have hpos : ∃ m : Int, (((s.ftl.curOffset.page + 1).toNat + s.ftl.usingBelow B j : Nat) : Int) =
      k + fip.ftlPageNum * m := by
    rcases hadv with ⟨-, -, hk', -⟩ | ⟨hfull, rfl, -, -, -⟩
    · refine ⟨s.ftl.emptyBlockFifo.items.length - s₁.ftl.emptyBlockFifo.items.length, ?_⟩
      rw [Int.mul_sub]
      omega
    · refine ⟨s.ftl.emptyBlockFifo.items.length - s₁.ftl.emptyBlockFifo.items.length + 1, ?_⟩
      rw [Int.mul_add, Int.mul_sub]
      omega
  obtain ⟨m, hm⟩ := hpos
  have hmod : (((s.ftl.curOffset.page + 1).toNat + s.ftl.usingBelow B j : Nat) : Int) %
      fip.ftlPageNum = k := by
    rw [hm, Int.add_mul_emod_self_left]
    exact Int.emod_eq_of_lt (by omega) (by omega)
  exact_mod_cast hmod

/-- The read of page `j` succeeded, and there is a page to write to. -/
theorem Copying.begun (h : Copying fip B D s j X s₁) (hread : s₁.env.faults s₁.env.flashOps = .ok)
    (hpage : ¬s₁.ftl.NoPage fip) :
    (∃ i, i < s.ftl.usingBelow B j + 1 ∧ s.nextOp i = .ok) ∧ ¬s.ftl.NoPage fip := by
  by_cases hw : ∀ i, i < s.ftl.usingBelow B j → s.nextOp i ≠ .ok
  · obtain ⟨hops, hftl, -, -⟩ := h.waiting hw
    rw [h.faults, hops] at hread
    rw [hftl] at hpage
    exact ⟨⟨s.ftl.usingBelow B j, Nat.lt_succ_self _, hread⟩, hpage⟩
  · push Not at hw
    obtain ⟨i, hi, hok⟩ := hw
    exact ⟨⟨i, Nat.lt_succ_of_lt hi, hok⟩, (h.started ⟨i, hi, hok⟩).1⟩

theorem Copying.usingBelow_succ (h : Copying fip B D s j X s₁)
    (huse : s₁.ftl.pageState B j = .pageUsing) :
    s.ftl.usingBelow B (j + 1) = s.ftl.usingBelow B j + 1 := by
  rw [Uftl.usingBelow_succ, if_pos (by rw [← h.moved.states]; exact huse)]

/-- Page `j` is not in use. -/
theorem Copying.pass (h : Copying fip B D s j X s₁) (hB : B < fip.lebNum)
    (huse : s₁.ftl.pageState B j ≠ .pageUsing) : Copying fip B D s (j + 1) X s₁ := by
  have hsucc : s.ftl.usingBelow B (j + 1) = s.ftl.usingBelow B j := by
    rw [Uftl.usingBelow_succ, if_neg (by rw [← h.moved.states]; exact huse), Nat.add_zero]
  refine { h with orphans := fun b p hX => ?_, clean := ?_, skipped := ?_, waiting := ?_, started := ?_ }
  · have := h.orphans b p hX
    exact ⟨this.1, by omega⟩
  · rw [hsucc]
    intro hall
    obtain ⟨hops, hroom, hno⟩ := h.clean hall
    refine ⟨hops, hroom, fun p hp hpP hl => ?_⟩
    by_cases hpj : p = j
    · subst hpj
      exact huse ((h.books.inUse B p hB hpP).mpr (.inl hl))
    · exact hno p (by omega) hpP hl
  · rw [hsucc]
    intro hex
    obtain ⟨p, hp, hpP, hl⟩ := h.skipped hex
    exact ⟨p, by omega, hpP, hl⟩
  · rw [hsucc]
    exact h.waiting
  · rw [hsucc]
    exact h.started

/-- Page `j` cannot be read: it is skipped. -/
theorem Copying.skip (h : Copying fip B D s j X s₁) (hB : B < fip.lebNum) (hj : j < fip.ftlPageNum)
    (huse : s₁.ftl.pageState B j = .pageUsing) (hread : s₁.env.faults s₁.env.flashOps ≠ .ok) :
    Copying fip B D s (j + 1) X s₁.tick := by
  have hsucc := h.usingBelow_succ huse
  refine
    { start := h.start, books := h.books, full := h.full, notFree := h.notFree
      orphans := fun b p hX => ?_, moved := h.moved, faults := h.faults, last := h.last
      clean := ?_, skipped := fun _ => ⟨j, Nat.lt_succ_self j, hj, h.live hB hj huse⟩
      waiting := ?_, started := ?_ }
  · have := h.orphans b p hX
    exact ⟨this.1, by omega⟩
  · rw [hsucc]
    intro hall
    obtain ⟨hops, -, -⟩ := h.clean fun i hi => hall i (by omega)
    rw [h.faults, hops] at hread
    exact absurd (hall _ (Nat.lt_succ_self _)) hread
  · rw [hsucc]
    intro hall
    obtain ⟨hops, hftl, hvol, hX⟩ := h.waiting fun i hi => hall i (by omega)
    refine ⟨?_, hftl, hvol, hX⟩
    show s₁.env.flashOps + 1 = _
    omega
  · rw [hsucc]
    rintro ⟨i, hi, hok⟩
    by_cases hw : ∀ i, i < s.ftl.usingBelow B j → s.nextOp i ≠ .ok
    · obtain ⟨hops, -, -, -⟩ := h.waiting hw
      have hij : i = s.ftl.usingBelow B j := by
        by_contra hne
        exact hw i (by omega) hok
      rw [h.faults, hops] at hread
      rw [hij] at hok
      exact absurd hok hread
    · push Not at hw
      exact h.started hw

/-- What a page write leaves: the tables but for the log page, and the page on flash. -/
structure Programmed (fip : UftlInfo) (b k : Nat) (pg : Page) (s s' : State) : Prop where
  ftl : ∃ l, s'.ftl = { s.ftl with blockLogPage := l }
  pages : ∀ b' p, (s'.vol.leb b').page p = ((s.vol.setPage b k (.written pg)).leb b').page p
  faults : s'.env.faults = s.env.faults
  flashOps : s'.env.flashOps = s.env.flashOps + if k + 1 = fip.ftlPageNum then 2 else 1

/-- Page `j` is copied. -/
theorem Copying.copied {s' : State} {v : Nat} {pg : Page} (hwf : fip.Wf)
    (h : Copying fip B D s j X s₁) (hB : B < fip.lebNum) (hj : j < fip.ftlPageNum)
    (huse : s₁.ftl.pageState B j = .pageUsing) (hread : s₁.env.faults s₁.env.flashOps = .ok)
    (hv : v < fip.virtualSectorNum) (hi : s₁.ftl.sectorIndex v = fip.pageIndex B j)
    (hadv : Advanced fip s₁.ftl f' b k) (hs : pg.log.sector = v) (hD : D v = some pg.data)
    (hp : Programmed fip b k pg (s₁.tick.onFtl fun _ => f'.mapTo fip b k v) s') :
    Copying fip B D s (j + 1) (fun b p => X b p ∨ b = B ∧ p = j) s' := by
  have hsucc := h.usingBelow_succ huse
  have hne := h.newPage_ne hadv
  obtain ⟨hb, hk, hempty⟩ := hadv.empty hwf h.books
  obtain ⟨hindex, hstate, husing, hcur, hcap⟩ := hadv.tables
  obtain ⟨l, hftl⟩ := hp.ftl
  have happ := h.books.append hwf hadv hv hs hD
  rw [orphaned_mapped hB hj hi] at happ
  have hbooks := (happ.setLogPage l).samePages hp.pages
  have hcur' : s'.ftl.curOffset = ⟨b, k⟩ := by
    rw [hftl]
    exact hcur
  have hstate' : ∀ b' p, s'.ftl.pageState b' p =
      if b' = b ∧ p = k then .pageUsing else s₁.ftl.pageState b' p := by
    intro b' p
    rw [hftl]
    show (f'.mapTo fip b k v).pageState b' p = _
    rw [mapTo_pageState, hstate]
  have hlive : ∀ b' p, p < fip.ftlPageNum → (s'.ftl.Live fip b' p ↔ b' = b ∧ p = k ∨
      ∃ w, w < fip.virtualSectorNum ∧ w ≠ v ∧ s₁.ftl.sectorIndex w = fip.pageIndex b' p) := by
    intro b' p hp
    rw [hftl]
    show (f'.mapTo fip b k v).Live fip b' p ↔ _
    rw [live_mapTo hv hk hp, hindex]
  have hflash : s'.env.flashOps =
      s₁.env.flashOps + 1 + if k + 1 = fip.ftlPageNum then 2 else 1 := hp.flashOps
  refine
    { start := h.start, books := ?_, full := ?_, notFree := ?_, orphans := ?_, moved := ?_
      faults := hp.faults.trans h.faults, last := ?_, clean := ?_, skipped := ?_, waiting := ?_
      started := fun _ => ⟨(h.begun hread hadv.not_noPage).2, j, .inr ⟨rfl, rfl⟩⟩ }
  · -- books: `append` has settled them, and the log entry does not matter
    rw [hftl]
    exact hbooks
  · rw [hcur']
    intro hBb
    change (B : Int) = b at hBb
    omega
  · rw [hftl]
    exact fun hmem => h.notFree (hadv.mem hmem)
  · -- orphans: page `j` is mapped elsewhere now
    rintro b' p (hX | ⟨rfl, rfl⟩)
    · have := h.orphans b' p hX
      exact ⟨this.1, by omega⟩
    · exact ⟨rfl, by omega⟩
  · -- moved: the only page that changed is the new one, which was empty
    refine h.moved.trans ⟨?_, fun b' p => ?_, ?_⟩
    · funext p
      rw [hstate', if_neg fun hc => hne hc.1.symm]
    · rw [hstate']
      split
      · obtain ⟨rfl, rfl⟩ := ‹b' = b ∧ p = k›
        simp [hempty]
      · exact Iff.rfl
    · rw [hftl]
      exact hcap
  · -- last: the new page is the last one of its block if that is full now, and it is live
    intro _
    rw [Ftl.LastLive, hcur']
    intro hfull b' hb'
    change (k : Int) + 1 = fip.ftlPageNum at hfull
    change (b' : Int) = b at hb'
    exact (hlive b' _ (by omega)).mpr (.inl ⟨by omega, by omega⟩)
  · -- clean: all reads so far went well, page `j` has no sector any more
    rw [hsucc]
    intro hall
    obtain ⟨hops, hroom, hno⟩ := h.clean fun i hi => hall i (by omega)
    refine ⟨?_, ?_, fun p hp hpP => ?_⟩
    · rw [hflash, hops, copyOps, h.newPage_eq hwf hadv hroom]
      split <;> omega
    · have hr := hadv.room
      have : s'.ftl.room fip = f'.room fip := by
        rw [hftl]
        rfl
      omega
    · rw [hlive B p hpP]
      rintro (⟨hc, -⟩ | ⟨w, hw, hwv, hiw⟩)
      · exact hne hc.symm
      · by_cases hpj : p = j
        · subst hpj
          exact hwv (h.books.injective hw hv hj hiw hi)
        · exact hno p (by omega) hpP ⟨w, hw, hiw⟩
  · -- skipped: `j` was read, so the page that was not is before it
    rw [hsucc]
    rintro ⟨i, hi', hbad⟩
    by_cases hall : ∀ i, i < s.ftl.usingBelow B j → s.copyRead fip i = .ok
    · obtain ⟨hops, -, -⟩ := h.clean hall
      have hij : i = s.ftl.usingBelow B j := by
        by_contra hne
        exact hbad (hall i (by omega))
      rw [h.faults, hops] at hread
      rw [hij] at hbad
      exact absurd hread hbad
    · push Not at hall
      obtain ⟨p, hp, hpP, w, hw, hiw⟩ := h.skipped hall
      refine ⟨p, by omega, hpP, (hlive B p hpP).mpr (.inr ⟨w, hw, ?_, hiw⟩)⟩
      rintro rfl
      have := (pageIndex_inj hj hpP (hi.symm.trans hiw)).2
      omega
  · -- waiting: it was read, so not all reads failed
    rw [hsucc]
    intro hall
    obtain ⟨hops, -, -, -⟩ := h.waiting fun i hi => hall i (by omega)
    rw [h.faults, hops] at hread
    exact absurd hread (hall _ (Nat.lt_succ_self _))

end Copy

/-! ## `scrub_block` -/

section Scrub

variable {s s₁ : State} {X : Nat → Nat → Prop} {B j b k : Nat} {f' : Ftl}
  {D : Nat → Option (Nat → Sector)}

/-- A page write: the data page, and the log page after the last one. -/
theorem ends_program (hwf : fip.Wf) {pg : Page} {v : Int} {Q : Unit → State → Prop}
    {E : Exit → State → Prop} (hb : b < fip.lebNum) (hk : k < fip.ftlPageNum)
    (he : (s.vol.leb b).page k = .erased) (hQ : ∀ s', Programmed fip b k pg s s' → Q () s')
    (hE : ∀ e s', (∃ n, s.env.faults n ≠ .ok) → (∃ l, s'.ftl = { s.ftl with blockLogPage := l }) →
      E e s') :
    Ends (ftlWrite fip b k pg)
      (fun _ s' => Ends (setLogEntry fip k v) (fun _ s' => Ends (closeBlock fip b k) Q E s') E s')
      E s := by
  refine ends_ftlWrite hwf.leb_page hb hk he (fun _ => ?_) fun hf e s' hftl _ =>
    hE e s' ⟨_, hf⟩ ⟨s.ftl.blockLogPage, hftl⟩
  unfold Ends closeBlock
  rw [wp_setLogEntry hwf hk]
  simp only [wp_when, wp_bind, wp_modifyState, wp_getState]
  refine ⟨fun hlast => ?_, fun hlast => hQ _ ⟨⟨_, rfl⟩, fun _ _ => rfl, rfl, ?_⟩⟩
  · refine ends_ftlWriteLog hwf hb (fun _ c => hQ _ ⟨⟨_, rfl⟩, fun b' p => ?_, rfl, ?_⟩)
      fun hf e s' hftl _ => hE e s' ⟨_, hf⟩ ⟨_, hftl⟩
    · show (((s.vol.setPage b k (.written pg)).setLog b c).leb b').page p = _
      unfold Volume.setLog
      by_cases hbb : b' = b
      · rw [hbb, Volume.setLeb_same]
        rfl
      · rw [Volume.setLeb_other _ _ hbb]
    · rw [if_pos (by omega)]
      rfl
  · rw [if_neg (by omega)]
    rfl

/-- A page of `B` was copied and another operation failed: its sector is mapped elsewhere, but the
    page is still in use. -/
theorem Copying.mapped_not_consistent {s' : State} {v : Nat} (hwf : fip.Wf)
    (h : Copying fip B D s j X s₁) (hB : B < fip.lebNum) (hj : j < fip.ftlPageNum)
    (huse : s₁.ftl.pageState B j = .pageUsing) (hread : s₁.env.faults s₁.env.flashOps = .ok)
    (hv : v < fip.virtualSectorNum) (hi : s₁.ftl.sectorIndex v = fip.pageIndex B j)
    (hadv : Advanced fip s₁.ftl f' b k)
    (hindex : s'.ftl.sectorIndex = (f'.mapTo fip b k v).sectorIndex)
    (hstate : s'.ftl.pageState = (f'.mapTo fip b k v).pageState) :
    Consistent fip s' D ↔ s.FailsEarly fip B := by
  have hsucc := h.usingBelow_succ huse
  have hmono := usingBelow_mono s.ftl B (show j + 1 ≤ fip.ftlPageNum from hj)
  obtain ⟨-, hk, -⟩ := hadv.empty hwf h.books
  obtain ⟨hindex', hstate', -⟩ := hadv.tables
  have hne := h.newPage_ne hadv
  refine iff_of_false (fun hc => ?_) fun he => ?_
  · have huse' : s'.ftl.pageState B j = .pageUsing := by
      rw [hstate, mapTo_pageState, if_neg fun hc => hne hc.1.symm, hstate']
      exact huse
    obtain ⟨w, hw, hiw⟩ := (hc.inUse B j hB hj).mp huse'
    rw [hindex] at hiw
    rcases (live_mapTo hv hk hj).mp ⟨w, hw, hiw⟩ with ⟨hBb, -⟩ | ⟨w', hw', hwv, hiw'⟩
    · exact hne hBb.symm
    · rw [hindex'] at hiw'
      exact hwv (h.books.injective hw' hv hj hiw' hi)
  · obtain ⟨⟨i, hi', hok⟩, hpage⟩ := h.begun hread hadv.not_noPage
    rcases he with ⟨-, hno⟩ | ⟨hno, -⟩
    · exact hpage hno
    · exact hno i (by omega) hok

/-- There is no page to copy page `j` to. -/
theorem Copying.exhausted (h : Copying fip B D s j X s₁) (hj : j < fip.ftlPageNum)
    (huse : s₁.ftl.pageState B j = .pageUsing) (hread : s₁.env.faults s₁.env.flashOps = .ok)
    (hno : s₁.ftl.NoPage fip) :
    Halted fip B D s (.errno .eio) (s₁.tick.onFtl Ftl.exhausted) := by
  have hsucc := h.usingBelow_succ huse
  have hmono := usingBelow_mono s.ftl B (show j + 1 ≤ fip.ftlPageNum from hj)
  refine ⟨?_, fun _ x _ => ?_⟩
  · by_cases hall : ∀ n, s.env.faults n = .ok
    · obtain ⟨-, hroom, -⟩ := h.clean fun i _ => hall _
      right
      have : s₁.ftl.room fip = 0 := by
        unfold Ftl.room
        rw [hno.2, List.length_nil]
        have := hno.1
        omega
      omega
    · push Not at hall
      exact .inl hall
  · by_cases hw : ∀ i, i < s.ftl.usingBelow B j → s.nextOp i ≠ .ok
    · obtain ⟨hops, hftl, -, hX⟩ := h.waiting hw
      have hc := h.books.consistent hX
      rw [hftl] at hno
      refine iff_of_true ⟨hc.held, hc.inUse, hc.count⟩ (.inl ⟨⟨s.ftl.usingBelow B j, by omega, ?_⟩, hno⟩)
      rw [h.faults, hops] at hread
      exact hread
    · push Not at hw
      obtain ⟨hpage, p, hX⟩ := h.started hw
      obtain ⟨i, hi, hok⟩ := hw
      refine iff_of_false (fun hc => ?_) fun he => ?_
      · exact h.books.not_consistent hX ⟨hc.held, hc.inUse, hc.count⟩
      · rcases he with ⟨-, hno⟩ | ⟨hno, -⟩
        · exact hpage hno
        · exact hno i (by omega) hok

/-- One round on a page in use. -/
theorem ends_scrubPage (hwf : fip.Wf) (h : Copying fip B D s j X s₁) (hB : B < fip.lebNum)
    (hj : j < fip.ftlPageNum) (huse : s₁.ftl.pageState B j = .pageUsing) :
    Ends (scrubPage fip B j) (fun _ s₂ => ∃ X', Copying fip B D s (j + 1) X' s₂) (Halted fip B D s)
      s₁ := by
  obtain ⟨v, hv, hi⟩ := h.live hB hj huse
  obtain ⟨-, pg, hpg, hs, hD⟩ := h.books.live_page hv hj hi
  have hsucc := h.usingBelow_succ huse
  have hmono := usingBelow_mono s.ftl B (show j + 1 ≤ fip.ftlPageNum from hj)
  have hfault : s₁.env.faults s₁.env.flashOps ≠ .ok → ∃ n, s.env.faults n ≠ .ok := fun hf =>
    ⟨_, h.faults ▸ hf⟩
  unfold Ends scrubPage
  simp only [wp_bind, wp_attempt]
  refine ends_ftlRead hwf.leb_page hB hj hpg (fun hread => ?_) (fun q hf => ?_) fun q hf => ?_
  · refine ends_getNewPage hwf.page_pos (s := s₁.tick) h.books (fun b k f' hadv => ?_) fun hno i hneg => ?_
    · obtain ⟨hb, hk, hempty⟩ := hadv.empty hwf h.books
      have hnonneg : 0 ≤ fip.pageIndex b k := pageIndex_nonneg b k
      rw [wp_ite]
      refine ⟨fun hneg => absurd hneg (by omega), fun _ => ?_⟩
      simp only [wp_bind, hs, pageIndex_tdiv hk, pageIndex_tmod hk, wp_setSectorIndex hv,
        wp_setPageState hb hk, addBlockUsingPage, wp_modifyState, wp_getState, Int.toNat_natCast]
      have hpages : (s₁.vol.leb b).page k = .erased := h.books.erased b k hb hk hempty
      refine ends_program (s := s₁.tick.onFtl fun _ => f'.mapTo fip b k v) hwf hb hk hpages
        (fun s' hp => ⟨_, h.copied hwf hB hj huse hread hv hi hadv ?_ ?_ hp⟩)
        fun e s' hfail hl => ⟨.inl (h.faults ▸ hfail), fun _ _ _ => ?_⟩
      · rfl
      · exact hD
      · obtain ⟨l, hftl⟩ := hl
        exact h.mapped_not_consistent hwf hB hj huse hread hv hi hadv (by rw [hftl]; rfl)
          (by rw [hftl]; rfl)
    · rw [wp_ite]
      exact ⟨fun _ => h.exhausted hj huse hread hno, fun hpos => absurd hneg hpos⟩
  · exact ⟨X, h.skip hB hj huse (by simp [hf])⟩
  · exact ⟨.inl (hfault (by simp [hf])), fun _ x hx => by cases hx⟩

/-- The test of `get_block_using_page_num`: the block is not free, nor being filled. -/
def Ftl.Scrubbable (fip : UftlInfo) (f : Ftl) (B : Nat) : Prop :=
  ¬(((B : Int) = f.curOffset.block ∧ f.pageState B (fip.ftlPageNum - 1) = .pageEmpty) ∨
    f.pageState B 0 = .pageEmpty)

instance instDecidableScrubbable (f : Ftl) : Decidable (f.Scrubbable fip B) :=
  inferInstanceAs (Decidable (¬_))

/-- A block that may be collected is not free, and not half written. -/
theorem Books.scrubbable {f : Ftl} {vol : Volume} (hwf : fip.Wf) (h : Books fip X f vol D)
    (hs : f.Scrubbable fip B) : B ∉ f.emptyBlockFifo.items ∧
      ((B : Int) = f.curOffset.block → f.curOffset.page + 1 = fip.ftlPageNum) := by
  have hP := hwf.page_pos
  obtain ⟨hcur, hfirst⟩ := not_or.mp hs
  refine ⟨fun hmem => hfirst ((h.fifo B hmem).2.2 0 hP), fun hB => ?_⟩
  by_contra hne
  have hpage := h.curPage
  exact hcur ⟨hB, (h.current B _ hB (by omega)).mpr (by omega)⟩

/-- Before the first page. -/
theorem Books.copying (hwf : fip.Wf) (h : Books fip noOrphan s.ftl s.vol D)
    (hs : s.ftl.Scrubbable fip B) : Copying fip B D s 0 noOrphan s where
  start := h.curPage.1
  books := h
  full := (h.scrubbable hwf hs).2
  notFree := (h.scrubbable hwf hs).1
  orphans := fun _ _ hf => hf.elim
  moved := .refl B _
  faults := rfl
  last := id
  clean := fun _ => ⟨rfl, by simp [Ftl.usingBelow], fun p hp => absurd hp (Nat.not_lt_zero p)⟩
  skipped := fun ⟨i, hi, _⟩ => absurd hi (Nat.not_lt_zero i)
  waiting := fun _ => ⟨rfl, rfl, rfl, fun _ _ hf => hf⟩
  started := fun ⟨i, hi, _⟩ => absurd hi (Nat.not_lt_zero i)

/-- A block without live pages is not copied. -/
theorem Books.copying_none (hwf : fip.Wf) (h : Books fip noOrphan s.ftl s.vol D)
    (hB : B < fip.lebNum) (hs : s.ftl.Scrubbable fip B) (hz : s.ftl.usingPage B = 0) :
    Copying fip B D s fip.ftlPageNum noOrphan s := by
  have hcount : s.ftl.usingBelow B fip.ftlPageNum = 0 := by
    have : s.ftl.usingPage B = s.ftl.usingBelow B fip.ftlPageNum := h.count B hB
    omega
  have hno : ∀ p, p < fip.ftlPageNum → ¬s.ftl.Live fip B p := by
    intro p hp hl
    have := countP_range_eq_zero.mp hcount p hp
    simp [(h.inUse B p hB hp).mpr (.inl hl)] at this
  have h₀ := h.copying hwf hs
  refine
    { h₀ with
      orphans := fun _ _ hf => hf.elim
      clean := fun _ => ?_
      skipped := ?_
      waiting := fun _ => ?_
      started := ?_ }
  · rw [hcount]
    exact ⟨rfl, by omega, fun p _ hp => hno p hp⟩
  · rintro ⟨i, hi, -⟩
    omega
  · rw [hcount]
    exact ⟨rfl, rfl, rfl, fun _ _ hf => hf⟩
  · rintro ⟨i, hi, -⟩
    omega

/-- The block cannot be unmapped. -/
theorem Copying.erase_fails {q : Bool} (h : Copying fip B D s fip.ftlPageNum X s₁)
    (hB : B < fip.lebNum) (hf : s₁.env.faults s₁.env.flashOps = .fail q) :
    Halted fip B D s (.errno .eio) (if q then s₁.tick.onVol (·.unmap B) else s₁.tick) := by
  refine ⟨.inl ⟨s₁.env.flashOps, by rw [← h.faults, hf]; simp⟩, fun hu x _ => ?_⟩
  have hftl : (if q then s₁.tick.onVol (·.unmap B) else s₁.tick).ftl = s₁.ftl := by cases q <;> rfl
  by_cases hw : ∀ i, i < s.ftl.usingBelow B fip.ftlPageNum → s.nextOp i ≠ .ok
  · obtain ⟨hops, -, -, hX⟩ := h.waiting hw
    have hnext : s.nextOp (s.ftl.usingBelow B fip.ftlPageNum) = .fail q := by
      rw [h.faults, hops] at hf
      exact hf
    have hc := h.books.consistent hX
    cases q with
    | false => exact iff_of_true ⟨hc.held, hc.inUse, hc.count⟩ (.inr ⟨hw, hnext⟩)
    | true =>
      refine iff_of_false (fun hc' => ?_) ?_
      · -- a live page of the block reads as erased
        obtain ⟨p, hp, huse⟩ : ∃ p, p < fip.ftlPageNum ∧ s.ftl.pageState B p = .pageUsing := by
          by_contra hno
          refine hu (countP_range_eq_zero.mpr fun p hp => decide_eq_false fun huse => ?_)
          exact hno ⟨p, hp, huse⟩
        obtain ⟨v, hv, hi⟩ := (hc.inUse B p hB hp).mp (by rw [h.moved.states]; exact huse)
        obtain ⟨-, pg, -, -, hD⟩ := h.books.live_page hv hp hi
        have hheld := hc'.held v hv
        rw [hD] at hheld
        obtain ⟨b, p', pg', hidx, -, hp', hpg', -⟩ := hheld
        obtain ⟨rfl, rfl⟩ := pageIndex_inj hp' hp (hidx.symm.trans hi)
        have herased : ((s₁.vol.unmap b).leb b).page p' = .written pg' := hpg'
        rw [Volume.unmap_same] at herased
        cases herased
      · rintro (⟨⟨i, hi, hok⟩, -⟩ | ⟨-, hn⟩)
        · exact hw i hi hok
        · rw [hnext] at hn
          cases hn
  · push Not at hw
    obtain ⟨hpage, p, hX⟩ := h.started hw
    obtain ⟨i, hi, hok⟩ := hw
    refine iff_of_false ?_ ?_
    · have hb := h.books
      rw [← hftl] at hb
      exact hb.not_consistent hX
    · rintro (⟨-, hno⟩ | ⟨hno, -⟩)
      · exact hpage hno
      · exact hno i hi hok

/-- **`scrub_block`** for every script: it stops as `Halted` says, or the block is recycled after
    its pages were copied or skipped. -/
theorem scrubBlock_ends (hwf : fip.Wf) (h : Books fip noOrphan s.ftl s.vol D) (hB : B < fip.lebNum)
    (hs : s.ftl.Scrubbable fip B) :
    Ends (scrubBlock fip B) (fun _ s' => ∃ X s₁, Copying fip B D s fip.ftlPageNum X s₁ ∧
        s'.ftl = (s₁.ftl.pushBlock B).clearBlock B ∧ s'.vol = s₁.vol.unmap B ∧
        s'.env.faults = s.env.faults)
      (Halted fip B D s) s := by
  have hend : ∀ X s₁, Copying fip B D s fip.ftlPageNum X s₁ →
      Ends (ftlErase fip B true >>= fun _ => kfifoIn B >>= fun _ =>
          modifyState fun s => s.onFtl (·.clearBlock B))
        (fun _ s' => ∃ X s₁, Copying fip B D s fip.ftlPageNum X s₁ ∧
          s'.ftl = (s₁.ftl.pushBlock B).clearBlock B ∧ s'.vol = s₁.vol.unmap B ∧
          s'.env.faults = s.env.faults)
        (Halted fip B D s) s₁ := by
    intro X s₁ hc
    unfold Ends
    simp only [wp_bind, wp_modifyState]
    refine ends_ftlErase hwf hB (fun _ => ?_) (fun q hf => hc.erase_fails hB hf) fun q hf => ?_
    · exact ends_kfifoIn ⟨X, s₁, hc, rfl, rfl, hc.faults⟩
    · exact ⟨.inl ⟨s₁.env.flashOps, by rw [← hc.faults, hf]; simp⟩, fun _ x hx => by cases hx⟩
  unfold Ends at hend ⊢
  simp only [wp_bind] at hend
  simp only [scrubBlock, wp_bind, wp_getState, wp_when]
  refine ⟨fun _ => ?_, fun hz => hend _ s (h.copying_none hwf hB hs (not_not.mp hz))⟩
  refine wp_mono (wp_forUpto (fun j s₁ => ∃ X, Copying fip B D s j X s₁)
    ⟨noOrphan, h.copying hwf hs⟩ ?_) (fun _ s₁ hX => ?_) fun _ _ he => he
  · rintro j hj s₁ ⟨X, hc⟩
    simp only [wp_bind, wp_getState, wp_when]
    exact ⟨fun huse => ends_scrubPage hwf hc hB hj huse, fun huse => ⟨X, hc.pass hB huse⟩⟩
  · obtain ⟨X, hc⟩ := hX
    exact hend X s₁ hc

end Scrub

end Uftl
