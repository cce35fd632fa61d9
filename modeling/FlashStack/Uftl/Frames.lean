/-
  What requests leave alone in any state and whatever fails.

  The parts of `sync_one_buf` change the flash, the tables, two counters and the buffer they write.
  A relation that such steps respect (`Inert`, `Fills`) is kept by the whole, so each program is
  gone through once.  Of this form are: the fifo keeps its capacity (`SameCap`), each buffer keeps
  its virtual sector and dirty bits (`SameBufs`), and what belongs to another buffer is not touched
  at all (`SameOthers`).
-/
import FlashStack.Uftl.Core

namespace Uftl

open Lib Lib.Prog

variable {fip : UftlInfo} {I : State → State → Prop}

/-! ## The relations -/

/-- Steps on the flash, the tables and the counters respect the preorder `I`. -/
class Inert (I : State → State → Prop) : Prop where
  refl : ∀ s, I s s
  trans : ∀ {s s' s''}, I s s' → I s' s'' → I s s''
  flash : ∀ s g, I s (s.tick.onVol g)
  tables : ∀ s (g : Ftl → Ftl), (∀ f, (g f).emptyBlockFifo.cap = f.emptyBlockFifo.cap) →
    I s (s.onFtl g)
  count : ∀ (s : State) n, I s { s with checkCount := n }
  history : ∀ (s : State) j, I s { s with journal := j }

instance Inert.toRefl [Inert I] : Std.Refl I := ⟨Inert.refl⟩

instance Inert.toTrans [Inert I] : Trans I I I := ⟨Inert.trans⟩

/-- Changing buffer `i` respects `I`, as long as it keeps its virtual sector and dirty bits. -/
def Fills (I : State → State → Prop) (i : Nat) : Prop :=
  ∀ (s : State) (g : PageBuf → PageBuf), (g (s.pool i)).sector = (s.pool i).sector →
    (g (s.pool i)).sectorState = (s.pool i).sectorState → I s (s.setBuf i g)

/-- The fifo has the same capacity. -/
structure SameCap (s s' : State) : Prop where
  eq : s'.ftl.emptyBlockFifo.cap = s.ftl.emptyBlockFifo.cap

namespace SameCap

instance inert : Inert SameCap where
  refl := fun _ => ⟨rfl⟩
  trans := fun h h' => ⟨h'.eq.trans h.eq⟩
  flash := fun _ _ => ⟨rfl⟩
  tables := fun s _ hg => ⟨hg s.ftl⟩
  count := fun _ _ => ⟨rfl⟩
  history := fun _ _ => ⟨rfl⟩

theorem fills (i : Nat) : Fills SameCap i := fun _ _ _ _ => ⟨rfl⟩

end SameCap

/-- The buffers hold the same virtual sectors with the same dirty bits, the fifo has the same
    capacity. -/
structure SameBufs (s s' : State) : Prop where
  sector : ∀ j, (s'.pool j).sector = (s.pool j).sector
  sectorState : ∀ j, (s'.pool j).sectorState = (s.pool j).sectorState
  cap : SameCap s s'

namespace SameBufs

instance inert : Inert SameBufs where
  refl := fun _ => ⟨fun _ => rfl, fun _ => rfl, ⟨rfl⟩⟩
  trans := fun h h' => ⟨fun j => (h'.sector j).trans (h.sector j),
    fun j => (h'.sectorState j).trans (h.sectorState j), Trans.trans h.cap h'.cap⟩
  flash := fun _ _ => ⟨fun _ => rfl, fun _ => rfl, ⟨rfl⟩⟩
  tables := fun s _ hg => ⟨fun _ => rfl, fun _ => rfl, ⟨hg s.ftl⟩⟩
  count := fun _ _ => ⟨fun _ => rfl, fun _ => rfl, ⟨rfl⟩⟩
  history := fun _ _ => ⟨fun _ => rfl, fun _ => rfl, ⟨rfl⟩⟩

theorem fills (i : Nat) : Fills SameBufs i := by
  intro s g hs hd
  refine ⟨fun j => ?_, fun j => ?_, ⟨rfl⟩⟩
  · show (Function.update s.pool i _ j).sector = _
    by_cases hj : j = i
    · rw [hj, Function.update_self, hs]
    · rw [Function.update_of_ne hj]
  · show (Function.update s.pool i _ j).sectorState = _
    by_cases hj : j = i
    · rw [hj, Function.update_self, hd]
    · rw [Function.update_of_ne hj]

end SameBufs

/-- All buffers but `i` are as they were, and so is the clock. -/
structure SameOthers (i : Nat) (s s' : State) : Prop where
  pool : ∀ j, j ≠ i → s'.pool j = s.pool j
  clock : s'.env.clock = s.env.clock

namespace SameOthers

variable {i : Nat}

instance inert : Inert (SameOthers i) where
  refl := fun _ => ⟨fun _ _ => rfl, rfl⟩
  trans := fun h h' => ⟨fun j hj => (h'.pool j hj).trans (h.pool j hj), h'.clock.trans h.clock⟩
  flash := fun _ _ => ⟨fun _ _ => rfl, rfl⟩
  tables := fun _ _ _ => ⟨fun _ _ => rfl, rfl⟩
  count := fun _ _ => ⟨fun _ _ => rfl, rfl⟩
  history := fun _ _ => ⟨fun _ _ => rfl, rfl⟩

theorem setBuf (s : State) (g : PageBuf → PageBuf) : SameOthers i s (s.setBuf i g) :=
  ⟨fun _ hj => Function.update_of_ne hj .., rfl⟩

theorem fills : Fills (SameOthers i) i := fun s g _ _ => setBuf s g

end SameOthers

/-- A step that is left out keeps everything. -/
theorem keeps_when [Inert I] {p : Prop} [Decidable p] {c : M Unit} (hc : Keeps I c) :
    Keeps I (when p c) := .ite hc (.pure ())

/-- Changing tables is inert, as long as the fifo keeps its capacity. -/
theorem keeps_onFtl [Inert I] {g : Ftl → Ftl}
    (hg : ∀ f, (g f).emptyBlockFifo.cap = f.emptyBlockFifo.cap) :
    Keeps I (modifyState fun s => s.onFtl g : M Unit) := fun s => Inert.tables s g hg

variable [Inert I]

/-! ## Flash operations -/

/-- The flash is no part of what is kept, whatever the fault script says. -/
theorem keeps_flashOp (full part : Volume → Volume) (done torn : List Event) :
    Keeps I (flashOp full part done torn) := by
  intro s
  unfold flashOp
  rcases s.env.faults s.env.flashOps with _ | (_ | _) | (_ | _)
  · exact Inert.flash s full
  · exact Inert.flash s id
  · exact Inert.flash s part
  · exact Inert.flash s id
  · exact Inert.flash s part

theorem keeps_ftlRead (lnum page : Int) : Keeps I (ftlRead fip lnum page) := by
  refine .ite (.bind (keeps_flashOp _ _ _ _) fun _ => .bind .getState fun s => ?_) (.stop _)
  cases ((s.vol.leb lnum.toNat).page page.toNat).read .blank with
  | some pg => exact .pure pg
  | none => exact .stop _

theorem keeps_ftlWrite (lnum page : Int) (pg : Page) :
    Keeps I (ftlWrite fip lnum page pg) := .ite (keeps_flashOp _ _ _ _) (.stop _)

theorem keeps_ftlWriteLog (lnum : Int) (l : LogPage) : Keeps I (ftlWriteLog fip lnum l) :=
  .ite (keeps_flashOp _ _ _ _) (.stop _)

theorem keeps_ftlErase (lnum : Int) (unmap : Bool) : Keeps I (ftlErase fip lnum unmap) :=
  .ite (keeps_flashOp _ _ _ _) (.stop _)

/-! ## Tables and fifo -/

/-- The row tables. -/
theorem keeps_getSectorIndex (sector : Int) : Keeps I (getSectorIndex fip sector) :=
  .bind .getState fun _ => .ite (.pure _) (.stop _)

theorem keeps_setSectorIndex (sector index : Int) :
    Keeps I (setSectorIndex fip sector index) :=
  .ite (keeps_onFtl fun _ => by rfl) (.stop _)

theorem keeps_setPageState (block page : Int) (st : PageState) :
    Keeps I (setPageState fip block page st) :=
  .ite (keeps_onFtl fun _ => by rfl) (.stop _)

/-- The counters of the blocks and the fifo. -/
theorem keeps_addBlockUsingPage (block : Int) : Keeps I (addBlockUsingPage block) :=
  keeps_onFtl fun _ => by rfl

theorem keeps_delBlockUsingPage (block : Int) : Keeps I (delBlockUsingPage block) :=
  keeps_onFtl fun _ => by rfl

theorem keeps_kfifoIn (block : Nat) : Keeps I (kfifoIn block) :=
  .bind .getState fun _ => .ite (keeps_onFtl fun _ => by rfl) (.emit _)

theorem keeps_getFirstEmptyBlock : Keeps I getFirstEmptyBlock := by
  refine .bind .getState fun s => ?_
  cases s.ftl.emptyBlockFifo.items with
  | nil => exact .bind (.emit _) fun _ => .pure _
  | cons b rest => exact .bind (keeps_onFtl fun _ => by rfl) fun _ => .pure _

/-- The pages that are handed out, and the log of the block that is full. -/
theorem keeps_getNewPage : Keeps I (getNewPage fip) :=
  .bind (keeps_onFtl fun _ => by rfl) fun _ => .bind .getState fun _ =>
    .bind (keeps_when (.bind keeps_getFirstEmptyBlock fun _ => keeps_onFtl fun _ => by rfl))
      fun _ => .bind .getState fun _ => .pure _

theorem keeps_closeBlock (block page : Int) : Keeps I (closeBlock fip block page) :=
  keeps_when (.bind (keeps_onFtl fun _ => by rfl) fun _ => .bind .getState fun _ =>
    keeps_ftlWriteLog _ _)

theorem keeps_setLogEntry (page : Nat) (sector : Int) : Keeps I (setLogEntry fip page sector) :=
  .ite (keeps_onFtl fun _ => by rfl) (.stop _)

/-! ## Scrubbing and garbage collection -/

/-- The garbage collector. -/
theorem keeps_scrubPage (block page : Nat) : Keeps I (scrubPage fip block page) := by
  refine .bind (.attempt (keeps_ftlRead _ _)) fun r => ?_
  cases r with
  | error e => exact .pure ()
  | ok pg =>
    exact .bind keeps_getNewPage fun _ => .ite (.stop _) <|
      .bind (keeps_setSectorIndex _ _) fun _ => .bind (keeps_setPageState _ _ _) fun _ =>
        .bind (keeps_addBlockUsingPage _) fun _ => .bind .getState fun _ =>
          .bind (keeps_ftlWrite _ _ _) fun _ => .bind (keeps_setLogEntry _ _) fun _ =>
            keeps_closeBlock _ _

theorem keeps_scrubBlock (block : Nat) : Keeps I (scrubBlock fip block) :=
  .bind .getState fun _ => .bind
    (keeps_when (.forUpto (fun page => .bind .getState fun _ =>
      keeps_when (keeps_scrubPage block page)) _))
    fun _ => .bind (keeps_ftlErase _ _) fun _ => .bind (keeps_kfifoIn _) fun _ =>
      keeps_onFtl fun _ => by rfl

theorem keeps_gcLoop (low n : Nat) : Keeps I (gcLoop fip low n) := by
  induction n with
  | zero => exact .stop _
  | succ n ih =>
    refine .bind .getState fun s => keeps_when ?_
    cases s.ftl.gcVictim fip with
    | none => exact .stop _
    | some block => exact .bind (keeps_scrubBlock block) fun _ => ih

/-! ## The parts of `sync_one_buf` -/

/-- A buffer that is written may fill its own sectors first. -/
theorem keeps_mergeBuf {i : Nat} (hi : Fills I i) : Keeps I (mergeBuf fip i) :=
  .bind .getState fun _ => keeps_when <| .bind (keeps_getSectorIndex _) fun _ => keeps_when <|
    .bind (keeps_ftlRead _ _) fun _ => .modifyState fun s => hi s _ rfl rfl

theorem keeps_writeBuf {i : Nat} (hi : Fills I i) : Keeps I (writeBuf fip i) :=
  .bind keeps_getNewPage fun _ => .ite (.stop _) <|
    .bind (.modifyState fun s => hi s _ rfl rfl) fun _ =>
      .bind (.modifyState fun s => Inert.history s _) fun _ =>
        .bind .getState fun _ => .bind (keeps_ftlWrite _ _ _) fun _ =>
          .bind (keeps_setLogEntry _ _) fun _ => .bind (keeps_closeBlock _ _) fun _ => .pure _

/-- The tables after a write. -/
theorem keeps_remapSector (sector index : Int) : Keeps I (remapSector fip sector index) :=
  .bind (keeps_getSectorIndex _) fun _ => .bind (keeps_setPageState _ _ _) fun _ =>
    .bind (keeps_addBlockUsingPage _) fun _ => .bind (keeps_setSectorIndex _ _) fun _ =>
      keeps_when <| .bind (keeps_setPageState _ _ _) fun _ =>
        .bind (keeps_delBlockUsingPage _) fun _ => .bind .getState fun _ =>
          keeps_when (keeps_scrubBlock _)

theorem keeps_countPage : Keeps I countPage :=
  .bind .getState fun _ => .bind (keeps_when (.emit _)) fun _ => .modifyState fun s => Inert.count s _

theorem keeps_checkGarbage : Keeps I (checkGarbage fip) :=
  .bind keeps_countPage fun _ =>
    .bind .getState fun _ => keeps_when <| .bind (keeps_gcLoop _ _) fun _ =>
      .modifyState fun s => Inert.count s 0

/-- The part of `sync_one_buf` before the buffer is released. -/
def syncDirtyBuf (fip : UftlInfo) (i : Nat) (sector : Int) : M Unit := do
  mergeBuf fip i
  let newIndex ← writeBuf fip i
  remapSector fip sector newIndex
  checkGarbage fip
  modifyState State.syncReturns

/-- Writing a buffer that is dirty. -/
theorem keeps_syncDirtyBuf {i : Nat} (hi : Fills I i) (sector : Int) :
    Keeps I (syncDirtyBuf fip i sector) :=
  .bind (keeps_mergeBuf hi) fun _ => .bind (keeps_writeBuf hi) fun _ =>
    .bind (keeps_remapSector _ _) fun _ => .bind keeps_checkGarbage fun _ =>
      .modifyState fun s => Inert.history s _

/-! ## Requests -/

/-- The clock goes on, the fifo stays as large as it is. -/
theorem keeps_readJiffies : Keeps SameCap readJiffies :=
  .bind .getState fun _ => .bind (.modifyState fun _ => ⟨rfl⟩) fun _ => .pure _

/-- So it does when a buffer is written. -/
theorem keeps_syncOneBuf (i : Nat) : Keeps SameCap (syncOneBuf fip i) :=
  .bind .getState fun _ => .bind
    (keeps_when (keeps_syncDirtyBuf (SameCap.fills i) _)) fun _ =>
      .bind keeps_readJiffies fun _ => .modifyState fun _ => ⟨rfl⟩

/-- The other buffers do not notice the clock. -/
theorem others_readJiffies (i : Nat) : Keeps (SameOthers i) readJiffies :=
  .bind .getState fun _ => .bind (.modifyState fun _ => ⟨fun _ _ => rfl, rfl⟩) fun _ => .pure _

/-- Nor do they notice that this one is written. -/
theorem others_syncOneBuf (i : Nat) : Keeps (SameOthers i) (syncOneBuf fip i) :=
  .bind .getState fun _ => .bind (keeps_when (keeps_syncDirtyBuf SameOthers.fills _)) fun _ =>
    .bind (others_readJiffies i) fun _ => .modifyState fun s => SameOthers.setBuf s _

/-- The capacity of the fifo is the same after each operation of the device. -/
theorem keeps_takeBuf : Keeps SameCap (takeBuf fip) := by
  refine .bind .getState fun s => ?_
  cases s.getNewBuf with
  | some i => exact .pure i
  | none =>
    refine .bind (.bind keeps_readJiffies fun _ => .bind .getState fun _ => keeps_syncOneBuf _)
      fun _ => .bind .getState fun s' => ?_
    cases s'.getNewBuf with
    | some i => exact .pure i
    | none => exact .stop _

theorem keeps_touchBuf (i : Nat) : Keeps SameCap (touchBuf i) :=
  .bind keeps_readJiffies fun _ => .modifyState fun _ => ⟨rfl⟩

theorem keeps_ftlCoreIoWrite (sector : Nat) (d : Sector) :
    Keeps SameCap (ftlCoreIoWrite fip sector d) := by
  refine .bind .getState fun s => ?_
  cases s.isSectorInBuf (sector / fip.pageSectorNum : Nat) with
  | some i => exact .bind (.modifyState fun _ => ⟨rfl⟩) fun _ => keeps_touchBuf i
  | none =>
    exact .bind keeps_takeBuf fun i => .bind (.modifyState fun _ => ⟨rfl⟩) fun _ => keeps_touchBuf i

theorem keeps_ftlCoreIoRead (sector : Nat) : Keeps SameCap (ftlCoreIoRead fip sector) := by
  have hindex : ∀ v, Keeps SameCap (getSectorIndex fip v) := fun v =>
    keeps_getSectorIndex v
  have hread : ∀ b p, Keeps SameCap (ftlRead fip b p) := fun b p =>
    keeps_ftlRead b p
  refine .bind .getState fun s => ?_
  cases s.isSectorInBuf (sector / fip.pageSectorNum : Nat) with
  | some i =>
    refine .bind (keeps_when ?_) fun _ => .bind .getState fun _ => ?_
    · refine .bind (hindex _) fun index => keeps_when ?_
      exact .bind (hread _ _) fun _ => .modifyState fun _ => ⟨rfl⟩
    · exact .bind (keeps_touchBuf i) fun _ => .pure _
  | none =>
    refine .bind (hindex _) fun index => .ite (.pure _) ?_
    refine .bind keeps_takeBuf fun i => .bind (.modifyState fun _ => ⟨rfl⟩) fun _ => ?_
    refine .bind (hindex _) fun _ => .bind (hread _ _) fun _ => ?_
    exact .bind (.modifyState fun _ => ⟨rfl⟩) fun _ => .bind (keeps_touchBuf i) fun _ => .pure _

theorem keeps_queueFlushFrom (n : Nat) : Keeps SameCap (queueFlushFrom fip n) := by
  induction n with
  | zero => exact .pure false
  | succ n ih =>
    refine .bind ih fun _ => .bind (.bind .getState fun _ => .ite (.pure _) <|
      .bind keeps_readJiffies fun _ => .ite ?_ (.pure _)) fun _ => .pure _
    exact .bind (.attempt (keeps_syncOneBuf n)) fun _ => .pure _

theorem keeps_allFlushUpto (n : Nat) : Keeps SameCap (allFlushUpto fip n) := by
  induction n with
  | zero => exact .pure _
  | succ n ih => exact .bind ih fun _ => .attempt (keeps_syncOneBuf n)

end Uftl
