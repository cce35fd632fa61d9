/-
  `ftl_core_io_init` with its allocations, and the values `ubiblk_add_locked` calls it with.

  `ftlCoreIoInit` (`uftl_core.c` in `Uftl.Core`) is this function on a machine that grants every
  allocation.  Here each `kmalloc` consults a script, the static pointers of the module are followed
  (`Heap`), and the geometry is made of the ints of C, which may be negative.  A pointer that is
  dereferenced while it is `NULL`, and a division by zero, end the run (`oops`).
-/
import FlashStack.Uftl.Dev
import Mathlib.Algebra.Group.Nat.Defs

namespace Uftl

open Lib Lib.Prog

/-! ## The pointers of the module -/

/-- What a static pointer holds: `NULL`, memory, or memory that was freed. -/
inductive Ptr where
  | null
  | live
  | freed
  deriving DecidableEq

/-- `struct fake_int_array`. -/
structure FakeIntArray where
  line : Int
  data : Ptr
  row : Nat → Ptr

/-- What `ftl_core_io_init` allocates. -/
structure Heap where
  fip : Ptr
  sectorIndex : FakeIntArray
  sectorId : FakeIntArray
  blockStateIndex : Ptr
  pageState : Nat → Ptr
  pageBufPool : Ptr
  dataBuf : Nat → Ptr
  blockLogPage : Ptr
  tmpPageBuf : Ptr
  fifo : Ptr

/-- The state of the driver, its pointers, and the script of `kmalloc`. -/
structure Module where
  state : State
  heap : Heap
  allocs : Nat → Bool
  allocCount : Nat

/-- What `ftl_core_io_init` returns. -/
inductive Ret where
  | zero
  | enomem
  | errno (e : Errno)
  deriving DecidableEq

/-- Ways not to return. -/
inductive Crash where
  | oops
  | exit (e : Exit)

/-- A function that allocates. -/
abbrev K := Prog Module Event Crash

/-- Change the pointers. -/
def onHeap (f : Heap → Heap) : K Unit := modifyState fun m => { m with heap := f m.heap }

/-- Change the state of the driver. -/
def onState (f : State → State) : K Unit := modifyState fun m => { m with state := f m.state }

/-- The next request of `size` bytes is granted: none of a negative size is, one of size 0 always. -/
def Module.grants (m : Module) (size : Int) (k : Nat) : Bool :=
  decide (0 ≤ size) && (decide (size = 0) || m.allocs k)

/-- `kmalloc`: the environment says which call gets memory. -/
def kmalloc (size : Int) : K Ptr := do
  let m ← getState
  modifyState fun m => { m with allocCount := m.allocCount + 1 }
  pure (if m.grants size m.allocCount = true then .live else .null)

/-- Run a function of the core; its error is returned. -/
def core {α : Type} (c : M α) : K (Except Errno α) := fun m =>
  match c m.state with
  | .ok a s t => .ok (.ok a) { m with state := s } t
  | .stop (.errno e) s t => .ok (.error e) { m with state := s } t
  | .stop e s t => .stop (.exit e) { m with state := s } t

/-! ## Allocating tables -/

/-- Allocate `n` rows of `size` bytes, up to the first failure.  Returns whether there was none. -/
def allocRows (store : Nat → Ptr → Heap → Heap) (size : Int) : Nat → K Bool
  | 0 => pure true
  | n + 1 => do
    let ok ← allocRows store size n
    if ok = true then do
      let p ← kmalloc size
      onHeap (store n p)
      pure (decide (p = .live))
    else pure false

/-- `PER_INDEX_LEN` -/
def perIndexLen : Int := 8192

/-- The rows of a table with an entry for each of `sector` virtual sectors. -/
def lines (sector : Int) : Int := sector.tdiv perIndexNum + 1

/-- `alloc_sector_index` and `alloc_sector_id`; the first `kmalloc` is not checked. -/
def allocFakeIntArray (put : (FakeIntArray → FakeIntArray) → Heap → Heap) (sector : Int) :
    K Bool := do
  let p ← kmalloc (lines sector * 4)
  onHeap (put fun a => { a with line := lines sector, data := p })
  if 0 < lines sector ∧ p = .null then stop .oops else
    allocRows (fun i p => put fun a => { a with row := Function.update a.row i p }) perIndexLen
      (lines sector).toNat

/-- One of the two row tables is changed. -/
def Heap.putSectorIndex (f : FakeIntArray → FakeIntArray) (h : Heap) : Heap :=
  { h with sectorIndex := f h.sectorIndex }

def Heap.putSectorId (f : FakeIntArray → FakeIntArray) (h : Heap) : Heap :=
  { h with sectorId := f h.sectorId }

/-- `alloc_sector_index`, `alloc_sector_id`. -/
def allocSectorIndex (sector : Int) : K Bool := allocFakeIntArray Heap.putSectorIndex sector

def allocSectorId (sector : Int) : K Bool := allocFakeIntArray Heap.putSectorId sector

/-- All rows and the table itself freed. -/
def FakeIntArray.free (a : FakeIntArray) : FakeIntArray :=
  { a with data := .freed, row := fun i => if (i : Int) < a.line then .freed else a.row i }

/-- `free_sector_index`, `free_sector_id`. -/
def freeSectorIndex : K Unit := onHeap (Heap.putSectorIndex FakeIntArray.free)

def freeSectorId : K Unit := onHeap (Heap.putSectorId FakeIntArray.free)

/-- `alloc_block_state_index`.  Each row is filled with `PAGE_EMPTY` when it is allocated. -/
def allocBlockStateIndex (block pagePerBlock : Int) : K Bool := do
  let p ← kmalloc (block * 8)
  onHeap fun h => { h with blockStateIndex := p }
  if p = .null then pure false else do
    onState fun s => { s with
      mounted := true
      ftl := { s.ftl with pageState := fun _ _ => .pageEmpty } }
    allocRows (fun i p h => { h with pageState := Function.update h.pageState i p }) pagePerBlock
      block.toNat

/-- `free_block_state_index`; the pointer keeps its value. -/
def freeBlockStateIndex (block : Int) : K Unit :=
  onHeap fun h => { h with
    blockStateIndex := .freed
    pageState := fun i => if (i : Int) < block then .freed else h.pageState i }

/-- `alloc_page_buf_pool`: neither the pool nor the data buffers are checked. -/
def allocPageBufPool (pageSize : Int) : K Unit := do
  let p ← kmalloc (20 * bufNum)
  onHeap fun h => { h with pageBufPool := p }
  if p = .null then stop .oops else
    forUpto bufNum fun i => do
      let d ← kmalloc pageSize
      onHeap fun h => { h with dataBuf := Function.update h.dataBuf i d }
      let _ ← core (allocPageBuf i)
      pure ()

/-! ## Mount -/

/-- The bytes `kfifo_alloc` asks for: a power of two. -/
def kfifoBytes (size : Nat) : Nat := if size = 0 then 0 else 2 ^ Nat.log2 size

/-- The number of block numbers that fit into the fifo of `lebNum` blocks. -/
def kfifoCap (lebNum : Nat) : Nat := kfifoBytes (lebNum * 4) / 4

/-- `init_status` after `kfifo_alloc`, up to the recycling of the blocks without live pages. -/
def initBlocks (fip : UftlInfo) (cap : Nat) : M Unit := do
  modifyState fun s => s.onFtl fun f => { f with emptyBlockFifo := ⟨cap, []⟩ }
  forUpto fip.lebNum (initBlock fip)

/-- The rest of `init_status`: the write position. -/
def initOffset (fip : UftlInfo) : M Unit := do
  let s ← getState
  if s.ftl.curOffset.block = ftlNomap then do
    let b ← getFirstEmptyBlock
    modifyState fun s => s.onFtl fun f => { f.nextId with curOffset := ⟨b, -1⟩ }
  else when (s.needRewrite = true) (ftlRescure fip s.ftl.curOffset.block s.rewritePage)
  modifyState fun s => { s with fullState := fullStateOf fip, checkCount := 0 }

/-- `init_status`, in two parts. -/
theorem initStatus_eq (fip : UftlInfo) (cap : Nat) :
    initStatus fip cap = initBlocks fip cap >>= fun _ => initOffset fip := by
  unfold initBlocks
  rw [bind_assoc]
  rfl

/-- What a part of the core returned, as the return value of its caller. -/
def retOf {α : Type} : Except Errno α → Ret
  | .ok _ => .zero
  | .error e => .errno e

/-- `ftl_rescure` will be called. -/
def State.rescues (s : State) : Prop := s.ftl.curOffset.block ≠ ftlNomap ∧ s.needRewrite = true

instance (s : State) : Decidable s.rescues := inferInstanceAs (Decidable (_ ∧ _))

/-- The buffer of `ftl_rescure`. -/
def allocRewriteBuf (fip : UftlInfo) (s : State) : K Ptr :=
  if s.rescues then kmalloc (fip.lebPageSize * s.rewritePage) else pure .live

/-- `init_status` with its allocations. -/
def initStatusAlloc (fip : UftlInfo) : K Ret := do
  if kfifoBytes (fip.lebNum * 4) < 2 then do
    onHeap fun h => { h with fifo := .null }
    pure (.errno .EINVAL)
  else do
    let p ← kmalloc (kfifoBytes (fip.lebNum * 4))
    onHeap fun h => { h with fifo := p }
    if p = .null then pure .enomem else do
      let r ← core (initBlocks fip (kfifoCap fip.lebNum))
      if retOf r ≠ .zero then pure (retOf r) else do
        let m ← getState
        let p ← allocRewriteBuf fip m.state
        if p = .null then pure .enomem else do
          let r ← core (initOffset fip)
          pure (retOf r)

/-! ## `ftl_core_io_init` -/

/-- What `ftl_core_io_init` is called with. -/
structure InitArgs where
  lebNum : Int
  lebPageNum : Int
  lebPageSize : Int
  sectorNum : Int

namespace InitArgs

/-- `page_sector_num`, of signed division. -/
def pageSectorNum (a : InitArgs) : Int := a.lebPageSize.tdiv sectorSize - pageLogSector

/-- `virtual_sector_num`. -/
def virtualSectorNum (a : InitArgs) : Int := a.sectorNum.tdiv a.pageSectorNum + 1

/-- `struct uftl_info`.  A loop up to a negative number has no rounds, as one up to 0. -/
def fip (a : InitArgs) : UftlInfo where
  lebNum := (a.lebNum - ftlLogBlockNum).toNat
  lebPageSize := a.lebPageSize.toNat
  lebPageNum := a.lebPageNum.toNat
  ftlPageNum := (a.lebPageNum - logPageNumPerBlock).toNat
  pageSectorNum := a.pageSectorNum.toNat
  virtualSectorNum := a.virtualSectorNum.toNat

/-- `create_index` has looked into a sector table that has no rows: it sets the state of a page
    whenever it does. -/
def Rowless (a : InitArgs) (s : State) : Prop :=
  lines a.virtualSectorNum ≤ 0 ∧
    ∃ b, b < a.fip.lebNum ∧ ∃ p, p < a.fip.ftlPageNum ∧ s.ftl.pageState b p ≠ .pageEmpty

instance (a : InitArgs) (s : State) : Decidable (a.Rowless s) := inferInstanceAs (Decidable (_ ∧ _))

end InitArgs

/-- `ERR1` and the labels above it. -/
def err1 (r : Ret) : K Ret := do
  onHeap fun h => { h with fip := .freed }
  pure r

/-- The labels at the end of `ftl_core_io_init`; each falls through to the one below. -/
def err2 (r : Ret) : K Ret := do
  freeSectorIndex
  err1 r

def err3 (r : Ret) : K Ret := do
  freeSectorId
  err2 r

def err4 (a : InitArgs) (r : Ret) : K Ret := do
  freeBlockStateIndex (a.lebNum - ftlLogBlockNum)
  err3 r

/-- `ftl_core_io_init` once the tables are allocated. -/
def initPages (a : InitArgs) : K Ret := do
  allocPageBufPool a.lebPageSize
  let p ← kmalloc a.lebPageSize
  onHeap fun h => { h with blockLogPage := p }
  let p' ← kmalloc a.lebPageSize
  onHeap fun h => { h with tmpPageBuf := p' }
  -- `ret` is still the 0 that `alloc_block_state_index` returned
  if p = .null ∨ p' = .null then err4 a .zero else do
    let r ← core (createIndex a.fip)
    if retOf r ≠ .zero then err4 a (retOf r) else do
      let m ← getState
      if a.Rowless m.state then stop .oops else do
        let r ← initStatusAlloc a.fip
        if r ≠ .zero then err4 a r else do
          freeSectorId
          pure .zero

/-- `ftl_core_io_init` after the check that it did not run before. -/
def initTables (a : InitArgs) : K Ret := do
  let p ← kmalloc 24
  onHeap fun h => { h with fip := p }
  if p = .null then pure .enomem else
  if a.pageSectorNum = 0 then stop .oops else do
    let ok ← allocSectorIndex a.virtualSectorNum
    if ok = false then err1 .enomem else do
      let ok ← allocSectorId a.virtualSectorNum
      if ok = false then err2 .enomem else do
        let ok ← allocBlockStateIndex (a.lebNum - ftlLogBlockNum)
          (a.lebPageNum - logPageNumPerBlock)
        if ok = false then err3 .enomem else initPages a

/-- `block_id = 0` -/
def State.resetId (s : State) : State := s.onFtl fun f => { f with blockId := 0, stamp := 0 }

/-- `ftl_core_io_init`. -/
def ftlCoreIoInitAlloc (a : InitArgs) : K Ret := do
  let m ← getState
  if m.heap.blockStateIndex ≠ .null then pure (.errno .EBUSY) else do
    onState State.resetId
    initTables a

/-! ## `ubiblk_add_locked` -/

/-- The number of sectors announced for a volume, before it is cut down to an `int`. -/
def exportedSectors (size pageNum pageSize : Int) : Int :=
  (size.tdiv 5 * 4 - gcBlockNum - ftlLogBlockNum) * (pageSize.tdiv sectorSize - pageLogSector) *
    (pageNum - logPageNumPerBlock)

/-- What `ubiblk_add_locked` passes to `ftl_core_io_init` for a volume of `size` LEBs. -/
def ubiblkArgs (size usableLebSize writesize : Int) : InitArgs :=
  let pageNum := usableLebSize.tdiv writesize
  ⟨size, pageNum, writesize, wrapInt (exportedSectors size pageNum writesize)⟩

end Uftl
