/-
  `uftl_core.c`: the mapping tables, mount, the write-back buffers, block recycling and garbage
  collection.

  Page indices are what they are in C: `block * ftl_page_num + page` as an integer, `-1` for "not
  mapped", decoded with the truncating division.  The tables are total functions here; an access
  that would leave a C array is the exit `outOfTable`, one behind a buffer for a page `outOfBuffer`.
  `block_id` and `check_count` wrap as an `int` does.  A loop that C writes as `while` gets a number
  of rounds (`garbageChecking`), and running out of them is the exit `spin`.
-/
import FlashStack.Uftl.Io

namespace Uftl

open Lib Lib.Prog

/-! ## Tables -/

/-- The sector tables have `sector / num + 1` rows of `num` entries. -/
def UftlInfo.inSectorTable (fip : UftlInfo) (sector : Int) : Prop :=
  0 ≤ sector ∧ sector < (fip.virtualSectorNum / perIndexNum + 1) * perIndexNum

instance (fip : UftlInfo) (sector : Int) : Decidable (fip.inSectorTable sector) :=
  inferInstanceAs (Decidable (_ ∧ _))

/-- `block_state_index` has `leb_num` blocks of `ftl_page_num` pages. -/
def UftlInfo.inBlockTable (fip : UftlInfo) (block page : Int) : Prop :=
  0 ≤ block ∧ block < fip.lebNum ∧ 0 ≤ page ∧ page < fip.ftlPageNum

instance (fip : UftlInfo) (block page : Int) : Decidable (fip.inBlockTable block page) :=
  inferInstanceAs (Decidable (_ ∧ _))

/-- The row tables of sectors, with the check of the index. -/
def getSectorIndex (fip : UftlInfo) (sector : Int) : M Int := do
  let s ← getState
  if fip.inSectorTable sector then pure (s.ftl.sectorIndex sector.toNat) else stop .outOfTable

def setSectorIndex (fip : UftlInfo) (sector index : Int) : M Unit :=
  if fip.inSectorTable sector then
    modifyState fun s => s.onFtl fun f =>
      { f with sectorIndex := Function.update f.sectorIndex sector.toNat index }
  else stop .outOfTable

def getSectorId (fip : UftlInfo) (sector : Int) : M Int := do
  let s ← getState
  if fip.inSectorTable sector then pure (s.sectorId sector.toNat) else stop .outOfTable

def setSectorId (fip : UftlInfo) (sector id : Int) : M Unit :=
  if fip.inSectorTable sector then
    modifyState fun s => { s with sectorId := Function.update s.sectorId sector.toNat id }
  else stop .outOfTable

/-- `block_state_index[block].page_state[page] = state` on the tables themselves. -/
def Ftl.setState (f : Ftl) (b p : Nat) (st : PageState) : Ftl :=
  { f with pageState := Function.update f.pageState b (Function.update (f.pageState b) p st) }

/-- The state of a page is set. -/
def setPageState (fip : UftlInfo) (block page : Int) (st : PageState) : M Unit :=
  if fip.inBlockTable block page then
    modifyState fun s => s.onFtl fun f => f.setState block.toNat page.toNat st
  else stop .outOfTable

/-- `using_page` of `block` changed by `d`. -/
def Ftl.addUsing (f : Ftl) (b : Nat) (d : Int) : Ftl :=
  { f with usingPage := Function.update f.usingPage b (f.usingPage b + d) }

/-- `add_block_using_page`. -/
def addBlockUsingPage (block : Int) : M Unit :=
  modifyState fun s => s.onFtl fun f => f.addUsing block.toNat 1

/-- `del_block_using_page`. -/
def delBlockUsingPage (block : Int) : M Unit :=
  modifyState fun s => s.onFtl fun f => f.addUsing block.toNat (-1)

/-- All pages of `b` set to `PAGE_EMPTY`, and `using_page` cleared. -/
def Ftl.clearBlock (f : Ftl) (b : Nat) : Ftl :=
  { f with
    pageState := Function.update f.pageState b fun _ => .pageEmpty
    usingPage := Function.update f.usingPage b 0 }

/-- The virtual sector at entry `page` of `block_log_page`. -/
def Ftl.logEntry (f : Ftl) (page : Nat) (sector : Int) : Ftl :=
  { f with
    blockLogPage :=
      { f.blockLogPage with entry := Function.update f.blockLogPage.entry page sector } }

/-- Note `sector` in `block_log_page`, which has `leb_page_size` bytes. -/
def setLogEntry (fip : UftlInfo) (page : Nat) (sector : Int) : M Unit :=
  if fip.inLogPage page then modifyState fun s => s.onFtl fun f => f.logEntry page sector
  else stop .outOfBuffer

/-- `log[page]` of a log page in `tmp_page_buf`. -/
def getLogEntry (fip : UftlInfo) (log : LogPage) (page : Nat) : M Int :=
  if fip.inLogPage page then pure (log.entry page) else stop .outOfBuffer

/-- `block_id++` -/
def Ftl.nextId (f : Ftl) : Ftl :=
  { f with blockId := wrapInt (f.blockId + 1), stamp := f.stamp + 1 }

/-! ## The fifo of empty blocks -/

/-- `kfifo_in`: a full fifo takes nothing. -/
def kfifoIn (block : Nat) : M Unit := do
  let s ← getState
  if s.ftl.emptyBlockFifo.items.length < s.ftl.emptyBlockFifo.cap then
    modifyState fun s => s.onFtl fun f =>
      { f with emptyBlockFifo :=
          { f.emptyBlockFifo with items := f.emptyBlockFifo.items ++ [block] } }
  else emit (.fifoFull block)

/-- `get_first_empty_block`. -/
def getFirstEmptyBlock : M Int := do
  let s ← getState
  match s.ftl.emptyBlockFifo.items with
  | [] => do
    emit .noFreeBlock
    pure (-1)
  | b :: rest => do
    modifyState fun s => s.onFtl fun f =>
      { f with emptyBlockFifo := { f.emptyBlockFifo with items := rest } }
    pure b

/-- `get_empty_block_num`. -/
def Ftl.getEmptyBlockNum (f : Ftl) : Nat := f.emptyBlockFifo.items.length

/-- The number of live pages of a block; a block with empty pages reports the maximum, so that it
    is not recycled. -/
def Ftl.getBlockUsingPageNum (fip : UftlInfo) (f : Ftl) (block : Nat) : Int :=
  if ((block : Int) = f.curOffset.block ∧ f.pageState block (fip.ftlPageNum - 1) = .pageEmpty) ∨
      f.pageState block 0 = .pageEmpty then
    fip.ftlPageNum
  else f.usingPage block

/-! ## Mount -/

/-- `block_id = block_id < id ? id : block_id` -/
def Ftl.raiseId (f : Ftl) (id : Int) : Ftl :=
  { f with
    blockId := if f.blockId < id then id else f.blockId
    stamp := if f.blockId < id then id else f.blockId }

/-- The body of both loops of `create_index`: page `page` of `block` claims to hold `sector` as of
    `id`.  Returns whether it is now the indexed page of that sector. -/
def indexPage (fip : UftlInfo) (block page : Nat) (sector id : Int) : M Bool := do
  let known ← getSectorId fip sector
  if known > id then do
    setPageState fip block page .pageDiscard
    pure false
  else do
    modifyState fun s => s.onFtl fun f => f.raiseId id
    let oldIndex ← getSectorIndex fip sector
    when (oldIndex ≠ ftlNomap)
      (setPageState fip (oldIndex.tdiv fip.ftlPageNum) (oldIndex.tmod fip.ftlPageNum) .pageDiscard)
    setSectorId fip sector id
    setSectorIndex fip sector (page + fip.ftlPageNum * block)
    setPageState fip block page .pageUsing
    pure true

/-- `create_index`'s loop over the pages of a block without log page, `n` pages from `page` on.
    Returns the page it stopped at. -/
def scanOpenBlock (fip : UftlInfo) (block : Nat) : Nat → Nat → M Nat
  | 0, page => pure page
  | n + 1, page => do
    let r ← attempt Exit.isErrno (ftlRead fip block page)
    match r with
    | .error _ => do
      modifyState fun s => { s with needRewrite := true, rewritePage := page }
      pure page
    | .ok pg =>
      if pg.log.magic = magicNum then do
        let taken ← indexPage fip block page pg.log.sector pg.log.id
        when (taken = true) (setLogEntry fip page pg.log.sector)
        scanOpenBlock fip block n (page + 1)
      else pure page

/-- `create_index` on a block with log page. -/
def indexLogged (fip : UftlInfo) (block : Nat) (curLog : LogPage) : M Unit :=
  forUpto fip.ftlPageNum fun page => do
    let sector ← getLogEntry fip curLog page
    let _ ← indexPage fip block page sector curLog.id
    pure ()

/-- `create_index` on a block without log page: the first one with pages becomes the current. -/
def indexUnlogged (fip : UftlInfo) (block : Nat) : M Unit := do
  let s ← getState
  when (s.ftl.curOffset.block = ftlNomap) do
    let page ← scanOpenBlock fip block fip.ftlPageNum 0
    when (page > 0) (modifyState fun s => s.onFtl fun f =>
      { f with curOffset := ⟨block, (page : Int) - 1⟩ })

/-- One round of the outer loop of `create_index`. -/
def createIndexBlock (fip : UftlInfo) (block : Nat) : M Unit := do
  let r ← attempt Exit.isErrno (ftlReadLog fip block)
  match r with
  | .error _ => ftlErase fip block false
  | .ok curLog =>
    if curLog.magic = magicNum then indexLogged fip block curLog else indexUnlogged fip block

/-- The tables as `create_index` initialises them. -/
def resetIndex (fip : UftlInfo) (s : State) : State :=
  { s with
    ftl := { s.ftl with
      curOffset := { s.ftl.curOffset with block := ftlNomap }
      sectorIndex := fun v => if v < fip.virtualSectorNum then ftlNomap else s.ftl.sectorIndex v }
    sectorId := fun v => if v < fip.virtualSectorNum then noId else s.sectorId v }

/-- `create_index`: block by block, and the newest copy of a page wins. -/
def createIndex (fip : UftlInfo) : M Unit := do
  modifyState (resetIndex fip)
  forUpto fip.lebNum (createIndexBlock fip)

/-- The number of `PAGE_USING` pages of a block. -/
def Ftl.countUsing (fip : UftlInfo) (f : Ftl) (block : Nat) : Nat :=
  (List.range fip.ftlPageNum).countP fun p => f.pageState block p = .pageUsing

/-- One round of the loop of `init_status`: count the live pages, recycle a block without any. -/
def initBlock (fip : UftlInfo) (block : Nat) : M Unit := do
  modifyState fun s => s.onFtl fun f =>
    { f with usingPage := Function.update f.usingPage block (f.countUsing fip block) }
  let s ← getState
  when (s.ftl.usingPage block = 0) do
    ftlErase fip block true
    modifyState fun s => s.onFtl fun f => f.clearBlock block
    kfifoIn block

/-- All `page_sector_num` bits. -/
def fullStateOf (fip : UftlInfo) : BitVec 32 :=
  (List.range fip.pageSectorNum).foldl (fun acc i => acc ||| (1#32 <<< i)) 0#32

/-- `init_status`; `cap` block numbers fit into the fifo that `kfifo_alloc` makes. -/
def initStatus (fip : UftlInfo) (cap : Nat) : M Unit := do
  modifyState fun s => s.onFtl fun f => { f with emptyBlockFifo := ⟨cap, []⟩ }
  forUpto fip.lebNum (initBlock fip)
  let s ← getState
  if s.ftl.curOffset.block = ftlNomap then do
    let b ← getFirstEmptyBlock
    modifyState fun s => s.onFtl fun f => { f.nextId with curOffset := ⟨b, -1⟩ }
  else when (s.needRewrite = true) (ftlRescure fip s.ftl.curOffset.block s.rewritePage)
  modifyState fun s => { s with fullState := fullStateOf fip, checkCount := 0 }

/-- The geometry `ftl_core_io_init` computes from its arguments. -/
def UftlInfo.ofVolume (lebNum lebPageNum lebPageSize sectorNum : Nat) : UftlInfo where
  lebNum := lebNum - ftlLogBlockNum
  lebPageSize := lebPageSize
  lebPageNum := lebPageNum
  ftlPageNum := lebPageNum - logPageNumPerBlock
  pageSectorNum := lebPageSize / sectorSize - pageLogSector
  virtualSectorNum := sectorNum / (lebPageSize / sectorSize - pageLogSector) + 1

/-- `alloc_page_buf_pool` for buffer `i`. -/
def allocPageBuf (i : Nat) : M Unit := do
  let now ← readJiffies
  modifyState fun s => { s with
    pool := Function.update s.pool i
      { s.pool i with sector := ftlNomap, read := false, sectorState := 0, jiffies := now } }

/-- `ftl_core_io_init` with all allocations granted.  What it does not initialise (sector data of
    the buffers, `block_log_page`, entries beyond the tables) keeps the value it finds in memory. -/
def ftlCoreIoInit (fip : UftlInfo) (cap : Nat) : M Unit := do
  let s ← getState
  if s.mounted = true then stop (.errno .EBUSY) else do
    modifyState fun s => { s with
      mounted := true
      ftl := { s.ftl with blockId := 0, stamp := 0, pageState := fun _ _ => .pageEmpty } }
    forUpto bufNum allocPageBuf
    createIndex fip
    initStatus fip cap

/-! ## The buffers -/

/-- The bit of sector `i` of a page. -/
def sectorMask (i : Nat) : BitVec 32 := 1#32 <<< i

/-- `get_page_buf_state`. -/
def PageBuf.dirty (b : PageBuf) (i : Nat) : Bool := b.sectorState &&& sectorMask i ≠ 0#32

/-- `memcpy` of one sector into the buffer, then `set_page_buf_state`. -/
def PageBuf.store (b : PageBuf) (i : Nat) (d : Sector) : PageBuf :=
  { b with
    dataBuf := { b.dataBuf with data := Function.update b.dataBuf.data i d }
    sectorState := b.sectorState ||| sectorMask i }

/-- Copy the sectors that were not written from a page read back from flash. -/
def PageBuf.merge (fip : UftlInfo) (b : PageBuf) (pg : Page) : PageBuf :=
  { b with dataBuf := { b.dataBuf with
      data := fun i => if i < fip.pageSectorNum ∧ b.dirty i = false then pg.data i
        else b.dataBuf.data i } }

/-- Change buffer `i`. -/
def State.setBuf (s : State) (i : Nat) (f : PageBuf → PageBuf) : State :=
  { s with pool := Function.update s.pool i (f (s.pool i)) }

/-- The buffer that holds a virtual sector (`is_sector_in_buf`). -/
def State.isSectorInBuf (s : State) (virtualSector : Int) : Option Nat :=
  (List.range bufNum).find? fun i => (s.pool i).sector = virtualSector

/-- A free buffer (`get_new_buf`). -/
def State.getNewBuf (s : State) : Option Nat :=
  (List.range bufNum).find? fun i => (s.pool i).sector = ftlNomap

/-! ## Writing pages -/

/-- The header of the log page. -/
def Ftl.logHeader (f : Ftl) : Ftl :=
  { f with blockLogPage := { f.blockLogPage with magic := magicNum, id := f.blockId } }

/-- `get_new_page`. -/
def getNewPage (fip : UftlInfo) : M Int := do
  modifyState fun s => s.onFtl fun f =>
    { f with curOffset := { f.curOffset with page := f.curOffset.page + 1 } }
  let s ← getState
  when (s.ftl.curOffset.page = fip.ftlPageNum) do
    let b ← getFirstEmptyBlock
    modifyState fun s => s.onFtl fun f => { f.nextId with curOffset := ⟨b, 0⟩ }
  let s ← getState
  pure (s.ftl.curOffset.block * fip.ftlPageNum + s.ftl.curOffset.page)

/-- After the last data page of `block`, complete and write its log page. -/
def closeBlock (fip : UftlInfo) (block page : Int) : M Unit :=
  when (page = (fip.ftlPageNum : Int) - 1) do
    modifyState fun s => s.onFtl Ftl.logHeader
    let s ← getState
    ftlWriteLog fip block s.ftl.blockLogPage

/-- One live page of `scrub_block`: copy page `page` of `block` to a new page. -/
def scrubPage (fip : UftlInfo) (block page : Nat) : M Unit := do
  let r ← attempt Exit.isErrno (ftlRead fip block page)
  match r with
  | .error _ => pure ()
  | .ok pg => do
    let newIndex ← getNewPage fip
    if newIndex < 0 then stop (.errno .eio) else do
      setSectorIndex fip pg.log.sector newIndex
      let newBlock := newIndex.tdiv fip.ftlPageNum
      let newPage := newIndex.tmod fip.ftlPageNum
      setPageState fip newBlock newPage .pageUsing
      addBlockUsingPage newBlock
      let s ← getState
      ftlWrite fip newBlock newPage
        { pg with log := { pg.log with id := s.ftl.blockId }, stamp := s.ftl.stamp }
      setLogEntry fip newPage.toNat pg.log.sector
      closeBlock fip newBlock newPage

/-- `scrub_block`: move the live pages of a block elsewhere and recycle the block. -/
def scrubBlock (fip : UftlInfo) (block : Nat) : M Unit := do
  let s ← getState
  when (s.ftl.usingPage block ≠ 0) (forUpto fip.ftlPageNum fun page => do
    let s ← getState
    when (s.ftl.pageState block page = .pageUsing) (scrubPage fip block page))
  ftlErase fip block true
  kfifoIn block
  modifyState fun s => s.onFtl fun f => f.clearBlock block

/-- The victim search of `garbage_checking`: the first block with the fewest live pages, among
    those with fewer than `ftl_page_num`. -/
def Ftl.gcVictim (fip : UftlInfo) (f : Ftl) : Option Nat :=
  ((List.range fip.lebNum).foldl (fun (acc : Int × Option Nat) block =>
      let n := f.getBlockUsingPageNum fip block
      if n < acc.1 then (n, some block) else acc) ((fip.ftlPageNum : Int), none)).2

/-- The `while` loop of `garbage_checking`, for at most `n` rounds. -/
def gcLoop (fip : UftlInfo) (lowBlockNum : Nat) : Nat → M Unit
  | 0 => stop .spin
  | n + 1 => do
    let s ← getState
    when (s.ftl.getEmptyBlockNum < lowBlockNum)
      (match s.ftl.gcVictim fip with
      | none => stop .bug
      | some block => do
        scrubBlock fip block
        gcLoop fip lowBlockNum n)

/-- `garbage_checking`.  Each round recycles a block with at least one page of garbage, so one
    round more than there are pages is enough. -/
def garbageChecking (fip : UftlInfo) (lowBlockNum : Nat) : M Unit :=
  gcLoop fip lowBlockNum (fip.lebNum * fip.ftlPageNum + 1)

/-- The first part of `sync_one_buf`: complete a partly written buffer from flash. -/
def mergeBuf (fip : UftlInfo) (i : Nat) : M Unit := do
  let s ← getState
  let buf := s.pool i
  when (buf.sectorState ≠ s.fullState ∧ buf.read = false) do
    let index ← getSectorIndex fip buf.sector
    when (index ≠ ftlNomap) do
      let pg ← ftlRead fip (index.tdiv fip.ftlPageNum) (index.tmod fip.ftlPageNum)
      modifyState fun s => s.setBuf i (·.merge fip pg)

/-- History: `sync_one_buf` is about to write buffer `i`. -/
def State.syncStarts (s : State) (i : Nat) : State :=
  { s with journal := ⟨(s.pool i).sector, (s.pool i).dataBuf.data, false⟩ :: s.journal }

/-- History: `sync_one_buf` returns 0 for the page it wrote. -/
def State.syncReturns (s : State) : State :=
  { s with journal := match s.journal with
      | [] => []
      | r :: rest => { r with returned := true } :: rest }

/-- The second part of `sync_one_buf`: write the buffer to a new page; returns its index. -/
def writeBuf (fip : UftlInfo) (i : Nat) : M Int := do
  let newIndex ← getNewPage fip
  if newIndex = -1 then stop (.errno .eio) else do
    modifyState fun s => s.setBuf i fun b =>
      { b with dataBuf :=
        { b.dataBuf with log := ⟨magicNum, b.sector, s.ftl.blockId⟩, stamp := s.ftl.stamp } }
    let block := newIndex.tdiv fip.ftlPageNum
    let page := newIndex.tmod fip.ftlPageNum
    modifyState (·.syncStarts i)
    let s ← getState
    ftlWrite fip block page (s.pool i).dataBuf
    setLogEntry fip page.toNat (s.pool i).sector
    closeBlock fip block page
    pure newIndex

/-- The third part of `sync_one_buf`: map the virtual sector to its new page, discard the old page
    and recycle its block if that was the last live one. -/
def remapSector (fip : UftlInfo) (sector newIndex : Int) : M Unit := do
  let oldIndex ← getSectorIndex fip sector
  let block := newIndex.tdiv fip.ftlPageNum
  setPageState fip block (newIndex.tmod fip.ftlPageNum) .pageUsing
  addBlockUsingPage block
  setSectorIndex fip sector newIndex
  when (oldIndex ≠ ftlNomap) do
    let block := oldIndex.tdiv fip.ftlPageNum
    setPageState fip block (oldIndex.tmod fip.ftlPageNum) .pageDiscard
    delBlockUsingPage block
    let s ← getState
    when (s.ftl.getBlockUsingPageNum fip block.toNat = 0) (scrubBlock fip block.toNat)

/-- `check_count++` -/
def countPage : M Unit := do
  let s ← getState
  when (s.checkCount = intMax) (emit .countWraps)
  modifyState fun s => { s with checkCount := wrapInt (s.checkCount + 1) }

/-- The fourth part of `sync_one_buf`: count the page and collect garbage when space is low. -/
def checkGarbage (fip : UftlInfo) : M Unit := do
  countPage
  let s ← getState
  when (s.checkCount > fip.ftlPageNum ∧ s.ftl.getEmptyBlockNum < lowBlockNum) do
    garbageChecking fip gcBlockNum
    modifyState fun s => { s with checkCount := 0 }

/-- The end of `sync_one_buf`: the buffer is free. -/
def releaseBuf (i : Nat) : M Unit := do
  let now ← readJiffies
  modifyState fun s => s.setBuf i fun b =>
    { b with sector := ftlNomap, read := false, sectorState := 0, jiffies := now }

/-- `sync_one_buf`. -/
def syncOneBuf (fip : UftlInfo) (i : Nat) : M Unit := do
  let s ← getState
  when ((s.pool i).sectorState ≠ 0) do
    mergeBuf fip i
    let newIndex ← writeBuf fip i
    remapSector fip (s.pool i).sector newIndex
    checkGarbage fip
    modifyState State.syncReturns
  releaseBuf i

/-- The buffer `flush_one_buf` picks when the clock reads `now`.  The loop compares the buffer
    picked so far, not the one it is at. -/
def State.flushVictim (s : State) (now : BitVec 32) : Nat :=
  ((List.range bufNum).foldl (fun (acc : BitVec 32 × Nat) i =>
      if (s.pool acc.2).jiffies < acc.1 then ((s.pool i).jiffies, i) else acc) (now, 0)).2

/-- `flush_one_buf`: the buffer that was used the longest time ago. -/
def flushOneBuf (fip : UftlInfo) : M Unit := do
  let now ← readJiffies
  let s ← getState
  syncOneBuf fip (s.flushVictim now)

/-- A free buffer, after flushing one if there is none. -/
def takeBuf (fip : UftlInfo) : M Nat := do
  let s ← getState
  match s.getNewBuf with
  | some i => pure i
  | none => do
    flushOneBuf fip
    let s ← getState
    match s.getNewBuf with
    | some i => pure i
    | none => stop (.errno .eio)

/-! ## The entry points -/

/-- Set the time buffer `i` was last touched. -/
def touchBuf (i : Nat) : M Unit := do
  let now ← readJiffies
  modifyState fun s => s.setBuf i fun b => { b with jiffies := now }

/-- `ftl_core_io_read`; `none` means that the caller's buffer was left as it was. -/
def ftlCoreIoRead (fip : UftlInfo) (sector : Nat) : M (Option Sector) := do
  let virtualSector := sector / fip.pageSectorNum
  let k := sector % fip.pageSectorNum
  let s ← getState
  match s.isSectorInBuf virtualSector with
  | none => do
    let index ← getSectorIndex fip virtualSector
    if index = ftlNomap then pure none else do
      let i ← takeBuf fip
      modifyState fun s => s.setBuf i fun b =>
        { b with sector := virtualSector, read := true, sectorState := 0 }
      let index ← getSectorIndex fip virtualSector
      let pg ← ftlRead fip (index.tdiv fip.ftlPageNum) (index.tmod fip.ftlPageNum)
      modifyState fun s => s.setBuf i fun b => { b with dataBuf := pg }
      touchBuf i
      pure (some (pg.data k))
  | some i => do
    when ((s.pool i).dirty k = false ∧ (s.pool i).read = false) do
      let index ← getSectorIndex fip virtualSector
      when (index ≠ ftlNomap) do
        let pg ← ftlRead fip (index.tdiv fip.ftlPageNum) (index.tmod fip.ftlPageNum)
        modifyState fun s => s.setBuf i fun b => { b.merge fip pg with read := true }
    let s ← getState
    touchBuf i
    pure (some ((s.pool i).dataBuf.data k))

/-- `ftl_core_io_write`. -/
def ftlCoreIoWrite (fip : UftlInfo) (sector : Nat) (d : Sector) : M Unit := do
  let virtualSector := sector / fip.pageSectorNum
  let k := sector % fip.pageSectorNum
  let s ← getState
  match s.isSectorInBuf virtualSector with
  | none => do
    let i ← takeBuf fip
    modifyState fun s => s.setBuf i fun b =>
      { b with sector := virtualSector, sectorState := 0 }.store k d
    touchBuf i
  | some i => do
    modifyState fun s => s.setBuf i (·.store k d)
    touchBuf i

/-- One round of `ftl_core_io_queue_flush`; returns whether the buffer was due. -/
def queueFlushBuf (fip : UftlInfo) (i : Nat) : M Bool := do
  let s ← getState
  let buf := s.pool i
  if buf.sector = ftlNomap ∨ buf.sectorState = 0 then pure false else do
    let now ← readJiffies
    if buf.jiffies + needFlushTime < now then do
      let _ ← attempt Exit.isErrno (syncOneBuf fip i)
      pure true
    else pure false

/-- `ftl_core_io_queue_flush`, from buffer `i` on; returns `need_sync_nand`. -/
def queueFlushFrom (fip : UftlInfo) : Nat → M Bool
  | 0 => pure false
  | n + 1 => do
    let a ← queueFlushFrom fip n
    let b ← queueFlushBuf fip n
    pure (a || b)

/-- `ftl_core_io_queue_flush`. -/
def ftlCoreIoQueueFlush (fip : UftlInfo) : M Bool := queueFlushFrom fip bufNum

/-- `ftl_core_io_all_flush` over the first `n` buffers; returns the result of the last sync. -/
def allFlushUpto (fip : UftlInfo) : Nat → M (Except Exit Unit)
  | 0 => pure (.ok ())
  | n + 1 => do
    let _ ← allFlushUpto fip n
    attempt Exit.isErrno (syncOneBuf fip n)

/-- `ftl_core_io_all_flush`. -/
def ftlCoreIoAllFlush (fip : UftlInfo) : M (Except Exit Unit) := allFlushUpto fip bufNum

end Uftl
