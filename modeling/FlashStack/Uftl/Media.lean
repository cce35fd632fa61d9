/-
  What UFTL sees of the flash: `uftl.h` and the UBI volume under `uftl_io.c`.

  UFTL cuts each LEB (a "block") into pages.  The first `ftl_page_num` pages hold data: sectors
  followed by a trailer (`struct page_log_info`, in the page's last sector) that names the virtual
  sector stored there.  The last page is the block's LOG PAGE: a header (`struct log_info`) and,
  for each data page, its virtual sector.  A page is read either as a data page or as a log page
  and its index alone decides which, so the two layouts are two record types here; an erased page
  reads as `0xFF` bytes, hence as a record whose integers are all `-1`.

  The volume remembers, besides the present content of each LEB, the contents it had when it was
  unmapped: `ubi_leb_unmap` is lazy, and an unmapped LEB may come back as any of them at the next
  attach (`Reattached`) as long as nothing was written to it since.

  Every flash operation consults a script (`Env.faults`) that decides whether it succeeds, fails,
  or is hit by a power cut, before or after having had an effect.
-/
import Mathlib.Logic.Function.Basic
import FlashStack.Lib.Prog

namespace Uftl

open Lib Lib.Prog

/-! ## Constants of `uftl.h` -/

/-- `BUF_NUM`: so many pages are cached. -/
def bufNum : Nat := 64
def logPageNumPerBlock : Nat := 1
def ftlNomap : Int := -1
def noId : Int := -1
def lowBlockNum : Nat := 5
def gcBlockNum : Nat := 10
def ftlLogBlockNum : Nat := 10
def pageLogSector : Nat := 1
def sectorSize : Nat := 512
def needFlushTime : BitVec 32 := 200
/-- `magic_num` of `uftl_core.c`. -/
def magicNum : Int := 722
/-- Entries in one row of the sector tables: `PER_INDEX_LEN / sizeof(int)`. -/
def perIndexNum : Nat := 2048
/-- `sizeof(int)` -/
def intSize : Nat := 4
/-- `sizeof(struct log_info)` -/
def logInfoSize : Nat := 8

/-- `INT_MAX` -/
def intMax : Int := 2147483647

/-- What an `int` of 32 bits keeps of a number. -/
def wrapInt (x : Int) : Int := x.bmod 4294967296

/-- Numbers that fit into an `int` are kept. -/
theorem wrapInt_of_le {x : Int} (hpos : 0 ≤ x) (hle : x ≤ intMax) : wrapInt x = x := by
  unfold intMax at hle
  exact Int.bmod_eq_of_le (by omega) (by omega)

/-- Wrapping twice is wrapping once. -/
theorem wrapInt_succ (x : Int) : wrapInt (wrapInt x + 1) = wrapInt (x + 1) := Int.bmod_add_bmod ..

/-! ## Pages -/

/-- The bytes of one sector. -/
abbrev Sector := Vector UInt8 512

/-- `struct page_log_info`: the trailer of a data page. -/
structure PageLogInfo where
  magic : Int
  sector : Int
  id : Int

/-- A data page: its sectors and its trailer.  `stamp` is a history variable, which no code reads: the
    number of the block that the page was programmed in, which `id` is as an `int`. -/
structure Page where
  data : Nat → Sector
  log : PageLogInfo
  stamp : Int

/-- A log page: `struct log_info` and the virtual sector of each data page.  The buffers that hold it
    have `leb_page_size` bytes; which entries lie inside of them is `UftlInfo.inLogPage`. -/
structure LogPage where
  magic : Int
  id : Int
  entry : Nat → Int

/-- How an erased data page reads. -/
def Page.blank : Page := ⟨fun _ => Vector.replicate 512 0xFF, ⟨-1, -1, -1⟩, -1⟩

/-- How an erased log page reads. -/
def LogPage.blank : LogPage := ⟨-1, -1, fun _ => -1⟩

/-- The state of one page of flash; reading a torn page is an error. -/
inductive Cell (α : Type) where
  | erased
  | written (a : α)
  | torn

/-- What a page reads as: `none` is a read error, an erased page reads as `blank`. -/
def Cell.read {α : Type} (blank : α) : Cell α → Option α
  | .erased => some blank
  | .written a => some a
  | .torn => none

/-- Programming a page that is not erased destroys it. -/
def Cell.program {α : Type} (c : Cell α) (a : α) : Cell α :=
  match c with
  | .erased => .written a
  | _ => .torn

/-! ## The volume -/

/-- The content of a LEB; `mapped` says that UBI has a physical eraseblock for it. -/
structure Leb where
  page : Nat → Cell Page
  log : Cell LogPage
  mapped : Bool

/-- An unmapped LEB reads as erased. -/
def Leb.unmapped : Leb := ⟨fun _ => .erased, .erased, false⟩

/-- Put a cell at data page `p`. -/
def Leb.setPage (c : Leb) (p : Nat) (x : Cell Page) : Leb :=
  ⟨Function.update c.page p x, c.log, true⟩

/-- Put a cell at the log page. -/
def Leb.setLog (c : Leb) (x : Cell LogPage) : Leb := ⟨c.page, x, true⟩

/-- Only the first `n` pages. -/
def Leb.keepPages (c : Leb) (n : Nat) : Leb :=
  ⟨fun p => if p < n then c.page p else .erased, .erased, true⟩

@[simp] theorem Leb.setPage_same (c : Leb) (p : Nat) (x : Cell Page) : (c.setPage p x).page p = x :=
  Function.update_self ..

/-- Other pages do not change. -/
theorem Leb.setPage_other (c : Leb) {p q : Nat} (x : Cell Page) (h : q ≠ p) :
    (c.setPage p x).page q = c.page q := Function.update_of_ne h ..

@[simp] theorem Leb.setPage_log (c : Leb) (p : Nat) (x : Cell Page) :
    (c.setPage p x).log = c.log := rfl

/-- The LEBs of the volume, and for each the contents it had when it was unmapped. -/
structure Volume where
  leb : Nat → Leb
  former : Nat → List Leb

/-- A volume no LEB of which was ever written. -/
def Volume.blank : Volume := ⟨fun _ => .unmapped, fun _ => []⟩

namespace Volume

/-- Replace the content of LEB `b`. -/
def setLeb (v : Volume) (b : Nat) (c : Leb) : Volume :=
  { v with leb := Function.update v.leb b c }

/-- `ubi_leb_unmap`: the LEB reads as erased, its content may come back. -/
def unmap (v : Volume) (b : Nat) : Volume :=
  ⟨Function.update v.leb b .unmapped, Function.update v.former b (v.leb b :: v.former b)⟩

/-- `ubi_leb_erase`: unmap and wait until everything put is erased. -/
def erase (v : Volume) (b : Nat) : Volume :=
  ⟨Function.update v.leb b .unmapped, Function.update v.former b []⟩

/-- Put a cell at data page `p` of LEB `b`. -/
def setPage (v : Volume) (b p : Nat) (c : Cell Page) : Volume :=
  v.setLeb b ((v.leb b).setPage p c)

/-- Put a cell at the log page of LEB `b`. -/
def setLog (v : Volume) (b : Nat) (c : Cell LogPage) : Volume :=
  v.setLeb b ((v.leb b).setLog c)

/-- `ubi_leb_change` to the first `n` pages of the present content. -/
def keepPages (v : Volume) (b n : Nat) : Volume :=
  v.setLeb b ((v.leb b).keepPages n)

/-- `w` is a volume the next attach may find after `v`: an unmapped LEB is unmapped again or has
    one of its former contents. -/
def Reattached (v w : Volume) : Prop :=
  w.former = v.former ∧
  ∀ b, w.leb b = v.leb b ∨
    (v.leb b).mapped = false ∧ (w.leb b = .unmapped ∨ ∃ c ∈ v.former b, w.leb b = { c with mapped := true })

end Volume

/-! ## The state of the driver -/

/-- `struct uftl_info`. -/
structure UftlInfo where
  lebNum : Nat
  lebPageSize : Nat
  lebPageNum : Nat
  ftlPageNum : Nat
  pageSectorNum : Nat
  virtualSectorNum : Nat
  deriving DecidableEq

/-- Entry `page` of a log page ends inside of the buffer. -/
def UftlInfo.inLogPage (fip : UftlInfo) (page : Nat) : Prop :=
  logInfoSize + intSize * (page + 1) ≤ fip.lebPageSize

instance (fip : UftlInfo) (page : Nat) : Decidable (fip.inLogPage page) :=
  inferInstanceAs (Decidable (_ ≤ _))

/-- `enum page_state`. -/
inductive PageState where
  | pageEmpty
  | pageUsing
  | pageDiscard
  deriving DecidableEq

/-- `struct page_buf`; `sector` is `ftlNomap` for a free buffer. -/
structure PageBuf where
  sector : Int
  read : Bool
  dataBuf : Page
  sectorState : BitVec 32
  jiffies : BitVec 32

/-- `struct line_offset`. -/
structure LineOffset where
  block : Int
  page : Int
  deriving DecidableEq

/-- A `struct kfifo` of block numbers: `cap` of them fit. -/
structure Kfifo where
  cap : Nat
  items : List Nat

/-- What a flash operation meets: it succeeds, returns an error, or the power is cut.  In the two
    latter cases `partly` says whether it had an effect on the flash. -/
inductive Fault where
  | ok
  | fail (partly : Bool)
  | cut (partly : Bool)
  deriving DecidableEq

/-- The environment: the script of flash operations and the values `jiffies` is read as. -/
structure Env where
  faults : Nat → Fault
  flashOps : Nat
  clock : Nat → BitVec 32
  clockReads : Nat

/-- The mapping tables and the write position (globals of `uftl_core.c`).  `stamp` is a history variable,
    which no code reads: `block_id` as it would be if it did not wrap. -/
structure Ftl where
  sectorIndex : Nat → Int
  pageState : Nat → Nat → PageState
  usingPage : Nat → Int
  blockLogPage : LogPage
  curOffset : LineOffset
  blockId : Int
  stamp : Int
  emptyBlockFifo : Kfifo

/-- A page `sync_one_buf` began to write, and whether it has returned 0 for it. -/
structure SyncRecord where
  sector : Int
  data : Nat → Sector
  returned : Bool

/-- Everything the driver reads and writes: the volume, the environment and the module's globals.
    `mounted` is `block_state_index != NULL`.  `journal` is a history variable, newest record
    first: no code reads it. -/
structure State where
  vol : Volume
  env : Env
  ftl : Ftl
  pool : Nat → PageBuf
  checkCount : Int
  fullState : BitVec 32
  sectorId : Nat → Int
  needRewrite : Bool
  rewritePage : Nat
  mounted : Bool
  journal : List SyncRecord

/-- What may happen during a run besides the changes of the state. -/
inductive Event where
  /-- Data page `page` of `lnum` was programmed, completely or in part. -/
  | program (lnum page : Nat)
  /-- The power was cut while the log page of `lnum` was being programmed. -/
  | tearLog (lnum : Nat)
  /-- A flash operation returned an error. -/
  | flashError
  /-- `get_first_empty_block` found the fifo empty. -/
  | noFreeBlock
  /-- `kfifo_in` found no room for `block`. -/
  | fifoFull (block : Nat)
  /-- `check_count` went from `INT_MAX` to `INT_MIN`. -/
  | countWraps
  deriving DecidableEq

/-- The errors that the code returns. -/
inductive Errno where
  | eio
  | EINVAL
  | EBUSY
  deriving DecidableEq

/-- Ways to leave a function other than by `return 0`.  Only `errno` is seen by the caller. -/
inductive Exit where
  | errno (e : Errno)
  | powerCut
  /-- `BUG()` -/
  | bug
  /-- an access outside a table -/
  | outOfTable
  /-- an access behind the end of a page buffer -/
  | outOfBuffer
  /-- a loop that exceeds the rounds the model grants it -/
  | spin
  deriving DecidableEq

/-- The exits a caller can look at. -/
def Exit.isErrno : Exit → Bool
  | .errno _ => true
  | _ => false

/-- A function of the driver. -/
abbrev M := Prog State Event Exit

/-- `if (c) f();` -/
def when (c : Prop) [Decidable c] (f : M Unit) : M Unit := if c then f else pure ()

/-- A step that is taken or not. -/
@[simp] theorem wp_when {A G : Event → Prop} {c : Prop} [Decidable c] {f : M Unit}
    {Q : Unit → State → Prop} {E : Exit → State → Prop} {s : State} :
    wp A G (when c f) Q E s ↔ (c → wp A G f Q E s) ∧ (¬c → Q () s) := by
  simp [when]

/-- One flash operation was done. -/
def State.tick (s : State) : State :=
  { s with env := { s.env with flashOps := s.env.flashOps + 1 } }

/-- Change the volume. -/
def State.onVol (s : State) (f : Volume → Volume) : State := { s with vol := f s.vol }

/-- Change the mapping tables. -/
def State.onFtl (s : State) (f : Ftl → Ftl) : State := { s with ftl := f s.ftl }

/-- Read the clock. -/
def readJiffies : M (BitVec 32) := do
  let s ← getState
  modifyState fun s => { s with env := { s.env with clockReads := s.env.clockReads + 1 } }
  pure (s.env.clock s.env.clockReads)

/-- One flash operation: `full` is its effect when it succeeds and `part` when it does not but had
    one; `done` and `torn` are the events that go with the two effects. -/
def flashOp (full part : Volume → Volume) (done torn : List Event) : M Unit := fun s =>
  match s.env.faults s.env.flashOps with
  | .ok => .ok () (s.tick.onVol full) done
  | .fail false => .stop (.errno .eio) s.tick [.flashError]
  | .fail true => .stop (.errno .eio) (s.tick.onVol part) (.flashError :: torn)
  | .cut false => .stop .powerCut s.tick []
  | .cut true => .stop .powerCut (s.tick.onVol part) torn

end Uftl
