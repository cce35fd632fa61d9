/-
  `uftl_dev.c`: the block device on top of the core.

  A request of the block layer takes the mutex of the device, calls the core and returns its result;
  the flush does not look at the result.  The periodic work of the driver is a request as well.

  `Request` is what may be asked of the device, with the sector and the data; `serve` is what
  happens while the mutex is held.
-/
import FlashStack.Uftl.Core

namespace Uftl

open Lib Lib.Prog

/-- The number of sectors `ubiblk_add_locked` announces for a volume of `size` LEBs (from 25 LEBs
    on; below that the difference is negative in C). -/
def ubiblkSize (size pageNum pageSize : Nat) : Nat :=
  (size / 5 * 4 - gcBlockNum - ftlLogBlockNum) * (pageSize / sectorSize - pageLogSector) *
    (pageNum - logPageNumPerBlock)

/-- The geometry of such a device. -/
def UftlInfo.ofDevice (size pageNum pageSize : Nat) : UftlInfo :=
  .ofVolume size pageNum pageSize (ubiblkSize size pageNum pageSize)

/-- `ubiblock_flush`: `err` is returned as it was initialised. -/
def ubiblockFlush (fip : UftlInfo) : M (Except Exit Unit) := do
  let _ ← ftlCoreIoAllFlush fip
  pure (.ok ())

/-- A request of the block layer, or the periodic flush. -/
inductive Request where
  | write (sector : Nat) (d : Sector)
  | read (sector : Nat)
  | queueFlush
  | allFlush

namespace Request

/-- Serve a request; only a read has an answer. -/
def serve (fip : UftlInfo) : Request → M (Option Sector)
  | write sector d => do
    ftlCoreIoWrite fip sector d
    pure none
  | read sector => ftlCoreIoRead fip sector
  | queueFlush => do
    let _ ← ftlCoreIoQueueFlush fip
    pure none
  | allFlush => do
    let _ ← ubiblockFlush fip
    pure none

/-- The sector lies in the first `W` virtual sectors. -/
def Inside (fip : UftlInfo) (W : Nat) : Request → Prop
  | write sector _ => sector / fip.pageSectorNum < W
  | read sector => sector / fip.pageSectorNum < W
  | _ => True

instance (fip : UftlInfo) (W : Nat) (r : Request) : Decidable (r.Inside fip W) :=
  match r with
  | .write sector _ => inferInstanceAs (Decidable (sector / fip.pageSectorNum < W))
  | .read sector => inferInstanceAs (Decidable (sector / fip.pageSectorNum < W))
  | .queueFlush => isTrue trivial
  | .allFlush => isTrue trivial

end Request

end Uftl
