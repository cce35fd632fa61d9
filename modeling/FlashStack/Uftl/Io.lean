/-
  `uftl_io.c`: page reads, page writes, erasure and the rescue of a block, over the UBI calls of
  `kapi.c`.  UBI refuses LEB numbers and offsets outside the volume with `-EINVAL`; the volume has
  `FTL_LOG_BLOCK_NUM` LEBs more than UFTL uses.

  A read or a write is one flash operation, with the fault script of the environment; the rescue of
  a block copies its pages through a buffer and writes them again.
-/
import FlashStack.Uftl.Media

namespace Uftl

open Lib Lib.Prog

/-- `lnum` and the byte range of a page lie inside the volume (checks of `kapi.c`). -/
def UftlInfo.inVolume (fip : UftlInfo) (lnum page : Int) : Prop :=
  0 ≤ lnum ∧ lnum < fip.lebNum + ftlLogBlockNum ∧ 0 ≤ page ∧ page < fip.lebPageNum

instance (fip : UftlInfo) (lnum page : Int) : Decidable (fip.inVolume lnum page) :=
  inferInstanceAs (Decidable (_ ∧ _))

/-- `ftl_erase`: `ubi_leb_unmap` or `ubi_leb_erase`. -/
def ftlErase (fip : UftlInfo) (lnum : Int) (unmap : Bool) : M Unit :=
  if fip.inVolume lnum 0 then
    let f := fun v : Volume => if unmap then v.unmap lnum.toNat else v.erase lnum.toNat
    flashOp f f [] []
  else stop (.errno .EINVAL)

/-- `ftl_read` of a data page. -/
def ftlRead (fip : UftlInfo) (lnum page : Int) : M Page :=
  if fip.inVolume lnum page then do
    flashOp id id [] []
    let s ← getState
    match ((s.vol.leb lnum.toNat).page page.toNat).read .blank with
    | some pg => pure pg
    | none => stop (.errno .eio)
  else stop (.errno .EINVAL)

/-- `ftl_read` of page `ftl_page_num`, the log page. -/
def ftlReadLog (fip : UftlInfo) (lnum : Int) : M LogPage :=
  if fip.inVolume lnum fip.ftlPageNum then do
    flashOp id id [] []
    let s ← getState
    match (s.vol.leb lnum.toNat).log.read .blank with
    | some pg => pure pg
    | none => stop (.errno .eio)
  else stop (.errno .EINVAL)

/-- `ftl_write` of a data page.  An interrupted write leaves a torn page. -/
def ftlWrite (fip : UftlInfo) (lnum page : Int) (pg : Page) : M Unit :=
  if fip.inVolume lnum page then
    let b := lnum.toNat
    let p := page.toNat
    flashOp (fun v => v.setPage b p (((v.leb b).page p).program pg)) (fun v => v.setPage b p .torn)
      [.program b p] [.program b p]
  else stop (.errno .EINVAL)

/-- `ftl_write` of page `ftl_page_num`, the log page. -/
def ftlWriteLog (fip : UftlInfo) (lnum : Int) (pg : LogPage) : M Unit :=
  if fip.inVolume lnum fip.ftlPageNum then
    let b := lnum.toNat
    flashOp (fun v => v.setLog b ((v.leb b).log.program pg)) (fun v => v.setLog b .torn)
      [] [.tearLog b]
  else stop (.errno .EINVAL)

/-- `ftl_rescure`: read the first `tillPage` pages of a block and write them back atomically.  With
    no page to keep, both UBI calls have length 0 and do nothing. -/
def ftlRescure (fip : UftlInfo) (block : Int) (tillPage : Nat) : M Unit :=
  if fip.inVolume block 0 then
    if tillPage = 0 then pure () else do
      flashOp id id [] []
      let s ← getState
      if ∀ p < tillPage, (((s.vol.leb block.toNat).page p).read .blank).isSome then
        flashOp (·.keepPages block.toNat tillPage) (·.keepPages block.toNat tillPage) [] []
      else stop (.errno .eio)
  else stop (.errno .EINVAL)

end Uftl
