/-
  How `ubi_wl_get_peb` gets a PEB (`wl.c`, `io.c`).

  An entry of the WL sub-system is known by the number of its PEB, so that the trees hold numbers,
  and the erase counters are a function of these.  An `int` that overflows has no value in C: here,
  `none`.  The debugging checks are not built and not in the model; `mtd->erase`, `mtd->write` and
  what else can fail in one call are in `Env`.
-/
import FlashStack.Lib.SearchTree
import FlashStack.Ubi.EcHeader
import Mathlib.Logic.Function.Basic

open Lib
open Lib.SearchTree (inorder search)

namespace Ubi.Wl

/-- The constants of `wl.c` and of the configuration. -/
def configMtdUbiWlThreshold : Nat := 256
def ubiWlThreshold : Nat := configMtdUbiWlThreshold
def wlFreeMaxDiff : Nat := 2 * ubiWlThreshold
def ubiProtQueueLen : Nat := 10
def ubiIoRetries : Nat := 3

/-- The codes of `errno.h`. -/
def eintr : Int := 4
def eio : Int := 5
def enomem : Int := 12
def einval : Int := 22
def enospc : Int := 28
def erofs : Int := 30

/-- What reading a header may return, as in `ubi.h`. -/
def ubiIoFf : Int := 1
def ubiIoBadHdr : Int := 3
def ubiIoBadHdrEbadmsg : Int := 4

/-- How long the data is expected to stay. -/
inductive Dtype
  | longterm
  | shortterm
  | unknown
deriving DecidableEq

/-- What getting a PEB uses of `struct ubi_device`, and the flash. -/
structure Info where
  ec : Nat → Nat
  free : BinaryTree Nat
  pq : Nat → List Nat
  pqHead : Nat
  worksCount : Nat
  maxEc : Nat
  roMode : Bool
  flash : Nat → Peb

/-- `rb_erase`: the tree may be balanced anew. -/
structure RbErase where
  erase : BinaryTree Nat → Nat → BinaryTree Nat
  inorder_erase {t : BinaryTree Nat} {e : Nat} : e ∈ inorder t →
    inorder (erase t e) = (inorder t).erase e

/-! ## Choosing -/

/-- `INT_MAX` -/
def intMax : Nat := 2 ^ 31 - 1

/-- An addition of `int`s, which has no value if it overflows. -/
def addInt (x y : Nat) : Option Nat := if x + y ≤ intMax then some (x + y) else none

namespace Info

variable (s : Info)

/-- `find_wl_entry` -/
def findWlEntry (root : BinaryTree Nat) (max : Nat) : Option Nat :=
  match SearchTree.first root with
  | none => none
  | some e =>
    match addInt max (s.ec e) with
    | none => none
    | some max => some (search (fun e1 => !decide (s.ec e1 ≥ max)) root e)

/-- The `switch` of `ubi_wl_get_peb`. -/
def pick : Dtype → Option Nat
  | .longterm => s.findWlEntry s.free wlFreeMaxDiff
  | .unknown =>
    match SearchTree.first s.free, SearchTree.last s.free, s.free with
    | some first, some last, .node root _ _ =>
      if s.ec last - s.ec first < wlFreeMaxDiff then some root
      else
        match addInt (s.ec first) wlFreeMaxDiff with
        | none => none
        | some sum =>
          let mediumEc := sum / 2
          s.findWlEntry s.free mediumEc
    | _, _, _ => none
  | .shortterm => SearchTree.first s.free

/-- `prot_queue_add` -/
def protQueueAdd (e : Nat) : Info :=
  let pqTail := if s.pqHead = 0 then ubiProtQueueLen - 1 else s.pqHead - 1
  { s with pq := Function.update s.pq pqTail (s.pq pqTail ++ [e]) }

end Info

/-! ## Erasing -/

/-- The error of a driver. -/
structure Errno where
  val : Int
  neg : val < 0

/-- How one `mtd->erase` ends, and what is left of the PEB. -/
inductive EraseResult
  | done
  | error (err : Errno) (left : Peb)
  | failed (left : Peb)
  | interrupted (left : Peb)

/-- How one `mtd->write` ends, and what is left of the PEB. -/
inductive WriteResult
  | done
  | error (err : Errno) (left : Peb)

/-- What happens in one call of `sync_erase`. -/
structure Env where
  alloc : Bool
  norWriteEc : WriteResult
  norWriteVid : WriteResult
  norReadVid : Int
  norReadEc : Int
  erase : Nat → EraseResult
  writeEcHdr : WriteResult

/-- `mtd->write` -/
def mtdWrite (r : WriteResult) (p : Peb) (offs : Nat) (data : List UInt8) : Int × Peb :=
  match r with
  | .done => (0, p.put offs data)
  | .error err left => (err.val, p.spoil offs data.length left)

/-- `UBI_IO_BAD_HDR_EBADMSG`, `UBI_IO_BAD_HDR` or `UBI_IO_FF`. -/
def badHdr (err : Int) : Bool := err == ubiIoBadHdrEbadmsg || err == ubiIoBadHdr || err == ubiIoFf

/-- `nor_erase_prepare` -/
def norErasePrepare (g : Geometry) (env : Env) (p : Peb) : Int × Peb :=
  let data := List.replicate 4 0
  let garbage := if badHdr env.norReadVid && badHdr env.norReadEc then 0 else -eio
  match mtdWrite env.norWriteEc p 0 data with
  | (err, p) =>
    if err = 0 then
      match mtdWrite env.norWriteVid p g.vidHdrAloffset data with
      | (err, p) => if err = 0 then (0, p) else (garbage, p)
    else (garbage, p)

namespace EraseResult

/-- What an attempt to erase returns and leaves. -/
def outcome : EraseResult → Int × Peb
  | done => (0, .erased)
  | error err left => (err.val, left)
  | failed left => (-eio, left)
  | interrupted left => (-eintr, left)

/-- Another attempt is made. -/
def retried : EraseResult → Bool
  | error .. => true
  | failed _ => true
  | _ => false

end EraseResult

/-- The loop of `do_sync_erase`, with the number of retries that are left. -/
def eraseLoop (env : Env) : Nat → Nat → Int × Peb
  | 0, k => (env.erase k).outcome
  | n + 1, k =>
    if (env.erase k).retried then eraseLoop env n (k + 1) else (env.erase k).outcome

/-- `do_sync_erase` -/
def doSyncErase (env : Env) : Int × Peb := eraseLoop env ubiIoRetries 0

/-- `ubi_io_sync_erase`, for no torture. -/
def ubiIoSyncErase (g : Geometry) (env : Env) (roMode : Bool) (p : Peb) : Int × Peb :=
  if roMode then (-erofs, p)
  else
    let prepared := if g.norFlash then norErasePrepare g env p else (0, p)
    if prepared.1 ≠ 0 then prepared
    else
      match doSyncErase env with
      | (err, p) => if err ≠ 0 then (err, p) else (1, p)

/-- `ubi_io_write_ec_hdr` -/
def ubiIoWriteEcHdr (g : Geometry) (env : Env) (roMode : Bool) (p : Peb) (ec : Nat) : Int × Peb :=
  if roMode then (-erofs, p) else mtdWrite env.writeEcHdr p 0 (ecHdrBuf g ec)

namespace Info

/-- PEB `pnum` holds `p` from now on. -/
def setFlash (s : Info) (pnum : Nat) (p : Peb) : Info :=
  { s with flash := Function.update s.flash pnum p }

/-- `sync_erase` -/
def syncErase (g : Geometry) (env : Env) (s : Info) (e : Nat) : Int × Info :=
  if !env.alloc then (-enomem, s)
  else
    match ubiIoSyncErase g env s.roMode (s.flash e) with
    | (err, p) =>
      let s := s.setFlash e p
      if err < 0 then (err, s)
      else
        let ec := s.ec e + err.toNat
        if ec > ubiMaxErasecounter then (-einval, s)
        else
          match ubiIoWriteEcHdr g env s.roMode p ec with
          | (err, p) =>
            let s := s.setFlash e p
            if err ≠ 0 then (err, s)
            else (0, { s with ec := Function.update s.ec e ec, maxEc := max s.maxEc ec })

/-! ## Getting a PEB -/

/-- `produce_free_peb`; `doWork` is `do_work`. -/
def produceFreePeb (doWork : Info → Int × Info) : Nat → Info → Option (Int × Info)
  | 0, _ => none
  | fuel + 1, s =>
    if (inorder s.free).isEmpty then
      match doWork s with
      | (err, s) => if err ≠ 0 then some (err, s) else produceFreePeb doWork fuel s
    else some (0, s)

/-- `ubi_wl_get_peb` up to its `switch`. -/
def waitFree (doWork : Info → Int × Info) : Nat → Info → Option (Int × Info)
  | 0, _ => none
  | fuel + 1, s =>
    if (inorder s.free).isEmpty then
      if s.worksCount = 0 then some (-enospc, s)
      else
        match produceFreePeb doWork (fuel + 1) s with
        | none => none
        | some (err, s) => if err < 0 then some (err, s) else waitFree doWork fuel s
    else some (0, s)

/-- `ubi_wl_get_peb` -/
def getPeb (rb : RbErase) (g : Geometry) (doWork : Info → Int × Info) (fuel : Nat) (env : Env)
    (dtype : Dtype) (s : Info) : Option (Int × Info) :=
  match waitFree doWork fuel s with
  | none => none
  | some (err, s) =>
    if err < 0 then some (err, s)
    else
      match s.pick dtype with
      | none => none
      | some e =>
        let s := { s with free := rb.erase s.free e }.protQueueAdd e
        some (e, (syncErase g env s e).2)

end Info

end Ubi.Wl
