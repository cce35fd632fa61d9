/-
  The wear-leveling sub-system at work (`wl.c`).

  PEBs are handed out, put back, erased and moved; nothing runs in between, so `move_from` and `move_to`
  are not set when a function starts.  An entry that `erase_worker` frees and then schedules again is
  the entry of its PEB all the same, since nothing else is allocated where it was.

  A function may have no result: because it is still running, or because an `int` overflowed.  What
  can fail in one work is in `WorkEnv`.  `Dev.served` is not in the source.

  `Info` of `WearLevel` is the part of the device that handing out one PEB looks at, with the bytes
  on the flash; here the flash is left out, and erasing succeeds or fails as `SyncEnv` says.
  `SyncEnv.of`, `Dev.syncErase_of` and `ubiWlGetPeb_getPeb` lead from the one to the other.
-/
import FlashStack.Ubi.WearLevel

open Lib
open Lib.SearchTree (inorder)

namespace Ubi.Wl

/-- Two more codes of `errno.h`. -/
def eagain : Int := 11
def ebusy : Int := 16

/-- `struct ubi_work`: the erasure of a PEB, or a move for wear-leveling. -/
inductive Work
  | erase (e : Nat) (torture : Bool)
  | wearLeveling

/-- All of the WL sub-system. -/
structure Dev extends Info where
  used : BinaryTree Nat
  scrub : BinaryTree Nat
  erroneous : BinaryTree Nat
  erroneousPebCount : Nat
  maxErroneous : Nat
  works : List Work
  wlScheduled : Bool
  /-- What each call of `serve_prot_queue` has moved to the used tree. -/
  served : List (List Nat)

/-- `rb_insert_color` may balance a tree anew, too. -/
structure Rb extends RbErase where
  insertColor : BinaryTree Nat → BinaryTree Nat
  inorder_insertColor {t : BinaryTree Nat} : inorder (insertColor t) = inorder t

/-! ## Trees -/

/-- Where `wl_tree_add` links a new entry. -/
def wlLink (ec : Nat → Nat) (e : Nat) : BinaryTree Nat → BinaryTree Nat
  | .nil => .node e .nil .nil
  | .node e1 l r =>
    if ec e < ec e1 then .node e1 (wlLink ec e l) r
    else if ec e > ec e1 then .node e1 l (wlLink ec e r)
    else if e < e1 then .node e1 (wlLink ec e l) r
    else .node e1 l (wlLink ec e r)

/-- `wl_tree_add` -/
def wlTreeAdd (rb : Rb) (ec : Nat → Nat) (root : BinaryTree Nat) (e : Nat) : BinaryTree Nat :=
  rb.insertColor (wlLink ec e root)

/-- `in_wl_tree` -/
def inWlTree (ec : Nat → Nat) (e : Nat) : BinaryTree Nat → Bool
  | .nil => false
  | .node e1 l r =>
    if e = e1 then true
    else if ec e < ec e1 then inWlTree ec e l
    else if ec e > ec e1 then inWlTree ec e r
    else if e < e1 then inWlTree ec e l
    else inWlTree ec e r

/-! ## The protection queue -/

/-- The loop of `serve_prot_queue`, over what is left in the slot; `true` is `goto repeat`. -/
def servePass (rb : Rb) (ec : Nat → Nat) :
    Nat → List Nat → BinaryTree Nat → Bool × List Nat × BinaryTree Nat
  | _, [], used => (false, [], used)
  | count, e :: l, used =>
    let used := wlTreeAdd rb ec used e
    if count > 32 then (true, l, used) else servePass rb ec (count + 1) l used

/-- A pass that stops early has taken something off the list. -/
theorem servePass_length (rb : Rb) (ec : Nat → Nat) (count : Nat) (l : List Nat)
    (used : BinaryTree Nat) (h : (servePass rb ec count l used).1 = true) :
    (servePass rb ec count l used).2.1.length < l.length := by
  induction l generalizing count used with
  | nil => cases h
  | cons e l ih =>
    simp only [servePass] at h ⊢
    split at h
    · rename_i hcount
      rw [if_pos hcount]
      exact Nat.lt_succ_self _
    · rename_i hcount
      rw [if_neg hcount]
      exact Nat.lt_succ_of_lt (ih _ _ h)

/-- From the label `repeat` on.  A pass that breaks off has made the slot shorter. -/
def serveSlot (rb : Rb) (ec : Nat → Nat) (l : List Nat) (used : BinaryTree Nat) :
    List Nat × BinaryTree Nat :=
  if (servePass rb ec 0 l used).1 = true then
    serveSlot rb ec (servePass rb ec 0 l used).2.1 (servePass rb ec 0 l used).2.2
  else (servePass rb ec 0 l used).2
termination_by l.length
decreasing_by exact servePass_length rb ec 0 l used ‹_›

namespace Dev

variable (rb : Rb) (s : Dev)

/-- `prot_queue_add` -/
def protQueueAdd (e : Nat) : Dev := { s with toInfo := s.toInfo.protQueueAdd e }

/-- `serve_prot_queue`: all entries of the slot go to the used tree, and the head moves on. -/
def serveProtQueue : Dev :=
  let r := serveSlot rb s.ec (s.pq s.pqHead) s.used
  let pqHead := s.pqHead + 1
  { s with
    pq := Function.update s.pq s.pqHead r.1
    used := r.2
    pqHead := if pqHead = ubiProtQueueLen then 0 else pqHead
    served := s.served ++ [s.pq s.pqHead] }

/-- `list_del` takes an entry out of the slot that it is in. -/
def protQueueDel (e : Nat) : Dev := { s with pq := fun i => (s.pq i).erase e }

/-! ## Works -/

/-- `ubi_ro_mode` -/
def ubiRoMode : Dev := { s with roMode := true }

/-- `schedule_ubi_work` -/
def scheduleUbiWork (wrk : Work) : Dev :=
  { s with works := s.works ++ [wrk], worksCount := s.worksCount + 1 }

/-- `alloc` is whether there is memory for the work. -/
def scheduleErase (alloc : Bool) (e : Nat) (torture : Bool) : Int × Dev :=
  if alloc then (0, s.scheduleUbiWork (.erase e torture)) else (-enomem, s)

end Dev

/-- `ubi_io_sync_erase` and `ubi_io_write_ec_hdr`: what they return, and what the PEB holds then. -/
structure SyncEnv where
  alloc : Bool
  erased : Int × Peb
  written : Int × Peb

/-- How it goes with moving a PEB: the outcomes of reading the VID header and of `ubi_eba_copy_leb`. -/
inductive Copy
  | moved
  /-- `UBI_IO_FF` or `MOVE_CANCEL_RACE` -/
  | protect
  /-- `UBI_IO_FF_BITFLIPS` -/
  | scrub
  /-- `MOVE_CANCEL_BITFLIPS`, `MOVE_TARGET_WR_ERR` or `MOVE_TARGET_RD_ERR` -/
  | torture
  /-- `MOVE_SOURCE_RD_ERR` -/
  | sourceRdErr
  | error (err : Int)

/-- What can go wrong in one work. -/
structure WorkEnv where
  sync : SyncEnv
  /-- What is left of `erase_worker` for a PEB that went bad: an error is followed by read-only mode. -/
  markBad : Except Int Unit
  allocErase : Bool
  allocWl : Bool
  allocVidHdr : Bool
  copy : Copy

namespace Dev

variable (rb : Rb) (s : Dev)

/-- `sync_erase` -/
def syncErase (env : SyncEnv) (e : Nat) : Int × Dev :=
  if !env.alloc then (-enomem, s)
  else
    let erased := if s.roMode then (-erofs, s.flash e) else env.erased
    let s := { s with flash := Function.update s.flash e erased.2 }
    if erased.1 < 0 then (erased.1, s)
    else
      let ec := s.ec e + erased.1.toNat
      if ec > ubiMaxErasecounter then (-einval, s)
      else
        let written := if s.roMode then (-erofs, s.flash e) else env.written
        let s := { s with flash := Function.update s.flash e written.2 }
        if written.1 ≠ 0 then (written.1, s)
        else (0, { s with ec := Function.update s.ec e ec, maxEc := max s.maxEc ec })

/-- Have the erase counters come too far apart? -/
def farApart (e1 e2 : Nat) : Bool := decide ((s.ec e2 : Int) - s.ec e1 ≥ ubiWlThreshold)

/-- A move for wear-leveling is scheduled, if there is memory for the work. -/
def scheduleWl (alloc : Bool) : Option Int × Dev :=
  if alloc then (some 0, { s.scheduleUbiWork .wearLeveling with wlScheduled := true })
  else (some (-enomem), s)

/-- `ensure_wear_leveling`; there is no result if an `int` overflows. -/
def ensureWearLeveling (alloc : Bool) : Option Int × Dev :=
  if s.wlScheduled then (some 0, s)
  else if s.scrub = .nil then
    match SearchTree.first s.used with
    | none => (some 0, s)
    | some e1 =>
      if s.free = .nil then (some 0, s)
      else
        match s.findWlEntry s.free wlFreeMaxDiff with
        | none => (none, s)
        | some e2 => if s.farApart e1 e2 then s.scheduleWl alloc else (some 0, s)
  else s.scheduleWl alloc

/-- `erase_worker` -/
def eraseWorker (env : WorkEnv) (e : Nat) : Option Int × Dev :=
  let r := s.syncErase env.sync e
  let err := r.1
  let s := r.2
  if err = 0 then
    let s := { s with free := wlTreeAdd rb s.ec s.free e }
    (s.serveProtQueue rb).ensureWearLeveling env.allocWl
  else if err = -eintr ∨ err = -enomem ∨ err = -eagain ∨ err = -ebusy then
    let r := s.scheduleErase env.allocErase e false
    if r.1 ≠ 0 then (some r.1, r.2.ubiRoMode) else (some err, r.2)
  else if err ≠ -eio then (some err, s.ubiRoMode)
  else
    match env.markBad with
    | .error err => (some err, s.ubiRoMode)
    | .ok () => (some 0, s)

/-- `out_not_moved`: where the PEB goes back to, if anywhere, and whether the target is tortured. -/
def notMoved (scrubbing : Bool) (e1 : Nat) : Copy → Option (Dev × Bool)
  | .protect => some (s.protQueueAdd e1, false)
  | .scrub => some ({ s with scrub := wlTreeAdd rb s.ec s.scrub e1 }, false)
  | .torture =>
    if scrubbing then some ({ s with scrub := wlTreeAdd rb s.ec s.scrub e1 }, true)
    else some ({ s with used := wlTreeAdd rb s.ec s.used e1 }, true)
  | .sourceRdErr =>
    if s.erroneousPebCount > s.maxErroneous then none
    else some ({ s with
      erroneous := wlTreeAdd rb s.ec s.erroneous e1
      erroneousPebCount := s.erroneousPebCount + 1 }, false)
  | _ => none

/-- The erasure that ends the work, or read-only mode. -/
def scheduleLast (alloc : Bool) (e : Nat) (torture : Bool) : Option Int × Dev :=
  let r := s.scheduleErase alloc e torture
  if r.1 = 0 then (some 0, r.2) else (some r.1, r.2.ubiRoMode)

/-- `wear_leveling_worker`, once it has both PEBs. -/
def movePeb (env : WorkEnv) (scrubbing : Bool) (e1 e2 : Nat) : Option Int × Dev :=
  match env.copy with
  | .moved =>
    let s := { s with used := wlTreeAdd rb s.ec s.used e2, wlScheduled := false }
    s.scheduleLast env.allocErase e1 false
  | copy =>
    match s.notMoved rb scrubbing e1 copy with
    | some (s, torture) =>
      let s := { s with wlScheduled := false }
      s.scheduleLast env.allocErase e2 torture
    | none =>
      let s := { s with wlScheduled := false }
      match copy with
      | .error err => (some (if err < 0 then err else -eio), s.ubiRoMode)
      | _ => (some (-eio), s.ubiRoMode)

/-- `wear_leveling_worker` -/
def wearLevelingWorker (env : WorkEnv) : Option Int × Dev :=
  if !env.allocVidHdr then (some (-enomem), s)
  else if s.free = .nil ∨ s.used = .nil ∧ s.scrub = .nil then
    (some 0, { s with wlScheduled := false })
  else
    match s.findWlEntry s.free wlFreeMaxDiff with
    | none => (none, s)
    | some e2 =>
      if s.scrub = .nil then
        match SearchTree.first s.used with
        | none => (none, s)
        | some e1 =>
          if !s.farApart e1 e2 then (some 0, { s with wlScheduled := false })
          else
            let s := { s with used := rb.erase s.used e1, free := rb.erase s.free e2 }
            s.movePeb rb env false e1 e2
      else
        match SearchTree.first s.scrub with
        | none => (none, s)
        | some e1 =>
          let s := { s with scrub := rb.erase s.scrub e1, free := rb.erase s.free e2 }
          s.movePeb rb env true e1 e2

/-- `do_work` -/
def doWork (env : WorkEnv) : Option Int × Dev :=
  match s.works with
  | [] => (some 0, s)
  | wrk :: works =>
    let s := { s with works := works, worksCount := s.worksCount - 1 }
    match wrk with
    | .erase e _ => s.eraseWorker rb env e
    | .wearLeveling => s.wearLevelingWorker rb env

/-! ## Getting and putting PEBs -/

/-- `produce_free_peb`, for as many works as there is fuel. -/
def produceFreePeb (env : Nat → WorkEnv) : Nat → Dev → Option Int × Dev
  | 0, s => (none, s)
  | fuel + 1, s =>
    if s.free = .nil then
      let r := s.doWork rb (env fuel)
      if r.1 = some 0 then produceFreePeb env fuel r.2 else r
    else (some 0, s)

/-- `ubi_wl_get_peb` up to its `switch`. -/
def waitFree (env : Nat → Nat → WorkEnv) : Nat → Dev → Option Int × Dev
  | 0, s => (none, s)
  | fuel + 1, s =>
    if s.free = .nil then
      if s.worksCount = 0 then (some (-enospc), s)
      else
        let r := s.produceFreePeb rb (env fuel) (fuel + 1)
        match r.1 with
        | none => r
        | some err => if err < 0 then r else waitFree env fuel r.2
    else (some 0, s)

/-- `ubi_wl_get_peb`, which keeps going as long as there is fuel. -/
def ubiWlGetPeb (env : Nat → Nat → WorkEnv) (sync : SyncEnv) (dtype : Dtype) (fuel : Nat) :
    Option Int × Dev :=
  let r := s.waitFree rb env fuel
  match r.1 with
  | none => r
  | some err =>
    if err < 0 then r
    else
      let s := r.2
      match s.pick dtype with
      | none => (none, s)
      | some e =>
        let s := { s with free := rb.erase s.free e }.protQueueAdd e
        (some e, (s.syncErase sync e).2)

/-- The first half of `ubi_wl_put_peb`: the entry is taken out of where it is.  An erroneous PEB is
tortured. -/
def takeOut (pnum : Nat) (torture : Bool) : Dev × Bool :=
  if inWlTree s.ec pnum s.used then ({ s with used := rb.erase s.used pnum }, torture)
  else if inWlTree s.ec pnum s.scrub then ({ s with scrub := rb.erase s.scrub pnum }, torture)
  else if inWlTree s.ec pnum s.erroneous then
    ({ s with
      erroneous := rb.erase s.erroneous pnum
      erroneousPebCount := s.erroneousPebCount - 1 }, true)
  else (s.protQueueDel pnum, torture)

/-- `ubi_wl_put_peb` -/
def ubiWlPutPeb (alloc : Bool) (pnum : Nat) (torture : Bool) : Int × Dev :=
  let r := s.takeOut rb pnum torture
  let r := r.1.scheduleErase alloc pnum r.2
  if r.1 ≠ 0 then (r.1, { r.2 with used := wlTreeAdd rb r.2.ec r.2.used pnum }) else r

/-- `ubi_wl_scrub_peb` -/
def ubiWlScrubPeb (alloc : Bool) (pnum : Nat) : Option Int × Dev :=
  if inWlTree s.ec pnum s.scrub || inWlTree s.ec pnum s.erroneous then (some 0, s)
  else
    let s := if inWlTree s.ec pnum s.used then { s with used := rb.erase s.used pnum }
      else s.protQueueDel pnum
    let s := { s with scrub := wlTreeAdd rb s.ec s.scrub pnum }
    s.ensureWearLeveling alloc

end Dev

/-! ## What a PEB is handed out with -/

/-- What the flash makes of one call of `sync_erase`: the PEB held `p`, and had the counter `ec`. -/
def SyncEnv.of (g : Geometry) (env : Env) (p : Peb) (ec : Nat) : SyncEnv where
  alloc := env.alloc
  erased := ubiIoSyncErase g env false p
  written :=
    let r := ubiIoSyncErase g env false p
    ubiIoWriteEcHdr g env false r.2 (ec + r.1.toNat)

namespace Dev

variable {rb : Rb} {s s' : Dev}

/-- Erasing is what it is without the rest of the sub-system. -/
theorem syncErase_of (g : Geometry) (env : Env) (s : Dev) (e : Nat) :
    s.syncErase (.of g env (s.flash e) (s.ec e)) e =
      ((s.toInfo.syncErase g env e).1, { s with toInfo := (s.toInfo.syncErase g env e).2 }) := by
  obtain ⟨⟨ec, free, pq, pqHead, worksCount, maxEc, roMode, flash⟩, used, scrub, erroneous, errCount,
    maxErr, works, wlScheduled, served⟩ := s
  unfold syncErase Info.syncErase SyncEnv.of Info.setFlash
  cases env.alloc with
  | false => rfl
  | true =>
    cases roMode with
    | true => rfl
    | false =>
      dsimp only
      generalize ubiIoSyncErase g env false (flash e) = r
      rw [if_neg Bool.false_ne_true, if_neg Bool.false_ne_true]
      by_cases herr : r.1 < 0
      · rw [if_pos herr, if_pos herr]
        rfl
      rw [if_neg herr, if_neg herr]
      by_cases hec : ec e + r.1.toNat > ubiMaxErasecounter
      · rw [if_pos hec, if_pos hec]
        rfl
      rw [if_neg hec, if_neg hec]
      generalize ubiIoWriteEcHdr g env false r.2 (ec e + r.1.toNat) = w
      by_cases hw : w.1 ≠ 0
      · rw [if_pos hw, if_pos hw]
        rfl
      rw [if_neg hw, if_neg hw]
      rfl

/-- If waiting ends well, there is a free PEB. -/
theorem waitFree_free {works : Nat → Nat → WorkEnv} {fuel : Nat}
    (h : s.waitFree rb works fuel = (some 0, s')) : s'.free ≠ .nil := by
  induction fuel generalizing s with
  | zero => cases h
  | succ fuel ih =>
    rw [waitFree] at h
    split at h
    · split at h
      · cases h
      · dsimp only at h
        split at h
        · rename_i hnone
          rw [h] at hnone
          cases hnone
        · rename_i err herr
          split at h
          · rename_i hneg
            rw [h] at herr
            cases herr
            exact absurd hneg (Int.lt_irrefl 0)
          · exact ih h
    · rename_i hfree
      cases h
      exact hfree

/-- A PEB that is handed out is the one that `ubi_wl_get_peb` hands out when nothing has to be waited
    for, and with all that `GetPeb` proves of it. -/
theorem ubiWlGetPeb_getPeb {works : Nat → Nat → WorkEnv} {dtype : Dtype} {fuel e : Nat}
    (hwait : s.waitFree rb works fuel = (some 0, s')) (hpick : s'.pick dtype = some e)
    (g : Geometry) (env : Env) (doWork : Info → Int × Info) (n : Nat) :
    let r := s.ubiWlGetPeb rb works (.of g env (s'.flash e) (s'.ec e)) dtype fuel
    s'.toInfo.getPeb rb.toRbErase g doWork (n + 1) env dtype = some ((e : Int), r.2.toInfo) ∧
      r.1 = some (e : Int) := by
  have hfree : (inorder s'.free).isEmpty = false := by
    cases hs : s'.free with
    | nil => exact absurd hs (waitFree_free hwait)
    | node a l r => simp [inorder]
  have hsync : ({ s' with free := rb.erase s'.free e }.protQueueAdd e).syncErase
      (.of g env (s'.flash e) (s'.ec e)) e = _ :=
    syncErase_of g env ({ s' with free := rb.erase s'.free e }.protQueueAdd e) e
  unfold ubiWlGetPeb Info.getPeb Info.waitFree
  rw [hwait, hfree]
  dsimp only
  rw [hpick, if_neg (Int.lt_irrefl 0), if_neg Bool.false_ne_true]
  dsimp only
  rw [hsync, if_neg (Int.lt_irrefl 0), hpick]
  exact ⟨rfl, rfl⟩

end Dev

/-! ## Runs -/

/-- What the WL sub-system is asked for, and what its thread does. -/
inductive Op
  | getPeb (env : Nat → Nat → WorkEnv) (sync : SyncEnv) (dtype : Dtype) (fuel : Nat)
  | putPeb (alloc : Bool) (pnum : Nat) (torture : Bool)
  | scrubPeb (alloc : Bool) (pnum : Nat)
  /-- by the background thread, or for `ubi_wl_flush` -/
  | doWork (env : WorkEnv)

/-- What an operation leaves. -/
def Op.run (rb : Rb) (s : Dev) : Op → Dev
  | getPeb env sync dtype fuel => (s.ubiWlGetPeb rb env sync dtype fuel).2
  | putPeb alloc pnum torture => (s.ubiWlPutPeb rb alloc pnum torture).2
  | scrubPeb alloc pnum => (s.ubiWlScrubPeb rb alloc pnum).2
  | doWork env => (s.doWork rb env).2

end Ubi.Wl
