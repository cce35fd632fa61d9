/-
  The layout volume (`vtbl.c`): two LEBs, each with a copy of the volume table.

  A change of the table unmaps and writes one LEB after the other.  An unmapped PEB is erased some
  time later, by a worker; until then its copy is on flash.  Power may be cut anywhere, also while
  the pages of a copy are written, and while the table is recovered at the next attach.  `step` is
  what the code, its workers and the power do, as events; copies are those of `ubi_eba_write_leb` and
  `create_vtbl`, which are never marked as moved by wear-levelling.
-/
import FlashStack.Lib.Reach
import FlashStack.Ubi.Vtbl

namespace Ubi

/-! ## Calls -/

/-- `struct ubi_rename_entry`: a volume is removed or gets another name. -/
structure RenameEntry where
  volId : Nat
  remove : Bool
  newName : List UInt8

/-- `ubi_change_vtbl_record` and `ubi_vtbl_rename_volumes` -/
inductive VtblCall
  | change (idx : Nat) (rec : Option VtblFields)
  | rename (entries : List RenameEntry)

/-- A record with its CRC. -/
def UbiInfo.record (c : UbiInfo) (f : VtblFields) : VtblRecord := { f with crc := c.crc32 f }

/-- One entry of the list that `ubi_vtbl_rename_volumes` is given. -/
def renameRecord (c : UbiInfo) (vtbl : Vtbl) (re : RenameEntry) : Vtbl :=
  vtbl.modify re.volId fun r =>
    if re.remove then emptyVtblRecord
    else
      let padding := List.replicate (ubiVolNameMax + 1 - re.newName.length) 0
      c.record { r.toVtblFields with nameLen := re.newName.length, name := re.newName ++ padding }

/-- The table that a call writes. -/
def VtblCall.table (c : UbiInfo) (vtbl : Vtbl) : VtblCall → Vtbl
  | change idx rec => vtbl.set idx (rec.elim emptyVtblRecord c.record)
  | rename entries => entries.foldl (renameRecord c) vtbl

/-! ## Scanning -/

scoped instance neZero_ubiLayoutVolumeEbs : NeZero ubiLayoutVolumeEbs := ⟨by decide⟩

/-- A PEB with a copy of the table. -/
structure Copy where
  lnum : Fin ubiLayoutVolumeEbs
  sqnum : Nat
  data : Vtbl
deriving DecidableEq

/-- What scanning knows of the layout volume. -/
structure LebScan where
  leb : Fin ubiLayoutVolumeEbs → Option Copy
  erase : List Copy
  maxSqnum : Nat

/-- A LEB of which no copy was found. -/
def LebScan.empty : LebScan := ⟨fun _ => none, [], 0⟩

/-- `ubi_scan_add_used` keeps the newer copy.  Two copies with one sequence number are an error. -/
def ubiScanAddUsed (si : LebScan) (p : Copy) : Option LebScan :=
  let maxSqnum := max si.maxSqnum p.sqnum
  match si.leb p.lnum with
  | none => some ⟨Function.update si.leb p.lnum (some p), si.erase, maxSqnum⟩
  | some seb =>
    if seb.sqnum = p.sqnum then none
    else if p.sqnum > seb.sqnum then
      some ⟨Function.update si.leb p.lnum (some p), si.erase ++ [seb], maxSqnum⟩
    else some ⟨si.leb, si.erase ++ [p], maxSqnum⟩

/-- The PEBs are scanned in turn. -/
def scan (si : LebScan) : List Copy → Option LebScan
  | [] => some si
  | p :: ps =>
    match ubiScanAddUsed si p with
    | none => none
    | some si => scan si ps

/-- `process_lvol`: the table, and which LEB has to be created anew. -/
def processLvol (c : UbiInfo) (goodPebCount : Int) (leb : Fin ubiLayoutVolumeEbs → Option Vtbl) :
    Option (Vtbl × Option (Fin ubiLayoutVolumeEbs)) :=
  let check := fun i => (leb i).elim Check.badCrc (vtblCheck c goodPebCount)
  match check 0, leb 0 with
  | .inval, _ => none
  | .ok, some vtbl => if leb 1 = some vtbl then some (vtbl, none) else some (vtbl, some 1)
  | _, _ =>
    match check 1, leb 1 with
    | .ok, some vtbl => some (vtbl, some 0)
    | _, _ => none

/-! ## States -/

/-- Where a change of the table is: what it does next. -/
inductive Pc
  | idle
  | unmap (i : Fin ubiLayoutVolumeEbs)
  | vidHdr (i : Fin ubiLayoutVolumeEbs)
  | data (i : Fin ubiLayoutVolumeEbs)
deriving DecidableEq

/-- An attached device. -/
structure Live where
  /-- the table in memory -/
  vtbl : Vtbl
  /-- the table before the call that is under way -/
  old : Vtbl
  pc : Pc
  /-- `eba_tbl` -/
  mapped : Fin ubiLayoutVolumeEbs → Option Copy
  /-- the copy that is being written -/
  writing : Option Copy
  /-- `ubi->works`, in order -/
  works : List Copy
  /-- erase works that workers have taken, in the order in which they took them -/
  busy : List Copy
  sqnum : Nat

/-- A device without power. -/
structure Off where
  copies : List Copy
  old : Vtbl
  vtbl : Vtbl

/-- A device that is being attached, after `process_lvol` has decided. -/
structure Attaching where
  /-- what it returns -/
  result : Vtbl
  restore : Option (Fin ubiLayoutVolumeEbs)
  writing : Option Copy
  si : LebScan
  /-- the tables before and after the call that was interrupted -/
  old : Vtbl
  vtbl : Vtbl

/-- The device is attached, without power, or being attached. -/
inductive State
  | live (l : Live)
  | off (o : Off)
  | attaching (a : Attaching)
  | failed

/-- What a cut leaves of a table: the first records, one that is not complete, and the rest. -/
structure Junk where
  n : Nat
  record : VtblRecord
  rest : Vtbl

/-- A page that was being written: some records are new, one is half written, the others are old. -/
def Junk.data (j : Junk) (vtbl : Vtbl) : Vtbl := vtbl.take j.n ++ j.record :: j.rest

/-- A record that is not complete fails its CRC. -/
def Junk.fails (c : UbiInfo) (j : Junk) : Bool := j.record.crc ≠ c.crc32 j.record.toVtblFields

/-- What may happen next: power may be cut at any time. -/
inductive Event
  | call (x : VtblCall)
  /-- the running call takes its next step; while a copy is written, its pages are as in `j` -/
  | next (j : Junk)
  /-- the last page of a copy is written -/
  | written
  /-- a worker takes the next erase work -/
  | take
  /-- the `n`-th of the works that were taken is done -/
  | erased (n : Nat)
  | cut
  /-- the PEBs are scanned in this order -/
  | boot (order : List Copy)
  /-- `ubi_scan_get_free_peb` erases an old PEB -/
  | reuse (n : Nat)
  | attached

namespace Live

/-- All copies on flash. -/
def copies (l : Live) : List Copy :=
  (l.mapped 0).toList ++ (l.mapped 1).toList ++ l.writing.toList ++ l.busy ++ l.works

/-- The next step of a device that is attached, if it is one that can happen. -/
def step (c : UbiInfo) (l : Live) : Event → Option Live
  | .call x =>
    if l.pc = .idle then some { l with vtbl := x.table c l.vtbl, pc := .unmap 0 } else none
  | .next j =>
    match l.pc with
    | .idle => none
    | .unmap i =>
      -- `ubi_eba_unmap_leb`
      some { l with
        pc := .vidHdr i
        mapped := Function.update l.mapped i none
        works := l.works ++ (l.mapped i).toList }
    | .vidHdr i =>
      if j.fails c then
        some { l with
          pc := .data i
          writing := some ⟨i, l.sqnum, j.data l.vtbl⟩
          sqnum := l.sqnum + 1 }
      else none
    | .data _ =>
      if j.fails c then
        some { l with writing := l.writing.map fun p => { p with data := j.data l.vtbl } }
      else none
  | .written =>
    match l.pc, l.writing with
    | .data i, some p =>
      some { l with
        pc := if i = 0 then .unmap 1 else .idle
        old := if i = 0 then l.old else l.vtbl
        mapped := Function.update l.mapped i (some { p with data := l.vtbl })
        writing := none }
    | _, _ => none
  | .take =>
    match l.works with
    | [] => none
    | p :: works => some { l with works := works, busy := l.busy ++ [p] }
  | .erased n => if n < l.busy.length then some { l with busy := l.busy.eraseIdx n } else none
  | _ => none

end Live

namespace Attaching

/-- All copies of layout LEBs that are on flash. -/
def copies (a : Attaching) : List Copy :=
  (a.si.leb 0).toList ++ (a.si.leb 1).toList ++ a.writing.toList ++ a.si.erase

/-- `create_vtbl` writes the copy that has to be created anew. -/
def step (c : UbiInfo) (a : Attaching) : Event → Option Attaching
  | .next j =>
    match a.restore with
    | none => none
    | some i =>
      if j.fails c then
        match a.writing with
        | none =>
          some { a with
            writing := some ⟨i, a.si.maxSqnum + 1, j.data a.result⟩
            si := { a.si with maxSqnum := a.si.maxSqnum + 1 } }
        | some p => some { a with writing := some { p with data := j.data a.result } }
      else none
  | .written =>
    match a.writing with
    | none => none
    | some p =>
      match ubiScanAddUsed a.si { p with data := a.result } with
      | none => none
      | some si => some { a with si := si, restore := none, writing := none }
  | .reuse n =>
    if n < a.si.erase.length then some { a with si := { a.si with erase := a.si.erase.eraseIdx n } }
    else none
  | _ => none

/-- The device is attached once there is nothing to create; the old PEBs are to be erased. -/
def live (a : Attaching) : Live where
  vtbl := a.result
  old := a.result
  pc := .idle
  mapped := a.si.leb
  writing := none
  works := a.si.erase
  busy := []
  sqnum := a.si.maxSqnum + 1

end Attaching

/-- Scanning, and what `process_lvol` makes of it. -/
def Off.boot (c : UbiInfo) (goodPebCount : Int) (o : Off) (order : List Copy) : State :=
  match scan .empty order with
  | none => .failed
  | some si =>
    match processLvol c goodPebCount fun i => (si.leb i).map Copy.data with
    | none => .failed
    | some (result, restore) => .attaching ⟨result, restore, none, si, o.old, o.vtbl⟩

/-- A step of the device, with the order in which a boot scans its PEBs. -/
def State.step (c : UbiInfo) (goodPebCount : Int) : State → Event → Option State
  | .live l, .cut => some (.off ⟨l.copies, l.old, l.vtbl⟩)
  | .live l, e => (l.step c e).map .live
  | .off o, .boot order =>
    if order.isPerm o.copies then some (o.boot c goodPebCount order) else none
  | .off _, _ => none
  | .attaching a, .cut => some (.off ⟨a.copies, a.old, a.vtbl⟩)
  | .attaching a, .attached => if a.restore = none then some (.live a.live) else none
  | .attaching a, e => (a.step c e).map .attaching
  | .failed, _ => none

/-- Both LEBs hold the table, and there is nothing else. -/
def State.initial (vtbl : Vtbl) : State :=
  .live ⟨vtbl, vtbl, .idle, fun i => some ⟨i, i, vtbl⟩, none, [], [], 2⟩

/-- The result is the table before or the table after the call that was interrupted; a device that is
    attached has it in both LEBs. -/
def State.Safe : State → Prop
  | .live l => l.pc = .idle → ∀ i, (l.mapped i).map Copy.data = some l.vtbl
  | .off _ => True
  | .attaching a => a.result = a.old ∨ a.result = a.vtbl
  | .failed => False

end Ubi
