/-
  The master node (`master.c`, `recovery.c`).

  It is written to two LEBs in turn, each of which is filled with one master node after the other.
  An LEB has slots of `mstNodeAlsz` bytes; what follows its last slot is never written.  Power may be
  cut while the pages of a node are written: then its slot is torn, which CRCs find out.  An LEB that
  was unmapped may read back as before after a cut.

  `M` are the fields of a master node but its flags; `accept` is what `ubifs_read_master` checks of
  them and of the sequence number.
-/
import FlashStack.Lib.Reach
import FlashStack.Ubifs.Media
import Mathlib

open Lib

namespace Ubifs

/-- The size of a master node, and the smallest LEB (`ubifs-media.h`). -/
def ubifsMstNodeSz : Nat := 512
def ubifsMinLebSz : Nat := 15 * 1024

/-- What the mount code knows of the device. -/
structure Geometry where
  lebSize : Nat
  minIoSize : Nat

namespace Geometry

/-- A master node takes whole write units. -/
def mstNodeAlsz (g : Geometry) : Nat := align ubifsMstNodeSz g.minIoSize

/-- `init_constants_early` accepts it, and UBI makes LEBs of whole pages. -/
structure Accepted (g : Geometry) : Prop where
  minLebSz : ubifsMinLebSz ≤ g.lebSize
  minIoSize : ∃ k, g.minIoSize = 2 ^ k ∧ 3 ≤ k
  pages : g.minIoSize ∣ g.lebSize

end Geometry

/-- Whether a node is a master node. -/
inductive NodeType
  | mst
  | other
deriving DecidableEq

/-- `struct ubifs_mst_node`; `data` is all that recovery does not look at. -/
structure MstNode (M : Type) where
  sqnum : UInt64
  nodeType : NodeType
  /-- `UBIFS_MST_RCVRY` -/
  rcvry : Bool
  data : M
deriving DecidableEq

/-- A part of an LEB as large as an aligned master node.  One that is torn may have the magic
    number. -/
inductive Slot (M : Type)
  | erased
  | node (m : MstNode M)
  | torn (magic : Bool)
deriving DecidableEq

variable {M : Type} [DecidableEq M]

/-- Nothing has been written to the slot. -/
def Slot.isErased : Slot M → Bool
  | erased => true
  | _ => false

/-- `ubifs_scan_a_node` -/
def Slot.scanANode : Slot M → Option (MstNode M)
  | node m => some m
  | _ => none

/-- The slot starts with the magic number of a node. -/
def Slot.magic : Slot M → Bool
  | erased => false
  | node _ => true
  | torn magic => magic

/-- The slots of an LEB; there are no more than these in it that are not erased. -/
abbrev Buf (M : Type) := List (Slot M)

/-! ## Reading -/

/-- `ubifs_scan`: the nodes and their offsets, or `-EUCLEAN`. -/
def ubifsScan (g : Geometry) : Nat → Buf M → Option (List (Nat × MstNode M))
  | _, [] => some []
  | offs, .node m :: buf => (ubifsScan g (offs + g.mstNodeAlsz) buf).map ((offs, m) :: ·)
  | _, .erased :: buf => if buf.all Slot.isErased then some [] else none
  | _, .torn _ :: _ => none

/-- `memcmp` of all that follows the common header. -/
def MstNode.same (m m' : MstNode M) : Bool := m.rcvry = m'.rcvry ∧ m.data = m'.data

/-- What `scan_for_master` returns: a node and its offset, or an error. -/
inductive Scanned (M : Type)
  | found (offs : Nat) (m : MstNode M)
  | euclean
  | einval

/-- `scan_for_master`: the last nodes of the two LEBs have to agree. -/
def scanForMaster (g : Geometry) (buf₁ buf₂ : Buf M) : Scanned M :=
  match ubifsScan g 0 buf₁ with
  | none => .euclean
  | some nodes₁ =>
    if nodes₁.getLast?.any fun p => p.2.nodeType ≠ .mst then .einval
    else
      match ubifsScan g 0 buf₂ with
      | none => .euclean
      | some nodes₂ =>
        if nodes₂.length ≠ nodes₁.length then .euclean
        else
          match nodes₁.getLast?, nodes₂.getLast? with
          | some (offs, m), some (offs', m') =>
            if m'.nodeType ≠ .mst then .einval
            else if offs' ≠ offs then .euclean
            else if m.same m' then .found offs m
            else .euclean
          | _, _ => .euclean

/-- What `get_master_node` returns: the last valid node and its offset, and whether there is
    corruption. -/
structure Got (M : Type) where
  mst : Option (Nat × MstNode M)
  cor : Bool

/-- The first position that is definitely not a node. -/
def noNode (g : Geometry) : Nat → Buf M → Nat
  | offs, [] => offs
  | offs, s :: buf =>
    if offs + ubifsMstNodeSz ≤ g.lebSize ∧ s.magic then noNode g (offs + g.mstNodeAlsz) buf else offs

/-- The slot at an offset. -/
def slotAt (g : Geometry) (buf : Buf M) (offs : Nat) : Slot M :=
  buf.getD (offs / g.mstNodeAlsz) .erased

/-- The valid master node before the position, and where it ends.  One place may be corrupt. -/
def validNode (g : Geometry) (buf : Buf M) (offs : Nat) : Option (Option (Nat × MstNode M) × Nat) :=
  if offs = 0 then some (none, 0)
  else
    let offs := offs - g.mstNodeAlsz
    match (slotAt g buf offs).scanANode with
    | some m => if m.nodeType = .mst then some (some (offs, m), offs + g.mstNodeAlsz) else none
    | none =>
      if offs = 0 then some (none, 0)
      else
        let offs := offs - g.mstNodeAlsz
        match (slotAt g buf offs).scanANode with
        | some m => if m.nodeType = .mst then some (some (offs, m), offs + g.mstNodeAlsz) else none
        | none => none

/-- `get_master_node`; an error is `-EINVAL`. -/
def getMasterNode (g : Geometry) (buf : Buf M) : Option (Got M) :=
  match validNode g buf (noNode g 0 buf) with
  | none => none
  | some (mst, offs) =>
    let cor := offs < g.lebSize && !(slotAt g buf offs).isErased
    let offs := if offs < g.lebSize then offs + g.mstNodeAlsz else offs
    if offs < g.lebSize ∧ ¬(buf.drop (offs / g.mstNodeAlsz)).all Slot.isErased then none
    else some ⟨mst, cor⟩

/-- `ubifs_recover_master_node`, up to where it writes. -/
def recoverMasterNode (g : Geometry) (buf₁ buf₂ : Buf M) : Option (MstNode M) :=
  match getMasterNode g buf₁, getMasterNode g buf₂ with
  | some ⟨some (offs₁, m₁), cor₁⟩, some ⟨mst₂, _⟩ =>
    if m₁.rcvry ∧ offs₁ = 0 ∧ ¬cor₁ then some m₁
    else
      match mst₂ with
      | some (offs₂, m₂) =>
        if offs₁ = offs₂ then
          if m₁.same m₂ then some m₁ else none
        else if offs₂ + g.mstNodeAlsz = offs₁ then
          -- 1st LEB was written, 2nd was not
          if cor₁ then none else some m₁
        else if offs₁ = 0 ∧ offs₂ + g.mstNodeAlsz ≥ g.lebSize then
          -- 1st LEB was unmapped and written, 2nd not
          if cor₁ then none else some m₁
        else none
      | none => if offs₁ ≠ 0 ∨ cor₁ then none else some m₁
  | some ⟨none, _⟩, some ⟨some (offs₂, m₂), _⟩ =>
    if offs₂ + g.mstNodeAlsz + g.mstNodeAlsz ≤ g.lebSize then none else some m₂
  | _, _ => none

/-! ## States -/

/-- There are two master LEBs. -/
scoped instance neZero_mstLebs : NeZero 2 := ⟨by decide⟩

/-- A LEB of the master area. -/
inductive Leb (M : Type)
  | mapped (buf : Buf M)
  /-- unmapped, and what it may read back as after a cut -/
  | unmapped (before : Buf M)

namespace Leb

/-- What is read from the LEB. -/
def read : Leb M → Buf M
  | mapped buf => buf
  | unmapped _ => []

/-- After a cut. -/
def back : Bool → Leb M → Leb M
  | _, mapped buf => mapped buf
  | true, unmapped before => mapped before
  | false, unmapped _ => unmapped []

/-- The LEB is unmapped; after a cut its contents may be back. -/
def unmap (leb : Leb M) : Leb M := unmapped leb.read

/-- The slot at `offs` is written. -/
def put (g : Geometry) (leb : Leb M) (offs : Nat) (s : Slot M) : Leb M :=
  let i := offs / g.mstNodeAlsz
  mapped (leb.read.take i ++ s :: leb.read.drop (i + 1))

end Leb

/-- What `ubifs_write_master` does next. -/
inductive Pc
  | idle
  | unmap (i : Fin 2)
  | write (i : Fin 2)
  | pages (i : Fin 2)
deriving DecidableEq

/-- A file system that is mounted. -/
structure Live (M : Type) where
  mst : MstNode M
  mstOffs : Nat
  maxSqnum : UInt64
  pc : Pc
  lebs : Fin 2 → Leb M
  /-- the contents of the last master node that was written completely -/
  old : M

/-- A device without power. -/
structure Off (M : Type) where
  lebs : Fin 2 → Leb M
  /-- the contents of the last master node that was written completely, and of the one that was
      being written -/
  old : M
  new : M

/-- `ubifs_read_master` at work. -/
structure Reading (M : Type) where
  mst : MstNode M
  mstOffs : Nat
  maxSqnum : UInt64
  /-- the LEBs that are to be changed -/
  todo : List (Fin 2)
  lebs : Fin 2 → Leb M
  old : M
  new : M

/-- The file system runs, has no power, or is being mounted. -/
inductive State (M : Type)
  | live (l : Live M)
  | off (o : Off M)
  | reading (r : Reading M)
  | failed

/-- What happens next. -/
inductive Event (M : Type)
  /-- `ubifs_write_master` is called -/
  | call (data : M)
  /-- it takes its next step; while a node is written, its slot is `s` -/
  | next (s : Slot M)
  /-- the last page of a node is written -/
  | written
  /-- another node takes a sequence number -/
  | other
  | cut
  /-- the device is mounted; `back` says which unmapped LEBs read back as before -/
  | mount (back : Fin 2 → Bool)
  /-- `ubi_leb_change` of the next LEB is done -/
  | changed
  /-- `ubifs_read_master` returns -/
  | done

namespace Live

/-- The next step of a file system that runs. -/
def step (g : Geometry) (l : Live M) : Event M → Option (Live M)
  | .call data =>
    if l.pc = .idle then
      let offs := l.mstOffs + g.mstNodeAlsz
      let l := { l with mst := { l.mst with data } }
      if offs + ubifsMstNodeSz > g.lebSize then some { l with pc := .unmap 0, mstOffs := 0 }
      else some { l with pc := .write 0, mstOffs := offs }
    else none
  | .next s =>
    match l.pc with
    | .idle => none
    | .unmap i =>
      some { l with pc := .write i, lebs := Function.update l.lebs i (l.lebs i).unmap }
    | .write i =>
      if s.scanANode = none then
        -- `ubifs_prepare_node` takes a sequence number
        some { l with
          pc := .pages i
          maxSqnum := l.maxSqnum + 1
          mst := { l.mst with sqnum := l.maxSqnum + 1 }
          lebs := Function.update l.lebs i ((l.lebs i).put g l.mstOffs s) }
      else none
    | .pages i =>
      if s.scanANode = none then
        some { l with lebs := Function.update l.lebs i ((l.lebs i).put g l.mstOffs s) }
      else none
  | .other => some { l with maxSqnum := l.maxSqnum + 1 }
  | .written =>
    match l.pc with
    | .pages i =>
      some { l with
        pc := if i = 1 then .idle else if l.mstOffs = 0 then .unmap 1 else .write 1
        lebs := Function.update l.lebs i ((l.lebs i).put g l.mstOffs (.node l.mst))
        old := if i = 1 then l.mst.data else l.old }
    | _ => none
  | _ => none

end Live

/-- `ubifs_recover_master_node` -/
def Off.recover (g : Geometry) (o : Off M) (lebs : Fin 2 → Leb M) : State M :=
  match recoverMasterNode g (lebs 0).read (lebs 1).read with
  | none => .failed
  | some m => .reading ⟨m, 0, m.sqnum - 1, [0, 1], lebs, o.old, o.new⟩

/-- A mount. -/
def Off.mount (g : Geometry) (o : Off M) (back : Fin 2 → Bool) : State M :=
  let lebs := fun i => (o.lebs i).back (back i)
  match scanForMaster g (lebs 0).read (lebs 1).read with
  | .found offs m => .reading ⟨m, offs, 0, [], lebs, o.old, o.new⟩
  | .einval => .failed
  | .euclean => o.recover g lebs

namespace Reading

/-- `write_rcvrd_mst_node` prepares the node before the first LEB is changed. -/
def changed (r : Reading M) : Option (Reading M) :=
  match r.todo with
  | [] => none
  | i :: todo =>
    let r := if i = 0 then
        { r with maxSqnum := r.maxSqnum + 1, mst := { r.mst with sqnum := r.maxSqnum + 1 } }
      else r
    some { r with
      todo := todo
      lebs := Function.update r.lebs i (.mapped [.node { r.mst with rcvry := true }]) }

/-- The rest of `ubifs_read_master`. -/
def done (accept : UInt64 → M → Bool) (r : Reading M) : State M :=
  if accept r.mst.sqnum r.mst.data then
    .live ⟨{ r.mst with rcvry := false }, r.mstOffs, r.mst.sqnum, .idle, r.lebs, r.mst.data⟩
  else .failed

end Reading

/-- A step, with a power cut possible at any time. -/
def State.step (g : Geometry) (accept : UInt64 → M → Bool) : State M → Event M → Option (State M)
  | .live l, .cut => some (.off ⟨l.lebs, l.old, l.mst.data⟩)
  | .live l, e => (l.step g e).map .live
  | .off o, .mount back => some (o.mount g back)
  | .off _, _ => none
  | .reading r, .cut => some (.off ⟨r.lebs, r.old, r.new⟩)
  | .reading r, .changed => r.changed.map .reading
  | .reading r, .done => if r.todo = [] then some (r.done accept) else none
  | .reading _, _ => none
  | .failed, _ => none

/-- The master node that was made with the file system. -/
def State.initial (sqnum : UInt64) (data : M) : State M :=
  let m := ⟨sqnum, .mst, false, data⟩
  .live ⟨m, 0, sqnum, .idle, fun _ => .mapped [.node m], data⟩

/-- What is read is the contents of the last master node that was written completely or of the one
    that was being written. -/
def State.Safe : State M → Prop
  | .live _ => True
  | .off _ => True
  | .reading r => r.mst.data = r.old ∨ r.mst.data = r.new
  | .failed => False

end Ubifs
