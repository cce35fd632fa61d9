/-
  What each journal operation writes.

  A `Plan` says what an operation puts in its buffer and tells the index, in terms of the place where
  the head turns out to be.  It is the text of the operation without its control flow: an operation
  that succeeds has carried out its plan.  What is to be said about all operations (where their nodes
  are, what a replay makes of them) is then said about plans.
-/
import FlashStack.Ubifs.Groups

namespace Ubifs

open Lib Lib.Prog

/-- What an operation is going to write: where, how much is allocated and reserved, and the nodes.
    -/
structure Plan where
  head : JHead
  alloc : Nat
  len : Nat
  drafts : List Draft
  /-- the inode that becomes an orphan -/
  deleted : Option Nat
  updates : HeadPos → List TncUpdate

/-- The plan was carried out, somewhere. -/
def CarriedOut (c : JnlInfo) (p : Plan) (s s' : Jnl) : Prop :=
  ∃ pos, Wrote c p.head p.alloc p.len pos p.drafts p.deleted (p.updates pos) s s'

/-! ## The plans -/

/-- A branch at `offs` from where the head is. -/
def HeadPos.branch (pos : HeadPos) (offs len : Nat) : Branch := ⟨pos.lnum, pos.offs + offs, len⟩

/-- `inode` is deleted by this very operation. -/
def lastReference (deletion : Bool) (inode : Inode) : Bool := deletion && inode.nlink == 0

/-- The key of the entry that is updated. -/
def updateKey (c : JnlInfo) (dir : Inode) (nm : Name) (xent : Bool) : Key :=
  if xent then .xent c dir.ino nm else .dent c dir.ino nm

/-- The plan of `ubifs_jnl_update`. -/
def updatePlan (c : JnlInfo) (dir : Inode) (nm : Name) (inode : Inode) (deletion xent : Bool) :
    Plan :=
  let key := updateKey c dir nm xent
  let ilen := ubifsInoNodeSz + if lastReference deletion inode then 0 else inode.dataLen
  let inoOffs := align (dentLen nm) 8
  let dirOffs := inoOffs + align ilen 8
  { head := .base
    alloc := dirOffs + ubifsInoNodeSz
    len := dirOffs + ubifsInoNodeSz
    drafts := [⟨0, dentLen nm, .dent key (if deletion then 0 else inode.ino) nm⟩,
      inodeDraft inoOffs inode, inodeDraft dirOffs dir]
    deleted := if lastReference deletion inode then some inode.ino else none
    updates := fun pos => [
      if deletion then .removeNm key nm else .addNm key nm (pos.branch 0 (dentLen nm)),
      .add (.ino inode.ino) (pos.branch inoOffs ilen),
      .add (.ino dir.ino) (pos.branch dirOffs ubifsInoNodeSz)] }

/-- The plan of `ubifs_jnl_write_data`. -/
def writeDataPlan (c : JnlInfo) (key : Key) (comprType : Nat) (buf : List UInt8) : Plan :=
  let out := ubifsCompress c comprType buf
  let dlen := ubifsDataNodeSz + out.1.length
  { head := .data
    alloc := ubifsDataNodeSz + ubifsBlockSize * worstComprFactor
    len := dlen
    drafts := [⟨0, dlen, .data key buf.length out.2 out.1⟩]
    deleted := none
    updates := fun pos => [.add key (pos.branch 0 dlen)] }

/-- The plan of `ubifs_jnl_write_inode`. -/
def writeInodePlan (inode : Inode) : Plan :=
  let len := ubifsInoNodeSz + attached inode
  { head := .base
    alloc := len
    len := len
    drafts := [inodeDraft 0 inode]
    deleted := none
    updates := fun pos =>
      [if inode.nlink = 0 then .removeIno inode.ino
        else .add (.ino inode.ino) (pos.branch 0 len)] }

/-- The inode that a rename unlinks, if there is one, at `offs`. -/
def unlinkedDrafts (offs : Nat) : Option Inode → List Draft
  | some i => [inodeDraft offs i]
  | none => []

/-- Length of the node of an inode that a rename unlinks. -/
def unlinkedLen : Option Inode → Nat
  | some i => ubifsInoNodeSz + attached i
  | none => 0

/-- The plan of `ubifs_jnl_rename`. -/
def renamePlan (c : JnlInfo) (oldDir : Inode) (oldName : Name) (oldInode newDir : Inode)
    (newName : Name) (newInode : Option Inode) : Plan :=
  let move := oldDir.ino != newDir.ino
  let newKey := Key.dent c newDir.ino newName
  let oldKey := Key.dent c oldDir.ino oldName
  let offs₂ := align (dentLen newName) 8
  let offs₃ := offs₂ + align (dentLen oldName) 8
  let offs₄ := offs₃ + align (unlinkedLen newInode) 8
  let offs₅ := offs₄ + align ubifsInoNodeSz 8
  let len := offs₅ + if move then ubifsInoNodeSz else 0
  { head := .base
    alloc := len
    len := len
    drafts := [⟨0, dentLen newName, .dent newKey oldInode.ino newName⟩,
        ⟨offs₂, dentLen oldName, .dent oldKey 0 oldName⟩] ++
      unlinkedDrafts offs₃ newInode ++ [inodeDraft offs₄ oldDir] ++
      if move then [inodeDraft offs₅ newDir] else []
    deleted := newInode.bind fun i => if i.nlink = 0 then some i.ino else none
    updates := fun pos =>
      [.addNm newKey newName (pos.branch 0 (dentLen newName)), .removeNm oldKey oldName] ++
      (newInode.map fun i =>
        TncUpdate.add (.ino i.ino) (pos.branch offs₃ (unlinkedLen newInode))).toList ++
      [.add (.ino oldDir.ino) (pos.branch offs₄ ubifsInoNodeSz)] ++
      if move then [.add (.ino newDir.ino) (pos.branch offs₅ ubifsInoNodeSz)] else [] }

/-- First and last block that a truncation removes. -/
def trunFirst (newSize : Nat) : Nat :=
  newSize / ubifsBlockSize + if newSize % ubifsBlockSize = 0 then 0 else 1

/-- The last block of the old file. -/
def trunLast (oldSize : Nat) : Nat :=
  oldSize / ubifsBlockSize - if oldSize % ubifsBlockSize = 0 then 1 else 0

/-- `dn` is what is left of the last block. -/
def truncatePlan (inode : Inode) (oldSize newSize : Nat) (dn : Option (Nat × Node)) : Plan :=
  let dlen := match dn with
    | some (dlen, _) => dlen
    | none => 0
  { head := .base
    alloc := ubifsTrunNodeSz + ubifsInoNodeSz + ubifsMaxDataNodeSz * worstComprFactor
    len := ubifsTrunNodeSz + ubifsInoNodeSz + dlen
    drafts := [inodeDraft 0 inode, ⟨ubifsInoNodeSz, ubifsTrunNodeSz, .trun inode.ino oldSize newSize⟩] ++
      (dn.map fun d => ⟨ubifsInoNodeSz + ubifsTrunNodeSz, d.1, d.2⟩).toList
    deleted := none
    updates := fun pos =>
      (dn.map fun d => TncUpdate.add (.data inode.ino (newSize / ubifsBlockSize))
        (pos.branch (ubifsInoNodeSz + ubifsTrunNodeSz) d.1)).toList ++
      [.add (.ino inode.ino) (pos.branch 0 ubifsInoNodeSz),
        .removeRange (.data inode.ino (trunFirst newSize)) (.data inode.ino (trunLast oldSize))] }

/-- The plan of `ubifs_jnl_delete_xattr`. -/
def deleteXattrPlan (c : JnlInfo) (host inode : Inode) (nm : Name) : Plan :=
  let key := Key.xent c host.ino nm
  let inoOffs := align (dentLen nm) 8
  let hostOffs := inoOffs + ubifsInoNodeSz
  let hlen := host.dataLen + ubifsInoNodeSz
  let len := hostOffs + align hlen 8
  { head := .base
    alloc := len
    len := len
    drafts := [⟨0, dentLen nm, .dent key 0 nm⟩, inodeDraft inoOffs inode, inodeDraft hostOffs host]
    deleted := none
    updates := fun pos => [.removeNm key nm,
      .removeRange (.lowestIno inode.ino) (.highestIno inode.ino),
      -- counted back from the end
      .add (.ino host.ino) (pos.branch (len - hlen) hlen)] }

/-- The plan of `ubifs_jnl_change_xattr`. -/
def changeXattrPlan (inode host : Inode) : Plan :=
  let len1 := ubifsInoNodeSz + host.dataLen
  let len2 := ubifsInoNodeSz + inode.dataLen
  { head := .base
    alloc := align len1 8 + align len2 8
    len := align len1 8 + align len2 8
    drafts := [inodeDraft 0 host, inodeDraft (align len1 8) inode]
    deleted := none
    updates := fun pos => [.add (.ino host.ino) (pos.branch 0 len1),
      .add (.ino inode.ino) (pos.branch (align len1 8) len2)] }

/-! ## The operations carry them out -/

section Operations

variable {c : JnlInfo} {s : Jnl}

/-- The optional orphan, and the rest. -/
theorem Drafted.orphan {h : JHead} {alloc len inum : Nat} {pos : HeadPos} {drafts : List Draft}
    {s' : Jnl} {p : Prop} [Decidable p] {f : Unit → J Unit} {R : Unit → Jnl → Prop}
    (hd : Drafted c h alloc len pos drafts none s s')
    (hf : ∀ s'', Drafted c h alloc len pos drafts (if p then some inum else none) s s'' →
      Returns (f ()) R s'') :
    Returns (if p then ubifsAddOrphan inum >>= f else f ()) R s' := by
  refine Returns.ite (fun hp => ?_) (fun hp => ?_)
  · rw [if_pos hp] at hf
    exact Returns.bind (addOrphan_spec hd inum) fun _ => hf
  · rw [if_neg hp] at hf
    exact hf s' hd

/-- The optional inode node, and the rest. -/
theorem Drafted.packIf {h : JHead} {alloc len offs : Nat} {pos : HeadPos} {drafts : List Draft}
    {deleted : Option Nat} {inode : Inode} {s' : Jnl} {p : Prop} [Decidable p] {f : Unit → J Unit}
    {R : Unit → Jnl → Prop} (hd : Drafted c h alloc len pos drafts deleted s s')
    (hf : ∀ s'', Drafted c h alloc len pos
        (drafts ++ if p then [inodeDraft offs inode] else []) deleted s s'' →
      Returns (f ()) R s'') :
    Returns (if p then packInode offs inode >>= f else f ()) R s' := by
  refine Returns.ite (fun hp => ?_) (fun hp => ?_)
  · rw [if_pos hp] at hf
    exact Returns.bind (packInode_spec hd offs inode) fun _ => hf
  · rw [if_neg hp, List.append_nil] at hf
    exact hf s' hd

/-- The optional branch at the end. -/
theorem Wrote.addIf {h : JHead} {alloc len lnum offs l : Nat} {pos : HeadPos}
    {drafts : List Draft} {deleted : Option Nat} {updates : List TncUpdate} {key : Key} {s' : Jnl}
    {p : Prop} [Decidable p] {R : Jnl → Prop}
    (hw : Wrote c h alloc len pos drafts deleted updates s s')
    (hf : ∀ s'', Wrote c h alloc len pos drafts deleted
      (updates ++ if p then [.add key ⟨lnum, offs, l⟩] else []) s s'' → R s'') :
    Returns (if p then ubifsTncAdd key lnum offs l else pure ()) (fun _ => R) s' := by
  refine Returns.ite (fun hp => ?_) (fun hp => ?_)
  · rw [if_pos hp] at hf
    exact (tncUpdate_spec hw _).mono fun _ => hf
  · rw [if_neg hp, List.append_nil] at hf
    exact hf s' hw

/-- If `ubifs_jnl_update` succeeds, its plan was carried out. -/
theorem ubifsJnlUpdate_spec (s : Jnl) (dir : Inode) (nm : Name) (inode : Inode)
    (deletion xent : Bool) : Returns (ubifsJnlUpdate c dir nm inode deletion xent)
      (fun _ s' => CarriedOut c (updatePlan c dir nm inode deletion xent) s s') s := by
  unfold ubifsJnlUpdate
  refine Returns.bind (kmalloc_spec ..) fun _ s₁ ha => ?_
  refine Returns.bind (makeReservation_spec ha) fun _ s₂ ⟨pos, hd⟩ => ?_
  refine Returns.bind (prepNode_spec hd ..) fun _ s₃ hd => ?_
  refine Returns.bind (packInode_spec hd ..) fun _ s₄ hd => ?_
  refine Returns.bind (packInode_spec hd ..) fun _ s₅ hd => ?_
  refine hd.orphan fun s₆ hd => ?_
  refine Returns.orRo ?_
  refine Returns.bind (writeHead_spec hd) fun r s₇ ⟨hr, hw⟩ => ?_
  rw [hr]
  cases deletion with
  | true =>
    refine Returns.bind (tncUpdate_spec hw _) fun _ s₈ hw => ?_
    refine Returns.bind (addDirt_spec hw) fun _ s₉ hw => ?_
    refine Returns.bind (tncUpdate_spec hw _) fun _ s₁₀ hw => ?_
    refine (tncUpdate_spec hw _).mono fun _ s₁₁ hw => ⟨pos, ?_⟩
    rw [Nat.add_assoc pos.offs] at hw
    exact hw
  | false =>
    refine Returns.bind (tncUpdate_spec hw _) fun _ s₈ hw => ?_
    refine Returns.bind (tncUpdate_spec hw _) fun _ s₁₀ hw => ?_
    refine (tncUpdate_spec hw _).mono fun _ s₁₁ hw => ⟨pos, ?_⟩
    rw [Nat.add_assoc pos.offs] at hw
    exact hw

/-- The same of `ubifs_jnl_write_data`. -/
theorem ubifsJnlWriteData_spec (s : Jnl) (key : Key) (comprType : Nat) (buf : List UInt8) :
    Returns (ubifsJnlWriteData c key comprType buf)
      (fun _ s' => CarriedOut c (writeDataPlan c key comprType buf) s s') s := by
  unfold ubifsJnlWriteData
  refine Returns.bind (kmalloc_spec ..) fun _ s₁ ha => ?_
  refine Returns.bind (makeReservation_spec ha) fun _ s₂ ⟨pos, hd⟩ => ?_
  refine Returns.orRo ?_
  refine Returns.bind (prepNode_spec hd ..) fun _ s₃ hd => ?_
  refine Returns.bind (writeHead_spec hd) fun r s₄ ⟨hr, hw⟩ => ?_
  rw [hr]
  exact (tncUpdate_spec hw _).mono fun _ s₅ hw => ⟨pos, hw⟩

/-- The same of `ubifs_jnl_write_inode`. -/
theorem ubifsJnlWriteInode_spec (s : Jnl) (inode : Inode) :
    Returns (ubifsJnlWriteInode c inode)
      (fun _ s' => CarriedOut c (writeInodePlan inode) s s') s := by
  unfold ubifsJnlWriteInode writeInodePlan
  simp only [beq_iff_eq]
  refine Returns.bind (kmalloc_spec ..) fun _ s₁ ha => ?_
  refine Returns.bind (makeReservation_spec ha) fun _ s₂ ⟨pos, hd⟩ => ?_
  refine Returns.bind (packInode_spec hd ..) fun _ s₃ hd => ?_
  refine Returns.orRo ?_
  refine Returns.bind (writeHead_spec hd) fun r s₄ ⟨hr, hw⟩ => ?_
  rw [hr]
  refine Returns.ite (fun h => ?_) (fun h => ?_)
  · refine Returns.bind (tncUpdate_spec hw _) fun _ s₅ hw => ?_
    refine (addDirt_spec hw).mono fun _ s₆ hw => ⟨pos, ?_⟩
    simp only [attached, if_pos h] at hw ⊢
    exact hw
  · refine (tncUpdate_spec hw _).mono fun _ s₅ hw => ⟨pos, ?_⟩
    simp only [attached, if_neg h] at hw ⊢
    exact hw

/-- The inode is gone from the index, and nothing was written. -/
structure Removed (inum : Nat) (s s' : Jnl) : Prop where
  head : s'.head = s.head
  buds : s'.buds = s.buds
  maxSqnum : s'.maxSqnum = s.maxSqnum
  cmtNo : s'.cmtNo = s.cmtNo
  delCmtno : s'.delCmtno = s.delCmtno
  flash : s'.flash = s.flash
  tnc : s'.tnc = s.tnc.update s.flash (.removeIno inum)
  group : s'.group = { Group.empty with updates := [.removeIno inum] }

/-- The inode is written, or only removed from the index if it is an orphan of this commit. -/
theorem ubifsJnlDeleteInode_spec (s : Jnl) (inode : Inode) :
    Returns (ubifsJnlDeleteInode c inode)
      (fun _ s' => if s.delCmtno inode.ino ≠ s.cmtNo then CarriedOut c (writeInodePlan inode) s s'
        else Removed inode.ino s s') s := by
  unfold ubifsJnlDeleteInode
  refine Returns.bind (Q := fun s₁ s₂ => s₁ = s ∧ s₂ = s) ⟨rfl, rfl⟩ fun s₁ s₂ hs => ?_
  rw [hs.1, hs.2]
  refine Returns.ite (fun h => ?_) (fun h => ?_)
  · simp only [if_pos h]
    exact ubifsJnlWriteInode_spec ..
  · simp only [if_neg h]
    have hremoved : ∀ n, Removed inode.ino s
        (Jnl.update { s with group := Group.empty, calls := n } (.removeIno inode.ino)) :=
      fun n => ⟨rfl, rfl, rfl, rfl, rfl, rfl, rfl, rfl⟩
    refine Returns.bind (Q := fun _ s₁ => s₁ = { s with group := Group.empty }) rfl ?_
    rintro _ _ rfl
    refine Returns.orRo ?_
    refine Returns.bind (Q := fun _ s₁ => ∃ n, s₁ = { s with group := Group.empty, calls := n })
      (Returns.mayFail ⟨_, rfl⟩) ?_
    rintro _ _ ⟨n, rfl⟩
    exact hremoved n

/-- The same of `ubifs_jnl_rename`. -/
theorem ubifsJnlRename_spec (s : Jnl) (oldDir : Inode) (oldName : Name) (oldInode newDir : Inode)
    (newName : Name) (newInode : Option Inode) :
    Returns (ubifsJnlRename c oldDir oldName oldInode newDir newName newInode)
      (fun _ s' =>
        CarriedOut c (renamePlan c oldDir oldName oldInode newDir newName newInode) s s') s := by
  unfold ubifsJnlRename
  refine Returns.bind (kmalloc_spec ..) fun _ s₁ ha => ?_
  refine Returns.bind (makeReservation_spec ha) fun _ s₂ ⟨pos, hd⟩ => ?_
  refine Returns.bind (prepNode_spec hd ..) fun _ s₃ hd => ?_
  refine Returns.bind (prepNode_spec hd ..) fun _ s₄ hd => ?_
  cases newInode with
  | none =>
    refine Returns.bind (packInode_spec hd ..) fun _ s₅ hd => ?_
    refine hd.packIf fun s₆ hd => ?_
    refine Returns.orRo ?_
    refine Returns.bind (writeHead_spec hd) fun r s₇ ⟨hr, hw⟩ => ?_
    rw [hr]
    refine Returns.bind (tncUpdate_spec hw _) fun _ s₈ hw => ?_
    refine Returns.bind (addDirt_spec hw) fun _ s₉ hw => ?_
    refine Returns.bind (tncUpdate_spec hw _) fun _ s₁₀ hw => ?_
    refine Returns.bind (tncUpdate_spec hw _) fun _ s₁₁ hw => ?_
    refine hw.addIf fun s₁₂ hw => ⟨pos, ?_⟩
    simp only [Nat.add_assoc pos.offs] at hw
    exact hw
  | some i =>
    refine Returns.bind (packInode_spec hd ..) fun _ s₅ hd => ?_
    refine Returns.bind (packInode_spec hd ..) fun _ s₆ hd => ?_
    refine hd.packIf fun s₇ hd => ?_
    refine hd.orphan fun s₈ hd => ?_
    refine Returns.orRo ?_
    refine Returns.bind (writeHead_spec hd) fun r s₉ ⟨hr, hw⟩ => ?_
    rw [hr]
    refine Returns.bind (tncUpdate_spec hw _) fun _ s₁₀ hw => ?_
    refine Returns.bind (addDirt_spec hw) fun _ s₁₁ hw => ?_
    refine Returns.bind (tncUpdate_spec hw _) fun _ s₁₂ hw => ?_
    refine Returns.bind (tncUpdate_spec hw _) fun _ s₁₃ hw => ?_
    refine Returns.bind (tncUpdate_spec hw _) fun _ s₁₄ hw => ?_
    refine hw.addIf fun s₁₅ hw => ⟨pos, ?_⟩
    simp only [Nat.add_assoc pos.offs] at hw
    exact hw

/-- The host's node fits into the buffer. -/
theorem deleteXattr_hlen_le (host : Inode) (nm : Name) :
    host.dataLen + ubifsInoNodeSz ≤
      align (dentLen nm) 8 + ubifsInoNodeSz + align (host.dataLen + ubifsInoNodeSz) 8 :=
  (align_eight _).1.trans (Nat.le_add_left ..)

/-- The same of `ubifs_jnl_delete_xattr`. -/
theorem ubifsJnlDeleteXattr_spec (s : Jnl) (host inode : Inode) (nm : Name) :
    Returns (ubifsJnlDeleteXattr c host inode nm)
      (fun _ s' => CarriedOut c (deleteXattrPlan c host inode nm) s s') s := by
  unfold ubifsJnlDeleteXattr
  refine Returns.bind (kmalloc_spec ..) fun _ s₁ ha => ?_
  refine Returns.bind (makeReservation_spec ha) fun _ s₂ ⟨pos, hd⟩ => ?_
  refine Returns.bind (prepNode_spec hd ..) fun _ s₃ hd => ?_
  refine Returns.bind (packInode_spec hd ..) fun _ s₄ hd => ?_
  refine Returns.bind (packInode_spec hd ..) fun _ s₅ hd => ?_
  refine Returns.orRo ?_
  refine Returns.bind (writeHead_spec hd) fun r s₆ ⟨hr, hw⟩ => ?_
  rw [hr]
  refine Returns.bind (tncUpdate_spec hw _) fun _ s₇ hw => ?_
  refine Returns.bind (addDirt_spec hw) fun _ s₈ hw => ?_
  refine Returns.bind (tncUpdate_spec hw _) fun _ s₉ hw => ?_
  refine Returns.bind (addDirt_spec hw) fun _ s₁₀ hw => ?_
  refine (tncUpdate_spec hw _).mono fun _ s₁₁ hw => ⟨pos, ?_⟩
  rw [Nat.add_sub_assoc (deleteXattr_hlen_le host nm)] at hw
  exact hw

/-- The same of `ubifs_jnl_change_xattr`. -/
theorem ubifsJnlChangeXattr_spec (s : Jnl) (inode host : Inode) :
    Returns (ubifsJnlChangeXattr c inode host)
      (fun _ s' => CarriedOut c (changeXattrPlan inode host) s s') s := by
  unfold ubifsJnlChangeXattr
  refine Returns.bind (kmalloc_spec ..) fun _ s₁ ha => ?_
  refine Returns.bind (makeReservation_spec ha) fun _ s₂ ⟨pos, hd⟩ => ?_
  refine Returns.bind (packInode_spec hd ..) fun _ s₃ hd => ?_
  refine Returns.bind (packInode_spec hd ..) fun _ s₄ hd => ?_
  refine Returns.orRo ?_
  refine Returns.bind (writeHead_spec hd) fun r s₅ ⟨hr, hw⟩ => ?_
  rw [hr]
  refine Returns.bind (tncUpdate_spec hw _) fun _ s₆ hw => ?_
  exact (tncUpdate_spec hw _).mono fun _ s₇ hw => ⟨pos, hw⟩

/-- What `ubifs_jnl_truncate` writes in place of the last block. -/
def CutBlock (inum newSize : Nat) : Option (Nat × Node) → Prop
  | none => True
  | some (dlen, node) => newSize % ubifsBlockSize ≠ 0 ∧ dlen ≤ ubifsMaxDataNodeSz ∧
    ∃ comprType data, node =
      .data (.data inum (newSize / ubifsBlockSize)) (newSize % ubifsBlockSize) comprType data

/-- Compression makes nothing longer. -/
theorem length_ubifsCompress (comprType : Nat) (data : List UInt8) :
    (ubifsCompress c comprType data).1.length ≤ data.length := by
  unfold ubifsCompress
  split
  · exact le_rfl
  · split
    · exact le_rfl
    · split
      · exact le_rfl
      · next h =>
        exact (Nat.le_add_right ..).trans (not_lt.mp h)

/-- The last block is cut to less than a block. -/
theorem cut_le (newSize : Nat) : newSize % ubifsBlockSize ≤ ubifsBlockSize :=
  (Nat.mod_lt _ (by decide)).le

/-- A block that is cut is compressed again. -/
theorem recompDataNode_spec {alloc : Nat} {s' : Jnl} (ha : Alloced alloc s s') (comprType : Nat)
    (data : List UInt8) (newLen : Nat) :
    Returns (recompDataNode c comprType data newLen)
      (fun r s'' => Alloced alloc s s'' ∧ r.1.length ≤ newLen) s' := by
  unfold recompDataNode
  refine Returns.bind (Q := fun _ s₁ => Alloced alloc s s₁) (Returns.mayFail (ha.called _))
    fun _ s₁ ha => ?_
  cases c.cryptoDecompress comprType data with
  | none => exact Returns.stop
  | some buf =>
    exact Returns.pure ⟨ha, (length_ubifsCompress ..).trans (List.length_take_le ..)⟩

/-- The index is looked up, and nothing is written. -/
theorem ubifsTncLookup_spec {alloc : Nat} {s' : Jnl} (ha : Alloced alloc s s') (key : Key) :
    Returns (attempt (· == .enoent) (ubifsTncLookup key))
      (fun r s'' => Alloced alloc s s'' ∧ ∀ node, r = .ok node → node.key = some key) s' := by
  unfold ubifsTncLookup Returns
  have hstop : ∀ (e : Errno) (s₁ : Jnl), Alloced alloc s s₁ →
      if e == .enoent then Alloced alloc s s₁ ∧ ∀ node : Node, Except.error e = .ok node →
        node.key = some key else True := by
    intro e s₁ ha
    split
    · exact ⟨ha, fun _ h => nomatch h⟩
    · trivial
  rw [wp_attempt, wp_bind]
  refine wp_mayFail ?_ fun e => hstop e _ (ha.called _)
  have ha := ha.called (s'.calls + 1)
  rw [wp_bind, wp_getState]
  split
  · exact hstop .enoent _ ha
  · split
    · exact hstop .einval _ ha
    · refine wp_ite.mpr ⟨fun hkey => ?_, fun _ => hstop .einval _ ha⟩
      exact ⟨ha, fun node' hnode => by cases hnode; exact hkey⟩

/-- The block that the new size is in is read and cut. -/
theorem truncateBlock_spec {alloc : Nat} {s' : Jnl} (ha : Alloced alloc s s') (inum newSize : Nat) :
    Returns (truncateBlock c inum newSize)
      (fun dn s'' => Alloced alloc s s'' ∧ CutBlock inum newSize dn) s' := by
  unfold truncateBlock
  refine Returns.ite (fun _ => Returns.pure ⟨ha, trivial⟩) (fun hcut => ?_)
  refine Returns.bind (ubifsTncLookup_spec ha _) fun r s₁ ⟨ha, hr⟩ => ?_
  rcases r with e | node
  · exact Returns.pure ⟨ha, trivial⟩
  cases node with
  | data key size comprType data =>
    obtain rfl := Option.some.inj (hr _ rfl)
    refine Returns.ite (fun _ => Returns.pure ⟨ha, trivial⟩) (fun _ => ?_)
    refine Returns.ite (fun _ => ?_) (fun _ => ?_)
    · refine Returns.bind (recompDataNode_spec ha ..) fun r s₂ ⟨ha, hlen⟩ => ?_
      exact Returns.pure ⟨ha, hcut, Nat.add_le_add_left (hlen.trans (cut_le _)) _, _, _, rfl⟩
    · refine Returns.pure ⟨ha, hcut, ?_, _, _, rfl⟩
      rw [Nat.add_comm]
      exact Nat.add_le_add_left (cut_le _) _
  | ino inum nlink size => exact Returns.stop
  | dent key inum nm => exact Returns.stop
  | trun inum oldSize newSize => exact Returns.stop

/-- The same of `ubifs_jnl_truncate`. -/
theorem ubifsJnlTruncate_spec (s : Jnl) (inode : Inode) (oldSize newSize : Nat) :
    Returns (ubifsJnlTruncate c inode oldSize newSize)
      (fun _ s' => ∃ dn, CutBlock inode.ino newSize dn ∧
        CarriedOut c (truncatePlan inode oldSize newSize dn) s s') s := by
  unfold ubifsJnlTruncate
  refine Returns.bind (kmalloc_spec ..) fun _ s₁ ha => ?_
  refine Returns.bind (truncateBlock_spec ha ..) fun dn s₂ ⟨ha, hdn⟩ => ?_
  refine Returns.bind (makeReservation_spec ha) fun _ s₃ ⟨pos, hd⟩ => ?_
  refine Returns.bind (packInode_spec hd ..) fun _ s₄ hd => ?_
  refine Returns.bind (prepNode_spec hd ..) fun _ s₅ hd => ?_
  cases dn with
  | none =>
    refine Returns.orRo ?_
    refine Returns.bind (writeHead_spec hd) fun r s₆ ⟨hr, hw⟩ => ?_
    rw [hr]
    refine Returns.bind (tncUpdate_spec hw _) fun _ s₇ hw => ?_
    refine Returns.bind (addDirt_spec hw) fun _ s₈ hw => ?_
    exact (tncUpdate_spec hw _).mono fun _ s₉ hw => ⟨none, hdn, pos, hw⟩
  | some d =>
    refine Returns.bind (prepNode_spec hd ..) fun _ s₆ hd => ?_
    refine Returns.orRo ?_
    refine Returns.bind (writeHead_spec hd) fun r s₇ ⟨hr, hw⟩ => ?_
    rw [hr]
    refine Returns.bind (tncUpdate_spec hw _) fun _ s₈ hw => ?_
    refine Returns.bind (tncUpdate_spec hw _) fun _ s₉ hw => ?_
    refine Returns.bind (addDirt_spec hw) fun _ s₁₀ hw => ?_
    exact (tncUpdate_spec hw _).mono fun _ s₁₁ hw => ⟨some d, hdn, pos, hw⟩

end Operations

end Ubifs
