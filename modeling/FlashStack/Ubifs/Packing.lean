/-
  Where the nodes of a group are.

  A group is `Sound` if its nodes lie in the buffer and in the reserved space without overlapping,
  and if each branch that went to the index is the place of a node of the group with that key.
  `pack_inode` attaches the data of an inode that is still linked; an operation is sound exactly if
  its arithmetic agrees with this, which it does not for every inode that it may be called with.
-/
import FlashStack.Ubifs.Plans

namespace Ubifs

open Lib Lib.Prog

/-! ## Sound groups -/

/-- The key and the place of a branch that an update adds. -/
def TncUpdate.added : TncUpdate → Option (Key × Branch)
  | .add key b => some (key, b)
  | .addNm key _ b => some (key, b)
  | _ => none

/-- What is written is inside what was allocated and reserved, and the reserved space is in the
    LEB. -/
structure Group.Sound (c : JnlInfo) (g : Group) : Prop where
  allocated : g.pos.len ≤ g.alloc
  reserved : g.pos.len ≤ g.reserved
  inLeb : g.pos.offs + g.reserved ≤ c.lebSize
  inside : ∀ p ∈ g.nodes, p.offs + p.len ≤ g.pos.len
  apart : g.nodes.Pairwise fun p q => p.offs + p.len ≤ q.offs ∨ q.offs + q.len ≤ p.offs
  indexed : ∀ u ∈ g.updates, ∀ x ∈ u.added, 8 ∣ x.2.offs ∧
    ∃ p ∈ g.nodes, x.2 = ⟨g.pos.lnum, g.pos.offs + p.offs, p.len⟩ ∧ p.node.key = some x.1

/-- The same, of a plan that is carried out at `pos`. -/
structure Plan.Sound (p : Plan) (pos : HeadPos) : Prop where
  allocated : p.len ≤ p.alloc
  inside : ∀ d ∈ p.drafts, d.offs + d.len ≤ p.len
  apart : p.drafts.Pairwise fun d d' => d.offs + d.len ≤ d'.offs ∨ d'.offs + d'.len ≤ d.offs
  indexed : ∀ u ∈ p.updates pos, ∀ x ∈ u.added, 8 ∣ x.2.offs ∧
    ∃ d ∈ p.drafts, x.2 = pos.branch d.offs d.len ∧ d.node.key = some x.1

/-- A node that was packed, as the plan says it. -/
def Packed.draft (p : Packed) : Draft := ⟨p.offs, p.len, p.node⟩

/-- Numbering the nodes does not move them. -/
theorem map_draft_number (n : Nat) (drafts : List Draft) :
    (number n drafts).map Packed.draft = drafts := by
  apply List.ext_getElem
  · simp [number]
  · simp [number, Packed.draft]

/-- What is written is sound if the plan is. -/
theorem Wrote.sound_iff {c : JnlInfo} {p : Plan} {pos : HeadPos} {s s' : Jnl}
    (hw : Wrote c p.head p.alloc p.len pos p.drafts p.deleted (p.updates pos) s s') :
    s'.group.Sound c ↔ p.Sound pos := by
  rw [hw.group]
  have hnodes := map_draft_number s.maxSqnum p.drafts
  constructor
  · rintro ⟨halloc, -, -, hinside, hapart, hindexed⟩
    refine ⟨halloc, ?_, ?_, fun u hu x hx => ?_⟩
    · rw [← hnodes]
      exact List.forall_mem_map.mpr hinside
    · rw [← hnodes]
      exact List.pairwise_map.mpr hapart
    · obtain ⟨h8, q, hq, hb, hkey⟩ := hindexed u hu x hx
      refine ⟨h8, q.draft, ?_, hb, hkey⟩
      rw [← hnodes]
      exact List.mem_map_of_mem hq
  · rintro ⟨halloc, hinside, hapart, hindexed⟩
    rw [← hnodes] at hinside hapart hindexed
    refine ⟨halloc, le_rfl, hw.placed.1, List.forall_mem_map.mp hinside,
      List.pairwise_map.mp hapart, fun u hu x hx => ?_⟩
    obtain ⟨h8, d, hd, hb, hkey⟩ := hindexed u hu x hx
    obtain ⟨q, hq, rfl⟩ := List.mem_map.mp hd
    exact ⟨h8, q, hq, hb, hkey⟩

/-- The position does not matter, so it need not be known. -/
theorem CarriedOut.sound_iff {c : JnlInfo} {p : Plan} {s s' : Jnl} {P : Prop}
    (h : CarriedOut c p s s') (hp : ∀ pos, p.Sound pos ↔ P) : s'.group.Sound c ↔ P := by
  obtain ⟨pos, hw⟩ := h
  rw [hw.sound_iff, hp]

/-! ## Sound plans -/

section Sound

variable {c : JnlInfo} {pos : HeadPos}

/-- Places are told by the offset from the head. -/
@[simp] theorem HeadPos.branch_inj {offs len offs' len' : Nat} :
    pos.branch offs len = pos.branch offs' len' ↔ offs = offs' ∧ len = len' := by
  simp [HeadPos.branch]

@[simp] theorem HeadPos.dvd_branch {offs len : Nat} :
    8 ∣ (pos.branch offs len).offs ↔ 8 ∣ offs := (Nat.dvd_add_iff_right pos.aligned).symm

/-- What it takes for a plan to be sound. -/
theorem Plan.sound_iff (p : Plan) : p.Sound pos ↔ p.len ≤ p.alloc ∧
    (∀ d ∈ p.drafts, d.offs + d.len ≤ p.len) ∧
    (p.drafts.Pairwise fun d d' => d.offs + d.len ≤ d'.offs ∨ d'.offs + d'.len ≤ d.offs) ∧
    ∀ u ∈ p.updates pos, ∀ x ∈ u.added, 8 ∣ x.2.offs ∧
      ∃ d ∈ p.drafts, x.2 = pos.branch d.offs d.len ∧ d.node.key = some x.1 :=
  ⟨fun h => ⟨h.allocated, h.inside, h.apart, h.indexed⟩, fun ⟨ha, hi, hp, hx⟩ => ⟨ha, hi, hp, hx⟩⟩

/-- An inode that is gone takes no data along. -/
theorem attached_eq_zero (i : Inode) : attached i = 0 ↔ i.nlink = 0 ∨ i.dataLen = 0 := by
  simp [attached, Classical.or_iff_not_imp_left]

theorem dentLen_pos (nm : Name) : 0 < dentLen nm := by
  unfold dentLen
  omega

/-- The directory must have no data.  The inode's data is left out of its length at its last
    reference only, where `pack_inode` leaves it out of every unlinked inode. -/
theorem updatePlan_sound (dir : Inode) (nm : Name) (inode : Inode) (deletion xent : Bool) :
    (updatePlan c dir nm inode deletion xent).Sound pos ↔ attached dir = 0 ∧
      (if lastReference deletion inode then 0 else inode.dataLen) = attached inode := by
  rw [Plan.sound_iff]
  unfold updatePlan inodeDraft
  generalize (if lastReference deletion inode then 0 else inode.dataLen) = ilen
  have hd := align_eight (dentLen nm)
  have hi := align_eight (160 + ilen)
  have hpos := dentLen_pos nm
  cases deletion with
  | true =>
    simp [TncUpdate.added, Node.key, ubifsInoNodeSz]
    omega
  | false =>
    simp [TncUpdate.added, Node.key, ubifsInoNodeSz]
    omega

/-- A data node fits in what is allocated for it. -/
theorem writeDataPlan_sound (key : Key) (comprType : Nat) (buf : List UInt8)
    (hbuf : buf.length ≤ ubifsBlockSize) : (writeDataPlan c key comprType buf).Sound pos := by
  have hlen := (length_ubifsCompress (c := c) comprType buf).trans hbuf
  rw [Plan.sound_iff]
  unfold writeDataPlan
  simp [TncUpdate.added, Node.key, ubifsDataNodeSz, ubifsBlockSize, worstComprFactor] at hlen ⊢
  omega

/-- So does an inode. -/
theorem writeInodePlan_sound (inode : Inode) : (writeInodePlan inode).Sound pos := by
  rw [Plan.sound_iff]
  unfold writeInodePlan inodeDraft
  by_cases hn : inode.nlink = 0
  · simp [hn, TncUpdate.added]
  · simp [hn, TncUpdate.added, Node.key]

/-- The directories must have no data. -/
theorem renamePlan_sound (oldDir : Inode) (oldName : Name) (oldInode newDir : Inode)
    (newName : Name) (newInode : Option Inode) :
    (renamePlan c oldDir oldName oldInode newDir newName newInode).Sound pos ↔
      attached oldDir = 0 ∧ (oldDir.ino ≠ newDir.ino → attached newDir = 0) := by
  rw [Plan.sound_iff]
  unfold renamePlan
  have hd₁ := align_eight (dentLen newName)
  have hd₂ := align_eight (dentLen oldName)
  have hpos₁ := dentLen_pos newName
  have hpos₂ := dentLen_pos oldName
  have hp : align 160 8 = 160 := rfl
  have h0 : align 0 8 = 0 := rfl
  cases newInode with
  | none =>
    by_cases hmove : oldDir.ino = newDir.ino
    · simp [hmove, TncUpdate.added, Node.key, unlinkedLen, unlinkedDrafts, inodeDraft,
        ubifsInoNodeSz, hp, h0]
      omega
    · simp [hmove, TncUpdate.added, Node.key, unlinkedLen, unlinkedDrafts, inodeDraft,
        ubifsInoNodeSz, hp, h0]
      omega
  | some i =>
    have hi := align_eight (160 + attached i)
    by_cases hmove : oldDir.ino = newDir.ino
    · simp [hmove, TncUpdate.added, Node.key, unlinkedLen, unlinkedDrafts, inodeDraft,
        ubifsInoNodeSz, hp]
      omega
    · simp [hmove, TncUpdate.added, Node.key, unlinkedLen, unlinkedDrafts, inodeDraft,
        ubifsInoNodeSz, hp]
      omega

/-- A truncation has no room for data of the inode. -/
theorem truncatePlan_sound (inode : Inode) (oldSize newSize : Nat) (dn : Option (Nat × Node))
    (hdn : CutBlock inode.ino newSize dn) :
    (truncatePlan inode oldSize newSize dn).Sound pos ↔ attached inode = 0 := by
  rw [Plan.sound_iff]
  unfold truncatePlan inodeDraft
  rcases dn with _ | ⟨dlen, node⟩
  · simp [TncUpdate.added, Node.key, ubifsInoNodeSz, ubifsTrunNodeSz]
    omega
  · obtain ⟨-, hlen, comprType, data, rfl⟩ := hdn
    simp [TncUpdate.added, Node.key, ubifsInoNodeSz, ubifsTrunNodeSz, worstComprFactor]
    omega

/-- The host is counted back from the end of the buffer, by its length before it is aligned. -/
theorem deleteXattrPlan_sound (host inode : Inode) (nm : Name) :
    (deleteXattrPlan c host inode nm).Sound pos ↔
      attached inode = 0 ∧ attached host = host.dataLen ∧ 8 ∣ host.dataLen := by
  rw [Plan.sound_iff]
  unfold deleteXattrPlan inodeDraft
  have hd := align_eight (dentLen nm)
  have hh := align_eight (host.dataLen + 160)
  have hpos := dentLen_pos nm
  simp [TncUpdate.added, Node.key, ubifsInoNodeSz]
  omega

/-- Changing an attribute counts the data of both inodes, whether they are written or not. -/
theorem changeXattrPlan_sound (inode host : Inode) :
    (changeXattrPlan inode host).Sound pos ↔
      attached host = host.dataLen ∧ attached inode = inode.dataLen := by
  rw [Plan.sound_iff]
  unfold changeXattrPlan inodeDraft
  have hh := align_eight (160 + host.dataLen)
  have hi := align_eight (160 + inode.dataLen)
  simp [TncUpdate.added, Node.key, ubifsInoNodeSz]
  omega

end Sound

/-! ## The operations -/

/-- The operations of the journal.  A data node holds at most a block. -/
inductive JnlOp
  | update (dir : Inode) (nm : Name) (inode : Inode) (deletion xent : Bool)
  | writeData (key : Key) (comprType : Nat) (buf : List UInt8) (hbuf : buf.length ≤ ubifsBlockSize)
  | writeInode (inode : Inode)
  | deleteInode (inode : Inode)
  | rename (oldDir : Inode) (oldName : Name) (oldInode newDir : Inode) (newName : Name)
      (newInode : Option Inode)
  | truncate (inode : Inode) (oldSize newSize : Nat)
  | deleteXattr (host inode : Inode) (nm : Name)
  | changeXattr (inode host : Inode)

/-- The journal operation of `journal.c` with these arguments. -/
def JnlOp.run (c : JnlInfo) : JnlOp → J Unit
  | update dir nm inode deletion xent => ubifsJnlUpdate c dir nm inode deletion xent
  | writeData key comprType buf _ => ubifsJnlWriteData c key comprType buf
  | writeInode inode => ubifsJnlWriteInode c inode
  | deleteInode inode => ubifsJnlDeleteInode c inode
  | rename oldDir oldName oldInode newDir newName newInode =>
    ubifsJnlRename c oldDir oldName oldInode newDir newName newInode
  | truncate inode oldSize newSize => ubifsJnlTruncate c inode oldSize newSize
  | deleteXattr host inode nm => ubifsJnlDeleteXattr c host inode nm
  | changeXattr inode host => ubifsJnlChangeXattr c inode host

/-- The operation reckons with as much attached data as there is. -/
def JnlOp.Accounted : JnlOp → Prop
  | update dir _ inode deletion _ => (dir.nlink = 0 ∨ dir.dataLen = 0) ∧
    (inode.nlink = 0 → deletion = true ∨ inode.dataLen = 0)
  | rename oldDir _ _ newDir _ _ => (oldDir.nlink = 0 ∨ oldDir.dataLen = 0) ∧
    (oldDir.ino ≠ newDir.ino → newDir.nlink = 0 ∨ newDir.dataLen = 0)
  | truncate inode _ _ => inode.nlink = 0 ∨ inode.dataLen = 0
  | deleteXattr host inode _ => (inode.nlink = 0 ∨ inode.dataLen = 0) ∧
    (host.nlink = 0 → host.dataLen = 0) ∧ 8 ∣ host.dataLen
  | changeXattr inode host =>
    (host.nlink = 0 → host.dataLen = 0) ∧ (inode.nlink = 0 → inode.dataLen = 0)
  | writeData .. => True
  | writeInode _ => True
  | deleteInode _ => True

/-- That is right unless an inode is gone and has data. -/
theorem attached_eq_dataLen (i : Inode) : attached i = i.dataLen ↔ (i.nlink = 0 → i.dataLen = 0) := by
  by_cases hn : i.nlink = 0
  · simp [attached, hn, eq_comm]
  · simp [attached, hn]

/-- The length of `ubifs_jnl_update` is the one that is packed, but for an inode that is gone and
    not deleted. -/
theorem updateLen_eq_attached (deletion : Bool) (i : Inode) :
    (if lastReference deletion i then 0 else i.dataLen) = attached i ↔
      (i.nlink = 0 → deletion = true ∨ i.dataLen = 0) := by
  unfold lastReference
  by_cases hn : i.nlink = 0
  · cases deletion with
    | true => simp [attached, hn]
    | false => simp [attached, hn]
  · simp [attached, hn]

/-- Removing an inode writes nothing. -/
theorem Removed.sound {c : JnlInfo} {inum : Nat} {s s' : Jnl} (h : Removed inum s s') :
    s'.group.Sound c := by
  rw [h.group]
  exact ⟨le_rfl, le_rfl, Nat.zero_le _, by simp [Group.empty], .nil, by simp [TncUpdate.added]⟩

/-- The group of an operation that succeeds is sound exactly if the attached data is accounted for. -/
theorem JnlOp.group_sound (c : JnlInfo) (op : JnlOp) (s s' : Jnl) (t : List Empty)
    (h : op.run c s = .ok () s' t) : s'.group.Sound c ↔ op.Accounted := by
  cases op with
  | update dir nm inode deletion xent =>
    refine ((ubifsJnlUpdate_spec s ..).of_ok h).sound_iff fun pos => ?_
    rw [updatePlan_sound, attached_eq_zero, updateLen_eq_attached]
    rfl
  | writeData key comprType buf hbuf =>
    refine ((ubifsJnlWriteData_spec s ..).of_ok h).sound_iff fun pos => ?_
    exact iff_of_true (writeDataPlan_sound key comprType buf hbuf) trivial
  | writeInode inode =>
    refine ((ubifsJnlWriteInode_spec s inode).of_ok h).sound_iff fun pos => ?_
    exact iff_of_true (writeInodePlan_sound inode) trivial
  | deleteInode inode =>
    have hdel := (ubifsJnlDeleteInode_spec s inode).of_ok h
    split at hdel
    · exact hdel.sound_iff fun pos => iff_of_true (writeInodePlan_sound inode) trivial
    · exact iff_of_true hdel.sound trivial
  | rename oldDir oldName oldInode newDir newName newInode =>
    refine ((ubifsJnlRename_spec s ..).of_ok h).sound_iff fun pos => ?_
    rw [renamePlan_sound, attached_eq_zero, attached_eq_zero]
    rfl
  | truncate inode oldSize newSize =>
    obtain ⟨dn, hdn, hcarried⟩ := (ubifsJnlTruncate_spec s ..).of_ok h
    refine hcarried.sound_iff fun pos => ?_
    rw [truncatePlan_sound inode oldSize newSize dn hdn, attached_eq_zero]
    rfl
  | deleteXattr host inode nm =>
    refine ((ubifsJnlDeleteXattr_spec s ..).of_ok h).sound_iff fun pos => ?_
    rw [deleteXattrPlan_sound, attached_eq_zero, attached_eq_dataLen]
    rfl
  | changeXattr inode host =>
    refine ((ubifsJnlChangeXattr_spec s ..).of_ok h).sound_iff fun pos => ?_
    rw [changeXattrPlan_sound, attached_eq_dataLen, attached_eq_dataLen]
    rfl

/-- A journal with one head, at the start of a LEB, and nothing in it. -/
def emptyJnl : Jnl where
  faults := fun _ => none
  calls := 0
  freeSpace := fun _ => ⟨9, 0, by decide⟩
  head := fun _ => some ⟨8, 0, by decide⟩
  buds := [⟨8, 0⟩]
  maxSqnum := 10
  cmtNo := 1
  delCmtno := fun _ => 0
  roError := false
  flash := fun _ => []
  tnc := ⟨[], .nil⟩
  group := Group.empty

/-- LEBs of 4 KiB; no data are compressed. -/
def plainJnlInfo : JnlInfo where
  lebSize := 4096
  keyHash := List.length
  cryptoCompress := fun _ _ => none
  cryptoDecompress := fun _ _ => none

/-- A device node has four bytes of data, which are its number. -/
def deviceNode : Inode := ⟨65, 1, 4, 0⟩

/-- The inode of an attribute with five bytes. -/
def xattrInode (nlink : Nat) : Inode := ⟨66, nlink, 5, 5⟩

/-- What `create_xattr` calls `ubifs_jnl_update` with, for a new attribute of a plain file. -/
def attrUpdate : JnlOp := .update ⟨65, 1, 0, 0⟩ [97] (xattrInode 1) false true

/-- An extended attribute of a plain file is created. -/
theorem create_xattr_sound : ∃ s' t,
    attrUpdate.run plainJnlInfo emptyJnl = .ok () s' t ∧ s'.group.Sound plainJnlInfo := by
  refine ⟨_, _, rfl, ?_⟩
  apply (JnlOp.group_sound plainJnlInfo attrUpdate emptyJnl _ [] rfl).mpr
  exact ⟨.inr rfl, fun h => absurd h (by decide)⟩

/-- Removing an extended attribute of a device node leaves a branch in the index that is four bytes
    behind the node. -/
theorem delete_device_xattr_unsound : ¬∀ (c : JnlInfo) (op : JnlOp) (s s' : Jnl) (t : List Empty),
    op.run c s = .ok () s' t → s'.group.Sound c := by
  intro hall
  have hsound := hall plainJnlInfo (.deleteXattr deviceNode (xattrInode 0) [97]) emptyJnl _ _ rfl
  have hcarried := (ubifsJnlDeleteXattr_spec (c := plainJnlInfo) emptyJnl deviceNode (xattrInode 0)
    [97]).of_ok rfl
  obtain ⟨-, -, h8⟩ := (hcarried.sound_iff fun pos => deleteXattrPlan_sound ..).mp hsound
  exact absurd h8 (by decide)

end Ubifs
