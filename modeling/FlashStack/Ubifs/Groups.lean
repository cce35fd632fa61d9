/-
  What a journal operation that succeeds has done.

  Every operation goes through the same stages: the buffer is allocated (`Alloced`), room is reserved
  and nodes are drafted into the buffer one after the other (`Drafted`), and the buffer is written
  and the index told about it (`Wrote`).  Each step of an operation moves one stage on, or along in
  its stage; the operations' specifications are read off by following their text.

  `Returns` is partial correctness: an operation that fails promises nothing here.
-/
import FlashStack.Ubifs.Journal

namespace Ubifs

open Lib Lib.Prog

/-! ## Calls that return -/

/-- If `x` returns, then with `Q`. -/
def Returns {α : Type} (x : J α) (Q : α → Jnl → Prop) (s : Jnl) : Prop :=
  wp (fun _ => True) (fun _ => True) x Q (fun _ _ => True) s

section Rules

variable {α β : Type} {s : Jnl} {Q Q' : α → Jnl → Prop}

/-- What is known of a result, when there is one. -/
theorem Returns.of_ok {x : J α} (h : Returns x Q s) {a : α} {s' : Jnl} {t : List Empty}
    (hx : x s = .ok a s' t) : Q a s' := (wp_ok h hx fun _ _ => trivial).1

/-- Less may be said of a result. -/
theorem Returns.mono {x : J α} (h : Returns x Q s) (hQ : ∀ a s', Q a s' → Q' a s') :
    Returns x Q' s := wp_mono h hQ fun _ _ h => h

/-- Steps in a row. -/
theorem Returns.bind {x : J α} {f : α → J β} {R : β → Jnl → Prop} (h : Returns x Q s)
    (hf : ∀ a s', Q a s' → Returns (f a) R s') : Returns (x >>= f) R s :=
  wp_bind.mpr (wp_mono h hf fun _ _ h => h)

theorem Returns.pure {a : α} (h : Q a s) : Returns (Pure.pure a : J α) Q s := h

/-- An error returns nothing. -/
theorem Returns.stop {e : Errno} : Returns (stop e : J α) Q s := trivial

theorem Returns.ite {p : Prop} [Decidable p] {x y : J α} (hx : p → Returns x Q s)
    (hy : ¬p → Returns y Q s) : Returns (if p then x else y) Q s := wp_ite.mpr ⟨hx, hy⟩

/-- Only the number of calls changes. -/
theorem wp_mayFail {R : Unit → Jnl → Prop} {E : Errno → Jnl → Prop}
    (h : R () { s with calls := s.calls + 1 }) (he : ∀ e, E e { s with calls := s.calls + 1 }) :
    wp (fun _ => True) (fun _ => True) mayFail R E s := by
  unfold mayFail
  simp only [wp_bind, wp_getState, wp_modifyState]
  cases s.faults s.calls with
  | none => exact h
  | some e => exact he e

/-- A call that may fail is counted, and goes on if it does not. -/
theorem Returns.mayFail {R : Unit → Jnl → Prop} (h : R () { s with calls := s.calls + 1 }) :
    Returns mayFail R s := wp_mayFail h fun _ => trivial

/-- An error that turns the file system read-only. -/
theorem Returns.orRo {x : J Unit} {R : Unit → Jnl → Prop} (h : Returns x R s) :
    Returns (orRo x) R s := by
  unfold Ubifs.orRo Returns
  rw [wp_bind, wp_attempt]
  exact wp_mono h (fun _ _ hr => hr) fun _ _ _ => trivial

end Rules

/-! ## The stages -/

/-- A node of a group, before it has a sequence number. -/
structure Draft where
  offs : Nat
  len : Nat
  node : Node

/-- The nodes get the sequence numbers after `n`. -/
def number (n : Nat) (drafts : List Draft) : List Packed :=
  drafts.mapIdx fun i d => ⟨d.offs, d.len, n + i + 1, d.node⟩

/-- The sequence numbers of a group go on. -/
theorem number_concat (n : Nat) (drafts : List Draft) (d : Draft) :
    number n (drafts ++ [d]) = number n drafts ++ [⟨d.offs, d.len, n + drafts.length + 1, d.node⟩] := by
  unfold number
  simp [List.mapIdx_append]

/-- The nodes where they were written. -/
def place (pos : HeadPos) (nodes : List Packed) : List Written :=
  nodes.map fun p => ⟨pos.lnum, pos.offs + p.offs, p.len, p.sqnum, p.node⟩

/-- Only the buffer was allocated. -/
structure Alloced (alloc : Nat) (s s' : Jnl) : Prop where
  head : s'.head = s.head
  buds : s'.buds = s.buds
  maxSqnum : s'.maxSqnum = s.maxSqnum
  cmtNo : s'.cmtNo = s.cmtNo
  delCmtno : s'.delCmtno = s.delCmtno
  flash : s'.flash = s.flash
  tnc : s'.tnc = s.tnc
  group : s'.group = { Group.empty with alloc }

/-- The head is at `pos`: where it was, or at the start of a new bud. -/
def Placed (c : JnlInfo) (h : JHead) (len : Nat) (pos : HeadPos) (s s' : Jnl) : Prop :=
  pos.offs + len ≤ c.lebSize ∧ (s.head h = some pos ∧ s'.buds = s.buds ∨
    s.isFree pos = true ∧ s'.buds = s.buds ++ [⟨pos.lnum, pos.offs⟩])

/-- The number of the running commit is noted for a deleted inode. -/
def delCmtnoAfter (s : Jnl) : Option Nat → Nat → Nat
  | none => s.delCmtno
  | some inum => Function.update s.delCmtno inum s.cmtNo

/-- Room is reserved at `pos`, and the nodes of the group are in the buffer. -/
structure Drafted (c : JnlInfo) (h : JHead) (alloc len : Nat) (pos : HeadPos) (drafts : List Draft)
    (deleted : Option Nat) (s s' : Jnl) : Prop where
  placed : Placed c h len pos s s'
  head : s'.head = Function.update s.head h (some pos)
  maxSqnum : s'.maxSqnum = s.maxSqnum + drafts.length
  cmtNo : s'.cmtNo = s.cmtNo
  delCmtno : s'.delCmtno = delCmtnoAfter s deleted
  flash : s'.flash = s.flash
  tnc : s'.tnc = s.tnc
  group : s'.group = { Group.empty with alloc, reserved := len, nodes := number s.maxSqnum drafts }

/-- The group is written, and the index has the updates. -/
structure Wrote (c : JnlInfo) (h : JHead) (alloc len : Nat) (pos : HeadPos) (drafts : List Draft)
    (deleted : Option Nat) (updates : List TncUpdate) (s s' : Jnl) : Prop where
  placed : Placed c h len pos s s'
  head : s'.head = Function.update s.head h
    (some ⟨pos.lnum, pos.offs + align len 8, Nat.dvd_add pos.aligned dvd_align⟩)
  maxSqnum : s'.maxSqnum = s.maxSqnum + drafts.length
  cmtNo : s'.cmtNo = s.cmtNo
  delCmtno : s'.delCmtno = delCmtnoAfter s deleted
  flash : s'.flash = Function.update s.flash pos.lnum
    (s.flash pos.lnum ++ place pos (number s.maxSqnum drafts))
  tnc : s'.tnc = updates.foldl (fun t u => t.update s'.flash u) s.tnc
  group : s'.group =
    ⟨alloc, len, number s.maxSqnum drafts, ⟨pos.lnum, pos.offs, len⟩, updates⟩

section Stages

variable {c : JnlInfo} {h : JHead} {alloc len : Nat} {pos : HeadPos} {drafts : List Draft}
  {deleted : Option Nat} {updates : List TncUpdate} {s s' : Jnl}

/-- The buffer of the group is allocated. -/
theorem kmalloc_spec (s : Jnl) (alloc : Nat) :
    Returns (kmalloc alloc) (fun _ s' => Alloced alloc s s') s := by
  refine Returns.bind (Q := fun _ s₁ => s₁ = { s with calls := s.calls + 1 })
    (Returns.mayFail rfl) fun _ s₁ hs₁ => ?_
  rw [hs₁]
  exact ⟨rfl, rfl, rfl, rfl, rfl, rfl, rfl, rfl⟩

/-- Calls that fail later do not change that. -/
theorem Alloced.called (ha : Alloced alloc s s') (n : Nat) :
    Alloced alloc s { s' with calls := n } :=
  ⟨ha.head, ha.buds, ha.maxSqnum, ha.cmtNo, ha.delCmtno, ha.flash, ha.tnc, ha.group⟩

/-- Whether a place is free is told by buds and flash. -/
theorem Jnl.isFree_congr {pos : HeadPos} (hb : s'.buds = s.buds) (hf : s'.flash = s.flash) :
    s'.isFree pos = s.isFree pos := by
  unfold Jnl.isFree
  rw [hb, hf]

/-- Space is reserved at a place where nothing was written; nothing of the group is there yet. -/
theorem makeReservation_spec (ha : Alloced alloc s s') :
    Returns (makeReservation c h len)
      (fun _ s'' => ∃ pos, Drafted c h alloc len pos [] none s s'') s' := by
  refine Returns.bind (Q := fun _ s₁ => Alloced alloc s s₁) (Returns.mayFail (ha.called _))
    fun _ s₁ ha => ?_
  unfold Returns
  simp only [wp_bind, wp_modifyState, wp_getState, wp_ite, wp_pure, wp_stop, implies_true, and_true]
  refine ⟨fun hroom => ?_, fun _ hfree => ?_⟩
  · have hroom : s₁.hasRoom c h len = true := hroom
    unfold Jnl.hasRoom at hroom
    rw [ha.head] at hroom
    cases hh : s.head h with
    | none => rw [hh] at hroom; cases hroom
    | some pos =>
      rw [hh] at hroom
      refine ⟨pos, ⟨of_decide_eq_true hroom, .inl ⟨hh, ha.buds⟩⟩, ?_, ha.maxSqnum, ha.cmtNo,
        ha.delCmtno, ha.flash, ha.tnc, ?_⟩
      · show s₁.head = _
        rw [ha.head, ← hh, Function.update_eq_self]
      · show ({ s₁.group with reserved := len } : Group) = _
        rw [ha.group]
        rfl
  · obtain ⟨hle, hfree⟩ := hfree
    refine ⟨_, ⟨hle, .inr ⟨?_, ?_⟩⟩, ?_, ha.maxSqnum, ha.cmtNo, ha.delCmtno, ha.flash, ha.tnc, ?_⟩
    · rw [← Jnl.isFree_congr ha.buds ha.flash]
      exact hfree
    · show s₁.buds ++ _ = _
      rw [ha.buds]
    · show Function.update s₁.head h _ = _
      rw [ha.head]
    · show ({ s₁.group with reserved := len } : Group) = _
      rw [ha.group]
      rfl

/-- A node is put into the buffer. -/
theorem prepNode_spec (hd : Drafted c h alloc len pos drafts deleted s s') (offs l : Nat)
    (node : Node) : Returns (prepNode offs l node)
      (fun _ s'' => Drafted c h alloc len pos (drafts ++ [⟨offs, l, node⟩]) deleted s s'') s' := by
  refine ⟨hd.placed, hd.head, ?_, hd.cmtNo, hd.delCmtno, hd.flash, hd.tnc, ?_⟩
  · show s'.maxSqnum + 1 = _
    rw [hd.maxSqnum, List.length_append]
    rfl
  · show ({ s'.group with nodes := s'.group.nodes ++ [⟨offs, l, s'.maxSqnum + 1, node⟩] } : Group) = _
    rw [hd.group, hd.maxSqnum, number_concat]

/-- The data that `pack_inode` attaches. -/
def attached (inode : Inode) : Nat := if inode.nlink = 0 then 0 else inode.dataLen

/-- The draft of `pack_inode`. -/
def inodeDraft (offs : Nat) (inode : Inode) : Draft :=
  ⟨offs, ubifsInoNodeSz + attached inode, .ino inode.ino inode.nlink inode.uiSize⟩

/-- So is an inode. -/
theorem packInode_spec (hd : Drafted c h alloc len pos drafts deleted s s') (offs : Nat)
    (inode : Inode) : Returns (packInode offs inode)
      (fun _ s'' => Drafted c h alloc len pos (drafts ++ [inodeDraft offs inode]) deleted s s'') s' :=
  prepNode_spec hd ..

/-- Calls that fail later do not change what is in the buffer. -/
theorem Drafted.called (hd : Drafted c h alloc len pos drafts deleted s s') (n : Nat) :
    Drafted c h alloc len pos drafts deleted s { s' with calls := n } :=
  ⟨hd.placed, hd.head, hd.maxSqnum, hd.cmtNo, hd.delCmtno, hd.flash, hd.tnc, hd.group⟩

/-- The inode is an orphan from now on. -/
theorem addOrphan_spec (hd : Drafted c h alloc len pos drafts none s s') (inum : Nat) :
    Returns (ubifsAddOrphan inum)
      (fun _ s'' => Drafted c h alloc len pos drafts (some inum) s s'') s' := by
  refine Returns.bind (Q := fun _ s₁ => Drafted c h alloc len pos drafts none s s₁)
    (Returns.mayFail (hd.called _)) fun _ s₁ hd₁ => ?_
  refine ⟨hd₁.placed, hd₁.head, hd₁.maxSqnum, hd₁.cmtNo, ?_, hd₁.flash, hd₁.tnc, hd₁.group⟩
  show Function.update s₁.delCmtno inum s₁.cmtNo = Function.update s.delCmtno inum s.cmtNo
  rw [hd₁.delCmtno, hd₁.cmtNo]
  rfl

/-- The buffer is written at the reserved place. -/
theorem writeHead_spec (hd : Drafted c h alloc len pos drafts deleted s s') :
    Returns (writeHead h len) (fun r s'' => r = (pos.lnum, pos.offs) ∧
      Wrote c h alloc len pos drafts deleted [] s s'') s' := by
  unfold writeHead
  show wp _ _ _ _ _ _
  rw [wp_bind, wp_getState, hd.head, Function.update_self]
  refine Returns.bind (Q := fun _ s₁ => Drafted c h alloc len pos drafts deleted s s₁)
    (Returns.mayFail (hd.called _)) fun _ s₁ hd₁ => ?_
  refine ⟨rfl, hd₁.placed, ?_, hd₁.maxSqnum, hd₁.cmtNo, hd₁.delCmtno, ?_, hd₁.tnc, ?_⟩
  · show Function.update s₁.head h _ = _
    rw [hd₁.head, Function.update_idem]
  · show Function.update s₁.flash pos.lnum _ = _
    rw [hd₁.flash, hd₁.group]
    rfl
  · show ({ s₁.group with pos := ⟨pos.lnum, pos.offs, len⟩ } : Group) = _
    rw [hd₁.group]
    rfl

/-- Nor what was written. -/
theorem Wrote.called (hw : Wrote c h alloc len pos drafts deleted updates s s') (n : Nat) :
    Wrote c h alloc len pos drafts deleted updates s { s' with calls := n } :=
  ⟨hw.placed, hw.head, hw.maxSqnum, hw.cmtNo, hw.delCmtno, hw.flash, hw.tnc, hw.group⟩

/-- The index is updated once the group is on the media. -/
theorem tncUpdate_spec (hw : Wrote c h alloc len pos drafts deleted updates s s') (u : TncUpdate) :
    Returns (tncUpdate u)
      (fun _ s'' => Wrote c h alloc len pos drafts deleted (updates ++ [u]) s s'') s' := by
  refine Returns.bind (Q := fun _ s₁ => Wrote c h alloc len pos drafts deleted updates s s₁)
    (Returns.mayFail (hw.called _)) fun _ s₁ hw₁ => ?_
  refine ⟨hw₁.placed, hw₁.head, hw₁.maxSqnum, hw₁.cmtNo, hw₁.delCmtno, hw₁.flash, ?_, ?_⟩
  · show s₁.tnc.update s₁.flash u = List.foldl (fun t u => t.update s₁.flash u) s.tnc (updates ++ [u])
    rw [List.foldl_append, ← hw₁.tnc]
    rfl
  · show ({ s₁.group with updates := s₁.group.updates ++ [u] } : Group) = _
    rw [hw₁.group]

/-- What has become dirty is not part of the group. -/
theorem addDirt_spec (hw : Wrote c h alloc len pos drafts deleted updates s s') :
    Returns ubifsAddDirt (fun _ s'' => Wrote c h alloc len pos drafts deleted updates s s'') s' :=
  Returns.mayFail (hw.called _)

end Stages

end Ubifs
