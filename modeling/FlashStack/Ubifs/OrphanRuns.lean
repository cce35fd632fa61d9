/-
  Orphans that are added and deleted at any point of a commit.

  A run is any sequence of additions, deletions and steps of the committer.  The lists stay what they
  are meant to be (`Sound`) as long as `ubifs_delete_orphan` is not called again for the orphan that
  was put aside first: the test for that is whether `dnext` is set, and there it is not.

  `Tidy` keeps which list is which.  The steps of the committer and the mount do not add to the
  lists but by the functions that are shown to keep them (`Tidy.makeNode`, `Lists.insertDeads`).
-/
import FlashStack.Ubifs.OrphanLists

namespace Ubifs.Orphans

open Lib

/-- The lists of orphans and their counters. -/
structure Sound (s : State) : Prop where
  /-- the chain of the commit: the orphans that are still to be written -/
  commit : ∃ l q, Linked (cnextIn s.mem) s.orphCnext l q ∧ l.Nodup ∧ s.cmtOrphans = l.length ∧
    ∀ a, a ∈ l ↔ ∃ o, s.mem a = some o ∧ o.cnext.isSome = true
  /-- what was put aside ends, and is not freed -/
  delayed : ∃ l, Linked (dnextIn s.mem) s.orphDnext l none ∧ ∀ a ∈ l, ∃ o, s.mem a = some o
  /-- no orphan was freed twice -/
  freed : s.freed.Nodup ∧ ∀ a ∈ s.freed, s.mem a = none
  tree : s.orphTree.Nodup ∧ ∀ a, a ∈ s.orphTree ↔ ∃ o, s.mem a = some o
  /-- none that was added, and not deleted, is lost -/
  owed : ∀ i ∈ s.owed, ∃ a ∈ s.orphTree, inumIn s.mem a = some i
  totOrphans : s.totOrphans = s.orphTree.length
  newOrphans : s.newOrphans = s.orphTree.countP fun a => (s.mem a).any (·.new)
  /-- no pointer to a freed orphan was followed, and every loop ended -/
  fault : s.fault = false

/-- `ubifs_delete_orphan` is not called again for the orphan that was put aside first; and the number
    of an inode that was put aside is not used again. -/
def Event.Ok (s : State) : Event → Prop
  | .add _ inum => ∀ a ∈ s.delayed, inumIn s.mem a ≠ some inum
  | .delete inum => ∀ a ∈ s.delayed.getLast?, inumIn s.mem a ≠ some inum
  | _ => True

instance decidableOk (s : State) (e : Event) : Decidable (e.Ok s) :=
  match e with
  | .add .. => inferInstanceAs (Decidable (∀ a ∈ _, _))
  | .delete _ => inferInstanceAs (Decidable (∀ a ∈ _, _))
  | .commit _ | .crash | .mount _ => inferInstanceAs (Decidable True)

/-! ## The invariant -/

/-- In these states nothing is left of the chain. -/
def Pc.Idle : Pc → Prop
  | .resting | .clearing _ | .erasing | .ended => True
  | _ => False

/-- No inode that is owed was put aside. -/
def Owed (s : State) (D : List Nat) : Prop := ∀ i ∈ s.owed, ∃ a, inumIn s.mem a = some i ∧ a ∉ D

/-- The orphans that go into the next node. -/
def State.nodeCnt (g : Geometry) (s : State) : Nat :=
  min ((g.lebSize - s.oheadOffs - ubifsOrphNodeSz) / 8) s.cmtOrphans.toNat

/-- The lists are in order in every state of a run, and nobody is on a commit list while no commit
    runs. -/
def Tidy (s : State) : Prop :=
  ∃ C D, Lists s.toMemory C D ∧ Owed s D ∧ (s.pc.Idle → C = [])

section Invariant

variable {g : Geometry} {s s' : State} {C D : List Nat}

/-- The inode number of an orphan. -/
theorem inumIn_some {mem : Nat → Option Orphan} {a i : Nat} :
    inumIn mem a = some i ↔ ∃ o, mem a = some o ∧ o.inum = i := by
  unfold inumIn
  rw [Option.map_eq_some_iff]

/-- Lists that are in order lead through allocated memory only. -/
theorem Tidy.sound (h : Tidy s) : Sound s := by
  obtain ⟨C, D, hl, howed, -⟩ := h
  refine
    { commit := ?_, delayed := ⟨D, hl.delayed, fun a ha => (hl.alive a).mp (hl.delayedOld a ha).1⟩
      freed := ⟨hl.freedNodup, fun a ha => ?_⟩, tree := ⟨hl.nodup, hl.alive⟩, owed := ?_
      totOrphans := hl.totOrphans, newOrphans := ?_, fault := hl.fault }
  · obtain ⟨q, hq⟩ := hl.commit
    exact ⟨C, q, hq, hl.commitNodup, hl.cmtOrphans, hl.commitOnly⟩
  · have hn := ((hl.freed a).mp ha).2
    cases ho : s.mem a with
    | none => rfl
    | some o => exact absurd ((hl.alive a).mpr ⟨o, ho⟩) hn
  · intro i hi
    obtain ⟨a, ha, -⟩ := howed i hi
    obtain ⟨o, ho, -⟩ := inumIn_some.mp ha
    exact ⟨a, (hl.alive a).mpr ⟨o, ho⟩, ha⟩
  · have hperm : (s.orphTree.filter fun a => (s.mem a).any (·.new)).Perm s.orphNew := by
      refine (List.perm_ext_iff_of_nodup (hl.nodup.filter _) hl.newNodup).mpr fun a => ?_
      rw [List.mem_filter, hl.alive a, hl.new a]
      constructor
      · rintro ⟨⟨o, ho⟩, hn⟩
        rw [ho] at hn
        exact ⟨o, ho, hn⟩
      · rintro ⟨o, ho, hn⟩
        rw [ho]
        exact ⟨⟨o, rfl⟩, hn⟩
    rw [List.countP_eq_length_filter, hperm.length_eq]
    exact hl.newOrphans

/-- Steps that leave memory alone. -/
theorem Tidy.same (h : Tidy s) (hm : s'.toMemory = s.toMemory) (ho : s'.owed = s.owed)
    (hpc : s'.pc.Idle → s.pc.Idle ∨ s.cmtOrphans = 0) : Tidy s' := by
  obtain ⟨C, D, hl, howed, hidle⟩ := h
  refine ⟨C, D, hm ▸ hl, ?_, fun hi => ?_⟩
  · unfold Owed
    rw [ho, hm]
    exact howed
  · rcases hpc hi with hp | hz
    · exact hidle hp
    · have := hl.cmtOrphans
      exact List.length_eq_zero_iff.mp (by omega)

/-- What is owed after an inode was added. -/
theorem Owed.add {alloc : Bool} {inum : Nat} {m : Memory} (h : Owed s D) (hl : Lists s.toMemory C D)
    (hok : ∀ a ∈ s.delayed, inumIn s.mem a ≠ some inum)
    (hadd : s.ubifsAddOrphan g alloc inum = .ok m) :
    ∀ i ∈ inum :: s.owed, ∃ a, inumIn m.mem a = some i ∧ a ∉ D := by
  obtain ⟨-, hsame, a, hnew⟩ := hl.add hadd
  intro i hi
  rcases List.mem_cons.mp hi with rfl | hi
  · rcases hnew with ⟨hf, rfl⟩ | ⟨rfl, hin⟩
    · obtain ⟨-, o, ho, hio⟩ := hl.find_some hf
      have hin : inumIn s.mem a = some i := inumIn_some.mpr ⟨o, ho, hio⟩
      exact ⟨a, hin, fun hD => hok a (by rwa [hl.delayed_eq]) hin⟩
    · refine ⟨s.brk, hin, fun hD => ?_⟩
      exact absurd (hl.lt _ (hl.delayedOld _ hD).1) (Nat.lt_irrefl _)
  · obtain ⟨b, hb, hD⟩ := h i hi
    obtain ⟨o, ho, -⟩ := inumIn_some.mp hb
    refine ⟨b, ?_, hD⟩
    show inumIn m.mem b = some i
    unfold inumIn
    rw [hsame b ((hl.alive b).mpr ⟨o, ho⟩)]
    exact hb

/-- What is owed after an inode was deleted: other orphans. -/
theorem Owed.delete {inum : Nat} (h : Owed s D) (hl : Lists s.toMemory C D) :
    ∀ i ∈ s.owed.filter (· ≠ inum), ∃ a, inumIn s.mem a = some i ∧ a ∉ D ∧ s.find inum ≠ some a := by
  intro i hi
  obtain ⟨hi, hne⟩ := List.mem_filter.mp hi
  have hne : i ≠ inum := of_decide_eq_true hne
  obtain ⟨b, hb, hD⟩ := h i hi
  refine ⟨b, hb, hD, fun hf => ?_⟩
  obtain ⟨-, o, ho, hio⟩ := hl.find_some hf
  obtain ⟨o', ho', hio'⟩ := inumIn_some.mp hb
  rw [ho] at ho'
  cases ho'
  exact hne (hio'.symm.trans hio)

/-- An orphan is added. -/
theorem Tidy.add {alloc : Bool} {inum : Nat} (h : Tidy s) (hok : (Event.add alloc inum).Ok s)
    (hs : s.step g (.add alloc inum) = some s') : Tidy s' := by
  obtain ⟨C, D, hl, howed, hidle⟩ := h
  unfold State.step at hs
  dsimp only at hs
  split at hs
  · cases hs
  cases hadd : s.ubifsAddOrphan g alloc inum with
  | error e =>
    rw [hadd] at hs
    cases hs
    exact ⟨C, D, hl, howed, hidle⟩
  | ok m =>
    rw [hadd] at hs
    cases hs
    exact ⟨C, D, (hl.add hadd).1, howed.add hl hok hadd, hidle⟩

/-- An orphan is deleted, or marked. -/
theorem Tidy.delete {inum : Nat} (h : Tidy s) (hok : (Event.delete inum).Ok s)
    (hs : s.step g (.delete inum) = some s') : Tidy s' := by
  obtain ⟨C, D, hl, howed, hidle⟩ := h
  unfold State.step at hs
  dsimp only at hs
  split at hs
  · cases hs
  cases hs
  have hagain : ∀ a, s.find inum = some a → D.getLast? ≠ some a := by
    intro a hf hlast
    obtain ⟨-, o, ho, hi⟩ := hl.find_some hf
    refine hok a ?_ (inumIn_some.mpr ⟨o, ho, hi⟩)
    rw [hl.delayed_eq]
    exact hlast
  obtain ⟨D', hl', hother⟩ := hl.delete hagain
  refine ⟨C, D', hl', ?_, hidle⟩
  intro i hi
  obtain ⟨b, hb, hD, hfb⟩ := howed.delete hl i hi
  obtain ⟨hmem, hD'⟩ := hother b hfb
  refine ⟨b, ?_, fun hc => hD (hD' hc)⟩
  show inumIn (s.ubifsDeleteOrphan inum).mem b = some i
  unfold inumIn
  rw [hmem]
  exact hb

/-- Memory after steps that keep the inode numbers and what was put aside. -/
theorem Tidy.relist (hl : Lists s'.toMemory C D) (howed : Owed s D) (ho : s'.owed = s.owed)
    (hin : inumIn s'.mem = inumIn s.mem) (hpc : ¬s'.pc.Idle) : Tidy s' := by
  refine ⟨C, D, hl, ?_, fun hi => absurd hi hpc⟩
  unfold Owed
  rw [ho, hin]
  exact howed

theorem makeNode_eq {atomic : Bool} {inos : List Nat} {q : Option Nat} {m : Memory}
    (h : s.takeOrphans (s.nodeCnt g) s.orphCnext = (inos, q, m)) :
    s.makeNode g atomic =
      { s with
        toMemory := { m with orphCnext := q, cmtOrphans := s.cmtOrphans - s.nodeCnt g }
        pc := .node atomic ⟨s.cmtNo, decide (s.cmtOrphans - s.nodeCnt g = 0), inos⟩ } := by
  unfold State.makeNode
  dsimp only
  change Memory.takeOrphans _ (min ((g.lebSize - s.oheadOffs - ubifsOrphNodeSz) / 8) s.cmtOrphans.toNat) _
    = _ at h
  rw [h]
  rfl

/-- The orphans of the next node are the first of the chain. -/
theorem Lists.takeNode (hl : Lists s.toMemory C D) :
    ∃ inos q mem, s.takeOrphans (s.nodeCnt g) s.orphCnext = (inos, q, { s.toMemory with mem := mem }) ∧
      Lists { s.toMemory with
        mem := mem
        orphCnext := q
        cmtOrphans := s.cmtOrphans - s.nodeCnt g } (C.drop (s.nodeCnt g)) D ∧
      inos.map some = (C.take (s.nodeCnt g)).map (inumIn s.mem) ∧ inumIn mem = inumIn s.mem := by
  have hcmt := hl.cmtOrphans
  have hcnt : s.nodeCnt g ≤ C.length := by
    have : s.nodeCnt g ≤ s.cmtOrphans.toNat := Nat.min_le_right ..
    omega
  have hlen : (C.take (s.nodeCnt g)).length = s.nodeCnt g := by
    rw [List.length_take]
    omega
  have hdrop : s.cmtOrphans - s.nodeCnt g = (C.drop (s.nodeCnt g)).length := by
    rw [List.length_drop, hcmt]
    omega
  have hsplit : Lists { s.toMemory with
      orphCnext := s.orphCnext
      cmtOrphans := (C.take (s.nodeCnt g) ++ C.drop (s.nodeCnt g)).length }
      (C.take (s.nodeCnt g) ++ C.drop (s.nodeCnt g)) D := by
    rw [List.take_append_drop, ← hcmt]
    exact hl
  have htake := hsplit.take
  rwa [hlen, ← hdrop] at htake

/-- A node is made of the first orphans of the list. -/
theorem Tidy.makeNode {atomic : Bool} (h : Tidy s) : Tidy (s.makeNode g atomic) := by
  obtain ⟨C, D, hl, howed, -⟩ := h
  obtain ⟨inos, q, mem, heq, hl', -, hin⟩ := hl.takeNode (g := g)
  rw [makeNode_eq heq]
  exact Tidy.relist hl' howed rfl hin id

theorem Tidy.writeOrphNode {atomic : Bool} (h : Tidy s) : Tidy (s.writeOrphNode g atomic) := by
  unfold State.writeOrphNode
  split
  · dsimp only
    split
    · exact h.same rfl rfl fun hi => hi.elim
    · have hmoved : Tidy { s with oheadLnum := s.oheadLnum + 1, oheadOffs := 0 } :=
        h.same rfl rfl fun hi => .inl hi
      exact hmoved.makeNode
  · exact h.makeNode

/-- All orphans are put on the list. -/
theorem Tidy.consolidate (h : Tidy s) : Tidy (s.consolidate g) := by
  obtain ⟨C, D, hl, howed, hidle⟩ := h
  unfold State.consolidate
  split
  · obtain ⟨hl', hin⟩ := hl.consolidate
    exact Tidy.relist hl' howed rfl hin id
  · exact Tidy.same ⟨C, D, hl, howed, hidle⟩ rfl rfl fun hi => hi.elim

/-- The flash is not the memory. -/
theorem flashOp_toMemory (lnum : Nat) (full part : Leb → Leb) (o : Outcome) :
    (s.flashOp lnum full part o).toMemory = s.toMemory ∧
      (s.flashOp lnum full part o).owed = s.owed := by
  unfold State.flashOp
  split <;> exact ⟨rfl, rfl⟩

theorem Outcome.not_idle {p : Pc} (hn : ¬p.Idle) (o : Outcome) : ¬(o.pc p).Idle := by
  cases o
  · exact hn
  · exact id
  · exact id

/-- A node is written. -/
theorem Tidy.writeNode {orph : OrphNode} {o : Outcome} (h : Tidy s) : Tidy (s.writeNode g orph o) := by
  obtain ⟨hm, ho⟩ := flashOp_toMemory (s := s) s.oheadLnum (.append orph) .touch o
  exact h.same hm ho fun hi => absurd hi (Outcome.not_idle id o)

/-- A LEB is unmapped first. -/
theorem Tidy.ensureUnmapped {orph : OrphNode} {o : Outcome} (h : Tidy s) :
    Tidy (s.ensureUnmapped g orph o) := by
  obtain ⟨hm, ho⟩ := flashOp_toMemory (s := s) s.oheadLnum .unmap id o
  unfold State.ensureUnmapped
  cases o with
  | ok => exact h.same hm ho fun hi => absurd hi id
  | error e => exact h.same hm ho fun hi => absurd hi id
  | cut e => exact h.same hm ho fun hi => absurd hi id

/-- A step of the committer. -/
theorem Tidy.commitStep {o : Outcome} (h : Tidy s) (hs : s.commitStep g o = some s') : Tidy s' := by
  unfold State.commitStep at hs
  split at hs
  · -- `ubifs_orphan_start_commit`
    obtain ⟨C, D, hl, howed, hidle⟩ := h
    have hpc : s.pc = .resting := ‹_›
    obtain rfl : C = [] := hidle (by rw [hpc]; trivial)
    cases hs
    obtain ⟨hl', hin⟩ := hl.start
    exact Tidy.relist hl' howed rfl hin id
  · cases hs
    split
    · unfold State.commitOrphans
      split
      · exact h.consolidate
      · exact h.same rfl rfl fun hi => hi.elim
    · exact h.same rfl rfl fun _ => .inr (not_not.mp ‹_›)
  · cases hs
    obtain ⟨C, D, hl, -, -⟩ := id h
    have hcmt := hl.cmtOrphans
    split
    · exact h.writeOrphNode
    · split
      · exact h.same rfl rfl fun _ => .inr (by omega)
      · exact h.same rfl rfl fun _ => .inr (by omega)
  · cases hs
    rename_i orph _
    obtain ⟨hm, ho⟩ := flashOp_toMemory (s := s) s.oheadLnum (.change orph) id o
    exact h.same hm ho fun hi => absurd hi (Outcome.not_idle id o)
  · rename_i orph _
    cases hs
    split
    · exact h.ensureUnmapped
    · exact h.writeNode
  · cases hs
    exact h.writeNode
  · rename_i lnum hpc
    have hidle : s.pc.Idle := by
      rw [hpc]
      trivial
    cases hs
    split
    · obtain ⟨hm, ho⟩ := flashOp_toMemory (s := s) lnum .unmap id o
      exact h.same hm ho fun _ => .inl hidle
    · exact h.same rfl rfl fun _ => .inl hidle
  · -- `erase_deleted`
    rename_i hpc
    obtain ⟨C, D, hl, howed, hidle⟩ := h
    obtain rfl : C = [] := hidle (by rw [hpc]; trivial)
    cases hs
    obtain ⟨hl', hother⟩ := hl.eraseDeleted
    refine ⟨[], [], hl', fun i hi => ?_, fun _ => rfl⟩
    obtain ⟨a, ha, hD⟩ := howed i hi
    refine ⟨a, ?_, List.not_mem_nil⟩
    show inumIn s.eraseDeleted.mem a = some i
    unfold inumIn
    rw [hother a hD]
    exact ha
  · rename_i hpc
    have hidle : s.pc.Idle := by
      rw [hpc]
      trivial
    split at hs <;> cases hs
    all_goals exact h.same rfl rfl fun _ => .inl hidle
  · cases hs
  · cases hs

/-! ## The mount -/

/-- A mount puts the orphans that it finds on the list. -/
theorem Lists.insertDeads {m : Memory} (inos : List Nat) (h : ∃ D, Lists m [] D) :
    ∃ D, Lists (inos.foldl Memory.insertDeadOrphan m) [] D := by
  induction inos generalizing m with
  | nil => exact h
  | cons i inos ih =>
    obtain ⟨D, hl⟩ := h
    exact ih hl.insertDead

/-- What `do_kill_orphans` makes of the state. -/
def State.Killed.All (P : State.Scan → Prop) : State.Killed → Prop
  | .done k => P k
  | .outOfDate k => P k
  | .einval => True

/-- What each node keeps, `do_kill_orphans` keeps. -/
theorem doKillOrphans_keeps {P : State.Scan → Prop}
    (hcmt : ∀ k n, P k → P { k with s := { k.s with cmtNo := n } })
    (hkill : ∀ k orph, P k → P (k.kill orph)) (nodes : List OrphNode) :
    ∀ (first : Bool) (k : State.Scan), P k → (State.doKillOrphans nodes first k).All P := by
  induction nodes with
  | nil => exact fun first k hk => hk
  | cons orph nodes ih =>
    intro first k hk
    unfold State.doKillOrphans
    dsimp only
    split
    · split
      · exact hcmt k _ hk
      · trivial
    · exact ih false _ (hkill _ orph (hcmt k _ hk))

/-- What a mount keeps from LEB to LEB. -/
theorem killFrom_keeps {P : State.Scan → Prop}
    (hcmt : ∀ k n, P k → P { k with s := { k.s with cmtNo := n } })
    (hkill : ∀ k orph, P k → P (k.kill orph))
    (hhead : ∀ k lnum offs, P k → P { k with s := { k.s with oheadLnum := lnum, oheadOffs := offs } })
    (n : Nat) :
    ∀ (lnum : Nat) (k : State.Scan), P k → ∀ k', State.killFrom g n lnum k = some k' → P k' := by
  induction n with
  | zero =>
    intro lnum k hk k' heq
    cases heq
    exact hk
  | succ n ih =>
    intro lnum k hk k' heq
    unfold State.killFrom at heq
    have hall := doKillOrphans_keeps hcmt hkill (k.s.area lnum).nodes true k hk
    split at heq
    · cases heq
    · rename_i k₁ hd
      cases heq
      rw [hd] at hall
      exact hall
    · rename_i k₁ hd
      rw [hd] at hall
      refine ih (lnum + 1) _ ?_ k' heq
      dsimp only
      split
      · exact hhead k₁ _ _ hall
      · exact hall

/-- A mount puts aside what it finds. -/
theorem tidy_mount : Tidy (s.ubifsMountOrphans g) := by
  have howed : ∀ {s₁ : State} {D : List Nat}, s₁.owed = [] → Owed s₁ D := by
    intro s₁ D ho i hi
    rw [ho] at hi
    cases hi
  unfold State.ubifsMountOrphans
  dsimp only
  split
  · exact ⟨[], [], lists_empty, howed rfl, fun _ => rfl⟩
  split
  · exact ⟨[], [], lists_empty, howed rfl, fun _ => rfl⟩
  · rename_i k hk
    obtain ⟨⟨D, hl⟩, ho⟩ := killFrom_keeps (g := g)
      (P := fun k => (∃ D, Lists k.s.toMemory [] D) ∧ k.s.owed = [])
      (fun k n h => h) (fun k orph h => ⟨Lists.insertDeads orph.inos h.1, h.2⟩) (fun k _ _ h => h)
      g.orphLebs g.orphFirst ⟨s.reset g, 0, false, []⟩ ⟨⟨[], lists_empty⟩, rfl⟩ k hk
    exact ⟨[], D, hl, howed ho, fun _ => rfl⟩

/-! ## Runs -/

/-- A new file system. -/
theorem tidy_initial (cmtNo : Nat) : Tidy (.initial g cmtNo) :=
  ⟨[], [], lists_empty, fun i hi => (by cases hi), fun _ => rfl⟩

/-- Any step. -/
theorem Tidy.step {e : Event} (h : Tidy s) (hok : e.Ok s) (hs : s.step g e = some s') : Tidy s' := by
  cases e with
  | add alloc inum => exact h.add hok hs
  | delete inum => exact h.delete hok hs
  | commit o => exact h.commitStep hs
  | crash =>
    cases hs
    exact h.same rfl rfl fun hi => hi.elim
  | mount back =>
    unfold State.step at hs
    dsimp only at hs
    split at hs
    · cases hs
      exact tidy_mount
    · cases hs

end Invariant

/-- **Orphans are kept track of** in every state that is reached without a second deletion of the
    orphan that was put aside first. -/
theorem orphans_sound {g : Geometry} {cmtNo : Nat} {s : State}
    (h : EventReach (State.step g) (fun s e => e.Ok s) (· = .initial g cmtNo) s) : Sound s := by
  apply Tidy.sound
  apply EventReach.invariant ?_ ?_ h
  · rintro s rfl
    exact tidy_initial cmtNo
  · exact fun s s' e ht hok hs => ht.step hok hs

/-! ## The second deletion -/

/-- One orphan LEB. -/
def oneLeb : Geometry := ⟨126976, 2048, 10, 1⟩

/-- An orphan that waits for the end of the commit is deleted again, and then is its own successor. -/
theorem orphans_not_sound :
    ∃ s, EventReach (State.step oneLeb) (fun _ _ => True) (· = .initial oneLeb 1) s ∧ ¬Sound s := by
  let run := runEvents (State.step oneLeb) (fun _ _ => True) (.initial oneLeb 1)
    [.add true 5, .commit .ok, .delete 5, .delete 5]
  have hrun : run.map (fun s => (s.orphDnext, dnextIn s.mem 0)) = some (some 0, some 0) := by
    decide +kernel
  obtain ⟨s, hs, heq⟩ := Option.map_eq_some_iff.mp hrun
  obtain ⟨hd, hn⟩ := Prod.mk.inj heq
  refine ⟨s, EventReach.run (.init rfl) hs, fun h => ?_⟩
  obtain ⟨l, hl, -⟩ := h.delayed
  rw [hd] at hl
  exact Linked.not_loop hn hl

/-- Two of three orphans are deleted while they are in the chain, the second of them twice, and a
    fourth one comes before the commit goes on. -/
theorem orphans_sound_commit :
    ∃ s, (s.pc, s.orphTree, s.freed) = (.resting, [2, 3], [0, 1]) ∧ Sound s := by
  let run := runEvents (State.step oneLeb) (fun s e => e.Ok s) (.initial oneLeb 1)
    ([.add true 5, .add true 6, .add true 7, .commit .ok, .delete 5, .delete 6, .delete 6,
      .add true 8] ++ List.replicate 7 (.commit .ok))
  have hrun : run.map (fun s => (s.pc, s.orphTree, s.freed)) = some (.resting, [2, 3], [0, 1]) := by
    decide +kernel
  obtain ⟨s, hs, heq⟩ := Option.map_eq_some_iff.mp hrun
  exact ⟨s, heq, orphans_sound (EventReach.run (.init rfl) hs)⟩

end Ubifs.Orphans
