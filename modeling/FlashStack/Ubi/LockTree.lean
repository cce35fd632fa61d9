/-
  The lock tree (`eba.c`): a read-write lock for each LEB that is in use.

  An entry is made by the first task that locks the LEB, and freed by the last one that is done with it.
  While a task waits for the mutex it has a pointer to the entry; to unlock, it looks the LEB up again.  Any
  number of tasks do this: what is done under `ltree_lock` is one step, and taking the mutex is another one.
  To follow a pointer to what has been freed, or to give a mutex back that is not held, is `Outcome.wild`,
  and so is an assertion that fails.
-/
import Mathlib

namespace Ubi.Eba

/-- `vol_id` and `lnum` -/
abbrev LebId := Int × Int

/-- `struct rw_semaphore` -/
structure RwSem where
  readers : Nat
  writer : Bool
deriving DecidableEq

/-- `struct ubi_ltree_entry` -/
structure LtreeEntry where
  leb : LebId
  users : Int
  mutex : RwSem
deriving DecidableEq

/-- Where a task is; `le` is its pointer to the entry. -/
inductive Task
  | idle
  | downRead (leb : LebId) (le : Nat)
  | downWrite (leb : LebId) (le : Nat)
  | downWriteTrylock (leb : LebId) (le : Nat)
  | contention (leb : LebId) (le : Nat)
  | reading (leb : LebId)
  | writing (leb : LebId)
deriving DecidableEq

/-- The lock tree, the entries that are allocated, and what each task is doing. -/
structure Locks where
  ltree : LebId → Option Nat
  heap : Nat → Option LtreeEntry
  tasks : List Task

/-- A step of a task may have to wait, follow a bad pointer, or be done. -/
inductive Outcome
  | blocked
  | wild
  | done (s : Locks)

/-- `leb_read_lock`, `leb_write_lock` and `leb_write_trylock`, up to the mutex. -/
inductive LockKind
  | read
  | write
  | trylock

/-- How a task goes on when it has its entry. -/
def LockKind.next : LockKind → LebId → Nat → Task
  | .read => .downRead
  | .write => .downWrite
  | .trylock => .downWriteTrylock

/-- What task `i` does. -/
inductive LockAct
  | lock (i : Nat) (kind : LockKind) (leb : LebId) (kmalloc : Option Nat)
  | down (i : Nat)
  | unlock (i : Nat)

namespace Locks

variable (s : Locks) (i : Nat)

/-- `ltree_lookup`: the entry of a LEB, if there is one. -/
def ltreeLookup (leb : LebId) : Option Nat := s.ltree leb

/-- Task `i` goes on. -/
def setTask (t : Task) : Locks := { s with tasks := s.tasks.set i t }

/-- The entry at address `le` changes. -/
def setEntry (le : Nat) (e : LtreeEntry) : Locks := { s with heap := Function.update s.heap le (some e) }

/-- `rb_erase` and `kfree` -/
def eraseEntry (le : Nat) (e : LtreeEntry) : Locks :=
  { s with ltree := Function.update s.ltree e.leb none, heap := Function.update s.heap le none }

/-- `ltree_add_entry`; `le` is what `kmalloc` has returned, which is freed again if it is not needed. -/
def ltreeAddEntry (kind : LockKind) (leb : LebId) (le : Nat) : Outcome :=
  match s.ltreeLookup leb with
  | some le1 =>
    match s.heap le1 with
    | none => .wild
    | some e => .done ((s.setEntry le1 { e with users := e.users + 1 }).setTask i (kind.next leb le1))
  | none =>
    let s : Locks := { s with ltree := Function.update s.ltree leb (some le) }
    .done ((s.setEntry le ⟨leb, 1, ⟨0, false⟩⟩).setTask i (kind.next leb le))

/-- The user goes, with `mutex` as it leaves it. -/
def putEntry (le : Nat) (e : LtreeEntry) (mutex : RwSem) : Outcome :=
  let users := e.users - 1
  if users < 0 then .wild
  else if users = 0 then .done ((s.eraseEntry le e).setTask i .idle)
  else .done ((s.setEntry le { e with users, mutex }).setTask i .idle)

/-- The end of the lock functions; `t` is where the task is. -/
def down : Task → Outcome
  | .downRead leb le =>
    match s.heap le with
    | none => .wild
    | some e =>
      if e.mutex.writer then .blocked
      else .done ((s.setEntry le { e with mutex := ⟨e.mutex.readers + 1, false⟩ }).setTask i (.reading leb))
  | .downWrite leb le =>
    match s.heap le with
    | none => .wild
    | some e =>
      if e.mutex = ⟨0, false⟩ then
        .done ((s.setEntry le { e with mutex := ⟨0, true⟩ }).setTask i (.writing leb))
      else .blocked
  | .downWriteTrylock leb le =>
    match s.heap le with
    | none => .wild
    | some e =>
      if e.mutex = ⟨0, false⟩ then
        .done ((s.setEntry le { e with mutex := ⟨0, true⟩ }).setTask i (.writing leb))
      else .done (s.setTask i (.contention leb le))
  | .contention _ le =>
    match s.heap le with
    | none => .wild
    | some e => s.putEntry i le e e.mutex
  | .idle => .blocked
  | .reading _ => .blocked
  | .writing _ => .blocked

/-- `leb_read_unlock` and `leb_write_unlock` -/
def unlock : Task → Outcome
  | .reading leb =>
    match s.ltreeLookup leb with
    | none => .wild
    | some le =>
      match s.heap le with
      | none => .wild
      | some e =>
        if e.mutex.readers = 0 then .wild
        else s.putEntry i le e { e.mutex with readers := e.mutex.readers - 1 }
  | .writing leb =>
    match s.ltreeLookup leb with
    | none => .wild
    | some le =>
      match s.heap le with
      | none => .wild
      | some e => if e.mutex.writer then s.putEntry i le e { e.mutex with writer := false } else .wild
  | .idle => .blocked
  | .downRead _ _ => .blocked
  | .downWrite _ _ => .blocked
  | .downWriteTrylock _ _ => .blocked
  | .contention _ _ => .blocked

/-- `kmalloc` returns nothing that is in use. -/
def lockStep : LockAct → Outcome
  | .lock i kind leb kmalloc =>
    if s.tasks[i]? = some .idle then
      match kmalloc with
      | none => .done s
      | some le => if (s.heap le).isSome then .blocked else s.ltreeAddEntry i kind leb le
    else .blocked
  | .down i =>
    match s.tasks[i]? with
    | none => .blocked
    | some t => s.down i t
  | .unlock i =>
    match s.tasks[i]? with
    | none => .blocked
    | some t => s.unlock i t

end Locks

/-- What happens from when nothing is locked, the last of it first; `blocked` if something cannot happen. -/
def runLocks (n : Nat) : List LockAct → Outcome
  | [] => .done ⟨fun _ => none, fun _ => none, List.replicate n .idle⟩
  | act :: acts =>
    match runLocks n acts with
    | .done s => s.lockStep act
    | .blocked => .blocked
    | .wild => .wild

/-! ## The invariant -/

namespace Task

/-- The LEB that the task has an entry of. -/
def leb? : Task → Option LebId
  | idle => none
  | downRead leb _ => some leb
  | downWrite leb _ => some leb
  | downWriteTrylock leb _ => some leb
  | contention leb _ => some leb
  | reading leb => some leb
  | writing leb => some leb

/-- Its pointer to the entry. -/
def le? : Task → Option Nat
  | idle => none
  | downRead _ le => some le
  | downWrite _ le => some le
  | downWriteTrylock _ le => some le
  | contention _ le => some le
  | reading _ => none
  | writing _ => none

/-- The task has counted itself as a user of the entry of a LEB. -/
def uses (leb : LebId) (t : Task) : Bool := decide (t.leb? = some leb)

/-- The task holds the lock of a LEB for reading. -/
def reads (leb : LebId) (t : Task) : Bool := decide (t = reading leb)

/-- The task holds the lock of a LEB for writing. -/
def writes (leb : LebId) (t : Task) : Bool := decide (t = writing leb)

end Task

/-- An entry counts the tasks that use it, and those that have its mutex. -/
structure LtreeEntry.Counts (e : LtreeEntry) (leb : LebId) (tasks : List Task) : Prop where
  same : e.leb = leb
  pos : 0 < e.users
  users : e.users = tasks.countP (Task.uses leb)
  readers : e.mutex.readers = tasks.countP (Task.reads leb)
  writer : e.mutex.writer.toNat = tasks.countP (Task.writes leb)
  excl : e.mutex.writer = true → e.mutex.readers = 0

/-- Each entry counts its users and holders, and every pointer that a task has is to the entry of
    its LEB. -/
structure Locks.Inv (s : Locks) : Prop where
  entry : ∀ leb le, s.ltree leb = some le → ∃ e, s.heap le = some e ∧ e.Counts leb s.tasks
  unused : ∀ leb, s.ltree leb = none → s.tasks.countP (Task.uses leb) = 0
  pointer : ∀ t ∈ s.tasks, ∀ le, t.le? = some le → ∃ leb, t.leb? = some leb ∧ s.ltree leb = some le
  heap : ∀ le e, s.heap le = some e → s.ltree e.leb = some le

section

variable {s : Locks} {i le : Nat} {leb : LebId} {t t' : Task} {e e' : LtreeEntry}

/-- One task goes on: each count changes by what this task is and was. -/
theorem countP_set_add {tasks : List Task} (hi : tasks[i]? = some t) (t' : Task) (p : Task → Bool) :
    (tasks.set i t').countP p + (p t).toNat = tasks.countP p + (p t').toNat := by
  obtain ⟨hlt, rfl⟩ := List.getElem?_eq_some_iff.mp hi
  have hle := List.boole_getElem_le_countP (p := p) hlt
  rw [List.countP_set hlt]
  cases hp : p tasks[i] <;> cases p t' <;> rw [hp] at hle <;>
    simp only [if_true, Bool.false_eq_true, if_false, Bool.toNat_true, Bool.toNat_false] at hle ⊢ <;> omega

/-- A task that uses a LEB does not use another. -/
theorem uses_of_ne {leb' : LebId} (h : ∀ l, t.leb? = some l → l = leb) (hne : leb' ≠ leb) :
    Task.uses leb' t = false ∧ Task.reads leb' t = false ∧ Task.writes leb' t = false := by
  have huses : t.leb? ≠ some leb' := fun heq => hne (h leb' heq)
  refine ⟨decide_eq_false huses, decide_eq_false ?_, decide_eq_false ?_⟩
  · rintro rfl
    exact huses rfl
  · rintro rfl
    exact huses rfl

/-- For another LEB nothing changes. -/
theorem counts_other {tasks : List Task} (hi : tasks[i]? = some t) (ht : ∀ l, t.leb? = some l → l = leb)
    (ht' : ∀ l, t'.leb? = some l → l = leb) {leb' : LebId} (hne : leb' ≠ leb) :
    (tasks.set i t').countP (Task.uses leb') = tasks.countP (Task.uses leb') ∧
      (tasks.set i t').countP (Task.reads leb') = tasks.countP (Task.reads leb') ∧
      (tasks.set i t').countP (Task.writes leb') = tasks.countP (Task.writes leb') := by
  obtain ⟨hu, hr, hw⟩ := uses_of_ne ht hne
  obtain ⟨hu', hr', hw'⟩ := uses_of_ne ht' hne
  have h₁ := countP_set_add hi t' (Task.uses leb')
  have h₂ := countP_set_add hi t' (Task.reads leb')
  have h₃ := countP_set_add hi t' (Task.writes leb')
  rw [hu, hu'] at h₁
  rw [hr, hr'] at h₂
  rw [hw, hw'] at h₃
  exact ⟨Nat.add_right_cancel h₁, Nat.add_right_cancel h₂, Nat.add_right_cancel h₃⟩

/-- So the counts of another LEB stay right when the task goes on. -/
theorem LtreeEntry.Counts.other {tasks : List Task} {leb' : LebId} (h : e.Counts leb' tasks)
    (hi : tasks[i]? = some t) (ht : ∀ l, t.leb? = some l → l = leb)
    (ht' : ∀ l, t'.leb? = some l → l = leb) (hne : leb' ≠ leb) : e.Counts leb' (tasks.set i t') := by
  obtain ⟨hu, hr, hw⟩ := counts_other hi ht ht' hne
  refine ⟨h.same, h.pos, ?_, ?_, ?_, h.excl⟩
  · rw [hu]
    exact h.users
  · rw [hr]
    exact h.readers
  · rw [hw]
    exact h.writer

/-- No two LEBs have the same entry. -/
theorem Locks.Inv.leb_unique {leb' : LebId} (h : s.Inv) (hat : s.ltree leb = some le)
    (hat' : s.ltree leb' = some le) : leb' = leb := by
  obtain ⟨e, heap, he⟩ := h.entry leb le hat
  obtain ⟨e', heap', he'⟩ := h.entry leb' le hat'
  obtain rfl : e' = e := Option.some.inj (heap'.symm.trans heap)
  exact he'.same.symm.trans he.same

/-- The entry of an LEB is there, and is changed or new. -/
theorem Locks.Inv.set (h : s.Inv) (hi : s.tasks[i]? = some t) (ht : ∀ l, t.leb? = some l → l = leb)
    (ht' : ∀ l, t'.leb? = some l → l = leb) (hle : ∀ le', t'.le? = some le' → le' = le ∧ t'.leb? = some leb)
    (hat : s.ltree leb = some le ∨ s.ltree leb = none ∧ s.heap le = none)
    (he : e'.Counts leb (s.tasks.set i t')) :
    Locks.Inv ⟨Function.update s.ltree leb (some le), Function.update s.heap le (some e'), s.tasks.set i t'⟩ := by
  -- no other LEB has this entry
  have hother : ∀ leb' le', leb' ≠ leb → s.ltree leb' = some le' → le' ≠ le := by
    rintro leb' le' hne htree rfl
    rcases hat with hat | ⟨-, hfree⟩
    · exact hne (h.leb_unique hat htree)
    · obtain ⟨e, heap, -⟩ := h.entry leb' le' htree
      rw [hfree] at heap
      cases heap
  refine ⟨fun leb' le' htree => ?_, fun leb' htree => ?_, fun t₁ hmem le₁ hptr => ?_, fun le' e heap => ?_⟩
  · dsimp only at htree ⊢
    by_cases hne : leb' = leb
    · subst hne
      rw [Function.update_self] at htree
      cases htree
      exact ⟨e', Function.update_self .., he⟩
    · rw [Function.update_of_ne hne] at htree
      obtain ⟨e, heap, hcounts⟩ := h.entry leb' le' htree
      refine ⟨e, ?_, hcounts.other hi ht ht' hne⟩
      exact (Function.update_of_ne (hother leb' le' hne htree) ..).trans heap
  · dsimp only at htree ⊢
    by_cases hne : leb' = leb
    · subst hne
      rw [Function.update_self] at htree
      cases htree
    · rw [Function.update_of_ne hne] at htree
      exact (counts_other hi ht ht' hne).1.trans (h.unused leb' htree)
  · dsimp only at hmem ⊢
    rcases List.mem_or_eq_of_mem_set hmem with hmem | rfl
    · obtain ⟨leb₁, hleb, htree⟩ := h.pointer t₁ hmem le₁ hptr
      refine ⟨leb₁, hleb, ?_⟩
      by_cases hne : leb₁ = leb
      · subst hne
        rcases hat with hat | ⟨hat, -⟩
        · rw [Function.update_self, ← hat]
          exact htree
        · rw [hat] at htree
          cases htree
      · exact (Function.update_of_ne hne ..).trans htree
    · obtain ⟨rfl, hleb⟩ := hle le₁ hptr
      exact ⟨leb, hleb, Function.update_self ..⟩
  · dsimp only at heap ⊢
    by_cases hne : le' = le
    · subst hne
      rw [Function.update_self] at heap
      cases heap
      rw [he.same]
      exact Function.update_self ..
    · rw [Function.update_of_ne hne] at heap
      have htree := h.heap le' e heap
      refine (Function.update_of_ne ?_ ..).trans htree
      intro hleb
      rcases hat with hat | ⟨hat, -⟩
      · rw [hleb, hat] at htree
        exact hne (Option.some.inj htree).symm
      · rw [hleb, hat] at htree
        cases htree

/-- The last user of an entry goes. -/
theorem Locks.Inv.erase (h : s.Inv) (hi : s.tasks[i]? = some t) (ht : ∀ l, t.leb? = some l → l = leb)
    (hat : s.ltree leb = some le) (hzero : (s.tasks.set i .idle).countP (Task.uses leb) = 0) :
    Locks.Inv ⟨Function.update s.ltree leb none, Function.update s.heap le none, s.tasks.set i .idle⟩ := by
  have ht' : ∀ l, Task.idle.leb? = some l → l = leb := fun l hl => by cases hl
  refine ⟨fun leb' le' htree => ?_, fun leb' htree => ?_, fun t₁ hmem le₁ hptr => ?_, fun le' e heap => ?_⟩
  · dsimp only at htree ⊢
    by_cases hne : leb' = leb
    · subst hne
      rw [Function.update_self] at htree
      cases htree
    · rw [Function.update_of_ne hne] at htree
      obtain ⟨e, heap, hcounts⟩ := h.entry leb' le' htree
      refine ⟨e, (Function.update_of_ne ?_ ..).trans heap, hcounts.other hi ht ht' hne⟩
      rintro rfl
      exact hne (h.leb_unique hat htree)
  · dsimp only at htree ⊢
    by_cases hne : leb' = leb
    · subst hne
      exact hzero
    · rw [Function.update_of_ne hne] at htree
      exact (counts_other hi ht ht' hne).1.trans (h.unused leb' htree)
  · dsimp only at hmem ⊢
    have huses : Task.uses leb t₁ = false := by
      by_contra hu
      exact List.countP_pos_iff.mpr ⟨t₁, hmem, Bool.eq_true_of_not_eq_false hu⟩ |>.ne' hzero
    rcases List.mem_or_eq_of_mem_set hmem with hmem | rfl
    · obtain ⟨leb₁, hleb, htree⟩ := h.pointer t₁ hmem le₁ hptr
      refine ⟨leb₁, hleb, (Function.update_of_ne ?_ ..).trans htree⟩
      rintro rfl
      exact of_decide_eq_false huses hleb
    · cases hptr
  · dsimp only at heap ⊢
    by_cases hne : le' = le
    · subst hne
      rw [Function.update_self] at heap
      cases heap
    · rw [Function.update_of_ne hne] at heap
      have htree := h.heap le' e heap
      refine (Function.update_of_ne ?_ ..).trans htree
      intro hleb
      rw [hleb, hat] at htree
      exact hne (Option.some.inj htree).symm

/-! ## The steps -/

/-- The entry is changed as the task is. -/
theorem LtreeEntry.Counts.step {tasks : List Task} (h : e.Counts leb tasks) (hi : tasks[i]? = some t)
    (hsame : e'.leb = e.leb) (hpos : 0 < e'.users)
    (husers : e'.users + (Task.uses leb t).toNat = e.users + (Task.uses leb t').toNat)
    (hreaders : e'.mutex.readers + (Task.reads leb t).toNat = e.mutex.readers + (Task.reads leb t').toNat)
    (hwriter : e'.mutex.writer.toNat + (Task.writes leb t).toNat =
      e.mutex.writer.toNat + (Task.writes leb t').toNat)
    (hexcl : e'.mutex.writer = true → e'.mutex.readers = 0) : e'.Counts leb (tasks.set i t') := by
  have hu := countP_set_add hi t' (Task.uses leb)
  have hr := countP_set_add hi t' (Task.reads leb)
  have hw := countP_set_add hi t' (Task.writes leb)
  have hu' := h.users
  have hr' := h.readers
  have hw' := h.writer
  exact ⟨hsame.trans h.same, hpos, by omega, by omega, by omega, hexcl⟩

/-- One entry changes along with one task. -/
theorem Locks.Inv.change (h : s.Inv) (hi : s.tasks[i]? = some t) (hleb : t.leb? = none ∨ t.leb? = some leb)
    (hleb' : t'.leb? = some leb ∨ t' = .idle) (hle : ∀ le', t'.le? = some le' → le' = le)
    (hat : s.ltree leb = some le) (he : e'.Counts leb (s.tasks.set i t')) :
    ((s.setEntry le e').setTask i t').Inv := by
  have hset : Locks.Inv
      ⟨Function.update s.ltree leb (some le), Function.update s.heap le (some e'), s.tasks.set i t'⟩ := by
    refine h.set hi (fun l hl => ?_) (fun l hl => ?_) (fun le' hptr => ?_) (.inl hat) he
    · rcases hleb with hleb | hleb
      · rw [hleb] at hl
        cases hl
      · exact Option.some.inj (hl.symm.trans hleb)
    · rcases hleb' with hleb' | rfl
      · exact Option.some.inj (hl.symm.trans hleb')
      · cases hl
    · rcases hleb' with hleb' | rfl
      · exact ⟨hle le' hptr, hleb'⟩
      · cases hptr
  rwa [Function.update_eq_self_iff.mpr hat.symm] at hset

/-- What comes of it has `P`. -/
def Outcome.Fine (P : Locks → Prop) : Outcome → Prop
  | .blocked => True
  | .wild => False
  | .done s => P s

/-- A task that starts to lock uses the entry, and does not hold it. -/
theorem uses_leb (kind : LockKind) (leb : LebId) (le : Nat) :
    (kind.next leb le).leb? = some leb ∧ (kind.next leb le).le? = some le ∧
    Task.uses leb (kind.next leb le) = true ∧ Task.reads leb (kind.next leb le) = false ∧
    Task.writes leb (kind.next leb le) = false := by
  cases kind <;> simp [LockKind.next, Task.leb?, Task.le?, Task.uses, Task.reads, Task.writes]

/-- Who holds the lock uses the entry. -/
theorem reads_le (leb : LebId) (tasks : List Task) :
    tasks.countP (Task.reads leb) ≤ tasks.countP (Task.uses leb) ∧
      tasks.countP (Task.writes leb) ≤ tasks.countP (Task.uses leb) := by
  constructor
  · refine List.countP_mono_left fun t _ h => ?_
    rw [of_decide_eq_true h]
    exact decide_eq_true rfl
  · refine List.countP_mono_left fun t _ h => ?_
    rw [of_decide_eq_true h]
    exact decide_eq_true rfl

/-- An entry is found or added. -/
theorem Locks.Inv.addEntry {kind : LockKind} (h : s.Inv) (hi : s.tasks[i]? = some .idle)
    (hfree : s.heap le = none) : (s.ltreeAddEntry i kind leb le).Fine Locks.Inv := by
  unfold Locks.ltreeAddEntry Locks.ltreeLookup
  cases htree : s.ltree leb with
  | some le1 =>
    obtain ⟨e, heap, hcounts⟩ := h.entry leb le1 htree
    obtain ⟨hleb, hle, hu, hr, hw⟩ := uses_leb kind leb le1
    have hpos := hcounts.pos
    dsimp only
    rw [heap]
    refine h.change hi (.inl rfl) (.inl hleb) (fun le' hptr => ?_) htree (hcounts.step hi rfl ?_ ?_ ?_ ?_ ?_)
    · exact Option.some.inj (hptr.symm.trans hle)
    · show 0 < e.users + 1
      omega
    · rw [hu]
      simp [Task.uses, Task.leb?]
    · rw [hr]
      rfl
    · rw [hw]
      rfl
    · exact hcounts.excl
  | none =>
    obtain ⟨hleb, hle, hu, hr, hw⟩ := uses_leb kind leb le
    have hzero := h.unused leb htree
    obtain ⟨hreads, hwrites⟩ := reads_le leb s.tasks
    have hu' := countP_set_add hi (kind.next leb le) (Task.uses leb)
    have hr' := countP_set_add hi (kind.next leb le) (Task.reads leb)
    have hw' := countP_set_add hi (kind.next leb le) (Task.writes leb)
    have hidle : Task.uses leb .idle = false ∧ Task.reads leb .idle = false ∧ Task.writes leb .idle = false :=
      ⟨rfl, rfl, rfl⟩
    rw [hu, hidle.1, Bool.toNat_false, Bool.toNat_true] at hu'
    rw [hr, hidle.2.1, Bool.toNat_false] at hr'
    rw [hw, hidle.2.2, Bool.toNat_false] at hw'
    refine h.set hi (fun l hl => ?_) (fun l hl => ?_) (fun le' hptr => ?_) (.inr ⟨htree, hfree⟩)
      ⟨rfl, Int.one_pos, ?_, ?_, ?_, fun hwriter => ?_⟩
    · cases hl
    · exact Option.some.inj (hl.symm.trans hleb)
    · exact ⟨Option.some.inj (hptr.symm.trans hle), hleb⟩
    · show (1 : Int) = _
      omega
    · show 0 = _
      omega
    · show 0 = _
      omega
    · cases hwriter

/-- A user of the entry goes; `mutex` is what is left without it. -/
theorem Locks.Inv.putEntry {mutex : RwSem} (h : s.Inv) (hi : s.tasks[i]? = some t) (hleb : t.leb? = some leb)
    (hat : s.ltree leb = some le) (he : e.Counts leb s.tasks)
    (hreaders : mutex.readers + (Task.reads leb t).toNat = e.mutex.readers)
    (hwriter : mutex.writer.toNat + (Task.writes leb t).toNat = e.mutex.writer.toNat)
    (hexcl : mutex.writer = true → mutex.readers = 0) : (s.putEntry i le e mutex).Fine Locks.Inv := by
  have huses : Task.uses leb t = true := decide_eq_true hleb
  have hpos := he.pos
  unfold Locks.putEntry
  dsimp only
  rw [if_neg (by omega)]
  by_cases hlast : e.users - 1 = 0
  · rw [if_pos hlast]
    have hcount := countP_set_add hi .idle (Task.uses leb)
    have hu := he.users
    rw [huses, show Task.uses leb .idle = false from rfl, Bool.toNat_false, Bool.toNat_true] at hcount
    have herase := h.erase hi (fun l hl => Option.some.inj (hl.symm.trans hleb)) hat (by omega)
    rw [← he.same] at herase
    exact herase
  · rw [if_neg hlast]
    refine h.change hi (.inr hleb) (.inr rfl) (fun le' hptr => ?_) hat (he.step hi rfl ?_ ?_ ?_ ?_ hexcl)
    · cases hptr
    · show 0 < e.users - 1
      omega
    · rw [huses]
      show e.users - 1 + 1 = e.users + 0
      omega
    · exact hreaders
    · exact hwriter

/-- A task that waits gets the mutex for writing. -/
theorem Locks.Inv.write (h : s.Inv) (hi : s.tasks[i]? = some t) (hleb : t.leb? = some leb)
    (hreads : t ≠ .reading leb) (hwrites : t ≠ .writing leb) (hat : s.ltree leb = some le)
    (he : e.Counts leb s.tasks) (hfree : e.mutex = ⟨0, false⟩) :
    ((s.setEntry le { e with mutex := ⟨0, true⟩ }).setTask i (.writing leb)).Inv := by
  refine h.change hi (.inr hleb) (.inl rfl) (fun le' hptr => by cases hptr) hat (he.step hi rfl he.pos ?_ ?_ ?_ ?_)
  · rw [show Task.uses leb t = true from decide_eq_true hleb,
      show Task.uses leb (.writing leb) = true from decide_eq_true rfl]
  · simp [Task.reads, hfree, hreads]
  · simp [Task.writes, hfree, hwrites]
  · exact fun _ => rfl

/-- A task gets the lock, or waits. -/
theorem Locks.Inv.down (h : s.Inv) (hi : s.tasks[i]? = some t) : (s.down i t).Fine Locks.Inv := by
  have hmem := List.mem_of_getElem? hi
  -- the entry that the task has a pointer to
  have hentry : ∀ leb le, t.leb? = some leb → t.le? = some le →
      s.ltree leb = some le ∧ ∃ e, s.heap le = some e ∧ e.Counts leb s.tasks := by
    intro leb le hleb hptr
    obtain ⟨leb', hleb', htree⟩ := h.pointer t hmem le hptr
    obtain rfl : leb' = leb := Option.some.inj (hleb'.symm.trans hleb)
    exact ⟨htree, h.entry leb' le htree⟩
  cases t with
  | idle => trivial
  | reading leb => trivial
  | writing leb => trivial
  | downRead leb le =>
    obtain ⟨hat, e, heap, he⟩ := hentry leb le rfl rfl
    unfold Locks.down
    dsimp only
    rw [heap]
    dsimp only
    cases hw : e.mutex.writer with
    | true => trivial
    | false =>
      rw [if_neg Bool.false_ne_true]
      refine h.change hi (.inr rfl) (.inl rfl) (fun le' hptr => by cases hptr) hat (he.step hi rfl he.pos ?_ ?_ ?_ ?_)
      · simp [Task.uses, Task.leb?]
      · simp [Task.reads]
      · simp [Task.writes, hw]
      · exact fun hwriter => by cases hwriter
  | downWrite leb le =>
    obtain ⟨hat, e, heap, he⟩ := hentry leb le rfl rfl
    unfold Locks.down
    dsimp only
    rw [heap]
    dsimp only
    by_cases hfree : e.mutex = ⟨0, false⟩
    · rw [if_pos hfree]
      exact h.write hi rfl nofun nofun hat he hfree
    · rw [if_neg hfree]
      trivial
  | downWriteTrylock leb le =>
    obtain ⟨hat, e, heap, he⟩ := hentry leb le rfl rfl
    unfold Locks.down
    dsimp only
    rw [heap]
    dsimp only
    by_cases hfree : e.mutex = ⟨0, false⟩
    · rw [if_pos hfree]
      exact h.write hi rfl nofun nofun hat he hfree
    · rw [if_neg hfree]
      have hchange : ((s.setEntry le e).setTask i (.contention leb le)).Inv := by
        refine h.change hi (.inr rfl) (.inl rfl) (fun le' hptr => (Option.some.inj hptr).symm) hat
          (he.step hi rfl he.pos ?_ ?_ ?_ he.excl)
        · simp [Task.uses, Task.leb?]
        · simp [Task.reads]
        · simp [Task.writes]
      unfold Locks.setEntry at hchange
      rwa [Function.update_eq_self_iff.mpr heap.symm] at hchange
  | contention leb le =>
    obtain ⟨hat, e, heap, he⟩ := hentry leb le rfl rfl
    unfold Locks.down
    dsimp only
    rw [heap]
    exact h.putEntry hi rfl hat he rfl rfl he.excl

/-- A task gives the lock back, and the last one frees the entry. -/
theorem Locks.Inv.unlock (h : s.Inv) (hi : s.tasks[i]? = some t) : (s.unlock i t).Fine Locks.Inv := by
  have hmem := List.mem_of_getElem? hi
  -- the LEB is in the tree, since the task uses it
  have hentry : ∀ leb, t.leb? = some leb → ∃ le, s.ltree leb = some le ∧
      ∃ e, s.heap le = some e ∧ e.Counts leb s.tasks := by
    intro leb hleb
    cases htree : s.ltree leb with
    | none =>
      have hpos := List.countP_pos_iff (p := Task.uses leb) |>.mpr ⟨t, hmem, decide_eq_true hleb⟩
      exact absurd (h.unused leb htree) hpos.ne'
    | some le => exact ⟨le, rfl, h.entry leb le htree⟩
  cases t with
  | idle => trivial
  | downRead leb le => trivial
  | downWrite leb le => trivial
  | downWriteTrylock leb le => trivial
  | contention leb le => trivial
  | reading leb =>
    obtain ⟨le, hat, e, heap, he⟩ := hentry leb rfl
    have hpos : 0 < s.tasks.countP (Task.reads leb) := List.countP_pos_iff.mpr ⟨_, hmem, decide_eq_true rfl⟩
    have hreaders := he.readers
    unfold Locks.unlock Locks.ltreeLookup
    dsimp only
    rw [hat]
    dsimp only
    rw [heap]
    dsimp only
    rw [if_neg (by omega)]
    refine h.putEntry hi rfl hat he ?_ rfl fun hwriter => ?_
    · rw [show Task.reads leb (.reading leb) = true from decide_eq_true rfl]
      show e.mutex.readers - 1 + 1 = e.mutex.readers
      omega
    · have := he.excl hwriter
      omega
  | writing leb =>
    obtain ⟨le, hat, e, heap, he⟩ := hentry leb rfl
    have hpos : 0 < s.tasks.countP (Task.writes leb) := List.countP_pos_iff.mpr ⟨_, hmem, decide_eq_true rfl⟩
    have hwriter : e.mutex.writer = true := by
      have := he.writer
      cases hw : e.mutex.writer with
      | true => rfl
      | false =>
        rw [hw, Bool.toNat_false] at this
        omega
    unfold Locks.unlock Locks.ltreeLookup
    dsimp only
    rw [hat]
    dsimp only
    rw [heap]
    dsimp only
    rw [if_pos hwriter]
    refine h.putEntry hi rfl hat he rfl ?_ fun hno => by cases hno
    rw [show Task.writes leb (.writing leb) = true from decide_eq_true rfl, hwriter]
    rfl

/-- Any of these steps, by any task. -/
theorem Locks.Inv.lockStep (h : s.Inv) (act : LockAct) : (s.lockStep act).Fine Locks.Inv := by
  unfold Locks.lockStep
  cases act with
  | lock i kind leb kmalloc =>
    dsimp only
    by_cases hi : s.tasks[i]? = some .idle
    · rw [if_pos hi]
      cases kmalloc with
      | none => exact h
      | some le =>
        dsimp only
        cases hfree : s.heap le with
        | none => exact h.addEntry hi hfree
        | some e => trivial
    · rw [if_neg hi]
      trivial
  | down i =>
    dsimp only
    cases hi : s.tasks[i]? with
    | none => trivial
    | some t => exact h.down hi
  | unlock i =>
    dsimp only
    cases hi : s.tasks[i]? with
    | none => trivial
    | some t => exact h.unlock hi

/-- So the invariant holds after every run. -/
theorem runLocks_inv (n : Nat) (acts : List LockAct) : (runLocks n acts).Fine Locks.Inv := by
  induction acts with
  | nil =>
    refine ⟨fun leb le htree => ?_, fun leb _ => ?_, fun t hmem le hptr => ?_, fun le e heap => ?_⟩
    · cases htree
    · exact List.countP_eq_zero.mpr fun t hmem => by simp [List.eq_of_mem_replicate hmem, Task.uses, Task.leb?]
    · rw [List.eq_of_mem_replicate hmem] at hptr
      cases hptr
    · cases heap
  | cons act acts ih =>
    unfold runLocks
    cases hrun : runLocks n acts with
    | blocked => trivial
    | wild =>
      rw [hrun] at ih
      exact ih.elim
    | done s =>
      rw [hrun] at ih
      exact ih.lockStep act

/-- What the locks are for. -/
structure Locks.Safe (s : Locks) : Prop where
  exclusive : ∀ (i j : Nat) leb, i ≠ j → s.tasks[i]? = some (Task.writing leb) →
    s.tasks[j]? ≠ some (Task.writing leb) ∧ s.tasks[j]? ≠ some (Task.reading leb)
  inUse : ∀ leb, s.ltree leb ≠ none ↔ ∃ t ∈ s.tasks, t.leb? = some leb
  kept : ∀ le e, s.heap le = some e → s.ltree e.leb = some le
  waits : ∀ (i : Nat) leb le, s.tasks[i]? = some (Task.downRead leb le) ∨ s.tasks[i]? = some (Task.downWrite leb le) →
    s.lockStep (.down i) = .blocked → Task.reading leb ∈ s.tasks ∨ Task.writing leb ∈ s.tasks

/-- Two tasks that write would be counted twice. -/
theorem Locks.Inv.exclusive (h : s.Inv) {j : Nat} (hne : i ≠ j) (hi : s.tasks[i]? = some (Task.writing leb)) :
    s.tasks[j]? ≠ some (Task.writing leb) ∧ s.tasks[j]? ≠ some (Task.reading leb) := by
  have huses := List.countP_pos_iff (p := Task.uses leb) |>.mpr ⟨_, List.mem_of_getElem? hi, decide_eq_true rfl⟩
  obtain ⟨le, hat⟩ := Option.ne_none_iff_exists'.mp fun hnone => huses.ne' (h.unused leb hnone)
  obtain ⟨e, -, he⟩ := h.entry leb le hat
  -- without task `i`
  have hw := countP_set_add hi .idle (Task.writes leb)
  rw [show Task.writes leb (.writing leb) = true from decide_eq_true rfl,
    show Task.writes leb .idle = false from rfl, Bool.toNat_true, Bool.toNat_false] at hw
  have hwriter := he.writer
  have hle := Bool.toNat_le e.mutex.writer
  constructor
  · intro hj
    have hj' : Task.writing leb ∈ s.tasks.set i .idle :=
      List.mem_of_getElem? ((List.getElem?_set_ne hne).trans hj)
    have := List.countP_pos_iff (p := Task.writes leb) |>.mpr ⟨_, hj', decide_eq_true rfl⟩
    omega
  · intro hj
    have := List.countP_pos_iff (p := Task.reads leb) |>.mpr ⟨_, List.mem_of_getElem? hj, decide_eq_true rfl⟩
    have hreaders := he.readers
    have hexcl := he.excl (by
      cases hwr : e.mutex.writer with
      | true => rfl
      | false =>
        rw [hwr, Bool.toNat_false] at hwriter
        omega)
    omega

/-- A mutex that is not free is held by a task. -/
theorem LtreeEntry.Counts.holder (he : e.Counts leb s.tasks) (hbusy : e.mutex ≠ ⟨0, false⟩) :
    Task.reading leb ∈ s.tasks ∨ Task.writing leb ∈ s.tasks := by
  cases hw : e.mutex.writer with
  | true =>
    have hwriter := he.writer
    rw [hw, Bool.toNat_true] at hwriter
    obtain ⟨t, hmem, ht⟩ := List.countP_pos_iff.mp (Nat.lt_of_lt_of_eq Nat.one_pos hwriter)
    rw [of_decide_eq_true ht] at hmem
    exact .inr hmem
  | false =>
    have hreaders : e.mutex.readers ≠ 0 := by
      intro hzero
      apply hbusy
      rw [← hzero, ← hw]
    rw [he.readers] at hreaders
    obtain ⟨t, hmem, ht⟩ := List.countP_pos_iff.mp (Nat.pos_of_ne_zero hreaders)
    rw [of_decide_eq_true ht] at hmem
    exact .inl hmem

theorem Locks.Inv.safe (h : s.Inv) : s.Safe := by
  refine ⟨fun i j leb hne hi => h.exclusive hne hi, fun leb => ⟨fun htree => ?_, ?_⟩, h.heap, ?_⟩
  · obtain ⟨le, hat⟩ := Option.ne_none_iff_exists'.mp htree
    obtain ⟨e, -, he⟩ := h.entry leb le hat
    have hpos := he.pos
    have hu := he.users
    obtain ⟨t, hmem, ht⟩ := List.countP_pos_iff (p := Task.uses leb) (l := s.tasks) |>.mp (by omega)
    exact ⟨t, hmem, of_decide_eq_true ht⟩
  · rintro ⟨t, hmem, ht⟩ hnone
    exact (List.countP_pos_iff (p := Task.uses leb) |>.mpr ⟨t, hmem, decide_eq_true ht⟩).ne' (h.unused leb hnone)
  · intro i leb le hi hblocked
    have hpointer : ∀ t, s.tasks[i]? = some t → t.leb? = some leb → t.le? = some le →
        ∃ e, s.heap le = some e ∧ e.Counts leb s.tasks := by
      intro t hi hleb hptr
      obtain ⟨leb', hleb', htree⟩ := h.pointer t (List.mem_of_getElem? hi) le hptr
      obtain rfl : leb' = leb := Option.some.inj (hleb'.symm.trans hleb)
      exact h.entry leb' le htree
    unfold Locks.lockStep at hblocked
    rcases hi with hi | hi
    · obtain ⟨e, heap, he⟩ := hpointer _ hi rfl rfl
      refine he.holder fun hfree => ?_
      simp [hi, Locks.down, heap, hfree] at hblocked
    · obtain ⟨e, heap, he⟩ := hpointer _ hi rfl rfl
      refine he.holder fun hfree => ?_
      simp [hi, Locks.down, heap, hfree] at hblocked

end

/-- **The lock tree is sound**, in whatever order the tasks go on: no entry is used after it was freed, an
    LEB that is written is used by no one else, entries are freed when no one uses them, and a task only
    waits for one that has the mutex. -/
theorem lock_tree_sound (n : Nat) (acts : List LockAct) : (runLocks n acts).Fine Locks.Safe := by
  have h := runLocks_inv n acts
  cases hrun : runLocks n acts with
  | blocked => trivial
  | wild =>
    rw [hrun] at h
    exact h
  | done s =>
    rw [hrun] at h
    exact h.safe

/-- The writer waits until the reader is done, and then goes on with the entry that the reader has made. -/
example : runLocks 2 [.down 1, .down 0, .lock 1 .write (0, 5) (some 1), .lock 0 .read (0, 5) (some 0)] = .blocked :=
  rfl

example : ∃ s, runLocks 2 [.down 1, .unlock 0, .down 0, .lock 1 .write (0, 5) (some 1),
    .lock 0 .read (0, 5) (some 0)] = .done s ∧ s.tasks = [.idle, .writing (0, 5)] ∧
      s.heap 0 = some ⟨(0, 5), 1, ⟨0, true⟩⟩ :=
  ⟨_, rfl, rfl, rfl⟩

end Ubi.Eba
