/-
  The lists of orphans in memory.

  An orphan is in the chain of the commit if its `cnext` is set, and put aside if its `dnext` is set,
  except for the one that was put aside first, whose `dnext` is NULL.  As long as that one is not
  deleted a second time, the lists are what they are meant to be (`Lists`), whatever is added and
  deleted at any point of a commit.

  1. `Lists m C D`: the memory, with the chain `C` of the commit and the list `D` of what was put aside;
  2. adding and deleting;
  3. chaining up, taking from the chain, and erasing;
  4. runs.
-/
import FlashStack.Ubifs.Orphans
import FlashStack.Lib.Counting

namespace Ubifs.Orphans

open Lib

/-! ## The lists -/

/-- The fields of an orphan, if it is allocated. -/
def cnextIn (mem : Nat → Option Orphan) (a : Nat) : Option Nat := (mem a).bind (·.cnext)

def dnextIn (mem : Nat → Option Orphan) (a : Nat) : Option Nat := (mem a).bind (·.dnext)

def inumIn (mem : Nat → Option Orphan) (a : Nat) : Option Nat := (mem a).map (·.inum)

/-- The lists are linked through the orphans of the tree: `C` to be committed, `D` to be deleted. -/
structure Lists (m : Memory) (C D : List Nat) : Prop where
  alive : ∀ a, a ∈ m.orphTree ↔ ∃ o, m.mem a = some o
  lt : ∀ a ∈ m.orphTree, a < m.brk
  nodup : m.orphTree.Nodup
  inum : ∀ a b oa ob, m.mem a = some oa → m.mem b = some ob → oa.inum = ob.inum → a = b
  list : m.orphList.Perm m.orphTree
  newNodup : m.orphNew.Nodup
  new : ∀ a, a ∈ m.orphNew ↔ ∃ o, m.mem a = some o ∧ o.new = true
  commitNodup : C.Nodup
  commit : ∃ q, Linked (cnextIn m.mem) m.orphCnext C q
  commitOnly : ∀ a, a ∈ C ↔ ∃ o, m.mem a = some o ∧ o.cnext.isSome = true
  commitOld : ∀ a ∈ C, a ∉ m.orphNew
  delayedNodup : D.Nodup
  delayed : Linked (dnextIn m.mem) m.orphDnext D none
  delayedOnly : ∀ a o, m.mem a = some o → o.dnext.isSome = true → a ∈ D
  delayedOld : ∀ a ∈ D, a ∈ m.orphTree ∧ a ∉ m.orphNew
  totOrphans : m.totOrphans = m.orphTree.length
  newOrphans : m.newOrphans = m.orphNew.length
  cmtOrphans : m.cmtOrphans = C.length
  freedNodup : m.freed.Nodup
  freed : ∀ a, a ∈ m.freed ↔ a < m.brk ∧ a ∉ m.orphTree
  fault : m.fault = false

/-- There are no orphans. -/
theorem lists_empty : Lists .empty [] [] where
  alive := fun a => ⟨fun h => (by cases h), fun ⟨o, h⟩ => (by cases h)⟩
  lt := fun a h => by cases h
  nodup := List.nodup_nil
  inum := fun a b oa ob h => by cases h
  list := .nil
  newNodup := List.nodup_nil
  new := fun a => ⟨fun h => (by cases h), fun ⟨o, h, _⟩ => (by cases h)⟩
  commitNodup := List.nodup_nil
  commit := ⟨none, rfl⟩
  commitOnly := fun a => ⟨fun h => (by cases h), fun ⟨o, h, _⟩ => (by cases h)⟩
  commitOld := fun a h => by cases h
  delayedNodup := List.nodup_nil
  delayed := rfl
  delayedOnly := fun a o h => by cases h
  delayedOld := fun a h => by cases h
  totOrphans := rfl
  newOrphans := rfl
  cmtOrphans := rfl
  freedNodup := List.nodup_nil
  freed := fun a => ⟨fun h => (by cases h), fun h => absurd h.1 (Nat.not_lt_zero a)⟩
  fault := rfl

section Lists

variable {m : Memory} {C D : List Nat} {a : Nat} {o : Orphan}

theorem upd_eq {f : Orphan → Orphan} (h : m.mem a = some o) :
    m.upd a f = { m with mem := Function.update m.mem a (some (f o)) } := by
  unfold Memory.upd
  rw [h]

/-- The search in the rb-tree finds the orphan with the inode number. -/
theorem Lists.find_some {inum : Nat} (h : Lists m C D) (hf : m.find inum = some a) :
    a ∈ m.orphTree ∧ ∃ o, m.mem a = some o ∧ o.inum = inum := by
  have hmem := List.mem_of_find?_eq_some hf
  obtain ⟨o, ho⟩ := (h.alive a).mp hmem
  have hany := List.find?_some hf
  rw [ho] at hany
  exact ⟨hmem, o, ho, of_decide_eq_true hany⟩

/-- No orphan has that inode number. -/
theorem Lists.find_none {inum : Nat} (h : Lists m C D) (hf : m.find inum = none) (ho : m.mem a = some o) :
    o.inum ≠ inum := by
  intro hi
  have := List.find?_eq_none.mp hf a ((h.alive a).mpr ⟨o, ho⟩)
  rw [ho] at this
  exact this (decide_eq_true hi)

/-- The next address is free. -/
theorem Lists.brk_free (h : Lists m C D) : m.mem m.brk = none := by
  cases hb : m.mem m.brk with
  | none => rfl
  | some o => exact absurd (h.lt _ ((h.alive _).mpr ⟨o, hb⟩)) (Nat.lt_irrefl _)

theorem Lists.delayed_length (h : Lists m C D) : D.length ≤ m.brk := by
  have hsub : D ⊆ List.range m.brk := fun a ha =>
    List.mem_range.mpr (h.lt a (h.delayedOld a ha).1)
  have := (List.subperm_of_subset h.delayedNodup hsub).length_le
  rwa [List.length_range] at this

/-- What was put aside. -/
def Memory.delayed (m : Memory) : List Nat := Linked.walk (dnextIn m.mem) m.brk m.orphDnext

/-- The list of those that are to be deleted. -/
theorem Lists.delayed_eq (h : Lists m C D) : m.delayed = D := Linked.walk_eq h.delayed h.delayed_length

/-- Only the orphan that was put aside first has no `dnext`. -/
theorem Lists.dnext_none (h : Lists m C D) (ha : a ∈ D) (ho : m.mem a = some o) (hd : o.dnext = none) :
    D.getLast? = some a := by
  obtain ⟨l, b, rfl⟩ : ∃ l b, D = l ++ [b] := by
    rcases List.eq_nil_or_concat D with rfl | ⟨l, b, rfl⟩
    · cases ha
    · exact ⟨l, b, by simp⟩
  rcases List.mem_append.mp ha with hl | hb
  · have := Linked.next_isSome h.delayed hl
    rw [dnextIn, ho] at this
    rw [show (some o).bind (·.dnext) = o.dnext from rfl, hd] at this
    cases this
  · rw [List.mem_singleton.mp hb]
    simp

end Lists

/-! ## Adding and deleting -/

section Link

variable {m : Memory} {C D D' N : List Nat} {o : Orphan} {n : Int} {p : Option Nat}

/-- A new orphan, or one that the mount has found, which is put aside at once. -/
theorem Lists.link (h : Lists m C D) (hfresh : ∀ a oa, m.mem a = some oa → oa.inum ≠ o.inum)
    (hc : o.cnext = none)
    (hkind : (o.new = true ∧ o.dnext = none ∧ N = m.orphNew ++ [m.brk] ∧ n = m.newOrphans + 1 ∧
        p = m.orphDnext ∧ D' = D) ∨
      (o.new = false ∧ o.dnext = m.orphDnext ∧ N = m.orphNew ∧ n = m.newOrphans ∧ p = some m.brk ∧
        D' = m.brk :: D)) :
    Lists { m.link o with orphNew := N, newOrphans := n, orphDnext := p } C D' := by
  have hbrk := h.brk_free
  have htree : m.brk ∉ m.orphTree := fun hb => absurd (h.lt _ hb) (Nat.lt_irrefl _)
  have hnew : m.brk ∉ m.orphNew := fun hb => by
    obtain ⟨o, ho, -⟩ := (h.new _).mp hb
    rw [hbrk] at ho
    cases ho
  have hself : (m.link o).mem m.brk = some o := Function.update_self ..
  have hother : ∀ a, a ≠ m.brk → (m.link o).mem a = m.mem a := fun a ha => Function.update_of_ne ha ..
  have hne : ∀ a ∈ m.orphTree, a ≠ m.brk := fun a ha => by
    rintro rfl
    exact htree ha
  have hCtree : ∀ a ∈ C, a ∈ m.orphTree := fun a ha => by
    obtain ⟨o, ho, -⟩ := (h.commitOnly a).mp ha
    exact (h.alive a).mpr ⟨o, ho⟩
  have hN : ∀ a, a ≠ m.brk → (a ∈ N ↔ a ∈ m.orphNew) := by
    intro a ha
    rcases hkind with ⟨-, -, rfl, -⟩ | ⟨-, -, rfl, -⟩
    · simp [ha]
    · exact Iff.rfl
  have hlinked : Linked (dnextIn (m.link o).mem) m.orphDnext D none :=
    h.delayed.congr fun a ha => by
      unfold dnextIn
      rw [hother a (hne a (h.delayedOld a ha).1)]
  refine
    { alive := ?_, lt := ?_, nodup := ?_, inum := ?_, list := ?_, newNodup := ?_, new := ?_
      commitNodup := h.commitNodup, commit := ?_, commitOnly := ?_, commitOld := ?_
      delayedNodup := ?_, delayed := ?_, delayedOnly := ?_, delayedOld := ?_, totOrphans := ?_
      newOrphans := ?_, cmtOrphans := h.cmtOrphans, freedNodup := h.freedNodup, freed := ?_
      fault := h.fault }
  · -- alive: the address that was just given out comes to the tree and to the memory
    intro a
    show a ∈ m.orphTree ++ [m.brk] ↔ ∃ o', (m.link o).mem a = some o'
    by_cases ha : a = m.brk
    · simp [ha, hself]
    · rw [hother a ha]
      simp [ha, h.alive a]
  · intro a ha
    show a < m.brk + 1
    rcases List.mem_append.mp ha with ha | ha
    · have := h.lt a ha
      omega
    · rw [List.mem_singleton.mp ha]
      omega
  · exact List.nodup_append.mpr ⟨h.nodup, List.nodup_singleton _, fun a ha b hb => by
      rw [List.mem_singleton.mp hb]
      exact hne a ha⟩
  · -- inum: `hfresh` keeps the number of the new orphan apart from all others
    intro a b oa ob ha hb hi
    change (m.link o).mem a = some oa at ha
    change (m.link o).mem b = some ob at hb
    by_cases hab : a = m.brk
    · by_cases hbb : b = m.brk
      · rw [hab, hbb]
      · rw [hab, hself] at ha
        rw [hother b hbb] at hb
        cases ha
        exact absurd hi.symm (hfresh b ob hb)
    · rw [hother a hab] at ha
      by_cases hbb : b = m.brk
      · rw [hbb, hself] at hb
        cases hb
        exact absurd hi (hfresh a oa ha)
      · rw [hother b hbb] at hb
        exact h.inum a b oa ob ha hb hi
  · exact h.list.append_right _
  · show N.Nodup
    rcases hkind with ⟨-, -, rfl, -⟩ | ⟨-, -, rfl, -⟩
    · exact List.nodup_append.mpr ⟨h.newNodup, List.nodup_singleton _, fun a ha b hb => by
        rw [List.mem_singleton.mp hb]
        rintro rfl
        exact hnew ha⟩
    · exact h.newNodup
  · -- new: an orphan that the mount has found is not on the list of the new ones
    intro a
    show a ∈ N ↔ ∃ o', (m.link o).mem a = some o' ∧ o'.new = true
    by_cases ha : a = m.brk
    · rw [ha, hself]
      rcases hkind with ⟨ho, -, rfl, -⟩ | ⟨ho, -, rfl, -⟩
      · simp [ho]
      · simp [ho, hnew]
    · rw [hN a ha, hother a ha]
      exact h.new a
  · -- commit: the new orphan is not in the chain, so the chain is as before
    obtain ⟨q, hq⟩ := h.commit
    refine ⟨q, hq.congr fun a ha => ?_⟩
    show cnextIn (m.link o).mem a = cnextIn m.mem a
    unfold cnextIn
    rw [hother a (hne a (hCtree a ha))]
  · -- commitOnly: it has no `cnext`
    intro a
    show a ∈ C ↔ ∃ o', (m.link o).mem a = some o' ∧ o'.cnext.isSome = true
    by_cases ha : a = m.brk
    · rw [ha, hself]
      constructor
      · exact fun hC => absurd (hCtree _ hC) htree
      · rintro ⟨_, ho, hs⟩
        cases ho
        rw [hc] at hs
        cases hs
    · rw [hother a ha]
      exact h.commitOnly a
  · intro a ha
    show a ∉ N
    rw [hN a (hne a (hCtree a ha))]
    exact h.commitOld a ha
  · rcases hkind with ⟨-, -, -, -, -, rfl⟩ | ⟨-, -, -, -, -, rfl⟩
    · exact h.delayedNodup
    · exact List.nodup_cons.mpr ⟨fun hb => htree (h.delayedOld _ hb).1, h.delayedNodup⟩
  · -- delayed: the orphan is either not put aside, or comes before the first one
    show Linked (dnextIn (m.link o).mem) p D' none
    rcases hkind with ⟨-, -, -, -, rfl, rfl⟩ | ⟨-, hd, -, -, rfl, rfl⟩
    · exact hlinked
    · refine ⟨rfl, ?_⟩
      have : dnextIn (m.link o).mem m.brk = m.orphDnext := by
        unfold dnextIn
        rw [hself]
        exact hd
      rw [this]
      exact hlinked
  · intro a oa ha hd
    change (m.link o).mem a = some oa at ha
    by_cases hab : a = m.brk
    · rw [hab, hself] at ha
      cases ha
      rcases hkind with ⟨-, hn, -⟩ | ⟨-, -, -, -, -, rfl⟩
      · rw [hn] at hd
        cases hd
      · rw [hab]
        exact List.mem_cons_self ..
    · rw [hother a hab] at ha
      have hD := h.delayedOnly a oa ha hd
      rcases hkind with ⟨-, -, -, -, -, rfl⟩ | ⟨-, -, -, -, -, rfl⟩
      · exact hD
      · exact List.mem_cons_of_mem _ hD
  · -- delayedOld
    intro a ha
    show a ∈ m.orphTree ++ [m.brk] ∧ a ∉ N
    have hold : a ∈ D → a ∈ m.orphTree ++ [m.brk] ∧ a ∉ N := fun hD => by
      obtain ⟨ht, hn⟩ := h.delayedOld a hD
      exact ⟨List.mem_append_left _ ht, by rwa [hN a (hne a ht)]⟩
    rcases hkind with ⟨-, -, -, -, -, rfl⟩ | ⟨-, -, rfl, -, -, rfl⟩
    · exact hold ha
    · rcases List.mem_cons.mp ha with rfl | ha
      · exact ⟨by simp, hnew⟩
      · exact hold ha
  · show m.totOrphans + 1 = _
    rw [h.totOrphans]
    simp [Memory.link]
  · show n = N.length
    have hl := h.newOrphans
    rcases hkind with ⟨-, -, rfl, rfl, -⟩ | ⟨-, -, rfl, rfl, -⟩
    · simp [hl]
    · exact hl
  · -- freed: `brk` has moved on by the one address, which is alive
    intro a
    show a ∈ m.freed ↔ a < m.brk + 1 ∧ a ∉ m.orphTree ++ [m.brk]
    rw [h.freed a, List.mem_append, List.mem_singleton, not_or]
    constructor
    · rintro ⟨hlt, hn⟩
      exact ⟨by omega, hn, by omega⟩
    · rintro ⟨hlt, hn, hne⟩
      exact ⟨by omega, hn⟩

/-- `ubifs_add_orphan` of an inode that is not there, or is. -/
theorem Lists.add {g : Geometry} {alloc : Bool} {inum : Nat} {m' : Memory} (h : Lists m C D)
    (hadd : m.ubifsAddOrphan g alloc inum = .ok m') :
    Lists m' C D ∧ (∀ a, a ∈ m.orphTree → m'.mem a = m.mem a) ∧
      (∃ a, m.find inum = some a ∧ m' = m ∨ a = m.brk ∧ inumIn m'.mem a = some inum) := by
  unfold Memory.ubifsAddOrphan at hadd
  split at hadd
  · cases hadd
  split at hadd
  · cases hadd
  cases hf : m.find inum with
  | some a =>
    simp only [hf, Except.ok.injEq] at hadd
    rw [← hadd]
    exact ⟨h, fun a _ => rfl, a, .inl ⟨rfl, rfl⟩⟩
  | none =>
    simp only [hf, Except.ok.injEq] at hadd
    rw [← hadd]
    refine ⟨h.link (fun a oa ha => h.find_none hf ha) rfl (.inl ⟨rfl, rfl, rfl, rfl, rfl, rfl⟩),
      fun a ha => ?_, m.brk, .inr ⟨rfl, ?_⟩⟩
    · refine Function.update_of_ne (fun hb => ?_) ..
      exact absurd (h.lt a ha) (by omega)
    · unfold inumIn
      show (Function.update m.mem m.brk _ m.brk).map _ = _
      rw [Function.update_self]
      rfl

/-- `insert_dead_orphan` -/
theorem Lists.insertDead {inum : Nat} (h : Lists m C D) :
    ∃ D', Lists (m.insertDeadOrphan inum) C D' := by
  unfold Memory.insertDeadOrphan
  cases hf : m.find inum with
  | some a => exact ⟨D, h⟩
  | none =>
    exact ⟨m.brk :: D, h.link (fun a oa ha => h.find_none hf ha) rfl
      (.inr ⟨rfl, rfl, rfl, rfl, rfl, rfl⟩)⟩

end Link

section Free

variable {m : Memory} {C D D' N : List Nat} {a : Nat} {o : Orphan} {n : Int} {p : Option Nat}

/-- An orphan that is not in the chain is freed.  It was not put aside, or is the next to be erased. -/
theorem Lists.free (h : Lists m C D) (ha : a ∈ m.orphTree) (hC : a ∉ C)
    (hD : p = m.orphDnext ∧ D' = D ∧ a ∉ D ∨ p = dnextIn m.mem a ∧ D = a :: D')
    (hN : a ∈ m.orphNew ∧ N = m.orphNew.erase a ∧ n = m.newOrphans - 1 ∨
      a ∉ m.orphNew ∧ N = m.orphNew ∧ n = m.newOrphans) :
    Lists { (m.unlink a).kfree a with orphNew := N, newOrphans := n, orphDnext := p } C D' := by
  have hself : ((m.unlink a).kfree a).mem a = none := Function.update_self ..
  have hother : ∀ b, b ≠ a → ((m.unlink a).kfree a).mem b = m.mem b := fun b hb =>
    Function.update_of_ne hb ..
  have htree : ∀ b, b ∈ m.orphTree.erase a ↔ b ≠ a ∧ b ∈ m.orphTree := fun b => h.nodup.mem_erase_iff
  have hNmem : ∀ b, b ∈ N ↔ b ≠ a ∧ b ∈ m.orphNew := by
    intro b
    rcases hN with ⟨-, rfl, -⟩ | ⟨hn, rfl, -⟩
    · exact h.newNodup.mem_erase_iff
    · refine ⟨fun hb => ⟨?_, hb⟩, fun hb => hb.2⟩
      rintro rfl
      exact hn hb
  have hDmem : ∀ b, b ∈ D' → b ≠ a ∧ b ∈ D := by
    intro b hb
    rcases hD with ⟨-, rfl, hn⟩ | ⟨-, rfl⟩
    · refine ⟨?_, hb⟩
      rintro rfl
      exact hn hb
    · refine ⟨?_, List.mem_cons_of_mem _ hb⟩
      rintro rfl
      exact (List.nodup_cons.mp h.delayedNodup).1 hb
  refine
    { alive := ?_, lt := fun b hb => h.lt b ((htree b).mp hb).2, nodup := h.nodup.erase a, inum := ?_
      list := h.list.erase a, newNodup := ?_, new := ?_, commitNodup := h.commitNodup, commit := ?_
      commitOnly := ?_, commitOld := ?_, delayedNodup := ?_, delayed := ?_, delayedOnly := ?_
      delayedOld := ?_, totOrphans := ?_, newOrphans := ?_, cmtOrphans := h.cmtOrphans
      freedNodup := ?_, freed := ?_, fault := h.fault }
  · -- alive: `a` leaves the tree and the memory
    intro b
    show b ∈ m.orphTree.erase a ↔ ∃ o, ((m.unlink a).kfree a).mem b = some o
    rw [htree]
    by_cases hb : b = a
    · simp [hb, hself]
    · rw [hother b hb]
      simp [hb, h.alive b]
  · intro b c ob oc hb hc hi
    change ((m.unlink a).kfree a).mem b = some ob at hb
    change ((m.unlink a).kfree a).mem c = some oc at hc
    have hba : b ≠ a := by
      rintro rfl
      rw [hself] at hb
      cases hb
    have hca : c ≠ a := by
      rintro rfl
      rw [hself] at hc
      cases hc
    rw [hother b hba] at hb
    rw [hother c hca] at hc
    exact h.inum b c ob oc hb hc hi
  · show N.Nodup
    rcases hN with ⟨-, rfl, -⟩ | ⟨-, rfl, -⟩
    · exact h.newNodup.erase a
    · exact h.newNodup
  · -- new
    intro b
    show b ∈ N ↔ ∃ o, ((m.unlink a).kfree a).mem b = some o ∧ o.new = true
    rw [hNmem]
    by_cases hb : b = a
    · simp [hb, hself]
    · rw [hother b hb]
      simp [hb, h.new b]
  · -- commit: `hC`, a freed orphan is not in the chain
    obtain ⟨q, hq⟩ := h.commit
    refine ⟨q, hq.congr fun b hb => ?_⟩
    show cnextIn ((m.unlink a).kfree a).mem b = cnextIn m.mem b
    unfold cnextIn
    rw [hother b]
    rintro rfl
    exact hC hb
  · intro b
    show b ∈ C ↔ ∃ o, ((m.unlink a).kfree a).mem b = some o ∧ o.cnext.isSome = true
    by_cases hb : b = a
    · simp [hb, hself, hC]
    · rw [hother b hb]
      exact h.commitOnly b
  · intro b hb hn
    exact h.commitOld b hb ((hNmem b).mp hn).2
  · rcases hD with ⟨-, rfl, -⟩ | ⟨-, rfl⟩
    · exact h.delayedNodup
    · exact (List.nodup_cons.mp h.delayedNodup).2
  · -- delayed: without `a`, if that was the first one
    show Linked (dnextIn ((m.unlink a).kfree a).mem) p D' none
    have hlinked : Linked (dnextIn m.mem) p D' none := by
      rcases hD with ⟨rfl, rfl, -⟩ | ⟨rfl, rfl⟩
      · exact h.delayed
      · exact h.delayed.2
    refine hlinked.congr fun b hb => ?_
    unfold dnextIn
    rw [hother b (hDmem b hb).1]
  · -- delayedOnly
    intro b ob hb hd
    change ((m.unlink a).kfree a).mem b = some ob at hb
    have hba : b ≠ a := by
      rintro rfl
      rw [hself] at hb
      cases hb
    rw [hother b hba] at hb
    have hmem := h.delayedOnly b ob hb hd
    rcases hD with ⟨-, rfl, -⟩ | ⟨-, rfl⟩
    · exact hmem
    · exact (List.mem_cons.mp hmem).resolve_left hba
  · intro b hb
    obtain ⟨hba, hbD⟩ := hDmem b hb
    obtain ⟨ht, hn⟩ := h.delayedOld b hbD
    exact ⟨(htree b).mpr ⟨hba, ht⟩, fun hc => hn ((hNmem b).mp hc).2⟩
  · show m.totOrphans - 1 = ((m.orphTree.erase a).length : Int)
    have hpos := List.length_pos_of_mem ha
    rw [List.length_erase_of_mem ha, h.totOrphans]
    omega
  · show n = N.length
    have hl := h.newOrphans
    rcases hN with ⟨hn, rfl, rfl⟩ | ⟨-, rfl, rfl⟩
    · have hpos := List.length_pos_of_mem hn
      rw [List.length_erase_of_mem hn, hl]
      omega
    · exact hl
  · show (a :: m.freed).Nodup
    exact List.nodup_cons.mpr ⟨fun hf => ((h.freed a).mp hf).2 ha, h.freedNodup⟩
  · -- freed: `a` is not in the tree any more
    intro b
    show b ∈ a :: m.freed ↔ b < m.brk ∧ b ∉ m.orphTree.erase a
    rw [List.mem_cons, h.freed b, htree]
    have hlt := h.lt a ha
    constructor
    · rintro (rfl | ⟨hb, hn⟩)
      · exact ⟨hlt, fun hc => hc.1 rfl⟩
      · exact ⟨hb, fun hc => hn hc.2⟩
    · rintro ⟨hb, hn⟩
      by_cases hba : b = a
      · exact .inl hba
      · exact .inr ⟨hb, fun hc => hn ⟨hba, hc⟩⟩

/-- An orphan of the chain is put aside. -/
theorem Lists.delay (h : Lists m C D) (ho : m.mem a = some o) (hC : a ∈ C) (hD : a ∉ D) :
    Lists { m.upd a fun o => { o with dnext := m.orphDnext } with orphDnext := some a } C (a :: D) := by
  rw [upd_eq ho]
  have hself : ∀ x, Function.update m.mem a x a = x := fun x => Function.update_self ..
  have hother : ∀ b x, b ≠ a → Function.update m.mem a x b = m.mem b := fun b x hb =>
    Function.update_of_ne hb ..
  have hmap : ∀ (P : Orphan → Prop), (P { o with dnext := m.orphDnext } ↔ P o) → ∀ b,
      (∃ o', Function.update m.mem a (some { o with dnext := m.orphDnext }) b = some o' ∧ P o') ↔
        ∃ o', m.mem b = some o' ∧ P o' := by
    intro P hP b
    by_cases hb : b = a
    · rw [hb, hself, ho]
      simp [hP]
    · rw [hother b _ hb]
  -- Only the `dnext` of `a` changes, so what `hmap` is about stays as it is.
  refine
    { alive := ?_, lt := h.lt, nodup := h.nodup, inum := ?_, list := h.list, newNodup := h.newNodup
      new := ?_, commitNodup := h.commitNodup, commit := ?_, commitOnly := ?_
      commitOld := h.commitOld, delayedNodup := List.nodup_cons.mpr ⟨hD, h.delayedNodup⟩
      delayed := ⟨rfl, ?_⟩, delayedOnly := ?_, delayedOld := ?_, totOrphans := h.totOrphans
      newOrphans := h.newOrphans, cmtOrphans := h.cmtOrphans, freedNodup := h.freedNodup
      freed := h.freed, fault := h.fault }
  · intro b
    have := hmap (fun _ => True) Iff.rfl b
    simp only [and_true] at this
    exact (h.alive b).trans this.symm
  · have hget : ∀ b ob, Function.update m.mem a (some { o with dnext := m.orphDnext }) b = some ob →
        ∃ ob', m.mem b = some ob' ∧ ob'.inum = ob.inum := by
      intro b ob hb
      by_cases hba : b = a
      · rw [hba, hself] at hb
        cases hb
        exact ⟨o, hba ▸ ho, rfl⟩
      · rw [hother b _ hba] at hb
        exact ⟨ob, hb, rfl⟩
    intro b c ob oc hb hc hi
    obtain ⟨ob', hb', hib⟩ := hget b ob hb
    obtain ⟨oc', hc', hic⟩ := hget c oc hc
    exact h.inum b c ob' oc' hb' hc' (by rw [hib, hic, hi])
  · exact fun b => (h.new b).trans (hmap (fun o => o.new = true) Iff.rfl b).symm
  · obtain ⟨q, hq⟩ := h.commit
    refine ⟨q, hq.congr fun b _ => ?_⟩
    unfold cnextIn
    by_cases hb : b = a
    · show (Function.update m.mem a _ b).bind _ = _
      rw [hb, hself, ho]
      rfl
    · show (Function.update m.mem a _ b).bind _ = _
      rw [hother b _ hb]
  · exact fun b => (h.commitOnly b).trans (hmap (fun o => o.cnext.isSome = true) Iff.rfl b).symm
  · -- delayed: `a` comes before the old first one, behind which no pointer changed
    have : dnextIn (Function.update m.mem a (some { o with dnext := m.orphDnext })) a = m.orphDnext := by
      unfold dnextIn
      rw [hself]
      rfl
    show Linked _ (dnextIn _ a) D none
    rw [this]
    refine h.delayed.congr fun b hb => ?_
    unfold dnextIn
    show (Function.update m.mem a _ b).bind _ = _
    rw [hother b]
    rintro rfl
    exact hD hb
  · intro b ob hb hd
    by_cases hba : b = a
    · exact hba ▸ List.mem_cons_self ..
    · exact List.mem_cons_of_mem _ (h.delayedOnly b ob (by rwa [← hother b _ hba]) hd)
  · intro b hb
    rcases List.mem_cons.mp hb with rfl | hb
    · exact ⟨(h.alive b).mpr ⟨o, ho⟩, h.commitOld b hC⟩
    · exact h.delayedOld b hb

/-- `ubifs_delete_orphan`, unless it is called again for the orphan that was put aside first. -/
theorem Lists.delete {inum : Nat} (h : Lists m C D)
    (hagain : ∀ a, m.find inum = some a → D.getLast? ≠ some a) :
    ∃ D', Lists (m.ubifsDeleteOrphan inum) C D' ∧ ∀ b, m.find inum ≠ some b →
      (m.ubifsDeleteOrphan inum).mem b = m.mem b ∧ (b ∈ D' → b ∈ D) := by
  unfold Memory.ubifsDeleteOrphan
  cases hf : m.find inum with
  | none => exact ⟨D, h, fun b _ => ⟨rfl, id⟩⟩
  | some a =>
    obtain ⟨ha, o, ho, -⟩ := h.find_some hf
    have hother : ∀ b x, some a ≠ some b → Function.update m.mem a x b = m.mem b := fun b x hb =>
      Function.update_of_ne (fun he => hb (congrArg some he.symm)) ..
    simp only [ho]
    split
    · -- deleted twice
      exact ⟨D, h, fun b _ => ⟨rfl, id⟩⟩
    rename_i hdn
    have hdn : o.dnext = none := by simpa using hdn
    have hD : a ∉ D := fun hmem => hagain a hf (h.dnext_none hmem ho hdn)
    split
    · -- in the chain of a commit: deleted later
      refine ⟨a :: D, h.delay ho ((h.commitOnly a).mpr ⟨o, ho, ‹_›⟩) hD, fun b hb => ⟨?_, fun hmem => ?_⟩⟩
      · rw [upd_eq ho]
        exact hother b _ hb
      · exact (List.mem_cons.mp hmem).resolve_left fun he => hb (congrArg some he.symm)
    -- From here on the orphan is taken out of the tree and freed.
    rename_i hcn
    have hC : a ∉ C := by
      intro hmem
      obtain ⟨o', ho', hc⟩ := (h.commitOnly a).mp hmem
      rw [ho] at ho'
      cases ho'
      exact hcn hc
    split
    · -- it is on the list of the new ones, too
      rename_i hnew
      exact ⟨D, h.free ha hC (.inl ⟨rfl, rfl, hD⟩) (.inl ⟨(h.new a).mpr ⟨o, ho, hnew⟩, rfl, rfl⟩),
        fun b hb => ⟨hother b _ hb, id⟩⟩
    · rename_i hnew
      refine ⟨D, ?_, fun b hb => ⟨hother b _ hb, id⟩⟩
      refine h.free ha hC (.inl ⟨rfl, rfl, hD⟩) (.inr ⟨fun hmem => ?_, rfl, rfl⟩)
      obtain ⟨o', ho', hn⟩ := (h.new a).mp hmem
      rw [ho] at ho'
      cases ho'
      exact hnew hn

/-- The loop of `erase_deleted`, at `p`. -/
theorem Lists.eraseFrom (h : Lists { m with orphDnext := p } [] D) {k : Nat} (hk : D.length ≤ k) :
    Lists (m.eraseFrom k p) [] [] ∧ ∀ b, b ∉ D → (m.eraseFrom k p).mem b = m.mem b := by
  induction k generalizing m p D with
  | zero =>
    obtain rfl : D = [] := List.length_eq_zero_iff.mp (Nat.le_zero.mp hk)
    obtain rfl : p = none := h.delayed
    exact ⟨h, fun b _ => rfl⟩
  | succ k ih =>
    cases D with
    | nil =>
      obtain rfl : p = none := h.delayed
      exact ⟨h, fun b _ => rfl⟩
    | cons a D =>
      obtain ⟨rfl, -⟩ := h.delayed
      obtain ⟨ht, hn⟩ := h.delayedOld a (List.mem_cons_self ..)
      obtain ⟨o, ho⟩ := (h.alive a).mp ht
      have hfree := h.free ht (List.not_mem_nil) (.inr ⟨rfl, rfl⟩) (.inr ⟨hn, rfl, rfl⟩)
      have ho' : m.mem a = some o := ho
      have hdn : dnextIn m.mem a = o.dnext := by
        unfold dnextIn
        rw [ho']
        rfl
      have hstep : m.eraseFrom (k + 1) (some a) = ((m.unlink a).kfree a).eraseFrom k o.dnext := by
        rw [Memory.eraseFrom]
        simp only [ho']
      rw [hstep, ← hdn]
      obtain ⟨hl, hother⟩ := ih (m := (m.unlink a).kfree a) (p := dnextIn m.mem a) hfree
        (by simpa using hk)
      refine ⟨hl, fun b hb => ?_⟩
      obtain ⟨hba, hbD⟩ := not_or.mp fun hc => hb (List.mem_cons.mpr hc)
      exact (hother b hbD).trans (Function.update_of_ne hba ..)

/-- **`erase_deleted`** frees what was put aside. -/
theorem Lists.eraseDeleted (h : Lists m [] D) :
    Lists m.eraseDeleted [] [] ∧ ∀ b, b ∉ D → m.eraseDeleted.mem b = m.mem b :=
  Lists.eraseFrom (p := m.orphDnext) h h.delayed_length

end Free

/-! ## The chain of the commit -/

section Chain

variable {m : Memory} {C D l : List Nat} {a b r : Nat} {f : Orphan → Orphan}

/-- `f` was done to the orphans of `l`, and they have a successor. -/
def Chained (f : Orphan → Orphan) (l : List Nat) (mem mem' : Nat → Option Orphan) : Prop :=
  (∀ a, a ∉ l → mem' a = mem a) ∧
    ∀ a ∈ l, ∃ o c, mem a = some o ∧ mem' a = some { f o with cnext := some c }

/-- The loop that chains up the orphans of `l`, behind `b`. -/
theorem chain_behind (hl : (b :: l).Nodup) (halive : ∀ a ∈ b :: l, ∃ o, m.mem a = some o)
    (hr : m.orphCnext = some r) :
    ∃ mem ob c, m.chain f l (some b) = { m with mem := mem } ∧ (∀ a, a ∉ b :: l → mem a = m.mem a) ∧
      m.mem b = some ob ∧ mem b = some { ob with cnext := some c } ∧
      (∀ a ∈ l, ∃ o c, m.mem a = some o ∧ mem a = some { f o with cnext := some c }) ∧
      Linked (cnextIn mem) (cnextIn mem b) l (some r) := by
  induction l generalizing m b with
  | nil =>
    -- `*last = orphan->cnext` reads `orph_cnext` behind the list head: the last one gets the first
    obtain ⟨ob, hob⟩ := halive b (List.mem_singleton_self b)
    refine ⟨Function.update m.mem b (some { ob with cnext := some r }), ob, r, ?_, fun a ha => ?_, hob,
      Function.update_self .., fun a ha => (by cases ha), ?_⟩
    · show m.upd b _ = _
      rw [upd_eq hob, hr]
    · exact Function.update_of_ne (fun h => ha (List.mem_singleton.mpr h)) ..
    · show cnextIn _ b = some r
      unfold cnextIn
      rw [Function.update_self]
      rfl
  | cons a l ih =>
    obtain ⟨hb, hal⟩ := List.nodup_cons.mp hl
    have hab : b ≠ a := fun h => hb (h ▸ List.mem_cons_self ..)
    obtain ⟨ob, hob⟩ := halive b (List.mem_cons_self ..)
    obtain ⟨oa, hoa⟩ := halive a (List.mem_cons_of_mem _ (List.mem_cons_self ..))
    -- `b` gets `a` as its successor, and `f` is done to `a`: the rest of the list is linked behind `a`.
    let mem₁ := Function.update (Function.update m.mem a (some (f oa))) b
      (some { ob with cnext := some a })
    have hstep : (m.upd a f).setNext (some b) (some a) = { m with mem := mem₁ } := by
      have hob' : (m.upd a f).mem b = some ob := by
        rw [upd_eq hoa]
        exact (Function.update_of_ne hab ..).trans hob
      show (m.upd a f).upd b _ = _
      rw [upd_eq hob', upd_eq hoa]
    have hother : ∀ c, c ≠ b → c ≠ a → mem₁ c = m.mem c := fun c hcb hca =>
      (Function.update_of_ne hcb ..).trans (Function.update_of_ne hca ..)
    have hma : mem₁ a = some (f oa) :=
      (Function.update_of_ne (Ne.symm hab) ..).trans (Function.update_self ..)
    have hmb : mem₁ b = some { ob with cnext := some a } := Function.update_self ..
    have hlb : ∀ c ∈ l, c ≠ b ∧ c ≠ a := fun c hc => by
      constructor
      · rintro rfl
        exact hb (List.mem_cons_of_mem _ hc)
      · rintro rfl
        exact (List.nodup_cons.mp hal).1 hc
    obtain ⟨mem, oa', c, heq, hout, hoa', hca, hin, hlinked⟩ := ih (m := { m with mem := mem₁ }) hal
      (by
        intro c hc
        rcases List.mem_cons.mp hc with rfl | hc
        · exact ⟨_, hma⟩
        · show ∃ o, mem₁ c = some o
          rw [hother c (hlb c hc).1 (hlb c hc).2]
          exact halive c (List.mem_cons_of_mem _ (List.mem_cons_of_mem _ hc))) hr
    have hoa' : mem₁ a = some oa' := hoa'
    rw [hma] at hoa'
    obtain rfl : f oa = oa' := Option.some.inj hoa'
    have hbout : mem b = some { ob with cnext := some a } := (hout b hb).trans hmb
    refine ⟨mem, ob, a, ?_, fun c hc => ?_, hob, hbout, fun c hc => ?_, ?_⟩
    · show Memory.chain f ((m.upd a f).setNext (some b) (some a)) l (some a) = _
      rw [hstep, heq]
    · obtain ⟨hcb, hcal⟩ := not_or.mp (fun h => hc (List.mem_cons.mpr h))
      rw [hout c hcal]
      exact hother c hcb fun h => hcal (h ▸ List.mem_cons_self ..)
    · rcases List.mem_cons.mp hc with rfl | hc
      · exact ⟨oa, _, hoa, hca⟩
      · obtain ⟨o, c', ho, hc'⟩ := hin c hc
        have ho : mem₁ c = some o := ho
        rw [hother c (hlb c hc).1 (hlb c hc).2] at ho
        exact ⟨o, c', ho, hc'⟩
    · refine ⟨?_, hlinked⟩
      unfold cnextIn
      rw [hbout]
      rfl

/-- The loop over a whole list. -/
theorem chain_spec (hl : l.Nodup) (halive : ∀ a ∈ l, ∃ o, m.mem a = some o) :
    ∃ mem p q, m.chain f l none = { m with mem := mem, orphCnext := p } ∧ Chained f l m.mem mem ∧
      Linked (cnextIn mem) p l q := by
  cases l with
  | nil =>
    exact ⟨m.mem, m.orphCnext, m.orphCnext, rfl, ⟨fun a _ => rfl, fun a ha => (by cases ha)⟩, rfl⟩
  | cons a l =>
    obtain ⟨oa, hoa⟩ := halive a (List.mem_cons_self ..)
    let m₁ : Memory := { m with mem := Function.update m.mem a (some (f oa)), orphCnext := some a }
    have hstep : (m.upd a f).setNext none (some a) = m₁ := by
      show { m.upd a f with orphCnext := some a } = m₁
      rw [upd_eq hoa]
    have hother : ∀ c, c ≠ a → m₁.mem c = m.mem c := fun c hc => Function.update_of_ne hc ..
    have hla : ∀ c ∈ l, c ≠ a := fun c hc => by
      rintro rfl
      exact (List.nodup_cons.mp hl).1 hc
    obtain ⟨mem, oa', c, heq, hout, hoa', hca, hin, hlinked⟩ := chain_behind (m := m₁) (f := f) hl
      (by
        intro c hc
        rcases List.mem_cons.mp hc with rfl | hc'
        · exact ⟨f oa, Function.update_self ..⟩
        · rw [hother c (hla c hc')]
          exact halive c hc) rfl
    have hself : m₁.mem a = some (f oa) := Function.update_self ..
    rw [hself] at hoa'
    obtain rfl : f oa = oa' := Option.some.inj hoa'
    refine ⟨mem, some a, some a, ?_, ⟨fun c hc => ?_, fun c hc => ?_⟩, rfl, hlinked⟩
    · show Memory.chain f ((m.upd a f).setNext none (some a)) l (some a) = _
      rw [hstep, heq]
    · rw [hout c hc]
      exact hother c fun h => hc (h ▸ List.mem_cons_self ..)
    · rcases List.mem_cons.mp hc with rfl | hc
      · exact ⟨oa, _, hoa, hca⟩
      · obtain ⟨o, c', ho, hc'⟩ := hin c hc
        rw [hother c (hla c hc)] at ho
        exact ⟨o, c', ho, hc'⟩

/-- What was done to the orphans of the chain: nothing but `f` and the new pointers. -/
theorem Chained.get {mem mem' : Nat → Option Orphan} (h : Chained f l mem mem') (a : Nat) :
    mem' a = mem a ∧ a ∉ l ∨ a ∈ l ∧ ∃ o c, mem a = some o ∧ mem' a = some { f o with cnext := some c } := by
  by_cases ha : a ∈ l
  · exact .inr ⟨ha, h.2 a ha⟩
  · exact .inl ⟨h.1 a ha, ha⟩

/-- No inode number changes. -/
theorem chain_inum (hl : l.Nodup) (halive : ∀ a ∈ l, ∃ o, m.mem a = some o)
    (hf : ∀ o, (f o).inum = o.inum) : inumIn (m.chain f l none).mem = inumIn m.mem := by
  obtain ⟨mem, p, q, heq, hch, -⟩ := chain_spec (f := f) hl halive
  rw [heq]
  funext a
  unfold inumIn
  rcases hch.get a with ⟨he, -⟩ | ⟨-, o, c, ho, hc⟩
  · exact congrArg _ he
  · show (mem a).map _ = _
    rw [ho, hc]
    exact congrArg some (hf o)

/-- The lists after orphans were chained up that are then no longer new, where all others have no
    successor. -/
theorem Lists.chain (h : Lists m C D) (hl : l.Nodup) (halive : ∀ a ∈ l, a ∈ m.orphTree)
    (hC : ∀ a ∈ C, a ∈ l) (hf : ∀ o, (f o).inum = o.inum ∧ (f o).dnext = o.dnext) {N : List Nat}
    (hN : N.Nodup) (hnew : ∀ a, a ∈ N ↔ a ∈ m.orphNew ∧ a ∉ l)
    (hfnew : ∀ a o, a ∈ l → m.mem a = some o → (f o).new = false) :
    Lists { m.chain f l none with cmtOrphans := l.length, newOrphans := N.length, orphNew := N } l D := by
  obtain ⟨mem, p, q, heq, hch, hlinked⟩ := chain_spec (f := f) hl fun a ha =>
    (h.alive a).mp (halive a ha)
  rw [heq]
  have hsome : ∀ a, (∃ o, mem a = some o) ↔ ∃ o, m.mem a = some o := by
    intro a
    rcases hch.get a with ⟨he, -⟩ | ⟨-, o, c, ho, ho'⟩
    · rw [he]
    · rw [ho, ho']
      simp
  have hkeep : ∀ a o', mem a = some o' → ∃ o, m.mem a = some o ∧ o'.inum = o.inum ∧
      o'.dnext = o.dnext := by
    intro a o' ho'
    rcases hch.get a with ⟨he, -⟩ | ⟨-, o, c, ho, hc⟩
    · exact ⟨o', he ▸ ho', rfl, rfl⟩
    · rw [hc] at ho'
      cases ho'
      exact ⟨o, ho, hf o⟩
  -- `f` and the new pointers touch neither the numbers nor the list of those put aside (`hkeep`).
  refine
    { alive := fun a => (h.alive a).trans (hsome a).symm, lt := h.lt, nodup := h.nodup, inum := ?_
      list := h.list, newNodup := hN, new := ?_, commitNodup := hl, commit := ⟨q, hlinked⟩
      commitOnly := ?_, commitOld := fun a ha hn => ((hnew a).mp hn).2 ha
      delayedNodup := h.delayedNodup, delayed := ?_, delayedOnly := ?_, delayedOld := ?_
      totOrphans := h.totOrphans, newOrphans := rfl, cmtOrphans := rfl, freedNodup := h.freedNodup
      freed := h.freed, fault := h.fault }
  · intro a b oa ob ha hb hi
    obtain ⟨oa', ha', hia, -⟩ := hkeep a oa ha
    obtain ⟨ob', hb', hib, -⟩ := hkeep b ob hb
    exact h.inum a b oa' ob' ha' hb' (by rw [← hia, ← hib, hi])
  · intro a
    show a ∈ N ↔ ∃ o, mem a = some o ∧ o.new = true
    rw [hnew, h.new a]
    rcases hch.get a with ⟨he, hal⟩ | ⟨hal, o, c, ho, hc⟩
    · rw [he]
      simp [hal]
    · have := hfnew a o hal ho
      simp [hal, hc, this]
  · intro a
    show a ∈ l ↔ ∃ o, mem a = some o ∧ o.cnext.isSome = true
    rcases hch.get a with ⟨he, hal⟩ | ⟨hal, o, c, ho, hc⟩
    · rw [he]
      have hnC : a ∉ C := fun hC' => hal (hC a hC')
      exact iff_of_false hal fun hc => hnC ((h.commitOnly a).mpr hc)
    · simp [hal, hc]
  · show Linked (dnextIn mem) m.orphDnext D none
    refine h.delayed.congr fun a _ => ?_
    unfold dnextIn
    rcases hch.get a with ⟨he, -⟩ | ⟨-, o, c, ho, hc⟩
    · rw [he]
    · rw [ho, hc]
      exact (hf o).2
  · intro a o' ho' hd
    obtain ⟨o, ho, -, hdn⟩ := hkeep a o' ho'
    exact h.delayedOnly a o ho (by rwa [← hdn])
  · intro a ha
    obtain ⟨ht, hn⟩ := h.delayedOld a ha
    exact ⟨ht, fun hN => hn ((hnew a).mp hN).1⟩

/-- **`ubifs_orphan_start_commit`**: the new orphans are chained up. -/
theorem Lists.start (h : Lists m [] D) :
    Lists { m.chain (fun o => { o with new := false }) m.orphNew none with
      cmtOrphans := m.newOrphans, newOrphans := 0, orphNew := [] } m.orphNew D ∧
    inumIn (m.chain (fun o => { o with new := false }) m.orphNew none).mem = inumIn m.mem := by
  have halive : ∀ a ∈ m.orphNew, a ∈ m.orphTree := fun a ha => by
    obtain ⟨o, ho, -⟩ := (h.new a).mp ha
    exact (h.alive a).mpr ⟨o, ho⟩
  have hc := h.chain (f := fun o => { o with new := false }) h.newNodup halive
    (fun a ha => by cases ha) (fun o => ⟨rfl, rfl⟩) List.nodup_nil (fun a => by simp)
    fun a o _ _ => rfl
  rw [h.newOrphans]
  exact ⟨hc, chain_inum h.newNodup (fun a ha => (h.alive a).mp (halive a ha)) fun o => rfl⟩

/-- The orphans that are not new. -/
theorem Lists.mem_oldOrphans (h : Lists m C D) :
    a ∈ m.oldOrphans ↔ a ∈ m.orphTree ∧ a ∉ m.orphNew := by
  unfold Memory.oldOrphans
  rw [List.mem_filter, h.list.mem_iff, h.new a]
  constructor
  · rintro ⟨ht, hany⟩
    obtain ⟨o, ho⟩ := (h.alive a).mp ht
    refine ⟨ht, fun ⟨o', ho', hn⟩ => ?_⟩
    rw [ho] at ho' hany
    cases ho'
    simp [hn] at hany
  · rintro ⟨ht, hn⟩
    obtain ⟨o, ho⟩ := (h.alive a).mp ht
    refine ⟨ht, ?_⟩
    rw [ho]
    cases hnew : o.new with
    | true => exact absurd ⟨o, ho, hnew⟩ hn
    | false => simp [hnew]

/-- The orphans of the commit are different ones. -/
theorem Lists.nodup_oldOrphans (h : Lists m C D) : m.oldOrphans.Nodup :=
  (h.list.nodup_iff.mpr h.nodup).filter _

/-- **`consolidate`**: all orphans that are not new are chained up. -/
theorem Lists.consolidate (h : Lists m C D) :
    Lists { m.chain id m.oldOrphans none with cmtOrphans := m.oldOrphans.length } m.oldOrphans D ∧
    inumIn (m.chain id m.oldOrphans none).mem = inumIn m.mem := by
  have halive : ∀ a ∈ m.oldOrphans, ∃ o, m.mem a = some o := fun a ha =>
    (h.alive a).mp (h.mem_oldOrphans.mp ha).1
  refine ⟨?_, chain_inum h.nodup_oldOrphans halive fun o => rfl⟩
  have hc := h.chain (f := id) (N := m.orphNew) h.nodup_oldOrphans
    (fun a ha => (h.mem_oldOrphans.mp ha).1)
    (fun a ha => h.mem_oldOrphans.mpr ⟨?_, h.commitOld a ha⟩) (fun o => ⟨rfl, rfl⟩) h.newNodup
    (fun a => ⟨fun hn => ⟨hn, fun ho => (h.mem_oldOrphans.mp ho).2 hn⟩, fun hn => hn.1⟩)
    (fun a o ha ho => ?_)
  · have hm : m.chain id m.oldOrphans none = { m.chain id m.oldOrphans none with
        newOrphans := m.orphNew.length, orphNew := m.orphNew } := by
      obtain ⟨mem, p, q, heq, -, -⟩ := chain_spec (f := id) h.nodup_oldOrphans halive
      rw [heq, ← h.newOrphans]
    rw [hm]
    exact hc
  · obtain ⟨o, ho, -⟩ := (h.commitOnly a).mp ha
    exact (h.alive a).mpr ⟨o, ho⟩
  · show o.new = false
    by_contra hn
    exact (h.mem_oldOrphans.mp ha).2 ((h.new a).mpr ⟨o, ho, by simpa using hn⟩)

/-- The loop of `write_orph_node`: the first orphans are taken from the chain. -/
theorem Lists.take {C' : List Nat} {p : Option Nat}
    (h : Lists { m with orphCnext := p, cmtOrphans := (C ++ C').length } (C ++ C') D) :
    ∃ inos q mem, m.takeOrphans C.length p = (inos, q, { m with mem := mem }) ∧
      Lists { m with mem := mem, orphCnext := q, cmtOrphans := C'.length } C' D ∧
      inos.map some = C.map (inumIn m.mem) ∧ inumIn mem = inumIn m.mem := by
  induction C generalizing m p with
  | nil => exact ⟨[], p, m.mem, rfl, h, rfl, rfl⟩
  | cons a C ih =>
    obtain ⟨q, rfl, hlinked⟩ := h.commit
    obtain ⟨o, ho, hc⟩ := (h.commitOnly a).mp (List.mem_cons_self ..)
    have ho : m.mem a = some o := ho
    have hnot : a ∉ C ++ C' := (List.nodup_cons.mp h.commitNodup).1
    -- The first orphan of the chain loses its `cnext`, and the chain goes on behind it.
    let m₁ : Memory := { m with mem := Function.update m.mem a (some { o with cnext := none }) }
    have hself : m₁.mem a = some { o with cnext := none } := Function.update_self ..
    have hother : ∀ b, b ≠ a → m₁.mem b = m.mem b := fun b hb => Function.update_of_ne hb ..
    have hnext : cnextIn m.mem a = o.cnext := by
      unfold cnextIn
      rw [ho]
      rfl
    have hmap : ∀ (P : Orphan → Prop), (P { o with cnext := none } ↔ P o) → ∀ b,
        (∃ o', m₁.mem b = some o' ∧ P o') ↔ ∃ o', m.mem b = some o' ∧ P o' := by
      intro P hP b
      by_cases hb : b = a
      · rw [hb, hself, ho]
        simp [hP]
      · rw [hother b hb]
    have hget : ∀ b ob, m₁.mem b = some ob → ∃ ob', m.mem b = some ob' ∧ ob'.inum = ob.inum ∧
        ob'.dnext = ob.dnext := by
      intro b ob hb
      by_cases hba : b = a
      · rw [hba, hself] at hb
        cases hb
        exact ⟨o, hba ▸ ho, rfl, rfl⟩
      · rw [hother b hba] at hb
        exact ⟨ob, hb, rfl, rfl⟩
    have hinum : inumIn m₁.mem = inumIn m.mem := by
      funext b
      unfold inumIn
      by_cases hb : b = a
      · rw [hb, hself, ho]
        rfl
      · rw [hother b hb]
    have h₁ : Lists { m₁ with orphCnext := o.cnext, cmtOrphans := (C ++ C').length } (C ++ C') D := by
      refine
        { alive := fun b => ?_, lt := h.lt, nodup := h.nodup, inum := ?_, list := h.list
          newNodup := h.newNodup, new := fun b => ?_
          commitNodup := (List.nodup_cons.mp h.commitNodup).2, commit := ⟨q, ?_⟩, commitOnly := ?_
          commitOld := fun b hb => h.commitOld b (List.mem_cons_of_mem _ hb)
          delayedNodup := h.delayedNodup, delayed := ?_, delayedOnly := ?_
          delayedOld := h.delayedOld, totOrphans := h.totOrphans, newOrphans := h.newOrphans
          cmtOrphans := rfl, freedNodup := h.freedNodup, freed := h.freed, fault := h.fault }
      · have := hmap (fun _ => True) Iff.rfl b
        simp only [and_true] at this
        exact (h.alive b).trans this.symm
      · intro b c ob oc hb hc' hi
        obtain ⟨ob', hb', hib, -⟩ := hget b ob hb
        obtain ⟨oc', hoc', hic, -⟩ := hget c oc hc'
        exact h.inum b c ob' oc' hb' hoc' (by rw [hib, hic, hi])
      · exact (h.new b).trans (hmap (fun o => o.new = true) Iff.rfl b).symm
      · -- commit: no pointer behind `a` changed
        rw [← hnext]
        refine hlinked.congr fun b hb => ?_
        unfold cnextIn
        show (m₁.mem b).bind _ = _
        rw [hother b]
        rintro rfl
        exact hnot hb
      · -- commitOnly: `a` is no longer in the chain
        intro b
        show b ∈ C ++ C' ↔ ∃ o', m₁.mem b = some o' ∧ o'.cnext.isSome = true
        by_cases hb : b = a
        · rw [hb, hself]
          exact iff_of_false hnot (by simp)
        · rw [hother b hb]
          have := h.commitOnly b
          rw [List.cons_append, List.mem_cons] at this
          exact ⟨fun hm => this.mp (.inr hm), fun hm => (this.mpr hm).resolve_left hb⟩
      · refine h.delayed.congr fun b _ => ?_
        unfold dnextIn
        by_cases hb : b = a
        · show (m₁.mem b).bind _ = (m.mem b).bind _
          rw [hb, hself, ho]
          rfl
        · show (m₁.mem b).bind _ = (m.mem b).bind _
          rw [hother b hb]
      · intro b ob hb hd
        obtain ⟨ob', hb', -, hdn⟩ := hget b ob hb
        exact h.delayedOnly b ob' hb' (by rwa [hdn])
    obtain ⟨inos, q', mem, heq, hlists, hinos, hin⟩ := ih h₁
    refine ⟨o.inum :: inos, q', mem, ?_, hlists, ?_, hin.trans hinum⟩
    · show m.takeOrphans (C.length + 1) (some a) = _
      unfold Memory.takeOrphans
      simp only [ho, upd_eq ho]
      rw [show ({ m with mem := Function.update m.mem a (some { o with cnext := none }) } : Memory) = m₁
        from rfl, heq]
    · rw [List.map_cons, List.map_cons, hinos, hinum]
      congr 1
      unfold inumIn
      rw [ho]
      rfl

end Chain

end Ubifs.Orphans
