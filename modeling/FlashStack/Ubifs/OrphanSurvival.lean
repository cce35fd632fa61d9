/-
  Orphans survive power cuts.

  In a calm run the orphans that a commit with a master node has left on flash, and that were not
  deleted since, are found by the next mount, wherever the power was cut, and the orphan area never runs
  full.  An orphan that was deleted since may be gone from the area before the next commit completes:
  that it is removed is then up to the journal, which has its deletion.
-/
import FlashStack.Ubifs.OrphanCommit

namespace Ubifs.Orphans

open Lib

/-! ## The mount -/

section Mount

variable {g : Geometry} {s : State} {n : Nat}

/-- The area that the attach finds. -/
def attached (area : Nat → Leb) (back : Nat → Option Nat) (lnum : Nat) : Leb :=
  (area lnum).reattach (back lnum)

/-- An unmapped LEB is empty, or what it was before. -/
theorem attached_cases (area : Nat → Leb) (back : Nat → Option Nat) (lnum : Nat) :
    (area lnum).mapped = true ∧ attached area back lnum = area lnum ∨
      (area lnum).mapped = false ∧
        ((∃ nodes ∈ (area lnum).former, attached area back lnum =
            { area lnum with nodes := nodes, mapped := true }) ∨
          attached area back lnum = ⟨[], false, []⟩) := by
  unfold attached Leb.reattach
  by_cases hm : (area lnum).mapped = true
  · exact .inl ⟨hm, if_pos hm⟩
  · refine .inr ⟨by simpa using hm, ?_⟩
    rw [if_neg hm]
    cases hb : (back lnum).bind ((area lnum).former[·]?) with
    | none => exact .inr rfl
    | some nodes =>
      obtain ⟨i, -, hi⟩ := Option.bind_eq_some_iff.mp hb
      exact .inl ⟨nodes, List.mem_of_getElem? hi, rfl⟩

/-- What comes back was there once. -/
theorem Area.attached {area : Nat → Leb} {ever : List Nat} (h : Area g area ever n)
    (back : Nat → Option Nat) :
    (∀ lnum, ∀ nodes ∈ (Orphans.attached area back lnum).nodes ::
        (Orphans.attached area back lnum).former, Sane g ever nodes) ∧
      (∀ lnum, (Orphans.attached area back lnum).mapped = false →
        (Orphans.attached area back lnum).nodes = [] ∧ (Orphans.attached area back lnum).former = []) ∧
      nodesUpTo g (Orphans.attached area back) n = nodesUpTo g area n := by
  refine ⟨fun lnum nodes hn => ?_, fun lnum hm => ?_, nodesUpTo_congr fun k hk => ?_⟩
  · rcases attached_cases area back lnum with ⟨-, heq⟩ | ⟨-, ⟨l, hl, heq⟩ | heq⟩
    · rw [heq] at hn
      exact h.sane lnum nodes hn
    · rw [heq] at hn
      rcases List.mem_cons.mp hn with rfl | hn
      · exact h.sane lnum _ (List.mem_cons_of_mem _ hl)
      · exact h.sane lnum nodes (List.mem_cons_of_mem _ hn)
    · rw [heq] at hn
      rw [List.mem_singleton.mp hn]
      exact sane_nil
  · rcases attached_cases area back lnum with ⟨hm', heq⟩ | ⟨-, ⟨l, -, heq⟩ | heq⟩
    · rw [heq, hm'] at hm
      cases hm
    · rw [heq] at hm
      cases hm
    · rw [heq]
      exact ⟨rfl, rfl⟩
  · rcases attached_cases area back (g.orphFirst + k) with ⟨-, heq⟩ | ⟨hm, ⟨l, hl, -⟩ | heq⟩
    · rw [heq]
    · rw [h.settled k hk hm] at hl
      cases hl
    · rw [heq, h.unmapped _ hm]

/-- Nothing is in empty LEBs. -/
theorem Placed.shrink {area : Nat → Leb} {mem : Nat → Option Orphan} {W : List Nat} {m : Nat}
    (h : Placed g area mem m W)
    (he : ∀ k, n ≤ k → k < m → (area (g.orphFirst + k)).nodes = []) : Placed g area mem n W := by
  obtain ⟨pos, hpos, hmono⟩ := h
  refine ⟨pos, fun a ha => ?_, hmono⟩
  obtain ⟨hlt, i, hi, orph, ho, hio⟩ := hpos a ha
  refine ⟨?_, i, hi, orph, ho, hio⟩
  by_contra hge
  rw [he (pos a) (not_lt.mp hge) hlt] at ho
  cases ho

/-- After a clean unmount the area is not scanned. -/
theorem mount_noOrphs (h : s.mstNoOrphs = true) :
    s.ubifsMountOrphans g = { s.reset g with killed := some [] } := by
  unfold State.ubifsMountOrphans
  exact if_pos h

/-- Else all of it is scanned. -/
theorem mount_scan {k : State.Scan} (h : s.mstNoOrphs = false)
    (hk : State.killFrom g g.orphLebs g.orphFirst ⟨s.reset g, 0, false, []⟩ = some k) :
    s.ubifsMountOrphans g = { k.s with killed := some k.removed } := by
  unfold State.ubifsMountOrphans
  have hno : (s.reset g).noOrphs = false := h
  dsimp only
  rw [hno, if_neg Bool.false_ne_true, hk]

/-- What there is after a mount that has put aside the orphans it has found. -/
theorem Scanned.survives {m n' : Nat} {k : State.Scan} (hk : Scanned g (s.reset g) m n' k)
    (hsane : ∀ lnum, ∀ nodes ∈ (s.area lnum).nodes :: (s.area lnum).former, Sane g s.ever nodes)
    (hun : ∀ lnum, (s.area lnum).mapped = false →
      (s.area lnum).nodes = [] ∧ (s.area lnum).former = [])
    (hneeds : ∀ i, s.Needs i → s.mstNoOrphs = false ∧ ∃ orph ∈ nodesUpTo g s.area m, i ∈ orph.inos)
    (hout : s.outOfSpace = false) (hclash : s.clash = false) :
    (∀ i, s.Needs i → i ∈ k.removed) ∧ (∀ i ∈ k.removed, i ∈ s.ever) ∧
      Survives g { k.s with killed := some k.removed } := by
  obtain ⟨⟨D, hl⟩, hnew, hplaced, hcovers⟩ := hk.visited.dead
  have hremoved : ∀ i, i ∈ k.removed ↔ ∃ orph ∈ nodesUpTo g s.area m, i ∈ orph.inos := fun i => by
    rw [hk.visited.removed, List.mem_flatMap]
    rfl
  have hfound : ∀ i, s.Needs i → i ∈ k.removed := fun i hi => (hremoved i).mpr (hneeds i hi).2
  have hever : ∀ i ∈ k.removed, i ∈ s.ever := fun i hi => by
    obtain ⟨orph, ho, hio⟩ := (hremoved i).mp hi
    obtain ⟨l, -, hl⟩ := mem_nodesUpTo.mp ho
    exact (hsane _ _ (List.mem_cons_self ..)).known orph hl i hio
  refine ⟨hfound, hever, ?_⟩
  obtain ⟨mem, lnum, offs, cmtNo, hs⟩ := hk.visited.rest
  have hnodes : nodesUpTo g s.area m = nodesUpTo g s.area n' := nodesUpTo_empty hk.le hk.empty
  have hfresh : (nodesUpTo g s.area m).IsChain Fresh := hk.fresh
  have hcmt : ∀ orph ∈ nodesUpTo g s.area m, orph.cmtNo ≤ k.s.cmtNo := hk.visited.cmtNo
  have hhead := hk.head
  have hshrunk : Placed g s.area k.s.mem n' k.s.orphList := hplaced.shrink hk.empty
  rw [hs] at hl hnew hcovers hcmt hhead hshrunk ⊢
  refine ⟨n', ⟨⟨hsane, fun l hm => (hun l hm).1, hk.le.trans hk.lebs, hnodes ▸ hfresh,
      fun j _ hm => (hun _ hm).2⟩, fun i hi => ⟨(hneeds i hi).1, hnodes ▸ (hneeds i hi).2⟩, hnodes ▸ hcmt, hout,
    hclash⟩, .inr ⟨mem.orphList, [], [], D, ⟨hl, ?_, fun i hi => (by cases hi), fun a i hi => ?_,
      fun hpos => ?_⟩, rfl, rfl, ⟨hhead, hshrunk⟩, fun i hi => (hcovers i).mp (hfound i hi)⟩⟩
  · show mem.orphList = mem.orphList ++ ([] ++ ([] ++ mem.orphNew))
    rw [show mem.orphNew = [] from hnew]
    simp
  · obtain ⟨o, ho, -⟩ := inumIn_some.mp hi
    have ht : a ∈ mem.orphTree := (hl.alive a).mpr ⟨o, ho⟩
    exact hever i ((hcovers i).mpr ⟨a, hl.list.mem_iff.mpr ht, hi⟩)
  · have hc := hl.cmtOrphans
    have hn := hl.newOrphans
    have hnew : mem.orphNew = [] := hnew
    rw [hnew] at hn
    rcases hpos with hp | hp
    · exact absurd (hc ▸ hp) (lt_irrefl 0)
    · exact absurd (hn ▸ hp) (lt_irrefl 0)

/-- The mount finds what is needed, and nothing that was never an orphan. -/
theorem Flash.mount (hg : g.Valid) (h : Flash g s n) (back : Nat → Option Nat) :
    ∃ removed,
      (({ s with area := attached s.area back }).ubifsMountOrphans g).killed = some removed ∧
      (∀ i, s.Needs i → i ∈ removed) ∧ (∀ i ∈ removed, i ∈ s.ever) ∧
      Survives g (({ s with area := attached s.area back }).ubifsMountOrphans g) := by
  obtain ⟨hsane, hun, hnodes⟩ := h.area.attached back
  let s₁ : State := { s with area := attached s.area back }
  by_cases hno : s.mstNoOrphs = true
  · have hneeds : ∀ i, ¬s.Needs i := fun i hi => by
      have := (h.kept i hi).1
      rw [hno] at this
      cases this
    rw [show s₁.ubifsMountOrphans g = _ from mount_noOrphs hno]
    refine ⟨[], rfl, fun i hi => absurd hi (hneeds i), fun i hi => (by cases hi), 0, ?_, .inr ?_⟩
    · exact ⟨⟨hsane, fun lnum hm => (hun lnum hm).1, Nat.zero_le _, .nil, fun k hk => by omega⟩,
        fun i hi => absurd hi (hneeds i), fun orph ho => (by cases ho), h.outOfSpace, h.clash⟩
    · refine ⟨[], [], [], [], ⟨lists_empty, rfl, fun i hi => (by cases hi), fun a i hi => (by cases hi),
        fun hpos => ?_⟩, rfl, rfl, ⟨.inl ⟨rfl, rfl, hg.orphLebs⟩, placed_nil⟩,
        fun i hi => absurd hi (hneeds i)⟩
      rcases hpos with hp | hp <;> exact absurd hp (lt_irrefl 0)
  · have hno : s.mstNoOrphs = false := by simpa using hno
    have hstart : Scanned g (s₁.reset g) 0 0 ⟨s₁.reset g, 0, false, []⟩ := by
      refine ⟨⟨⟨_, _, _, _, rfl⟩, fun prev hp => (by cases hp), fun _ => rfl, fun o ho => (by cases ho),
        rfl, ⟨⟨[], lists_empty⟩, rfl, placed_nil, fun i => ?_⟩⟩, .nil, Nat.le_refl 0,
        fun j _ hj => absurd hj (Nat.not_lt_zero j), .inl ⟨rfl, rfl, hg.orphLebs⟩, Nat.zero_le _⟩
      exact ⟨fun hi => (by cases hi), fun ⟨a, ha, _⟩ => (by cases ha)⟩
    obtain ⟨k, m, n', hkill, hscan, hfar⟩ := Scanned.killFrom hg
      (fun lnum => (hsane lnum _ (List.mem_cons_self ..)).sorted) g.orphLebs 0 0 _ hstart (Nat.zero_add _)
    have hle : n ≤ m := by
      refine hfar n h.area.lebs ?_
      show (nodesUpTo g (attached s.area back) n).IsChain Fresh
      rw [hnodes]
      exact h.area.fresh
    rw [show s₁.ubifsMountOrphans g = _ from mount_scan hno hkill]
    refine ⟨k.removed, rfl, Scanned.survives (s := s₁) hscan hsane hun (fun i hi => ?_) h.outOfSpace
      h.clash⟩
    obtain ⟨hno, orph, ho, hio⟩ := h.kept i hi
    refine ⟨hno, orph, (nodesUpTo_mono hle).subset ?_, hio⟩
    show orph ∈ nodesUpTo g (attached s.area back) n
    rwa [hnodes]

end Mount

/-! ## Runs -/

section Runs

variable {g : Geometry} {s s' : State}

/-- A new file system. -/
theorem survives_initial (hg : g.Valid) (cmtNo : Nat) : Survives g (.initial g cmtNo) := by
  have hnil : ∀ lnum, ((State.initial g cmtNo).area lnum).nodes = [] := fun _ => rfl
  refine ⟨0, ⟨⟨fun lnum nodes hn => ?_, fun lnum _ => hnil lnum, Nat.zero_le _, .nil,
    fun k hk => absurd hk (Nat.not_lt_zero k)⟩, fun i hi => ?_, fun orph ho => (by cases ho), rfl, rfl⟩, .inr
    ⟨[], [], [], [], ⟨lists_empty, rfl, fun i hi => (by cases hi), fun a i hi => (by cases hi), fun hpos => ?_⟩,
      rfl, rfl, ⟨.inl ⟨rfl, rfl, hg.orphLebs⟩, placed_nil⟩, fun i hi => ?_⟩⟩
  · rw [List.mem_singleton.mp hn]
    exact sane_nil
  · cases hi.1
  · rcases hpos with hp | hp <;> exact absurd hp (lt_irrefl 0)
  · cases hi.1

/-- A mount removes all inodes that have to go, and none that is in use. -/
theorem Survives.mount (hg : g.Valid) {back : Nat → Option Nat} (h : Survives g s)
    (hs : s.step g (.mount back) = some s') :
    (∃ removed, s'.killed = some removed ∧ (∀ i, s.Needs i → i ∈ removed) ∧
      ∀ i ∈ removed, i ∈ s.ever) ∧ Survives g s' := by
  obtain ⟨n, hflash, -⟩ := h
  unfold State.step at hs
  dsimp only at hs
  split at hs
  · cases hs
    obtain ⟨removed, hk, hneeds, hever, hsurv⟩ := hflash.mount hg back
    exact ⟨⟨removed, hk, hneeds, hever⟩, hsurv⟩
  · cases hs

/-- Any step. -/
theorem Survives.step (hg : g.Valid) {e : Event} (h : Survives g s) (hok : e.Calm s)
    (hs : s.step g e = some s') : Survives g s' := by
  cases e with
  | add alloc inum => exact h.add hok hs
  | delete inum => exact h.delete hok hs
  | commit o => exact h.commitStep hg hok hs
  | crash =>
    cases hs
    exact h.crash
  | mount back => exact (h.mount hg hs).2

end Runs

/-- **Orphans survive power cuts.**  In every calm run there is room for all nodes, and each mount
    succeeds, removes the orphans that were owed at the start of the last commit with a master node and
    were not deleted since, and nothing that never was an orphan. -/
theorem orphans_survive {g : Geometry} {cmtNo : Nat} {s : State} (hg : g.Valid)
    (h : EventReach (State.step g) (fun s e => e.Calm s) (· = .initial g cmtNo) s) :
    s.outOfSpace = false ∧ s.pc ≠ .broken ∧ s.clash = false ∧
      ∀ back s', s.step g (.mount back) = some s' → ∃ removed, s'.killed = some removed ∧
        (∀ i ∈ s.mstOwed, i ∉ s.gone → i ∈ removed) ∧ ∀ i ∈ removed, i ∈ s.ever := by
  have hsurv : Survives g s := by
    apply EventReach.invariant ?_ ?_ h
    · rintro s rfl
      exact survives_initial hg cmtNo
    · exact fun s s' e hi hok hs => hi.step hg hok hs
  obtain ⟨n, hflash, hphase⟩ := id hsurv
  refine ⟨hflash.outOfSpace, fun hpc => ?_, hflash.clash, fun back s' hs => ?_⟩
  · rcases hphase with hdown | ⟨W, T, C, D, -, hstage⟩
    · rw [hpc] at hdown
      cases hdown
    · rw [hpc] at hstage
      exact hstage
  · obtain ⟨removed, hk, hneeds, hever⟩ := (hsurv.mount hg hs).1
    exact ⟨removed, hk, fun i hm hn => hneeds i ⟨hm, hn⟩, hever⟩

/-! ## A consolidation that is cut -/

/-- One orphan LEB, which is full after two commits. -/
def twoPages : Geometry := ⟨32768, 16384, 10, 1⟩

/-- The area of the example is one that is accepted. -/
theorem twoPages_valid : twoPages.Valid := ⟨by decide, by decide, by decide, by decide⟩

/-- Two commits; then an orphan is deleted, and the power is cut when the next commit has overwritten
    the LEB. -/
def cutRun : List Event :=
  .add true 5 :: List.replicate 8 (.commit .ok) ++ .add true 6 :: List.replicate 7 (.commit .ok) ++
    .delete 5 :: .add true 7 :: List.replicate 3 (.commit .ok) ++ [.commit (.cut .full)]

/-- The next mount removes the orphans that were not deleted. -/
theorem orphans_survive_cut :
    ∃ s : State, (s.mstOwed, s.gone, s.pc) = ([6, 5], [5], .down) ∧
      s.outOfSpace = false ∧ s.pc ≠ .broken ∧ s.clash = false ∧
        ∀ back s', s.step twoPages (.mount back) = some s' → ∃ removed, s'.killed = some removed ∧
          (∀ i ∈ s.mstOwed, i ∉ s.gone → i ∈ removed) ∧ ∀ i ∈ removed, i ∈ s.ever := by
  let run := runEvents (State.step twoPages) (fun s e => e.Calm s) (.initial twoPages 1) cutRun
  have hrun : run.map (fun s => (s.mstOwed, s.gone, s.pc)) = some ([6, 5], [5], .down) := by
    decide +kernel
  obtain ⟨s, hs, heq⟩ := Option.map_eq_some_iff.mp hrun
  exact ⟨s, heq, orphans_survive twoPages_valid (EventReach.run (.init rfl) hs)⟩

/-- The orphan that was deleted is not removed by the next mount: it is in the area no more, although
    no commit has completed since. -/
theorem deleted_not_removed :
    ∃ s s' : State, EventReach (State.step twoPages) (fun s e => e.Calm s) (· = .initial twoPages 1) s ∧
      s.step twoPages (.mount fun _ => none) = some s' ∧ 5 ∈ s.mstOwed ∧
      ∃ removed, s'.killed = some removed ∧ 5 ∉ removed := by
  let run := runEvents (State.step twoPages) (fun s e => e.Calm s) (.initial twoPages 1) cutRun
  have hrun : run.map (fun s => (s.mstOwed, (s.step twoPages (.mount fun _ => none)).bind (·.killed))) =
      some ([6, 5], some [6, 7]) := by
    decide +kernel
  obtain ⟨s, hs, heq⟩ := Option.map_eq_some_iff.mp hrun
  obtain ⟨howed, hkilled⟩ := Prod.mk.inj heq
  obtain ⟨s', hs', hk⟩ := Option.bind_eq_some_iff.mp hkilled
  refine ⟨s, s', EventReach.run (.init rfl) hs, hs', ?_, [6, 7], hk, by decide⟩
  rw [howed]
  decide

end Ubifs.Orphans
