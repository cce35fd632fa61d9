/-
  What holds at each point of a commit, if nothing is deleted meanwhile and no flash operation fails
  but for a power cut (`Event.Calm`).

  The first `n` LEBs of the area count (`Flash`), and the orphans `W` are in them in the order of the
  list (`Written`).  During a consolidation the first `j` of them were overwritten (`Moving`): with the
  first `j * perLeb` orphans of the list.  No more than `perLeb` orphans are in one LEB, so the others
  are not in those that were overwritten.
-/
import FlashStack.Ubifs.OrphanArea

namespace Ubifs.Orphans

open Lib

/-- No deletion during a commit, and none of an inode that a mount has removed; no failed operation. -/
def Event.Calm (s : State) : Event → Prop
  | .add _ inum => ∀ a ∈ s.delayed, inumIn s.mem a ≠ some inum
  | .delete inum => s.pc = .resting ∧ ∀ a ∈ s.delayed, inumIn s.mem a ≠ some inum
  | .commit o => o = .ok ∨ ∃ e, o = .cut e
  | .crash | .mount _ => True

instance decidableCalm (s : State) (e : Event) : Decidable (e.Calm s) :=
  match e with
  | .add .. => inferInstanceAs (Decidable (∀ a ∈ _, _))
  | .delete _ => inferInstanceAs (Decidable (_ ∧ ∀ a ∈ _, _))
  | .commit .ok => isTrue (.inl rfl)
  | .commit (.cut e) => isTrue (.inr ⟨e, rfl⟩)
  | .commit (.error _) => isFalse fun h => h.elim (fun h => by cases h) fun ⟨_, h⟩ => by cases h
  | .crash | .mount _ => inferInstanceAs (Decidable True)

/-- The inodes that the next mount has to remove. -/
def State.Needs (s : State) (i : Nat) : Prop := i ∈ s.mstOwed ∧ i ∉ s.gone

/-! ## The invariant -/

/-- Memory: `W` was written, `T` is in the node that is to be written, `C` is in the chain. -/
structure Memo (g : Geometry) (s : State) (W T C D : List Nat) : Prop where
  lists : Lists s.toMemory C D
  order : s.orphList = W ++ (T ++ (C ++ s.orphNew))
  owed : Owed s D
  known : ∀ a i, inumIn s.mem a = some i → i ∈ s.ever
  room : 0 < s.cmtOrphans ∨ 0 < s.newOrphans → s.totOrphans ≤ g.totAvailOrphs

/-- What is needed is on flash. -/
def Kept (g : Geometry) (s : State) (n : Nat) : Prop :=
  ∀ i, s.Needs i → s.mstNoOrphs = false ∧ ∃ orph ∈ nodesUpTo g s.area n, i ∈ orph.inos

/-- What is needed is among the orphans `W`. -/
def Covers (s : State) (W : List Nat) : Prop := ∀ i, s.Needs i → ∃ a ∈ W, inumIn s.mem a = some i

/-- What was owed at the start of the commit is among the orphans `W`. -/
def Owes (s : State) (W D : List Nat) : Prop :=
  ∀ i ∈ s.cmtOwed, s.noOrphs = false ∧ ∃ a ∈ W, a ∉ D ∧ inumIn s.mem a = some i

/-- `avail_orphs` -/
def space (g : Geometry) (s : State) : Nat :=
  (g.orphLast - s.oheadLnum) * g.perLeb + (g.lebSize - s.oheadOffs - ubifsOrphNodeSz) / 8

/-- The node that is to be written. -/
structure Pending (g : Geometry) (s : State) (orph : OrphNode) (T C : List Nat) : Prop where
  cmtNo : orph.cmtNo = s.cmtNo
  last : orph.last = decide (C = [])
  inos : orph.inos.map some = T.map (inumIn s.mem)
  fits : ubifsOrphNodeSz + orph.inos.length * 8 ≤ g.lebSize - s.oheadOffs

/-- The consolidation has overwritten `j` LEBs, with the orphans `W`. -/
structure Moving (g : Geometry) (s : State) (n j : Nat) (W V : List Nat) : Prop where
  le : j ≤ n
  full : W.length = j * g.perLeb
  placed : Placed g s.area s.mem j W
  behind : ∃ (U : List Nat) (pos : Nat → Nat), U <+: W ++ V ∧ (U.Pairwise fun a b => pos a ≤ pos b) ∧
    (∀ k, U.countP (pos · < k) ≤ k * g.perLeb) ∧
    (∀ a ∈ U, j ≤ pos a → pos a < n ∧ ∃ i, inumIn s.mem a = some i ∧
      (s.area (g.orphFirst + pos a)).Has i) ∧ Covers s U

/-- All that is in the LEBs that count. -/
structure Written (g : Geometry) (s : State) (n : Nat) (W : List Nat) : Prop where
  head : Head g s n
  placed : Placed g s.area s.mem n W

/-- What holds where the committer is. -/
def Stage (g : Geometry) (s : State) (n : Nat) (W T C D : List Nat) : Pc → Prop
  | .resting => T = [] ∧ C = [] ∧ Written g s n W ∧ Covers s W
  | .started => T = [] ∧ Written g s n W ∧ Owes s (W ++ C) D ∧ Covers s W
  | .writing false => T = [] ∧ Written g s n W ∧ Owes s (W ++ C) D ∧ C.length ≤ space g s
  | .node false orph => Written g s n W ∧ Owes s (W ++ (T ++ C)) D ∧ Pending g s orph T C ∧
      C.length ≤ space g (s.advance g orph)
  | .unmapped orph => Written g s n W ∧ Owes s (W ++ (T ++ C)) D ∧ Pending g s orph T C ∧
      C.length ≤ space g (s.advance g orph) ∧ s.oheadOffs = 0 ∧ (s.area s.oheadLnum).nodes = []
  | .writing true => T = [] ∧ Owes s (W ++ C) D ∧
      (C = [] ∧ Written g s n W ∨
        C ≠ [] ∧ ∃ j, Head g s j ∧ (j = 0 ∨ g.lebSize - s.oheadOffs < ubifsOrphNodeSz + 8) ∧
          Moving g s n j W C)
  | .node true orph => Owes s (W ++ (T ++ C)) D ∧ Pending g s orph T C ∧
      ∃ j, s.oheadLnum = g.orphFirst + j ∧ s.oheadOffs = 0 ∧ j < g.orphLebs ∧
        (C ≠ [] → T.length = g.perLeb) ∧ Moving g s n j W (T ++ C)
  | .clearing lnum => T = [] ∧ C = [] ∧ Written g s n W ∧ Owes s W D ∧ g.orphFirst + n ≤ lnum
  | .erasing => T = [] ∧ C = [] ∧ Written g s n W ∧ Owes s W D
  | .ended => T = [] ∧ C = [] ∧ D = [] ∧ Written g s n W ∧ Owes s W D
  | .broken | .down => False

/-- Flash, of whose orphan area `n` LEBs count. -/
structure Flash (g : Geometry) (s : State) (n : Nat) : Prop where
  area : Area g s.area s.ever n
  kept : Kept g s n
  cmtNo : ∀ orph ∈ nodesUpTo g s.area n, orph.cmtNo ≤ s.cmtNo
  outOfSpace : s.outOfSpace = false
  clash : s.clash = false

/-- The invariant, over the flash and the stage that the committer is in. -/
def Survives (g : Geometry) (s : State) : Prop :=
  ∃ n, Flash g s n ∧ (s.pc = .down ∨ ∃ W T C D, Memo g s W T C D ∧ Stage g s n W T C D s.pc)

/-! ## What depends on what -/

/-- Flash stays as it is. -/
structure Still (s s' : State) : Prop where
  area : s'.area = s.area
  lnum : s'.oheadLnum = s.oheadLnum
  offs : s'.oheadOffs = s.oheadOffs
  cmtNo : s.cmtNo ≤ s'.cmtNo
  mstNoOrphs : s'.mstNoOrphs = s.mstNoOrphs
  needs : ∀ i, s'.Needs i → s.Needs i
  ever : ∀ i ∈ s.ever, i ∈ s'.ever
  outOfSpace : s'.outOfSpace = s.outOfSpace
  clash : s'.clash = s.clash

/-- And so does the commit. -/
structure Alike (s s' : State) : Prop extends Still s s' where
  sameNo : s'.cmtNo = s.cmtNo
  noOrphs : s'.noOrphs = s.noOrphs
  cmtOwed : s'.cmtOwed = s.cmtOwed

section Alike

variable {g : Geometry} {s s' : State} {n j : Nat} {W V T C D : List Nat} {orph : OrphNode} {p : Pc}

/-- What a stage says of the flash needs the flash to stay as it is. -/
theorem Head.still (h : Head g s n) (hs : Still s s') : Head g s' n := by
  unfold Head
  rw [hs.lnum, hs.offs, hs.area]
  exact h

theorem Written.still (h : Written g s n W) (hs : Still s s')
    (hin : ∀ a ∈ V, inumIn s'.mem a = inumIn s.mem a) (hV : V.Sublist W) : Written g s' n V := by
  refine ⟨h.head.still hs, ?_⟩
  rw [hs.area]
  exact h.placed.congr hV (Nat.le_refl n) hin fun _ _ _ hh => hh

/-- What is owed depends on the counters and on who is on a list. -/
theorem Owes.alike (h : Owes s W D) (hs : Alike s s')
    (hin : ∀ a ∈ W, a ∉ D → a ∈ V ∧ inumIn s'.mem a = inumIn s.mem a)
    {D' : List Nat} (hD : ∀ a ∈ D', a ∈ D) : Owes s' V D' := by
  intro i hi
  rw [hs.cmtOwed] at hi
  obtain ⟨hno, a, ha, haD, heq⟩ := h i hi
  obtain ⟨hV, hsame⟩ := hin a ha haD
  exact ⟨hs.noOrphs.trans hno, a, hV, fun hc => haD (hD a hc), hsame.trans heq⟩

theorem Covers.still (h : Covers s W) (hs : Still s s')
    (hin : ∀ a ∈ W, inumIn s'.mem a = inumIn s.mem a) : Covers s' W := by
  intro i hi
  obtain ⟨a, ha, heq⟩ := h i (hs.needs i hi)
  exact ⟨a, ha, (hin a ha).trans heq⟩

/-- What a stage says of the memory needs the inode numbers of its orphans. -/
theorem Pending.alike (h : Pending g s orph T C) (hs : Alike s s')
    (hin : ∀ a ∈ T, inumIn s'.mem a = inumIn s.mem a) : Pending g s' orph T C where
  cmtNo := h.cmtNo.trans hs.sameNo.symm
  last := h.last
  inos := h.inos.trans (List.map_congr_left fun a ha => (hin a ha).symm)
  fits := hs.offs ▸ h.fits

/-- Consolidation goes on. -/
theorem Moving.alike (h : Moving g s n j W V) (hs : Alike s s')
    (hin : ∀ a ∈ W ++ V, inumIn s'.mem a = inumIn s.mem a) : Moving g s' n j W V := by
  refine ⟨h.le, h.full, ?_, ?_⟩
  · rw [hs.area]
    exact h.placed.congr (List.Sublist.refl W) (Nat.le_refl j)
      (fun a ha => hin a (List.mem_append_left V ha)) fun _ _ _ hh => hh
  · obtain ⟨U, pos, hpre, hmono, hcount, hpos, hcov⟩ := h.behind
    have hinU : ∀ a ∈ U, inumIn s'.mem a = inumIn s.mem a := fun a ha => hin a (hpre.subset ha)
    refine ⟨U, pos, hpre, hmono, hcount, fun a ha hj => ?_, hcov.still hs.toStill hinU⟩
    rw [hs.area, hinU a ha]
    exact hpos a ha hj

/-- How much space is left is told by the head. -/
theorem space_alike (hs : Alike s s') : space g s' = space g s := by
  unfold space
  rw [hs.lnum, hs.offs]

theorem space_advance_alike (hs : Alike s s') :
    space g (s'.advance g orph) = space g (s.advance g orph) := by
  unfold space State.advance
  dsimp only
  rw [hs.lnum, hs.offs]

/-- A stage is not disturbed by what leaves its orphans alone. -/
theorem Stage.alike (h : Stage g s n W T C D p) (hs : Alike s s')
    (hin : ∀ a ∈ W ++ (T ++ C), inumIn s'.mem a = inumIn s.mem a) : Stage g s' n W T C D p := by
  -- What a stage says of the orphans it says of their numbers, and of head and area, which are the same.
  have hW : ∀ a ∈ W, inumIn s'.mem a = inumIn s.mem a := fun a ha =>
    hin a (List.mem_append_left _ ha)
  have hT : ∀ a ∈ T, inumIn s'.mem a = inumIn s.mem a := fun a ha =>
    hin a (List.mem_append_right _ (List.mem_append_left _ ha))
  have hWC : ∀ a ∈ W ++ C, inumIn s'.mem a = inumIn s.mem a := fun a ha =>
    hin a ((List.mem_append.mp ha).elim (List.mem_append_left _)
      fun hC => List.mem_append_right _ (List.mem_append_right _ hC))
  have hwritten : Written g s n W → Written g s' n W := fun hw =>
    hw.still hs.toStill hW (List.Sublist.refl W)
  have howes : ∀ V, (∀ a ∈ V, inumIn s'.mem a = inumIn s.mem a) → Owes s V D → Owes s' V D :=
    fun V hV ho => ho.alike hs (fun a ha _ => ⟨ha, hV a ha⟩) fun _ ha => ha
  cases p with
  | resting => exact ⟨h.1, h.2.1, hwritten h.2.2.1, h.2.2.2.still hs.toStill hW⟩
  | started => exact ⟨h.1, hwritten h.2.1, howes _ hWC h.2.2.1, h.2.2.2.still hs.toStill hW⟩
  | writing atomic =>
    cases atomic with
    | false =>
      refine ⟨h.1, hwritten h.2.1, howes _ hWC h.2.2.1, ?_⟩
      rw [space_alike hs]
      exact h.2.2.2
    | true =>
      refine ⟨h.1, howes _ hWC h.2.1, ?_⟩
      rcases h.2.2 with ⟨hC, hw⟩ | ⟨hC, j, hhead, hoffs, hm⟩
      · exact .inl ⟨hC, hwritten hw⟩
      · refine .inr ⟨hC, j, hhead.still hs.toStill, ?_, hm.alike hs hWC⟩
        rw [hs.offs]
        exact hoffs
  | node atomic orph =>
    cases atomic with
    | false =>
      refine ⟨hwritten h.1, howes _ hin h.2.1, h.2.2.1.alike hs hT, ?_⟩
      rw [space_advance_alike hs]
      exact h.2.2.2
    | true =>
      obtain ⟨ho, hp, j, hl, hoffs, hlt, hfull, hm⟩ := h
      exact ⟨howes _ hin ho, hp.alike hs hT, j, hs.lnum.trans hl, hs.offs.trans hoffs, hlt, hfull,
        hm.alike hs hin⟩
  | unmapped orph =>
    obtain ⟨hw, ho, hp, hsp, hoffs, hnil⟩ := h
    refine ⟨hwritten hw, howes _ hin ho, hp.alike hs hT, ?_, hs.offs.trans hoffs, ?_⟩
    · rw [space_advance_alike hs]
      exact hsp
    · rw [hs.area, hs.lnum]
      exact hnil
  | clearing lnum => exact ⟨h.1, h.2.1, hwritten h.2.2.1, howes _ hW h.2.2.2.1, h.2.2.2.2⟩
  | erasing => exact ⟨h.1, h.2.1, hwritten h.2.2.1, howes _ hW h.2.2.2⟩
  | ended => exact ⟨h.1, h.2.1, h.2.2.1, hwritten h.2.2.2.1, howes _ hW h.2.2.2.2⟩
  | broken => exact h
  | down => exact h

/-- What is on flash stays there. -/
theorem Flash.still (h : Flash g s n) (hs : Still s s') : Flash g s' n where
  area := by
    rw [hs.area]
    exact h.area.mono hs.ever
  kept := by
    intro i hi
    rw [hs.mstNoOrphs, hs.area]
    exact h.kept i (hs.needs i hi)
  cmtNo := by
    rw [hs.area]
    exact fun orph ho => (h.cmtNo orph ho).trans hs.cmtNo
  outOfSpace := hs.outOfSpace.trans h.outOfSpace
  clash := hs.clash.trans h.clash

/-- What is in memory stays there. -/
theorem Memo.same (h : Memo g s W T C D) (hm : s'.toMemory = s.toMemory) (ho : s'.owed = s.owed)
    (he : s'.ever = s.ever) : Memo g s' W T C D where
  lists := hm ▸ h.lists
  order := by
    rw [hm]
    exact h.order
  owed := by
    unfold Owed
    rw [ho, hm]
    exact h.owed
  known := by
    rw [hm, he]
    exact h.known
  room := by
    rw [hm]
    exact h.room

/-- All orphans that are not new are written, in the node, or in the chain. -/
theorem Memo.mem_iff (h : Memo g s W T C D) {a : Nat} :
    a ∈ s.orphTree ↔ a ∈ W ++ (T ++ (C ++ s.orphNew)) := by
  rw [← h.order, h.lists.list.mem_iff]

end Alike

/-! ## Adding, deleting, and the power cut -/

section Events

variable {g : Geometry} {s s' : State} {n : Nat} {W T C D : List Nat} {p : Pc}

/-- `ubifs_add_orphan` finds the inode among the orphans, or puts it in front of the list. -/
theorem add_cases {m m' : Memory} {alloc : Bool} {inum : Nat}
    (h : m.ubifsAddOrphan g alloc inum = .ok m') :
    m' = m ∧ (∃ a, m.find inum = some a) ∨ m.totOrphans < g.totAvailOrphs ∧
      m' = { m.link ⟨inum, true, none, none⟩ with
        newOrphans := m.newOrphans + 1
        orphNew := m.orphNew ++ [m.brk] } := by
  unfold Memory.ubifsAddOrphan at h
  split at h
  · cases h
  split at h
  · cases h
  cases hf : m.find inum with
  | some a =>
    rw [hf] at h
    cases h
    exact .inl ⟨rfl, a, rfl⟩
  | none =>
    rw [hf] at h
    cases h
    exact .inr ⟨not_le.mp ‹_›, rfl⟩

/-- A new orphan is not in anybody's way. -/
theorem Survives.add {alloc : Bool} {inum : Nat} (h : Survives g s)
    (hok : (Event.add alloc inum).Calm s) (hs : s.step g (.add alloc inum) = some s') :
    Survives g s' := by
  obtain ⟨n, hflash, hphase⟩ := h
  unfold State.step at hs
  dsimp only at hs
  split at hs
  · cases hs
  obtain ⟨W, T, C, D, hmemo, hstage⟩ := hphase.resolve_left ‹_›
  -- Refused, nothing changes; else the new orphan is behind all others on the list.
  cases hadd : s.ubifsAddOrphan g alloc inum with
  | error e =>
    rw [hadd] at hs
    cases hs
    exact ⟨n, hflash, .inr ⟨W, T, C, D, hmemo, hstage⟩⟩
  | ok m =>
    rw [hadd] at hs
    cases hs
    have hl := hmemo.lists
    obtain ⟨hl', hsame, a, hnew⟩ := hl.add hadd
    have halike : Alike s { s with toMemory := m, owed := inum :: s.owed, ever := inum :: s.ever } :=
      ⟨⟨rfl, rfl, rfl, le_refl _, rfl, fun i hi => hi, fun i hi => List.mem_cons_of_mem _ hi, rfl, rfl⟩,
        rfl, rfl, rfl⟩
    have hin : ∀ a ∈ W ++ (T ++ C), inumIn m.mem a = inumIn s.mem a := fun a ha => by
      unfold inumIn
      rw [hsame a (hmemo.mem_iff.mpr ?_)]
      simp only [List.mem_append] at ha ⊢
      tauto
    refine ⟨n, hflash.still halike.toStill, .inr ⟨W, T, C, D, ⟨hl', ?_, hmemo.owed.add hl hok hadd, ?_, ?_⟩,
      hstage.alike halike hin⟩⟩
    · show m.orphList = W ++ (T ++ (C ++ m.orphNew))
      rcases add_cases hadd with ⟨rfl, -⟩ | ⟨-, rfl⟩
      · exact hmemo.order
      · show s.orphList ++ [s.brk] = _
        rw [hmemo.order]
        simp only [List.append_assoc]
    · -- known: any number is an old one or that of the new orphan
      intro b i hb
      show i ∈ inum :: s.ever
      by_cases hbt : b ∈ s.orphTree
      · refine List.mem_cons_of_mem _ (hmemo.known b i ?_)
        unfold inumIn at hb ⊢
        rwa [← hsame b hbt]
      · rcases hnew with ⟨-, rfl⟩ | ⟨rfl, hin⟩
        · exact List.mem_cons_of_mem _ (hmemo.known b i hb)
        · have hbm : b ∈ m.orphTree := by
            obtain ⟨o, ho, -⟩ := inumIn_some.mp hb
            exact (hl'.alive b).mpr ⟨o, ho⟩
          have hbk : b = s.brk := by
            rcases add_cases hadd with ⟨rfl, -⟩ | ⟨-, rfl⟩
            · exact absurd hbm hbt
            · exact List.mem_singleton.mp ((List.mem_append.mp hbm).resolve_left hbt)
          rw [hbk, hin] at hb
          exact Option.some.inj hb ▸ List.mem_cons_self ..
    · -- room: it was checked before
      show 0 < m.cmtOrphans ∨ 0 < m.newOrphans → m.totOrphans ≤ _
      rcases add_cases hadd with ⟨rfl, -⟩ | ⟨hlt, rfl⟩
      · exact hmemo.room
      · intro _
        show s.totOrphans + 1 ≤ _
        omega

/-- An orphan that was not put aside is freed at once. -/
theorem delete_cases {m : Memory} {inum : Nat} (h : Lists m [] D)
    (hD : ∀ a ∈ D, inumIn m.mem a ≠ some inum) :
    m.ubifsDeleteOrphan inum = m ∧ m.find inum = none ∨ ∃ a, m.find inum = some a ∧
      (a ∈ m.orphNew ∧ m.ubifsDeleteOrphan inum = ((m.unlink a).unlinkNew a).kfree a ∨
        a ∉ m.orphNew ∧ m.ubifsDeleteOrphan inum = (m.unlink a).kfree a) := by
  unfold Memory.ubifsDeleteOrphan
  cases hf : m.find inum with
  | none => exact .inl ⟨rfl, rfl⟩
  | some a =>
    refine .inr ⟨a, rfl, ?_⟩
    obtain ⟨-, o, ho, hi⟩ := h.find_some hf
    have hdn : ¬o.dnext.isSome = true := fun hd =>
      hD a (h.delayedOnly a o ho hd) (inumIn_some.mpr ⟨o, ho, hi⟩)
    have hcn : ¬o.cnext.isSome = true := fun hc => by
      have := (h.commitOnly a).mpr ⟨o, ho, hc⟩
      cases this
    simp only [ho, if_neg hdn, if_neg hcn]
    by_cases hn : o.new = true
    · rw [if_pos hn]
      exact .inl ⟨(h.new a).mpr ⟨o, ho, hn⟩, rfl⟩
    · rw [if_neg hn]
      refine .inr ⟨fun hmem => ?_, rfl⟩
      obtain ⟨o', ho', hn'⟩ := (h.new a).mp hmem
      rw [ho] at ho'
      cases ho'
      exact hn hn'

/-- An element is erased from the part that it is in. -/
theorem erase_append_nodup {l l' : List Nat} (h : (l ++ l').Nodup) (a : Nat) :
    (l ++ l').erase a = l.erase a ++ l'.erase a := by
  by_cases ha : a ∈ l
  · have hn : a ∉ l' := fun hb => (List.nodup_append.mp h).2.2 a ha a hb rfl
    rw [List.erase_append_left _ ha, List.erase_of_not_mem hn]
  · rw [List.erase_append_right _ ha, List.erase_of_not_mem ha]

/-- What a deletion between commits leaves of the list. -/
theorem delete_leaves {m : Memory} {inum : Nat} (h : Lists m [] D)
    (hD : ∀ a ∈ D, inumIn m.mem a ≠ some inum) (horder : m.orphList = W ++ m.orphNew) :
    ∃ W', W'.Sublist W ∧
      (m.ubifsDeleteOrphan inum).orphList = W' ++ (m.ubifsDeleteOrphan inum).orphNew ∧
      (∀ a ∈ W, m.find inum ≠ some a → a ∈ W') ∧ (∀ a ∈ W', m.find inum ≠ some a) ∧
      (∀ a o, (m.ubifsDeleteOrphan inum).mem a = some o → m.mem a = some o) ∧
      (m.ubifsDeleteOrphan inum).cmtOrphans = m.cmtOrphans ∧
      (m.ubifsDeleteOrphan inum).newOrphans ≤ m.newOrphans ∧
      (m.ubifsDeleteOrphan inum).totOrphans ≤ m.totOrphans := by
  have hnodup : (W ++ m.orphNew).Nodup := horder ▸ h.list.nodup_iff.mpr h.nodup
  rcases delete_cases h hD with ⟨heq, hf⟩ | ⟨a, hf, hcases⟩
  · -- nothing was found to be freed
    rw [heq, hf]
    exact ⟨W, List.Sublist.refl W, horder, fun a ha _ => ha, fun a _ hc => (by cases hc),
      fun a o ho => ho, rfl, le_refl _, le_refl _⟩
  · -- `a` is taken from the list, and from that of the new ones if it is there
    have hW : W.Nodup := (List.nodup_append.mp hnodup).1
    have hmem : ∀ b o, Function.update m.mem a none b = some o → m.mem b = some o := fun b o ho => by
      by_cases hb : b = a
      · rw [hb, Function.update_self] at ho
        cases ho
      · rwa [Function.update_of_ne hb] at ho
    have hlist : m.orphList.erase a = W.erase a ++ m.orphNew.erase a := by
      rw [horder]
      exact erase_append_nodup hnodup a
    refine ⟨W.erase a, List.erase_sublist, ?_, fun b hb hn => ?_, fun b hb hc => ?_, ?_⟩
    · rcases hcases with ⟨-, heq⟩ | ⟨hn, heq⟩
      · rw [heq]
        exact hlist
      · rw [heq]
        exact hlist.trans (congrArg (W.erase a ++ ·) (List.erase_of_not_mem hn))
    · have hne : b ≠ a := fun hc => hn (hc ▸ hf)
      exact (List.mem_erase_of_ne hne).mpr hb
    · rw [hf] at hc
      exact (hW.mem_erase_iff.mp hb).1 (Option.some.inj hc).symm
    · rcases hcases with ⟨-, heq⟩ | ⟨-, heq⟩
      · rw [heq]
        refine ⟨hmem, rfl, ?_, ?_⟩
        · show m.newOrphans - 1 ≤ m.newOrphans
          omega
        · show m.totOrphans - 1 ≤ m.totOrphans
          omega
      · rw [heq]
        refine ⟨hmem, rfl, le_refl _, ?_⟩
        show m.totOrphans - 1 ≤ m.totOrphans
        omega

/-- An orphan that is deleted while it is being committed is only marked. -/
theorem Survives.delete {inum : Nat} (h : Survives g s) (hok : (Event.delete inum).Calm s)
    (hs : s.step g (.delete inum) = some s') : Survives g s' := by
  obtain ⟨n, hflash, hphase⟩ := h
  obtain ⟨hpc, hok⟩ := hok
  unfold State.step at hs
  dsimp only at hs
  split at hs
  · cases hs
  obtain ⟨W, T, C, D, hmemo, hstage⟩ := hphase.resolve_left ‹_›
  rw [hpc] at hstage
  obtain ⟨rfl, rfl, hw, hcov⟩ := hstage
  cases hs
  have hl := hmemo.lists
  have hD : ∀ a ∈ D, inumIn s.mem a ≠ some inum := fun a ha => hok a (by rwa [hl.delayed_eq])
  -- `hok`: it is not deleted twice, so the list of those put aside has another orphan at its end.
  obtain ⟨D', hl', hother⟩ := hl.delete fun a hf hlast => by
    obtain ⟨-, o, ho, hi⟩ := hl.find_some hf
    exact hD a (List.mem_of_getLast? hlast) (inumIn_some.mpr ⟨o, ho, hi⟩)
  obtain ⟨W', hsub, horder, hkeep, hrest, hmem, hcmt, hnew, htot⟩ := delete_leaves hl hD hmemo.order
  have hsame : ∀ b, s.find inum ≠ some b → inumIn (s.ubifsDeleteOrphan inum).mem b = inumIn s.mem b :=
    fun b hb => congrArg _ (hother b hb).1
  generalize hs' : ({ s with
      toMemory := s.ubifsDeleteOrphan inum
      owed := s.owed.filter (· ≠ inum)
      cmtGone := inum :: s.cmtGone
      gone := inum :: s.gone } : State) = s'
  have hm' : s'.toMemory = s.ubifsDeleteOrphan inum := by rw [← hs']
  have halike : Alike s s' := by
    rw [← hs']
    exact ⟨⟨rfl, rfl, rfl, le_refl _, rfl,
      fun i hi => ⟨hi.1, fun hc => hi.2 (List.mem_cons_of_mem _ hc)⟩, fun i hi => hi, rfl, rfl⟩,
      rfl, rfl, rfl⟩
  have hin : ∀ a ∈ W', inumIn s'.mem a = inumIn s.mem a := fun a ha => by
    rw [hm']
    exact hsame a (hrest a ha)
  refine ⟨n, hflash.still halike.toStill, .inr ⟨W', [], [], D', ⟨hm' ▸ hl', ?_, fun i hi => ?_, fun a i hi => ?_,
    fun hpos => ?_⟩, ?_⟩⟩
  · rw [hm']
    exact horder
  · -- owed: all others are still owed, and are where they were
    have hi : i ∈ s.owed.filter (· ≠ inum) := by rwa [← hs'] at hi
    obtain ⟨b, hb, hbD, hfb⟩ := hmemo.owed.delete hl i hi
    refine ⟨b, ?_, fun hc => hbD ((hother b hfb).2 hc)⟩
    rw [hm']
    exact (hsame b hfb).trans hb
  · rw [hm'] at hi
    obtain ⟨o, ho, hio⟩ := inumIn_some.mp hi
    exact halike.ever i (hmemo.known a i (inumIn_some.mpr ⟨o, hmem a o ho, hio⟩))
  · rw [hm'] at hpos ⊢
    rw [hcmt] at hpos
    exact htot.trans (hmemo.room (hpos.imp id fun hn => lt_of_lt_of_le hn hnew))
  · -- Between commits what is needed is on flash: a deleted inode is not needed any more.
    have hpc' : s'.pc = .resting := by
      rw [← hs']
      exact hpc
    rw [hpc']
    refine ⟨rfl, rfl, hw.still halike.toStill hin hsub, fun i hi => ?_⟩
    obtain ⟨a, ha, heq⟩ := hcov i (halike.needs i hi)
    have hfa : s.find inum ≠ some a := fun hf => by
      obtain ⟨-, o, ho, hio⟩ := hl.find_some hf
      rw [inumIn_some.mpr ⟨o, ho, hio⟩] at heq
      obtain rfl : inum = i := Option.some.inj heq
      rw [← hs'] at hi
      exact hi.2 (List.mem_cons_self ..)
    exact ⟨a, hkeep a ha hfa, (hin a (hkeep a ha hfa)).trans heq⟩

/-- The power may go at any time. -/
theorem Survives.crash (h : Survives g s) : Survives g { s with pc := .down } := by
  obtain ⟨n, hflash, -⟩ := h
  refine ⟨n, hflash.still ?_, .inl rfl⟩
  exact ⟨rfl, rfl, rfl, le_refl _, rfl, fun _ hi => hi, fun _ hi => hi, rfl, rfl⟩

end Events

end Ubifs.Orphans
