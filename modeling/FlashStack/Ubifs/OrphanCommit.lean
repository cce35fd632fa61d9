/-
  The steps of a commit keep what is needed on flash.

  1. the start, and the choice between writing behind the other nodes and consolidation;
  2. making up a node;
  3. the flash operations;
  4. the end.
-/
import FlashStack.Ubifs.OrphanStages

namespace Ubifs.Orphans

open Lib

/-! ## The start of a commit -/

section Commit

variable {g : Geometry} {s s' : State} {n : Nat} {W T C D : List Nat} {p : Pc} {o : Outcome}

/-- A list is linked, and the counters stay. -/
theorem chain_lists {m : Memory} {f : Orphan → Orphan} {l : List Nat} (hl : l.Nodup)
    (halive : ∀ a ∈ l, ∃ o, m.mem a = some o) :
    (m.chain f l none).orphList = m.orphList ∧ (m.chain f l none).totOrphans = m.totOrphans ∧
      (m.chain f l none).orphNew = m.orphNew ∧ (m.chain f l none).newOrphans = m.newOrphans := by
  obtain ⟨mem, q, r, heq, -, -⟩ := chain_spec (f := f) hl halive
  rw [heq]
  exact ⟨rfl, rfl, rfl, rfl⟩

/-- `ubifs_orphan_start_commit` -/
theorem Survives.start (hflash : Flash g s n) (hmemo : Memo g s W T C D)
    (hstage : Stage g s n W T C D .resting) :
    Survives g { ({ s with cmtNo := s.cmtNo + 1 }).ubifsOrphanStartCommit with
      pc := .started, cmtOwed := s.owed, cmtGone := [] } := by
  obtain ⟨rfl, rfl, hw, hcov⟩ := hstage
  have hl := hmemo.lists
  have halive : ∀ a ∈ s.orphNew, ∃ o, s.mem a = some o := fun a ha => by
    obtain ⟨o, ho, -⟩ := (hl.new a).mp ha
    exact ⟨o, ho⟩
  obtain ⟨hl', hin⟩ := hl.start
  obtain ⟨hlist, htot, -, -⟩ := chain_lists (f := fun o => { o with new := false }) hl.newNodup halive
  -- What the commit owes now is in the tree: written before, or among those that are chained up.
  have howes : ∀ i ∈ s.owed, s.totOrphans ≠ 0 ∧ ∃ a ∈ W ++ s.orphNew, a ∉ D ∧ inumIn s.mem a = some i := by
    intro i hi
    obtain ⟨a, ha, hD⟩ := hmemo.owed i hi
    obtain ⟨o, ho, -⟩ := inumIn_some.mp ha
    have hmem : a ∈ s.orphTree := (hl.alive a).mpr ⟨o, ho⟩
    refine ⟨?_, a, hmemo.mem_iff.mp hmem, hD, ha⟩
    have := List.length_pos_of_mem hmem
    have := hl.totOrphans
    omega
  let s' : State := { ({ s with cmtNo := s.cmtNo + 1 }).ubifsOrphanStartCommit with
    pc := .started, cmtOwed := s.owed, cmtGone := [] }
  have hstill : Still s s' :=
    ⟨rfl, rfl, rfl, Nat.le_succ _, rfl, fun _ hi => hi, fun _ hi => hi, rfl, rfl⟩
  have hin' : ∀ a, inumIn s'.mem a = inumIn s.mem a := fun a => congrFun hin a
  refine ⟨n, hflash.still hstill, .inr ⟨W, [], s.orphNew, D, ⟨hl', ?_, ?_, ?_, ?_⟩, rfl,
    hw.still hstill (fun a _ => hin' a) (List.Sublist.refl W), ?_,
    hcov.still hstill fun a _ => hin' a⟩⟩
  · -- the new orphans are the chain, behind those that were written
    show (s.chain _ s.orphNew none).orphList = W ++ ([] ++ (s.orphNew ++ []))
    rw [hlist, List.append_nil]
    exact hmemo.order
  · intro i hi
    obtain ⟨a, ha, hD⟩ := hmemo.owed i hi
    exact ⟨a, (hin' a).trans ha, hD⟩
  · intro a i hi
    exact hmemo.known a i ((hin' a).symm.trans hi)
  · -- Nothing was added or freed, so the bound of `room` is that of before.
    intro hpos
    show (s.chain (fun o => { o with new := false }) s.orphNew none).totOrphans ≤ _
    rw [htot]
    exact hmemo.room (.inr (hpos.resolve_right (lt_irrefl _)))
  · -- All that is owed is owed by this commit.
    intro i hi
    obtain ⟨htot, a, ha, hD, heq⟩ := howes i hi
    exact ⟨decide_eq_false htot, a, ha, hD, (hin' a).trans heq⟩

/-- The head is in the area. -/
theorem Head.lnum_le (hg : g.Valid) (h : Head g s n) (hn : n ≤ g.orphLebs) :
    g.orphFirst ≤ s.oheadLnum ∧ s.oheadLnum ≤ g.orphLast := by
  have := hg.orphLebs
  unfold Geometry.orphLast
  rcases h with ⟨hl, -, hlt⟩ | ⟨hpos, hl, -⟩ <;> omega

/-- `avail_orphs` is what fits into the rest of the LEB at the head, and into the LEBs behind it. -/
theorem availOrphs_eq (hg : g.Valid) (h : Head g s n) (hn : n ≤ g.orphLebs) :
    s.availOrphs g = space g s := by
  obtain ⟨hfirst, hlast⟩ := h.lnum_le hg hn
  have hlebs : (g.orphLebs : Int) - (s.oheadLnum - g.orphFirst) - 1 =
      (g.orphLast - s.oheadLnum : Nat) := by
    have := hg.orphLebs
    unfold Geometry.orphLast at hlast ⊢
    omega
  unfold State.availOrphs space
  dsimp only
  rw [hlebs]
  split
  · push_cast
    ring
  · have hz : (g.lebSize - s.oheadOffs - ubifsOrphNodeSz) / 8 = 0 := by
      unfold ubifsOrphNodeSz at *
      omega
    rw [hz]
    push_cast
    ring

/-- No orphan is in two of the lists. -/
theorem Memo.nodup (h : Memo g s W T C D) : (W ++ (T ++ (C ++ s.orphNew))).Nodup := by
  rw [← h.order]
  exact h.lists.list.nodup_iff.mpr h.lists.nodup

/-- Orphans have different inode numbers. -/
theorem Memo.inj (h : Memo g s W T C D) {a b : Nat} (ha : a ∈ W ++ (T ++ (C ++ s.orphNew)))
    (heq : inumIn s.mem a = inumIn s.mem b) : a = b := by
  obtain ⟨oa, hoa⟩ := (h.lists.alive a).mp (h.mem_iff.mpr ha)
  rw [inumIn_some.mpr ⟨oa, hoa, rfl⟩] at heq
  obtain ⟨ob, hob, hi⟩ := inumIn_some.mp heq.symm
  exact h.lists.inum a b oa ob hoa hob hi.symm

/-- Those that are older than the commit. -/
theorem Memo.oldOrphans (h : Memo g s W [] C D) : s.oldOrphans = W ++ C := by
  have hpred : ∀ a ∈ s.orphTree, (s.mem a).any (·.new = false) = true ↔ a ∉ s.orphNew := by
    intro a ha
    have hmem := h.lists.mem_oldOrphans (a := a)
    unfold Memory.oldOrphans at hmem
    rw [List.mem_filter, h.lists.list.mem_iff] at hmem
    exact ⟨fun hp => (hmem.mp ⟨ha, hp⟩).2, fun hn => (hmem.mpr ⟨ha, hn⟩).2⟩
  have hnodup := h.nodup
  rw [List.nil_append, ← List.append_assoc] at hnodup
  have hcross := (List.nodup_append.mp hnodup).2.2
  unfold Memory.oldOrphans
  rw [h.order, List.nil_append, ← List.append_assoc, List.filter_append]
  have hold : (W ++ C).filter (fun a => (s.mem a).any (·.new = false)) = W ++ C := by
    refine List.filter_eq_self.mpr fun a ha => (hpred a ?_).mpr fun hn => hcross a ha a hn rfl
    rw [h.mem_iff, List.nil_append, ← List.append_assoc]
    exact List.mem_append_left _ ha
  have hnew : s.orphNew.filter (fun a => (s.mem a).any (·.new = false)) = [] := by
    refine List.filter_eq_nil_iff.mpr fun a ha hp => (hpred a ?_).mp hp ha
    rw [h.mem_iff, List.nil_append, ← List.append_assoc]
    exact List.mem_append_right _ ha
  rw [hold, hnew, List.append_nil]

/-- `consolidate` has room for all orphans. -/
theorem Survives.consolidate (hg : g.Valid) (hflash : Flash g s n) (hmemo : Memo g s W T C D)
    (hstage : Stage g s n W T C D .started) (hC : C ≠ []) : Survives g (s.consolidate g) := by
  obtain ⟨rfl, ⟨hhead, pos, hpos, hmono⟩, howes, hcov⟩ := hstage
  have hl := hmemo.lists
  have hold := hmemo.oldOrphans
  -- The chain is not empty, so there are at most as many orphans as the area has room for.
  have htot : s.totOrphans ≤ g.totAvailOrphs := hmemo.room (.inl (by
    have := hl.cmtOrphans
    have := List.length_pos_of_ne_nil hC
    omega))
  have hnew := hl.newOrphans
  unfold State.consolidate
  rw [if_pos (by omega)]
  obtain ⟨hl', hin⟩ := hl.consolidate
  have halive : ∀ a ∈ s.oldOrphans, ∃ o, s.mem a = some o := fun a ha =>
    (hl.alive a).mp (hl.mem_oldOrphans.mp ha).1
  obtain ⟨hlist, htot', hnew', hnum'⟩ := chain_lists (f := id) hl.nodup_oldOrphans halive
  have hin' : ∀ a, inumIn (s.chain id s.oldOrphans none).mem a = inumIn s.mem a := fun a =>
    congrFun hin a
  let s' : State := { s with
    toMemory := { s.chain id s.oldOrphans none with cmtOrphans := s.oldOrphans.length }
    oheadLnum := g.orphFirst
    oheadOffs := 0
    pc := .writing true }
  have hWnodup : W.Nodup := (List.nodup_append.mp hmemo.nodup).1
  have hcount := count_pos_le hg hflash.area hWnodup
    (fun a ha b _ => hmemo.inj (List.mem_append_left _ ha)) hpos
  -- No old node is overwritten yet: they have the orphans `W`, in the order these are written again.
  have hbehind : Moving g s' n 0 [] (W ++ C) := by
    refine ⟨Nat.zero_le n, (Nat.zero_mul _).symm, placed_nil, W, pos, List.prefix_append W C, hmono,
      hcount, fun a ha _ => ?_, fun i hi => ?_⟩
    · show pos a < n ∧ ∃ i, inumIn (s.chain id s.oldOrphans none).mem a = some i ∧ _
      rw [hin' a]
      exact hpos a ha
    · obtain ⟨a, ha, heq⟩ := hcov i hi
      exact ⟨a, ha, (hin' a).trans heq⟩
  refine ⟨n, ⟨hflash.area, hflash.kept, hflash.cmtNo, hflash.outOfSpace, hflash.clash⟩, .inr ⟨[], [],
    W ++ C, D, ⟨hold ▸ hl', ?_, fun i hi => ?_, fun a i hi => ?_, fun _ => ?_⟩, rfl, fun i hi => ?_,
    .inr ⟨?_, 0, ?_, .inl rfl, hbehind⟩⟩⟩
  · -- the chain has all orphans that are not new
    show (s.chain id s.oldOrphans none).orphList = [] ++ ([] ++ ((W ++ C) ++
      (s.chain id s.oldOrphans none).orphNew))
    rw [hlist, hnew', hmemo.order]
    simp only [List.nil_append, List.append_assoc]
  · obtain ⟨a, ha, hD⟩ := hmemo.owed i hi
    exact ⟨a, (hin' a).trans ha, hD⟩
  · exact hmemo.known a i ((hin' a).symm.trans hi)
  · show (s.chain id s.oldOrphans none).totOrphans ≤ _
    rw [htot']
    exact htot
  · obtain ⟨hno, a, ha, hD, heq⟩ := howes i hi
    exact ⟨hno, a, ha, hD, (hin' a).trans heq⟩
  · exact fun hnil => hC (List.append_eq_nil_iff.mp hnil).2
  · -- the head is at the start of the area
    exact .inl ⟨rfl, rfl, hg.orphLebs⟩

/-- Only the committer goes on. -/
theorem alike_pc (p : Pc) : Alike s { s with pc := p } :=
  ⟨⟨rfl, rfl, rfl, le_refl _, rfl, fun _ hi => hi, fun _ hi => hi, rfl, rfl⟩, rfl, rfl, rfl⟩

/-- The committer goes on to its next step. -/
theorem Survives.goto (hflash : Flash g s n) (hmemo : Memo g s W T C D)
    (hstage : Stage g s n W T C D p) : Survives g { s with pc := p } :=
  ⟨n, hflash.still (alike_pc p).toStill, .inr ⟨W, T, C, D, hmemo.same rfl rfl rfl,
    hstage.alike (alike_pc p) fun _ _ => rfl⟩⟩

/-- `ubifs_orphan_end_commit` starts. -/
theorem Survives.started (hg : g.Valid) (hflash : Flash g s n) (hmemo : Memo g s W T C D)
    (hstage : Stage g s n W T C D .started) :
    Survives g (if s.cmtOrphans ≠ 0 then s.commitOrphans g else { s with pc := .erasing }) := by
  have hcmt := hmemo.lists.cmtOrphans
  split
  · have hC : C ≠ [] := by
      rintro rfl
      exact ‹s.cmtOrphans ≠ 0› hcmt
    unfold State.commitOrphans
    split
    · -- they do not fit behind the head
      exact Survives.consolidate hg hflash hmemo hstage hC
    · -- they fit
      rename_i havail
      obtain ⟨hT, hw, howes, -⟩ := hstage
      refine Survives.goto hflash hmemo ⟨hT, hw, howes, ?_⟩
      rw [availOrphs_eq hg hw.head hflash.area.lebs] at havail
      omega
  · -- there is nothing to write
    obtain ⟨hT, hw, howes, -⟩ := hstage
    have hC : C = [] := List.length_eq_zero_iff.mp (by omega)
    subst hC
    rw [List.append_nil] at howes
    exact Survives.goto hflash hmemo ⟨hT, rfl, hw, howes⟩

/-- `write_orph_node` makes up a node of the first orphans of the chain. -/
theorem Memo.makeNode (atomic : Bool) (h : Memo g s W [] C D)
    (hgap : ubifsOrphNodeSz + 8 ≤ g.lebSize - s.oheadOffs) :
    ∃ T C' orph, C = T ++ C' ∧ T.length = s.nodeCnt g ∧
      (s.makeNode g atomic).pc = .node atomic orph ∧ Memo g (s.makeNode g atomic) W T C' D ∧
      Pending g (s.makeNode g atomic) orph T C' ∧ Alike s (s.makeNode g atomic) ∧
      ∀ a, inumIn (s.makeNode g atomic).mem a = inumIn s.mem a := by
  have hcmt := h.lists.cmtOrphans
  have hle : s.nodeCnt g ≤ (g.lebSize - s.oheadOffs - ubifsOrphNodeSz) / 8 := Nat.min_le_left ..
  obtain ⟨inos, q, mem, heq, hl', hinos, hin⟩ := h.lists.takeNode (g := g)
  have hlen : (C.take (s.nodeCnt g)).length = s.nodeCnt g := by
    have : s.nodeCnt g ≤ s.cmtOrphans.toNat := Nat.min_le_right ..
    rw [List.length_take]
    omega
  have hin' : ∀ a, inumIn mem a = inumIn s.mem a := congrFun hin
  have hdrop : s.cmtOrphans - s.nodeCnt g = (C.drop (s.nodeCnt g)).length := hl'.cmtOrphans
  -- The node has the first orphans of the chain, as many as fit and as there are.
  have hsplit : C.take (s.nodeCnt g) ++ C.drop (s.nodeCnt g) = C := List.take_append_drop ..
  have hinlen : inos.length = s.nodeCnt g := by
    have := congrArg List.length hinos
    rwa [List.length_map, List.length_map, hlen] at this
  rw [makeNode_eq heq]
  refine ⟨C.take (s.nodeCnt g), C.drop (s.nodeCnt g),
    ⟨s.cmtNo, decide (s.cmtOrphans - s.nodeCnt g = 0), inos⟩, hsplit.symm, hlen, rfl,
    ⟨hl', ?_, fun i hi => ?_, fun a i hi => ?_, fun hpos => ?_⟩, ⟨rfl, ?_, ?_, ?_⟩, ?_, hin'⟩
  · show s.orphList = W ++ (C.take (s.nodeCnt g) ++ (C.drop (s.nodeCnt g) ++ s.orphNew))
    rw [← List.append_assoc (C.take _), hsplit]
    exact h.order
  · obtain ⟨a, ha, hD⟩ := h.owed i hi
    exact ⟨a, (hin' a).trans ha, hD⟩
  · exact h.known a i ((hin' a).symm.trans hi)
  · refine h.room (hpos.imp (fun hp => ?_) id)
    have hp : 0 < s.cmtOrphans - s.nodeCnt g := hp
    omega
  · -- the last node of the commit is marked
    show decide (s.cmtOrphans - s.nodeCnt g = 0) = decide (C.drop (s.nodeCnt g) = [])
    rw [hdrop]
    exact decide_eq_decide.mpr (Int.natCast_eq_zero.trans List.length_eq_zero_iff)
  · rw [show inumIn ({ s.toMemory with mem := mem } : Memory).mem = inumIn s.mem from hin]
    exact hinos
  · -- it fits into the LEB
    show ubifsOrphNodeSz + inos.length * 8 ≤ g.lebSize - s.oheadOffs
    rw [hinlen]
    omega
  · exact ⟨⟨rfl, rfl, rfl, le_refl _, rfl, fun _ hi => hi, fun _ hi => hi, rfl, rfl⟩, rfl, rfl, rfl⟩

/-- A node goes into the rest of the LEB at the head, or starts the next one. -/
theorem Survives.writing (hg : g.Valid) (hflash : Flash g s n) (hmemo : Memo g s W T C D)
    (hstage : Stage g s n W T C D (.writing false)) (hC : C ≠ []) :
    Survives g (s.writeOrphNode g false) := by
  obtain ⟨rfl, hw, howes, hspace⟩ := hstage
  have hpos := List.length_pos_of_ne_nil hC
  -- with the head where there is room for a node
  have hnode : ∀ s₁ : State, Flash g s₁ n → Memo g s₁ W [] C D → Written g s₁ n W →
      Owes s₁ (W ++ C) D → C.length ≤ space g s₁ → ubifsOrphNodeSz + 8 ≤ g.lebSize - s₁.oheadOffs →
      Survives g (s₁.makeNode g false) := by
    intro s₁ hflash hmemo hw howes hspace hgap
    obtain ⟨T, C', orph, rfl, hT, hpc, hmemo', hpend, halike, hin⟩ := hmemo.makeNode false hgap
    refine ⟨n, hflash.still halike.toStill, .inr ⟨W, T, C', D, hmemo', ?_⟩⟩
    rw [hpc]
    refine ⟨hw.still halike.toStill (fun a _ => hin a) (List.Sublist.refl W),
      howes.alike halike (fun a ha _ => ⟨ha, hin a⟩) fun _ ha => ha, hpend, ?_⟩
    rw [space_advance_alike halike]
    have hcmt := hmemo.lists.cmtOrphans
    unfold space at hspace ⊢
    unfold State.nodeCnt at hT
    show C'.length ≤ (g.orphLast - s₁.oheadLnum) * g.perLeb + _
    rw [List.length_append] at hspace hcmt
    -- The node is full, or has all that was left.
    rcases Nat.le_total ((g.lebSize - s₁.oheadOffs - ubifsOrphNodeSz) / 8) s₁.cmtOrphans.toNat with hle | hle
    · rw [Nat.min_eq_left hle] at hT
      omega
    · rw [Nat.min_eq_right hle] at hT
      omega
  unfold State.writeOrphNode
  split
  · -- the rest of the LEB is too short
    rename_i hgap
    have hz : (g.lebSize - s.oheadOffs - ubifsOrphNodeSz) / 8 = 0 := by
      unfold ubifsOrphNodeSz at *
      omega
    unfold space at hspace
    rw [hz, Nat.add_zero] at hspace
    have hper : 0 < g.perLeb := by
      by_contra hn
      rw [Nat.eq_zero_of_not_pos hn, Nat.mul_zero] at hspace
      omega
    have hlnum : 0 < g.orphLast - s.oheadLnum := by
      by_contra hn
      rw [Nat.eq_zero_of_not_pos hn, Nat.zero_mul] at hspace
      omega
    have hbig : ubifsOrphNodeSz + 8 ≤ g.lebSize := by
      unfold Geometry.perLeb at hper
      have := Nat.div_pos_iff.mp hper
      omega
    have hhead : s.oheadLnum + 1 = g.orphFirst + n ∧ n < g.orphLebs := by
      have := hg.orphLebs
      unfold Geometry.orphLast at hlnum
      rcases hw.head with ⟨-, hoffs, -⟩ | ⟨hn, hl, -⟩
      · omega
      · omega
    dsimp only
    rw [if_neg (by omega)]
    refine hnode { s with oheadLnum := s.oheadLnum + 1, oheadOffs := 0 }
      ⟨hflash.area, hflash.kept, hflash.cmtNo, hflash.outOfSpace, hflash.clash⟩
      (hmemo.same rfl rfl rfl) ⟨.inl ⟨hhead.1, rfl, hhead.2⟩, hw.placed⟩ howes ?_ hbig
    show C.length ≤ (g.orphLast - (s.oheadLnum + 1)) * g.perLeb + g.perLeb
    rw [← Nat.succ_mul, show (g.orphLast - (s.oheadLnum + 1)).succ = g.orphLast - s.oheadLnum by omega]
    exact hspace
  · rename_i hgap
    exact hnode s hflash hmemo hw howes hspace (not_lt.mp hgap)

/-- Half of the area is enough for all orphans, so there is an LEB for the next node. -/
theorem Moving.lt {j : Nat} (hmemo : Memo g s W [] C D) (hm : Moving g s n j W C) (hC : C ≠ []) :
    0 < g.perLeb ∧ j < g.orphLebs := by
  have hpos := List.length_pos_of_ne_nil hC
  have hcmt := hmemo.lists.cmtOrphans
  have htot := hmemo.room (.inl (by omega))
  rw [hmemo.lists.totOrphans, ← hmemo.lists.list.length_eq, hmemo.order] at htot
  simp only [List.nil_append, List.length_append, hm.full] at htot
  unfold Geometry.totAvailOrphs at htot
  have hlt : j * g.perLeb < g.orphLebs * g.perLeb := by omega
  exact ⟨Nat.pos_of_lt_mul_left hlt, Nat.lt_of_mul_lt_mul_right hlt⟩

/-- In a consolidation each node starts an LEB. -/
theorem Survives.moving (hflash : Flash g s n) (hmemo : Memo g s W T C D)
    (hstage : Stage g s n W T C D (.writing true)) (hC : C ≠ []) :
    Survives g (s.writeOrphNode g true) := by
  obtain ⟨rfl, howes, hcase⟩ := hstage
  obtain ⟨-, j, hhead, hoffs, hm⟩ := hcase.resolve_left fun hc => hC hc.1
  obtain ⟨hper, hlt⟩ := hm.lt hmemo hC
  have hbig : ubifsOrphNodeSz + 8 ≤ g.lebSize := by
    unfold Geometry.perLeb at hper
    have := Nat.div_pos_iff.mp hper
    omega
  -- with the head at the start of an LEB that the consolidation has not reached
  have hnode : ∀ s₁ : State, Flash g s₁ n → Memo g s₁ W [] C D → Owes s₁ (W ++ C) D →
      s₁.oheadLnum = g.orphFirst + j → s₁.oheadOffs = 0 → Moving g s₁ n j W C →
      Survives g (s₁.makeNode g true) := by
    intro s₁ hflash hmemo howes hl hoffs hm
    obtain ⟨T, C', orph, rfl, hT, hpc, hmemo', hpend, halike, hin⟩ :=
      hmemo.makeNode true (by rw [hoffs]; exact hbig)
    refine ⟨n, hflash.still halike.toStill, .inr ⟨W, T, C', D, hmemo', ?_⟩⟩
    rw [hpc]
    refine ⟨howes.alike halike (fun a ha _ => ⟨ha, hin a⟩) fun _ ha => ha, hpend, j,
      halike.lnum.trans hl, halike.offs.trans hoffs, hlt, fun hC' => ?_, hm.alike halike fun a _ => hin a⟩
    have hcmt := hmemo.lists.cmtOrphans
    have hpos := List.length_pos_of_ne_nil hC'
    rw [List.length_append] at hcmt
    unfold State.nodeCnt at hT
    rw [hoffs] at hT
    show T.length = (g.lebSize - ubifsOrphNodeSz) / 8
    rcases Nat.le_total ((g.lebSize - 0 - ubifsOrphNodeSz) / 8) s₁.cmtOrphans.toNat with hle | hle
    · rw [Nat.min_eq_left hle] at hT
      exact hT
    · rw [Nat.min_eq_right hle] at hT
      omega
  unfold State.writeOrphNode
  split
  · -- the LEB before has its node: the head goes on
    rename_i hgap
    have hmove : s.oheadLnum + 1 = g.orphFirst + j := by
      rcases hhead with ⟨-, hz, -⟩ | ⟨-, hl, -⟩
      · rw [hz] at hgap
        omega
      · exact hl
    have hlast : ¬s.oheadLnum + 1 > g.orphLast := by
      unfold Geometry.orphLast
      omega
    dsimp only
    rw [if_neg hlast]
    refine hnode { s with oheadLnum := s.oheadLnum + 1, oheadOffs := 0 }
      ⟨hflash.area, hflash.kept, hflash.cmtNo, hflash.outOfSpace, hflash.clash⟩
      (hmemo.same rfl rfl rfl) howes hmove rfl ⟨hm.le, hm.full, hm.placed, hm.behind⟩
  · -- the first node
    rename_i hgap
    obtain rfl : j = 0 := hoffs.resolve_right fun hc => hgap hc
    rcases hhead with ⟨hl, hz, -⟩ | ⟨hc, -⟩
    · exact hnode s hflash hmemo howes hl hz hm
    · exact absurd hc (lt_irrefl 0)

/-- `write_orph_nodes` -/
theorem Survives.writeOrphNodes (hg : g.Valid) {atomic : Bool} (hflash : Flash g s n)
    (hmemo : Memo g s W T C D) (hstage : Stage g s n W T C D (.writing atomic)) :
    Survives g (if s.cmtOrphans > 0 then s.writeOrphNode g atomic
      else if atomic then { s with pc := .clearing (s.oheadLnum + 1) }
      else { s with pc := .erasing }) := by
  have hcmt := hmemo.lists.cmtOrphans
  by_cases hC : C = []
  · subst hC
    rw [if_neg (by rw [hcmt]; exact lt_irrefl 0)]
    cases atomic with
    | false =>
      obtain ⟨hT, hw, howes, -⟩ := hstage
      rw [List.append_nil] at howes
      exact Survives.goto hflash hmemo ⟨hT, rfl, hw, howes⟩
    | true =>
      obtain ⟨hT, howes, hcase⟩ := hstage
      obtain ⟨-, hw⟩ := hcase.resolve_right fun hc => hc.1 rfl
      rw [List.append_nil] at howes
      refine Survives.goto hflash hmemo ⟨hT, rfl, hw, howes, ?_⟩
      rcases hw.head with ⟨hl, -⟩ | ⟨-, hl, -⟩ <;> omega
  · have hpos := List.length_pos_of_ne_nil hC
    rw [if_pos (by omega)]
    cases atomic with
    | false => exact Survives.writing hg hflash hmemo hstage hC
    | true => exact Survives.moving hflash hmemo hstage hC

/-! ## Flash operations -/

theorem setLeb_id (lnum : Nat) : s.setLeb lnum id = s := by
  unfold State.setLeb
  rw [show id (s.area lnum) = s.area lnum from rfl, Function.update_eq_self]

/-- After a flash operation that succeeds, or is cut. -/
theorem flashOp_cases (lnum : Nat) (full part : Leb → Leb) (ho : o = .ok ∨ ∃ e, o = .cut e) :
    o = .ok ∧ s.flashOp lnum full part o = s.setLeb lnum full ∨
      (∃ e, o = .cut e) ∧ (s.flashOp lnum full part o = s.setLeb lnum full ∨
        s.flashOp lnum full part o = s.setLeb lnum part ∨ s.flashOp lnum full part o = s) := by
  rcases ho with rfl | ⟨e, rfl⟩
  · exact .inl ⟨rfl, rfl⟩
  · cases e with
    | none => exact .inr ⟨⟨_, rfl⟩, .inr (.inr rfl)⟩
    | part => exact .inr ⟨⟨_, rfl⟩, .inr (.inl rfl)⟩
    | full => exact .inr ⟨⟨_, rfl⟩, .inl rfl⟩

/-- Without power only the flash counts. -/
theorem Flash.survives_down (h : Flash g s n) (hpc : s.pc = .down) : Survives g s := ⟨n, h, .inl hpc⟩

/-- A LEB behind the nodes is unmapped. -/
theorem Flash.unmap {lnum : Nat} (h : Flash g s n) (hl : g.orphFirst + n ≤ lnum) :
    Flash g (s.setLeb lnum .unmap) n where
  area := h.area.unmap hl
  kept := by
    intro i hi
    show _ ∧ ∃ orph ∈ nodesUpTo g (Function.update s.area lnum _) n, _
    rw [nodesUpTo_update_behind hl]
    exact h.kept i hi
  cmtNo := by
    show ∀ orph ∈ nodesUpTo g (Function.update s.area lnum _) n, _
    rw [nodesUpTo_update_behind hl]
    exact h.cmtNo
  outOfSpace := h.outOfSpace
  clash := h.clash

/-- A write that had no effect. -/
theorem Flash.touch {lnum : Nat} (h : Flash g s n) : Flash g (s.setLeb lnum .touch) n := by
  have hsame : (s.area lnum).touch.nodes = (s.area lnum).nodes := rfl
  refine ⟨h.area.touch, fun i hi => ?_, ?_, h.outOfSpace, h.clash⟩
  · show _ ∧ ∃ orph ∈ nodesUpTo g (Function.update s.area lnum _) n, _
    rw [nodesUpTo_update_same hsame]
    exact h.kept i hi
  · show ∀ orph ∈ nodesUpTo g (Function.update s.area lnum _) n, _
    rw [nodesUpTo_update_same hsame]
    exact h.cmtNo

/-- Nothing that counts is behind the first `n` LEBs. -/
theorem Written.setLeb {lnum : Nat} {f : Leb → Leb} (h : Written g s n W) (hl : g.orphFirst + n ≤ lnum) :
    Written g (s.setLeb lnum f) n W := by
  refine ⟨?_, h.placed.congr (List.Sublist.refl W) (Nat.le_refl n) (fun _ _ => rfl) fun k hk i hi => ?_⟩
  · rcases h.head with h1 | ⟨hn, hlnum, hoffs, hpos⟩
    · exact .inl h1
    · refine .inr ⟨hn, hlnum, hoffs.trans ?_, hpos⟩
      show _ = (Function.update s.area lnum _ s.oheadLnum).endpt g
      rw [Function.update_of_ne (by omega)]
  · show (Function.update s.area lnum _ (g.orphFirst + k)).Has i
    rw [Function.update_of_ne (by omega)]
    exact hi

/-- An unused LEB is unmapped after the consolidation. -/
theorem Survives.clearing {lnum : Nat} (hflash : Flash g s n) (hmemo : Memo g s W T C D)
    (hstage : Stage g s n W T C D (.clearing lnum)) (ho : o = .ok ∨ ∃ e, o = .cut e) :
    Survives g (if lnum ≤ g.orphLast then
        { s.flashOp lnum .unmap id o with pc := o.pc (.clearing (lnum + 1)) }
      else { s with pc := .erasing }) := by
  obtain ⟨hT, hC, hw, howes, hl⟩ := hstage
  split
  · have hun := hflash.unmap hl
    rcases flashOp_cases (s := s) lnum .unmap id ho with
      ⟨rfl, heq⟩ | ⟨⟨e, rfl⟩, heq⟩
    · rw [heq]
      refine Survives.goto hun (hmemo.same rfl rfl rfl) ⟨hT, hC, hw.setLeb hl, howes, ?_⟩
      omega
    · refine Flash.survives_down (n := n) (Flash.still ?_ (alike_pc .down).toStill) rfl
      rcases heq with heq | heq | heq
      · rw [heq]
        exact hun
      · rw [heq, setLeb_id]
        exact hflash
      · rw [heq]
        exact hflash
  · exact Survives.goto hflash hmemo ⟨hT, hC, hw, howes⟩

/-- The head is not on the flash. -/
theorem Flash.moveHead (h : Flash g s n) (offs : Nat) (p : Pc) :
    Flash g { s with oheadOffs := offs, clash := false, pc := p } n :=
  ⟨h.area, h.kept, h.cmtNo, h.outOfSpace, rfl⟩

/-- The orphans of the node are written now. -/
theorem Memo.shift (h : Memo g s W T C D) : Memo g s (W ++ T) [] C D :=
  { h with
    order := by
      rw [List.append_assoc]
      exact h.order }

/-- The head goes behind the node. -/
theorem Flash.advance (h : Flash g s n) (orph : OrphNode) (p : Pc) :
    Flash g { s.advance g orph with pc := p } n :=
  ⟨h.area, h.kept, h.cmtNo, h.outOfSpace, h.clash⟩

/-- The node is a sane one. -/
theorem Pending.sane (hg : g.Valid) {orph : OrphNode} (h : Pending g s orph T C)
    (hmemo : Memo g s W T C D) : Sane g s.ever [orph] := by
  refine ⟨List.pairwise_singleton .., ?_, fun o ho i hi => ?_⟩
  · have : orph.space g ≤ g.lebSize := space_le hg hg.lebSize (h.fits.trans (Nat.sub_le ..))
    simpa using this
  · rw [List.mem_singleton.mp ho] at hi
    have hmem : some i ∈ T.map (inumIn s.mem) := h.inos ▸ List.mem_map_of_mem hi
    obtain ⟨a, -, ha⟩ := List.mem_map.mp hmem
    exact hmemo.known a i ha

/-- The orphans of the node are in it. -/
theorem Pending.has {orph : OrphNode} (h : Pending g s orph T C) {a : Nat} (ha : a ∈ T) :
    ∃ i, inumIn s.mem a = some i ∧ i ∈ orph.inos := by
  have hmem : inumIn s.mem a ∈ orph.inos.map some := h.inos ▸ List.mem_map_of_mem ha
  obtain ⟨i, hi, heq⟩ := List.mem_map.mp hmem
  exact ⟨i, heq.symm, hi⟩

/-- The node fits into the LEB. -/
theorem Pending.space_le (hg : g.Valid) {orph : OrphNode} (h : Pending g s orph T C)
    (hoffs : g.minIoSize ∣ s.oheadOffs) : s.oheadOffs + orph.space g ≤ g.lebSize := by
  have := h.fits
  have hle : orph.space g ≤ g.lebSize - s.oheadOffs :=
    Orphans.space_le hg (Nat.dvd_sub hg.lebSize hoffs) this
  unfold ubifsOrphNodeSz at this
  omega

/-- `ubifs_write_node` writes behind the other nodes. -/
theorem Survives.writeNode (hg : g.Valid) {orph : OrphNode} (hflash : Flash g s n)
    (hmemo : Memo g s W T C D) (hw : Written g s n W) (howes : Owes s (W ++ (T ++ C)) D)
    (hpend : Pending g s orph T C) (hspace : C.length ≤ space g (s.advance g orph))
    (hend : s.oheadOffs = (s.area s.oheadLnum).endpt g)
    (hhead : s.oheadOffs = 0 → (s.area s.oheadLnum).nodes = [] ∧ s.oheadLnum = g.orphFirst + n)
    (ho : o = .ok ∨ ∃ e, o = .cut e) : Survives g (s.writeNode g orph o) := by
  have hroom := hpend.space_le hg (hend ▸ dvd_endpt hg)
  -- `n'` counts the LEBs with nodes, the one at the head included.
  obtain ⟨n', hn', hhead', hnext⟩ : ∃ n', n ≤ n' ∧ s.oheadLnum + 1 = g.orphFirst + n' ∧
      (0 < n ∧ s.oheadLnum + 1 = g.orphFirst + n ∧ n' = n ∨
        s.oheadLnum = g.orphFirst + n ∧ (s.area s.oheadLnum).nodes = [] ∧ n' = n + 1 ∧
          n < g.orphLebs) := by
    rcases hw.head with ⟨hl, hz, hlt⟩ | ⟨hpos, hl, -⟩
    · exact ⟨n + 1, Nat.le_succ n, by omega, .inr ⟨hl, (hhead hz).1, rfl, hlt⟩⟩
    · exact ⟨n, Nat.le_refl n, hl, .inl ⟨hpos, hl, rfl⟩⟩
  obtain ⟨harea, hnodes⟩ := hflash.area.append (hpend.sane hg hmemo)
    (fun prev hp => hpend.cmtNo ▸ hflash.cmtNo prev hp) (hend ▸ hroom) hnext
  -- The flash where all of the node got there.
  have hfull : Flash g (s.setLeb s.oheadLnum (.append orph)) n' := by
    refine ⟨harea, fun i hi => ?_, ?_, hflash.outOfSpace, hflash.clash⟩
    · obtain ⟨hno, o, hmem, hio⟩ := hflash.kept i hi
      refine ⟨hno, o, ?_, hio⟩
      show o ∈ nodesUpTo g (Function.update s.area s.oheadLnum _) n'
      rw [hnodes]
      exact List.mem_append_left _ hmem
    · show ∀ o ∈ nodesUpTo g (Function.update s.area s.oheadLnum _) n', _
      rw [hnodes]
      intro o hmem
      rcases List.mem_append.mp hmem with hmem | hmem
      · exact hflash.cmtNo o hmem
      · rw [List.mem_singleton.mp hmem]
        exact hpend.cmtNo.le
  have hclash : (s.clash || decide (s.oheadOffs ≠ (s.area s.oheadLnum).endpt g)) = false := by
    rw [hflash.clash, Bool.false_or, decide_eq_false_iff_not, not_not]
    exact hend
  -- The write went through, or the power was cut in it.
  rcases flashOp_cases (s := s) s.oheadLnum (.append orph) .touch ho with ⟨rfl, heq⟩ | ⟨⟨e, rfl⟩, heq⟩
  · unfold State.writeNode
    rw [heq]
    show Survives g { s.setLeb s.oheadLnum (.append orph) with
      oheadOffs := s.oheadOffs + orph.space g
      clash := s.clash || decide (s.oheadOffs ≠ (s.area s.oheadLnum).endpt g)
      pc := .writing false }
    rw [hclash]
    have hself : (s.setLeb s.oheadLnum (.append orph)).area s.oheadLnum =
        (s.area s.oheadLnum).append orph := Function.update_self ..
    -- No node is lost.
    have hgrow : ∀ k i, (s.area (g.orphFirst + k)).Has i →
        ((s.setLeb s.oheadLnum (.append orph)).area (g.orphFirst + k)).Has i := by
      intro k i hi
      by_cases hk : g.orphFirst + k = s.oheadLnum
      · rw [hk] at hi ⊢
        rw [hself]
        obtain ⟨o, ho, hio⟩ := hi
        exact ⟨o, List.mem_append_left _ ho, hio⟩
      · show (Function.update s.area s.oheadLnum _ (g.orphFirst + k)).Has i
        rwa [Function.update_of_ne hk]
    obtain ⟨m, rfl⟩ : ∃ m, n' = m + 1 := ⟨n' - 1, by rcases hnext with h | h <;> omega⟩
    have hm : g.orphFirst + m = s.oheadLnum := by omega
    have hmem : ∀ a ∈ T, ∃ i, inumIn s.mem a = some i ∧
        ((s.setLeb s.oheadLnum (.append orph)).area (g.orphFirst + m)).Has i := by
      intro a ha
      obtain ⟨i, hi, hio⟩ := hpend.has ha
      refine ⟨i, hi, ?_⟩
      rw [hm, hself]
      exact ⟨orph, by simp [Leb.append], hio⟩
    have hpos : 0 < orph.space g := by
      have h32 : 0 < ubifsOrphNodeSz := by decide
      have : ubifsOrphNodeSz + orph.inos.length * 8 ≤ orph.space g := le_space hg
      omega
    refine ⟨m + 1, hfull.moveHead _ _, .inr ⟨W ++ T, [], C, D, (hmemo.shift).same rfl rfl rfl, rfl,
      ⟨.inr ⟨Nat.succ_pos m, hhead', ?_, ?_⟩, ?_⟩, ?_, hspace⟩⟩
    · -- the head is behind the new node
      show s.oheadOffs + orph.space g = ((s.setLeb s.oheadLnum (.append orph)).area s.oheadLnum).endpt g
      rw [hself, endpt_append, ← hend]
    · show 0 < s.oheadOffs + orph.space g
      omega
    · -- the orphans of the node are in the last LEB, those before are where they were
      refine Placed.append ?_ (Nat.le_refl _) hmem ?_
      · exact hw.placed.congr (List.Sublist.refl W) hn' (fun _ _ => rfl) fun k _ i hi => hgrow k i hi
      · intro a ha hT
        exact (List.nodup_append.mp hmemo.nodup).2.2 a ha a (List.mem_append_left _ hT) rfl
    · show Owes s ((W ++ T) ++ C) D
      rw [List.append_assoc]
      exact howes
  · unfold State.writeNode
    show Survives g { s.flashOp s.oheadLnum (.append orph) .touch (.cut e) with
      oheadOffs := (s.flashOp s.oheadLnum (.append orph) .touch (.cut e)).oheadOffs + orph.space g
      clash := (s.flashOp s.oheadLnum (.append orph) .touch (.cut e)).clash ||
        decide (s.oheadOffs ≠ (s.area s.oheadLnum).endpt g)
      pc := .down }
    -- a cut left the node, the start of it, or nothing
    rcases heq with heq | heq | heq
    · rw [heq, show (s.setLeb s.oheadLnum (.append orph)).clash = s.clash from rfl, hclash]
      exact Flash.survives_down (hfull.moveHead _ _) rfl
    · rw [heq, show (s.setLeb s.oheadLnum .touch).clash = s.clash from rfl, hclash]
      exact Flash.survives_down (hflash.touch.moveHead _ _) rfl
    · rw [heq, hclash]
      exact Flash.survives_down (hflash.moveHead _ _) rfl

/-- `do_write_orph_node`, not atomically. -/
theorem Survives.node (hg : g.Valid) {orph : OrphNode} (hflash : Flash g s n)
    (hmemo : Memo g s W T C D) (hstage : Stage g s n W T C D (.node false orph))
    (ho : o = .ok ∨ ∃ e, o = .cut e) :
    Survives g (if s.oheadOffs = 0 then s.ensureUnmapped g orph o else s.writeNode g orph o) := by
  obtain ⟨hw, howes, hpend, hspace⟩ := hstage
  split
  · -- At the start of an LEB, what is there from an earlier consolidation is unmapped first.
    rename_i hz
    have hl : s.oheadLnum = g.orphFirst + n := by
      rcases hw.head with ⟨hl, -⟩ | ⟨-, -, -, hpos⟩
      · exact hl
      · omega
    have hun : Flash g (s.setLeb s.oheadLnum .unmap) n := hflash.unmap hl.ge
    unfold State.ensureUnmapped
    dsimp only
    rcases flashOp_cases (s := s) s.oheadLnum .unmap id ho with ⟨rfl, heq⟩ | ⟨⟨e, rfl⟩, heq⟩
    · rw [heq]
      have hnil : (s.area s.oheadLnum).unmap.nodes = [] := by
        unfold Leb.unmap
        split
        · rfl
        · rename_i hm
          exact hflash.area.unmapped _ (by simpa using hm)
      refine Survives.goto hun (hmemo.same rfl rfl rfl) ⟨hw.setLeb hl.ge, howes,
        ⟨hpend.cmtNo, hpend.last, hpend.inos, hpend.fits⟩, hspace, hz, ?_⟩
      show (Function.update s.area s.oheadLnum _ s.oheadLnum).nodes = []
      rw [Function.update_self]
      exact hnil
    · refine Flash.survives_down (n := n) (Flash.still ?_ (alike_pc .down).toStill) rfl
      rcases heq with heq | heq | heq
      · rw [heq]
        exact hun
      · rw [heq, setLeb_id]
        exact hflash
      · rw [heq]
        exact hflash
  · -- Behind other nodes it is written at once.
    rename_i hz
    refine Survives.writeNode hg hflash hmemo hw howes hpend hspace ?_ (fun hc => absurd hc hz) ho
    rcases hw.head with ⟨-, hc, -⟩ | ⟨-, -, hend, -⟩
    · exact absurd hc hz
    · exact hend

/-- The node is written, with all that may come of it. -/
theorem Survives.unmapped (hg : g.Valid) {orph : OrphNode} (hflash : Flash g s n)
    (hmemo : Memo g s W T C D) (hstage : Stage g s n W T C D (.unmapped orph))
    (ho : o = .ok ∨ ∃ e, o = .cut e) : Survives g (s.writeNode g orph o) := by
  obtain ⟨hw, howes, hpend, hspace, hz, hnil⟩ := hstage
  refine Survives.writeNode hg hflash hmemo hw howes hpend hspace ?_ (fun _ => ⟨hnil, ?_⟩) ho
  · unfold Leb.endpt
    rw [hz, hnil]
    rfl
  · rcases hw.head with ⟨hl, -⟩ | ⟨-, -, -, hpos⟩
    · exact hl
    · omega

/-- An orphan that was written is in a node. -/
theorem Placed.has {area : Nat → Leb} {mem : Nat → Option Orphan} {a i : Nat}
    (h : Placed g area mem n W) (ha : a ∈ W) (hi : inumIn mem a = some i) :
    ∃ orph ∈ nodesUpTo g area n, i ∈ orph.inos := by
  obtain ⟨pos, hpos, -⟩ := h
  obtain ⟨hlt, i', hi', orph, ho, hio⟩ := hpos a ha
  rw [hi] at hi'
  obtain rfl : i = i' := Option.some.inj hi'
  exact ⟨orph, mem_nodesUpTo.mpr ⟨pos a, hlt, ho⟩, hio⟩

/-- What is needed is in the LEBs that were overwritten, or in one that was not. -/
theorem Moving.found {j i : Nat} {V : List Nat} (hm : Moving g s n j W V) (hi : s.Needs i) :
    ∃ orph ∈ nodesUpTo g s.area n, i ∈ orph.inos := by
  obtain ⟨U, pos, hpre, hmono, hcount, hpos, hcov⟩ := hm.behind
  obtain ⟨a, ha, heq⟩ := hcov i hi
  by_cases hW : a ∈ W
  · obtain ⟨orph, ho, hio⟩ := hm.placed.has hW heq
    exact ⟨orph, (nodesUpTo_mono hm.le).subset ho, hio⟩
  · -- behind the first `j * perLeb` orphans
    obtain ⟨V', rfl⟩ : ∃ V', U = W ++ V' := by
      rcases List.prefix_or_prefix_of_prefix hpre (List.prefix_append W V) with hU | ⟨V', hU⟩
      · exact absurd (hU.subset ha) hW
      · exact ⟨V', hU.symm⟩
    have hV : a ∈ V' := (List.mem_append.mp ha).resolve_left hW
    obtain ⟨hlt, i', hi', orph, ho, hio⟩ := hpos a ha (le_pos_of_count hmono (hcount j) hm.full.ge hV)
    rw [heq] at hi'
    obtain rfl : i = i' := Option.some.inj hi'
    exact ⟨orph, mem_nodesUpTo.mpr ⟨pos a, hlt, ho⟩, hio⟩

/-- The next LEB is overwritten. -/
theorem Moving.placed_change {j : Nat} {V : List Nat} {orph : OrphNode} (hm : Moving g s n j W V)
    (hpend : Pending g s orph T C) (hd : W.Disjoint T) :
    Placed g (s.setLeb (g.orphFirst + j) (.change orph)).area s.mem (j + 1) (W ++ T) := by
  refine Placed.append (n := j) ?_ (Nat.le_succ j) (fun a ha => ?_) hd
  · refine hm.placed.congr (List.Sublist.refl W) (Nat.le_refl j) (fun _ _ => rfl) fun k hk i hi => ?_
    show (Function.update s.area _ _ (g.orphFirst + k)).Has i
    rwa [Function.update_of_ne (by omega)]
  · obtain ⟨i, hi, hio⟩ := hpend.has ha
    refine ⟨i, hi, ?_⟩
    show (Function.update s.area _ _ (g.orphFirst + j)).Has i
    rw [Function.update_self]
    exact ⟨orph, List.mem_singleton_self orph, hio⟩

/-- A LEB is written anew, with a full node of orphans. -/
theorem Moving.change {j : Nat} {orph : OrphNode} (hm : Moving g s n j W (T ++ C))
    (hpend : Pending g s orph T C) (hd : W.Disjoint T) (hT : T.length = g.perLeb) :
    Moving g (s.setLeb (g.orphFirst + j) (.change orph)) (max n (j + 1)) (j + 1) (W ++ T) C := by
  obtain ⟨U, pos, hpre, hmono, hcount, hpos, hcov⟩ := hm.behind
  refine ⟨Nat.le_max_right .., ?_, hm.placed_change hpend hd, U, pos, ?_, hmono, hcount,
    fun a ha hj => ?_, hcov⟩
  · rw [List.length_append, hm.full, hT, Nat.succ_mul]
  · rwa [List.append_assoc]
  · obtain ⟨hlt, i, hi, hhas⟩ := hpos a ha (by omega)
    refine ⟨lt_of_lt_of_le hlt (Nat.le_max_left ..), i, hi, ?_⟩
    show (Function.update s.area _ _ (g.orphFirst + pos a)).Has i
    rwa [Function.update_of_ne (by omega)]

/-- `do_write_orph_node`, atomically. -/
theorem Survives.change (hg : g.Valid) {orph : OrphNode} (hflash : Flash g s n)
    (hmemo : Memo g s W T C D) (hstage : Stage g s n W T C D (.node true orph))
    (ho : o = .ok ∨ ∃ e, o = .cut e) :
    Survives g { (s.flashOp s.oheadLnum (.change orph) id o).advance g orph with
      pc := o.pc (.writing true) } := by
  obtain ⟨howes, hpend, j, hl, hoffs, hlt, hfull, hm⟩ := hstage
  have hd : W.Disjoint T := fun a ha hT =>
    (List.nodup_append.mp hmemo.nodup).2.2 a ha a (List.mem_append_left _ hT) rfl
  have hplaced := hm.placed_change hpend hd
  -- While there is more to come the old nodes behind this one still count, after the last they do not.
  let m := if C = [] then j + 1 else max n (j + 1)
  have hm' : m = j + 1 ∨ orph.last = false ∧ m = max n (j + 1) := by
    by_cases hC : C = []
    · exact .inl (if_pos hC)
    · refine .inr ⟨?_, if_neg hC⟩
      rw [hpend.last]
      exact decide_eq_false hC
  obtain ⟨harea, hnodes⟩ := hflash.area.change (hpend.sane hg hmemo)
    (fun prev hp => hpend.cmtNo ▸ hflash.cmtNo prev hp) hm.le hlt hm'
  have hchanged : Flash g (s.setLeb s.oheadLnum (.change orph)) m := by
    rw [hl]
    refine ⟨harea, fun i hi => ⟨(hflash.kept i hi).1, ?_⟩, fun o ho => ?_, hflash.outOfSpace,
      hflash.clash⟩
    · -- what was kept is now in the new nodes, or else is where the pass has not come to yet
      by_cases hC : C = []
      · obtain ⟨U, pos, hpre, -, -, -, hcov⟩ := hm.behind
        obtain ⟨a, ha, heq⟩ := hcov i hi
        rw [hC, List.append_nil] at hpre
        rw [show m = j + 1 from if_pos hC]
        exact hplaced.has (hpre.subset ha) heq
      · rw [show m = max n (j + 1) from if_neg hC]
        exact (hm.change hpend hd (hfull hC)).found hi
    · rcases hnodes o ho with rfl | hold
      · exact hpend.cmtNo.le
      · exact hflash.cmtNo o hold
  rcases flashOp_cases (s := s) s.oheadLnum (.change orph) id ho with ⟨rfl, heq⟩ | ⟨⟨e, rfl⟩, heq⟩
  · rw [heq]
    let s' : State := { (s.setLeb s.oheadLnum (.change orph)).advance g orph with pc := .writing true }
    -- The head is behind the node, which is alone in its LEB.
    have hhead : Head g s' (j + 1) := by
      have hself : s'.area s'.oheadLnum = (s.area s.oheadLnum).change orph := Function.update_self ..
      have h32 : 0 < ubifsOrphNodeSz := by decide
      have hle : ubifsOrphNodeSz + orph.inos.length * 8 ≤ orph.space g := le_space hg
      refine .inr ⟨Nat.succ_pos j, ?_, ?_, ?_⟩
      · show s.oheadLnum + 1 = _
        omega
      · rw [hself]
        show s.oheadOffs + orph.space g = ([orph].map (OrphNode.space g)).sum
        rw [hoffs]
        simp
      · show 0 < s.oheadOffs + orph.space g
        omega
    have harea' : s'.area = (s.setLeb (g.orphFirst + j) (.change orph)).area := by
      rw [← hl]
      rfl
    refine ⟨m, hchanged.advance orph (.writing true), .inr
      ⟨W ++ T, [], C, D, (hmemo.shift).same rfl rfl rfl, rfl, ?_, ?_⟩⟩
    · show Owes s ((W ++ T) ++ C) D
      rw [List.append_assoc]
      exact howes
    · -- The pass ends here, or goes on with the next LEB, as the node fills this one.
      by_cases hC : C = []
      · refine .inl ⟨hC, ?_⟩
        rw [show m = j + 1 from if_pos hC]
        refine ⟨hhead, ?_⟩
        rw [harea']
        exact hplaced
      · have hmove := hm.change hpend hd (hfull hC)
        rw [← show m = max n (j + 1) from if_neg hC] at hmove
        refine .inr ⟨hC, j + 1, hhead, .inr ?_, ⟨hmove.le, hmove.full, ?_, ?_⟩⟩
        · show g.lebSize - (s.oheadOffs + orph.space g) < _
          have hlen : orph.inos.length = g.perLeb := by
            have := congrArg List.length hpend.inos
            rw [List.length_map, List.length_map, hfull hC] at this
            exact this
          have hle : ubifsOrphNodeSz + orph.inos.length * 8 ≤ orph.space g := le_space hg
          rw [hlen] at hle
          unfold Geometry.perLeb at hle
          omega
        · rw [harea']
          exact hmove.placed
        · rw [harea']
          exact hmove.behind
  · -- an atomic change: the old content or the new one
    rcases heq with heq | heq | heq
    · rw [heq]
      exact Flash.survives_down (hchanged.advance orph .down) rfl
    · rw [heq, setLeb_id]
      exact Flash.survives_down (hflash.advance orph .down) rfl
    · rw [heq]
      exact Flash.survives_down (hflash.advance orph .down) rfl

/-! ## The end of a commit -/

/-- What the loop of `erase_deleted` leaves of the list. -/
theorem eraseFrom_leaves {m : Memory} {q : Option Nat} (h : Lists { m with orphDnext := q } [] D)
    {k : Nat} (hk : D.length ≤ k) (horder : m.orphList = W ++ m.orphNew) :
    ∃ W', W'.Sublist W ∧ (m.eraseFrom k q).orphList = W' ++ (m.eraseFrom k q).orphNew ∧
      (∀ a ∈ W, a ∉ D → a ∈ W') ∧ (∀ a ∈ W', a ∉ D) ∧
      (∀ a o, (m.eraseFrom k q).mem a = some o → m.mem a = some o) ∧
      (m.eraseFrom k q).cmtOrphans = m.cmtOrphans ∧ (m.eraseFrom k q).newOrphans = m.newOrphans ∧
      (m.eraseFrom k q).totOrphans ≤ m.totOrphans := by
  induction k generalizing m q D W with
  | zero =>
    obtain rfl : D = [] := List.length_eq_zero_iff.mp (Nat.le_zero.mp hk)
    obtain rfl : q = none := h.delayed
    exact ⟨W, List.Sublist.refl W, horder, fun a ha _ => ha, fun a _ => List.not_mem_nil,
      fun a o ho => ho, rfl, rfl, le_refl _⟩
  | succ k ih =>
    cases D with
    | nil =>
      obtain rfl : q = none := h.delayed
      exact ⟨W, List.Sublist.refl W, horder, fun a ha _ => ha, fun a _ => List.not_mem_nil,
        fun a o ho => ho, rfl, rfl, le_refl _⟩
    | cons a D =>
      -- Freeing the first one takes it from the list of the written ones, too: those put aside are not new.
      obtain ⟨rfl, -⟩ := h.delayed
      obtain ⟨ht, hn⟩ := h.delayedOld a (List.mem_cons_self ..)
      obtain ⟨o, ho⟩ := (h.alive a).mp ht
      have ho : m.mem a = some o := ho
      have hn : a ∉ m.orphNew := hn
      have hfree := h.free ht (List.not_mem_nil) (.inr ⟨rfl, rfl⟩) (.inr ⟨hn, rfl, rfl⟩)
      have hdn : dnextIn m.mem a = o.dnext := by
        unfold dnextIn
        rw [ho]
        rfl
      have hstep : m.eraseFrom (k + 1) (some a) = ((m.unlink a).kfree a).eraseFrom k o.dnext := by
        rw [Memory.eraseFrom]
        simp only [ho]
      have hnodup : (W ++ m.orphNew).Nodup := horder ▸ h.list.nodup_iff.mpr h.nodup
      have hlist : ((m.unlink a).kfree a).orphList = W.erase a ++ ((m.unlink a).kfree a).orphNew := by
        show m.orphList.erase a = W.erase a ++ m.orphNew
        rw [horder, erase_append_nodup hnodup, List.erase_of_not_mem hn]
      rw [hstep, ← hdn]
      obtain ⟨W', hsub, hord, hkeep, hout, hmem, hcmt, hnew, htot⟩ :=
        ih (m := (m.unlink a).kfree a) (q := dnextIn m.mem a) hfree (by simpa using hk) hlist
      refine ⟨W', hsub.trans List.erase_sublist, hord, fun b hb hnb => ?_, fun b hb hc => ?_,
        fun b ob hb => ?_, hcmt, hnew, htot.trans ?_⟩
      · obtain ⟨hne, hD⟩ := not_or.mp fun hc => hnb (List.mem_cons.mpr hc)
        exact hkeep b ((List.mem_erase_of_ne hne).mpr hb) hD
      · rcases List.mem_cons.mp hc with rfl | hD
        · exact ((List.nodup_append.mp hnodup).1.mem_erase_iff.mp (hsub.subset hb)).1 rfl
        · exact hout b hb hD
      · have hb' := hmem b ob hb
        change Function.update m.mem a none b = some ob at hb'
        by_cases hba : b = a
        · rw [hba, Function.update_self] at hb'
          cases hb'
        · rwa [Function.update_of_ne hba] at hb'
      · show m.totOrphans - 1 ≤ m.totOrphans
        omega

/-- `erase_deleted` -/
theorem Survives.erasing (hflash : Flash g s n) (hmemo : Memo g s W T C D)
    (hstage : Stage g s n W T C D .erasing) :
    Survives g { s with toMemory := s.eraseDeleted, pc := .ended } := by
  obtain ⟨rfl, rfl, hw, howes⟩ := hstage
  have hl := hmemo.lists
  obtain ⟨hl', hother⟩ := hl.eraseDeleted
  obtain ⟨W', hsub, horder, hkeep, hout, hmem, hcmt, hnew, htot⟩ :=
    eraseFrom_leaves (q := s.orphDnext) hl hl.delayed_length hmemo.order
  let s' : State := { s with toMemory := s.eraseDeleted, pc := .ended }
  have halike : Alike s s' :=
    ⟨⟨rfl, rfl, rfl, le_refl _, rfl, fun _ hi => hi, fun _ hi => hi, rfl, rfl⟩, rfl, rfl, rfl⟩
  have hin : ∀ a, a ∉ D → inumIn s'.mem a = inumIn s.mem a := fun a ha => congrArg _ (hother a ha)
  -- Those put aside are owed by none: they are freed, and all others stay.
  refine ⟨n, hflash.still halike.toStill, .inr ⟨W', [], [], [], ⟨hl', horder, fun i hi => ?_,
    fun a i hi => ?_, fun hpos => ?_⟩, rfl, rfl, rfl,
    hw.still halike.toStill (fun a ha => hin a (hout a ha)) hsub,
    howes.alike halike (fun a ha hD => ⟨hkeep a ha hD, hin a hD⟩) fun a ha => (by cases ha)⟩⟩
  · obtain ⟨a, ha, hD⟩ := hmemo.owed i hi
    exact ⟨a, (hin a hD).trans ha, List.not_mem_nil⟩
  · obtain ⟨o, ho, hio⟩ := inumIn_some.mp hi
    exact hmemo.known a i (inumIn_some.mpr ⟨o, hmem a o ho, hio⟩)
  · have hpos : 0 < (s.eraseFrom s.brk s.orphDnext).cmtOrphans ∨
        0 < (s.eraseFrom s.brk s.orphDnext).newOrphans := hpos
    rw [hcmt, hnew] at hpos
    exact htot.trans (hmemo.room hpos)

/-- The master node is written, or the power is cut. -/
theorem Survives.ended (hflash : Flash g s n) (hmemo : Memo g s W T C D)
    (hstage : Stage g s n W T C D .ended) (ho : o = .ok ∨ ∃ e, o = .cut e)
    (hs : s.commitStep g o = some s') (hpc : s.pc = .ended) : Survives g s' := by
  obtain ⟨rfl, rfl, rfl, hw, howes⟩ := hstage
  have hkept : ∀ p, Flash g { s.writeMaster with pc := p } n := fun p => by
    refine ⟨hflash.area, fun i hi => ?_, hflash.cmtNo, hflash.outOfSpace, hflash.clash⟩
    obtain ⟨hno, a, ha, -, heq⟩ := howes i hi.1
    exact ⟨hno, hw.placed.has ha heq⟩
  have hdown : Flash g { s with pc := .down } n := hflash.still (alike_pc .down).toStill
  unfold State.commitStep at hs
  rw [hpc] at hs
  rcases ho with rfl | ⟨e, rfl⟩
  · -- The master node names this commit: what it owes is in its nodes.
    cases hs
    refine ⟨n, hkept _, .inr ⟨W, [], [], [], hmemo.same rfl rfl rfl, rfl, rfl,
      ⟨hw.head, hw.placed⟩, fun i hi => ?_⟩⟩
    obtain ⟨-, a, ha, -, heq⟩ := howes i hi.1
    exact ⟨a, ha, heq⟩
  · -- Cut before it, or in the middle of it, the old master node counts; cut behind it, the new one.
    cases e with
    | none =>
      cases hs
      exact Flash.survives_down hdown rfl
    | part =>
      cases hs
      exact Flash.survives_down hdown rfl
    | full =>
      cases hs
      exact Flash.survives_down (hkept _) rfl

/-- A step of the committer. -/
theorem Survives.commitStep (hg : g.Valid) (h : Survives g s) (ho : o = .ok ∨ ∃ e, o = .cut e)
    (hs : s.commitStep g o = some s') : Survives g s' := by
  obtain ⟨n, hflash, hphase⟩ := h
  rcases hphase with hpc | ⟨W, T, C, D, hmemo, hstage⟩
  · unfold State.commitStep at hs
    rw [hpc] at hs
    cases hs
  have hs₀ := hs
  unfold State.commitStep at hs
  cases hpc : s.pc with
  | resting =>
    rw [hpc] at hs hstage
    cases hs
    exact Survives.start hflash hmemo hstage
  | started =>
    rw [hpc] at hs hstage
    cases hs
    exact Survives.started hg hflash hmemo hstage
  | writing atomic =>
    rw [hpc] at hs hstage
    cases hs
    exact Survives.writeOrphNodes hg hflash hmemo hstage
  | node atomic orph =>
    rw [hpc] at hs hstage
    cases atomic with
    | true =>
      cases hs
      exact Survives.change hg hflash hmemo hstage ho
    | false =>
      cases hs
      exact Survives.node hg hflash hmemo hstage ho
  | unmapped orph =>
    rw [hpc] at hs hstage
    cases hs
    exact Survives.unmapped hg hflash hmemo hstage ho
  | clearing lnum =>
    rw [hpc] at hs hstage
    cases hs
    exact Survives.clearing hflash hmemo hstage ho
  | erasing =>
    rw [hpc] at hs hstage
    cases hs
    exact Survives.erasing hflash hmemo hstage
  | ended =>
    rw [hpc] at hstage
    exact Survives.ended hflash hmemo hstage ho hs₀ hpc
  | broken =>
    rw [hpc] at hs
    cases hs
  | down =>
    rw [hpc] at hs
    cases hs

end Commit

end Ubifs.Orphans
