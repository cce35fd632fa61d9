/-
  What is in the orphan area, and what a mount makes of it.

  The LEBs of the area are filled one after the other.  A mount goes through the nodes of the first LEBs
  up to an LEB whose first node has a lower commit number than the last node of a commit before it.  So
  what counts are the first `n` LEBs, as long as no such drop is among their nodes (`Area.fresh`);
  behind them there may be anything.

  1. the sizes of nodes;
  2. the nodes of the first LEBs (`nodesUpTo`), and what one flash operation makes of them;
  3. where the orphans in memory were written (`Placed`);
  4. the mount.
-/
import FlashStack.Ubifs.OrphanRuns

namespace Ubifs.Orphans

open Lib

/-! ## Sizes -/

/-- LEBs are a number of minimal I/O units, and these are multiples of eight bytes. -/
structure Geometry.Valid (g : Geometry) : Prop where
  orphLebs : 0 < g.orphLebs
  io : 0 < g.minIoSize
  eight : 8 ∣ g.minIoSize
  lebSize : g.minIoSize ∣ g.lebSize

section Sizes

variable {g : Geometry} {orph : OrphNode} {nodes : List OrphNode}

/-- A node takes whole write units. -/
theorem space_eq (hg : g.Valid) :
    orph.space g = align (ubifsOrphNodeSz + orph.inos.length * 8) g.minIoSize :=
  align_of_dvd (by decide) (hg.eight.trans dvd_align)

theorem dvd_space (hg : g.Valid) : g.minIoSize ∣ orph.space g := by
  rw [space_eq hg]
  exact dvd_align

/-- It has room for its inode numbers. -/
theorem le_space (hg : g.Valid) : ubifsOrphNodeSz + orph.inos.length * 8 ≤ orph.space g := by
  rw [space_eq hg]
  exact le_align hg.io

/-- And no more units than needed. -/
theorem space_le (hg : g.Valid) {y : Nat} (hy : g.minIoSize ∣ y)
    (h : ubifsOrphNodeSz + orph.inos.length * 8 ≤ y) : orph.space g ≤ y := by
  rw [space_eq hg]
  exact align_le hg.io h hy

/-- Nodes end at write units. -/
theorem dvd_endpt (hg : g.Valid) {leb : Leb} : g.minIoSize ∣ leb.endpt g :=
  List.dvd_sum fun _ hx => by
    obtain ⟨orph, -, rfl⟩ := List.mem_map.mp hx
    exact dvd_space hg

/-- A node is written behind the others. -/
theorem endpt_append {leb : Leb} : (leb.append orph).endpt g = leb.endpt g + orph.space g := by
  unfold Leb.endpt Leb.append
  simp

/-- Nodes that fit into an LEB have no more than `perLeb` orphans. -/
theorem length_inos_le (hg : g.Valid) (h : (nodes.map (OrphNode.space g)).sum ≤ g.lebSize) :
    (nodes.flatMap (·.inos)).length ≤ g.perLeb := by
  have hsum : ∀ l : List OrphNode, ubifsOrphNodeSz * l.length + 8 * (l.flatMap (·.inos)).length ≤
      (l.map (OrphNode.space g)).sum := by
    intro l
    induction l with
    | nil => exact Nat.le_refl 0
    | cons orph l ih =>
      have : ubifsOrphNodeSz + orph.inos.length * 8 ≤ orph.space g := le_space hg
      rw [List.flatMap_cons, List.length_append, List.map_cons, List.sum_cons, List.length_cons]
      have hmul : ubifsOrphNodeSz * (l.length + 1) = ubifsOrphNodeSz * l.length + ubifsOrphNodeSz := rfl
      omega
  have hall := hsum nodes
  cases nodes with
  | nil => exact Nat.zero_le _
  | cons orph l =>
    have hone : ubifsOrphNodeSz ≤ ubifsOrphNodeSz * (orph :: l).length :=
      Nat.le_mul_of_pos_right _ (Nat.succ_pos _)
    unfold Geometry.perLeb
    rw [Nat.le_div_iff_mul_le (by decide)]
    omega

end Sizes

/-! ## The nodes of the first LEBs -/

/-- The orphan is in a node of the LEB. -/
def Leb.Has (leb : Leb) (i : Nat) : Prop := ∃ orph ∈ leb.nodes, i ∈ orph.inos

/-- The orphan nodes in the first LEBs of the area, in the order in which they are scanned. -/
def nodesUpTo (g : Geometry) (area : Nat → Leb) (n : Nat) : List OrphNode :=
  (List.range n).flatMap fun k => (area (g.orphFirst + k)).nodes

/-- The node is not out of date if it comes behind `prev`. -/
def Fresh (prev orph : OrphNode) : Prop := ¬(orph.cmtNo < prev.cmtNo ∧ prev.last = true)

/-- What the nodes of an LEB are like, also of one that is unmapped. -/
structure Sane (g : Geometry) (ever : List Nat) (nodes : List OrphNode) : Prop where
  sorted : nodes.Pairwise fun a b => a.cmtNo ≤ b.cmtNo
  fits : (nodes.map (OrphNode.space g)).sum ≤ g.lebSize
  known : ∀ orph ∈ nodes, ∀ i ∈ orph.inos, i ∈ ever

/-- The area, of which the first `n` LEBs count. -/
structure Area (g : Geometry) (area : Nat → Leb) (ever : List Nat) (n : Nat) : Prop where
  sane : ∀ lnum, ∀ nodes ∈ (area lnum).nodes :: (area lnum).former, Sane g ever nodes
  unmapped : ∀ lnum, (area lnum).mapped = false → (area lnum).nodes = []
  lebs : n ≤ g.orphLebs
  fresh : (nodesUpTo g area n).IsChain Fresh
  settled : ∀ k < n, (area (g.orphFirst + k)).mapped = false → (area (g.orphFirst + k)).former = []

/-- An empty LEB. -/
theorem sane_nil {g : Geometry} {ever : List Nat} : Sane g ever [] :=
  ⟨.nil, Nat.zero_le _, fun _ h => by cases h⟩

section Nodes

variable {g : Geometry} {area area' : Nat → Leb} {ever : List Nat} {n j m : Nat} {orph : OrphNode}

/-- One more LEB. -/
theorem nodesUpTo_succ :
    nodesUpTo g area (n + 1) = nodesUpTo g area n ++ (area (g.orphFirst + n)).nodes := by
  unfold nodesUpTo
  rw [List.range_succ, List.flatMap_append, List.flatMap_singleton]

/-- A node is in one of the LEBs. -/
theorem mem_nodesUpTo :
    orph ∈ nodesUpTo g area n ↔ ∃ k < n, orph ∈ (area (g.orphFirst + k)).nodes := by
  unfold nodesUpTo
  simp

/-- It depends on the nodes in them. -/
theorem nodesUpTo_congr (h : ∀ k < n, (area' (g.orphFirst + k)).nodes = (area (g.orphFirst + k)).nodes) :
    nodesUpTo g area' n = nodesUpTo g area n :=
  List.flatMap_congr fun k hk => h k (List.mem_range.mp hk)

theorem nodesUpTo_mono (h : m ≤ n) : nodesUpTo g area m <+: nodesUpTo g area n := by
  induction n, h using Nat.le_induction with
  | base => exact List.prefix_refl _
  | succ n _ ih =>
    rw [nodesUpTo_succ]
    exact ih.trans (List.prefix_append ..)

/-- Empty LEBs add nothing. -/
theorem nodesUpTo_empty (h : n ≤ m) (he : ∀ k, n ≤ k → k < m → (area (g.orphFirst + k)).nodes = []) :
    nodesUpTo g area m = nodesUpTo g area n := by
  induction m, h using Nat.le_induction with
  | base => rfl
  | succ m hm ih =>
    rw [nodesUpTo_succ, he m hm (Nat.lt_succ_self m), List.append_nil]
    exact ih fun k hk hkm => he k hk (Nat.lt_succ_of_lt hkm)

/-- The nodes before an LEB, in it, and behind it. -/
theorem nodesUpTo_split (g : Geometry) (area : Nat → Leb) (h : j < n) :
    ∃ rest, ∀ area' : Nat → Leb,
      (∀ k, j < k → k < n → (area' (g.orphFirst + k)).nodes = (area (g.orphFirst + k)).nodes) →
      nodesUpTo g area' n = nodesUpTo g area' j ++ ((area' (g.orphFirst + j)).nodes ++ rest) := by
  induction n, h using Nat.le_induction with
  | base =>
    refine ⟨[], fun area' _ => ?_⟩
    rw [nodesUpTo_succ, List.append_nil]
  | succ n hn ih =>
    obtain ⟨rest, hrest⟩ := ih
    refine ⟨rest ++ (area (g.orphFirst + n)).nodes, fun area' hsame => ?_⟩
    rw [nodesUpTo_succ, hrest area' fun k hj hk => hsame k hj (Nat.lt_succ_of_lt hk),
      hsame n hn (Nat.lt_succ_self n)]
    simp only [List.append_assoc]

/-- The inode numbers in the first LEBs are not more than these have room for. -/
theorem Area.length_inos (hg : g.Valid) (h : Area g area ever n) (j : Nat) :
    ((nodesUpTo g area j).flatMap (·.inos)).length ≤ j * g.perLeb := by
  induction j with
  | zero => exact Nat.zero_le _
  | succ j ih =>
    have hleb := length_inos_le hg (h.sane (g.orphFirst + j) _ (List.mem_cons_self ..)).fits
    rw [nodesUpTo_succ, List.flatMap_append, List.length_append, Nat.succ_mul]
    omega

/-- There are more orphans than before. -/
theorem Area.mono {ever' : List Nat} (h : Area g area ever n) (hsub : ∀ i ∈ ever, i ∈ ever') :
    Area g area ever' n :=
  { h with
    sane := fun lnum nodes hn =>
      let hs := h.sane lnum nodes hn
      ⟨hs.sorted, hs.fits, fun orph ho i hi => hsub i (hs.known orph ho i hi)⟩ }

/-- One LEB changes, `n'` LEBs count from then on. -/
theorem Area.update {lnum n' : Nat} {leb : Leb} (h : Area g area ever n)
    (hsane : ∀ nodes ∈ leb.nodes :: leb.former,
      nodes ∈ (area lnum).nodes :: (area lnum).former ∨ Sane g ever nodes)
    (hun : leb.mapped = false → leb.nodes = [] ∧ ∀ k < n', g.orphFirst + k ≠ lnum)
    (hle : n' ≤ g.orphLebs) (hold : ∀ k < n', k < n ∨ g.orphFirst + k = lnum)
    (hfresh : (nodesUpTo g (Function.update area lnum leb) n').IsChain Fresh) :
    Area g (Function.update area lnum leb) ever n' := by
  have hother : ∀ l, l ≠ lnum → Function.update area lnum leb l = area l := fun l hl =>
    Function.update_of_ne hl ..
  have hself : Function.update area lnum leb lnum = leb := Function.update_self ..
  refine ⟨fun l nodes hn => ?_, fun l hl => ?_, hle, hfresh, fun k hk hm => ?_⟩
  · by_cases heq : l = lnum
    · rw [heq, hself] at hn
      exact (hsane nodes hn).elim (h.sane lnum nodes) id
    · rw [hother l heq] at hn
      exact h.sane l nodes hn
  · by_cases heq : l = lnum
    · rw [heq, hself] at hl ⊢
      exact (hun hl).1
    · rw [hother l heq] at hl ⊢
      exact h.unmapped l hl
  · by_cases heq : g.orphFirst + k = lnum
    · rw [heq, hself] at hm
      exact absurd heq ((hun hm).2 k hk)
    · rw [hother _ heq] at hm ⊢
      exact h.settled k ((hold k hk).resolve_right heq) hm

theorem nodesUpTo_update_same {lnum : Nat} {leb : Leb} (h : leb.nodes = (area lnum).nodes) :
    nodesUpTo g (Function.update area lnum leb) n = nodesUpTo g area n := by
  refine nodesUpTo_congr fun k _ => ?_
  by_cases heq : g.orphFirst + k = lnum
  · rw [heq, Function.update_self, h]
  · rw [Function.update_of_ne heq]

/-- LEBs behind do not matter. -/
theorem nodesUpTo_update_behind {lnum : Nat} {leb : Leb} (h : g.orphFirst + n ≤ lnum) :
    nodesUpTo g (Function.update area lnum leb) n = nodesUpTo g area n := by
  refine nodesUpTo_congr fun k hk => ?_
  rw [Function.update_of_ne (by omega)]

/-- An LEB behind those that count is unmapped. -/
theorem Area.unmap {lnum : Nat} (h : Area g area ever n) (hl : g.orphFirst + n ≤ lnum) :
    Area g (Function.update area lnum (area lnum).unmap) ever n := by
  refine h.update (fun nodes hn => ?_) (fun hm => ⟨?_, fun k hk => by omega⟩) h.lebs
    (fun k hk => .inl hk) ?_
  · unfold Leb.unmap at hn
    split at hn
    · rcases List.mem_cons.mp hn with rfl | hn
      · exact .inr sane_nil
      · exact .inl hn
    · exact .inl hn
  · unfold Leb.unmap at hm ⊢
    split at hm
    · rw [if_pos ‹_›]
    · rw [if_neg ‹_›]
      exact h.unmapped lnum hm
  · rw [nodesUpTo_update_behind hl]
    exact h.fresh

/-- A write that is cut short. -/
theorem Area.touch {lnum : Nat} (h : Area g area ever n) :
    Area g (Function.update area lnum (area lnum).touch) ever n := by
  refine h.update (fun nodes hn => .inl hn) (fun hm => by cases hm) h.lebs (fun k hk => .inl hk) ?_
  have hsame : (area lnum).touch.nodes = (area lnum).nodes := rfl
  rw [nodesUpTo_update_same hsame]
  exact h.fresh

/-- A node is written behind all others: into the last LEB that counts or into the next one. -/
theorem Area.append {lnum n' : Nat} (h : Area g area ever n) (horph : Sane g ever [orph])
    (hnew : ∀ prev ∈ nodesUpTo g area n, prev.cmtNo ≤ orph.cmtNo)
    (hroom : (area lnum).endpt g + orph.space g ≤ g.lebSize)
    (hhead : 0 < n ∧ lnum + 1 = g.orphFirst + n ∧ n' = n ∨
      lnum = g.orphFirst + n ∧ (area lnum).nodes = [] ∧ n' = n + 1 ∧ n < g.orphLebs) :
    Area g (Function.update area lnum ((area lnum).append orph)) ever n' ∧
      nodesUpTo g (Function.update area lnum ((area lnum).append orph)) n' =
        nodesUpTo g area n ++ [orph] := by
  have hself : (Function.update area lnum ((area lnum).append orph) lnum).nodes =
      (area lnum).nodes ++ [orph] := by
    rw [Function.update_self]
    rfl
  -- The node is the last of all that count, whether its LEB counted before or not.
  have hnodes : nodesUpTo g (Function.update area lnum ((area lnum).append orph)) n' =
      nodesUpTo g area n ++ [orph] := by
    rcases hhead with ⟨hn, hl, rfl⟩ | ⟨rfl, he, rfl, -⟩
    · obtain ⟨k, rfl⟩ : ∃ k, n' = k + 1 := ⟨n' - 1, by omega⟩
      obtain rfl : lnum = g.orphFirst + k := by omega
      rw [nodesUpTo_succ, nodesUpTo_succ, nodesUpTo_update_behind (Nat.le_refl _), hself,
        List.append_assoc]
    · rw [nodesUpTo_succ, nodesUpTo_update_behind (Nat.le_refl _), hself, he]
      rfl
  have hlast : ∀ prev ∈ (area lnum).nodes, prev.cmtNo ≤ orph.cmtNo := by
    intro prev hp
    rcases hhead with ⟨hn, hl, -⟩ | ⟨-, he, -⟩
    · obtain ⟨k, rfl⟩ : ∃ k, n = k + 1 := ⟨n - 1, by omega⟩
      obtain rfl : lnum = g.orphFirst + k := by omega
      exact hnew prev (mem_nodesUpTo.mpr ⟨k, Nat.lt_succ_self k, hp⟩)
    · rw [he] at hp
      cases hp
  refine ⟨h.update (fun nodes hn => ?_) (fun hm => by cases hm) ?_ (fun k hk => ?_) ?_, hnodes⟩
  · -- the LEB has one more node, which is as new as the last one
    rcases List.mem_cons.mp hn with rfl | hn
    · have hold := h.sane lnum _ (List.mem_cons_self ..)
      refine .inr ⟨?_, ?_, ?_⟩
      · exact List.pairwise_append.mpr ⟨hold.sorted, List.pairwise_singleton .., fun a ha b hb =>
          List.mem_singleton.mp hb ▸ hlast a ha⟩
      · show ((area lnum).append orph).endpt g ≤ g.lebSize
        rw [endpt_append]
        exact hroom
      · intro o ho
        exact (List.mem_append.mp ho).elim (hold.known o) (horph.known o)
    · exact .inl (List.mem_cons_of_mem _ hn)
  · rcases hhead with ⟨-, -, rfl⟩ | ⟨-, -, rfl, hlt⟩
    · exact h.lebs
    · exact hlt
  · rcases hhead with ⟨-, -, rfl⟩ | ⟨rfl, -, rfl, -⟩
    · exact .inl hk
    · omega
  · -- no commit starts again: its number is at least that of all before
    rw [hnodes, List.isChain_append]
    refine ⟨h.fresh, List.isChain_singleton .., fun prev hp o ho => ?_⟩
    obtain rfl : orph = o := by simpa using ho
    exact fun hc => absurd (hnew prev (List.mem_of_mem_getLast? hp)) (Nat.not_le.mpr hc.1)

/-- An LEB is overwritten with a node of the current commit.  If that is the last node of the commit,
    the LEBs behind it count no more. -/
theorem Area.change (h : Area g area ever n) (horph : Sane g ever [orph])
    (hnew : ∀ prev ∈ nodesUpTo g area n, prev.cmtNo ≤ orph.cmtNo) (hj : j ≤ n) (hlt : j < g.orphLebs)
    (hn : m = j + 1 ∨ orph.last = false ∧ m = max n (j + 1)) :
    Area g (Function.update area (g.orphFirst + j) ((area (g.orphFirst + j)).change orph)) ever m ∧
      ∀ o ∈ nodesUpTo g (Function.update area (g.orphFirst + j)
          ((area (g.orphFirst + j)).change orph)) m,
        o = orph ∨ o ∈ nodesUpTo g area n := by
  have hself : (Function.update area (g.orphFirst + j) ((area (g.orphFirst + j)).change orph)
      (g.orphFirst + j)).nodes = [orph] := by
    rw [Function.update_self]
    rfl
  obtain ⟨rest, hrest, hsub, hmarked⟩ : ∃ rest : List OrphNode,
      nodesUpTo g (Function.update area (g.orphFirst + j) ((area (g.orphFirst + j)).change orph)) m =
        nodesUpTo g area j ++ ([orph] ++ rest) ∧ rest <:+ nodesUpTo g area n ∧
        (rest = [] ∨ orph.last = false) := by
    -- Behind a last node nothing counts; behind another the old LEBs do.
    by_cases hm : m = j + 1
    · refine ⟨[], ?_, List.nil_suffix, .inl rfl⟩
      rw [hm, nodesUpTo_succ, nodesUpTo_update_behind (Nat.le_refl _), hself]
      rfl
    · obtain ⟨hlast, rfl⟩ := hn.resolve_left hm
      have hjn : j < n := by omega
      obtain ⟨rest, hsplit⟩ := nodesUpTo_split g area hjn
      refine ⟨rest, ?_, ?_, .inr hlast⟩
      · rw [Nat.max_eq_left hjn, hsplit _ fun k hk _ => by
          rw [Function.update_of_ne (by omega)], nodesUpTo_update_behind (Nat.le_refl _), hself]
      · rw [hsplit area fun k _ _ => rfl]
        exact (List.suffix_append ..).trans (List.suffix_append ..)
  have hpre : nodesUpTo g area j <+: nodesUpTo g area n := nodesUpTo_mono hj
  refine ⟨h.update (fun nodes hnodes => ?_) (fun hc => by cases hc) ?_ (fun k hk => ?_) ?_, ?_⟩
  · -- the LEB has the one node
    rcases List.mem_cons.mp hnodes with rfl | hf
    · exact .inr horph
    · exact .inl (List.mem_cons_of_mem _ hf)
  · have := h.lebs
    rcases hn with rfl | ⟨-, rfl⟩
    · exact hlt
    · exact Nat.max_le.mpr ⟨this, hlt⟩
  · rcases hn with rfl | ⟨-, rfl⟩ <;> omega
  · -- the new node is behind those of this commit, and before old ones only if it is not marked
    rw [hrest, List.isChain_append, List.isChain_append]
    have hbefore : (nodesUpTo g area j).IsChain Fresh := h.fresh.prefix hpre
    refine ⟨hbefore, ⟨List.isChain_singleton .., h.fresh.suffix hsub, ?_⟩, ?_⟩
    · intro a ha o ho
      obtain rfl : orph = a := by simpa using ha
      rcases hmarked with rfl | hlast
      · cases ho
      · intro hc
        rw [hlast] at hc
        exact Bool.false_ne_true hc.2
    · intro a ha o ho
      obtain rfl : orph = o := by simpa using ho
      have hmem := hpre.subset (List.mem_of_mem_getLast? ha)
      exact fun hc => absurd (hnew a hmem) (Nat.not_le.mpr hc.1)
  · intro o ho
    rw [hrest, List.mem_append, List.mem_append, List.mem_singleton] at ho
    rcases ho with ho | rfl | ho
    · exact .inr (hpre.subset ho)
    · exact .inl rfl
    · exact .inr (hsub.subset ho)

end Nodes

/-! ## Where the orphans were written -/

/-- The orphans `W` are in the first `n` LEBs, in this order. -/
def Placed (g : Geometry) (area : Nat → Leb) (mem : Nat → Option Orphan) (n : Nat) (W : List Nat) :
    Prop :=
  ∃ pos : Nat → Nat,
    (∀ a ∈ W, pos a < n ∧ ∃ i, inumIn mem a = some i ∧ (area (g.orphFirst + pos a)).Has i) ∧
    W.Pairwise fun a b => pos a ≤ pos b

section Placed

variable {g : Geometry} {area area' : Nat → Leb} {ever W U V : List Nat} {n m j k : Nat}
  {mem mem' : Nat → Option Orphan} {pos : Nat → Nat}

/-- No orphan has to be on flash. -/
theorem placed_nil : Placed g area mem n [] :=
  ⟨fun _ => 0, fun a ha => (by cases ha), .nil⟩

/-- Only the inode numbers matter, and what is in the LEBs. -/
theorem Placed.congr (h : Placed g area mem n W) (hV : V.Sublist W) (hnm : n ≤ m)
    (hin : ∀ a ∈ V, inumIn mem' a = inumIn mem a)
    (hleb : ∀ k < n, ∀ i, (area (g.orphFirst + k)).Has i → (area' (g.orphFirst + k)).Has i) :
    Placed g area' mem' m V := by
  obtain ⟨pos, hpos, hmono⟩ := h
  refine ⟨pos, fun a ha => ?_, hmono.sublist hV⟩
  obtain ⟨hlt, i, hi, hhas⟩ := hpos a (hV.subset ha)
  exact ⟨Nat.lt_of_lt_of_le hlt hnm, i, (hin a ha).trans hi, hleb _ hlt i hhas⟩

/-- More orphans were written, into the last LEB that counts. -/
theorem Placed.append (h : Placed g area mem n W) (hnm : n ≤ m + 1)
    (hV : ∀ a ∈ V, ∃ i, inumIn mem a = some i ∧ (area (g.orphFirst + m)).Has i) (hd : W.Disjoint V) :
    Placed g area mem (m + 1) (W ++ V) := by
  obtain ⟨pos, hpos, hmono⟩ := h
  obtain ⟨pos', hW, hnew⟩ : ∃ pos' : Nat → Nat, (∀ a ∈ W, pos' a = pos a) ∧ ∀ a ∈ V, pos' a = m :=
    ⟨fun a => if a ∈ V then m else pos a, fun a ha => if_neg (hd ha), fun a ha => if_pos ha⟩
  refine ⟨pos', fun a ha => ?_, List.pairwise_append.mpr ⟨?_, ?_, ?_⟩⟩
  · rcases List.mem_append.mp ha with ha | ha
    · rw [hW a ha]
      obtain ⟨hlt, hhas⟩ := hpos a ha
      exact ⟨Nat.lt_of_lt_of_le hlt hnm, hhas⟩
    · rw [hnew a ha]
      exact ⟨Nat.lt_succ_self m, hV a ha⟩
  · refine hmono.imp_of_mem fun {a b} ha hb hab => ?_
    rw [hW a ha, hW b hb]
    exact hab
  · refine List.pairwise_of_forall_mem_list fun a ha b hb => ?_
    rw [hnew a ha, hnew b hb]
  · intro a ha b hb
    rw [hW a ha, hnew b hb]
    have := (hpos a ha).1
    omega

/-- No more orphans are in the first `j` LEBs than these have room for. -/
theorem count_pos_le (hg : g.Valid) (harea : Area g area ever n) (hW : W.Nodup)
    (hinj : ∀ a ∈ W, ∀ b ∈ W, inumIn mem a = inumIn mem b → a = b)
    (hpos : ∀ a ∈ W, pos a < n ∧ ∃ i, inumIn mem a = some i ∧ (area (g.orphFirst + pos a)).Has i)
    (j : Nat) : W.countP (pos · < j) ≤ j * g.perLeb := by
  rw [List.countP_eq_length_filter]
  refine Nat.le_trans ?_ (harea.length_inos hg j)
  have hnodup : ((W.filter (pos · < j)).map (inumIn mem)).Nodup := by
    refine (hW.filter _).map_on fun a ha b hb => ?_
    exact hinj a (List.mem_filter.mp ha).1 b (List.mem_filter.mp hb).1
  have hsub : (W.filter (pos · < j)).map (inumIn mem) ⊆
      ((nodesUpTo g area j).flatMap (·.inos)).map some := by
    intro x hx
    obtain ⟨a, ha, rfl⟩ := List.mem_map.mp hx
    obtain ⟨haW, hlt⟩ := List.mem_filter.mp ha
    obtain ⟨-, i, hi, orph, ho, hmem⟩ := hpos a haW
    rw [hi]
    refine List.mem_map_of_mem (List.mem_flatMap.mpr ⟨orph, ?_, hmem⟩)
    exact mem_nodesUpTo.mpr ⟨pos a, of_decide_eq_true hlt, ho⟩
  simpa using (List.subperm_of_subset hnodup hsub).length_le

/-- Where the positions ascend, and no more than `k` are below `j`, those behind the first `k` are not
    below `j`. -/
theorem le_pos_of_count (hmono : (U ++ V).Pairwise fun a b => pos a ≤ pos b)
    (hcount : (U ++ V).countP (pos · < j) ≤ k) (hk : k ≤ U.length) {a : Nat} (ha : a ∈ V) :
    j ≤ pos a := by
  by_contra hlt
  obtain ⟨-, -, hcross⟩ := List.pairwise_append.mp hmono
  have hU : U.countP (pos · < j) = U.length := List.countP_eq_length.mpr fun b hb => by
    have := hcross b hb a ha
    exact decide_eq_true (by omega)
  have hV : 0 < V.countP (pos · < j) := List.countP_pos_iff.mpr ⟨a, ha, decide_eq_true (by omega)⟩
  rw [List.countP_append] at hcount
  omega

end Placed

/-! ## The mount -/

/-- The head is at the end of the last LEB that counts, or at the start of the next one. -/
def Head (g : Geometry) (s : State) (n : Nat) : Prop :=
  s.oheadLnum = g.orphFirst + n ∧ s.oheadOffs = 0 ∧ n < g.orphLebs ∨
    0 < n ∧ s.oheadLnum + 1 = g.orphFirst + n ∧ s.oheadOffs = (s.area s.oheadLnum).endpt g ∧
      0 < s.oheadOffs

/-- Memory, after the inodes `is` were put aside. -/
structure Dead (g : Geometry) (area : Nat → Leb) (m : Nat) (mem : Memory) (is : List Nat) : Prop where
  lists : ∃ D, Lists mem [] D
  new : mem.orphNew = []
  placed : Placed g area mem.mem m mem.orphList
  covers : ∀ i, i ∈ is ↔ ∃ a ∈ mem.orphList, inumIn mem.mem a = some i

section Mount

variable {g : Geometry} {area : Nat → Leb} {m n : Nat} {mem : Memory} {is : List Nat} {s₀ : State}
  {k : State.Scan} {V : List OrphNode}

/-- An inode number is read from a node. -/
theorem Dead.insert {i : Nat} (h : Dead g area (m + 1) mem is) (hi : (area (g.orphFirst + m)).Has i) :
    Dead g area (m + 1) (mem.insertDeadOrphan i) (is ++ [i]) := by
  obtain ⟨D, hl⟩ := h.lists
  have hlists : ∃ D', Lists (mem.insertDeadOrphan i) [] D' := hl.insertDead
  unfold Memory.insertDeadOrphan at hlists ⊢
  cases hf : mem.find i with
  | some a =>
    obtain ⟨ha, o, ho, hio⟩ := hl.find_some hf
    refine ⟨⟨D, hl⟩, h.new, h.placed, fun j => ?_⟩
    rw [List.mem_append, h.covers j, List.mem_singleton, or_iff_left_iff_imp]
    rintro rfl
    exact ⟨a, hl.list.mem_iff.mpr ha, inumIn_some.mpr ⟨o, ho, hio⟩⟩
  | none =>
    rw [hf] at hlists
    have hlt : ∀ a ∈ mem.orphList, a ≠ mem.brk := fun a ha =>
      Nat.ne_of_lt (hl.lt a (hl.list.mem_iff.mp ha))
    let orphan : Orphan := ⟨i, false, none, mem.orphDnext⟩
    have hself : inumIn (mem.link orphan).mem mem.brk = some i :=
      inumIn_some.mpr ⟨orphan, Function.update_self .., rfl⟩
    have hother : ∀ a ∈ mem.orphList, inumIn (mem.link orphan).mem a = inumIn mem.mem a :=
      fun a ha => congrArg _ (Function.update_of_ne (hlt a ha) ..)
    refine ⟨hlists, h.new, ?_, fun j => ?_⟩
    · have hold : Placed g area (mem.link orphan).mem (m + 1) mem.orphList :=
        h.placed.congr (List.Sublist.refl _) (Nat.le_refl _) hother fun _ _ _ hh => hh
      refine hold.append (Nat.le_refl _) (fun a ha => ?_) fun a ha hb => ?_
      · rw [List.mem_singleton.mp ha]
        exact ⟨i, hself, hi⟩
      · exact hlt a ha (List.mem_singleton.mp hb)
    · show j ∈ is ++ [i] ↔ ∃ a ∈ mem.orphList ++ [mem.brk], inumIn (mem.link orphan).mem a = some j
      rw [List.mem_append, h.covers j, List.mem_singleton]
      constructor
      · rintro (⟨a, ha, hin⟩ | rfl)
        · exact ⟨a, List.mem_append_left _ ha, (hother a ha).trans hin⟩
        · exact ⟨mem.brk, by simp, hself⟩
      · rintro ⟨a, ha, hin⟩
        rcases List.mem_append.mp ha with ha | ha
        · exact .inl ⟨a, ha, (hother a ha).symm.trans hin⟩
        · rw [List.mem_singleton.mp ha, hself] at hin
          exact .inr (Option.some.inj hin).symm

/-- All those of the node. -/
theorem Dead.inserts (inos : List Nat) (h : Dead g area (m + 1) mem is)
    (hi : ∀ i ∈ inos, (area (g.orphFirst + m)).Has i) :
    Dead g area (m + 1) (inos.foldl Memory.insertDeadOrphan mem) (is ++ inos) := by
  induction inos generalizing mem is with
  | nil =>
    rw [List.append_nil]
    exact h
  | cons i inos ih =>
    have := ih (h.insert (hi i (List.mem_cons_self ..))) fun j hj => hi j (List.mem_cons_of_mem _ hj)
    rwa [List.append_assoc] at this

/-- What is known when the nodes `V` were visited, the last of them in an LEB before `m`. -/
structure Visited (g : Geometry) (s₀ : State) (m : Nat) (V : List OrphNode) (k : State.Scan) : Prop where
  rest : ∃ mem lnum offs cmtNo,
    k.s = { s₀ with toMemory := mem, oheadLnum := lnum, oheadOffs := offs, cmtNo := cmtNo }
  last : ∀ prev ∈ V.getLast?, k.lastCmtNo = prev.cmtNo ∧ k.lastFlagged = prev.last
  unflagged : V = [] → k.lastFlagged = false
  cmtNo : ∀ orph ∈ V, orph.cmtNo ≤ k.s.cmtNo
  removed : k.removed = V.flatMap (·.inos)
  dead : Dead g s₀.area m k.s.toMemory k.removed

/-- One node is visited. -/
def State.Scan.visit (k : State.Scan) (orph : OrphNode) : State.Scan :=
  ({ k with s := { k.s with cmtNo := max k.s.cmtNo orph.cmtNo } } : State.Scan).kill orph

/-- The scan visits a node. -/
theorem Visited.visit {orph : OrphNode} (h : Visited g s₀ (m + 1) V k)
    (ho : orph ∈ (s₀.area (g.orphFirst + m)).nodes) :
    Visited g s₀ (m + 1) (V ++ [orph]) (k.visit orph) := by
  refine ⟨?_, fun prev hp => ?_, fun hc => ?_, fun o hmem => ?_, ?_, ?_⟩
  · obtain ⟨mem, lnum, offs, cmtNo, hs⟩ := h.rest
    cases k
    cases hs
    exact ⟨_, lnum, offs, _, rfl⟩
  · obtain rfl : orph = prev := by simpa using hp
    exact ⟨rfl, rfl⟩
  · simp at hc
  · show o.cmtNo ≤ max k.s.cmtNo orph.cmtNo
    rcases List.mem_append.mp hmem with hV | hV
    · exact Nat.le_trans (h.cmtNo o hV) (Nat.le_max_left ..)
    · rw [List.mem_singleton.mp hV]
      exact Nat.le_max_right ..
  · show k.removed ++ orph.inos = _
    rw [h.removed]
    simp
  · exact h.dead.inserts orph.inos fun i hi => ⟨orph, ho, hi⟩

theorem Visited.moveHead (h : Visited g s₀ m V k) (lnum offs : Nat) :
    Visited g s₀ m V { k with s := { k.s with oheadLnum := lnum, oheadOffs := offs } } := by
  refine { h with rest := ?_ }
  obtain ⟨mem, _, _, cmtNo, hs⟩ := h.rest
  cases k
  cases hs
  exact ⟨mem, lnum, offs, cmtNo, rfl⟩

/-- The commit number is raised. -/
theorem Visited.raise {c : Nat} (h : Visited g s₀ m V k) (hc : k.s.cmtNo ≤ c) :
    Visited g s₀ m V { k with s := { k.s with cmtNo := c } } := by
  refine { h with rest := ?_, cmtNo := fun orph ho => Nat.le_trans (h.cmtNo orph ho) hc }
  obtain ⟨mem, lnum, offs, _, hs⟩ := h.rest
  cases k
  cases hs
  exact ⟨mem, lnum, offs, c, rfl⟩

/-- The scan visits the nodes of a LEB. -/
theorem Visited.visits (nodes : List OrphNode) (h : Visited g s₀ (m + 1) V k)
    (ho : ∀ orph ∈ nodes, orph ∈ (s₀.area (g.orphFirst + m)).nodes) :
    Visited g s₀ (m + 1) (V ++ nodes) (nodes.foldl State.Scan.visit k) := by
  induction nodes generalizing V k with
  | nil =>
    rw [List.append_nil]
    exact h
  | cons orph nodes ih =>
    have := ih (h.visit (ho orph (List.mem_cons_self ..))) fun o hm => ho o (List.mem_cons_of_mem _ hm)
    rwa [List.append_assoc] at this

/-- What is known before LEB `m` is visited; `n - 1` is the last one that was not empty. -/
structure Scanned (g : Geometry) (s₀ : State) (m n : Nat) (k : State.Scan) : Prop where
  visited : Visited g s₀ m (nodesUpTo g s₀.area m) k
  fresh : (nodesUpTo g s₀.area m).IsChain Fresh
  le : n ≤ m
  empty : ∀ j, n ≤ j → j < m → (s₀.area (g.orphFirst + j)).nodes = []
  head : Head g k.s n
  lebs : m ≤ g.orphLebs

/-- Only the last node of the LEB before can make a node out of date. -/
theorem doKillOrphans_done (nodes : List OrphNode) :
    ∀ (first : Bool) (k : State.Scan), (nodes.Pairwise fun a b => a.cmtNo ≤ b.cmtNo) →
      (∀ orph ∈ nodes.head?, ¬(orph.cmtNo < k.lastCmtNo ∧ k.lastFlagged = true)) →
      State.doKillOrphans nodes first k = .done (nodes.foldl State.Scan.visit k) := by
  induction nodes with
  | nil => exact fun first k _ _ => rfl
  | cons orph nodes ih =>
    intro first k hs hk
    obtain ⟨hle, hs⟩ := List.pairwise_cons.mp hs
    show State.doKillOrphans (orph :: nodes) first k = .done (nodes.foldl _ (k.visit orph))
    unfold State.doKillOrphans
    dsimp only
    rw [if_neg (hk orph rfl)]
    refine ih false _ hs fun o ho hc => ?_
    exact absurd (hle o (List.mem_of_mem_head? ho)) (Nat.not_le.mpr hc.1)

/-- A LEB with a node is not empty. -/
theorem endpt_pos (hg : g.Valid) {leb : Leb} (h : leb.nodes ≠ []) : 0 < leb.endpt g := by
  obtain ⟨orph, l, heq⟩ := List.exists_cons_of_ne_nil h
  unfold Leb.endpt
  rw [heq, List.map_cons, List.sum_cons]
  have h32 : 0 < ubifsOrphNodeSz := by decide
  have : ubifsOrphNodeSz + orph.inos.length * 8 ≤ orph.space g := le_space hg
  omega

/-- **`kill_orphans`** does not fail, and goes through as many LEBs as may count. -/
theorem Scanned.killFrom (hg : g.Valid)
    (hs : ∀ lnum, (s₀.area lnum).nodes.Pairwise fun a b => a.cmtNo ≤ b.cmtNo) (r : Nat) :
    ∀ (m n : Nat) (k : State.Scan), Scanned g s₀ m n k → m + r = g.orphLebs →
      ∃ k' m' n', State.killFrom g r (g.orphFirst + m) k = some k' ∧ Scanned g s₀ m' n' k' ∧
        ∀ j ≤ g.orphLebs, (nodesUpTo g s₀.area j).IsChain Fresh → j ≤ m' := by
  induction r with
  | zero =>
    intro m n k h hmr
    exact ⟨k, m, n, rfl, h, fun j hj _ => by omega⟩
  | succ r ih =>
    intro m n k h hmr
    have harea : k.s.area = s₀.area := by
      obtain ⟨mem, lnum, offs, cmtNo, heq⟩ := h.visited.rest
      rw [heq]
    unfold State.killFrom
    rw [harea]
    by_cases hdrop : ∀ orph ∈ (s₀.area (g.orphFirst + m)).nodes.head?,
        ¬(orph.cmtNo < k.lastCmtNo ∧ k.lastFlagged = true)
    · rw [doKillOrphans_done _ true k (hs _) hdrop]
      have hv : Visited g s₀ (m + 1) (nodesUpTo g s₀.area (m + 1))
          ((s₀.area (g.orphFirst + m)).nodes.foldl State.Scan.visit k) := by
        rw [nodesUpTo_succ]
        refine Visited.visits _ ?_ fun orph ho => ho
        have hd := h.visited.dead
        exact { h.visited with
          dead := { hd with
            placed := hd.placed.congr (List.Sublist.refl _) (Nat.le_succ m) (fun _ _ => rfl)
              fun _ _ _ hh => hh } }
      have hfresh : (nodesUpTo g s₀.area (m + 1)).IsChain Fresh := by
        rw [nodesUpTo_succ, List.isChain_append]
        refine ⟨h.fresh, ?_, fun prev hp orph ho hc => hdrop orph ho ?_⟩
        · exact (hs _).isChain.imp fun a b hab hc => absurd hab (Nat.not_le.mpr hc.1)
        · obtain ⟨hl, hf⟩ := h.visited.last prev hp
          rw [hl, hf]
          exact hc
      generalize hk₁ : (s₀.area (g.orphFirst + m)).nodes.foldl State.Scan.visit k = k₁ at hv
      have harea₁ : k₁.s.area = s₀.area := by
        obtain ⟨mem, lnum, offs, cmtNo, heq⟩ := hv.rest
        rw [heq]
      dsimp only
      by_cases hend : (k₁.s.area (g.orphFirst + m)).endpt g ≠ 0
      · rw [if_pos hend]
        refine ih (m + 1) (m + 1) _ ⟨?_, hfresh, Nat.le_refl _, fun j hj hjm => by omega, ?_, by omega⟩
          (by omega)
        · exact hv.moveHead ..
        · exact .inr ⟨Nat.succ_pos m, rfl, rfl, Nat.pos_of_ne_zero hend⟩
      · rw [if_neg hend]
        have hnil : (s₀.area (g.orphFirst + m)).nodes = [] := by
          by_contra hne
          have := endpt_pos hg hne
          rw [harea₁] at hend
          omega
        obtain rfl : k = k₁ := by
          rw [← hk₁, hnil]
          rfl
        refine ih (m + 1) n _ ⟨hv, hfresh, Nat.le_succ_of_le h.le, fun j hj hjm => ?_, h.head, by omega⟩
          (by omega)
        rcases Nat.lt_succ_iff_lt_or_eq.mp hjm with hlt | rfl
        · exact h.empty j hj hlt
        · exact hnil
    · -- out of date: the LEB does not count
      push Not at hdrop
      obtain ⟨orph, ho, hlt, hflag⟩ := hdrop
      obtain ⟨l, hl⟩ := List.head?_eq_some_iff.mp ho
      rw [hl, State.doKillOrphans]
      dsimp only
      rw [if_pos ⟨hlt, hflag⟩]
      refine ⟨_, m, n, rfl, ⟨?_, h.fresh, h.le, h.empty, h.head, h.lebs⟩, fun j hj hfresh => ?_⟩
      · exact h.visited.raise (Nat.le_max_left ..)
      · by_contra hjm
        have hone : (nodesUpTo g s₀.area (m + 1)).IsChain Fresh :=
          hfresh.prefix (nodesUpTo_mono (by omega))
        rw [nodesUpTo_succ, List.isChain_append] at hone
        cases hp : (nodesUpTo g s₀.area m).getLast? with
        | none =>
          rw [h.visited.unflagged (List.getLast?_eq_none_iff.mp hp)] at hflag
          cases hflag
        | some prev =>
          obtain ⟨hc, hf⟩ := h.visited.last prev hp
          exact hone.2.2 prev hp orph ho ⟨hc ▸ hlt, hf ▸ hflag⟩

end Mount

end Ubifs.Orphans
