/-
  The commit of the index as a whole: what is read from the flash afterwards is the tree that was
  in memory when the commit started.

  The commit starts by listing the znodes that are dirty (`IndexList`) and giving each of them a
  place (`IndexLayout`); it ends by writing them to these places (`IndexWrite`).  Between the two
  the TNC may change, but the znodes on the list are copied first, so that they are written as they
  were.

  `Contents` is what a tree says.  It is read from memory for the tree when the commit starts, and
  from the flash, through the new root, when it has ended: both are the same
  (`commit_writes_tree`), also where a part of the tree was not in memory.
-/
import FlashStack.Ubifs.IndexWrite

open Lib

namespace Ubifs.Index

variable {K : Type}

namespace Info

variable {g : Geometry} {c c₀ c₁ : Info K} {P : Places} {a x first : Nat} {z : Znode K}

/-! ## The start of a commit -/

/-- Enough LEBs are free, and they are taken for the index. -/
theorem findFreeLebs_eq (n : Nat) (c : Info K) (h : n ≤ c.freeLebs.length) :
    findFreeLebs n c = some { c with
      ilebs := c.ilebs ++ c.freeLebs.take n, freeLebs := c.freeLebs.drop n } := by
  induction n generalizing c with
  | zero => simp [findFreeLebs]
  | succ n ih =>
    cases hf : c.freeLebs with
    | nil => simp [hf] at h
    | cons lnum rest =>
      rw [hf, List.length_cons] at h
      simp only [findFreeLebs, hf]
      rw [ih _ (Nat.le_of_succ_le_succ h)]
      simp

/-- `get_leb_cnt` is the bound of next-fit. -/
theorem getLebCnt_eq (hg : g.Valid) (c : Info K) (n : Nat) :
    c.getLebCnt g n = Lib.NextFit.binsFor g.lebSize g.maxIdxNodeSz c.iheadOffs n := by
  have hd : 0 < g.lebSize / g.maxIdxNodeSz :=
    Nat.div_pos hg.maxIdxNodeSz_le (maxIdxNodeSz_pos g)
  exact congrArg (· / (g.lebSize / g.maxIdxNodeSz)) (Nat.add_sub_assoc hd _)

/-- Marking the list does not change the tree. -/
theorem Marked.alike {l : List Nat} (h : Marked c first l c₁)
    (hlive : ∀ a ∈ l, ∃ z, c.mem a = some z) : Alike c c₁ := by
  intro a
  by_cases ha : a ∈ l
  · obtain ⟨z, hz⟩ := hlive a ha
    obtain ⟨q, hq⟩ := h.marked ha hz
    rw [hz, hq]
    rfl
  · rw [h.others ha]

/-- The znodes to commit, marked and with the LEBs that were found for them. -/
structure Listed (g : Geometry) (c : Info K) (first : Nat) (c₀ : Info K) : Prop where
  cnext : c₀.cnext = some first
  enext : c₀.enext = some first
  alike : Alike c c₀
  marked {a : Nat} {z : Znode K} : a ∈ c.dirtyList → c.mem a = some z →
    ∃ q, c₀.mem a = some (mark q z)
  others {a : Nat} : a ∉ c.dirtyList → c₀.mem a = c.mem a
  linked : Linked c₀.cnextOf (some first) c.dirtyList (some first)
  ilebs : c₀.ilebs = c.freeLebs.take (c.getLebCnt g c.dirtyList.length)
  same : c₀.zroot = c.zroot ∧ c₀.flash = c.flash ∧ c₀.iheadLnum = c.iheadLnum ∧
    c₀.iheadOffs = c.iheadOffs

/-- The list of a commit is made. -/
theorem start_listed (t : c.Tree) {rest : List Nat} (hl : c.dirtyList = first :: rest)
    (henough : c.getLebCnt g c.dirtyList.length ≤ c.freeLebs.length) {fuel : Nat}
    (hfuel : c.dirtyList.length ≤ fuel) :
    ∃ c₀, Listed g c first c₀ ∧ ∀ c', c₀.layoutInEmptySpace g fuel = some c' →
      c.tncStartCommit g fuel = some (c'.zroot, c'.freeUnusedIdxLebs) := by
  obtain ⟨c', hrun, hmark⟩ := getZnodesToCommit_cons t hl hfuel
  have hlive : ∀ a ∈ c.dirtyList, ∃ z, c.mem a = some z :=
    fun a ha => t.live (t.mem_dirtyList.mp ha).1
  have hhead : c.dirtyList.head? = some first := by rw [hl, List.head?_cons]
  have hsame := hmark.same
  have hfree : c'.freeLebs = c.freeLebs := by rw [hsame]
  have hihead : c'.iheadOffs = c.iheadOffs := by rw [hsame]
  have hcnt : c'.getLebCnt g c.dirtyList.length = c.getLebCnt g c.dirtyList.length := by
    simp only [getLebCnt, hihead]
  have halloc := findFreeLebs_eq (c.getLebCnt g c.dirtyList.length)
    { c' with ilebs := [], ilebNxt := 0 } (hfree ▸ henough)
  have hlink := hmark.linked
  rw [hhead] at hlink
  let c₀ : Info K :=
    { c' with
      ilebs := [] ++ c'.freeLebs.take (c.getLebCnt g c.dirtyList.length), ilebNxt := 0
      freeLebs := c'.freeLebs.drop (c.getLebCnt g c.dirtyList.length) }
  refine ⟨c₀, ⟨?_, ?_, hmark.alike hlive, hmark.marked, hmark.others, hlink, ?_, ?_⟩, ?_⟩
  · show c'.cnext = some first
    rw [hsame]
  · show c'.enext = some first
    rw [hsame]
  · show [] ++ c'.freeLebs.take _ = _
    rw [List.nil_append, hfree]
  · show c'.zroot = c.zroot ∧ c'.flash = c.flash ∧ c'.iheadLnum = c.iheadLnum ∧
      c'.iheadOffs = c.iheadOffs
    rw [hsame]
    exact ⟨rfl, rfl, rfl, rfl⟩
  · intro c'' hlay
    have hpos : c.dirtyList.length ≠ 0 := by
      rw [hl]
      exact Nat.succ_ne_zero _
    simp only [tncStartCommit, hrun, allocIdxLebs, hcnt, halloc]
    rw [if_pos hpos]
    simp only [c₀] at hlay
    rw [hlay]

/-- Nothing has a place yet. -/
theorem Laid.refl (c : Info K) : Laid c (fun _ => none) c where
  znodes := fun _ hz => by
    have hzbr : Zbranch.placed (K := K) (fun _ => none) = id := by
      funext zbr
      cases hx : zbr.znode <;> simp [Zbranch.placed, hx]
    rw [hz, Znode.placed, hzbr, List.map_id]
  zroot := by
    cases hx : c.zroot.znode <;> simp [Zbranch.placed, hx]
  same := rfl

/-- The state that a commit is started with, when there is something to commit. -/
structure Started (g : Geometry) (c : Info K) (first : Nat) (P : Places) (c₁ : Info K) :
    Prop where
  znode {a : Nat} {z : Znode K} : c.InTree a → c.mem a = some z → ∃ z₁, c₁.mem a = some z₁ ∧
    z₁.level = z.level ∧ z₁.zbranch = z.zbranch.map (Zbranch.placed P) ∧
    ∀ p, P a = some p → z₁.lnum = p.lnum ∧ z₁.offs = p.offs ∧ z₁.len = p.len
  place {a : Nat} : a ∈ c.dirtyList → ∃ p, P a = some p
  clean {a : Nat} : a ∉ c.dirtyList → P a = none
  zroot : c₁.zroot = c.zroot.placed P
  jobs : c₁.Jobs g first 0 c.iheadOffs c.dirtyList
  cnext : c₁.cnext = some first
  enext : c₁.enext = some first
  ilebs : c₁.ilebs = c.freeLebs.take (c.getLebCnt g c.dirtyList.length)
  same : c₁.flash = c.flash ∧ c₁.iheadLnum = c.iheadLnum ∧ c₁.iheadOffs = c.iheadOffs

/-- `ubifs_tnc_start_commit` finds a place for every dirty znode, in the LEBs that
    `alloc_idx_lebs` gets for it. -/
theorem start_started (hg : g.Valid) (t : c.Tree)
    (hfan : ∀ {a z}, c.InTree a → c.mem a = some z → z.childCnt ≤ g.fanout)
    (hio : g.minIo ∣ c.iheadOffs) {rest : List Nat} (hl : c.dirtyList = first :: rest)
    (henough : c.getLebCnt g c.dirtyList.length ≤ c.freeLebs.length) {fuel : Nat}
    (hfuel : c.dirtyList.length ≤ fuel) :
    ∃ P c₁, c.tncStartCommit g fuel = some (c₁.zroot, c₁) ∧ Started g c first P c₁ := by
  obtain ⟨c₀, h₀, hrun⟩ := start_listed t hl henough hfuel
  obtain ⟨hzroot, hflash, hihead, hioffs⟩ := h₀.same
  have t₀ : c₀.Tree := h₀.alike.tree hzroot t
  have hin : ∀ {a}, c.InTree a → c₀.InTree a := fun ha => h₀.alike.inTree hzroot ha
  have hfan₀ : ∀ {a z}, c₀.InTree a → c₀.mem a = some z → z.childCnt ≤ g.fanout := by
    intro a z ha hz
    obtain ⟨z', hz', -, -, -, -, hb⟩ := h₀.alike.symm.znode hz
    have := hfan (h₀.alike.symm.inTree hzroot.symm ha) hz'
    rwa [Znode.childCnt, hb] at this
  have hmem : ∀ x ∈ first :: rest, c₀.InTree x := fun x hx => hin (t.mem_dirtyList.mp (hl ▸ hx)).1
  have hnd : (first :: rest).Nodup := hl ▸ t.dirtyList_nodup
  have hlink := h₀.linked
  rw [hl] at hlink
  obtain ⟨z, hz⟩ := t₀.live (hmem first (List.mem_cons_self ..))
  have hbefore := Cursor.start_before hg (hioffs ▸ hio) c₀.ilebs (c₀.nodeLen first)
  have hbins : ∀ p ∈ nextFit g.lebSize 0 c₀.iheadOffs ((first :: rest).map c₀.nodeRoom),
      p.1 ≤ c₀.ilebs.length := by
    intro p hp
    have hroom : ∀ s ∈ (first :: rest).map c₀.nodeRoom, s ≤ g.maxIdxNodeSz := by
      intro s hs
      obtain ⟨a, ha, rfl⟩ := List.mem_map.mp hs
      obtain ⟨y, hy⟩ := t₀.live (hmem a ha)
      rw [nodeRoom, nodeLen_eq hy]
      exact align_idxNodeSz_le (hfan₀ (hmem a ha) hy)
    have hbin := Lib.NextFit.bin_le hg.maxIdxNodeSz_le (maxIdxNodeSz_pos g) hroom hp
    rw [h₀.ilebs, List.length_take, Nat.min_eq_left henough, getLebCnt_eq hg, ← hioffs, hl]
    simpa using hbin
  obtain ⟨extra, rfl⟩ := Nat.exists_eq_add_of_le' hfuel
  obtain ⟨P, c₁, c', hloop, hlaid, hsame, hP, hfit, hend⟩ :=
    layoutLoop_laid hg t₀ hfan₀ h₀.cnext extra rest first (fun _ => none) c₀ _ 0 c₀.iheadOffs hlink
      (List.nodup_cons.mp hnd).1 hnd hmem (Laid.refl c₀) hbefore hbins
  have hlayout : c₀.layoutInEmptySpace g (extra + c.dirtyList.length) = some c' := by
    rw [hl, List.length_cons]
    simp only [layoutInEmptySpace, h₀.enext, hz]
    rw [← nodeLen_eq hz]
    exact hloop
  -- what is left of the memory
  have hm : c'.freeUnusedIdxLebs.mem = c₁.mem := by
    show c'.mem = c₁.mem
    rw [hsame]
  have hlen : ∀ a ∈ first :: rest, c'.freeUnusedIdxLebs.nodeLen a = c₀.nodeLen a := by
    intro a ha
    obtain ⟨y, hy⟩ := t₀.live (hmem a ha)
    have hy₁ := hlaid.znodes (hmem a ha) hy
    rw [← hm] at hy₁
    rw [nodeLen_eq hy, nodeLen_eq hy₁, Znode.placed_childCnt]
  have hrooms : (first :: rest).map c'.freeUnusedIdxLebs.nodeRoom = (first :: rest).map c₀.nodeRoom :=
    List.map_congr_left fun a ha => by rw [nodeRoom, nodeRoom, hlen a ha]
  have hkeep : c'.cnext = c₀.cnext ∧ c'.enext = c₀.enext ∧ c'.ilebs = c₀.ilebs ∧
      c'.flash = c₀.flash ∧ c'.iheadLnum = c₀.iheadLnum ∧ c'.iheadOffs = c₀.iheadOffs ∧
      c'.zroot = c₁.zroot := by
    rw [hsame, hlaid.same]
    exact ⟨rfl, rfl, rfl, rfl, rfl, rfl, rfl⟩
  obtain ⟨hcnext, henext, hilebs, hflash', hihead', hioffs', hzroot'⟩ := hkeep
  have hplaces : ∀ a ∈ first :: rest, ∃ p, P a = some p := by
    intro a ha
    obtain ⟨i, hi, rfl⟩ := List.getElem_of_mem ha
    have hzip : i < ((first :: rest).zip
        (nextFit g.lebSize 0 c₀.iheadOffs ((first :: rest).map c₀.nodeRoom))).length := by
      simpa using hi
    have hq := List.getElem_mem hzip
    rw [List.getElem_zip] at hq
    obtain ⟨lnum, -, hp⟩ := hfit.fitted hq
    exact ⟨_, hp⟩
  refine ⟨P, c'.freeUnusedIdxLebs, hrun c' hlayout, ?_⟩
  constructor
  case znode =>
    intro a y ha hy
    obtain ⟨y₀, hy₀, -, -, hlev, -, hbr⟩ := h₀.alike.znode hy
    refine ⟨y₀.placed P a, hm ▸ hlaid.znodes (hin ha) hy₀, ?_, ?_, fun p => Znode.placed_at⟩
    · rw [Znode.placed_level, hlev]
    · rw [Znode.placed_zbranch, hbr]
  case place => exact fun ha => hplaces _ (hl ▸ ha)
  case clean => exact fun ha => hP _ (hl ▸ ha)
  case zroot => exact hzroot'.trans (hlaid.zroot.trans (hzroot ▸ rfl))
  case cnext => exact hcnext.trans h₀.cnext
  case enext => exact henext.trans h₀.enext
  case ilebs => exact hilebs.trans h₀.ilebs
  case same => exact ⟨hflash'.trans hflash, hihead'.trans hihead, hioffs'.trans hioffs⟩
  case jobs =>
    rw [hl]
    constructor
    case placed =>
      intro q hq
      rw [hrooms, ← hioffs] at hq
      have hqa := (List.of_mem_zip hq).1
      obtain ⟨lnum, hleb, hp⟩ := hfit.fitted hq
      obtain ⟨y, hy⟩ := t₀.live (hmem q.1 hqa)
      obtain ⟨h1, h2, h3⟩ := Znode.placed_at (z := y) hp
      refine ⟨lnum, y.placed P q.1, ?_, hm ▸ hlaid.znodes (hmem q.1 hqa) hy, h1, h2, ?_⟩
      · show (c'.iheadLnum :: c'.ilebs)[q.2.1]? = some lnum
        rw [hihead', hilebs, hleb]
      · rw [h3, hlen q.1 hqa]
    case room =>
      intro a ha
      obtain ⟨y, hy⟩ := t₀.live (hmem a ha)
      rw [nodeRoom, hlen a ha, nodeLen_eq hy]
      exact align_idxNodeSz_le (hfan₀ (hmem a ha) hy)
    case linked =>
      refine hlink.congr fun a ha => ?_
      obtain ⟨y, hy⟩ := t₀.live (hmem a ha)
      have hy₁ := hlaid.znodes (hmem a ha) hy
      rw [← hm] at hy₁
      simp [cnextOf, hy, hy₁]
    case last =>
      intro a y ha hy
      have hin' := hmem a (List.mem_of_getLast? ha)
      obtain ⟨p, hp⟩ := hplaces a (List.mem_of_getLast? ha)
      obtain ⟨y₀, hy₀⟩ := t₀.live hin'
      have hy₁ := hlaid.znodes hin' hy₀
      rw [← hm] at hy₁
      obtain rfl := Option.some.inj (hy.symm.trans hy₁)
      obtain ⟨h1, h2, h3⟩ := Znode.placed_at (z := y₀) hp
      rw [h1, h2, h3]
      exact hend a p ha hp

/-! ## The end of a commit -/

/-- `free_obsolete_znodes` gets to the end of the list, and leaves the flash alone. -/
theorem freeObsoleteZnodes_flash (fuel : Nat) (l : List Nat) :
    ∀ (a : Nat) (c : Info K), Linked c.cnextOf (some a) (a :: l) (some first) →
      c.cnext = some first → first ∉ l → (a :: l).Nodup →
      ∃ c', freeObsoleteZnodes (fuel + (l.length + 1)) a c = some c' ∧ c'.flash = c.flash := by
  induction l with
  | nil =>
    intro a c hlink hfirst _ _
    obtain ⟨z, hz, hn⟩ := Option.bind_eq_some_iff.mp (show (c.mem a).bind (·.cnext) = _ from hlink.2)
    show ∃ c', freeObsoleteZnodes (fuel + 1) a c = some c' ∧ _
    simp only [freeObsoleteZnodes, hz, hn]
    split
    · exact ⟨_, if_pos hfirst.symm, rfl⟩
    · exact ⟨_, if_pos hfirst.symm, rfl⟩
  | cons x l ih =>
    intro a c hlink hfirst hnot hnd
    obtain ⟨z, hz, hn⟩ :=
      Option.bind_eq_some_iff.mp (show (c.mem a).bind (·.cnext) = _ from hlink.2.1)
    have hlink' : Linked c.cnextOf (some x) (x :: l) (some first) := hlink.2.1 ▸ hlink.2
    have hne : some x ≠ some first := fun he =>
      hnot (Option.some.inj he ▸ List.mem_cons_self ..)
    have hother : ∀ y ∈ x :: l, y ≠ a := fun y hy he => (List.nodup_cons.mp hnd).1 (he ▸ hy)
    -- freeing a znode does not touch those that are left
    have hrest : ∀ c₂ : Info K, c₂.cnext = c.cnext → (∀ y, y ≠ a → c₂.mem y = c.mem y) →
        c₂.flash = c.flash →
        ∃ c', freeObsoleteZnodes (fuel + (l.length + 1)) x c₂ = some c' ∧ c'.flash = c.flash := by
      intro c₂ hc hm hf
      have hlink₂ : Linked c₂.cnextOf (some x) (x :: l) (some first) :=
        hlink'.congr fun y hy => by rw [cnextOf, cnextOf, hm y (hother y hy)]
      obtain ⟨c', hrun, hflash⟩ := ih x c₂ hlink₂ (hc.trans hfirst)
        (fun h => hnot (List.mem_cons_of_mem x h)) (List.nodup_cons.mp hnd).2
      exact ⟨c', hrun, hflash.trans hf⟩
    show ∃ c', freeObsoleteZnodes (fuel + (l.length + 1) + 1) a c = some c' ∧ _
    unfold freeObsoleteZnodes
    simp only [hz, hn]
    cases z.obsolete with
    | true =>
      simp only [if_true, hfirst, if_neg hne]
      exact hrest _ hfirst.symm (fun y hy => Function.update_of_ne hy _ _) rfl
    | false =>
      simp only [Bool.false_eq_true, if_false]
      have hc : (c.modify a fun z => { z with cnext := none }).cnext = some first := hfirst
      simp only [hc, if_neg hne]
      exact hrest _ hfirst.symm (fun y hy => mem_modify hy) rfl

/-- One znode is written, and then the others. -/
theorem writeIndex_succ {w w' : Writer K} {c' : Info K} (hpc : w.pc ≠ .done)
    (h : c.writeStep g w = some (c', w')) (fuel : Nat) :
    writeIndex g (fuel + 1) c w = writeIndex g fuel c' w' := by
  rw [writeIndex, if_neg hpc, h]

/-- What `write_index` changes when it writes the znodes `l`. -/
structure Apart (c c' : Info K) (l : List Nat) : Prop where
  mem {a : Nat} : a ∉ l → c'.mem a = c.mem a
  cnextOf (a : Nat) : c'.cnextOf a = c.cnextOf a
  same : c' = { c with
    mem := c'.mem, flash := c'.flash, iheadLnum := c'.iheadLnum, iheadOffs := c'.iheadOffs }

theorem cnextOf_modify {f : Znode K → Znode K} (hf : ∀ z, (f z).cnext = z.cnext) (x : Nat) :
    (c.modify a f).cnextOf x = c.cnextOf x := by
  by_cases hx : x = a
  · subst hx
    cases h : c.mem x <;> simp [cnextOf, modify, h, hf]
  · rw [cnextOf, cnextOf, mem_modify hx]

variable [DecidableEq K]

/-- One node, when nothing else happens: it is made, its flags are cleared, and the buffer is
    advanced. -/
theorem writeIndex_node (hg : g.Valid) (hnd : c₁.ilebs.Nodup) (hfirst : c₁.cnext = some first)
    {w : Writer K} {done l : List Nat} (h : Writing g c₁ first c.flash w done (a :: l))
    (hpc : w.pc = .make a) (hsame : Apart c₁ c done) (hal : (done ++ a :: l).Nodup) :
    ∃ c' w', (∀ fuel, writeIndex g (fuel + 4) c w = writeIndex g fuel c' w') ∧
      Apart c₁ c' (done ++ [a]) ∧ Writing g c₁ first c'.flash w' (done ++ [a]) l ∧
      w'.pc = l.head?.elim .done .make := by
  have hfrozen : ∀ x, x ∉ done → Frozen c₁ c x := fun x hx =>
    ⟨fun hz => ⟨_, (hsame.mem hx).trans hz, rfl, rfl, rfl, rfl, rfl⟩⟩
  have hnot : ∀ x ∈ a :: l, x ∉ done := fun x hx hd =>
    (List.nodup_append.mp hal).2.2 x hd x hx rfl
  have hil : c.ilebs = c₁.ilebs := by rw [hsame.same]
  obtain ⟨l', w₁, cnext, hl, hmake, hpc₁, hw₁⟩ :=
    h.make_step hg hnd hil hpc (hfrozen a (hnot a (List.mem_cons_self ..)))
  obtain ⟨-, rfl⟩ := List.cons.inj hl
  -- the two flags
  obtain ⟨c₂, hc₂⟩ : ∃ c₂, c₂ = c.modify a fun z => { z with dirty := false } := ⟨_, rfl⟩
  obtain ⟨c₃, hc₃⟩ : ∃ c₃, c₃ = c₂.modify a fun z => { z with cow := false } := ⟨_, rfl⟩
  let w₂ : Writer K := { w₁ with pc := .clearCow a cnext (c₁.nodeLen a) }
  let w₃ : Writer K := { w₂ with pc := .advance cnext (c₁.nodeLen a) }
  have hdirty : c.writeStep g w₁ = some (c₂, w₂) := by
    simp only [writeStep, hpc₁, w₂, hc₂]
  have hcow : c₂.writeStep g w₂ = some (c₃, w₃) := by
    simp only [writeStep, w₂, w₃, hc₃]
  have hmem : ∀ x, x ≠ a → c₃.mem x = c.mem x := fun x hx => by
    rw [hc₃, mem_modify hx, hc₂, mem_modify hx]
  have hkeep : c₃.flash = c.flash ∧ c₃ = { c with mem := c₃.mem } := by
    rw [hc₃, hc₂]
    exact ⟨rfl, rfl⟩
  have hw₂ : Writing g c₁ first c.flash w₂ (done ++ [a]) l :=
    hw₁.flag_step (by rw [hpc₁]; rfl) rfl
  have hw₃ : Writing g c₁ first c₃.flash w₃ (done ++ [a]) l :=
    hkeep.1 ▸ hw₂.flag_step rfl rfl
  have hl : ∀ x ∈ l, Frozen c₁ c₃ x := fun x hx => by
    have hxa : x ≠ a := fun he =>
      (List.nodup_cons.mp (List.nodup_append.mp hal).2.1).1 (he ▸ hx)
    have hxd := hnot x (List.mem_cons_of_mem a hx)
    exact ⟨fun hz => ⟨_, (hmem x hxa).trans ((hsame.mem hxd).trans hz), rfl, rfl, rfl, rfl, rfl⟩⟩
  have hfst : c₃.cnext = some first := by rw [hkeep.2, hsame.same, hfirst]
  have hn : c₃.newIheadLnum = c₁.newIheadLnum := by rw [hkeep.2, hsame.same]
  have ho : c₃.newIheadOffs = c₁.newIheadOffs := by rw [hkeep.2, hsame.same]
  obtain ⟨c', w', hadv, hc', hw', hpc', -⟩ := hw₃.advance_step hg rfl hfst hl hn ho
  refine ⟨c', w', fun fuel => ?_, ⟨?_, fun x => ?_, ?_⟩, hw', hpc'⟩
  · have hne : ∀ {pc : Pc}, pc.pending.isSome → pc ≠ .done := by
      rintro _ h rfl
      cases h
    rw [writeIndex_succ (by rw [hpc]; simp) hmake, writeIndex_succ (by rw [hpc₁]; simp) hdirty,
      writeIndex_succ (hne rfl) hcow, writeIndex_succ (hne rfl) hadv]
  · intro x hx
    rw [List.mem_append, List.mem_singleton, not_or] at hx
    rw [hc']
    exact (hmem x hx.2).trans (hsame.mem hx.1)
  · rw [hc', ← hsame.cnextOf x]
    show c₃.cnextOf x = _
    rw [hc₃]
    refine (cnextOf_modify (f := fun z => { z with cow := false }) (fun _ => rfl) x).trans ?_
    rw [hc₂]
    exact cnextOf_modify (f := fun z => { z with dirty := false }) (fun _ => rfl) x
  · rw [hc', hkeep.2, hsame.same]

/-- The loop of `write_index`, when nothing else happens, from one node on. -/
theorem writeIndex_wrote (hg : g.Valid) (hnd : c₁.ilebs.Nodup) (hfirst : c₁.cnext = some first)
    (fuel : Nat) (l : List Nat) : ∀ (a : Nat) (c : Info K) (w : Writer K) (done : List Nat),
      Writing g c₁ first c.flash w done (a :: l) → w.pc = .make a → Apart c₁ c done →
      (done ++ a :: l).Nodup →
      ∃ c', writeIndex g (fuel + 4 * (l.length + 1) + 1) c w = some c' ∧
        c₁.Wrote (done ++ a :: l) c'.flash ∧ Apart c₁ c' (done ++ a :: l) := by
  induction l with
  | nil =>
    intro a c w done h hpc hsame hal
    obtain ⟨c', w', hrun, hsame', h', hpc'⟩ := writeIndex_node hg hnd hfirst h hpc hsame hal
    refine ⟨c', ?_, h'.wrote_of_done hpc', hsame'⟩
    show writeIndex g (fuel + 4 + 1) c w = _
    rw [show fuel + 4 + 1 = fuel + 1 + 4 by omega, hrun, writeIndex]
    exact if_pos hpc'
  | cons x l ih =>
    intro a c w done h hpc hsame hal
    obtain ⟨c', w', hrun, hsame', h', hpc'⟩ := writeIndex_node hg hnd hfirst h hpc hsame hal
    have hal' : (done ++ [a] ++ x :: l).Nodup := by simpa using hal
    obtain ⟨c'', hrun', hwrote, hsame''⟩ := ih x c' w' (done ++ [a]) h' hpc' hsame' hal'
    have happ : done ++ [a] ++ x :: l = done ++ a :: x :: l := by simp
    rw [happ] at hwrote hsame''
    refine ⟨c'', ?_, hwrote, hsame''⟩
    rw [List.length_cons, show fuel + 4 * (l.length + 1 + 1) + 1 = fuel + 4 * (l.length + 1) + 1 + 4
      by omega, hrun, hrun']

/-! ## What is committed -/

/-- The branches of the TNC: that of the root, and those of all znodes. -/
inductive HasBranch (c : Info K) : Zbranch K → Prop
  | root : HasBranch c c.zroot
  | child {a : Nat} {z : Znode K} {zbr : Zbranch K} : c.InTree a → c.mem a = some z →
      zbr ∈ z.zbranch → HasBranch c zbr

/-- A TNC that a commit can start from: clean znodes are on the flash, where their branches say,
    and there is nothing yet behind the index head and in the LEBs that are empty. -/
structure Committable (g : Geometry) (c : Info K) : Prop where
  tree : c.Tree
  fanout {a : Nat} {z : Znode K} : c.InTree a → c.mem a = some z → z.childCnt ≤ g.fanout
  stored {a : Nat} {z : Znode K} {zbr : Zbranch K} : c.HasBranch zbr → zbr.znode = some a →
    c.mem a = some z → z.dirty = false →
    c.flash.readNode zbr.lnum zbr.offs zbr.len = some z.node
  ihead : g.minIo ∣ c.iheadOffs
  fresh {o : Nat} : c.iheadOffs ≤ o → c.flash c.iheadLnum o = none
  free {l : Nat} : l ∈ c.freeLebs → ∀ o, c.flash l o = none
  nodup : (c.iheadLnum :: c.freeLebs).Nodup

omit [DecidableEq K] in
theorem HasBranch.inTree {zbr : Zbranch K} (h : c.HasBranch zbr) (ha : zbr.znode = some a) :
    c.InTree a := by
  cases h with
  | root => exact .root ha
  | child hp hz hb => exact .child hp hz hb ha

omit [DecidableEq K] in
/-- Reading goes on to succeed. -/
theorem mapM_mono {A B : Type} {f f' : A → Option B} {l : List A}
    (h : ∀ a ∈ l, ∀ y, f a = some y → f' a = some y) :
    ∀ {ys : List B}, l.mapM f = some ys → l.mapM f' = some ys := by
  induction l with
  | nil => exact fun hys => hys
  | cons a l ih =>
    intro ys hys
    simp only [List.mapM_cons, Option.bind_eq_bind, Option.bind_eq_some_iff] at hys
    obtain ⟨y, hy, ys', hys', hret⟩ := hys
    have hy' := h a (List.mem_cons_self ..) y hy
    have hrest := ih (fun b hb => h b (List.mem_cons_of_mem a hb)) hys'
    simp only [List.mapM_cons, Option.bind_eq_bind, hy', hrest, Option.bind_some]
    exact hret

/-- More on the flash is no less of an index. -/
theorem contents_kept {fl fl' : Flash K} (h : Flash.Kept fl fl') (l : Nat) :
    ∀ {p : Pos} {t : Contents K l}, fl.contents l p = some t → fl'.contents l p = some t := by
  induction l with
  | zero =>
    intro p t ht
    unfold Flash.contents at ht ⊢
    cases hn : fl.readNode p.lnum p.offs p.len with
    | none => simp [hn] at ht
    | some node =>
      rw [hn] at ht
      rw [h.readNode hn]
      exact ht
  | succ l ih =>
    intro p t ht
    unfold Flash.contents at ht ⊢
    cases hn : fl.readNode p.lnum p.offs p.len with
    | none => simp [hn] at ht
    | some node =>
      rw [hn] at ht
      rw [h.readNode hn]
      by_cases hl : node.level = l + 1
      · simp only [hl] at ht ⊢
        refine mapM_mono (fun br _ y hy => ?_) ht
        obtain ⟨t', ht', hy'⟩ := Option.map_eq_some_iff.mp hy
        exact Option.map_eq_some_iff.mpr ⟨t', ih ht', hy'⟩
      · simp [hl] at ht

omit [DecidableEq K] in
/-- A branch whose znode is not written keeps its place. -/
theorem Zbranch.placed_clean {zbr : Zbranch K} (h : ∀ x, zbr.znode = some x → P x = none) :
    zbr.placed P = zbr := by
  cases hx : zbr.znode with
  | none => simp [Zbranch.placed, hx]
  | some x => simp [Zbranch.placed, hx, h x hx]

/-- Each znode of the tree can be read where its branch says after the layout. -/
theorem readNode_written {fl : Flash K} (h : Committable g c) (hs : Started g c first P c₁)
    (hw : c₁.Wrote c.dirtyList fl) {zbr : Zbranch K} (hb : c.HasBranch zbr)
    (ha : zbr.znode = some a) (hz : c.mem a = some z) :
    ∃ node, fl.readNode (zbr.placed P).lnum (zbr.placed P).offs (zbr.placed P).len = some node ∧
      node.level = z.level ∧ node.branches =
        (z.zbranch.map (Zbranch.placed P)).map fun zbr => ⟨zbr.key, zbr.lnum, zbr.offs, zbr.len⟩ := by
  have hin := hb.inTree ha
  by_cases hd : a ∈ c.dirtyList
  · obtain ⟨p, hp⟩ := hs.place hd
    obtain ⟨z₁, hz₁, hlev, hbr, hpos⟩ := hs.znode hin hz
    obtain ⟨hl, ho, hn⟩ := hpos p hp
    refine ⟨z₁.node, ?_, hlev, by rw [Znode.node, hbr]⟩
    have hread := hw.node hd hz₁
    rw [hl, ho, hn] at hread
    simpa [Zbranch.placed, ha, hp] using hread
  · have hclean : z.dirty = false := by
      rw [h.tree.mem_dirtyList, znDirty_eq hz] at hd
      simpa [hin] using hd
    have hself : zbr.placed P = zbr := Zbranch.placed_clean fun x hx => by
      obtain rfl := Option.some.inj (ha.symm.trans hx)
      exact hs.clean hd
    have hkids : z.zbranch.map (Zbranch.placed P) = z.zbranch := by
      refine (List.map_congr_left fun zbr' hb' => ?_).trans (List.map_id _)
      refine Zbranch.placed_clean fun x hx => hs.clean fun hxd => ?_
      -- a dirty child would have made its parent dirty
      have := h.tree.dirtyUp hin hz hb' hx (h.tree.mem_dirtyList.mp hxd).2
      rw [znDirty_eq hz, hclean] at this
      cases this
    have hread := h.stored hb ha hz hclean
    rw [← hs.same.1] at hread
    refine ⟨z.node, ?_, rfl, by rw [Znode.node, hkids]⟩
    rw [hself]
    exact hw.kept.readNode hread

/-- The tree in memory is the one that is read from the flash, when its znodes are there. -/
theorem contents_written {fl : Flash K} (tree : c.Tree) (hkept : Flash.Kept c.flash fl)
    (hread : ∀ {zbr : Zbranch K} {a : Nat} {z : Znode K}, c.HasBranch zbr → zbr.znode = some a →
      c.mem a = some z → ∃ node,
        fl.readNode (zbr.placed P).lnum (zbr.placed P).offs (zbr.placed P).len = some node ∧
        node.level = z.level ∧ node.branches = (z.zbranch.map (Zbranch.placed P)).map
          fun zbr => ⟨zbr.key, zbr.lnum, zbr.offs, zbr.len⟩) (l : Nat) :
    ∀ {zbr : Zbranch K} {t : Contents K l}, c.HasBranch zbr → c.contents l zbr = some t →
      fl.contents l ⟨(zbr.placed P).lnum, (zbr.placed P).offs, (zbr.placed P).len⟩ = some t := by
  induction l with
  | zero =>
    intro zbr t hb ht
    unfold Info.contents at ht
    cases ha : zbr.znode with
    | none =>
      -- A branch that is not in memory has not moved.
      rw [ha] at ht
      rw [Zbranch.placed_clean (by simp [ha])]
      exact contents_kept hkept 0 ht
    | some a =>
      rw [ha] at ht
      cases hz : c.mem a with
      | none => simp [hz] at ht
      | some z =>
        obtain ⟨node, hread, hlev, hbr⟩ := hread hb ha hz
        have hin := hb.inTree ha
        -- The branches of a znode of level 0 lead to leaves, which are not placed.
        by_cases hl : z.level = 0
        · have hleaf : z.zbranch.map (Zbranch.placed P) = z.zbranch := by
            refine (List.map_congr_left fun zbr' hb' => ?_).trans (List.map_id _)
            refine Zbranch.placed_clean fun x hx => ?_
            obtain ⟨y, -, -, -, hy⟩ := tree.child_mem hin hz hb' hx
            omega
          simp only [hz, hl, if_true] at ht
          unfold Flash.contents
          simp only [hread, hlev, hl, if_true, hbr, hleaf, List.map_map]
          exact ht
        · simp [hz, hl] at ht
  | succ l ih =>
    intro zbr t hb ht
    unfold Info.contents at ht
    cases ha : zbr.znode with
    | none =>
      rw [ha] at ht
      rw [Zbranch.placed_clean (by simp [ha])]
      exact contents_kept hkept (l + 1) ht
    | some a =>
      rw [ha] at ht
      cases hz : c.mem a with
      | none => simp [hz] at ht
      | some z =>
        obtain ⟨node, hread, hlev, hbr⟩ := hread hb ha hz
        by_cases hl : z.level = l + 1
        · simp only [hz, hl] at ht
          unfold Flash.contents
          simp only [hread, hlev, hl, hbr, List.map_map, List.mapM_map]
          refine mapM_mono (fun zbr' hb' y hy => ?_) ht
          obtain ⟨t', ht', hy'⟩ := Option.map_eq_some_iff.mp hy
          -- The children by induction: their branches were placed, their keys were not.
          refine Option.map_eq_some_iff.mpr ⟨t', ih (.child (hb.inTree ha) hz hb') ht', ?_⟩
          rw [← hy']
          exact congrArg (·, t') Zbranch.placed_key
        · simp [hz, hl] at ht

/-- What a commit does: `c` is the state at its start, `c₁` the one after
    `ubifs_tnc_start_commit`, `c₂` the one after `ubifs_tnc_end_commit`, and `l` the list of the
    znodes to commit. -/
structure Committed (g : Geometry) (c c₁ c₂ : Info K) (l : List Nat) : Prop where
  nodup : l.Nodup
  listed {a : Nat} : a ∈ l ↔ c.InTree a ∧ c.znDirty a = true
  childrenFirst {a x : Nat} {z : Znode K} {zbr : Zbranch K} : c.InTree a → c.mem a = some z →
    zbr ∈ z.zbranch → zbr.znode = some x → c.znDirty x = true → [x, a].Sublist l
  circle : Linked c₁.cnextOf c₁.cnext l c₁.cnext
  /-- The layout has found a place for the node, of whole words, inside one LEB and not yet written,
      and that is where the node is in the end. -/
  placed {a : Nat} : a ∈ l → ∃ z₁, c₁.mem a = some z₁ ∧ z₁.len = idxNodeSz z₁.childCnt ∧
    8 ∣ z₁.offs ∧ z₁.offs + z₁.len ≤ g.lebSize ∧
    (∀ o, z₁.offs ≤ o → c.flash z₁.lnum o = none) ∧
    c₂.flash.readNode z₁.lnum z₁.offs z₁.len = some z₁.node
  apart : l.Pairwise fun a b => ∀ z y, c₁.mem a = some z → c₁.mem b = some y →
    z.lnum ≠ y.lnum ∨ z.offs + align z.len 8 ≤ y.offs
  kept : Flash.Kept c.flash c₂.flash

omit [DecidableEq K] in
/-- Where the znode with the number `i` of a list goes. -/
theorem Jobs.nth {b o i : Nat} {l : List Nat} (h : c₁.Jobs g first b o l) (ha : l[i]? = some a) :
    ∃ e lnum z, (nextFit g.lebSize b o (l.map c₁.nodeRoom))[i]? = some e ∧
      (l.map c₁.nodeRoom)[i]? = some (c₁.nodeRoom a) ∧
      (c₁.iheadLnum :: c₁.ilebs)[e.1]? = some lnum ∧ c₁.mem a = some z ∧ z.lnum = lnum ∧
      z.offs = e.2 ∧ z.len = c₁.nodeLen a := by
  have hi : i < l.length := (List.getElem?_eq_some_iff.mp ha).1
  have hlen : i < (nextFit g.lebSize b o (l.map c₁.nodeRoom)).length := by simpa using hi
  have he := List.getElem?_eq_getElem hlen
  have hq := (List.getElem?_zip_eq_some (z := (a, _))).mpr ⟨ha, he⟩
  obtain ⟨lnum, z, hleb, hz, hl, ho, hn⟩ := h.placed (List.mem_of_getElem? hq)
  exact ⟨_, lnum, z, he, by rw [List.getElem?_map, ha, Option.map_some], hleb, hz, hl, ho, hn⟩

omit [DecidableEq K] in
theorem Started.lebs_nodup (hs : Started g c first P c₁)
    (hnd : (c.iheadLnum :: c.freeLebs).Nodup) : (c₁.iheadLnum :: c₁.ilebs).Nodup := by
  rw [hs.same.2.1, hs.ilebs]
  exact hnd.sublist ((List.take_sublist _ _).cons_cons _)

/-- The places that the layout has found. -/
theorem Started.places (hg : g.Valid) (h : Committable g c) (hs : Started g c first P c₁) {i : Nat}
    (ha : c.dirtyList[i]? = some a) :
    ∃ z₁, c₁.mem a = some z₁ ∧ z₁.len = idxNodeSz z₁.childCnt ∧ 8 ∣ z₁.offs ∧
      z₁.offs + z₁.len ≤ g.lebSize ∧ ∀ o, z₁.offs ≤ o → c.flash z₁.lnum o = none := by
  obtain ⟨e, lnum, z, he, hr, hleb, hz, hl, ho, hn⟩ := hs.jobs.nth ha
  have hmem := List.mem_of_getElem? he
  have hword : 8 ∣ z.offs := by
    rw [ho]
    refine Lib.NextFit.dvd_offset (Nat.dvd_trans hg.word h.ihead) (fun s hs => ?_) hmem
    obtain ⟨x, -, rfl⟩ := List.mem_map.mp hs
    exact dvd_align
  have hroom : ∀ s ∈ c.dirtyList.map c₁.nodeRoom, s ≤ g.lebSize := by
    intro s hs'
    obtain ⟨x, hx, rfl⟩ := List.mem_map.mp hs'
    exact Nat.le_trans (hs.jobs.room hx) hg.maxIdxNodeSz_le
  have hin := Lib.NextFit.inside hroom
    (List.mem_of_getElem? ((List.getElem?_zip_eq_some (z := (e, _))).mpr ⟨he, hr⟩))
  have hlen : z.len ≤ c₁.nodeRoom a := hn ▸ (align_eight _).1
  refine ⟨z, hz, by rw [hn, nodeLen_eq hz], hword, ?_, fun o hoff => ?_⟩
  · have : e.2 + c₁.nodeRoom a ≤ g.lebSize := hin
    omega
  · rw [hl]
    rcases Lib.NextFit.not_before hmem with hlt | ⟨heq, hge⟩
    · -- an empty LEB
      obtain ⟨b, hb⟩ := Nat.exists_eq_succ_of_ne_zero hlt.ne'
      rw [hb, List.getElem?_cons_succ, hs.ilebs] at hleb
      exact h.free (List.mem_of_mem_take (List.mem_of_getElem? hleb)) o
    · rw [← heq, List.getElem?_cons_zero, hs.same.2.1] at hleb
      obtain rfl := Option.some.inj hleb
      exact h.fresh (by omega)

/-- Nodes do not overlap. -/
theorem Started.apart (h : Committable g c) (hs : Started g c first P c₁) :
    c.dirtyList.Pairwise fun a b => ∀ z y, c₁.mem a = some z → c₁.mem b = some y →
      z.lnum ≠ y.lnum ∨ z.offs + align z.len 8 ≤ y.offs := by
  have hnd := hs.lebs_nodup h.nodup
  rw [List.pairwise_iff_getElem]
  intro i j hi hj hij z y hz hy
  obtain ⟨e, lnum, z', he, hr, hleb, hz', hl, ho, hn⟩ := hs.jobs.nth (List.getElem?_eq_getElem hi)
  obtain ⟨e', lnum', y', he', hr', hleb', hy', hl', ho', -⟩ :=
    hs.jobs.nth (List.getElem?_eq_getElem hj)
  obtain rfl := Option.some.inj (hz.symm.trans hz')
  obtain rfl := Option.some.inj (hy.symm.trans hy')
  have hpair : ((nextFit g.lebSize 0 c.iheadOffs (c.dirtyList.map c₁.nodeRoom)).zip
      (c.dirtyList.map c₁.nodeRoom)).Pairwise Lib.NextFit.Before := Lib.NextFit.pairwise_before
  have hq := (List.getElem?_zip_eq_some (z := (e, _))).mpr ⟨he, hr⟩
  have hq' := (List.getElem?_zip_eq_some (z := (e', _))).mpr ⟨he', hr'⟩
  obtain ⟨hlt, hget⟩ := List.getElem?_eq_some_iff.mp hq
  obtain ⟨hlt', hget'⟩ := List.getElem?_eq_some_iff.mp hq'
  have hbefore := List.pairwise_iff_getElem.mp hpair i j hlt hlt' hij
  rw [hget, hget'] at hbefore
  rcases hbefore with hbin | ⟨hbin, hoffs⟩
  · refine .inl fun heq => ?_
    -- one LEB is not two bins
    rw [hl, hl'] at heq
    have := (List.getElem?_inj (List.getElem?_eq_some_iff.mp hleb).1 hnd).mp
      (hleb.trans (heq ▸ hleb'.symm))
    exact absurd this (Nat.ne_of_lt hbin)
  · refine .inr ?_
    rw [ho, ho', hn]
    exact hoffs

/-- `ubifs_tnc_end_commit` gets to its end, and writes the znodes of the list. -/
theorem Started.end_wrote (hg : g.Valid) (h : Committable g c) (hs : Started g c first P c₁)
    {rest : List Nat} (hl : c.dirtyList = first :: rest) (cbuf : Nat → Cell K) {fuel : Nat}
    (hfuel : 4 * c.dirtyList.length + 1 ≤ fuel) :
    ∃ c₂, c₁.tncEndCommit g fuel cbuf = some c₂ ∧ c₁.Wrote c.dirtyList c₂.flash := by
  have hnd := h.tree.dirtyList_nodup
  rw [hl] at hnd
  have hjobs := hs.jobs
  rw [hl] at hjobs
  obtain ⟨hflash, hlnum, hoffs⟩ := hs.same
  obtain ⟨z, hz⟩ := hjobs.live
  have hlebs := hs.lebs_nodup h.nodup
  -- The writer starts where the head of the last commit is.
  let w : Writer K :=
    { Cursor.start g c₁ g.writeBufLen (idxNodeSz z.childCnt) with cbuf, pc := .make first }
  have hstart : c₁.writeStart g cbuf = some w := by
    simp only [writeStart, hs.enext, hz, w]
  have hbefore : w.Before g (c₁.iheadLnum :: c₁.ilebs) 0 c.iheadOffs (c₁.nodeRoom first) := by
    have hio : g.minIo ∣ c₁.iheadOffs := hoffs ▸ h.ihead
    have hb := Cursor.start_before hg hio c₁.ilebs (c₁.nodeLen first)
    rw [nodeLen_eq hz, ← hg.bufLen_eq, hoffs] at hb
    rw [nodeRoom, nodeLen_eq hz]
    exact hb
  -- Nothing is written at the head and behind, or in the free LEBs.
  have hfresh : w.Fresh c₁.ilebs c₁.flash := by
    constructor
    case here =>
      intro l o hl ho
      have hl : l = c₁.iheadLnum := by
        simp only [w, Cursor.start] at hl
        split at hl
        · cases hl
        · exact (Option.some.inj hl).symm
      rw [hl, hlnum, hflash]
      exact h.fresh (hoffs ▸ ho)
    case ahead =>
      intro l hl o
      rw [hflash]
      rw [hs.ilebs] at hl
      exact h.free (List.mem_of_mem_take (List.mem_of_mem_drop hl)) o
    case apart =>
      intro l hl hin
      have hl : l = c₁.iheadLnum := by
        simp only [w, Cursor.start] at hl
        split at hl
        · cases hl
        · exact (Option.some.inj hl).symm
      exact (List.nodup_cons.mp hlebs).1 (hl ▸ List.mem_of_mem_drop hin)
  have hw : Writing g c₁ first c₁.flash w [] (first :: rest) := by
    refine .make rfl hbefore hfresh ?_ hjobs (List.nodup_cons.mp hnd).1
    constructor
    case kept =>
      have hview : w.view c₁.flash w.used = c₁.flash := Writer.view_zero
      rw [hview]
      exact Flash.Kept.refl _
    case node => exact fun ha => absurd ha List.not_mem_nil
  have hlen : c.dirtyList.length = rest.length + 1 := by rw [hl, List.length_cons]
  obtain ⟨n, rfl⟩ := Nat.exists_eq_add_of_le' hfuel
  -- All nodes are written, and then the znodes that became obsolete are freed.
  obtain ⟨c', hrun, hwrote, hapart⟩ := writeIndex_wrote hg (List.nodup_cons.mp hlebs).2 hs.cnext n
    rest first c₁ w [] hw rfl ⟨fun _ => rfl, fun _ => rfl, rfl⟩ hnd
  have hlink : Linked c'.cnextOf (some first) (first :: rest) (some first) :=
    hjobs.linked.congr fun a _ => hapart.cnextOf a
  have hcnext : c'.cnext = some first := by rw [hapart.same, hs.cnext]
  obtain ⟨c'', hfree, hflash'⟩ := freeObsoleteZnodes_flash
    (n + 4 * (rest.length + 1) - rest.length) rest first c' hlink hcnext
    (List.nodup_cons.mp hnd).1 hnd
  refine ⟨{ c'' with cnext := none, ilebs := [] }, ?_, ?_⟩
  · rw [show n + 4 * (rest.length + 1) - rest.length + (rest.length + 1) =
      n + (4 * c.dirtyList.length + 1) by omega] at hfree
    rw [hlen, ← Nat.add_assoc] at hfree ⊢
    simp only [tncEndCommit, hs.cnext, hstart, hrun, hfree]
  · rw [hl]
    show c₁.Wrote _ c''.flash
    rw [hflash']
    exact hwrote

/-- The commit of a TNC, at its end, is on the flash what the TNC was at its start; and the
    layout and the writing of the index agree about the places of all nodes. -/
theorem commit_writes_tree (hg : g.Valid) (h : Committable g c)
    (henough : c.getLebCnt g c.dirtyList.length ≤ c.freeLebs.length) {l : Nat} {t : Contents K l}
    (ht : c.contents l c.zroot = some t) (cbuf : Nat → Cell K) :
    ∃ n, ∀ fuel ≥ n, ∃ zroot c₁ c₂, c.tncStartCommit g fuel = some (zroot, c₁) ∧
      c₁.tncEndCommit g fuel cbuf = some c₂ ∧ Committed g c c₁ c₂ c.dirtyList ∧
      c₂.flash.contents l ⟨zroot.lnum, zroot.offs, zroot.len⟩ = some t := by
  refine ⟨4 * c.dirtyList.length + 1, fun fuel hfuel => ?_⟩
  cases hl : c.dirtyList with
  | nil =>
    -- Nothing is dirty: both halves of the commit change nothing.
    have hno : ∀ {a}, ¬(c.InTree a ∧ c.znDirty a = true) := fun hd => by
      have := h.tree.mem_dirtyList.mpr hd
      rw [hl] at this
      cases this
    let c₁ : Info K := { c with cnext := none, enext := none }
    refine ⟨c.zroot, c₁, c₁, ?_, rfl, ?_, ?_⟩
    · simp only [tncStartCommit, getZnodesToCommit_nil h.tree hl, ne_eq, not_true_eq_false,
        if_false, c₁]
    · constructor
      case nodup => exact List.nodup_nil
      case listed => exact ⟨fun ha => absurd ha List.not_mem_nil, fun hd => absurd hd hno⟩
      case childrenFirst =>
        intro a x z zbr ha hz hb hx hd
        exact absurd ⟨.child ha hz hb hx, hd⟩ hno
      case circle => exact rfl
      case placed => exact fun ha => absurd ha List.not_mem_nil
      case apart => exact List.Pairwise.nil
      case kept => exact Flash.Kept.refl _
    · -- With no places, the tree in memory is the one on flash, as every znode is clean.
      have hid : ∀ zbr : Zbranch K, zbr.placed (fun _ => none) = zbr := fun zbr =>
        Zbranch.placed_clean fun _ _ => rfl
      have := contents_written (P := fun _ => none) h.tree (Flash.Kept.refl c.flash)
        (fun {zbr a z} hb ha hz => ?_) l (.root) ht
      · rwa [hid] at this
      · have hclean : z.dirty = false := by
          have := fun hd => hno ⟨hb.inTree ha, hd⟩
          rw [znDirty_eq hz] at this
          simpa using this
        refine ⟨z.node, ?_, rfl, ?_⟩
        · rw [hid]
          exact h.stored hb ha hz hclean
        · rw [Znode.node, funext hid, List.map_id']
  | cons first rest =>
    -- The layout fixes the places `P`, and the writing of the index fills them.
    obtain ⟨P, c₁, hrun, hs⟩ := start_started hg h.tree h.fanout h.ihead hl henough
      (Nat.le_trans (by omega : c.dirtyList.length ≤ 4 * c.dirtyList.length + 1) hfuel)
    obtain ⟨c₂, hend, hw⟩ := hs.end_wrote hg h hl cbuf hfuel
    have hkept : Flash.Kept c.flash c₂.flash := hs.same.1 ▸ hw.kept
    rw [← hl]
    refine ⟨c₁.zroot, c₁, c₂, hrun, hend, ?_, ?_⟩
    · constructor
      case nodup => exact h.tree.dirtyList_nodup
      case listed => exact h.tree.mem_dirtyList
      case childrenFirst => exact h.tree.kid_before
      case circle =>
        rw [hs.cnext, hl]
        have := hs.jobs.linked
        rw [hl] at this
        exact this
      case placed =>
        intro a ha
        obtain ⟨i, hi⟩ := List.getElem?_of_mem ha
        obtain ⟨z₁, hz, hn, hword, hin, hfree⟩ := hs.places hg h hi
        exact ⟨z₁, hz, hn, hword, hin, hfree, hw.node ha hz⟩
      case apart => exact hs.apart h
      case kept => exact hkept
    · rw [hs.zroot]
      exact contents_written h.tree hkept (readNode_written h hs hw) l .root ht

/-- A root with one dirty child, and one that is not in memory. -/
def halfLoaded : Info Nat where
  mem a :=
    if a = 0 then
      some
        { parent := none, cnext := none, dirty := true, cow := false, obsolete := false, level := 1
          iip := 0, alt := false, lnum := 0, offs := 0, len := 0
          zbranch := [⟨10, some 1, 0, 0, 0⟩, ⟨20, none, 7, 0, 48⟩] }
    else if a = 1 then
      some
        { parent := some 0, cnext := none, dirty := true, cow := false, obsolete := false
          level := 0, iip := 0, alt := false, lnum := 0, offs := 0, len := 0
          zbranch := [⟨10, none, 3, 0, 160⟩, ⟨11, none, 3, 160, 160⟩] }
    else none
  flash l o := if l = 7 ∧ o < 48 then some (.idx ⟨0, [⟨20, 3, 320, 160⟩]⟩ o) else none
  zroot := ⟨10, some 0, 0, 0, 0⟩
  cnext := none
  enext := none
  iheadLnum := 8
  iheadOffs := 0
  newIheadLnum := 8
  newIheadOffs := 0
  ilebs := []
  ilebNxt := 0
  freeLebs := [9]
  calcIdxSz := 0
  dirtyZnCnt := 2
  cleanZnCnt := 0

/-- The tree of the example: a root, and one of its two children. -/
theorem halfLoaded_inTree {a : Nat} (h : halfLoaded.InTree a) : a = 0 ∨ a = 1 := by
  induction h with
  | root h => exact .inl (Option.some.inj h).symm
  | child _ hz hb hx ih =>
    rcases ih with rfl | rfl
    · obtain rfl := Option.some.inj hz
      rcases List.mem_cons.mp hb with rfl | hb
      · exact .inr (Option.some.inj hx).symm
      · obtain rfl := List.mem_singleton.mp hb
        cases hx
    · obtain rfl := Option.some.inj hz
      rcases List.mem_cons.mp hb with rfl | hb
      · cases hx
      · obtain rfl := List.mem_singleton.mp hb
        cases hx

theorem halfLoaded_tree : halfLoaded.Tree := by
  constructor
  case root =>
    intro r hr
    obtain rfl := Option.some.inj hr
    exact ⟨_, rfl, rfl⟩
  case child =>
    intro a n x z zbr ha hz hn hx
    rcases halfLoaded_inTree ha with rfl | rfl
    · obtain rfl := Option.some.inj hz
      obtain _ | _ | n := n
      · obtain rfl := Option.some.inj hn
        obtain rfl := Option.some.inj hx
        exact ⟨_, rfl, rfl, rfl, rfl⟩
      · obtain rfl := Option.some.inj hn
        cases hx
      · cases hn
    · obtain rfl := Option.some.inj hz
      obtain _ | _ | n := n
      · obtain rfl := Option.some.inj hn
        cases hx
      · obtain rfl := Option.some.inj hn
        cases hx
      · cases hn
  case dirtyUp =>
    intro a x z zbr ha _ _ _ _
    rcases halfLoaded_inTree ha with rfl | rfl
    · rfl
    · rfl

/-- It can be committed. -/
theorem halfLoaded_committable : Committable ⟨2, 8, 128⟩ halfLoaded := by
  constructor
  case tree => exact halfLoaded_tree
  case fanout =>
    intro a z ha hz
    rcases halfLoaded_inTree ha with rfl | rfl
    · obtain rfl := Option.some.inj hz
      exact Nat.le_refl 2
    · obtain rfl := Option.some.inj hz
      exact Nat.le_refl 2
  case stored =>
    intro a z zbr hb ha hz hclean
    rcases halfLoaded_inTree (hb.inTree ha) with rfl | rfl
    · obtain rfl := Option.some.inj hz
      cases hclean
    · obtain rfl := Option.some.inj hz
      cases hclean
  case ihead => exact Nat.dvd_zero 8
  case fresh => exact fun _ => rfl
  case free =>
    intro l hl o
    obtain rfl := List.mem_singleton.mp hl
    rfl
  case nodup => decide

theorem commit_writes_tree_halfLoaded :
    Geometry.Valid ⟨2, 8, 128⟩ ∧ ∃ n, ∀ fuel ≥ n, ∃ zroot c₁ c₂,
      halfLoaded.tncStartCommit ⟨2, 8, 128⟩ fuel = some (zroot, c₁) ∧
      c₁.tncEndCommit ⟨2, 8, 128⟩ fuel (fun _ => .other) = some c₂ ∧
      Committed ⟨2, 8, 128⟩ halfLoaded c₁ c₂ [1, 0] ∧
      c₂.flash.contents 1 ⟨zroot.lnum, zroot.offs, zroot.len⟩ =
        some [(10, [(10, ⟨3, 0, 160⟩), (11, ⟨3, 160, 160⟩)]), (20, [(20, ⟨3, 320, 160⟩)])] := by
  have hg : Geometry.Valid ⟨2, 8, 128⟩ := ⟨by decide, by decide, by decide, by decide⟩
  refine ⟨hg, ?_⟩
  have ht : halfLoaded.contents 1 halfLoaded.zroot =
      some [(10, [(10, ⟨3, 0, 160⟩), (11, ⟨3, 160, 160⟩)]), (20, [(20, ⟨3, 320, 160⟩)])] := by rfl
  exact commit_writes_tree hg halfLoaded_committable (by decide) ht (fun _ => .other)

end Info

end Ubifs.Index
