/-
  `create_index` finds the newest copy of every virtual sector.

  The scan goes through the blocks in the order of their numbers, not of their age.  `Scanned S`
  says that the tables are right about the pages in `S`: `sector_index` names the newest of the
  copies there, `sector_id` its id, and `block_id` the largest id.  One call of `indexPage` adds one
  page (`indexPage_spec`); blocks with a log page add all their pages, the open block adds the pages
  it has, other blocks have none.

  The code compares ids, so the numbers of the blocks on flash have to fit into an `int`: the
  specifications take `i ≤ intMax` for the largest.
-/
import FlashStack.Uftl.Operations

namespace Uftl

open Lib Lib.Prog

variable {fip : UftlInfo} {A : Event → Prop}

/-! ## The tables of a partial scan -/

/-- The tables are right about the pages in `S`. -/
structure Scanned (fip : UftlInfo) (vol : Volume) (S : Nat → Nat → Prop) (f : Ftl)
    (sectorId : Nat → Int) : Prop where
  index : ∀ v, v < fip.virtualSectorNum →
    ((∀ b p j, b < fip.lebNum → S b p → ¬Copy fip (vol.leb b) p v j) ∧
      f.sectorIndex v = ftlNomap ∧ sectorId v = noId) ∨
    ∃ b p j, b < fip.lebNum ∧ S b p ∧ Copy fip (vol.leb b) p v j ∧
      (∀ b' q l, b' < fip.lebNum → S b' q → Copy fip (vol.leb b') q v l → StampLe l q j p) ∧
      f.sectorIndex v = fip.pageIndex b p ∧ sectorId v = j
  inUse : ∀ b p, b < fip.lebNum → p < fip.ftlPageNum →
    (f.pageState b p = .pageUsing ↔ f.Live fip b p)
  empty : ∀ b p, b < fip.lebNum → p < fip.ftlPageNum →
    (f.pageState b p = .pageEmpty ↔ ¬(S b p ∧ ∃ v j, Copy fip (vol.leb b) p v j))
  idNonneg : 0 ≤ f.blockId
  stamp : f.stamp = f.blockId
  idMax : ∀ b p v j, b < fip.lebNum → S b p → Copy fip (vol.leb b) p v j → j ≤ f.blockId
  idSome : f.blockId = 0 ∨ ∃ b p v, b < fip.lebNum ∧ S b p ∧ Copy fip (vol.leb b) p v f.blockId

section Scanned

variable {vol : Volume} {S S' : Nat → Nat → Prop} {f : Ftl} {ids : Nat → Int}

/-- Only the copies in `S` matter. -/
theorem Scanned.congr (h : Scanned fip vol S f ids)
    (hS : ∀ b p v j, b < fip.lebNum → Copy fip (vol.leb b) p v j → (S' b p ↔ S b p)) :
    Scanned fip vol S' f ids := by
  refine ⟨fun v hv => ?_, h.inUse, fun b p hb hp => ?_, h.idNonneg, h.stamp, ?_, ?_⟩
  · rcases h.index v hv with ⟨hno, hi⟩ | ⟨b, p, j, hb, hs, hc, hmax, hi⟩
    · exact .inl ⟨fun b p j hb hs hc => hno b p j hb ((hS b p v j hb hc).mp hs) hc, hi⟩
    · exact .inr ⟨b, p, j, hb, (hS b p v j hb hc).mpr hs, hc,
        fun b' q l hb' hs' hc' => hmax b' q l hb' ((hS b' q v l hb' hc').mp hs') hc', hi⟩
  · rw [h.empty b p hb hp]
    exact not_congr ⟨fun ⟨hs, v, j, hc⟩ => ⟨(hS b p v j hb hc).mpr hs, v, j, hc⟩,
      fun ⟨hs, v, j, hc⟩ => ⟨(hS b p v j hb hc).mp hs, v, j, hc⟩⟩
  · exact fun b p v j hb hs hc => h.idMax b p v j hb ((hS b p v j hb hc).mp hs) hc
  · exact h.idSome.imp_right fun ⟨b, p, v, hb, hs, hc⟩ => ⟨b, p, v, hb, (hS b p v _ hb hc).mpr hs, hc⟩

/-- An indexed page was scanned, and holds the sector. -/
theorem Scanned.live_copy (h : Scanned fip vol S f ids) {v b p : Nat}
    (hv : v < fip.virtualSectorNum) (hp : p < fip.ftlPageNum)
    (hi : f.sectorIndex v = fip.pageIndex b p) :
    b < fip.lebNum ∧ S b p ∧ Copy fip (vol.leb b) p v (ids v) := by
  rcases h.index v hv with ⟨-, hn, -⟩ | ⟨b', p', j, hb, hs, hc, -, hidx, hid⟩
  · exact absurd (hi.symm.trans hn) (pageIndex_ne_nomap b p)
  · obtain ⟨rfl, rfl⟩ := pageIndex_inj hp hc.1 (hi.symm.trans hidx)
    exact ⟨hb, hs, hid ▸ hc⟩

/-- A scanned page that lost to a newer copy is marked as garbage. -/
theorem Scanned.skip (h : Scanned fip vol S f ids) {n q v : Nat} {id : Int} (hn : n < fip.lebNum)
    (hnew : ¬S n q) (hv : v < fip.virtualSectorNum) (hc : Copy fip (vol.leb n) q v id)
    (hlt : id < ids v) (hid : 0 < id) :
    Scanned fip vol (fun b p => S b p ∨ b = n ∧ p = q) (f.setState n q .pageDiscard) ids := by
  have hq := hc.1
  have hnotlive : ¬f.Live fip n q := fun ⟨w, hw, hi⟩ => hnew (h.live_copy hw hq hi).2.1
  have hlive : ∀ b p, (f.setState n q .pageDiscard).Live fip b p ↔ f.Live fip b p :=
    fun _ _ => Iff.rfl
  refine ⟨fun w hw => ?_, fun b p hb hp => ?_, fun b p hb hp => ?_, h.idNonneg, h.stamp, ?_, ?_⟩
  · rcases h.index w hw with ⟨hno, hi, hnoid⟩ | ⟨b, p, j, hb, hs, hcw, hmax, hi, hj⟩
    · refine .inl ⟨?_, hi, hnoid⟩
      rintro b p j hb (hs | ⟨rfl, rfl⟩) hcw
      · exact hno b p j hb hs hcw
      · obtain ⟨rfl, -⟩ := hc.unique hcw
        rw [hnoid] at hlt
        unfold noId at hlt
        omega
    · refine .inr ⟨b, p, j, hb, .inl hs, hcw, ?_, hi, hj⟩
      rintro b' p' l hb' (hs' | ⟨rfl, rfl⟩) hcw'
      · exact hmax b' p' l hb' hs' hcw'
      · obtain ⟨rfl, rfl⟩ := hc.unique hcw'
        exact .inl (hj ▸ hlt)
  · rw [setState_pageState, hlive]
    split
    · obtain ⟨rfl, rfl⟩ := ‹b = n ∧ p = q›
      exact ⟨fun he => (by cases he), fun hl => absurd hl hnotlive⟩
    · exact h.inUse b p hb hp
  · rw [setState_pageState]
    split
    · obtain ⟨rfl, rfl⟩ := ‹b = n ∧ p = q›
      exact ⟨fun he => (by cases he), fun hno => absurd ⟨.inr ⟨rfl, rfl⟩, v, id, hc⟩ hno⟩
    · rename_i hne
      rw [h.empty b p hb hp]
      exact not_congr (and_congr_left fun _ => ⟨.inl, fun hs => hs.resolve_right hne⟩)
  · rintro b p w j hb (hs | ⟨rfl, rfl⟩) hcw
    · exact h.idMax b p w j hb hs hcw
    · obtain ⟨rfl, rfl⟩ := hc.unique hcw
      rcases h.index v hv with ⟨-, -, hnoid⟩ | ⟨b', p', l, hb', hs', hc', -, -, hl⟩
      · rw [hnoid] at hlt
        unfold noId at hlt
        omega
      · have := h.idMax b' p' v l hb' hs' hc'
        show id ≤ f.blockId
        omega
  · exact h.idSome.imp_right fun ⟨b, p, w, hb, hs, hcw⟩ => ⟨b, p, w, hb, .inl hs, hcw⟩

/-- `sector_index` of `v` set to page `q` of block `n`, and `block_id` raised to `id`; the old page
    becomes garbage. -/
def Ftl.takePage (fip : UftlInfo) (f : Ftl) (n q v : Nat) (id : Int) : Ftl :=
  let g := if f.sectorIndex v ≠ ftlNomap then
      (f.raiseId id).setState ((f.sectorIndex v).tdiv fip.ftlPageNum).toNat
        ((f.sectorIndex v).tmod fip.ftlPageNum).toNat .pageDiscard
    else f.raiseId id
  { g with sectorIndex := Function.update g.sectorIndex v (fip.pageIndex n q) }.setState n q
    .pageUsing

theorem takePage_sectorIndex (f : Ftl) (n q v : Nat) (id : Int) :
    (f.takePage fip n q v id).sectorIndex = Function.update f.sectorIndex v (fip.pageIndex n q) := by
  unfold Ftl.takePage
  dsimp only
  split <;> rfl

theorem takePage_blockId (f : Ftl) (n q v : Nat) (id : Int) :
    (f.takePage fip n q v id).blockId = if f.blockId < id then id else f.blockId := by
  unfold Ftl.takePage
  dsimp only
  split <;> rfl

theorem takePage_stamp (f : Ftl) (n q v : Nat) (id : Int) :
    (f.takePage fip n q v id).stamp = (f.takePage fip n q v id).blockId := by
  unfold Ftl.takePage
  dsimp only
  split <;> rfl

/-- The page is in use, the one from before is garbage. -/
theorem takePage_pageState (f : Ftl) (n q v : Nat) (id : Int) (b p : Nat) :
    (f.takePage fip n q v id).pageState b p =
      if b = n ∧ p = q then .pageUsing
      else if f.sectorIndex v ≠ ftlNomap ∧
          b = ((f.sectorIndex v).tdiv fip.ftlPageNum).toNat ∧
          p = ((f.sectorIndex v).tmod fip.ftlPageNum).toNat then .pageDiscard
      else f.pageState b p := by
  unfold Ftl.takePage
  dsimp only
  rw [setState_pageState]
  refine if_congr Iff.rfl rfl ?_
  by_cases hi : f.sectorIndex v ≠ ftlNomap
  · rw [if_pos hi]
    show ((f.raiseId id).setState _ _ .pageDiscard).pageState b p = _
    rw [setState_pageState]
    exact if_congr (by simp [hi]) rfl rfl
  · rw [if_neg hi]
    show f.pageState b p = _
    rw [if_neg fun hc => hi hc.1]

/-- A scanned page that is not older than the indexed one takes its place. -/
theorem Scanned.take (h : Scanned fip vol S f ids) {n q v : Nat} {id : Int} (hn : n < fip.lebNum)
    (hnew : ¬S n q) (hv : v < fip.virtualSectorNum) (hc : Copy fip (vol.leb n) q v id)
    (hle : ids v ≤ id) (hid : 0 < id)
    (hsame : ∀ b p w, b < fip.lebNum → S b p → Copy fip (vol.leb b) p w id → b = n ∧ p < q) :
    Scanned fip vol (fun b p => S b p ∨ b = n ∧ p = q) (f.takePage fip n q v id)
      (Function.update ids v id) := by
  have hq := hc.1
  have hlive : ∀ b p, p < fip.ftlPageNum → ((f.takePage fip n q v id).Live fip b p ↔
      b = n ∧ p = q ∨ ∃ w, w < fip.virtualSectorNum ∧ w ≠ v ∧
        f.sectorIndex w = fip.pageIndex b p) := by
    intro b p hp
    unfold Ftl.Live
    rw [takePage_sectorIndex]
    constructor
    · rintro ⟨w, hw, hi⟩
      by_cases hwv : w = v
      · rw [hwv, Function.update_self] at hi
        obtain ⟨rfl, rfl⟩ := pageIndex_inj hq hp hi
        exact .inl ⟨rfl, rfl⟩
      · rw [Function.update_of_ne hwv] at hi
        exact .inr ⟨w, hw, hwv, hi⟩
    · rintro (⟨rfl, rfl⟩ | ⟨w, hw, hwv, hi⟩)
      · exact ⟨v, hv, Function.update_self ..⟩
      · exact ⟨w, hw, by rw [Function.update_of_ne hwv, hi]⟩
  -- the page that is given up is the indexed page of `v`
  have hold : ∀ b p, p < fip.ftlPageNum → (f.sectorIndex v ≠ ftlNomap ∧
      b = ((f.sectorIndex v).tdiv fip.ftlPageNum).toNat ∧
      p = ((f.sectorIndex v).tmod fip.ftlPageNum).toNat ↔ f.sectorIndex v = fip.pageIndex b p) := by
    intro b p hp
    constructor
    · rintro ⟨hne, hb, hp'⟩
      rcases h.index v hv with ⟨-, hi, -⟩ | ⟨b', p', j, -, -, hc', -, hi, -⟩
      · exact absurd hi hne
      · rw [hi, pageIndex_tdiv hc'.1, Int.toNat_natCast] at hb
        rw [hi, pageIndex_tmod hc'.1, Int.toNat_natCast] at hp'
        rw [hb, hp', hi]
    · intro hi
      rw [hi, pageIndex_tdiv hp, pageIndex_tmod hp]
      exact ⟨pageIndex_ne_nomap b p, by simp, by simp⟩
  refine ⟨fun w hw => ?_, fun b p hb hp => ?_, fun b p hb hp => ?_, ?_, takePage_stamp .., ?_, ?_⟩
  · rw [takePage_sectorIndex]
    by_cases hwv : w = v
    · subst hwv
      rw [Function.update_self, Function.update_self]
      refine .inr ⟨n, q, id, hn, .inr ⟨rfl, rfl⟩, hc, ?_, rfl, rfl⟩
      rintro b p j hb (hs | ⟨rfl, rfl⟩) hcw
      · rcases h.index w hw with ⟨hno, -⟩ | ⟨b', p', j', -, -, -, hmax, -, hj'⟩
        · exact absurd hcw (hno b p j hb hs)
        · have hstamp := hmax b p j hb hs hcw
          by_cases hj : j = id
          · subst hj
            exact .inr ⟨rfl, Nat.le_of_lt (hsame b p w hb hs hcw).2⟩
          · unfold StampLe at *
            omega
      · obtain ⟨-, rfl⟩ := hc.unique hcw
        exact .inr ⟨rfl, Nat.le_refl _⟩
    · rw [Function.update_of_ne hwv, Function.update_of_ne hwv]
      rcases h.index w hw with ⟨hno, hi⟩ | ⟨b, p, j, hb, hs, hcw, hmax, hi⟩
      · refine .inl ⟨?_, hi⟩
        rintro b p j hb (hs | ⟨rfl, rfl⟩) hcw
        · exact hno b p j hb hs hcw
        · exact hwv (hcw.unique hc).1
      · refine .inr ⟨b, p, j, hb, .inl hs, hcw, ?_, hi⟩
        rintro b' p' l hb' (hs' | ⟨rfl, rfl⟩) hcw'
        · exact hmax b' p' l hb' hs' hcw'
        · exact absurd (hcw'.unique hc).1 hwv
  · rw [takePage_pageState, hlive b p hp]
    split
    · exact ⟨fun _ => .inl ‹_›, fun _ => rfl⟩
    · rename_i hne
      rw [if_congr (hold b p hp) rfl rfl]
      split
      · rename_i hi
        refine ⟨fun he => (by cases he), ?_⟩
        rintro (he | ⟨w, hw, hwv, hiw⟩)
        · exact absurd he hne
        · exact absurd ((h.live_copy hw hp hiw).2.2.unique (h.live_copy hv hp hi).2.2).1 hwv
      · rename_i hi
        rw [h.inUse b p hb hp]
        constructor
        · rintro ⟨w, hw, hiw⟩
          exact .inr ⟨w, hw, by rintro rfl; exact hi hiw, hiw⟩
        · rintro (he | ⟨w, hw, -, hiw⟩)
          · exact absurd he hne
          · exact ⟨w, hw, hiw⟩
  · rw [takePage_pageState]
    split
    · obtain ⟨rfl, rfl⟩ := ‹b = n ∧ p = q›
      exact ⟨fun he => (by cases he), fun hno => absurd ⟨.inr ⟨rfl, rfl⟩, v, id, hc⟩ hno⟩
    · rename_i hne
      rw [if_congr (hold b p hp) rfl rfl]
      split
      · rename_i hi
        obtain ⟨-, hs, hcv⟩ := h.live_copy hv hp hi
        exact ⟨fun he => (by cases he), fun hno => absurd ⟨.inl hs, v, _, hcv⟩ hno⟩
      · rw [h.empty b p hb hp]
        exact not_congr (and_congr_left fun _ => ⟨.inl, fun hs => hs.resolve_right hne⟩)
  · rw [takePage_blockId]
    have := h.idNonneg
    split <;> omega
  · rw [takePage_blockId]
    rintro b p w j hb (hs | ⟨rfl, rfl⟩) hcw
    · have := h.idMax b p w j hb hs hcw
      split <;> omega
    · obtain ⟨-, rfl⟩ := hc.unique hcw
      split <;> omega
  · rw [takePage_blockId]
    split
    · exact .inr ⟨n, q, v, hn, .inr ⟨rfl, rfl⟩, hc⟩
    · exact h.idSome.imp_right fun ⟨b, p, w, hb, hs, hcw⟩ => ⟨b, p, w, hb, .inl hs, hcw⟩

end Scanned

/-! ## One page -/

/-- What the scan leaves alone. -/
structure ScanFrame (s s' : State) : Prop where
  frame : Frame s s'
  vol : s'.vol = s.vol

/-- Scanning changes tables only. -/
theorem ScanFrame.refl (s : State) : ScanFrame s s := ⟨.refl s, rfl⟩

theorem ScanFrame.trans {s s' s'' : State} (h : ScanFrame s s') (h' : ScanFrame s' s'') :
    ScanFrame s s'' := ⟨h.frame.trans h'.frame, h'.vol.trans h.vol⟩

/-- The scan was cut; nothing on flash has changed. -/
def ScanCut (s : State) (e : Exit) (s' : State) : Prop :=
  e = .powerCut ∧ s.mayCut ∧ ScanFrame s s'

theorem ScanCut.trans {s s' s'' : State} {e : Exit} (hf : ScanFrame s s') (h : ScanCut s' e s'') :
    ScanCut s e s'' := ⟨h.1, hf.frame.mayCut h.2.1, hf.trans h.2.2⟩

/-- What `indexPage` leaves alone besides. -/
structure PageFrame (s s' : State) : Prop where
  scan : ScanFrame s s'
  curOffset : s'.ftl.curOffset = s.ftl.curOffset
  logPage : s'.ftl.blockLogPage = s.ftl.blockLogPage
  needRewrite : s'.needRewrite = s.needRewrite
  rewritePage : s'.rewritePage = s.rewritePage

section Page

variable {s : State} {vol : Volume} {S : Nat → Nat → Prop} {n q v : Nat} {id : Int}

/-- The tables of the scan. -/
theorem wp_getSectorId {G : Event → Prop} {Q : Int → State → Prop} {E : Exit → State → Prop}
    (h : v < fip.virtualSectorNum) :
    wp A G (getSectorId fip v) Q E s ↔ Q (s.sectorId v) s := by
  simp [getSectorId, inSectorTable_of_lt h]

theorem wp_setSectorId {G : Event → Prop} {Q : Unit → State → Prop} {E : Exit → State → Prop}
    (h : v < fip.virtualSectorNum) :
    wp A G (setSectorId fip v id) Q E s ↔
      Q () { s with sectorId := Function.update s.sectorId v id } := by
  simp [setSectorId, inSectorTable_of_lt h]

/-- **One page of the scan**: it is indexed unless a newer copy is. -/
theorem indexPage_spec (h : Scanned fip vol S s.ftl s.sectorId) (hn : n < fip.lebNum)
    (hnew : ¬S n q) (hv : v < fip.virtualSectorNum) (hc : Copy fip (vol.leb n) q v id)
    (hid : 0 < id)
    (hsame : ∀ b p w, b < fip.lebNum → S b p → Copy fip (vol.leb b) p w id → b = n ∧ p < q)
    {E : Exit → State → Prop} :
    wp A Fed (indexPage fip n q v id)
      (fun r s' => Scanned fip vol (fun b p => S b p ∨ b = n ∧ p = q) s'.ftl s'.sectorId ∧
        PageFrame s s' ∧ (s.sectorId v ≤ id → r = true)) E s := by
  have hq := hc.1
  simp only [indexPage, wp_bind, wp_getSectorId hv, wp_ite, wp_setPageState hn hq, wp_pure,
    wp_modifyState, wp_getSectorIndex hv, wp_when]
  refine ⟨fun hlt => ?_, fun hlt => ?_⟩
  · exact ⟨h.skip hn hnew hv hc hlt hid, ⟨⟨⟨rfl, rfl, rfl, rfl, rfl⟩, rfl⟩, rfl, rfl, rfl, rfl⟩,
      fun hle => absurd hlt (by omega)⟩
  · have htake := h.take hn hnew hv hc (by omega) hid hsame
    have hidx : (q : Int) + fip.ftlPageNum * n = fip.pageIndex n q := by
      unfold UftlInfo.pageIndex
      rw [Int.mul_comm, Int.add_comm]
    have hgetidx : (s.onFtl (·.raiseId id)).ftl.sectorIndex v = s.ftl.sectorIndex v := rfl
    rw [hgetidx, hidx]
    refine ⟨fun hne => ?_, fun hno => ?_⟩
    · rcases h.index v hv with ⟨-, hi, -⟩ | ⟨b', p', j, hb', -, hc', -, hi, -⟩
      · exact absurd hi hne
      · rw [hi, pageIndex_tdiv hc'.1, pageIndex_tmod hc'.1, wp_setPageState hb' hc'.1,
          wp_setSectorId hv, wp_setSectorIndex hv]
        refine ⟨?_, ⟨⟨⟨rfl, rfl, rfl, rfl, rfl⟩, rfl⟩, rfl, rfl, rfl, rfl⟩, fun _ => trivial⟩
        unfold Ftl.takePage at htake
        dsimp only at htake
        rw [if_pos hne, hi, pageIndex_tdiv hc'.1, pageIndex_tmod hc'.1, Int.toNat_natCast,
          Int.toNat_natCast] at htake
        exact htake
    · rw [wp_setSectorId hv, wp_setSectorIndex hv]
      refine ⟨?_, ⟨⟨⟨rfl, rfl, rfl, rfl, rfl⟩, rfl⟩, rfl, rfl, rfl, rfl⟩, fun _ => trivial⟩
      unfold Ftl.takePage at htake
      dsimp only at htake
      rw [if_neg hno] at htake
      exact htake

end Page

/-! ## One block -/

/-- The pages before page `q` of block `n`. -/
def before (n q b p : Nat) : Prop := b < n ∨ b = n ∧ p < q

section Block

variable {s : State} {vol : Volume} {b k n : Nat} {i : Int}

/-- One more page. -/
theorem Scanned.step {f : Ftl} {ids : Nat → Int} {q : Nat}
    (h : Scanned fip vol (fun b p => before n q b p ∨ b = n ∧ p = q) f ids) :
    Scanned fip vol (before n (q + 1)) f ids :=
  h.congr fun b p _ _ _ _ => by unfold before; omega

/-- The blocks before the next one. -/
theorem Scanned.nextBlock {f : Ftl} {ids : Nat → Int} {q : Nat}
    (h : Scanned fip vol (before n q) f ids)
    (hall : ∀ p v j, Copy fip (vol.leb n) p v j → p < q) :
    Scanned fip vol (before (n + 1) 0) f ids := by
  refine h.congr fun b p v j _ hc => ?_
  have : b = n → p < q := by rintro rfl; exact hall p v j hc
  unfold before
  omega

theorem ftlReadLog_spec (hA : Calm A) (hwf : fip.Wf) (hn : n < fip.lebNum) {l : LogPage}
    (hr : (s.vol.leb n).log.read .blank = some l) :
    wp A Fed (ftlReadLog fip n) (fun r s' => r = l ∧ s' = s.tick) (ScanCut s) s := by
  unfold ftlReadLog
  rw [if_pos (inVolume_page hwf.leb_page hn (Nat.le_refl _)), wp_bind]
  refine wp_mono (flashOp_spec hA (by simp) (by simp)) ?_ ?_
  · rintro _ s' ⟨-, rfl⟩
    simp only [wp_bind, wp_getState, Int.toNat_natCast]
    have : ((s.tick.onVol id).vol.leb n).log = (s.vol.leb n).log := rfl
    rw [this, hr]
    exact ⟨rfl, rfl⟩
  · rintro e s' ⟨rfl, hcut, rfl | ⟨-, rfl⟩⟩
    · exact ⟨rfl, hcut, .tick s, rfl⟩
    · exact ⟨rfl, hcut, .tick s, rfl⟩

/-- Reading a torn page is an error the caller sees. -/
theorem ftlRead_torn (hA : Calm A) (hwf : fip.Wf) {p : Nat} (hn : n < fip.lebNum)
    (hp : p < fip.ftlPageNum) (ht : (s.vol.leb n).page p = .torn) {Q : Page → State → Prop}
    {E : Exit → State → Prop} (herr : E (.errno .eio) s.tick)
    (hcut : ∀ s', ScanCut s .powerCut s' → E .powerCut s') :
    wp A Fed (ftlRead fip n p) Q E s := by
  unfold ftlRead
  rw [if_pos (inVolume_page hwf.leb_page hn (Nat.le_of_lt hp)), wp_bind]
  refine wp_mono (flashOp_spec hA (by simp) (by simp)) ?_ ?_
  · rintro _ s' ⟨-, rfl⟩
    simp only [wp_bind, wp_getState, Int.toNat_natCast]
    have : ((s.tick.onVol id).vol.leb n).page p = (s.vol.leb n).page p := rfl
    rw [this, ht]
    exact herr
  · rintro e s' ⟨rfl, hc, rfl | ⟨-, rfl⟩⟩
    · exact hcut _ ⟨rfl, hc, .tick s, rfl⟩
    · exact hcut _ ⟨rfl, hc, .tick s, rfl⟩

/-- Block `n` has `k` pages of id `i`, the newest so far in their virtual sectors, and the scan has
    come to page `q` of it. -/
structure ScanOpen (fip : UftlInfo) (vol : Volume) (n k : Nat) (i : Int) (q : Nat) (s : State) :
    Prop where
  onFlash : s.vol = vol
  shape : Shape fip (vol.leb n) i k
  le : q ≤ k
  scanned : Scanned fip vol (before n q) s.ftl s.sectorId
  idLe : ∀ b p v j, b < fip.lebNum → before n q b p → Copy fip (vol.leb b) p v j → 0 < k →
    j ≤ i ∧ (j = i → b = n)
  entries : ∀ p, p < q → ∀ pg, (vol.leb n).page p = .written pg →
    s.ftl.blockLogPage.entry p = pg.log.sector

/-- The page after the last one that was written. -/
theorem page_cases (hsh : Shape fip (vol.leb n) i k) (hk : k < fip.ftlPageNum) :
    (vol.leb n).page k = .erased ∨ (vol.leb n).page k = .torn := by
  rcases hsh.tail k (Nat.le_refl k) hk with he | ⟨-, he⟩
  · exact .inl he
  · exact .inr he

theorem ScanOpen.congr {q : Nat} {s' : State} (h : ScanOpen fip vol n k i q s)
    (hvol : s'.vol = s.vol) (hftl : s'.ftl = s.ftl) (hid : s'.sectorId = s.sectorId) :
    ScanOpen fip vol n k i q s' :=
  ⟨hvol.trans h.onFlash, h.shape, h.le, by rw [hftl, hid]; exact h.scanned, h.idLe,
    by rw [hftl]; exact h.entries⟩

/-- The scan of a block without log page: all its pages are indexed, and a torn page after them is
    noted for the rescue. -/
theorem scanOpenBlock_spec (hwf : fip.Wf) (hA : Calm A) (hi : i ≤ intMax) (hn : n < fip.lebNum)
    (rem : Nat) :
    ∀ q s, q + rem = fip.ftlPageNum → ScanOpen fip vol n k i q s →
      wp A Fed (scanOpenBlock fip n rem q)
        (fun r s' => r = k ∧ ScanOpen fip vol n k i k s' ∧ ScanFrame s s' ∧
          s'.ftl.curOffset = s.ftl.curOffset ∧
          (s'.needRewrite = s.needRewrite ∧ s'.rewritePage = s.rewritePage ∧
            (k < fip.ftlPageNum → (vol.leb n).page k = .erased) ∨
            s'.needRewrite = true ∧ s'.rewritePage = k))
        (ScanCut s) s := by
  induction rem with
  | zero =>
    intro q s hq h
    have hle := h.shape.le
    have hqk := h.le
    have : q = k := by omega
    subst this
    exact ⟨rfl, h, .refl s, rfl, .inl ⟨rfl, rfl, fun hlt => absurd hlt (by omega)⟩⟩
  | succ rem ih =>
    intro q s hq h
    have hvol := h.onFlash
    have hqP : q < fip.ftlPageNum := by omega
    simp only [scanOpenBlock, wp_bind, wp_attempt]
    by_cases hqk : q < k
    · -- a page of the block
      obtain ⟨pg, hpg, hg⟩ := h.shape.head q hqk
      have hv0 := hg.sector_nonneg
      have hv1 := hg.sector_lt
      have hsec : pg.log.sector = (pg.log.sector.toNat : Nat) := by omega
      generalize hv : pg.log.sector.toNat = v at hsec
      have hvlt : v < fip.virtualSectorNum := by omega
      have hc : Copy fip (vol.leb n) q v i := ⟨hqP, pg, hpg, hsec, hg.stamp⟩
      refine wp_mono (ftlRead_written hA hwf hn hqP (by rw [hvol]; exact hpg)) ?_ ?_
      · rintro _ s₁ ⟨rfl, rfl⟩
        rw [if_pos hg.magic, wp_bind, hsec, hg.id_eq hi]
        have hscan : Scanned fip vol (before n q) s.tick.ftl s.tick.sectorId := h.scanned
        refine wp_mono (indexPage_spec hscan hn (by unfold before; omega) hvlt hc hg.pos ?_) ?_
          (fun _ _ hf => hf)
        · intro b p w hb hbef hcb
          have := (h.idLe b p w i hb hbef hcb (by omega)).2 rfl
          unfold before at hbef
          omega
        · rintro taken s₂ ⟨hsc₂, hf₂, htaken⟩
          -- the id of the block is the largest so far, so the page is taken
          have hknown : s.sectorId v ≤ i := by
            rcases h.scanned.index v hvlt with ⟨-, -, hno⟩ | ⟨b, p, j, hb, hbef, hcb, -, -, hj⟩
            · have := hg.pos
              rw [hno]
              unfold noId
              omega
            · rw [hj]
              exact (h.idLe b p v j hb hbef hcb (by omega)).1
          rw [htaken hknown]
          simp only [wp_bind, wp_when, wp_setLogEntry hwf hqP]
          refine ⟨fun _ => ?_, fun hno => absurd trivial hno⟩
          generalize hs₃ : s₂.onFtl (·.logEntry q v) = s₃
          have hopen : ScanOpen fip vol n k i (q + 1) s₃ := by
            refine ⟨?_, h.shape, hqk, ?_, ?_, ?_⟩
            · subst hs₃
              exact hf₂.scan.vol.trans hvol
            · subst hs₃
              have hst := hsc₂.step
              exact ⟨hst.index, hst.inUse, hst.empty, hst.idNonneg, hst.stamp, hst.idMax,
                hst.idSome⟩
            · intro b p w j hb hbef hcb hk0
              by_cases hbq : before n q b p
              · exact h.idLe b p w j hb hbq hcb hk0
              · have hpos : b = n ∧ p = q := by unfold before at hbef hbq; omega
                obtain ⟨rfl, rfl⟩ := hpos
                obtain ⟨-, rfl⟩ := hc.unique hcb
                exact ⟨Int.le_refl _, fun _ => rfl⟩
            · intro p hp pg' hpg'
              subst hs₃
              show Function.update s₂.ftl.blockLogPage.entry q (v : Int) p = _
              by_cases hpq : p = q
              · subst hpq
                rw [hpg] at hpg'
                cases hpg'
                rw [Function.update_self, hsec]
              · rw [Function.update_of_ne hpq, hf₂.logPage]
                exact h.entries p (by omega) pg' hpg'
          have hscanf : ScanFrame s s₃ := by
            subst hs₃
            exact ((⟨.tick s, rfl⟩ : ScanFrame s s.tick).trans hf₂.scan).trans ⟨.onFtl s₂ _, rfl⟩
          refine wp_mono (ih (q + 1) s₃ (by omega) hopen) ?_ (fun e s' he => he.trans hscanf)
          rintro r s' ⟨hr, hopen', hfr, hcur, hrw⟩
          refine ⟨hr, hopen', hscanf.trans hfr, ?_, ?_⟩
          · rw [hcur]
            subst hs₃
            exact hf₂.curOffset
          · have hn₃ : s₃.needRewrite = s.needRewrite := by subst hs₃; exact hf₂.needRewrite
            have hp₃ : s₃.rewritePage = s.rewritePage := by subst hs₃; exact hf₂.rewritePage
            rw [hn₃, hp₃] at hrw
            exact hrw
      · rintro e s₁ ⟨rfl, hcut, rfl⟩
        exact ⟨rfl, hcut, .tick s, rfl⟩
    · have hle := h.le
      have hq : q = k := by omega
      subst hq
      rcases page_cases h.shape hqP with he | ht
      · -- the first erased page
        refine wp_mono (ftlRead_spec hA hwf hn hqP
          (show ((s.vol.leb n).page q).read .blank = some .blank by rw [hvol, he]; rfl)) ?_ ?_
        · rintro _ s₁ ⟨rfl, rfl⟩
          have hmagic : ¬(Page.blank.log.magic = magicNum) := by
            show ¬((-1 : Int) = 722)
            omega
          rw [if_neg hmagic]
          exact ⟨rfl, h.congr rfl rfl rfl, ⟨.tick s, rfl⟩, rfl, .inl ⟨rfl, rfl, fun _ => he⟩⟩
        · rintro e s₁ ⟨rfl, hcut, rfl⟩
          exact ⟨rfl, hcut, .tick s, rfl⟩
      · -- a torn page
        refine ftlRead_torn hA hwf hn hqP (by rw [hvol]; exact ht) ?_ fun s' hcut => hcut
        rw [if_pos (show (Exit.errno .eio).isErrno = true from rfl)]
        simp only [wp_modifyState, wp_pure]
        exact ⟨trivial, h.congr rfl rfl rfl, ⟨⟨rfl, rfl, rfl, rfl, rfl⟩, rfl⟩, rfl,
          .inr ⟨trivial, trivial⟩⟩

theorem wp_getLogEntry (hwf : fip.Wf) {G : Event → Prop} {p : Nat} (hp : p < fip.ftlPageNum)
    {l : LogPage} {Q : Int → State → Prop} {E : Exit → State → Prop} :
    wp A G (getLogEntry fip l p) Q E s ↔ Q (l.entry p) s := by
  rw [getLogEntry, if_pos (hwf.inLogPage hp), wp_pure]

/-- The scan of a block with log page: all its pages are indexed. -/
theorem indexLogged_spec {l : LogPage} (hwf : fip.Wf) (hn : n < fip.lebNum)
    (hch : Chain fip True vol b k i) {j : Int} (hj : j ≤ intMax) (hcl : Closed fip True (vol.leb n) j)
    (hl : (vol.leb n).log = .written l)
    (h : Scanned fip vol (before n 0) s.ftl s.sectorId) {E : Exit → State → Prop} :
    wp A Fed (indexLogged fip n l)
      (fun _ s' => Scanned fip vol (before (n + 1) 0) s'.ftl s'.sectorId ∧ PageFrame s s') E s := by
  obtain ⟨l', hl', -, hid, hentry⟩ := hcl.2 trivial
  rw [hl] at hl'
  cases hl'
  refine wp_mono (wp_forUpto (fun q s' => Scanned fip vol (before n q) s'.ftl s'.sectorId ∧
    PageFrame s s') ⟨h, ⟨.refl s, rfl, rfl, rfl, rfl⟩⟩ ?_) ?_ (fun _ _ hf => hf)
  · rintro q hq s₁ ⟨hsc, hf⟩
    obtain ⟨pg, hpg, hg⟩ := hcl.1.head q hq
    have hv0 := hg.sector_nonneg
    have hv1 := hg.sector_lt
    have hsec : pg.log.sector = (pg.log.sector.toNat : Nat) := by omega
    generalize hv : pg.log.sector.toNat = v at hsec
    have hvlt : v < fip.virtualSectorNum := by omega
    have hc : Copy fip (vol.leb n) q v j := ⟨hq, pg, hpg, hsec, hg.stamp⟩
    rw [wp_bind, wp_getLogEntry hwf hq, wp_bind, hentry q hq pg hpg, hsec, hid,
      wrapInt_of_le (Int.le_of_lt hg.pos) hj]
    refine wp_mono (indexPage_spec hsc hn (by unfold before; omega) hvlt hc hg.pos ?_) ?_
      (fun _ _ hf => hf)
    · -- an id belongs to one block
      intro b' p w hb' hbef hcb
      have := hch.uniq b' _ n _ p q w v j hb' hn (.inl rfl) (.inl rfl) hcb hc
      unfold before at hbef
      omega
    · rintro r s₂ ⟨hsc₂, hf₂, -⟩
      exact ⟨hsc₂.step, ⟨hf.scan.trans hf₂.scan, hf₂.curOffset.trans hf.curOffset,
        hf₂.logPage.trans hf.logPage, hf₂.needRewrite.trans hf.needRewrite,
        hf₂.rewritePage.trans hf.rewritePage⟩⟩
  · rintro _ s' ⟨hsc, hf⟩
    exact ⟨hsc.nextBlock fun p v j' hc => hc.1, hf⟩

/-! ## All blocks -/

/-- The block that is being filled has pages and no log page. -/
def OpenAt (vol : Volume) (b k : Nat) : Prop := 0 < k ∧ (vol.leb b).log = .erased

/-- `create_index` has scanned the blocks below `n`. -/
structure ScanAt (fip : UftlInfo) (vol : Volume) (b k n : Nat) (s : State) : Prop where
  onFlash : s.vol = vol
  scanned : Scanned fip vol (before n 0) s.ftl s.sectorId
  closed : ¬(OpenAt vol b k ∧ b < n) → s.ftl.curOffset.block = ftlNomap
  opened : OpenAt vol b k → b < n → s.ftl.curOffset = ⟨b, (k : Int) - 1⟩ ∧
    (∀ p, p < k → ∀ pg, (vol.leb b).page p = .written pg →
      s.ftl.blockLogPage.entry p = pg.log.sector) ∧
    (k < fip.ftlPageNum → (vol.leb b).page k = .erased ∨
      s.needRewrite = true ∧ s.rewritePage = k)
  rewrite : s.needRewrite = true → s.rewritePage = 0 ∨ OpenAt vol b k ∧ s.rewritePage = k

/-- On to the next block. -/
theorem ScanAt.next {s' : State} (h : ScanAt fip vol b k n s) (hne : ¬(OpenAt vol b k ∧ b = n))
    (hf : ScanFrame s s') (hsc : Scanned fip vol (before (n + 1) 0) s'.ftl s'.sectorId)
    (hcur : s'.ftl.curOffset = s.ftl.curOffset)
    (hlog : s'.ftl.blockLogPage = s.ftl.blockLogPage)
    (hrw : s'.needRewrite = s.needRewrite ∧ s'.rewritePage = s.rewritePage ∨
      ¬(OpenAt vol b k ∧ b < n) ∧ s'.rewritePage = 0) : ScanAt fip vol b k (n + 1) s' := by
  refine ⟨hf.vol.trans h.onFlash, hsc, fun hno => ?_, fun hop hlt => ?_, fun hneed => ?_⟩
  · rw [hcur]
    exact h.closed fun ⟨hop, hlt⟩ => hno ⟨hop, by omega⟩
  · have hlt' : b < n := by
      have : b ≠ n := fun he => hne ⟨hop, he⟩
      omega
    obtain ⟨hc, he, ht⟩ := h.opened hop hlt'
    rw [hcur, hlog]
    refine ⟨hc, he, fun hk => (ht hk).imp_right fun hr => ?_⟩
    rcases hrw with ⟨h₁, h₂⟩ | ⟨hno, -⟩
    · rw [h₁, h₂]
      exact hr
    · exact absurd ⟨hop, hlt'⟩ hno
  · rcases hrw with ⟨h₁, h₂⟩ | ⟨-, h₂⟩
    · rw [h₂]
      exact h.rewrite (h₁ ▸ hneed)
    · exact .inl h₂

/-- A block without log page and pages is passed over. -/
theorem indexUnlogged_stub (hwf : fip.Wf) (hA : Calm A) (hn : n < fip.lebNum)
    (hstub : Stub fip (vol.leb n)) (hne : ¬(OpenAt vol b k ∧ b = n))
    (h : ScanAt fip vol b k n s) :
    wp A Fed (indexUnlogged fip n)
      (fun _ s' => ScanAt fip vol b k (n + 1) s' ∧ ScanFrame s s') (ScanCut s) s := by
  have hnone : ∀ {f : Ftl} {ids : Nat → Int}, Scanned fip vol (before n 0) f ids →
      Scanned fip vol (before (n + 1) 0) f ids := fun hsc =>
    hsc.nextBlock fun p v j hc => absurd hc hstub.no_copy
  simp only [indexUnlogged, wp_bind, wp_getState, wp_when]
  refine ⟨fun hcur => ?_, fun _ => ⟨h.next hne (.refl s) (hnone h.scanned) rfl rfl
    (.inl ⟨rfl, rfl⟩), .refl s⟩⟩
  have hopen : ScanOpen fip vol n 0 0 0 s :=
    ⟨h.onFlash, hstub.1, Nat.le_refl 0, h.scanned, fun _ _ _ _ _ _ _ hk => absurd hk (by omega),
      fun p hp => absurd hp (Nat.not_lt_zero p)⟩
  refine wp_mono (scanOpenBlock_spec hwf hA (by decide) hn fip.ftlPageNum 0 s (by omega) hopen) ?_
    (fun _ _ he => he)
  rintro r s' ⟨rfl, hop', hf, hcur', hrw⟩
  refine ⟨fun hpos => absurd hpos (by omega), fun _ => ⟨?_, hf⟩⟩
  have hnot : ¬(OpenAt vol b k ∧ b < n) := by
    rintro ⟨hop, hlt⟩
    rw [(h.opened hop hlt).1] at hcur
    have : (b : Int) = -1 := hcur
    omega
  refine ⟨hf.vol.trans h.onFlash, hnone hop'.scanned, fun _ => by rw [hcur']; exact hcur,
    fun hop hlt => absurd ⟨hop, by omega⟩ (fun hc : OpenAt vol b k ∧ b ≤ n => ?_), fun hneed => ?_⟩
  · have : b ≠ n := fun he => hne ⟨hop, he⟩
    exact hnot ⟨hop, by omega⟩
  · rcases hrw with ⟨h₁, h₂, -⟩ | ⟨-, h₂⟩
    · rw [h₂]
      exact h.rewrite (h₁ ▸ hneed)
    · exact .inl h₂

/-- The open block becomes the current one. -/
theorem indexUnlogged_open (hwf : fip.Wf) (hA : Calm A) (hch : Chain fip True vol b k i)
    (hi : i ≤ intMax)
    (hop : OpenAt vol b k) (h : ScanAt fip vol b k b s) :
    wp A Fed (indexUnlogged fip b)
      (fun _ s' => ScanAt fip vol b k (b + 1) s' ∧ ScanFrame s s') (ScanCut s) s := by
  have hk := hop.1
  have hcur := h.closed fun hc => absurd hc.2 (Nat.lt_irrefl b)
  have hopen : ScanOpen fip vol b k i 0 s := by
    refine ⟨h.onFlash, (hch.cur hk).1, Nat.zero_le _, h.scanned, ?_,
      fun p hp => absurd hp (Nat.not_lt_zero p)⟩
    intro b' p v j hb' _ hc _
    have := (hch.copy hb' hc).2.2.2
    omega
  simp only [indexUnlogged, wp_bind, wp_getState, wp_when]
  refine ⟨fun _ => ?_, fun hno => absurd hcur hno⟩
  refine wp_mono (scanOpenBlock_spec hwf hA hi hch.lt fip.ftlPageNum 0 s (by omega) hopen) ?_
    (fun _ _ he => he)
  rintro r s' ⟨rfl, hop', hf, -, hrw⟩
  refine ⟨fun _ => ?_, fun hno => absurd hk hno⟩
  simp only [wp_modifyState]
  refine ⟨⟨hf.vol.trans h.onFlash, ?_, fun hno => absurd ⟨hop, Nat.lt_succ_self b⟩ hno,
    fun _ _ => ⟨rfl, hop'.entries, fun hlt => ?_⟩, fun hneed => ?_⟩, hf.trans ⟨.onFtl s' _, rfl⟩⟩
  · have hsc := hop'.scanned.nextBlock fun p v j hc => ((hch.cur hk).1.copy hc).1
    exact ⟨hsc.index, hsc.inUse, hsc.empty, hsc.idNonneg, hsc.stamp, hsc.idMax, hsc.idSome⟩
  · exact hrw.imp (fun hr => hr.2.2 hlt) id
  · rcases hrw with ⟨h₁, h₂, -⟩ | ⟨-, h₂⟩
    · rcases h.rewrite (h₁ ▸ hneed) with h₀ | h₀
      · exact .inl (h₂.trans h₀)
      · exact .inr ⟨hop, h₂.trans h₀.2⟩
    · exact .inr ⟨hop, h₂⟩

/-- **One block of the scan.** -/
theorem createIndexBlock_spec (hwf : fip.Wf) (hA : Calm A) (hn : n < fip.lebNum)
    (hch : Chain fip True vol b k i) (hi : i ≤ intMax) (h : ScanAt fip vol b k n s) :
    wp A Fed (createIndexBlock fip n)
      (fun _ s' => ScanAt fip vol b k (n + 1) s' ∧ ScanFrame s s') (ScanCut s) s := by
  have htick : ScanFrame s s.tick := ⟨.tick s, rfl⟩
  have h₁ : ScanAt fip vol b k n s.tick := ⟨h.onFlash, h.scanned, h.closed, h.opened, h.rewrite⟩
  simp only [createIndexBlock, wp_bind, wp_attempt]
  -- a block with log page
  have hclosed : ∀ j, j ≤ i → Closed fip True (vol.leb n) j → ¬(OpenAt vol b k ∧ b = n) → ∀ l,
      (vol.leb n).log = .written l → wp A Fed (indexLogged fip n l)
        (fun _ s' => ScanAt fip vol b k (n + 1) s' ∧ ScanFrame s s') (ScanCut s) s.tick := by
    intro j hji hcl hne l hl
    refine wp_mono
      (indexLogged_spec (s := s.tick) hwf hn hch (Int.le_trans hji hi) hcl hl h.scanned) ?_ (fun _ _ he => he)
    rintro _ s' ⟨hsc, hf⟩
    have hfr := htick.trans hf.scan
    exact ⟨h.next hne hfr hsc hf.curOffset hf.logPage (.inl ⟨hf.needRewrite, hf.rewritePage⟩), hfr⟩
  have hread : ∀ l, (vol.leb n).log.read .blank = some l →
      (∀ s', s' = s.tick → wp A Fed (if l.magic = magicNum then indexLogged fip n l
        else indexUnlogged fip n) (fun _ s' => ScanAt fip vol b k (n + 1) s' ∧ ScanFrame s s')
        (ScanCut s) s') →
      wp A Fed (ftlReadLog fip n) (fun l s' => wp A Fed (if l.magic = magicNum then
          indexLogged fip n l else indexUnlogged fip n)
        (fun _ s' => ScanAt fip vol b k (n + 1) s' ∧ ScanFrame s s') (ScanCut s) s')
        (fun e s' => if e.isErrno = true then wp A Fed (ftlErase fip n false)
            (fun _ s' => ScanAt fip vol b k (n + 1) s' ∧ ScanFrame s s') (ScanCut s) s'
          else ScanCut s e s') s := by
    intro l hl hrest
    refine wp_mono (ftlReadLog_spec hA hwf hn (by rw [h.onFlash]; exact hl)) ?_ ?_
    · rintro _ s₁ ⟨rfl, rfl⟩
      exact hrest _ rfl
    · rintro e s' he
      rw [if_neg (by rw [he.1]; simp [Exit.isErrno])]
      exact he
  have hblank : ¬(LogPage.blank.magic = magicNum) := by
    show ¬((-1 : Int) = 722)
    omega
  by_cases hcur : n = b ∧ 0 < k
  · obtain ⟨rfl, hk⟩ := hcur
    obtain ⟨hsh, -, hlog⟩ := hch.cur hk
    rcases hlog with herased | ⟨rfl, hlogged⟩
    · refine hread .blank (by rw [herased]; rfl) ?_
      rintro _ rfl
      rw [if_neg hblank]
      refine wp_mono (indexUnlogged_open hwf hA hch hi ⟨hk, herased⟩ h₁) ?_ fun e s' he => he.trans htick
      exact fun _ s' hs => ⟨hs.1, htick.trans hs.2⟩
    · have hcl : Closed fip True (vol.leb n) i := ⟨hsh, fun _ => hlogged⟩
      obtain ⟨l, hl, hm, -⟩ := hlogged
      refine hread l (by rw [hl]; rfl) ?_
      rintro _ rfl
      rw [if_pos hm]
      exact hclosed i (Int.le_refl i) hcl (fun hc => by rw [hc.1.2] at hl; cases hl) l hl
  · have hne : ¬(OpenAt vol b k ∧ b = n) := fun hc => hcur ⟨hc.2.symm, hc.1.1⟩
    rcases hch.other n hn (by omega) with hstub | ⟨-, j, hj, hcl⟩
    · refine hread .blank (by rw [hstub.2]; rfl) ?_
      rintro _ rfl
      rw [if_neg hblank]
      refine wp_mono (indexUnlogged_stub hwf hA hn hstub hne h₁) ?_ fun e s' he => he.trans htick
      exact fun _ s' hs => ⟨hs.1, htick.trans hs.2⟩
    · obtain ⟨l, hl, hm, -⟩ := hcl.2 trivial
      refine hread l (by rw [hl]; rfl) ?_
      rintro _ rfl
      rw [if_pos hm]
      exact hclosed j (Int.le_of_lt hj) hcl hne l hl

/-- **`create_index`** on the tables `ftl_core_io_init` has cleared. -/
theorem createIndex_spec (hwf : fip.Wf) (hA : Calm A) (hch : Chain fip True s.vol b k i)
    (hi : i ≤ intMax) (hclear : ∀ b' p, s.ftl.pageState b' p = .pageEmpty)
    (hid : s.ftl.blockId = 0) (hstamp : s.ftl.stamp = 0) (hrw : s.needRewrite = false) :
    wp A Fed (createIndex fip)
      (fun _ s' => ScanAt fip s.vol b k fip.lebNum s' ∧ ScanFrame s s') (ScanCut s) s := by
  simp only [createIndex, wp_bind, wp_modifyState]
  have hframe : ScanFrame s (resetIndex fip s) := ⟨⟨rfl, rfl, rfl, rfl, rfl⟩, rfl⟩
  have hnone : ∀ b' p, ¬before 0 0 b' p := fun b' p => by unfold before; omega
  have hindex : ∀ v, v < fip.virtualSectorNum →
      (resetIndex fip s).ftl.sectorIndex v = ftlNomap ∧ (resetIndex fip s).sectorId v = noId :=
    fun v hv => ⟨if_pos hv, if_pos hv⟩
  have hstart : ScanAt fip s.vol b k 0 (resetIndex fip s) := by
    refine ⟨rfl, ?_, fun _ => rfl, fun _ hlt => absurd hlt (Nat.not_lt_zero b), fun hneed => ?_⟩
    · refine ⟨fun v hv => .inl ⟨fun b' p _ _ hs => absurd hs (hnone b' p), hindex v hv⟩,
        fun b' p _ hp => ?_, fun b' p _ _ => ?_, ?_, hstamp.trans hid.symm,
        fun b' p _ _ _ hs => absurd hs (hnone b' p),
        .inl hid⟩
      · show s.ftl.pageState b' p = .pageUsing ↔ _
        rw [hclear]
        refine ⟨fun he => (by cases he), ?_⟩
        rintro ⟨v, hv, hi⟩
        exact absurd (hi.symm.trans (hindex v hv).1) (pageIndex_ne_nomap b' p)
      · exact ⟨fun _ hc => hnone b' p hc.1, fun _ => hclear b' p⟩
      · exact Int.le_of_eq hid.symm
    · have : s.needRewrite = true := hneed
      rw [hrw] at this
      cases this
  refine wp_mono (wp_forUpto (fun n s' => ScanAt fip s.vol b k n s' ∧ ScanFrame s s')
    ⟨hstart, hframe⟩ ?_) (fun _ _ hs => hs) (fun _ _ he => he)
  rintro n hn s₁ ⟨h₁, hf₁⟩
  refine wp_mono (createIndexBlock_spec hwf hA hn hch hi h₁) ?_ fun e s' he => he.trans hf₁
  exact fun _ s' hs => ⟨hs.1, hf₁.trans hs.2⟩

end Block

end Uftl
