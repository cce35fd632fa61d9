/-
  The books of a running driver: the mapping tables, and the pages that they name.

  `Books X f vol D` says of tables `f` what `scrub_block` and `garbage_checking` rely on: each mapped
  sector has a page of its own with its data `D`, a page is `PAGE_USING` exactly if a sector maps to
  it (or it is in `X`, the copies that were superseded), `using_page` counts these pages, and each
  block is free, being filled, or has no empty page.  It says nothing of log pages and ids, so that
  it also holds where `InvAt` is lost: after a flash operation that failed.

  1. the invariant, and that a running driver keeps it (`InvAt.books`);
  2. `get_new_page` (`Advanced`), and a page that is programmed (`Books.append`);
  3. a block that is recycled (`Books.recycle`).
-/
import FlashStack.Uftl.Writing

namespace Uftl

open Lib Lib.Prog

variable {fip : UftlInfo} {L : Prop}

/-- `sector_index` of `v` is `idx`, and the data there is `d`. -/
def Held (fip : UftlInfo) (vol : Volume) (v : Nat) (idx : Int) : Option (Nat → Sector) → Prop
  | none => idx = ftlNomap
  | some d => ∃ b p pg, idx = fip.pageIndex b p ∧ b < fip.lebNum ∧ p < fip.ftlPageNum ∧
      (vol.leb b).page p = .written pg ∧ pg.log.sector = v ∧ pg.data = d

/-- The tables agree with the volume: who uses which page, and which blocks are free. -/
structure Books (fip : UftlInfo) (X : Nat → Nat → Prop) (f : Ftl) (vol : Volume)
    (D : Nat → Option (Nat → Sector)) : Prop where
  curBlock : 0 ≤ f.curOffset.block ∧ f.curOffset.block < fip.lebNum
  curPage : -1 ≤ f.curOffset.page ∧ f.curOffset.page < fip.ftlPageNum
  current : ∀ b p : Nat, (b : Int) = f.curOffset.block → p < fip.ftlPageNum →
    (f.pageState b p = .pageEmpty ↔ f.curOffset.page < p)
  held : ∀ v, v < fip.virtualSectorNum → Held fip vol v (f.sectorIndex v) (D v)
  inUse : ∀ b p, b < fip.lebNum → p < fip.ftlPageNum →
    (f.pageState b p = .pageUsing ↔ f.Live fip b p ∨ X b p)
  orphan : ∀ b p, X b p → b < fip.lebNum ∧ p < fip.ftlPageNum ∧ ¬f.Live fip b p
  count : ∀ b, b < fip.lebNum → f.usingPage b = f.countUsing fip b
  erased : ∀ b p, b < fip.lebNum → p < fip.ftlPageNum → f.pageState b p = .pageEmpty →
    (vol.leb b).page p = .erased
  nodup : f.emptyBlockFifo.items.Nodup
  fifo : ∀ b ∈ f.emptyBlockFifo.items, b < fip.lebNum ∧ (b : Int) ≠ f.curOffset.block ∧
    ∀ p, p < fip.ftlPageNum → f.pageState b p = .pageEmpty
  cover : ∀ b, b < fip.lebNum → b ∈ f.emptyBlockFifo.items ∨ (b : Int) = f.curOffset.block ∨
    ∀ p, p < fip.ftlPageNum → f.pageState b p ≠ .pageEmpty

/-! ## The invariant -/

section Invariant

variable {X : Nat → Nat → Prop} {f : Ftl} {vol : Volume} {D : Nat → Option (Nat → Sector)}

/-- What the index leads to is held. -/
theorem Indexed.held {v : Nat} {idx : Int} {d : Option (Nat → Sector)}
    (h : Indexed fip vol v idx d) : Held fip vol v idx d := by
  cases d with
  | none => exact h.1
  | some d =>
    obtain ⟨b, p, pg, hidx, hn, hpg, hd⟩ := h
    exact ⟨b, p, pg, hidx, hn.block_lt, hn.page_lt, hpg, (hn.sector hpg).1, hd⟩

/-- A running driver keeps its books. -/
theorem InvAt.books {b k : Nat} (h : InvAt fip L X b k f vol D)
    (hpos : f.curOffset.page = (k : Int) - 1) (hcap : fip.lebNum ≤ f.emptyBlockFifo.cap) :
    Books fip X f vol D where
  curBlock := by
    have hlt := h.chain.lt
    rw [h.curBlock]
    omega
  curPage := by
    have hle := h.le
    rw [hpos]
    omega
  current := by
    intro b' p hb' hp
    have hbb : b' = b := by
      rw [h.curBlock] at hb'
      omega
    rw [hbb, h.empty b p h.chain.lt hp, hpos]
    constructor
    · -- a page that was filled is not empty
      intro he
      by_contra hlt
      obtain ⟨pg, hpg, -⟩ := (h.chain.cur (by omega)).1.head p (by omega)
      rw [he] at hpg
      cases hpg
    · -- those behind it are clean
      intro hlt
      exact h.clean p (by omega) hp
  held := fun v hv => (h.index v hv).held
  inUse := h.inUse
  orphan := h.orphan
  count := h.count
  erased := fun b' p hb' hp he => (h.empty b' p hb' hp).mp he
  nodup := h.nodup
  fifo := by
    intro b' hb'
    obtain ⟨hlt, hne, hblank⟩ := h.fifo b' hb'
    refine ⟨hlt, ?_, fun p hp => (h.empty b' p hlt hp).mpr (hblank.1 p hp)⟩
    rw [h.curBlock]
    omega
  cover := by
    intro b' hb'
    by_cases hbb : b' = b
    · exact .inr (.inl (by rw [h.curBlock, hbb]))
    · -- It is blank, and then queued, or closed, and then none of its pages is empty.
      rcases h.others b' hb' hbb with hblank | ⟨j, hclosed⟩
      · exact .inl (h.queued hcap b' hb' hbb hblank)
      · refine .inr (.inr fun p hp he => ?_)
        obtain ⟨pg, hpg, -⟩ := hclosed.1.head p hp
        rw [(h.empty b' p hb' hp).mp he] at hpg
        cases hpg

/-- The books do not mention the log page that is being made up. -/
theorem Books.setLogPage (h : Books fip X f vol D) (l : LogPage) :
    Books fip X { f with blockLogPage := l } vol D :=
  ⟨h.curBlock, h.curPage, h.current, h.held, h.inUse, h.orphan, h.count, h.erased, h.nodup, h.fifo,
    h.cover⟩

/-- It stays where it is. -/
theorem Held.same {vol' : Volume} {v : Nat} {idx : Int} {d : Option (Nat → Sector)}
    (h : Held fip vol v idx d)
    (hsame : ∀ b p pg, idx = fip.pageIndex b p → p < fip.ftlPageNum → (vol.leb b).page p = .written pg →
      (vol'.leb b).page p = .written pg) : Held fip vol' v idx d := by
  cases d with
  | none => exact h
  | some d =>
    obtain ⟨b, p, pg, hidx, hb, hp, hpg, hv, hd⟩ := h
    exact ⟨b, p, pg, hidx, hb, hp, hsame b p pg hidx hp hpg, hv, hd⟩

/-- Nor log pages on flash. -/
theorem Books.samePages {vol' : Volume} (h : Books fip X f vol D)
    (hsame : ∀ b p, (vol'.leb b).page p = (vol.leb b).page p) : Books fip X f vol' D :=
  ⟨h.curBlock, h.curPage, h.current,
    fun v hv => (h.held v hv).same fun b p _ _ _ hpg => (hsame b p).trans hpg, h.inUse, h.orphan,
    h.count, fun b p hb hp he => (hsame b p).trans (h.erased b p hb hp he), h.nodup, h.fifo, h.cover⟩

/-- A page that a sector maps to. -/
theorem Books.live_page (h : Books fip X f vol D) {b p v : Nat} (hv : v < fip.virtualSectorNum)
    (hp : p < fip.ftlPageNum) (hi : f.sectorIndex v = fip.pageIndex b p) :
    b < fip.lebNum ∧ ∃ pg, (vol.leb b).page p = .written pg ∧ pg.log.sector = v ∧
      D v = some pg.data := by
  have hheld := h.held v hv
  cases hD : D v with
  | none =>
    rw [hD] at hheld
    exact absurd (hi.symm.trans hheld) (pageIndex_ne_nomap b p)
  | some d =>
    rw [hD] at hheld
    obtain ⟨b', p', pg, hidx, hb', hp', hpg, hs, rfl⟩ := hheld
    obtain ⟨rfl, rfl⟩ := pageIndex_inj hp hp' (hi.symm.trans hidx)
    exact ⟨hb', pg, hpg, hs, rfl⟩

/-- Different sectors map to different pages. -/
theorem Books.injective (h : Books fip X f vol D) {v w b p : Nat} (hv : v < fip.virtualSectorNum)
    (hw : w < fip.virtualSectorNum) (hp : p < fip.ftlPageNum)
    (hiv : f.sectorIndex v = fip.pageIndex b p) (hiw : f.sectorIndex w = fip.pageIndex b p) :
    v = w := by
  obtain ⟨-, pg, hpg, hsv, -⟩ := h.live_page hv hp hiv
  obtain ⟨-, pg', hpg', hsw, -⟩ := h.live_page hw hp hiw
  rw [hpg] at hpg'
  cases hpg'
  omega

end Invariant

/-! ## A new page -/

/-- There is no page left to write to. -/
def Ftl.NoPage (fip : UftlInfo) (f : Ftl) : Prop :=
  f.curOffset.page + 1 = fip.ftlPageNum ∧ f.emptyBlockFifo.items = []

/-- What `get_new_page` does when it returns page `k` of block `b`: it moves on within the block, or
    opens the first free one. -/
def Advanced (fip : UftlInfo) (f f' : Ftl) (b k : Nat) : Prop :=
  f.curOffset.page + 1 ≠ fip.ftlPageNum ∧ (b : Int) = f.curOffset.block ∧
      (k : Int) = f.curOffset.page + 1 ∧ f' = { f with curOffset := ⟨b, k⟩ } ∨
    f.curOffset.page + 1 = fip.ftlPageNum ∧ k = 0 ∧
      ∃ rest, f.emptyBlockFifo.items = b :: rest ∧ f' = f.nextBlock b rest

section Append

variable {X : Nat → Nat → Prop} {f f' : Ftl} {vol : Volume} {D : Nat → Option (Nat → Sector)}
  {b k v : Nat}

/-- The page tables are not touched. -/
theorem Advanced.tables (h : Advanced fip f f' b k) : f'.sectorIndex = f.sectorIndex ∧
    f'.pageState = f.pageState ∧ f'.usingPage = f.usingPage ∧ f'.curOffset = ⟨b, k⟩ ∧
    f'.emptyBlockFifo.cap = f.emptyBlockFifo.cap := by
  rcases h with ⟨-, -, -, rfl⟩ | ⟨-, rfl, rest, -, rfl⟩
  · exact ⟨rfl, rfl, rfl, rfl, rfl⟩
  · exact ⟨rfl, rfl, rfl, rfl, rfl⟩

theorem Advanced.not_noPage (h : Advanced fip f f' b k) : ¬f.NoPage fip := by
  rintro ⟨hfull, hnil⟩
  rcases h with ⟨hne, -⟩ | ⟨-, -, rest, hq, -⟩
  · exact hne hfull
  · rw [hnil] at hq
    cases hq

/-- No block is freed by handing out a page. -/
theorem Advanced.mem (h : Advanced fip f f' b k) {a : Nat} (ha : a ∈ f'.emptyBlockFifo.items) :
    a ∈ f.emptyBlockFifo.items := by
  rcases h with ⟨-, -, -, rfl⟩ | ⟨-, -, rest, hq, rfl⟩
  · exact ha
  · rw [hq]
    exact List.mem_cons_of_mem _ ha

/-- The new page is empty. -/
theorem Advanced.empty (h : Advanced fip f f' b k) (hwf : fip.Wf) (hb : Books fip X f vol D) :
    b < fip.lebNum ∧ k < fip.ftlPageNum ∧ f.pageState b k = .pageEmpty := by
  have hP := hwf.page_pos
  have hcur := hb.curBlock
  have hpage := hb.curPage
  rcases h with ⟨hne, hblk, hk, -⟩ | ⟨-, rfl, rest, hq, -⟩
  · refine ⟨by omega, by omega, (hb.current b k hblk (by omega)).mpr (by omega)⟩
  · obtain ⟨hlt, -, hempty⟩ := hb.fifo b (by rw [hq]; exact List.mem_cons_self ..)
    exact ⟨hlt, hP, hempty 0 hP⟩

/-- One page less to write to. -/
theorem Advanced.room (h : Advanced fip f f' b k) : f'.room fip + 1 = f.room fip := by
  unfold Ftl.room
  rcases h with ⟨-, -, hk, rfl⟩ | ⟨hfull, rfl, rest, hq, rfl⟩
  · dsimp only
    omega
  · rw [hq, List.length_cons]
    unfold Ftl.nextBlock
    push_cast
    rw [Int.mul_add]
    omega

/-- **append**: sector `v` is mapped to the new page, which is programmed with its data. -/
theorem Books.append {pg : Page} (hwf : fip.Wf) (h : Books fip X f vol D)
    (hadv : Advanced fip f f' b k) (hv : v < fip.virtualSectorNum) (hs : pg.log.sector = v)
    (hD : D v = some pg.data) :
    Books fip (orphaned fip X f v) (f'.mapTo fip b k v) (vol.setPage b k (.written pg)) D := by
  obtain ⟨hb, hk, hempty⟩ := hadv.empty hwf h
  obtain ⟨hindex, hstate, husing, hcur, -⟩ := hadv.tables
  have hbk := h.erased b k hb hk hempty
  have hnotlive : ¬(f.Live fip b k ∨ X b k) := fun hc => by
    have := (h.inUse b k hb hk).mpr hc
    rw [hempty] at this
    cases this
  have hpage : ∀ b' p, ¬(b' = b ∧ p = k) →
      ((vol.setPage b k (.written pg)).leb b').page p = (vol.leb b').page p := by
    intro b' p hne
    by_cases hbb : b' = b
    · subst hbb
      rw [Volume.setPage, Volume.setLeb_same, Leb.setPage_other _ _ fun hp => hne ⟨rfl, hp⟩]
    · rw [Volume.setPage, Volume.setLeb_other _ _ hbb]
  have hstate' : ∀ b' p, (f'.mapTo fip b k v).pageState b' p =
      if b' = b ∧ p = k then .pageUsing else f.pageState b' p := by
    intro b' p
    rw [mapTo_pageState, hstate]
  have hlive : ∀ b' p, p < fip.ftlPageNum → ((f'.mapTo fip b k v).Live fip b' p ↔
      b' = b ∧ p = k ∨ ∃ w, w < fip.virtualSectorNum ∧ w ≠ v ∧ f.sectorIndex w = fip.pageIndex b' p) := by
    intro b' p hp
    rw [live_mapTo hv hk hp, hindex]
  have hcur' : (f'.mapTo fip b k v).curOffset = ⟨b, k⟩ := hcur
  refine
    { curBlock := ?_, curPage := ?_, current := ?_, held := ?_, inUse := ?_, orphan := ?_, count := ?_
      erased := ?_, nodup := ?_, fifo := ?_, cover := ?_ }
  · rw [hcur']
    show (0 : Int) ≤ b ∧ (b : Int) < fip.lebNum
    omega
  · rw [hcur']
    show (-1 : Int) ≤ k ∧ (k : Int) < fip.ftlPageNum
    omega
  · intro b' p hb' hp
    rw [hcur'] at hb' ⊢
    change (b' : Int) = b at hb'
    have hbb : b' = b := by omega
    subst hbb
    rw [hstate']
    by_cases hpk : p = k
    · simp [hpk]
    · rw [if_neg fun hc => hpk hc.2]
      show _ ↔ (k : Int) < p
      rcases hadv with ⟨-, hblk, hk', -⟩ | ⟨-, rfl, rest, hq, -⟩
      · rw [h.current b' p hblk hp]
        omega
      · have hall := (h.fifo b' (by rw [hq]; exact List.mem_cons_self ..)).2.2 p hp
        exact iff_of_true hall (by omega)
  · intro w hw
    have hi : (f'.mapTo fip b k v).sectorIndex w =
        if w = v then fip.pageIndex b k else f.sectorIndex w := by
      show Function.update f'.sectorIndex v _ w = _
      rw [hindex]
      by_cases hwv : w = v
      · rw [if_pos hwv, hwv, Function.update_self]
      · rw [if_neg hwv, Function.update_of_ne hwv]
    rw [hi]
    by_cases hwv : w = v
    · rw [if_pos hwv, hwv, hD]
      refine ⟨b, k, pg, rfl, hb, hk, ?_, hs, rfl⟩
      rw [Volume.setPage, Volume.setLeb_same, Leb.setPage_same]
    · rw [if_neg hwv]
      apply (h.held w hw).same
      intro b' p pg' _ _ hpg'
      rw [hpage b' p, hpg']
      rintro ⟨rfl, rfl⟩
      rw [hbk] at hpg'
      cases hpg'
  · intro b' p hb' hp
    rw [hstate', hlive b' p hp]
    split
    · exact ⟨fun _ => .inl (.inl ‹_›), fun _ => rfl⟩
    · rename_i hne
      rw [h.inUse b' p hb' hp]
      constructor
      · rintro (⟨w, hw, hi⟩ | hX)
        · by_cases hwv : w = v
          · exact .inr (.inr ⟨hb', hp, hwv ▸ hi⟩)
          · exact .inl (.inr ⟨w, hw, hwv, hi⟩)
        · exact .inr (.inl hX)
      · rintro ((hc | ⟨w, hw, -, hi⟩) | (hX | ⟨-, -, hi⟩))
        · exact absurd hc hne
        · exact .inl ⟨w, hw, hi⟩
        · exact .inr hX
        · exact .inl ⟨v, hv, hi⟩
  · intro b' p hX
    have hcase : b' < fip.lebNum ∧ p < fip.ftlPageNum ∧ ¬(b' = b ∧ p = k) ∧
        ∀ w, w < fip.virtualSectorNum → w ≠ v → f.sectorIndex w ≠ fip.pageIndex b' p := by
      rcases hX with hX | ⟨hb', hp, hi⟩
      · obtain ⟨hb', hp, hnl⟩ := h.orphan b' p hX
        exact ⟨hb', hp, by rintro ⟨rfl, rfl⟩; exact hnotlive (.inr hX),
          fun w hw _ hi => hnl ⟨w, hw, hi⟩⟩
      · exact ⟨hb', hp, by rintro ⟨rfl, rfl⟩; exact hnotlive (.inl ⟨v, hv, hi⟩),
          fun w hw hwv hiw => hwv (h.injective hw hv hp hiw hi)⟩
    obtain ⟨hb', hp, hne, hno⟩ := hcase
    refine ⟨hb', hp, ?_⟩
    rw [hlive b' p hp]
    rintro (hc | ⟨w, hw, hwv, hi⟩)
    · exact hne hc
    · exact hno w hw hwv hi
  · intro b' hb'
    apply mapTo_count hk
    · rw [hstate, hempty]
      simp
    · rw [husing, h.count b' hb']
      unfold Ftl.countUsing
      rw [hstate]
  · intro b' p hb' hp he
    rw [hstate'] at he
    split at he
    · cases he
    · rename_i hne
      rw [hpage b' p hne]
      exact h.erased b' p hb' hp he
  · show f'.emptyBlockFifo.items.Nodup
    rcases hadv with ⟨-, -, -, rfl⟩ | ⟨-, -, rest, hq, rfl⟩
    · exact h.nodup
    · exact (List.nodup_cons.mp (hq ▸ h.nodup)).2
  · intro a ha
    change a ∈ f'.emptyBlockFifo.items at ha
    obtain ⟨hlt, hne, hall⟩ := h.fifo a (hadv.mem ha)
    have hab : a ≠ b := by
      rcases hadv with ⟨-, hblk, -, -⟩ | ⟨-, -, rest, hq, rfl⟩
      · rintro rfl
        exact hne hblk
      · rintro rfl
        exact (List.nodup_cons.mp (hq ▸ h.nodup)).1 ha
    refine ⟨hlt, ?_, fun p hp => ?_⟩
    · rw [hcur']
      show (a : Int) ≠ b
      omega
    · rw [hstate', if_neg fun hc => hab hc.1]
      exact hall p hp
  · intro a ha
    rw [hcur']
    by_cases hab : a = b
    · exact .inr (.inl (by rw [hab]))
    have hkeep : (∀ p, p < fip.ftlPageNum → f.pageState a p ≠ .pageEmpty) →
        ∀ p, p < fip.ftlPageNum → (f'.mapTo fip b k v).pageState a p ≠ .pageEmpty := by
      intro hall p hp
      rw [hstate', if_neg fun hc => hab hc.1]
      exact hall p hp
    rcases h.cover a ha with hmem | hcur | hall
    · rcases hadv with ⟨-, -, -, rfl⟩ | ⟨-, -, rest, hq, rfl⟩
      · exact .inl hmem
      · rw [hq] at hmem
        exact .inl ((List.mem_cons.mp hmem).resolve_left hab)
    · -- the block that was left is full
      rcases hadv with ⟨-, hblk, -, -⟩ | ⟨hfull, -, rest, hq, -⟩
      · exact absurd (by omega) hab
      · refine .inr (.inr (hkeep fun p hp he => ?_))
        have := (h.current a p hcur hp).mp he
        omega
    · exact .inr (.inr (hkeep hall))

end Append

/-! ## A block without live pages -/

section Recycle

variable {X : Nat → Nat → Prop} {f : Ftl} {vol : Volume} {D : Nat → Option (Nat → Sector)} {B : Nat}

/-- A block that is not free has room in the fifo. -/
theorem Books.fifo_room (h : Books fip X f vol D) (hB : B < fip.lebNum)
    (hfree : B ∉ f.emptyBlockFifo.items) (hcap : fip.lebNum ≤ f.emptyBlockFifo.cap) :
    f.emptyBlockFifo.items.length < f.emptyBlockFifo.cap :=
  (length_lt_of_nodup h.nodup (fun a ha => (h.fifo a ha).1) hB hfree).trans_le hcap

/-- **recycle**: a block that no sector maps to is unmapped and queued. -/
theorem Books.recycle (h : Books fip X f vol D) (hB : B < fip.lebNum)
    (hne : (B : Int) ≠ f.curOffset.block) (hno : ∀ p, p < fip.ftlPageNum → ¬f.Live fip B p)
    (hfree : B ∉ f.emptyBlockFifo.items) (hcap : fip.lebNum ≤ f.emptyBlockFifo.cap) :
    Books fip (fun b p => X b p ∧ b ≠ B) ((f.pushBlock B).clearBlock B) (vol.unmap B) D := by
  have hroom := h.fifo_room hB hfree hcap
  have hpush : f.pushBlock B = { f with emptyBlockFifo :=
      { f.emptyBlockFifo with items := f.emptyBlockFifo.items ++ [B] } } := if_pos hroom
  have hstate : ∀ b p, ((f.pushBlock B).clearBlock B).pageState b p =
      if b = B then .pageEmpty else f.pageState b p := by
    intro b p
    rw [clearBlock_pageState, Ftl.pushBlock_pageState]
  have hcur : ((f.pushBlock B).clearBlock B).curOffset = f.curOffset := Ftl.pushBlock_curOffset ..
  have hitems : ((f.pushBlock B).clearBlock B).emptyBlockFifo.items =
      f.emptyBlockFifo.items ++ [B] := by
    rw [hpush]
    rfl
  have hindex : ((f.pushBlock B).clearBlock B).sectorIndex = f.sectorIndex :=
    Ftl.pushBlock_sectorIndex ..
  have hlive : ∀ b p, ((f.pushBlock B).clearBlock B).Live fip b p ↔ f.Live fip b p := by
    intro b p
    unfold Ftl.Live
    rw [hindex]
  refine
    { curBlock := ?_, curPage := ?_, current := ?_, held := ?_, inUse := ?_, orphan := ?_
      count := fun b hb => recycle_count (h.count b hb), erased := ?_, nodup := ?_, fifo := ?_
      cover := ?_ }
  · rw [hcur]
    exact h.curBlock
  · rw [hcur]
    exact h.curPage
  · intro b p hb hp
    rw [hcur] at hb ⊢
    rw [hstate, if_neg (by rintro rfl; exact hne hb)]
    exact h.current b p hb hp
  · -- held: the page of a sector is not in `B`
    intro v hv
    rw [hindex]
    apply (h.held v hv).same
    intro b p pg hidx hp hpg
    have hbB : b ≠ B := by
      rintro rfl
      exact hno p hp ⟨v, hv, hidx⟩
    rwa [Volume.unmap_other _ hbB]
  · -- inUse: `B` has no live page, and its orphans go with it
    intro b p hb hp
    rw [hstate, hlive]
    split
    · rename_i hbB
      subst hbB
      refine ⟨fun hc => (by cases hc), fun hc => ?_⟩
      rcases hc with hl | hX
      · exact absurd hl (hno p hp)
      · exact absurd rfl hX.2
    · rename_i hbB
      rw [h.inUse b p hb hp]
      exact or_congr_right ⟨fun hX => ⟨hX, hbB⟩, fun hX => hX.1⟩
  · rintro b p ⟨hX, -⟩
    rw [hlive]
    exact h.orphan b p hX
  · -- erased: `B` is unmapped
    intro b p hb hp he
    by_cases hbB : b = B
    · rw [hbB, Volume.unmap_same]
      rfl
    · rw [hstate, if_neg hbB] at he
      rw [Volume.unmap_other _ hbB]
      exact h.erased b p hb hp he
  · rw [hitems]
    refine List.nodup_append.mpr ⟨h.nodup, List.nodup_singleton B, fun a ha a' ha' => ?_⟩
    rw [List.mem_singleton.mp ha']
    rintro rfl
    exact hfree ha
  · -- fifo: `B` is empty and not current
    intro b hb
    rw [hitems, List.mem_append, List.mem_singleton] at hb
    rw [hcur]
    rcases hb with hb | rfl
    · obtain ⟨hlt, hcurb, hall⟩ := h.fifo b hb
      refine ⟨hlt, hcurb, fun p hp => ?_⟩
      rw [hstate, if_neg (by rintro rfl; exact hfree hb)]
      exact hall p hp
    · exact ⟨hB, hne, fun p _ => by rw [hstate, if_pos rfl]⟩
  · -- cover: `B` is queued, all others are what they were
    intro b hb
    rw [hitems, hcur]
    by_cases hbB : b = B
    · exact .inl (List.mem_append_right _ (List.mem_singleton.mpr hbB))
    · rcases h.cover b hb with hmem | hc | hall
      · exact .inl (List.mem_append_left _ hmem)
      · exact .inr (.inl hc)
      · refine .inr (.inr fun p hp => ?_)
        rw [hstate, if_neg hbB]
        exact hall p hp

end Recycle

end Uftl
