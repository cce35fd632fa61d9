/-
  The invariant of a running driver, between page writes and within them.

  `InvAt X b k f vol D` relates the mapping tables `f` to the flash `vol`: block `b` is being
  filled and has `k` pages, `sector_index` names the newest copy of each virtual sector and `D` is
  the data there, the page states and `using_page` agree with `sector_index`, and the fifo holds
  blank blocks.  `X` is the set of ORPHANS: pages still marked `PAGE_USING` that no virtual sector
  maps to any more.  There are none between operations; `scrub_block` creates them one by one and
  removes them all when it recycles the block.

  Everything `sync_one_buf` and `scrub_block` do to the tables is a sequence of four transitions:

  * `InvAt.append`    — program a page, map a sector to it (its old page becomes an orphan);
  * `InvAt.discard`   — mark an orphan `PAGE_DISCARD`;
  * `InvAt.recycle`   — unmap a block no sector maps to and queue it (its orphans disappear);
  * `InvAt.nextBlock` — leave the full block and open a queued one.
-/
import FlashStack.Uftl.Layout
import Mathlib.Data.List.Nodup

namespace Uftl

variable {fip : UftlInfo} {L : Prop}

/-! ## Page indices -/

/-- `block * ftl_page_num + page`. -/
def UftlInfo.pageIndex (fip : UftlInfo) (b p : Nat) : Int := b * fip.ftlPageNum + p

/-- Block and page can be told from the index. -/
theorem pageIndex_tdiv {b p : Nat} (h : p < fip.ftlPageNum) :
    (fip.pageIndex b p).tdiv fip.ftlPageNum = b := by
  have : fip.pageIndex b p = ((b * fip.ftlPageNum + p : Nat) : Int) := by
    simp [UftlInfo.pageIndex]
  rw [this, ← Int.ofNat_tdiv, Nat.mul_comm, Nat.mul_add_div (by omega), Nat.div_eq_of_lt h]
  rfl

theorem pageIndex_tmod {b p : Nat} (h : p < fip.ftlPageNum) :
    (fip.pageIndex b p).tmod fip.ftlPageNum = p := by
  have : fip.pageIndex b p = ((b * fip.ftlPageNum + p : Nat) : Int) := by
    simp [UftlInfo.pageIndex]
  rw [this, ← Int.ofNat_tmod, Nat.mul_comm, Nat.mul_add_mod, Nat.mod_eq_of_lt h]

theorem pageIndex_nonneg (b p : Nat) : 0 ≤ fip.pageIndex b p := by
  have : fip.pageIndex b p = ((b * fip.ftlPageNum + p : Nat) : Int) := by
    simp [UftlInfo.pageIndex]
  omega

/-- The index of a page is not that of no page. -/
theorem pageIndex_ne_nomap (b p : Nat) : fip.pageIndex b p ≠ ftlNomap := by
  have : 0 ≤ fip.pageIndex b p := pageIndex_nonneg b p
  unfold ftlNomap
  omega

theorem pageIndex_inj {b p b' p' : Nat} (hp : p < fip.ftlPageNum) (hp' : p' < fip.ftlPageNum)
    (h : fip.pageIndex b p = fip.pageIndex b' p') : b = b' ∧ p = p' := by
  have hd := pageIndex_tdiv (b := b) hp
  have hm := pageIndex_tmod (b := b) hp
  rw [h, pageIndex_tdiv hp'] at hd
  rw [h, pageIndex_tmod hp'] at hm
  exact ⟨by omega, by omega⟩

/-! ## Copies under the flash operations -/

/-- The written pages of virtual sector `v` are the same on both volumes. -/
def SameCopies (fip : UftlInfo) (vol vol' : Volume) (v : Nat) : Prop :=
  ∀ b p pg, b < fip.lebNum → p < fip.ftlPageNum → pg.log.sector = (v : Int) →
    ((vol'.leb b).page p = .written pg ↔ (vol.leb b).page p = .written pg)

/-- The copies of a sector are the same ones. -/
theorem SameCopies.copy {vol vol' : Volume} {v b p : Nat} {j : Int} (h : SameCopies fip vol vol' v)
    (hb : b < fip.lebNum) : Copy fip (vol'.leb b) p v j ↔ Copy fip (vol.leb b) p v j := by
  constructor
  · rintro ⟨hp, pg, hpg, hv, hj⟩
    exact ⟨hp, pg, (h b p pg hb hp hv).mp hpg, hv, hj⟩
  · rintro ⟨hp, pg, hpg, hv, hj⟩
    exact ⟨hp, pg, (h b p pg hb hp hv).mpr hpg, hv, hj⟩

theorem SameCopies.newest {vol vol' : Volume} {v b p : Nat} (h : SameCopies fip vol vol' v)
    (hn : Newest fip vol v b p) : Newest fip vol' v b p := by
  obtain ⟨hb, i, hc, hmax⟩ := hn
  exact ⟨hb, i, (h.copy hb).mpr hc, fun b' q j hb' hq => hmax b' q j hb' ((h.copy hb').mp hq)⟩

/-- The written page behind a newest copy carries its sector. -/
theorem Newest.sector {vol : Volume} {v b p : Nat} {pg : Page} (h : Newest fip vol v b p)
    (hpg : (vol.leb b).page p = .written pg) : pg.log.sector = v ∧ p < fip.ftlPageNum := by
  obtain ⟨-, i, ⟨hp, pg', hpg', hv, -⟩, -⟩ := h
  rw [hpg] at hpg'
  cases hpg'
  exact ⟨hv, hp⟩

/-- The newest copy is on a data page. -/
theorem Newest.page_lt {vol : Volume} {v b p : Nat} (h : Newest fip vol v b p) :
    p < fip.ftlPageNum := by
  obtain ⟨-, _, hc, -⟩ := h
  exact hc.1

theorem Newest.block_lt {vol : Volume} {v b p : Nat} (h : Newest fip vol v b p) :
    b < fip.lebNum := h.1

/-- Unmapping a block keeps the newest copies in the other blocks. -/
theorem Newest.unmap {vol : Volume} {v b p b' : Nat} (h : Newest fip vol v b p) (hne : b ≠ b') :
    Newest fip (vol.unmap b') v b p := by
  obtain ⟨hb, i, hc, hmax⟩ := h
  refine ⟨hb, i, by rwa [Volume.unmap_other _ hne], fun b'' q j hb'' hq => ?_⟩
  by_cases hbb : b'' = b'
  · subst hbb
    rw [Volume.unmap_same] at hq
    exact absurd hq blank_unmapped.stub.no_copy
  · rw [Volume.unmap_other _ hbb] at hq
    exact hmax b'' q j hb'' hq

/-- Programming a page leaves the copies of the other sectors alone. -/
theorem sameCopies_setPage {vol : Volume} {b k v : Nat} {c : Cell Page}
    (hk : (vol.leb b).page k = .erased) (hc : ∀ pg, c = .written pg → pg.log.sector ≠ (v : Int)) :
    SameCopies fip vol (vol.setPage b k c) v := by
  intro b' p pg _ _ hv
  by_cases hb : b' = b
  · subst hb
    rw [Volume.setPage, Volume.setLeb_same]
    by_cases hp : p = k
    · subst hp
      rw [Leb.setPage_same, hk]
      exact ⟨fun h => absurd hv (hc pg h), fun h => by cases h⟩
    · rw [Leb.setPage_other _ _ hp]
  · rw [Volume.setPage, Volume.setLeb_other _ _ hb]

/-- A page programmed in the block that is being filled is the newest copy of its sector. -/
theorem Chain.newest_last {vol : Volume} {b k v : Nat} {i : Int}
    (h : Chain fip L vol b (k + 1) i) (hc : Copy fip (vol.leb b) k v i) : Newest fip vol v b k := by
  refine ⟨h.lt, i, hc, fun b' q j hb' hq => ?_⟩
  have hle := (h.copy hb' hq).2.2.2
  unfold StampLe
  omega

/-- Setting an erased page keeps the copies of a block. -/
theorem Copy.setPage {c : Leb} {k p v : Nat} {j : Int} {x : Cell Page} (h : Copy fip c p v j)
    (hk : c.page k = .erased) : Copy fip (c.setPage k x) p v j := by
  obtain ⟨hp, pg, hpg, hv, hj⟩ := h
  have hne : p ≠ k := by
    rintro rfl
    rw [hk] at hpg
    cases hpg
  exact ⟨hp, pg, by rwa [Leb.setPage_other _ _ hne], hv, hj⟩

/-- Tearing the next page. -/
theorem Chain.tear {vol : Volume} {b k : Nat} {i : Int} (h : Chain fip L vol b k i)
    (hk : k < fip.ftlPageNum)
    (hclean : ∀ p, k ≤ p → p < fip.ftlPageNum → (vol.leb b).page p = .erased)
    (hlog : (vol.leb b).log = .erased) : Chain fip L (vol.setPage b k .torn) b k i := by
  have htail : ∀ p, k ≤ p → p < fip.ftlPageNum →
      ((vol.leb b).setPage k .torn).page p = .erased ∨
      p = k ∧ ((vol.leb b).setPage k .torn).page p = .torn := by
    intro p hp hpP
    by_cases hpk : p = k
    · exact .inr ⟨hpk, by rw [hpk, Leb.setPage_same]⟩
    · exact .inl (by rw [Leb.setPage_other _ _ hpk]; exact hclean p hp hpP)
  refine h.rewrite (fun h0 => ?_) (fun h0 => ?_)
    fun p v j hc => hc.setPage (hclean k (Nat.le_refl k) hk)
  · obtain ⟨hs, -, -⟩ := h.cur h0
    refine ⟨⟨hs.le, fun p hp => ?_, htail⟩, rfl, .inl hlog⟩
    rw [Leb.setPage_other _ _ (by omega)]
    exact hs.head p hp
  · subst h0
    exact ⟨⟨Nat.zero_le _, fun p hp => absurd hp (Nat.not_lt_zero p), htail⟩, hlog⟩

/-- Programming the next page. -/
theorem Chain.program {vol : Volume} {b k : Nat} {i : Int} {pg : Page} (h : Chain fip L vol b k i)
    (hk : k < fip.ftlPageNum)
    (hclean : ∀ p, k ≤ p → p < fip.ftlPageNum → (vol.leb b).page p = .erased)
    (hlog : (vol.leb b).log = .erased) (hg : Good fip i pg) :
    Chain fip L (vol.setPage b k (.written pg)) b (k + 1) i := by
  refine h.rewrite (fun _ => ⟨⟨hk, fun p hp => ?_, fun p hp hpP => .inl ?_⟩, rfl, .inl hlog⟩)
    (fun h0 => absurd h0 (Nat.succ_ne_zero k))
    fun p v j hc => hc.setPage (hclean k (Nat.le_refl k) hk)
  · by_cases hpk : p = k
    · exact ⟨pg, by rw [hpk, Leb.setPage_same], hg⟩
    · rw [Leb.setPage_other _ _ hpk]
      exact (h.cur (by omega)).1.head p (by omega)
  · rw [Leb.setPage_other _ _ (by omega)]
    exact hclean p (by omega) hpP

/-- Writing the log page of the full block. -/
theorem Chain.writeLog {vol : Volume} {b : Nat} {i : Int} {l : LogPage}
    (h : Chain fip L vol b fip.ftlPageNum i) (hP : 0 < fip.ftlPageNum) (hm : l.magic = magicNum)
    (hi : l.id = wrapInt i)
    (hl : ∀ p, p < fip.ftlPageNum → ∀ pg, (vol.leb b).page p = .written pg →
      l.entry p = pg.log.sector) :
    Chain fip L (vol.setLog b (.written l)) b fip.ftlPageNum i ∧
      LogOk fip ((vol.setLog b (.written l)).leb b) i := by
  have hs := (h.cur hP).1
  have hlog : LogOk fip ((vol.leb b).setLog (.written l)) i :=
    ⟨l, rfl, hm, hi, hl⟩
  refine ⟨h.rewrite (fun _ => ⟨⟨hs.le, hs.head, hs.tail⟩, rfl, .inr ⟨rfl, hlog⟩⟩)
    (fun h0 => absurd h0 (by omega)) fun p v j hc => hc, ?_⟩
  rw [Volume.setLog, Volume.setLeb_same]
  exact hlog

/-! ## The invariant -/

/-- `sector_index` of `v` is `idx` and the data there is `d`. -/
def Indexed (fip : UftlInfo) (vol : Volume) (v : Nat) (idx : Int) : Option (Nat → Sector) → Prop
  | none => idx = ftlNomap ∧ ∀ b p j, b < fip.lebNum → ¬Copy fip (vol.leb b) p v j
  | some d => ∃ b p pg, idx = fip.pageIndex b p ∧ Newest fip vol v b p ∧
      (vol.leb b).page p = .written pg ∧ pg.data = d

theorem Indexed.dataAt {vol : Volume} {v : Nat} {idx : Int} {d : Option (Nat → Sector)}
    (h : Indexed fip vol v idx d) : DataAt fip vol v d := by
  cases d with
  | none => exact h.2
  | some d => obtain ⟨b, p, pg, -, hn, hpg, hd⟩ := h; exact ⟨b, p, pg, hn, hpg, hd⟩

/-- An index names the newest copy. -/
theorem Indexed.newest {vol : Volume} {v b p : Nat} {d : Option (Nat → Sector)}
    (h : Indexed fip vol v (fip.pageIndex b p) d) (hp : p < fip.ftlPageNum) :
    Newest fip vol v b p := by
  cases d with
  | none => exact absurd h.1 (pageIndex_ne_nomap b p)
  | some d =>
    obtain ⟨b', p', pg, he, hn, -⟩ := h
    obtain ⟨rfl, rfl⟩ := pageIndex_inj hp hn.page_lt he
    exact hn

/-- Some virtual sector maps to page `p` of block `b`. -/
def Ftl.Live (fip : UftlInfo) (f : Ftl) (b p : Nat) : Prop :=
  ∃ v, v < fip.virtualSectorNum ∧ f.sectorIndex v = fip.pageIndex b p

/-- Unmapping a block without live pages changes no index. -/
theorem Indexed.unmap {f : Ftl} {vol : Volume} {v B : Nat} {d : Option (Nat → Sector)}
    (h : Indexed fip vol v (f.sectorIndex v) d) (hv : v < fip.virtualSectorNum)
    (hno : ∀ p, p < fip.ftlPageNum → ¬f.Live fip B p) :
    Indexed fip (vol.unmap B) v (f.sectorIndex v) d := by
  cases d with
  | none =>
    refine ⟨h.1, fun b p j hb hc => ?_⟩
    by_cases hbB : b = B
    · rw [hbB, Volume.unmap_same] at hc
      exact blank_unmapped.stub.no_copy hc
    · rw [Volume.unmap_other _ hbB] at hc
      exact h.2 b p j hb hc
  | some d =>
    obtain ⟨b, p, pg, hidx, hn, hpg, hd⟩ := h
    have hbB : b ≠ B := by
      rintro rfl
      exact hno p hn.page_lt ⟨v, hv, hidx⟩
    exact ⟨b, p, pg, hidx, hn.unmap hbB, by rwa [Volume.unmap_other _ hbB], hd⟩

section Index

variable {vol : Volume} {b k : Nat} {i : Int}

/-- The index is that of the newest copy. -/
theorem Chain.index_newest (h : Chain fip L vol b k i) {v b' p : Nat} {idx : Int}
    {d : Option (Nat → Sector)} (hx : Indexed fip vol v idx d) (hn : Newest fip vol v b' p) :
    idx = fip.pageIndex b' p := by
  cases d with
  | none =>
    obtain ⟨hb, i, hc, -⟩ := hn
    exact absurd hc (hx.2 b' p i hb)
  | some d =>
    obtain ⟨b'', p'', pg, hidx, hn', -⟩ := hx
    obtain ⟨rfl, rfl⟩ := h.newest_unique hn hn'
    exact hidx

/-- There is one index for the data of a virtual sector. -/
theorem Chain.indexed_unique (h : Chain fip L vol b k i) {v : Nat} {x y : Int}
    {d : Option (Nat → Sector)} (hx : Indexed fip vol v x d) (hy : Indexed fip vol v y d) : x = y := by
  cases d with
  | none => exact hx.1.trans hy.1.symm
  | some d =>
    obtain ⟨b', p, pg, hi, hn, -⟩ := id hx
    rw [hi]
    exact (h.index_newest hy hn).symm

/-- The last page of the block that is being filled is the newest copy of its sector. -/
theorem Chain.last_newest (h : Chain fip L vol b k i) (hk : 0 < k) :
    ∃ v, v < fip.virtualSectorNum ∧ Newest fip vol v b (k - 1) := by
  obtain ⟨hs, -, -⟩ := h.cur hk
  obtain ⟨v, hv, hc⟩ := hs.exists_copy (p := k - 1) (by omega)
  have hch : Chain fip L vol b (k - 1 + 1) i := by
    rw [Nat.sub_add_cancel hk]
    exact h
  exact ⟨v, hv, hch.newest_last hc⟩

/-- Copies in a block without live pages are dominated by copies elsewhere. -/
theorem Chain.dominated (h : Chain fip L vol b k i) {f : Ftl} {D : Nat → Option (Nat → Sector)}
    (hidx : ∀ v, v < fip.virtualSectorNum → Indexed fip vol v (f.sectorIndex v) (D v)) {B : Nat}
    (hB : B < fip.lebNum) (hno : ∀ p, p < fip.ftlPageNum → ¬f.Live fip B p) (p v : Nat) (j : Int)
    (hc : Copy fip (vol.leb B) p v j) :
    ∃ b'' q l, b'' < fip.lebNum ∧ b'' ≠ B ∧ Copy fip (vol.leb b'') q v l ∧ StampLe j p l q := by
  have hv := (h.copy hB hc).2.2.1
  have hx := hidx v hv
  cases hD : D v with
  | none =>
    rw [hD] at hx
    exact absurd hc (hx.2 B p j hB)
  | some d =>
    rw [hD] at hx
    obtain ⟨b'', q, pg, hidx, hn, -⟩ := hx
    have hq := hn.page_lt
    obtain ⟨hb'', l, hcl, hmax⟩ := hn
    refine ⟨b'', q, l, hb'', ?_, hcl, hmax B p j hB hc⟩
    rintro rfl
    exact hno q hq ⟨v, hv, hidx⟩

end Index

/-- Tables and flash agree, up to the orphans `X`. -/
structure InvAt (fip : UftlInfo) (L : Prop) (X : Nat → Nat → Prop) (b k : Nat) (f : Ftl) (vol : Volume)
    (D : Nat → Option (Nat → Sector)) : Prop where
  chain : Chain fip L vol b k f.stamp
  stamp_pos : 0 < f.stamp
  id : f.blockId = wrapInt f.stamp
  curBlock : f.curOffset.block = b
  le : k ≤ fip.ftlPageNum
  clean : ∀ p, k ≤ p → p < fip.ftlPageNum → (vol.leb b).page p = .erased
  cleanLog : k < fip.ftlPageNum → (vol.leb b).log = .erased
  others : ∀ b', b' < fip.lebNum → b' ≠ b →
    Blank fip (vol.leb b') ∨ ∃ j, Closed fip L (vol.leb b') j
  nodup : f.emptyBlockFifo.items.Nodup
  fifo : ∀ b', b' ∈ f.emptyBlockFifo.items → b' < fip.lebNum ∧ b' ≠ b ∧ Blank fip (vol.leb b')
  queued : fip.lebNum ≤ f.emptyBlockFifo.cap → ∀ b', b' < fip.lebNum → b' ≠ b →
    Blank fip (vol.leb b') → b' ∈ f.emptyBlockFifo.items
  index : ∀ v, v < fip.virtualSectorNum → Indexed fip vol v (f.sectorIndex v) (D v)
  empty : ∀ b' p, b' < fip.lebNum → p < fip.ftlPageNum →
    (f.pageState b' p = .pageEmpty ↔ (vol.leb b').page p = .erased)
  inUse : ∀ b' p, b' < fip.lebNum → p < fip.ftlPageNum →
    (f.pageState b' p = .pageUsing ↔ f.Live fip b' p ∨ X b' p)
  orphan : ∀ b' p, X b' p → b' < fip.lebNum ∧ p < fip.ftlPageNum ∧ ¬f.Live fip b' p
  count : ∀ b', b' < fip.lebNum → f.usingPage b' = f.countUsing fip b'
  entries : ∀ p, p < k → ∀ pg, (vol.leb b).page p = .written pg →
    f.blockLogPage.entry p = pg.log.sector

/-- A full block has its log page, if `L`. -/
def Logged (fip : UftlInfo) (L : Prop) (b k : Nat) (f : Ftl) (vol : Volume) : Prop :=
  k = fip.ftlPageNum → L → LogOk fip (vol.leb b) f.stamp

/-- The invariant between page writes: the write position is behind the last page. -/
def Inv (fip : UftlInfo) (L : Prop) (X : Nat → Nat → Prop) (f : Ftl) (vol : Volume)
    (D : Nat → Option (Nat → Sector)) : Prop :=
  ∃ b k, InvAt fip L X b k f vol D ∧ Logged fip L b k f vol ∧ f.curOffset.page = (k : Int) - 1

/-- No orphans. -/
def noOrphan : Nat → Nat → Prop := fun _ _ => False

namespace InvAt

variable {X : Nat → Nat → Prop} {b k : Nat} {f : Ftl} {vol : Volume}
  {D : Nat → Option (Nat → Sector)}

/-- What is on flash, without the tables. -/
theorem disk (h : InvAt fip L X b k f vol D) : Disk fip L f.stamp vol D :=
  ⟨⟨b, k, _, Int.le_refl _, h.chain⟩, fun v hv => (h.index v hv).dataAt⟩

/-- A live page is on flash, with its virtual sector in the trailer. -/
theorem live_page (h : InvAt fip L X b k f vol D) {b' p v : Nat} (hv : v < fip.virtualSectorNum)
    (hi : f.sectorIndex v = fip.pageIndex b' p) (hp : p < fip.ftlPageNum) :
    ∃ pg, (vol.leb b').page p = .written pg ∧ pg.log.sector = v ∧ D v = some pg.data ∧
      Newest fip vol v b' p := by
  have hx := h.index v hv
  cases hD : D v with
  | none =>
    rw [hD] at hx
    exact absurd (hi.symm.trans hx.1) (pageIndex_ne_nomap b' p)
  | some d =>
    rw [hD] at hx
    obtain ⟨b'', p'', pg, hidx, hn, hpg, rfl⟩ := hx
    obtain ⟨rfl, rfl⟩ := pageIndex_inj hp hn.page_lt (hi.symm.trans hidx)
    exact ⟨pg, hpg, (hn.sector hpg).1, rfl, hn⟩

/-- Different virtual sectors map to different pages. -/
theorem injective (h : InvAt fip L X b k f vol D) {v w b' p : Nat} (hv : v < fip.virtualSectorNum)
    (hw : w < fip.virtualSectorNum) (hp : p < fip.ftlPageNum)
    (hiv : f.sectorIndex v = fip.pageIndex b' p) (hiw : f.sectorIndex w = fip.pageIndex b' p) :
    v = w := by
  obtain ⟨pg, hpg, hsv, -⟩ := h.live_page hv hiv hp
  obtain ⟨pg', hpg', hsw, -⟩ := h.live_page hw hiw hp
  rw [hpg] at hpg'
  cases hpg'
  omega

/-- The index is that of the newest copy. -/
theorem index_newest (h : InvAt fip L X b k f vol D) {v b' p : Nat} (hv : v < fip.virtualSectorNum)
    (hn : Newest fip vol v b' p) : f.sectorIndex v = fip.pageIndex b' p :=
  h.chain.index_newest (h.index v hv) hn

/-- The last page of the block that is being filled is live. -/
theorem last_live (h : InvAt fip L X b k f vol D) (hk : 0 < k) : f.Live fip b (k - 1) :=
  let ⟨v, hv, hn⟩ := h.chain.last_newest hk
  ⟨v, hv, h.index_newest hv hn⟩

end InvAt

end Uftl
