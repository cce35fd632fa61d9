/-
  What UFTL leaves on flash: the invariant `Chain`, and how each flash operation preserves it.

  Every block that is opened for writing gets the next number; its pages are programmed in order and
  its log page last.  What is on flash of the number is the id, an `int`.  No number is given twice, so
  that the STAMP (number, page index) orders all copies of a virtual sector by age: its newest copy is
  the one with the largest stamp.  `Chain vol b k i` says that block `b` is being filled, has `k` pages
  and the number `i`, and that everything else on flash — the other blocks, and the former contents
  that unmapped blocks may still come back with — is older:

  * another block is either a STUB (no readable page) or CLOSED (all pages and a log page) with a
    smaller number;
  * the same holds of every former content;
  * two contents with one number belong to one block;
  * each copy in a former content is dominated by a copy that is on flash now.

  The invariant speaks of flash only, so it is also what a power cut leaves behind.
-/
import FlashStack.Uftl.Dev
import Mathlib.Tactic.Common

namespace Uftl

/-- The geometries the driver can work with.  That a log page has room for an entry of each data page
    is not checked anywhere. -/
structure UftlInfo.Wf (fip : UftlInfo) : Prop where
  leb_pos : 0 < fip.lebNum
  page_pos : 0 < fip.ftlPageNum
  sector_pos : 0 < fip.pageSectorNum
  leb_page : fip.lebPageNum = fip.ftlPageNum + 1
  log_fits : logInfoSize + intSize * fip.ftlPageNum ≤ fip.lebPageSize

/-- Where the log page has room, no entry is behind its buffer. -/
theorem UftlInfo.Wf.inLogPage {fip : UftlInfo} (h : fip.Wf) {page : Nat} (hp : page < fip.ftlPageNum) :
    fip.inLogPage page := by
  have hfits := h.log_fits
  unfold UftlInfo.inLogPage
  unfold intSize at *
  omega

/-- What `ubiblk_add` sets up, where the pages are large enough for the log page. -/
theorem UftlInfo.ofDevice_wf {size pageNum pageSize : Nat} (hsize : 30 ≤ size) (hpages : 2 ≤ pageNum)
    (hbytes : 1024 ≤ pageSize)
    (hlog : logInfoSize + intSize * (pageNum - logPageNumPerBlock) ≤ pageSize) :
    (UftlInfo.ofDevice size pageNum pageSize).Wf where
  leb_pos := by
    show 0 < size - ftlLogBlockNum
    unfold ftlLogBlockNum
    omega
  page_pos := by
    show 0 < pageNum - logPageNumPerBlock
    unfold logPageNumPerBlock
    omega
  sector_pos := by
    show 0 < pageSize / sectorSize - pageLogSector
    unfold sectorSize pageLogSector
    omega
  leb_page := by
    show pageNum = pageNum - logPageNumPerBlock + 1
    unfold logPageNumPerBlock
    omega
  log_fits := hlog

variable {fip : UftlInfo} {L : Prop}

/-! ## Contents of one block -/

/-- A page the driver programmed in the block with the number `i`. -/
structure Good (fip : UftlInfo) (i : Int) (pg : Page) : Prop where
  magic : pg.log.magic = magicNum
  id : pg.log.id = wrapInt i
  stamp : pg.stamp = i
  pos : 0 < i
  sector_nonneg : 0 ≤ pg.log.sector
  sector_lt : pg.log.sector < fip.virtualSectorNum

/-- Up to `INT_MAX`, a number is the id on flash. -/
theorem Good.id_eq {i : Int} {pg : Page} (h : Good fip i pg) (hi : i ≤ intMax) : pg.log.id = i :=
  h.id.trans (wrapInt_of_le (Int.le_of_lt h.pos) hi)

/-- The first `k` data pages are programmed with the number `i`; the next one may be torn. -/
structure Shape (fip : UftlInfo) (c : Leb) (i : Int) (k : Nat) : Prop where
  le : k ≤ fip.ftlPageNum
  head : ∀ p, p < k → ∃ pg, c.page p = .written pg ∧ Good fip i pg
  tail : ∀ p, k ≤ p → p < fip.ftlPageNum → c.page p = .erased ∨ p = k ∧ c.page p = .torn

/-- The log page agrees with the pages of the block. -/
def LogOk (fip : UftlInfo) (c : Leb) (i : Int) : Prop :=
  ∃ l, c.log = .written l ∧ l.magic = magicNum ∧ l.id = wrapInt i ∧
    ∀ p, p < fip.ftlPageNum → ∀ pg, c.page p = .written pg → l.entry p = pg.log.sector

/-- A block without a readable page. -/
def Stub (fip : UftlInfo) (c : Leb) : Prop := Shape fip c 0 0 ∧ c.log = .erased

/-- A block all pages of which are erased. -/
def Blank (fip : UftlInfo) (c : Leb) : Prop :=
  (∀ p, p < fip.ftlPageNum → c.page p = .erased) ∧ c.log = .erased

/-- A full block, with its log page if `L`. -/
def Closed (fip : UftlInfo) (L : Prop) (c : Leb) (i : Int) : Prop :=
  Shape fip c i fip.ftlPageNum ∧ (L → LogOk fip c i)

/-- A blank block has no pages in use. -/
theorem Blank.stub {c : Leb} (h : Blank fip c) : Stub fip c :=
  ⟨⟨Nat.zero_le _, fun p hp => absurd hp (Nat.not_lt_zero p), fun p _ hp => .inl (h.1 p hp)⟩, h.2⟩

theorem blank_unmapped : Blank fip .unmapped := ⟨fun _ _ => rfl, rfl⟩

/-- Whether UBI has the LEB mapped does not matter to its content. -/
theorem Shape.mapped {c : Leb} {i : Int} {k : Nat} {m : Bool} (h : Shape fip c i k) :
    Shape fip { c with mapped := m } i k := ⟨h.le, h.head, h.tail⟩

/-- Data page `p` of the content is a copy of virtual sector `v`, made in the block with number `i`. -/
def Copy (fip : UftlInfo) (c : Leb) (p v : Nat) (i : Int) : Prop :=
  p < fip.ftlPageNum ∧ ∃ pg, c.page p = .written pg ∧ pg.log.sector = v ∧ pg.stamp = i

/-- The order of stamps: `(i, p)` is not younger than `(j, q)`. -/
def StampLe (i : Int) (p : Nat) (j : Int) (q : Nat) : Prop := i < j ∨ i = j ∧ p ≤ q

/-- Stamps are ordered by block and by page. -/
theorem StampLe.trans {i j l : Int} {p q r : Nat} (h : StampLe i p j q) (h' : StampLe j q l r) :
    StampLe i p l r := by unfold StampLe at *; omega

theorem StampLe.total (i : Int) (p : Nat) (j : Int) (q : Nat) :
    StampLe i p j q ∨ StampLe j q i p := by unfold StampLe; omega

/-- The copies in a content of the shape `i`, `k` are its first `k` pages. -/
theorem Shape.copy {c : Leb} {i j : Int} {k p v : Nat} (h : Shape fip c i k)
    (hc : Copy fip c p v j) : p < k ∧ j = i ∧ 0 < i := by
  obtain ⟨hp, pg, hpg, -, hstamp⟩ := hc
  by_cases hk : p < k
  · obtain ⟨pg', hpg', hg⟩ := h.head p hk
    rw [hpg] at hpg'
    cases hpg'
    exact ⟨hk, hstamp ▸ hg.stamp, hg.pos⟩
  · rcases h.tail p (by omega) hp with he | ⟨-, he⟩ <;> rw [hpg] at he <;> cases he

/-- There is no copy in it. -/
theorem Stub.no_copy {c : Leb} {j : Int} {p v : Nat} (h : Stub fip c) : ¬Copy fip c p v j :=
  fun hc => absurd (h.1.copy hc).1 (Nat.not_lt_zero p)

/-- Each of the first `k` pages is a copy of some virtual sector. -/
theorem Shape.exists_copy {c : Leb} {i : Int} {k p : Nat} (h : Shape fip c i k) (hp : p < k) :
    ∃ v, v < fip.virtualSectorNum ∧ Copy fip c p v i := by
  obtain ⟨pg, hpg, hg⟩ := h.head p hp
  have h0 := hg.sector_nonneg
  have h1 := hg.sector_lt
  exact ⟨pg.log.sector.toNat, by omega, Nat.lt_of_lt_of_le hp h.le, pg, hpg, by omega, hg.stamp⟩

/-- A copy names a virtual sector of the table. -/
theorem Shape.copy_lt {c : Leb} {i j : Int} {k p v : Nat} (h : Shape fip c i k)
    (hc : Copy fip c p v j) : v < fip.virtualSectorNum := by
  obtain ⟨hk, -, -⟩ := h.copy hc
  obtain ⟨-, pg, hpg, hv, -⟩ := hc
  obtain ⟨pg', hpg', hg⟩ := h.head p hk
  rw [hpg] at hpg'
  cases hpg'
  have := hg.sector_lt
  omega

/-- A page holds one copy. -/
theorem Copy.unique {c : Leb} {p v w : Nat} {i j : Int} (h : Copy fip c p v i)
    (h' : Copy fip c p w j) : v = w ∧ i = j := by
  obtain ⟨-, pg, hpg, hv, hi⟩ := h
  obtain ⟨-, pg', hpg', hw, hj⟩ := h'
  rw [hpg] at hpg'
  cases hpg'
  exact ⟨by omega, hi.symm.trans hj⟩

/-! ## The whole volume -/

/-- `c` is on flash in block `b`, now or as a content that may come back. -/
def Content (vol : Volume) (b : Nat) (c : Leb) : Prop := c = vol.leb b ∨ c ∈ vol.former b

/-- Block `b` is being filled: it has `k` pages, its number is `i`, everything else is older. -/
structure Chain (fip : UftlInfo) (L : Prop) (vol : Volume) (b k : Nat) (i : Int) : Prop where
  lt : b < fip.lebNum
  cur : 0 < k → Shape fip (vol.leb b) i k ∧ (vol.leb b).mapped = true ∧
    ((vol.leb b).log = .erased ∨ k = fip.ftlPageNum ∧ LogOk fip (vol.leb b) i)
  other : ∀ b', b' < fip.lebNum → (b' = b → k = 0) →
    Stub fip (vol.leb b') ∨ (vol.leb b').mapped = true ∧ ∃ j < i, Closed fip L (vol.leb b') j
  former : ∀ b', b' < fip.lebNum → ∀ c ∈ vol.former b', Stub fip c ∨ ∃ j < i, Closed fip L c j
  uniq : ∀ b₁ c₁ b₂ c₂ p q v w j, b₁ < fip.lebNum → b₂ < fip.lebNum → Content vol b₁ c₁ →
    Content vol b₂ c₂ → Copy fip c₁ p v j → Copy fip c₂ q w j → b₁ = b₂
  dom : ∀ b', b' < fip.lebNum → ∀ c ∈ vol.former b', ∀ p v j, Copy fip c p v j →
    ∃ b'' q l, b'' < fip.lebNum ∧ Copy fip (vol.leb b'') q v l ∧ StampLe j p l q

/-- Data page `p` of block `b` is the newest copy of `v` on flash. -/
def Newest (fip : UftlInfo) (vol : Volume) (v b p : Nat) : Prop :=
  b < fip.lebNum ∧ ∃ i, Copy fip (vol.leb b) p v i ∧
    ∀ b' q j, b' < fip.lebNum → Copy fip (vol.leb b') q v j → StampLe j q i p

/-- What flash holds for virtual sector `v`: nothing, or the data of its newest copy. -/
def DataAt (fip : UftlInfo) (vol : Volume) (v : Nat) : Option (Nat → Sector) → Prop
  | none => ∀ b p j, b < fip.lebNum → ¬Copy fip (vol.leb b) p v j
  | some d => ∃ b p pg, Newest fip vol v b p ∧ (vol.leb b).page p = .written pg ∧ pg.data = d

/-- What a power cut may leave: some chain with numbers up to `n`, with the data `D`. -/
def Disk (fip : UftlInfo) (L : Prop) (n : Int) (vol : Volume) (D : Nat → Option (Nat → Sector)) : Prop :=
  (∃ b k i, i ≤ n ∧ Chain fip L vol b k i) ∧ ∀ v, v < fip.virtualSectorNum → DataAt fip vol v (D v)

/-- A larger id is still above all. -/
theorem Disk.mono {n m : Int} {vol : Volume} {D : Nat → Option (Nat → Sector)} (h : Disk fip L n vol D)
    (hle : n ≤ m) : Disk fip L m vol D := by
  obtain ⟨⟨b, k, i, hi, hch⟩, hD⟩ := h
  exact ⟨⟨b, k, i, Int.le_trans hi hle, hch⟩, hD⟩

namespace Chain

variable {vol : Volume} {b k : Nat} {i : Int}

/-- Every block is a stub, closed with a smaller number, or the block being filled. -/
theorem shape (h : Chain fip L vol b k i) {b' : Nat} (hb : b' < fip.lebNum) :
    Stub fip (vol.leb b') ∨
    (vol.leb b').mapped = true ∧
      ((∃ j < i, Closed fip L (vol.leb b') j) ∨ b' = b ∧ 0 < k ∧ Shape fip (vol.leb b') i k) := by
  by_cases hk : b' = b ∧ 0 < k
  · obtain ⟨rfl, hk⟩ := hk
    have hc := h.cur hk
    exact .inr ⟨hc.2.1, .inr ⟨rfl, hk, hc.1⟩⟩
  · rcases h.other b' hb (by omega) with hs | ⟨hm, hc⟩
    · exact .inl hs
    · exact .inr ⟨hm, .inl hc⟩

/-- A copy on flash: its block is mapped, its stamp is at most that of the last page, and it names
    a virtual sector of the table. -/
theorem copy (h : Chain fip L vol b k i) {b' p v : Nat} {j : Int} (hb : b' < fip.lebNum)
    (hc : Copy fip (vol.leb b') p v j) :
    (vol.leb b').mapped = true ∧ 0 < j ∧ v < fip.virtualSectorNum ∧
      (j < i ∨ j = i ∧ b' = b ∧ p < k) := by
  rcases h.shape hb with hs | ⟨hm, ⟨l, hl, hcl⟩ | ⟨rfl, hk, hs⟩⟩
  · exact absurd hc hs.no_copy
  · obtain ⟨-, rfl, hpos⟩ := hcl.1.copy hc
    exact ⟨hm, hpos, hcl.1.copy_lt hc, .inl hl⟩
  · obtain ⟨hp, rfl, hpos⟩ := hs.copy hc
    exact ⟨hm, hpos, hs.copy_lt hc, .inr ⟨rfl, rfl, hp⟩⟩

/-- The same for a copy in any content. -/
theorem content_copy (h : Chain fip L vol b k i) {b' p v : Nat} {c : Leb} {j : Int}
    (hb : b' < fip.lebNum) (hcon : Content vol b' c) (hc : Copy fip c p v j) :
    j < i ∨ j = i ∧ b' = b := by
  rcases hcon with rfl | hf
  · rcases (h.copy hb hc).2.2.2 with hj | ⟨hj, hb', -⟩
    · exact .inl hj
    · exact .inr ⟨hj, hb'⟩
  · rcases h.former b' hb c hf with hs | ⟨l, hl, hcl⟩
    · exact absurd hc hs.no_copy
    · exact .inl ((hcl.1.copy hc).2.1 ▸ hl)

/-- The newest copy of a virtual sector is in one place. -/
theorem newest_unique (h : Chain fip L vol b k i) {v b₁ p₁ b₂ p₂ : Nat}
    (h₁ : Newest fip vol v b₁ p₁) (h₂ : Newest fip vol v b₂ p₂) : b₁ = b₂ ∧ p₁ = p₂ := by
  obtain ⟨hb₁, i₁, hc₁, hmax₁⟩ := h₁
  obtain ⟨hb₂, i₂, hc₂, hmax₂⟩ := h₂
  have h12 := hmax₂ b₁ p₁ i₁ hb₁ hc₁
  have h21 := hmax₁ b₂ p₂ i₂ hb₂ hc₂
  have hi : i₁ = i₂ := by unfold StampLe at h12 h21; omega
  subst hi
  exact ⟨h.uniq b₁ _ b₂ _ p₁ p₂ v v i₁ hb₁ hb₂ (.inl rfl) (.inl rfl) hc₁ hc₂,
    by unfold StampLe at h12 h21; omega⟩

/-- An upper bound on the number may be raised while no page has it. -/
theorem raise (h : Chain fip L vol b 0 i) {b' : Nat} {i' : Int} (hb : b' < fip.lebNum) (hi : i ≤ i') :
    Chain fip L vol b' 0 i' where
  lt := hb
  cur hk := absurd hk (Nat.lt_irrefl 0)
  other b'' hb'' _ := (h.other b'' hb'' fun _ => rfl).imp_right fun ⟨hm, j, hj, hc⟩ =>
    ⟨hm, j, by omega, hc⟩
  former b'' hb'' c hc := (h.former b'' hb'' c hc).imp_right fun ⟨j, hj, hcl⟩ => ⟨j, by omega, hcl⟩
  uniq := h.uniq
  dom := h.dom

/-- The next block is opened once the present one is closed. -/
theorem next (h : Chain fip L vol b fip.ftlPageNum i) (hlog : L → LogOk fip (vol.leb b) i)
    (hP : 0 < fip.ftlPageNum) {b' : Nat} (hb : b' < fip.lebNum) :
    Chain fip L vol b' 0 (i + 1) where
  lt := hb
  cur hk := absurd hk (Nat.lt_irrefl 0)
  other b'' hb'' _ := by
    by_cases hbb : b'' = b
    · subst hbb
      have hc := h.cur hP
      exact .inr ⟨hc.2.1, i, by omega, hc.1, hlog⟩
    · exact (h.other b'' hb'' fun he => absurd he hbb).imp_right fun ⟨hm, j, hj, hc⟩ =>
        ⟨hm, j, by omega, hc⟩
  former b'' hb'' c hc := (h.former b'' hb'' c hc).imp_right fun ⟨j, hj, hcl⟩ => ⟨j, by omega, hcl⟩
  uniq := h.uniq
  dom := h.dom

end Chain

/-! ## The flash operations -/

@[simp] theorem Volume.setLeb_same (v : Volume) (b : Nat) (c : Leb) : (v.setLeb b c).leb b = c := by
  simp [Volume.setLeb]

/-- Other blocks do not change. -/
theorem Volume.setLeb_other (v : Volume) {b b' : Nat} (c : Leb) (h : b' ≠ b) :
    (v.setLeb b c).leb b' = v.leb b' := by simp [Volume.setLeb, h]

@[simp] theorem Volume.setLeb_former (v : Volume) (b : Nat) (c : Leb) :
    (v.setLeb b c).former = v.former := rfl

@[simp] theorem Volume.unmap_same (v : Volume) (b : Nat) : (v.unmap b).leb b = .unmapped := by
  simp [Volume.unmap]

theorem Volume.unmap_other (v : Volume) {b b' : Nat} (h : b' ≠ b) :
    (v.unmap b).leb b' = v.leb b' := by simp [Volume.unmap, h]

/-- Contents of a volume one block of which was rewritten. -/
theorem content_setLeb {vol : Volume} {b b' : Nat} {c c' : Leb}
    (h : Content (vol.setLeb b c) b' c') : Content vol b' c' ∨ b' = b ∧ c' = c := by
  rcases h with rfl | hf
  · by_cases hb : b' = b
    · subst hb
      exact .inr ⟨rfl, Volume.setLeb_same ..⟩
    · rw [Volume.setLeb_other _ _ hb]
      exact .inl (.inl rfl)
  · exact .inl (.inr hf)

/-- Contents of a volume one block of which was unmapped. -/
theorem content_unmap {vol : Volume} {b b' : Nat} {c : Leb} (h : Content (vol.unmap b) b' c) :
    Content vol b' c ∨ c = .unmapped := by
  by_cases hb : b' = b
  · subst hb
    rcases h with rfl | hf
    · exact .inr (Volume.unmap_same ..)
    · simp only [Volume.unmap, Function.update_self, List.mem_cons] at hf
      exact .inl hf
  · rcases h with rfl | hf
    · rw [Volume.unmap_other _ hb]
      exact .inl (.inl rfl)
    · simp only [Volume.unmap, Function.update_of_ne hb] at hf
      exact .inl (.inr hf)

namespace Chain

variable {vol : Volume} {b k : Nat} {i : Int}

/-- Rewriting the block that is being filled, so that it keeps its copies and gains none but of
    number `i`. -/
theorem rewrite (h : Chain fip L vol b k i) {c : Leb} {k' : Nat}
    (hcur : 0 < k' → Shape fip c i k' ∧ c.mapped = true ∧
      (c.log = .erased ∨ k' = fip.ftlPageNum ∧ LogOk fip c i))
    (hzero : k' = 0 → Stub fip c)
    (hkeep : ∀ p v j, Copy fip (vol.leb b) p v j → Copy fip c p v j) :
    Chain fip L (vol.setLeb b c) b k' i := by
  -- every copy of the new content has number `i`
  have hnew : ∀ p v j, Copy fip c p v j → j = i := by
    intro p v j hc
    rcases Nat.eq_zero_or_pos k' with hk | hk
    · exact absurd hc (hzero hk).no_copy
    · exact ((hcur hk).1.copy hc).2.1
  refine ⟨h.lt, ?_, ?_, ?_, ?_, ?_⟩
  · intro hk
    rw [Volume.setLeb_same]
    exact hcur hk
  · intro b' hb hk
    by_cases hbb : b' = b
    · subst hbb
      rw [Volume.setLeb_same]
      exact .inl (hzero (hk rfl))
    · rw [Volume.setLeb_other _ _ hbb]
      exact h.other b' hb fun he => absurd he hbb
  · exact h.former
  · intro b₁ c₁ b₂ c₂ p q v w j hb₁ hb₂ hc₁ hc₂ h₁ h₂
    rcases content_setLeb hc₁ with ho₁ | ⟨hb, hc⟩
    · rcases content_setLeb hc₂ with ho₂ | ⟨hb, hc⟩
      · exact h.uniq b₁ c₁ b₂ c₂ p q v w j hb₁ hb₂ ho₁ ho₂ h₁ h₂
      · have hj := hnew q w j (hc ▸ h₂)
        rcases h.content_copy hb₁ ho₁ h₁ with hlt | ⟨-, he⟩
        · omega
        · rw [he, hb]
    · have hj := hnew p v j (hc ▸ h₁)
      rcases content_setLeb hc₂ with ho₂ | ⟨hb', -⟩
      · rcases h.content_copy hb₂ ho₂ h₂ with hlt | ⟨-, he⟩
        · omega
        · rw [he, hb]
      · rw [hb, hb']
  · intro b' hb c' hc' p v j hcp
    obtain ⟨b'', q, l, hb'', hq, hle⟩ := h.dom b' hb c' hc' p v j hcp
    refine ⟨b'', q, l, hb'', ?_, hle⟩
    by_cases hbb : b'' = b
    · subst hbb
      rw [Volume.setLeb_same]
      exact hkeep q v l hq
    · rw [Volume.setLeb_other _ _ hbb]
      exact hq

/-- Unmapping a block none of whose copies is the newest of its virtual sector. -/
theorem unmap (h : Chain fip L vol b k i) {b' : Nat} (hb' : b' < fip.lebNum) (hne : b' = b → k = 0)
    (hdom : ∀ p v j, Copy fip (vol.leb b') p v j →
      ∃ b'' q l, b'' < fip.lebNum ∧ b'' ≠ b' ∧ Copy fip (vol.leb b'') q v l ∧ StampLe j p l q) :
    Chain fip L (vol.unmap b') b k i := by
  refine ⟨h.lt, ?_, ?_, ?_, ?_, ?_⟩
  · intro hk
    rw [Volume.unmap_other _ (by rintro rfl; have := hne rfl; omega)]
    exact h.cur hk
  · intro b'' hb'' hk
    by_cases hbb : b'' = b'
    · subst hbb
      rw [Volume.unmap_same]
      exact .inl blank_unmapped.stub
    · rw [Volume.unmap_other _ hbb]
      exact h.other b'' hb'' hk
  · intro b'' hb'' c hc
    by_cases hbb : b'' = b'
    · subst hbb
      simp only [Volume.unmap, Function.update_self, List.mem_cons] at hc
      rcases hc with rfl | hc
      · exact (h.other b'' hb'' hne).imp_right fun ⟨_, hcl⟩ => hcl
      · exact h.former b'' hb'' c hc
    · simp only [Volume.unmap, Function.update_of_ne hbb] at hc
      exact h.former b'' hb'' c hc
  · intro b₁ c₁ b₂ c₂ p q v w j hb₁ hb₂ hc₁ hc₂ h₁ h₂
    rcases content_unmap hc₁ with hc₁ | rfl
    · rcases content_unmap hc₂ with hc₂ | rfl
      · exact h.uniq b₁ c₁ b₂ c₂ p q v w j hb₁ hb₂ hc₁ hc₂ h₁ h₂
      · exact absurd h₂ blank_unmapped.stub.no_copy
    · exact absurd h₁ blank_unmapped.stub.no_copy
  · -- a dominating copy in `b'` is itself dominated by one elsewhere
    have hout : ∀ b'' q v l, b'' < fip.lebNum → Copy fip (vol.leb b'') q v l →
        ∃ b₃ r m, b₃ < fip.lebNum ∧ Copy fip ((vol.unmap b').leb b₃) r v m ∧ StampLe l q m r := by
      intro b'' q v l hb'' hq
      by_cases hbb : b'' = b'
      · subst hbb
        obtain ⟨b₃, r, m, hb₃, hne₃, hr, hle⟩ := hdom q v l hq
        exact ⟨b₃, r, m, hb₃, by rwa [Volume.unmap_other _ hne₃], hle⟩
      · exact ⟨b'', q, l, hb'', by rwa [Volume.unmap_other _ hbb], .inr ⟨rfl, Nat.le_refl _⟩⟩
    intro b'' hb'' c hc p v j hcp
    have hold : ∃ b₃ q l, b₃ < fip.lebNum ∧ Copy fip (vol.leb b₃) q v l ∧ StampLe j p l q := by
      by_cases hbb : b'' = b'
      · subst hbb
        simp only [Volume.unmap, Function.update_self, List.mem_cons] at hc
        rcases hc with rfl | hc
        · exact ⟨b'', p, j, hb'', hcp, .inr ⟨rfl, Nat.le_refl _⟩⟩
        · exact h.dom b'' hb'' c hc p v j hcp
      · simp only [Volume.unmap, Function.update_of_ne hbb] at hc
        exact h.dom b'' hb'' c hc p v j hcp
    obtain ⟨b₃, q, l, hb₃, hq, hle⟩ := hold
    obtain ⟨b₄, r, m, hb₄, hr, hle'⟩ := hout b₃ q v l hb₃ hq
    exact ⟨b₄, r, m, hb₄, hr, hle.trans hle'⟩

/-- What the next attach finds is a chain as well. -/
theorem reattached (h : Chain fip L vol b k i) {w : Volume} (hw : vol.Reattached w) :
    Chain fip L w b k i := by
  obtain ⟨hformer, hleb⟩ := hw
  -- a mapped block is as it was
  have hmap : ∀ b', (vol.leb b').mapped = true → w.leb b' = vol.leb b' := by
    intro b' hm
    rcases hleb b' with he | ⟨hm', -⟩
    · exact he
    · rw [hm] at hm'; cases hm'
  have hcon : ∀ b' c p v j, Content w b' c → Copy fip c p v j →
      ∃ c', Content vol b' c' ∧ Copy fip c' p v j := by
    rintro b' c p v j (rfl | hf) hc
    · rcases hleb b' with he | ⟨-, he | ⟨c', hc', he⟩⟩
      · exact ⟨_, .inl rfl, he ▸ hc⟩
      · rw [he] at hc
        exact absurd hc blank_unmapped.stub.no_copy
      · rw [he] at hc
        exact ⟨c', .inr hc', hc⟩
    · exact ⟨c, .inr (hformer ▸ hf), hc⟩
  refine ⟨h.lt, ?_, ?_, ?_, ?_, ?_⟩
  · intro hk
    rw [hmap b (h.cur hk).2.1]
    exact h.cur hk
  · intro b' hb hk
    rcases hleb b' with he | ⟨-, he | ⟨c, hc, he⟩⟩
    · rw [he]; exact h.other b' hb hk
    · rw [he]; exact .inl blank_unmapped.stub
    · rw [he]
      rcases h.former b' hb c hc with hs | ⟨j, hj, hcl⟩
      · exact .inl ⟨hs.1.mapped, hs.2⟩
      · exact .inr ⟨rfl, j, hj, hcl.1.mapped, hcl.2⟩
  · rw [hformer]; exact h.former
  · intro b₁ c₁ b₂ c₂ p q v w j hb₁ hb₂ hc₁ hc₂ h₁ h₂
    obtain ⟨c₁', hc₁', h₁'⟩ := hcon b₁ c₁ p v j hc₁ h₁
    obtain ⟨c₂', hc₂', h₂'⟩ := hcon b₂ c₂ q w j hc₂ h₂
    exact h.uniq b₁ c₁' b₂ c₂' p q v w j hb₁ hb₂ hc₁' hc₂' h₁' h₂'
  · intro b' hb c hc p v j hcp
    rw [hformer] at hc
    obtain ⟨b'', q, l, hb'', hq, hle⟩ := h.dom b' hb c hc p v j hcp
    exact ⟨b'', q, l, hb'', by rwa [hmap b'' (h.copy hb'' hq).1], hle⟩

/-- The newest copies survive the next attach. -/
theorem reattached_newest (h : Chain fip L vol b k i) {w : Volume} (hw : vol.Reattached w)
    {v b' p : Nat} (hn : Newest fip vol v b' p) :
    Newest fip w v b' p ∧ w.leb b' = vol.leb b' := by
  obtain ⟨hb', j, hc, hmax⟩ := hn
  have hmapped := (h.copy hb' hc).1
  have hsame : w.leb b' = vol.leb b' := by
    rcases hw.2 b' with he | ⟨hm, -⟩
    · exact he
    · rw [hmapped] at hm; cases hm
  refine ⟨⟨hb', j, by rwa [hsame], ?_⟩, hsame⟩
  intro b'' q l hb'' hq
  rcases hw.2 b'' with he | ⟨-, he | ⟨c, hcf, he⟩⟩
  · rw [he] at hq
    exact hmax b'' q l hb'' hq
  · rw [he] at hq
    exact absurd hq blank_unmapped.stub.no_copy
  · rw [he] at hq
    obtain ⟨b₃, r, m, hb₃, hr, hle⟩ := h.dom b'' hb'' c hcf q v l hq
    exact hle.trans (hmax b₃ r m hb₃ hr)

end Chain

end Uftl
