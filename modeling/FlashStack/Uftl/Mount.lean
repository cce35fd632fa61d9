/-
  Mounting: `init_status` and `ftl_core_io_init` as a whole.

  After the scan every block is either LIVE (some virtual sector maps to one of its pages) or DEAD.
  `init_status` unmaps and queues the dead ones (`SweptAt n`: the blocks below `n` are dealt with),
  and then settles on the block to write next: the open block if there is one, rescued from its torn
  page if need be, or else the first block of the fifo, under a new id.

  The numbers of the blocks on flash fit into an `int` (`i ≤ intMax`), as the scan needs it.
-/
import FlashStack.Uftl.Scan

namespace Uftl

open Lib Lib.Prog

variable {fip : UftlInfo} {A : Event → Prop}

/-! ## The sweep of the dead blocks -/

/-- No virtual sector maps to a page of block `b`. -/
def Ftl.Dead (fip : UftlInfo) (f : Ftl) (b : Nat) : Prop :=
  ∀ p, p < fip.ftlPageNum → ¬f.Live fip b p

/-- The mount was cut; the data is still on flash, under numbers that fit into an `int`. -/
def MountCut (fip : UftlInfo) (D : Nat → Option (Nat → Sector)) (s : State) (e : Exit)
    (s' : State) : Prop :=
  e = .powerCut ∧ s.mayCut ∧ Disk fip True intMax s'.vol D ∧ s'.journal = s.journal

/-- A power cut while mounting. -/
theorem MountCut.trans {D : Nat → Option (Nat → Sector)} {s s' s'' : State} {e : Exit}
    (hf : Frame s s') (h : MountCut fip D s' e s'') : MountCut fip D s e s'' :=
  ⟨h.1, hf.mayCut h.2.1, h.2.2.1, h.2.2.2.trans hf.journal⟩

/-- `init_status` has dealt with the blocks below `n`; `s` is the state it found. -/
structure SweptAt (fip : UftlInfo) (D : Nat → Option (Nat → Sector)) (b k : Nat) (i : Int)
    (s : State) (n : Nat) (s' : State) : Prop where
  chain : Chain fip True s'.vol b k i
  index : ∀ v, v < fip.virtualSectorNum → Indexed fip s'.vol v (s'.ftl.sectorIndex v) (D v)
  sameIndex : s'.ftl.sectorIndex = s.ftl.sectorIndex
  kept : ∀ b', b' < fip.lebNum → n ≤ b' ∨ ¬s.ftl.Dead fip b' →
    s'.vol.leb b' = s.vol.leb b' ∧ s'.ftl.pageState b' = s.ftl.pageState b'
  swept : ∀ b', b' < n → s.ftl.Dead fip b' →
    s'.vol.leb b' = .unmapped ∧ ∀ p, s'.ftl.pageState b' p = .pageEmpty
  count : ∀ b', b' < n → s'.ftl.usingPage b' = s'.ftl.countUsing fip b'
  nodup : s'.ftl.emptyBlockFifo.items.Nodup
  fifo : ∀ b' ∈ s'.ftl.emptyBlockFifo.items, b' < n ∧ s.ftl.Dead fip b'
  queued : fip.lebNum ≤ s'.ftl.emptyBlockFifo.cap → ∀ b', b' < n → s.ftl.Dead fip b' →
    b' ∈ s'.ftl.emptyBlockFifo.items
  cap : s'.ftl.emptyBlockFifo.cap = s.ftl.emptyBlockFifo.cap
  curOffset : s'.ftl.curOffset = s.ftl.curOffset
  logPage : s'.ftl.blockLogPage = s.ftl.blockLogPage
  blockId : s'.ftl.blockId = s.ftl.blockId
  stamp : s'.ftl.stamp = s.ftl.stamp
  rewrite : s'.needRewrite = s.needRewrite ∧ s'.rewritePage = s.rewritePage
  frame : Frame s s'

section Sweep

variable {s s' : State} {D : Nat → Option (Nat → Sector)} {b k n : Nat} {i : Int}

/-- The count of a block with the same page states is the same. -/
theorem countUsing_congr {f f' : Ftl} {b : Nat} (h : f'.pageState b = f.pageState b) :
    f'.countUsing fip b = f.countUsing fip b := by
  unfold Ftl.countUsing
  rw [h]

/-- `using_page` is 0 exactly for the dead blocks. -/
theorem countUsing_eq_zero {f : Ftl} {b : Nat}
    (h : ∀ p, p < fip.ftlPageNum → (f.pageState b p = .pageUsing ↔ f.Live fip b p)) :
    f.countUsing fip b = 0 ↔ f.Dead fip b := by
  unfold Ftl.countUsing Ftl.Dead
  rw [countP_range_eq_zero]
  refine forall₂_congr fun p hp => ?_
  rw [decide_eq_false_iff_not, h p hp]

/-- What is on flash after the mount. -/
theorem SweptAt.disk (h : SweptAt fip D b k i s n s') (hi : i ≤ intMax) :
    Disk fip True intMax s'.vol D :=
  ⟨⟨b, k, i, hi, h.chain⟩, fun v hv => (h.index v hv).dataAt⟩

/-- The block that is being filled is live once it has a page. -/
theorem SweptAt.not_dead (h : SweptAt fip D b k i s n s') (hk : 0 < k) : ¬s.ftl.Dead fip b := by
  obtain ⟨v, hv, hn⟩ := h.chain.last_newest hk
  have hi := h.chain.index_newest (h.index v hv) hn
  rw [h.sameIndex] at hi
  exact fun hd => hd (k - 1) hn.page_lt ⟨v, hv, hi⟩

/-- A dead block without its content is still a chain, with the same index. -/
theorem SweptAt.unmap (h : SweptAt fip D b k i s n s') (hn : n < fip.lebNum)
    (hd : s.ftl.Dead fip n) : Chain fip True (s'.vol.unmap n) b k i ∧
      ∀ v, v < fip.virtualSectorNum → Indexed fip (s'.vol.unmap n) v (s'.ftl.sectorIndex v) (D v) := by
  have hno : ∀ p, p < fip.ftlPageNum → ¬s'.ftl.Live fip n p := by
    unfold Ftl.Live
    rw [h.sameIndex]
    exact hd
  refine ⟨h.chain.unmap hn (fun he => ?_) (h.chain.dominated h.index hn hno),
    fun v hv => (h.index v hv).unmap hv hno⟩
  subst he
  by_contra hk
  exact h.not_dead (Nat.pos_of_ne_zero hk) hd

/-- A live block: only `using_page` changes. -/
theorem SweptAt.keep (h : SweptAt fip D b k i s n s') (hd : ¬s.ftl.Dead fip n)
    {c : Int} (hc : c = s'.ftl.countUsing fip n) :
    SweptAt fip D b k i s (n + 1) (s'.onFtl fun f =>
      { f with usingPage := Function.update f.usingPage n c }) where
  chain := h.chain
  index := h.index
  sameIndex := h.sameIndex
  kept b' hb hor := h.kept b' hb (hor.imp_left Nat.le_of_succ_le)
  swept b' hlt hdb := by
    have : b' ≠ n := fun he => hd (he ▸ hdb)
    exact h.swept b' (by omega) hdb
  count b' hlt := by
    show Function.update s'.ftl.usingPage n c b' = s'.ftl.countUsing fip b'
    by_cases hb : b' = n
    · rw [hb, Function.update_self, hc]
    · rw [Function.update_of_ne hb]
      exact h.count b' (by omega)
  nodup := h.nodup
  fifo b' hb := ⟨Nat.lt_succ_of_lt (h.fifo b' hb).1, (h.fifo b' hb).2⟩
  queued hcap b' hlt hdb := by
    have : b' ≠ n := fun he => hd (he ▸ hdb)
    exact h.queued hcap b' (by omega) hdb
  cap := h.cap
  curOffset := h.curOffset
  logPage := h.logPage
  blockId := h.blockId
  stamp := h.stamp
  rewrite := h.rewrite
  frame := h.frame.trans (.onFtl s' _)

/-- The tables after a dead block was queued. -/
def Ftl.sweepBlock (f : Ftl) (n : Nat) : Ftl := (f.clearBlock n).pushBlock n

/-- A dead block is unmapped and queued. -/
theorem SweptAt.sweep (h : SweptAt fip D b k i s n s') (hn : n < fip.lebNum)
    (hd : s.ftl.Dead fip n) {s'' : State} (hvol : s''.vol = s'.vol.unmap n)
    {u : Nat → Int} (hu : ∀ b', b' ≠ n → u b' = s'.ftl.usingPage b')
    (hftl : s''.ftl = { s'.ftl with usingPage := u }.sweepBlock n)
    (hrw : s''.needRewrite = s'.needRewrite ∧ s''.rewritePage = s'.rewritePage)
    (hf : Frame s' s'') : SweptAt fip D b k i s (n + 1) s'' := by
  obtain ⟨hch, hidx⟩ := h.unmap hn hd
  have hindex : s''.ftl.sectorIndex = s'.ftl.sectorIndex := by
    rw [hftl, Ftl.sweepBlock, Ftl.pushBlock_sectorIndex]
    rfl
  have hstate : ∀ b' p, s''.ftl.pageState b' p =
      if b' = n then .pageEmpty else s'.ftl.pageState b' p := by
    intro b' p
    rw [hftl, Ftl.sweepBlock, Ftl.pushBlock_pageState]
    exact clearBlock_pageState _ n b' p
  have hstates : ∀ b', b' ≠ n → s''.ftl.pageState b' = s'.ftl.pageState b' := fun b' hb =>
    funext fun p => (hstate b' p).trans (if_neg hb)
  have hnew : n ∉ s'.ftl.emptyBlockFifo.items := fun hm => absurd (h.fifo n hm).1 (Nat.lt_irrefl n)
  have hcap : s''.ftl.emptyBlockFifo.cap = s'.ftl.emptyBlockFifo.cap := by
    rw [hftl, Ftl.sweepBlock, Ftl.pushBlock_cap]
    rfl
  have hitems : s''.ftl.emptyBlockFifo.items =
      if s'.ftl.emptyBlockFifo.items.length < s'.ftl.emptyBlockFifo.cap then
        s'.ftl.emptyBlockFifo.items ++ [n] else s'.ftl.emptyBlockFifo.items := by
    rw [hftl, Ftl.sweepBlock, Ftl.pushBlock]
    split <;> simp_all [Ftl.clearBlock]
  refine
    { chain := hvol ▸ hch, index := ?_, sameIndex := hindex.trans h.sameIndex, kept := ?_
      swept := ?_, count := ?_, nodup := ?_, fifo := ?_, queued := ?_, cap := hcap.trans h.cap
      curOffset := ?_, logPage := ?_, blockId := ?_, stamp := ?_
      rewrite := ⟨hrw.1.trans h.rewrite.1, hrw.2.trans h.rewrite.2⟩, frame := h.frame.trans hf }
  · -- index: no sector maps to a dead block
    intro v hv
    rw [hindex, hvol]
    exact hidx v hv
  · -- kept: `n` is dead, and was the next one
    intro b' hb hor
    have hne : b' ≠ n := by
      rintro rfl
      rcases hor with hle | hlive
      · omega
      · exact hlive hd
    rw [hvol, Volume.unmap_other _ hne, hstates b' hne]
    exact h.kept b' hb (hor.imp_left Nat.le_of_succ_le)
  · -- swept: `n` is now unmapped and empty
    intro b' hlt hdb
    by_cases hb : b' = n
    · subst hb
      exact ⟨by rw [hvol, Volume.unmap_same], fun p => (hstate b' p).trans (if_pos rfl)⟩
    · obtain ⟨hu, he⟩ := h.swept b' (by omega) hdb
      rw [hvol, Volume.unmap_other _ hb, hstates b' hb]
      exact ⟨hu, he⟩
  · -- count: none of its pages is in use
    intro b' hlt
    by_cases hb : b' = n
    · subst hb
      have hz : s''.ftl.countUsing fip b' = 0 :=
        countP_range_eq_zero.mpr fun p _ => by rw [hstate, if_pos rfl]; rfl
      rw [hz, hftl, Ftl.sweepBlock, Ftl.pushBlock_usingPage]
      exact Function.update_self ..
    · rw [countUsing_congr (hstates b' hb), ← h.count b' (by omega), ← hu b' hb, hftl,
        Ftl.sweepBlock, Ftl.pushBlock_usingPage]
      exact Function.update_of_ne hb ..
  · rw [hitems]
    split
    · exact List.nodup_append.mpr ⟨h.nodup, List.nodup_singleton n, fun a ha a' ha' => by
        rw [List.mem_singleton.mp ha']; rintro rfl; exact hnew ha⟩
    · exact h.nodup
  · -- fifo: it has the dead blocks up to `n`
    intro b' hb
    rw [hitems] at hb
    have hor : b' ∈ s'.ftl.emptyBlockFifo.items ∨ b' = n := by
      split at hb
      · simpa using hb
      · exact .inl hb
    rcases hor with ho | rfl
    · exact ⟨Nat.lt_succ_of_lt (h.fifo b' ho).1, (h.fifo b' ho).2⟩
    · exact ⟨Nat.lt_succ_self b', hd⟩
  · -- queued: the fifo has room, as `n` is not in it yet
    intro hle b' hlt hdb
    rw [hcap] at hle
    have hlen := length_lt_of_nodup h.nodup (fun a ha => (Nat.lt_trans (h.fifo a ha).1 hn)) hn hnew
    rw [hitems, if_pos (by omega)]
    by_cases hb : b' = n
    · exact List.mem_append_right _ (List.mem_singleton.mpr hb)
    · exact List.mem_append_left _ (h.queued hle b' (by omega) hdb)
  · rw [hftl, Ftl.sweepBlock, Ftl.pushBlock_curOffset]
    exact h.curOffset
  · rw [hftl, Ftl.sweepBlock, Ftl.pushBlock_blockLogPage]
    exact h.logPage
  · rw [hftl, Ftl.sweepBlock, Ftl.pushBlock_blockId]
    exact h.blockId
  · rw [hftl, Ftl.sweepBlock, Ftl.pushBlock_stamp]
    exact h.stamp

/-- **One block of `init_status`.** -/
theorem initBlock_spec (hwf : fip.Wf) (hA : Calm A) (hi : i ≤ intMax) (hn : n < fip.lebNum)
    (huse : ∀ p, p < fip.ftlPageNum → (s.ftl.pageState n p = .pageUsing ↔ s.ftl.Live fip n p))
    (h : SweptAt fip D b k i s n s') :
    wp A Fed (initBlock fip n) (fun _ => SweptAt fip D b k i s (n + 1)) (MountCut fip D s) s' := by
  have hkept := h.kept n hn (.inl (Nat.le_refl n))
  have hcount : s'.ftl.countUsing fip n = s.ftl.countUsing fip n := countUsing_congr hkept.2
  have hzero := countUsing_eq_zero huse
  simp only [initBlock, wp_bind, wp_modifyState, wp_getState, wp_when]
  have husing : (s'.onFtl fun f => { f with
      usingPage := Function.update f.usingPage n (f.countUsing fip n) }).ftl.usingPage n =
      s.ftl.countUsing fip n := by
    rw [← hcount]
    exact Function.update_self ..
  rw [husing]
  refine ⟨fun h0 => ?_, fun h0 => h.keep (fun hd => h0 (by rw [hzero.mpr hd]; rfl)) rfl⟩
  have hd : s.ftl.Dead fip n := hzero.mp (by omega)
  refine wp_mono (ftlErase_spec hA hwf hn) ?_ ?_
  · rintro _ s₁ rfl
    refine wp_mono (kfifoIn_spec) ?_ fun _ _ he => he
    rintro _ s₂ rfl
    exact h.sweep hn hd rfl (fun b' hb => Function.update_of_ne hb ..) rfl ⟨rfl, rfl⟩
      ⟨rfl, rfl, rfl, rfl, rfl⟩
  · rintro e s₁ ⟨rfl, hcut, hor⟩
    refine ⟨rfl, h.frame.mayCut hcut, ?_, ?_⟩
    · rcases hor with rfl | rfl
      · exact h.disk hi
      · obtain ⟨hch, hidx⟩ := h.unmap hn hd
        exact ⟨⟨b, k, i, hi, hch⟩, fun v hv => (hidx v hv).dataAt⟩
    · rcases hor with rfl | rfl <;> exact h.frame.journal

end Sweep

/-! ## The block to write next -/

section Resume

variable {s s' : State} {vol w : Volume} {D : Nat → Option (Nat → Sector)} {b k n : Nat} {i : Int}

/-- All pages were scanned. -/
theorem before_all {b' p : Nat} (hb : b' < fip.lebNum) : before fip.lebNum 0 b' p := .inl hb

/-- A complete scan names the newest copies. -/
theorem Scanned.indexed {f : Ftl} {ids : Nat → Int}
    (h : Scanned fip vol (before fip.lebNum 0) f ids) (hch : Chain fip True vol b k i) {v : Nat}
    (hv : v < fip.virtualSectorNum) (hD : DataAt fip vol v (D v)) :
    Indexed fip vol v (f.sectorIndex v) (D v) := by
  rcases h.index v hv with ⟨hno, hi, -⟩ | ⟨b', p, j, hb', -, hc, hmax, hi, -⟩
  · cases hd : D v with
    | none => exact ⟨hi, fun b' p j hb' => hno b' p j hb' (before_all hb')⟩
    | some d =>
      rw [hd] at hD
      obtain ⟨b', p, -, ⟨hb', j, hc, -⟩, -⟩ := hD
      exact absurd hc (hno b' p j hb' (before_all hb'))
  · have hn : Newest fip vol v b' p :=
      ⟨hb', j, hc, fun b'' q l hb'' => hmax b'' q l hb'' (before_all hb'')⟩
    cases hd : D v with
    | none =>
      rw [hd] at hD
      exact absurd hc (hD b' p j hb')
    | some d =>
      rw [hd] at hD
      obtain ⟨b'', q, pg, hn', hpg, he⟩ := hD
      obtain ⟨rfl, rfl⟩ := hch.newest_unique hn hn'
      exact ⟨b', p, pg, hi, hn, hpg, he⟩

/-- With nothing left to fill, another block may be opened, under any id above those on flash. -/
theorem Chain.reopen (h : Chain fip True vol b k i) (hP : 0 < fip.ftlPageNum)
    (hk : k = 0 ∨ k = fip.ftlPageNum ∧ LogOk fip (vol.leb b) i) {b' : Nat} {i' : Int}
    (hb' : b' < fip.lebNum)
    (hmax : ∀ a p v j, a < fip.lebNum → Copy fip (vol.leb a) p v j → j < i') :
    Chain fip True vol b' 0 i' where
  lt := hb'
  cur hk := absurd hk (Nat.lt_irrefl 0)
  other a ha _ := by
    have hor : Stub fip (vol.leb a) ∨ (vol.leb a).mapped = true ∧ ∃ j, Closed fip True (vol.leb a) j := by
      by_cases hab : a = b ∧ 0 < k
      · obtain ⟨rfl, hk0⟩ := hab
        obtain ⟨rfl, hlog⟩ := hk.resolve_left (by omega)
        exact .inr ⟨(h.cur hk0).2.1, i, (h.cur hk0).1, fun _ => hlog⟩
      · exact (h.other a ha (by omega)).imp_right fun ⟨hm, j, _, hc⟩ => ⟨hm, j, hc⟩
    refine hor.imp_right fun ⟨hm, j, hc⟩ => ⟨hm, j, ?_, hc⟩
    obtain ⟨v, -, hcp⟩ := hc.1.exists_copy hP
    exact hmax a 0 v j ha hcp
  former a ha c hcf := (h.former a ha c hcf).imp_right fun ⟨j, _, hc⟩ => by
    -- the copies that dominate those of a former content are on flash
    obtain ⟨v, -, hcp⟩ := hc.1.exists_copy hP
    obtain ⟨b'', q, l, hb'', hq, hle⟩ := h.dom a ha c hcf 0 v j hcp
    have := hmax b'' q v l hb'' hq
    refine ⟨j, ?_, hc⟩
    unfold StampLe at hle
    omega
  uniq := h.uniq
  dom := h.dom

/-- `ftl_rescure` keeps the copies. -/
theorem sameCopies_keepPages {v : Nat} (hsh : Shape fip (vol.leb b) i k) :
    SameCopies fip vol (vol.keepPages b k) v := by
  intro b' p pg hb' hp _
  unfold Volume.keepPages
  by_cases hb : b' = b
  · subst hb
    rw [Volume.setLeb_same]
    show (if p < k then (vol.leb b').page p else .erased) = _ ↔ _
    split
    · exact Iff.rfl
    · rename_i hpk
      rcases hsh.tail p (by omega) hp with he | ⟨-, he⟩ <;> simp [he]
  · rw [Volume.setLeb_other _ _ hb]

/-- `ftl_rescure` of the open block. -/
theorem Chain.keepPages (h : Chain fip True vol b k i) (hop : OpenAt vol b k) :
    Chain fip True (vol.keepPages b k) b k i := by
  obtain ⟨hsh, -, -⟩ := h.cur hop.1
  refine h.rewrite (fun _ => ⟨⟨hsh.le, fun p hp => ?_, fun p hp _ => ?_⟩, rfl, .inl rfl⟩)
    (fun h0 => absurd hop.1 (by omega)) fun p v j hc => ?_
  · rw [show ((vol.leb b).keepPages k).page p = (vol.leb b).page p from if_pos hp]
    exact hsh.head p hp
  · exact .inl (if_neg (by omega))
  · obtain ⟨hp, pg, hpg, hrest⟩ := hc
    have hpk := (hsh.copy ⟨hp, pg, hpg, hrest⟩).1
    exact ⟨hp, pg, (if_pos hpk).trans hpg, hrest⟩

/-- In a block whose pages behind the last one are erased, the erased pages are those without a
    copy. -/
theorem Shape.erased_iff {c : Leb} (h : Shape fip c i k)
    (hclean : ∀ p, k ≤ p → p < fip.ftlPageNum → c.page p = .erased) {p : Nat}
    (hp : p < fip.ftlPageNum) : c.page p = .erased ↔ ¬∃ v j, Copy fip c p v j := by
  constructor
  · rintro he ⟨v, j, -, pg, hpg, -⟩
    rw [he] at hpg
    cases hpg
  · intro hno
    by_cases hk : p < k
    · obtain ⟨v, -, hc⟩ := h.exists_copy hk
      exact absurd ⟨v, i, hc⟩ hno
    · exact hclean p (by omega) hp

/-- The tables after the sweep: what is in use and what is empty. -/
theorem SweptAt.states (h : SweptAt fip D b k i s fip.lebNum s')
    (hscan : Scanned fip s.vol (before fip.lebNum 0) s.ftl s.sectorId) {b' p : Nat}
    (hb : b' < fip.lebNum) (hp : p < fip.ftlPageNum) :
    (s'.ftl.pageState b' p = .pageUsing ↔ s'.ftl.Live fip b' p) ∧
    (s'.ftl.pageState b' p = .pageEmpty ↔ ¬∃ v j, Copy fip (s'.vol.leb b') p v j) := by
  have hlive : s'.ftl.Live fip b' p ↔ s.ftl.Live fip b' p := by
    unfold Ftl.Live
    rw [h.sameIndex]
  rw [hlive]
  by_cases hd : s.ftl.Dead fip b'
  · obtain ⟨hu, he⟩ := h.swept b' hb hd
    rw [he p, hu]
    exact ⟨⟨fun hc => (by cases hc), fun hl => absurd hl (hd p hp)⟩,
      fun _ ⟨_, _, hc⟩ => blank_unmapped.stub.no_copy hc, fun _ => rfl⟩
  · obtain ⟨hv, hps⟩ := h.kept b' hb (.inr hd)
    rw [hv, hps]
    exact ⟨hscan.inUse b' p hb hp, (hscan.empty b' p hb hp).trans
      (not_congr (and_iff_right (before_all hb)))⟩

/-- What the blocks are after the sweep, apart from the open one. -/
theorem SweptAt.blank_or_closed (h : SweptAt fip D b k i s fip.lebNum s')
    (hk : k = 0 ∨ k = fip.ftlPageNum ∧ LogOk fip (s'.vol.leb b) i ∨ n ≠ b) (hn : n < fip.lebNum) :
    Blank fip (s'.vol.leb n) ∧ s.ftl.Dead fip n ∨
      (∃ j, Closed fip True (s'.vol.leb n) j) ∧ ¬s.ftl.Dead fip n := by
  by_cases hd : s.ftl.Dead fip n
  · refine .inl ⟨?_, hd⟩
    rw [(h.swept n hn hd).1]
    exact blank_unmapped
  · refine .inr ⟨?_, hd⟩
    by_cases hb : n = b ∧ 0 < k
    · obtain ⟨rfl, hk0⟩ := hb
      rcases hk with h0 | ⟨rfl, hlog⟩ | hne
      · omega
      · exact ⟨i, (h.chain.cur hk0).1, fun _ => hlog⟩
      · exact absurd rfl hne
    · rcases h.chain.other n hn (by omega) with hs | ⟨-, j, -, hc⟩
      · -- a block without copies is dead
        refine absurd (fun p hp => ?_) hd
        rintro ⟨v, hv, hi⟩
        have hx := h.index v hv
        rw [h.sameIndex, hi] at hx
        obtain ⟨-, j, hc, -⟩ := hx.newest hp
        exact hs.no_copy hc
      · exact ⟨j, hc⟩

/-- **Resuming with the open block.** -/
theorem SweptAt.resume (h : SweptAt fip D b k i s fip.lebNum s') (hch : Chain fip True s.vol b k i)
    (hi : i ≤ intMax) (hscan : ScanAt fip s.vol b k fip.lebNum s) (hop : OpenAt s.vol b k)
    (hw : Chain fip True w b k i) (hsame : ∀ v, SameCopies fip s'.vol w v)
    (hother : ∀ b', b' ≠ b → w.leb b' = s'.vol.leb b') (hlog : (w.leb b).log = .erased)
    (hclean : ∀ p, k ≤ p → p < fip.ftlPageNum → (w.leb b).page p = .erased) :
    InvAt fip True noOrphan b k s'.ftl w D := by
  obtain ⟨hcur, hentries, -⟩ := hscan.opened hop hch.lt
  have hlive := h.not_dead hop.1
  have hkept := h.kept b hch.lt (.inr hlive)
  have hshape := (hw.cur hop.1).1
  have hfirst : ∃ v, Copy fip (s.vol.leb b) 0 v i :=
    let ⟨v, _, hc⟩ := (hch.cur hop.1).1.exists_copy hop.1
    ⟨v, hc⟩
  obtain ⟨v₀, hc₀⟩ := hfirst
  have hpos := (hch.copy hch.lt hc₀).2.1
  -- the id of the open block is the largest
  have hid : s'.ftl.blockId = i := by
    rw [h.blockId]
    have hle := hscan.scanned.idMax b 0 v₀ i hch.lt (before_all hch.lt) hc₀
    rcases hscan.scanned.idSome with h0 | ⟨b', p', v', hb', -, hc'⟩
    · omega
    · have := (hch.copy hb' hc').2.2.2
      omega
  have hstamp : s'.ftl.stamp = i := by
    rw [h.stamp, hscan.scanned.stamp, ← h.blockId]
    exact hid
  have hblock : ∀ n, n < fip.lebNum → n ≠ b →
      Blank fip (w.leb n) ∧ s.ftl.Dead fip n ∨ (∃ j, Closed fip True (w.leb n) j) ∧ ¬s.ftl.Dead fip n :=
    fun n hn hne => by
      rw [hother n hne]
      exact h.blank_or_closed (.inr (.inr hne)) hn
  refine
    { chain := hstamp ▸ hw, stamp_pos := hstamp ▸ hpos, id := ?_, curBlock := ?_, le := hshape.le
      clean := hclean
      cleanLog := fun _ => hlog, others := fun n hn hne => (hblock n hn hne).imp And.left And.left
      nodup := h.nodup, fifo := ?_, queued := ?_, index := fun v hv => (h.index v hv).same (hsame v)
      empty := ?_, inUse := ?_, orphan := fun _ _ hX => hX.elim, count := ?_, entries := ?_ }
  · rw [hid, hstamp, wrapInt_of_le (Int.le_of_lt hpos) hi]
  · rw [h.curOffset, hcur]
  · intro n hn
    obtain ⟨hlt, hd⟩ := h.fifo n hn
    have hne : n ≠ b := fun he => hlive (he ▸ hd)
    rcases hblock n hlt hne with ⟨hb, -⟩ | ⟨-, hnd⟩
    · exact ⟨hlt, hne, hb⟩
    · exact absurd hd hnd
  · intro hcap n hn hne hblank
    refine h.queued hcap n hn ?_
    rcases hblock n hn hne with ⟨-, hd⟩ | ⟨⟨j, hc⟩, -⟩
    · exact hd
    · obtain ⟨l, hl, -⟩ := hc.2 trivial
      rw [hblank.2] at hl
      cases hl
  · intro n p hn hp
    rw [(h.states hscan.scanned hn hp).2]
    have hcopies : (∃ v j, Copy fip (s'.vol.leb n) p v j) ↔ ∃ v j, Copy fip (w.leb n) p v j :=
      exists_congr fun v => exists_congr fun j => ((hsame v).copy hn).symm
    rw [hcopies]
    by_cases hne : n = b
    · subst hne
      exact (hshape.erased_iff hclean hp).symm
    · rcases hblock n hn hne with ⟨hb, -⟩ | ⟨⟨j, hc⟩, -⟩
      · exact (hb.stub.1.erased_iff (fun p _ hp => hb.1 p hp) hp).symm
      · exact (hc.1.erased_iff (fun p hle hp => absurd hp (by omega)) hp).symm
  · intro n p hn hp
    rw [(h.states hscan.scanned hn hp).1]
    exact (or_iff_left id).symm
  · exact fun n hn => h.count n hn
  · intro p hp pg hpg
    rw [h.logPage]
    refine hentries p hp pg ?_
    rw [← hkept.1]
    obtain ⟨pg', hpg', hg⟩ := hshape.head p hp
    rw [hpg] at hpg'
    cases hpg'
    have h0 := hg.sector_nonneg
    have hP := hshape.le
    exact (hsame pg.log.sector.toNat b p pg hch.lt (by omega) (by omega)).mp hpg

/-- **Starting a fresh block.** -/
theorem SweptAt.fresh (h : SweptAt fip D b k i s fip.lebNum s') (hwf : fip.Wf)
    (hch : Chain fip True s.vol b k i) (hscan : ScanAt fip s.vol b k fip.lebNum s)
    (hop : ¬OpenAt s.vol b k) {b' : Nat} {rest : List Nat}
    (hq : s'.ftl.emptyBlockFifo.items = b' :: rest) :
    InvAt fip True noOrphan b' 0
      { s'.ftl.nextId with
        emptyBlockFifo := { s'.ftl.emptyBlockFifo with items := rest }
        curOffset := ⟨b', -1⟩ } s'.vol D := by
  have hP := hwf.page_pos
  -- the block that was being filled is empty, or full and has its log page
  have hk : k = 0 ∨ k = fip.ftlPageNum ∧ LogOk fip (s'.vol.leb b) i := by
    rcases Nat.eq_zero_or_pos k with h0 | hk0
    · exact .inl h0
    · rcases (hch.cur hk0).2.2 with he | hl
      · exact absurd ⟨hk0, he⟩ hop
      · rw [(h.kept b hch.lt (.inr (h.not_dead hk0))).1]
        exact .inr hl
  have hblock : ∀ n, n < fip.lebNum →
      Blank fip (s'.vol.leb n) ∧ s.ftl.Dead fip n ∨
        (∃ j, Closed fip True (s'.vol.leb n) j) ∧ ¬s.ftl.Dead fip n := fun n hn =>
    h.blank_or_closed (hk.imp_right .inl) hn
  have hmem : ∀ n, n ∈ b' :: rest → n < fip.lebNum ∧ s.ftl.Dead fip n := fun n hn =>
    h.fifo n (hq ▸ hn)
  obtain ⟨hb', hdead⟩ := hmem b' (List.mem_cons_self ..)
  have hblank : ∀ n, n < fip.lebNum → s.ftl.Dead fip n → Blank fip (s'.vol.leb n) := by
    intro n hn hd
    rcases hblock n hn with ⟨hb, -⟩ | ⟨-, hnd⟩
    · exact hb
    · exact absurd hd hnd
  obtain ⟨hnotin, hnodup⟩ := List.nodup_cons.mp (hq ▸ h.nodup)
  have hbl := hblank b' hb' hdead
  have hstamp : s'.ftl.stamp = s.ftl.blockId := h.stamp.trans hscan.scanned.stamp
  have hmax : ∀ a p v j, a < fip.lebNum → Copy fip (s'.vol.leb a) p v j →
      j < s'.ftl.stamp + 1 := by
    intro a p v j ha hc
    rw [hstamp]
    by_cases hd : s.ftl.Dead fip a
    · rw [(h.swept a ha hd).1] at hc
      exact absurd hc blank_unmapped.stub.no_copy
    · rw [(h.kept a ha (.inr hd)).1] at hc
      have := hscan.scanned.idMax a p v j ha (before_all ha) hc
      omega
  refine
    { chain := h.chain.reopen hP hk hb' hmax, stamp_pos := ?_, id := ?_, curBlock := rfl
      le := Nat.zero_le _
      clean := fun p _ hp => hbl.1 p hp, cleanLog := fun _ => hbl.2
      others := fun n hn _ => (hblock n hn).imp And.left And.left
      nodup := hnodup, fifo := ?_, queued := ?_, index := h.index
      empty := ?_, inUse := ?_, orphan := fun _ _ hX => hX.elim, count := fun n hn => h.count n hn
      entries := fun p hp => absurd hp (Nat.not_lt_zero p) }
  · show 0 < s'.ftl.stamp + 1
    have := hscan.scanned.idNonneg
    rw [hstamp]
    omega
  · show wrapInt (s'.ftl.blockId + 1) = wrapInt (s'.ftl.stamp + 1)
    rw [hstamp, h.blockId]
  · intro n hn
    obtain ⟨hlt, hd⟩ := hmem n (List.mem_cons_of_mem _ hn)
    exact ⟨hlt, by rintro rfl; exact hnotin hn, hblank n hlt hd⟩
  · intro hcap n hn hne hbn
    have hd : s.ftl.Dead fip n := by
      rcases hblock n hn with ⟨-, hd⟩ | ⟨⟨j, hc⟩, -⟩
      · exact hd
      · obtain ⟨l, hl, -⟩ := hc.2 trivial
        rw [hbn.2] at hl
        cases hl
    have := h.queued hcap n hn hd
    rw [hq] at this
    exact (List.mem_cons.mp this).resolve_left hne
  · intro n p hn hp
    show s'.ftl.pageState n p = .pageEmpty ↔ _
    rw [(h.states hscan.scanned hn hp).2]
    rcases hblock n hn with ⟨hb, -⟩ | ⟨⟨j, hc⟩, -⟩
    · exact (hb.stub.1.erased_iff (fun p _ hp => hb.1 p hp) hp).symm
    · exact (hc.1.erased_iff (fun p hle hp => absurd hp (by omega)) hp).symm
  · intro n p hn hp
    show s'.ftl.pageState n p = .pageUsing ↔ s'.ftl.Live fip n p ∨ False
    rw [(h.states hscan.scanned hn hp).1]
    exact (or_iff_left id).symm

end Resume

/-! ## `init_status` and `ftl_core_io_init` -/

section Init

variable {s : State} {D : Nat → Option (Nat → Sector)} {b k n : Nat} {i : Int}

/-- `ftl_rescure` of a block whose first `n` pages can be read. -/
theorem ftlRescure_spec (hwf : fip.Wf) (hA : Calm A) (hb : b < fip.lebNum)
    (hread : ∀ p, p < n → ∃ pg, (s.vol.leb b).page p = .written pg) :
    wp A Fed (ftlRescure fip b n)
      (fun _ s' => (n = 0 ∧ s'.vol = s.vol ∨ 0 < n ∧ s'.vol = s.vol.keepPages b n) ∧ Frame s s' ∧
        s'.ftl = s.ftl)
      (fun e s' => e = .powerCut ∧ s.mayCut ∧ Frame s s' ∧
        (s'.vol = s.vol ∨ 0 < n ∧ s'.vol = s.vol.keepPages b n)) s := by
  have hin : fip.inVolume b 0 := inVolume_page hwf.leb_page hb (Nat.zero_le _)
  unfold ftlRescure
  rw [if_pos hin]
  by_cases hn : n = 0
  · rw [if_pos hn]
    exact ⟨.inl ⟨hn, rfl⟩, .refl s, rfl⟩
  · rw [if_neg hn, wp_bind]
    refine wp_mono (flashOp_spec hA (by simp) (by simp)) ?_ ?_
    · rintro _ s₁ ⟨-, rfl⟩
      simp only [wp_bind, wp_getState, Int.toNat_natCast]
      have hall : ∀ p, p < n →
          ((((s.tick.onVol id).vol.leb b).page p).read Page.blank).isSome = true := by
        intro p hp
        obtain ⟨pg, hpg⟩ := hread p hp
        show (((s.vol.leb b).page p).read Page.blank).isSome = true
        rw [hpg]
        rfl
      rw [if_pos hall]
      have hf : Frame s (s.tick.onVol id) := (Frame.tick s).trans (.onVol _ _)
      refine wp_mono (flashOp_spec hA (by simp) (by simp)) ?_ ?_
      · rintro _ s₂ ⟨-, rfl⟩
        exact ⟨.inr ⟨by omega, rfl⟩, hf.trans ((Frame.tick _).trans (.onVol _ _)), rfl⟩
      · rintro e s₂ ⟨rfl, hcut, rfl | ⟨-, rfl⟩⟩
        · exact ⟨rfl, hf.mayCut hcut, hf.trans (.tick _), .inl rfl⟩
        · exact ⟨rfl, hf.mayCut hcut, hf.trans ((Frame.tick _).trans (.onVol _ _)),
            .inr ⟨by omega, rfl⟩⟩
    · rintro e s₁ ⟨rfl, hcut, rfl | ⟨-, rfl⟩⟩
      · exact ⟨rfl, hcut, .tick s, .inl rfl⟩
      · exact ⟨rfl, hcut, (Frame.tick s).trans (.onVol _ _), .inl rfl⟩

/-- All buffers are free. -/
def FreePool (pool : Nat → PageBuf) : Prop :=
  ∀ j, j < bufNum → (pool j).sector = ftlNomap ∧ (pool j).sectorState = 0 ∧ (pool j).read = false

/-- A mount found the flash of `s`, with block `b`, which has the largest number `i`, open at page `k` if
    `OpenAt`. -/
structure Remounted (fip : UftlInfo) (D : Nat → Option (Nat → Sector)) (b k : Nat) (i : Int)
    (cap : Nat) (s s' : State) : Prop where
  ready : Ready fip True (OpenAt s.vol b k ∧ k = fip.ftlPageNum) s'.ftl s'.vol D
  index : ∀ v, v < fip.virtualSectorNum → Indexed fip s.vol v (s'.ftl.sectorIndex v) (D v)
  position : OpenAt s.vol b k ∧ s'.ftl.curOffset = ⟨b, (k : Int) - 1⟩ ∨
    ¬OpenAt s.vol b k ∧ s'.ftl.curOffset.page = -1
  dead : ∀ b', b' < fip.lebNum → (∀ v p, ¬Newest fip s.vol v b' p) → Blank fip (s'.vol.leb b')
  stamp : s'.ftl.stamp ≤ max 0 i + 1
  cap : s'.ftl.emptyBlockFifo.cap = cap
  checkCount : s'.checkCount = 0
  fullState : s'.fullState = fullStateOf fip
  pool : FreePool s'.pool
  journal : s'.journal = s.journal
  faults : s'.env.faults = s.env.faults

/-- A block without a newest copy is dead. -/
theorem dead_of_no_newest {f : Ftl} {vol : Volume} (hidx : ∀ v, v < fip.virtualSectorNum →
    Indexed fip vol v (f.sectorIndex v) (D v)) (hno : ∀ v p, ¬Newest fip vol v b p) :
    f.Dead fip b := by
  rintro p hp ⟨v, hv, hi⟩
  have hx := hidx v hv
  rw [hi] at hx
  exact hno v p (hx.newest hp)

/-- The scan finds no number above that of the last block. -/
theorem ScanAt.stamp_le (h : ScanAt fip s.vol b k fip.lebNum s) (hch : Chain fip L s.vol b k i) :
    s.ftl.stamp ≤ max 0 i := by
  rw [h.scanned.stamp]
  rcases h.scanned.idSome with h0 | ⟨b', p, v, hb', -, hc⟩
  · omega
  · have := (hch.copy hb' hc).2.2.2
    omega

/-- **`init_status`** after the scan. -/
theorem initStatus_spec (hwf : fip.Wf) (hA : Calm A) (hch : Chain fip True s.vol b k i)
    (hi : i ≤ intMax) (hD : ∀ v, v < fip.virtualSectorNum → DataAt fip s.vol v (D v))
    (hscan : ScanAt fip s.vol b k fip.lebNum s) (hpool : FreePool s.pool) {cap : Nat}
    (hfed : A .noFreeBlock → fip.lebNum ≤ cap ∧ (OpenAt s.vol b k ∨
      ∃ b', b' < fip.lebNum ∧ ∀ v p, ¬Newest fip s.vol v b' p)) :
    wp A Fed (initStatus fip cap) (fun _ => Remounted fip D b k i cap s) (MountCut fip D s) s := by
  simp only [initStatus, wp_bind, wp_modifyState]
  generalize hs₀ : s.onFtl (fun f => { f with emptyBlockFifo := ⟨cap, []⟩ }) = s₀
  have hf₀ : Frame s s₀ := by subst hs₀; exact .onFtl s _
  have hv₀ : s₀.vol = s.vol := by subst hs₀; rfl
  have hscan₀ : ScanAt fip s₀.vol b k fip.lebNum s₀ := by
    have hsc := hscan.scanned
    subst hs₀
    exact ⟨rfl, ⟨hsc.index, hsc.inUse, hsc.empty, hsc.idNonneg, hsc.stamp, hsc.idMax, hsc.idSome⟩,
      hscan.closed, hscan.opened, hscan.rewrite⟩
  rw [← hv₀] at hch hD hfed
  have hindex : ∀ v, v < fip.virtualSectorNum →
      Indexed fip s₀.vol v (s₀.ftl.sectorIndex v) (D v) := fun v hv =>
    hscan₀.scanned.indexed hch hv (hD v hv)
  have hcap₀ : s₀.ftl.emptyBlockFifo = ⟨cap, []⟩ := by subst hs₀; rfl
  have hstart : SweptAt fip D b k i s₀ 0 s₀ :=
    { chain := hch, index := hindex, sameIndex := rfl, kept := fun _ _ _ => ⟨rfl, rfl⟩
      swept := fun b' hb => absurd hb (Nat.not_lt_zero b')
      count := fun b' hb => absurd hb (Nat.not_lt_zero b')
      nodup := by rw [hcap₀]; exact List.nodup_nil
      fifo := fun b' hb => by rw [hcap₀] at hb; cases hb
      queued := fun _ b' hb => absurd hb (Nat.not_lt_zero b')
      cap := rfl, curOffset := rfl, logPage := rfl, blockId := rfl, stamp := rfl
      rewrite := ⟨rfl, rfl⟩, frame := .refl s₀ }
  refine wp_mono (wp_forUpto (fun n => SweptAt fip D b k i s₀ n) hstart fun n hn s₁ h₁ =>
    initBlock_spec hwf hA hi hn (fun p hp => hscan₀.scanned.inUse n p hn hp) h₁) ?_
    (fun e s' he => he.trans hf₀)
  rintro _ s₁ h₁
  have hf₁ := hf₀.trans h₁.frame
  -- what both ways out have in common
  have hpost : ∀ s₂ : State, Ready fip True (OpenAt s.vol b k ∧ k = fip.ftlPageNum) s₂.ftl s₂.vol D →
      s₂.ftl.sectorIndex = s₁.ftl.sectorIndex →
      (OpenAt s.vol b k ∧ s₂.ftl.curOffset = ⟨b, (k : Int) - 1⟩ ∨
        ¬OpenAt s.vol b k ∧ s₂.ftl.curOffset.page = -1) →
      (∀ n, s₀.ftl.Dead fip n → n < fip.lebNum → s₂.vol.leb n = s₁.vol.leb n) →
      s₂.ftl.stamp ≤ s₁.ftl.stamp + 1 → s₂.ftl.emptyBlockFifo.cap = s₁.ftl.emptyBlockFifo.cap → Frame s₁ s₂ →
      Remounted fip D b k i cap s { s₂ with fullState := fullStateOf fip, checkCount := 0 } := by
    intro s₂ hready hsi hpos hdead hstamp hcap hf₂
    have hf := hf₁.trans hf₂
    refine ⟨hready, fun v hv => ?_, hpos, fun n hn hno => ?_, ?_, ?_, rfl, rfl, hf.pool ▸ hpool,
      hf.journal, hf.faults⟩
    · show Indexed fip s.vol v (s₂.ftl.sectorIndex v) (D v)
      rw [hsi, h₁.sameIndex, ← hv₀]
      exact hindex v hv
    · have hd := dead_of_no_newest hindex (hv₀ ▸ hno)
      show Blank fip (s₂.vol.leb n)
      rw [hdead n hd hn, (h₁.swept n hn hd).1]
      exact blank_unmapped
    · show s₂.ftl.stamp ≤ max 0 i + 1
      have := h₁.stamp ▸ hscan₀.stamp_le hch
      omega
    · rw [hcap, h₁.cap, hcap₀]
  simp only [wp_getState, wp_ite]
  by_cases hop : OpenAt s₀.vol b k
  · obtain ⟨hcur₀, -, htail⟩ := hscan₀.opened hop hch.lt
    have hcur : s₁.ftl.curOffset = ⟨b, (k : Int) - 1⟩ := h₁.curOffset.trans hcur₀
    have hlive := h₁.not_dead hop.1
    have hkept := (h₁.kept b hch.lt (.inr hlive)).1
    have hop₁ : OpenAt s₁.vol b k := ⟨hop.1, by rw [hkept]; exact hop.2⟩
    obtain ⟨hsh, -, -⟩ := h₁.chain.cur hop.1
    rw [hcur]
    refine ⟨fun he => absurd he (by show ¬((b : Int) = -1); omega), fun _ => ?_⟩
    have hready : ∀ w, Chain fip True w b k i → (∀ v, SameCopies fip s₁.vol w v) →
        (∀ b', b' ≠ b → w.leb b' = s₁.vol.leb b') → (w.leb b).log = .erased →
        (∀ p, k ≤ p → p < fip.ftlPageNum → (w.leb b).page p = .erased) →
        Ready fip True (OpenAt s.vol b k ∧ k = fip.ftlPageNum) s₁.ftl w D := by
      intro w hw hsame hother hlog hclean
      refine ⟨b, k, h₁.resume hch hi hscan₀ hop hw hsame hother hlog hclean, ?_, by rw [hcur]⟩
      by_cases hk : k = fip.ftlPageNum
      · exact .inl ⟨hv₀ ▸ hop, hk⟩
      · exact .inr fun he => absurd he hk
    have hpos : OpenAt s.vol b k ∧ s₁.ftl.curOffset = ⟨b, (k : Int) - 1⟩ ∨
        ¬OpenAt s.vol b k ∧ s₁.ftl.curOffset.page = -1 := .inl ⟨hv₀ ▸ hop, hcur⟩
    -- nothing is torn, or the rescue has nothing to do
    have hsimple : ∀ s₂ : State, s₂.vol = s₁.vol → s₂.ftl = s₁.ftl → Frame s₁ s₂ →
        (k < fip.ftlPageNum → (s₀.vol.leb b).page k = .erased) →
        Remounted fip D b k i cap s { s₂ with fullState := fullStateOf fip, checkCount := 0 } := by
      intro s₂ hv₂ hftl₂ hf₂ herased
      refine hpost s₂ ?_ (by rw [hftl₂]) (by rw [hftl₂]; exact hpos) (fun n _ _ => by rw [hv₂])
        (by rw [hftl₂]; omega) (by rw [hftl₂]) hf₂
      rw [hv₂, hftl₂]
      refine hready s₁.vol h₁.chain (fun _ _ _ _ _ _ _ => Iff.rfl) (fun _ _ => rfl) hop₁.2 ?_
      intro p hkp hp
      rcases hsh.tail p hkp hp with he | ⟨rfl, -⟩
      · exact he
      · rw [hkept]
        exact herased hp
    rw [wp_bind, wp_when]
    refine ⟨fun hneed => ?_, fun hneed => ?_⟩
    · have hpage : 0 < s₁.rewritePage → s₁.rewritePage = k := by
        rw [h₁.rewrite.1] at hneed
        rw [h₁.rewrite.2]
        rcases hscan₀.rewrite hneed with h0 | ⟨-, hk⟩
        · omega
        · exact fun _ => hk
      have hread : ∀ p, p < s₁.rewritePage → ∃ pg, (s₁.vol.leb b).page p = .written pg := by
        intro p hp
        have := hpage (by omega)
        obtain ⟨pg, hpg, -⟩ := hsh.head p (by omega)
        exact ⟨pg, hpg⟩
      refine wp_mono (ftlRescure_spec hwf hA hch.lt hread) ?_ ?_
      · rintro _ s₂ ⟨hvol₂, hf₂, hftl₂⟩
        rcases hvol₂ with ⟨h0, hvol₂⟩ | ⟨hpos₂, hvol₂⟩
        · refine hsimple s₂ hvol₂ hftl₂ hf₂ fun hk => (htail hk).resolve_right ?_
          rintro ⟨-, hrw⟩
          have := hop.1
          rw [h₁.rewrite.2] at h0
          omega
        · rw [hpage hpos₂] at hvol₂
          refine hpost s₂ ?_ (by rw [hftl₂]) (by rw [hftl₂]; exact hpos) ?_ (by rw [hftl₂]; omega)
            (by rw [hftl₂]) hf₂
          · rw [hvol₂, hftl₂]
            refine hready _ (h₁.chain.keepPages hop₁) (fun v => sameCopies_keepPages hsh)
              (fun b' hb' => Volume.setLeb_other _ _ hb') ?_ fun p hkp _ => ?_
            · unfold Volume.keepPages
              rw [Volume.setLeb_same]
              rfl
            · unfold Volume.keepPages
              rw [Volume.setLeb_same]
              exact if_neg (by omega)
          · intro n hd _
            rw [hvol₂]
            exact Volume.setLeb_other _ _ fun he => hlive (he ▸ hd)
      · rintro e s₂ ⟨rfl, hcut, hf₂, hvol₂⟩
        refine ⟨rfl, hf₁.mayCut hcut, ?_, (hf₁.trans hf₂).journal⟩
        rcases hvol₂ with hvol₂ | ⟨hpos₂, hvol₂⟩
        · rw [hvol₂]
          exact h₁.disk hi
        · rw [hpage hpos₂] at hvol₂
          rw [hvol₂]
          exact ⟨⟨b, k, i, hi, h₁.chain.keepPages hop₁⟩, fun v hv =>
            (h₁.index v hv).dataAt.same (sameCopies_keepPages hsh)⟩
    · rw [h₁.rewrite.1] at hneed
      exact hsimple s₁ rfl rfl (.refl s₁) fun hk => (htail hk).resolve_right fun hr => hneed hr.1
  · have hcur : s₁.ftl.curOffset.block = ftlNomap := by
      rw [h₁.curOffset]
      exact hscan₀.closed fun hc => hop hc.1
    refine ⟨fun _ => ?_, fun hno => absurd hcur hno⟩
    have hnop : ¬OpenAt s.vol b k := hv₀ ▸ hop
    simp only [getFirstEmptyBlock, wp_bind, wp_getState]
    cases hq : s₁.ftl.emptyBlockFifo.items with
    | nil =>
      simp only [wp_bind, wp_emit]
      -- a dead block would be in the fifo
      intro hA'
      exfalso
      obtain ⟨hcap, hor⟩ := hfed hA'
      obtain ⟨n, hn, hno⟩ := hor.resolve_left hop
      have := h₁.queued (by rw [h₁.cap, hcap₀]; exact hcap) n hn (dead_of_no_newest hindex hno)
      rw [hq] at this
      cases this
    | cons b' rest =>
      simp only [wp_bind, wp_modifyState, wp_pure]
      refine hpost (s₁.onFtl fun f => { f.nextId with
        emptyBlockFifo := { f.emptyBlockFifo with items := rest }
        curOffset := ⟨b', -1⟩ }) ⟨b', 0, h₁.fresh hwf hch hscan₀ hop hq, ?_, rfl⟩ rfl
        (.inr ⟨hnop, rfl⟩) (fun _ _ _ => rfl) (Int.le_refl _) rfl (.onFtl s₁ _)
      have hP := hwf.page_pos
      exact .inr fun he => absurd he (by omega)

/-- The state a module starts in: nothing is mounted, no rescue is due. -/
structure Booted (s : State) : Prop where
  mounted : s.mounted = false
  needRewrite : s.needRewrite = false

/-- A buffer is set up. -/
theorem allocPageBuf_spec {j : Nat} {E : Exit → State → Prop} :
    wp A Fed (allocPageBuf j)
      (fun _ s' => (s'.pool j).sector = ftlNomap ∧ (s'.pool j).sectorState = 0 ∧
        (s'.pool j).read = false ∧ (∀ m, m ≠ j → s'.pool m = s.pool m) ∧ s'.vol = s.vol ∧
        s'.ftl = s.ftl ∧ s'.needRewrite = s.needRewrite ∧ s'.journal = s.journal ∧
        s'.env.faults = s.env.faults) E s := by
  simp only [allocPageBuf, wp_bind, wp_readJiffies, wp_modifyState, Function.update_self]
  exact ⟨trivial, trivial, trivial, fun m hm => Function.update_of_ne hm .., trivial, trivial,
    trivial, trivial, trivial⟩

/-- **`ftl_core_io_init`**: from flash that holds the data `D` to a mounted driver. -/
theorem ftlCoreIoInit_spec (hwf : fip.Wf) (hA : Calm A) (hboot : Booted s)
    (hch : Chain fip True s.vol b k i) (hi : i ≤ intMax)
    (hD : ∀ v, v < fip.virtualSectorNum → DataAt fip s.vol v (D v)) {cap : Nat}
    (hfed : A .noFreeBlock → fip.lebNum ≤ cap ∧ (OpenAt s.vol b k ∨
      ∃ b', b' < fip.lebNum ∧ ∀ v p, ¬Newest fip s.vol v b' p)) :
    wp A Fed (ftlCoreIoInit fip cap) (fun _ => Remounted fip D b k i cap s) (MountCut fip D s) s := by
  simp only [ftlCoreIoInit, wp_bind, wp_getState, wp_ite, wp_modifyState]
  refine ⟨fun hm => absurd hm (by rw [hboot.mounted]; simp), fun _ => ?_⟩
  generalize hs₀ : ({ s with
    mounted := true
    ftl := { s.ftl with blockId := 0, stamp := 0, pageState := fun _ _ => .pageEmpty } } : State) = s₀
  -- the buffers below `j` are free, the rest is as it was
  refine wp_mono (wp_forUpto (fun j s₁ => (∀ m, m < j → (s₁.pool m).sector = ftlNomap ∧
    (s₁.pool m).sectorState = 0 ∧ (s₁.pool m).read = false) ∧ s₁.vol = s.vol ∧ s₁.ftl = s₀.ftl ∧
    s₁.needRewrite = false ∧ s₁.journal = s.journal ∧ s₁.env.faults = s.env.faults) ?_ ?_) ?_
    (fun _ _ he => he)
  · subst hs₀
    exact ⟨fun m hm => absurd hm (Nat.not_lt_zero m), rfl, rfl, hboot.needRewrite, rfl, rfl⟩
  · rintro j - s₁ ⟨hpool, hv, hf, hn, hj, he⟩
    refine wp_mono allocPageBuf_spec ?_ fun _ _ he => he
    rintro _ s₂ ⟨h₁, h₂, h₃, hother, hv', hf', hn', hj', he'⟩
    refine ⟨fun m hm => ?_, hv'.trans hv, hf'.trans hf, hn'.trans hn, hj'.trans hj, he'.trans he⟩
    by_cases hmj : m = j
    · subst hmj
      exact ⟨h₁, h₂, h₃⟩
    · rw [hother m hmj]
      exact hpool m (by omega)
  · rintro _ s₁ ⟨hpool, hv, hf, hn, hj, he⟩
    rw [← hv] at hch hD hfed
    have hcutEq : ∀ {s₂ : State}, Frame s₁ s₂ → s₂.mayCut → s.mayCut := by
      rintro s₂ hf₂ ⟨m, q, hc⟩
      exact ⟨m, q, by rw [← he, ← hf₂.faults]; exact hc⟩
    refine wp_mono (createIndex_spec hwf hA hch hi (by rw [hf, ← hs₀]; exact fun _ _ => rfl)
      (by rw [hf, ← hs₀]) (by rw [hf, ← hs₀]) hn) ?_ ?_
    · rintro _ s₂ ⟨hscan, hfr⟩
      have hv₂ : s₂.vol = s₁.vol := hfr.vol
      rw [← hv₂] at hch hD hfed hscan
      refine wp_mono (initStatus_spec hwf hA hch hi hD hscan (hfr.frame.pool ▸ hpool) hfed) ?_ ?_
      · rintro _ s₃ h₃
        have hvol : s₂.vol = s.vol := hv₂.trans hv
        exact ⟨hvol ▸ h₃.ready, hvol ▸ h₃.index, hvol ▸ h₃.position, hvol ▸ h₃.dead, h₃.stamp, h₃.cap,
          h₃.checkCount, h₃.fullState, h₃.pool, h₃.journal.trans (hfr.frame.journal.trans hj),
          h₃.faults.trans (hfr.frame.faults.trans he)⟩
      · rintro e s₃ ⟨rfl, hcut, hdisk, hjournal⟩
        exact ⟨rfl, hcutEq hfr.frame hcut, hdisk, hjournal.trans (hfr.frame.journal.trans hj)⟩
    · rintro e s₂ ⟨rfl, hcut, hfr⟩
      refine ⟨rfl, hcutEq (.refl s₁) hcut, ?_, hfr.frame.journal.trans hj⟩
      rw [hfr.vol]
      exact ⟨⟨b, k, i, hi, hch⟩, hD⟩

end Init

end Uftl
