/-
  Specifications of the entry points: read, write, queue flush and all flush.

  Each of them takes a mounted driver to a mounted driver (`Advance`), and what buffers and flash
  hold together changes as the operation says: not at all, or by the sector that is written.

  `Mounted` is the invariant between requests.  A request finds a buffer for its page, takes a free
  one, or writes the one that was used least recently; each of these is a lemma, and the four
  specifications are put together from them.
-/
import FlashStack.Uftl.Buffers

namespace Uftl

open Lib Lib.Prog

variable {fip : UftlInfo} {L : Prop} {A : Event → Prop} {U : Prop} {W : Nat}

/-- A mounted driver became another; the contents changed by `g`. -/
structure Advance (fip : UftlInfo) (L : Prop) (A : Event → Prop) (U : Prop) (W : Nat)
    (g : Contents → Contents) (s : State) (D : Nat → Option (Nat → Sector)) (s' : State)
    (D' : Nat → Option (Nat → Sector)) : Prop where
  mounted : Mounted fip L U W s' D'
  frame : OpFrame s s'
  supplied : A .noFreeBlock → Supplied fip s'
  caches : ∀ C, Caches fip C s D → Caches fip (g C) s' D'
  grown : ∀ v d, D v = some d → ∃ d', D' v = some d'

/-- Nothing has happened. -/
theorem Advance.refl {s : State} {D : Nat → Option (Nat → Sector)} (h : Mounted fip L U W s D)
    (hfed : A .noFreeBlock → Supplied fip s) : Advance fip L A U W id s D s D :=
  ⟨h, .refl s, hfed, fun _ hc => hc, fun _ d hd => ⟨d, hd⟩⟩

/-- Operations in a row. -/
theorem Advance.trans {g g' : Contents → Contents} {s s' s'' : State}
    {D D' D'' : Nat → Option (Nat → Sector)} (h : Advance fip L A U W g s D s' D')
    (h' : Advance fip L A U W g' s' D' s'' D'') : Advance fip L A U W (g' ∘ g) s D s'' D'' :=
  ⟨h'.mounted, h.frame.trans h'.frame, h'.supplied, fun C hc => h'.caches _ (h.caches C hc),
    fun v d hd => by obtain ⟨d', hd'⟩ := h.grown v d hd; exact h'.grown v d' hd'⟩

section Flush

variable {s : State} {i : Nat} {D : Nat → Option (Nat → Sector)}

/-- A buffer was written. -/
theorem Synced.advance {s' : State} {D' : Nat → Option (Nat → Sector)} (hi : i < bufNum)
    (h : Mounted fip L U W s D) (hs : Synced fip L U W i D s s' D')
    (hfed : A .noFreeBlock → Supplied fip s') : Advance fip L A U W id s D s' D' := by
  refine ⟨⟨hs.ready, ⟨fun j hj => ?_, fun j hj hn => ?_⟩, hs.tracked⟩, hs.frame, hfed,
    fun C hc => hc.synced hi hs, fun v d hd => ?_⟩
  · by_cases hji : j = i
    · exact .inl (hji ▸ hs.free.1)
    · rw [hs.pool j hji]
      exact h.pool.sector j hj
  · by_cases hji : j = i
    · exact hji ▸ hs.free.2
    · rw [hs.pool j hji] at hn ⊢
      exact h.pool.free j hj hn
  · rcases hs.data with ⟨-, rfl⟩ | ⟨w, -, -, rfl⟩
    · exact ⟨d, hd⟩
    · by_cases hvw : v = w
      · exact ⟨_, by rw [hvw, Function.update_self]⟩
      · exact ⟨d, by rw [Function.update_of_ne hvw, hd]⟩

/-- `sync_one_buf` as a step of the mounted driver. -/
theorem syncOneBuf_advance (hwf : fip.Wf) (hA : Calm A) (hU : U → ∀ b p, ¬A (.program b p))
    (hW : W ≤ fip.virtualSectorNum) (hi : i < bufNum) (h : Mounted fip L U W s D)
    (hfed : A .noFreeBlock → Supplied fip s) :
    wp A Fed (syncOneBuf fip i)
      (fun _ s' => ∃ D', Advance fip L A U W id s D s' D' ∧ (∀ j, j ≠ i → s'.pool j = s.pool j) ∧
        (s'.pool i).sector = ftlNomap ∧ (s'.pool i).sectorState = 0)
      (Stopped fip L W s) s := by
  refine wp_mono (syncOneBuf_spec hwf hA hU hW hi h hfed) ?_ (fun _ _ he => he)
  rintro _ s' ⟨⟨D', hs⟩, hfed'⟩
  exact ⟨D', hs.advance hi h hfed', hs.pool, hs.free.1, hs.free.2.1⟩

/-- The loop never leaves the first buffer: once it has taken that buffer's time, that is the time it
    goes on comparing with itself. -/
theorem flushVictim_eq (s : State) (now : BitVec 32) : s.flushVictim now = 0 := by
  have hstays : ∀ (l : List Nat) (t : BitVec 32), ¬(s.pool 0).jiffies < t →
      (l.foldl (fun (acc : BitVec 32 × Nat) i =>
        if (s.pool acc.2).jiffies < acc.1 then ((s.pool i).jiffies, i) else acc) (t, 0)).2 = 0 := by
    intro l t ht
    induction l with
    | nil => rfl
    | cons i l ih => rwa [List.foldl_cons, if_neg ht]
  unfold State.flushVictim bufNum
  rw [List.range_succ_eq_map, List.foldl_cons]
  split
  · -- the first round is the only one that can pick anything
    exact hstays _ _ (BitVec.lt_irrefl _)
  · rename_i hlate
    exact hstays _ _ hlate

theorem flushVictim_lt (s : State) (now : BitVec 32) : s.flushVictim now < bufNum := by
  rw [flushVictim_eq]
  decide

/-- A free buffer is found. -/
theorem getNewBuf_some (h : s.getNewBuf = some i) : i < bufNum ∧ (s.pool i).sector = ftlNomap := by
  unfold State.getNewBuf at h
  exact ⟨List.mem_range.mp (List.mem_of_find?_eq_some h), by simpa using List.find?_some h⟩

/-- The buffer of a page is found. -/
theorem isSectorInBuf_some {v : Int} (h : s.isSectorInBuf v = some i) :
    i < bufNum ∧ (s.pool i).sector = v := by
  unfold State.isSectorInBuf at h
  exact ⟨List.mem_range.mp (List.mem_of_find?_eq_some h), by simpa using List.find?_some h⟩

/-- There is none. -/
theorem isSectorInBuf_none {v : Int} (h : s.isSectorInBuf v = none) (i : Nat) (hi : i < bufNum) :
    (s.pool i).sector ≠ v := by
  unfold State.isSectorInBuf at h
  simpa using List.find?_eq_none.mp h i (List.mem_range.mpr hi)

/-- Reading the clock changes nothing else. -/
theorem wp_readJiffies {G : Event → Prop} {Q : BitVec 32 → State → Prop} {E : Exit → State → Prop} :
    wp A G readJiffies Q E s ↔
      Q (s.env.clock s.env.clockReads)
        { s with env := { s.env with clockReads := s.env.clockReads + 1 } } := Iff.rfl

theorem Mounted.congr {s' : State} (h : Mounted fip L U W s D) (hftl : s'.ftl = s.ftl)
    (hvol : s'.vol = s.vol) (hp : s'.pool = s.pool) (hj : s'.journal = s.journal) :
    Mounted fip L U W s' D :=
  ⟨by rw [hftl, hvol]; exact h.ready, by rw [hp]; exact h.pool, by rw [hj]; exact h.tracked⟩

/-- The clock was read: a step that changes nothing the invariants speak of. -/
theorem Advance.clock (h : Mounted fip L U W s D) (hfed : A .noFreeBlock → Supplied fip s) (n : Nat) :
    Advance fip L A U W id s D { s with env := { s.env with clockReads := n } } D :=
  ⟨h.congr rfl rfl rfl rfl, ⟨rfl, rfl, rfl⟩, fun hn => (hfed hn).congr rfl rfl,
    fun _ hc => ⟨hc.bits, hc.full, hc.unique, hc.buffered, hc.flash⟩, fun _ d hd => ⟨d, hd⟩⟩

theorem Stopped.of_advance {g : Contents → Contents} {s₁ s' : State}
    {D₁ : Nat → Option (Nat → Sector)} {e : Exit} (ha : Advance fip L A U W g s D s₁ D₁)
    (h : Stopped fip L W s₁ e s') : Stopped fip L W s e s' :=
  h.trans ha.frame

/-- `flush_one_buf` frees a buffer. -/
theorem flushOneBuf_spec (hwf : fip.Wf) (hA : Calm A) (hU : U → ∀ b p, ¬A (.program b p))
    (hW : W ≤ fip.virtualSectorNum) (h : Mounted fip L U W s D)
    (hfed : A .noFreeBlock → Supplied fip s) :
    wp A Fed (flushOneBuf fip)
      (fun _ s' => ∃ i, i < bufNum ∧ (s'.pool i).sector = ftlNomap ∧
        (∀ j, j ≠ i → s'.pool j = s.pool j) ∧ ∃ D', Advance fip L A U W id s D s' D')
      (Stopped fip L W s) s := by
  simp only [flushOneBuf, wp_bind, wp_readJiffies, wp_getState]
  have ha := Advance.clock h hfed (s.env.clockReads + 1)
  refine wp_mono (syncOneBuf_advance hwf hA hU hW (flushVictim_lt _ _) ha.mounted ha.supplied) ?_
    (fun e s' he => he.of_advance ha)
  rintro _ s' ⟨D', hadv, hother, hfree, -⟩
  exact ⟨_, flushVictim_lt _ _, hfree, hother, D', ha.trans hadv⟩

/-- A free buffer is found, if necessary by flushing one; no buffer changes its sector but by
    becoming free. -/
theorem takeBuf_spec (hwf : fip.Wf) (hA : Calm A) (hU : U → ∀ b p, ¬A (.program b p))
    (hW : W ≤ fip.virtualSectorNum) (h : Mounted fip L U W s D)
    (hfed : A .noFreeBlock → Supplied fip s) :
    wp A Fed (takeBuf fip)
      (fun i s' => i < bufNum ∧ (s'.pool i).sector = ftlNomap ∧
        (∀ j, (s'.pool j).sector = (s.pool j).sector ∨ (s'.pool j).sector = ftlNomap) ∧
        ∃ D', Advance fip L A U W id s D s' D')
      (Stopped fip L W s) s := by
  simp only [takeBuf, wp_bind, wp_getState]
  cases hn : s.getNewBuf with
  | some i =>
    obtain ⟨hi, hfree⟩ := getNewBuf_some hn
    exact ⟨hi, hfree, fun _ => .inl rfl, D, .refl h hfed⟩
  | none =>
    simp only [wp_bind, wp_getState]
    refine wp_mono (flushOneBuf_spec hwf hA hU hW h hfed) ?_ (fun _ _ he => he)
    rintro _ s' ⟨i, hi, hfree, hother, hadv⟩
    have hsec : ∀ j, (s'.pool j).sector = (s.pool j).sector ∨ (s'.pool j).sector = ftlNomap := by
      intro j
      by_cases hj : j = i
      · exact .inr (hj ▸ hfree)
      · exact .inl (by rw [hother j hj])
    cases hn' : s'.getNewBuf with
    | none =>
      have := List.find?_eq_none.mp hn' i (List.mem_range.mpr hi)
      exact absurd hfree (by simpa using this)
    | some i' =>
      obtain ⟨hi', hfree'⟩ := getNewBuf_some hn'
      exact ⟨hi', hfree', hsec, hadv⟩

/-! ## Flushing -/

/-- A result that is not an error seen by the caller. -/
theorem Stopped.not_errno {s' : State} {e : Exit} (h : Stopped fip L W s e s') :
    e.isErrno = false := by
  obtain ⟨_, -, ⟨rfl, -⟩ | ⟨rfl, -⟩⟩ := h <;> rfl

theorem ftlCoreIoQueueFlush_spec (hwf : fip.Wf) (hA : Calm A) (hU : U → ∀ b p, ¬A (.program b p))
    (hW : W ≤ fip.virtualSectorNum) (h : Mounted fip L U W s D)
    (hfed : A .noFreeBlock → Supplied fip s) :
    wp A Fed (ftlCoreIoQueueFlush fip) (fun _ s' => ∃ D', Advance fip L A U W id s D s' D')
      (Stopped fip L W s) s := by
  have hbuf : ∀ n, n < bufNum → ∀ s₁ D₁, Mounted fip L U W s₁ D₁ →
      (A .noFreeBlock → Supplied fip s₁) →
      wp A Fed (queueFlushBuf fip n) (fun _ s' => ∃ D', Advance fip L A U W id s₁ D₁ s' D')
        (Stopped fip L W s₁) s₁ := by
    intro n hn s₁ D₁ h₁ hfed₁
    simp only [queueFlushBuf, wp_bind, wp_getState, wp_ite, wp_pure, wp_readJiffies, wp_attempt]
    have ha := Advance.clock h₁ hfed₁ (s₁.env.clockReads + 1)
    refine ⟨fun _ => ⟨D₁, .refl h₁ hfed₁⟩, fun _ => ⟨fun _ => ?_, fun _ => ⟨D₁, ha⟩⟩⟩
    refine wp_mono (syncOneBuf_advance hwf hA hU hW hn ha.mounted ha.supplied) ?_ ?_
    · rintro _ s' ⟨D', hadv, -⟩
      exact ⟨D', ha.trans hadv⟩
    · intro e s' he
      rw [if_neg (by rw [he.not_errno]; simp)]
      exact he.of_advance ha
  have hloop : ∀ n, n ≤ bufNum →
      wp A Fed (queueFlushFrom fip n) (fun _ s' => ∃ D', Advance fip L A U W id s D s' D')
        (Stopped fip L W s) s := by
    intro n
    induction n with
    | zero => exact fun _ => ⟨D, .refl h hfed⟩
    | succ n ih =>
      intro hn
      simp only [queueFlushFrom, wp_bind, wp_pure]
      refine wp_mono (ih (by omega)) ?_ (fun _ _ he => he)
      rintro _ s₁ ⟨D₁, ha⟩
      refine wp_mono (hbuf n (by omega) s₁ D₁ ha.mounted ha.supplied) ?_
        (fun e s' he => he.of_advance ha)
      rintro _ s' ⟨D', hadv⟩
      exact ⟨D', ha.trans hadv⟩
  exact hloop bufNum (Nat.le_refl _)

/-- **`ftl_core_io_all_flush`** returns 0 and every buffer is free. -/
theorem ftlCoreIoAllFlush_spec (hwf : fip.Wf) (hA : Calm A) (hU : U → ∀ b p, ¬A (.program b p))
    (hW : W ≤ fip.virtualSectorNum) (h : Mounted fip L U W s D)
    (hfed : A .noFreeBlock → Supplied fip s) :
    wp A Fed (ftlCoreIoAllFlush fip)
      (fun r s' => r = .ok () ∧ (∀ i, i < bufNum → (s'.pool i).sector = ftlNomap ∧
        (s'.pool i).sectorState = 0) ∧ ∃ D', Advance fip L A U W id s D s' D')
      (Stopped fip L W s) s := by
  have hloop : ∀ n, n ≤ bufNum →
      wp A Fed (allFlushUpto fip n)
        (fun r s' => r = .ok () ∧ (∀ i, i < n → (s'.pool i).sector = ftlNomap ∧
          (s'.pool i).sectorState = 0) ∧ ∃ D', Advance fip L A U W id s D s' D')
        (Stopped fip L W s) s := by
    intro n
    induction n with
    | zero => exact fun _ => ⟨rfl, fun i hi => absurd hi (Nat.not_lt_zero i), D, .refl h hfed⟩
    | succ n ih =>
      intro hn
      simp only [allFlushUpto, wp_bind, wp_attempt]
      refine wp_mono (ih (by omega)) ?_ (fun _ _ he => he)
      rintro _ s₁ ⟨-, hfree, D₁, ha⟩
      refine wp_mono (syncOneBuf_advance hwf hA hU hW (show n < bufNum by omega) ha.mounted
        ha.supplied) ?_ ?_
      · rintro _ s' ⟨D', hadv, hother, hfree'⟩
        refine ⟨trivial, fun i hi => ?_, D', ha.trans hadv⟩
        by_cases hin : i = n
        · exact hin ▸ hfree'
        · rw [hother i hin]
          exact hfree i (by omega)
      · intro e s' he
        rw [if_neg (by rw [he.not_errno]; simp)]
        exact he.of_advance ha
  exact hloop bufNum (Nat.le_refl _)

end Flush

/-! ## Reading and writing -/

section Access

variable {s : State} {i : Nat} {D : Nat → Option (Nat → Sector)}

/-- Buffer `i`, free or already for virtual sector `v`, becomes the buffer `b` for it. -/
theorem Advance.setBuf {v : Nat} {b : PageBuf} {g : Contents → Contents} (hi : i < bufNum)
    (hv : v < W) (h : Mounted fip L U W s D) (hfed : A .noFreeBlock → Supplied fip s)
    (hs : b.sector = v)
    (hold : (∀ j, j < bufNum → (s.pool j).sector ≠ v) ∧ (s.pool i).sector = ftlNomap ∨
      (s.pool i).sector = v)
    (hg : ∀ C w, w ≠ v → g C w = C w)
    (hb : ∀ C, Caches fip C s D → ∀ j x, j < fip.pageSectorNum → g C v j = some x →
      Holds b (D v) j x) :
    Advance fip L A U W g s D (s.setBuf i fun _ => b) D :=
  ⟨⟨h.ready, h.pool.update hs hv rfl, h.tracked⟩, ⟨rfl, rfl, rfl⟩,
    fun hn => (hfed hn).congr rfl rfl,
    fun C hc => hc.update hi hs hold rfl rfl (hg C) (hb C hc), fun _ d hd => ⟨d, hd⟩⟩

/-- `jiffies` of a buffer is nothing the invariants speak of. -/
theorem touchBuf_spec {v : Nat} (hi : i < bufNum) (hv : v < W) (h : Mounted fip L U W s D)
    (hfed : A .noFreeBlock → Supplied fip s) (hs : (s.pool i).sector = v)
    {E : Exit → State → Prop} :
    wp A Fed (touchBuf i) (fun _ s' => Advance fip L A U W id s D s' D) E s := by
  simp only [touchBuf, wp_bind, wp_readJiffies, wp_modifyState]
  have ha := Advance.clock h hfed (s.env.clockReads + 1)
  have hset := Advance.setBuf (b := { s.pool i with jiffies := s.env.clock s.env.clockReads })
    (g := id) hi hv ha.mounted ha.supplied hs (.inr hs) (fun _ _ _ => rfl)
    fun C hc j x hj hx => hc.buffered i v j x hi hs hj hx
  exact ha.trans hset

/-- Reading the page of a virtual sector that has one. -/
theorem readIndexed_spec {v : Nat} (hwf : fip.Wf) (hA : Calm A) (h : Mounted fip L U W s D)
    (hv : v < fip.virtualSectorNum) {d : Nat → Sector} (hD : D v = some d) :
    wp A Fed (ftlRead fip ((s.ftl.sectorIndex v).tdiv fip.ftlPageNum)
        ((s.ftl.sectorIndex v).tmod fip.ftlPageNum))
      (fun pg s' => pg.data = d ∧ s' = s.tick) (Stopped fip L W s) s := by
  obtain ⟨b, k, hinv, -⟩ := h.ready
  rcases hinv.indexed hv with ⟨-, hn⟩ | ⟨b', p, pg, hidx, hb, hp, hpg, hd⟩
  · rw [hD] at hn
    cases hn
  · rw [hD] at hd
    cases hd
    rw [hidx, pageIndex_tdiv hp, pageIndex_tmod hp]
    refine wp_mono (ftlRead_written hA hwf hb hp hpg) ?_ ?_
    · rintro r s₁ ⟨rfl, rfl⟩
      exact ⟨rfl, rfl⟩
    · rintro e s₁ ⟨rfl, hcut, rfl⟩
      exact ⟨D, h.tracked, .inl ⟨rfl, hcut, hinv.disk⟩⟩

/-- The page has never been written, or the index leads to it. -/
theorem Mounted.index {v : Nat} (h : Mounted fip L U W s D) (hv : v < fip.virtualSectorNum) :
    s.ftl.sectorIndex v = ftlNomap ∧ D v = none ∨
      s.ftl.sectorIndex v ≠ ftlNomap ∧ ∃ d, D v = some d := by
  obtain ⟨b, k, hinv, -⟩ := h.ready
  rcases hinv.indexed hv with hn | ⟨b', p, pg, hidx, -, -, -, hd⟩
  · exact .inl hn
  · exact .inr ⟨by rw [hidx]; exact pageIndex_ne_nomap b' p, _, hd⟩

/-- A flash operation was counted: a step that changes nothing the invariants speak of. -/
theorem Advance.tick (h : Mounted fip L U W s D) (hfed : A .noFreeBlock → Supplied fip s) :
    Advance fip L A U W id s D s.tick D :=
  ⟨h.congr rfl rfl rfl rfl, ⟨rfl, rfl, rfl⟩, fun hn => (hfed hn).congr rfl rfl,
    fun _ hc => ⟨hc.bits, hc.full, hc.unique, hc.buffered, hc.flash⟩, fun _ d hd => ⟨d, hd⟩⟩

theorem setBuf_const (s : State) (i : Nat) (f : PageBuf → PageBuf) :
    s.setBuf i f = s.setBuf i fun _ => f (s.pool i) := rfl

theorem Contents.write_other (C : Contents) {v w : Nat} (k : Nat) (d : Sector) (h : w ≠ v) :
    C.write v k d w = C w := Function.update_of_ne h ..

/-- Storing a sector in a buffer: the written sector is dirty there, the others are as before. -/
theorem Holds.store {b : PageBuf} {C : Contents} {v k : Nat} {d : Sector}
    {dv : Option (Nat → Sector)} (hbits : fip.pageSectorNum ≤ 31) (hk : k < fip.pageSectorNum)
    (hold : ∀ j x, j < fip.pageSectorNum → C v j = some x → Holds b dv j x) (j : Nat) (x : Sector)
    (hj : j < fip.pageSectorNum) (hx : C.write v k d v j = some x) : Holds (b.store k d) dv j x := by
  have hrow : C.write v k d v = Function.update (C v) k (some d) := Function.update_self ..
  have hdata : (b.store k d).dataBuf.data = Function.update b.dataBuf.data k d := rfl
  have hdirty := dirty_store b (d := d) (show j < 32 by omega) (show k < 32 by omega)
  rw [hrow] at hx
  unfold Holds
  rw [hdirty, hdata]
  by_cases hjk : j = k
  · subst hjk
    rw [Function.update_self] at hx ⊢
    exact ⟨fun _ => by injection hx, fun hd => by simp at hd⟩
  · rw [Function.update_of_ne hjk] at hx ⊢
    simp only [hjk, decide_false, Bool.false_or]
    exact hold j x hj hx

/-- **`ftl_core_io_write`** writes its sector. -/
theorem ftlCoreIoWrite_spec (hwf : fip.Wf) (hA : Calm A) (hU : U → ∀ b p, ¬A (.program b p))
    (hW : W ≤ fip.virtualSectorNum) (h : Mounted fip L U W s D)
    (hfed : A .noFreeBlock → Supplied fip s) {sector : Nat} (d : Sector)
    (hsec : sector / fip.pageSectorNum < W) :
    wp A Fed (ftlCoreIoWrite fip sector d)
      (fun _ s' => ∃ D', Advance fip L A U W
        (·.write (sector / fip.pageSectorNum) (sector % fip.pageSectorNum) d) s D s' D')
      (Stopped fip L W s) s := by
  have hk : sector % fip.pageSectorNum < fip.pageSectorNum := Nat.mod_lt _ hwf.sector_pos
  simp only [ftlCoreIoWrite, wp_bind, wp_getState]
  generalize hv : sector / fip.pageSectorNum = v at hsec ⊢
  generalize sector % fip.pageSectorNum = k at hk ⊢
  cases hin : s.isSectorInBuf v with
  | none =>
    simp only [wp_bind, wp_modifyState]
    refine wp_mono (takeBuf_spec hwf hA hU hW h hfed) ?_ (fun _ _ he => he)
    rintro i s₁ ⟨hi, hfree, hsecs, D₁, ha⟩
    have hnone : ∀ j, j < bufNum → (s₁.pool j).sector ≠ v := by
      intro j hj
      rcases hsecs j with he | he <;> rw [he]
      · exact isSectorInBuf_none hin j hj
      · unfold ftlNomap
        omega
    rw [setBuf_const]
    have hset := Advance.setBuf (i := i) (g := fun C => C.write v k d)
      (b := { s₁.pool i with sector := (v : Int), sectorState := 0 }.store k d) hi hsec ha.mounted
      ha.supplied rfl (.inl ⟨hnone, hfree⟩) (fun C w hw => C.write_other k d hw)
      fun C hc j x hj hx => Holds.store hc.bits hk (fun j x hj hx => ?_) j x hj hx
    · refine wp_mono (touchBuf_spec hi hsec hset.mounted hset.supplied
        (by show (Function.update s₁.pool i _ i).sector = _; rw [Function.update_self]; rfl)) ?_
        (fun _ _ hf => hf)
      intro _ s' ht
      exact ⟨D₁, (ha.trans hset).trans ht⟩
    · -- the new buffer has no dirty sector and is not a copy of the page
      have hread := (ha.mounted.pool.free i hi hfree).2
      refine ⟨fun hd => ?_, fun _ => ⟨hc.flash v j x hnone hj hx, fun hr => ?_⟩⟩
      · rw [dirty_clean rfl] at hd
        cases hd
      · rw [show PageBuf.read { s₁.pool i with sector := (v : Int), sectorState := 0 } =
          (s₁.pool i).read from rfl, hread] at hr
        cases hr
  | some i =>
    obtain ⟨hi, hs⟩ := isSectorInBuf_some hin
    simp only [wp_bind, wp_modifyState]
    rw [setBuf_const]
    have hset := Advance.setBuf (i := i) (g := fun C => C.write v k d)
      (b := (s.pool i).store k d) hi hsec h hfed hs (.inr hs) (fun C w hw => C.write_other k d hw)
      fun C hc j x hj hx => Holds.store hc.bits hk
        (fun j x hj hx => hc.buffered i v j x hi hs hj hx) j x hj hx
    refine wp_mono (touchBuf_spec hi hsec hset.mounted hset.supplied
      (by show (Function.update s.pool i _ i).sector = _; rw [Function.update_self]; exact hs)) ?_
      (fun _ _ hf => hf)
    intro _ s' ht
    exact ⟨D, hset.trans ht⟩

/-- A buffer filled from flash, no sector of it written. -/
theorem Holds.filled {b : PageBuf} {d : Nat → Sector} {j : Nat} {x : Sector}
    (hclean : b.sectorState = 0) (hdata : b.dataBuf.data = d) (hx : ∃ d', some d = some d' ∧ d' j = x) :
    Holds b (some d) j x := by
  refine ⟨fun hd => ?_, fun _ => ⟨hx, fun _ => ?_⟩⟩
  · rw [dirty_clean hclean] at hd
    cases hd
  · obtain ⟨d', hd', hx⟩ := hx
    cases hd'
    rw [hdata, hx]

/-- A buffer completed from flash. -/
theorem Holds.completed {b : PageBuf} {pg : Page} {j : Nat} {x : Sector}
    (hj : j < fip.pageSectorNum) (h : Holds b (some pg.data) j x) :
    Holds { b.merge fip pg with read := true } (some pg.data) j x := by
  have hdata : PageBuf.dataBuf { b.merge fip pg with read := true } = (b.merge fip pg).dataBuf := rfl
  have hdirty : PageBuf.dirty { b.merge fip pg with read := true } j = b.dirty j := rfl
  unfold Holds
  rw [hdirty, hdata]
  refine ⟨fun hd => ?_, fun hd => ⟨(h.2 hd).1, fun _ => ?_⟩⟩
  · show (if j < fip.pageSectorNum ∧ b.dirty j = false then pg.data j else b.dataBuf.data j) = x
    rw [if_neg (by simp [hd])]
    exact h.1 hd
  · show (if j < fip.pageSectorNum ∧ b.dirty j = false then pg.data j else b.dataBuf.data j) = x
    rw [if_pos ⟨hj, hd⟩]
    obtain ⟨d', hd', hx⟩ := (h.2 hd).1
    cases hd'
    exact hx

/-- What a read returns: if the sector was ever written, its last data. -/
def Returns (fip : UftlInfo) (s : State) (D : Nat → Option (Nat → Sector)) (v k : Nat)
    (r : Option Sector) : Prop :=
  ∀ C, Caches fip C s D → ∀ x, C v k = some x → r = some x

/-- A read of a sector that is in a buffer. -/
theorem readBuffered_spec {v k : Nat} (hwf : fip.Wf) (hA : Calm A) (hW : W ≤ fip.virtualSectorNum)
    (h : Mounted fip L U W s D) (hfed : A .noFreeBlock → Supplied fip s) (hi : i < bufNum)
    (hv : v < W) (hs : (s.pool i).sector = v) (hk : k < fip.pageSectorNum) :
    wp A Fed
      (when ((s.pool i).dirty k = false ∧ (s.pool i).read = false) (do
        let index ← getSectorIndex fip v
        when (index ≠ ftlNomap) do
          let pg ← ftlRead fip (index.tdiv fip.ftlPageNum) (index.tmod fip.ftlPageNum)
          modifyState fun s => s.setBuf i fun b => { b.merge fip pg with read := true }))
      (fun _ s' => Advance fip L A U W id s D s' D ∧ (s'.pool i).sector = v ∧
        Returns fip s D v k (some ((s'.pool i).dataBuf.data k)))
      (Stopped fip L W s) s := by
  have hvlt : v < fip.virtualSectorNum := Nat.lt_of_lt_of_le hv hW
  rw [wp_when]
  refine ⟨fun ⟨hclean, _⟩ => ?_, fun hno => ⟨.refl h hfed, hs, fun C hc x hx => ?_⟩⟩
  · simp only [wp_bind, wp_getSectorIndex hvlt, wp_when, wp_modifyState]
    rcases h.index hvlt with ⟨hidx, hD⟩ | ⟨hidx, d, hD⟩
    · refine ⟨fun hne => absurd hidx hne, fun _ => ⟨.refl h hfed, hs, fun C hc x hx => ?_⟩⟩
      obtain ⟨d, hd, -⟩ := ((hc.buffered i v k x hi hs hk hx).2 hclean).1
      rw [hD] at hd
      cases hd
    · refine ⟨fun _ => ?_, fun hne => absurd (not_not.mp hne) hidx⟩
      refine wp_mono (readIndexed_spec hwf hA h hvlt hD) ?_ (fun _ _ he => he)
      rintro pg _ ⟨hpg, rfl⟩
      have ht := Advance.tick h hfed
      rw [setBuf_const]
      have hset := Advance.setBuf (i := i) (g := id)
        (b := { (s.tick.pool i).merge fip pg with read := true }) hi hv ht.mounted ht.supplied hs
        (.inr hs) (fun _ _ _ => rfl) fun C hc j x hj hx => by
          have := hc.buffered i v j x hi hs hj hx
          rw [hD, ← hpg] at this ⊢
          exact this.completed hj
      refine ⟨ht.trans hset, ?_, fun C hc x hx => ?_⟩
      · show (Function.update s.pool i _ i).sector = _
        rw [Function.update_self]
        exact hs
      · have := hc.buffered i v k x hi hs hk hx
        rw [hD, ← hpg] at this
        have hcomp := this.completed hk
        show some ((Function.update s.pool i _ i).dataBuf.data k) = some x
        rw [Function.update_self]
        exact congrArg some ((hcomp.2 hclean).2 rfl)
  · have hh := hc.buffered i v k x hi hs hk hx
    cases hd : (s.pool i).dirty k with
    | true => exact congrArg some (hh.1 hd)
    | false => exact congrArg some ((hh.2 hd).2 (by simpa [hd] using hno))

/-- **`ftl_core_io_read`** returns the last data written to its sector. -/
theorem ftlCoreIoRead_spec (hwf : fip.Wf) (hA : Calm A) (hU : U → ∀ b p, ¬A (.program b p))
    (hW : W ≤ fip.virtualSectorNum) (h : Mounted fip L U W s D)
    (hfed : A .noFreeBlock → Supplied fip s) {sector : Nat}
    (hsec : sector / fip.pageSectorNum < W) :
    wp A Fed (ftlCoreIoRead fip sector)
      (fun r s' => (∃ D', Advance fip L A U W id s D s' D') ∧
        Returns fip s D (sector / fip.pageSectorNum) (sector % fip.pageSectorNum) r)
      (Stopped fip L W s) s := by
  have hk : sector % fip.pageSectorNum < fip.pageSectorNum := Nat.mod_lt _ hwf.sector_pos
  simp only [ftlCoreIoRead, wp_bind, wp_getState]
  generalize hv : sector / fip.pageSectorNum = v at hsec ⊢
  generalize sector % fip.pageSectorNum = k at hk ⊢
  have hvlt : v < fip.virtualSectorNum := Nat.lt_of_lt_of_le hsec hW
  cases hin : s.isSectorInBuf v with
  | none =>
    have hno := isSectorInBuf_none hin
    simp only [wp_bind, wp_getSectorIndex hvlt, wp_ite, wp_pure, wp_modifyState]
    rcases h.index hvlt with ⟨hidx, hD⟩ | ⟨hidx, d, hD⟩
    · -- never written to flash, and not in a buffer
      refine ⟨fun _ => ⟨⟨D, .refl h hfed⟩, fun C hc x hx => ?_⟩, fun hne => absurd hidx hne⟩
      obtain ⟨d, hd, -⟩ := hc.flash v k x hno hk hx
      rw [hD] at hd
      cases hd
    · refine ⟨fun he => absurd he hidx, fun _ => ?_⟩
      refine wp_mono (takeBuf_spec hwf hA hU hW h hfed) ?_ (fun _ _ he => he)
      rintro i s₁ ⟨hi, hfree, hsecs, D₁, ha⟩
      obtain ⟨d₁, hD₁⟩ := ha.grown v d hD
      have hnone : ∀ j, j < bufNum → (s₁.pool j).sector ≠ v := by
        intro j hj
        rcases hsecs j with he | he <;> rw [he]
        · exact hno j hj
        · unfold ftlNomap
          omega
      have hm₁ : Mounted fip L U W s₁ D₁ := ha.mounted
      -- while the page is read the buffer holds nothing yet
      have hread := readIndexed_spec (s := s₁.setBuf i fun b =>
          { b with sector := (v : Int), read := true, sectorState := 0 }) hwf hA (D := D₁)
        (U := U) (W := W) ⟨hm₁.ready, hm₁.pool.update rfl hsec rfl, hm₁.tracked⟩ hvlt hD₁
      refine wp_mono hread ?_ (fun e s' he => (he.trans ⟨rfl, rfl, rfl⟩ : Stopped fip L W s₁ e s').trans
        ha.frame)
      rintro pg _ ⟨hpg, rfl⟩
      have ht := Advance.tick ha.mounted ha.supplied
      have hset := Advance.setBuf (i := i) (g := id)
        (b := { s₁.pool i with sector := (v : Int), read := true, sectorState := 0, dataBuf := pg })
        hi hsec ht.mounted ht.supplied rfl (.inl ⟨hnone, hfree⟩) (fun _ _ _ => rfl)
        fun C hc j x hj hx => by
          have hfl := hc.flash v j x hnone hj hx
          rw [hD₁] at hfl ⊢
          exact Holds.filled rfl hpg hfl
      have hstate : State.setBuf (State.tick (s₁.setBuf i fun b =>
            { b with sector := (v : Int), read := true, sectorState := 0 })) i
            (fun b => { b with dataBuf := pg }) =
          s₁.tick.setBuf i fun _ =>
            { s₁.pool i with sector := (v : Int), read := true, sectorState := 0, dataBuf := pg } := by
        simp only [State.setBuf, State.tick, Function.update_self, Function.update_idem]
      rw [hstate]
      refine wp_mono (touchBuf_spec hi hsec hset.mounted hset.supplied
        (by show (Function.update s₁.pool i _ i).sector = _; rw [Function.update_self])) ?_
        (fun _ _ hf => hf)
      intro _ s' htouch
      refine ⟨⟨D₁, ((ha.trans ht).trans hset).trans htouch⟩, fun C hc x hx => ?_⟩
      obtain ⟨d', hd', hx'⟩ := (ha.caches C hc).flash v k x hnone hk hx
      rw [hD₁] at hd'
      cases hd'
      rw [hpg, hx']
  | some i =>
    obtain ⟨hi, hs⟩ := isSectorInBuf_some hin
    simp only [wp_bind, wp_getState, wp_pure]
    refine wp_mono (readBuffered_spec hwf hA hW h hfed hi hsec hs hk) ?_ (fun _ _ he => he)
    rintro _ s₁ ⟨ha, hs₁, hret⟩
    refine wp_mono (touchBuf_spec hi hsec ha.mounted ha.supplied hs₁) ?_ (fun _ _ hf => hf)
    intro _ s' ht
    exact ⟨⟨D, ha.trans ht⟩, hret⟩

end Access

end Uftl
