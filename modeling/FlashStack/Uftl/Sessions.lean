/-
  Sessions: the module starts, mounts what it finds on flash, serves requests, and is shut down or
  loses power.

  `Boot` is how one session's flash becomes the next one's.  In a `Clean` run every session but the last
  ends with a flush of all buffers; `Uftl.PowerCuts` has the runs whose sessions end anywhere.  Both are
  relations over the state alone; what may happen in them is a predicate on the events.
-/
import FlashStack.Uftl.Mount
import FlashStack.Uftl.Dev

namespace Uftl

open Lib Lib.Prog

variable {fip : UftlInfo} {L : Prop} {A : Event → Prop} {U : Prop} {W : Nat}

/-! ## Requests -/

/-- What a request does to the contents of the device. -/
def Request.effect (fip : UftlInfo) : Request → Contents → Contents
  | .write sector d => (·.write (sector / fip.pageSectorNum) (sector % fip.pageSectorNum) d)
  | _ => id

section Serve

variable {s s' : State} {D : Nat → Option (Nat → Sector)}

/-- **Every request** takes a mounted driver to a mounted driver. -/
theorem serve_spec (hwf : fip.Wf) (hA : Calm A) (hU : U → ∀ b p, ¬A (.program b p))
    (hW : W ≤ fip.virtualSectorNum) (h : Mounted fip L U W s D)
    (hfed : A .noFreeBlock → Supplied fip s) {r : Request} (hin : r.Inside fip W) :
    wp A Fed (r.serve fip)
      (fun x s' => (∃ D', Advance fip L A U W (r.effect fip) s D s' D') ∧
        ∀ k, r = .read k → Returns fip s D (k / fip.pageSectorNum) (k % fip.pageSectorNum) x)
      (Stopped fip L W s) s := by
  cases r with
  | write sector d =>
    simp only [Request.serve, wp_bind, wp_pure]
    refine wp_mono (ftlCoreIoWrite_spec hwf hA hU hW h hfed d hin) (fun _ s' hs => ?_)
      (fun _ _ he => he)
    exact ⟨hs, fun k hk => (by cases hk)⟩
  | read sector =>
    refine wp_mono (ftlCoreIoRead_spec hwf hA hU hW h hfed hin) (fun x s' hs => ?_)
      (fun _ _ he => he)
    exact ⟨hs.1, fun k hk => by cases hk; exact hs.2⟩
  | queueFlush =>
    simp only [Request.serve, wp_bind, wp_pure]
    refine wp_mono (ftlCoreIoQueueFlush_spec hwf hA hU hW h hfed) (fun _ s' hs => ?_)
      (fun _ _ he => he)
    exact ⟨hs, fun k hk => (by cases hk)⟩
  | allFlush =>
    simp only [Request.serve, ubiblockFlush, wp_bind, wp_pure]
    refine wp_mono (ftlCoreIoAllFlush_spec hwf hA hU hW h hfed) (fun _ s' hs => ?_)
      (fun _ _ he => he)
    exact ⟨hs.2.2, fun k hk => (by cases hk)⟩

end Serve

/-! ## From one session to the next -/

/-- An erased volume: every LEB reads as `0xFF` and has no former content to come back. -/
def Volume.Erased (fip : UftlInfo) (vol : Volume) : Prop :=
  ∀ b, b < fip.lebNum → Blank fip (vol.leb b) ∧ vol.former b = []

/-- The module starts for the first time, on an erased volume. -/
structure FirstBoot (fip : UftlInfo) (s : State) : Prop where
  booted : Booted s
  erased : s.vol.Erased fip
  journal : s.journal = []

/-- The module starts again on the flash that `s` left. -/
structure Boot (s s₀ : State) : Prop where
  booted : Booted s₀
  flash : s.vol.Reattached s₀.vol
  journal : s₀.journal = s.journal

section Restart

variable {s s₀ s' : State} {vol w : Volume} {D : Nat → Option (Nat → Sector)} {b k cap : Nat}
  {i : Int}

/-- The data survive the next attach. -/
theorem Chain.reattached_data (h : Chain fip L vol b k i) (hw : vol.Reattached w) {v : Nat}
    {d : Option (Nat → Sector)} (hd : DataAt fip vol v d) : DataAt fip w v d := by
  cases d with
  | none =>
    intro b' p j hb' hc
    rcases hw.2 b' with he | ⟨-, he | ⟨c, hcf, he⟩⟩
    · rw [he] at hc
      exact hd b' p j hb' hc
    · rw [he] at hc
      exact blank_unmapped.stub.no_copy hc
    · rw [he] at hc
      obtain ⟨b'', q, l, hb'', hq, -⟩ := h.dom b' hb' c hcf p v j hc
      exact hd b'' q l hb'' hq
  | some d =>
    obtain ⟨b', p, pg, hn, hpg, he⟩ := hd
    obtain ⟨hn', hsame⟩ := h.reattached_newest hw hn
    exact ⟨b', p, pg, hn', by rw [hsame]; exact hpg, he⟩

/-- The indices survive the next attach. -/
theorem Chain.reattached_indexed (h : Chain fip L vol b k i) (hw : vol.Reattached w) {v : Nat}
    {idx : Int} {d : Option (Nat → Sector)} (hd : Indexed fip vol v idx d) :
    Indexed fip w v idx d := by
  cases d with
  | none => exact ⟨hd.1, h.reattached_data hw (d := none) hd.2⟩
  | some d =>
    obtain ⟨b', p, pg, hi, hn, hpg, he⟩ := hd
    obtain ⟨hn', hsame⟩ := h.reattached_newest hw hn
    exact ⟨b', p, pg, hi, hn', by rw [hsame]; exact hpg, he⟩

/-- What is on flash is still there after UBI was attached again. -/
theorem Disk.reattached {n : Int} (h : Disk fip L n vol D) (hw : vol.Reattached w) :
    Disk fip L n w D := by
  obtain ⟨⟨b, k, i, hi, hch⟩, hD⟩ := h
  exact ⟨⟨b, k, i, hi, hch.reattached hw⟩, fun v hv => hch.reattached_data hw (hD v hv)⟩

/-- An empty volume has no copies. -/
theorem Volume.Erased.no_content (h : vol.Erased fip) {c : Leb} (hb : b < fip.lebNum)
    (hc : Content vol b c) {p v : Nat} {j : Int} : ¬Copy fip c p v j := by
  rcases hc with rfl | hc
  · exact (h b hb).1.stub.no_copy
  · rw [(h b hb).2] at hc
    cases hc

theorem Volume.Erased.chain (h : vol.Erased fip) (hwf : fip.Wf) :
    Chain fip L vol 0 0 1 where
  lt := hwf.leb_pos
  cur hk := absurd hk (Nat.lt_irrefl 0)
  other b hb _ := .inl (h b hb).1.stub
  former b hb c hc := by rw [(h b hb).2] at hc; cases hc
  uniq b₁ c₁ _ _ _ _ _ _ _ hb₁ _ hc₁ _ h₁ _ := absurd h₁ (h.no_content hb₁ hc₁)
  dom b hb c hc := by rw [(h b hb).2] at hc; cases hc

theorem Volume.Erased.dataAt (h : vol.Erased fip) (v : Nat) : DataAt fip vol v none :=
  fun _ _ _ hb => h.no_content hb (.inl rfl)

/-- So it holds nothing. -/
theorem Volume.Erased.disk (h : vol.Erased fip) (hwf : fip.Wf) :
    Disk fip L 1 vol fun _ => none :=
  ⟨⟨0, 0, 1, Int.le_refl 1, h.chain hwf⟩, fun v _ => h.dataAt v⟩

/-- Not to ask for log pages asks for less. -/
theorem Chain.relax (h : Chain fip True vol b k i) : Chain fip L vol b k i where
  lt := h.lt
  cur := h.cur
  other b' hb' hk := (h.other b' hb' hk).imp_right fun ⟨hm, j, hj, hc⟩ =>
    ⟨hm, j, hj, hc.1, fun _ => hc.2 trivial⟩
  former b' hb' c hc := (h.former b' hb' c hc).imp_right fun ⟨j, hj, hcl⟩ =>
    ⟨j, hj, hcl.1, fun _ => hcl.2 trivial⟩
  uniq := h.uniq
  dom := h.dom

/-- Less may be asked of a state. -/
theorem Ready.relax {f : Ftl} (h : Ready fip True U f vol D) : Ready fip False False f vol D := by
  obtain ⟨b, k, hinv, -, hpos⟩ := h
  exact ⟨b, k, { hinv with
    chain := hinv.chain.relax
    others := fun b' hb' hne => (hinv.others b' hb' hne).imp_right fun ⟨j, hc⟩ =>
      ⟨j, hc.1, fun hf => hf.elim⟩ }, .inr fun _ hf => hf.elim, hpos⟩

/-- The recovered block is full. -/
def State.full (fip : UftlInfo) (s : State) : Bool :=
  decide (s.ftl.curOffset.page = (fip.ftlPageNum : Int) - 1)

/-- Only a full block can lack its log page. -/
theorem Ready.full (h : Ready fip L U s.ftl s.vol D) :
    Ready fip L (s.full fip = true) s.ftl s.vol D := by
  obtain ⟨b, k, hinv, -, hpos⟩ := h
  refine ⟨b, k, hinv, ?_, hpos⟩
  by_cases hk : k = fip.ftlPageNum
  · exact .inl (decide_eq_true (by rw [hpos, hk]))
  · exact .inr fun he => absurd he hk

theorem FreePool.ok {pool : Nat → PageBuf} (h : FreePool pool) : PoolOk W pool :=
  ⟨fun j hj => .inl (h j hj).1, fun j hj _ => (h j hj).2⟩

/-- A driver that has just mounted flash with the data `D`. -/
theorem Remounted.mounted (h : Remounted fip D b k i cap s₀ s') (htr : Tracked fip W s₀.journal D)
    (hready : Ready fip L U s'.ftl s'.vol D) : Mounted fip L U W s' D :=
  ⟨hready, h.pool.ok, h.journal ▸ htr⟩

end Restart

/-! ## One session -/

/-- From the mounted driver `s`, serving the requests of `h` (newest first, with their answers) has
    led here.  A request that fails is not in `h`, but the driver goes on after it. -/
inductive Session (fip : UftlInfo) (A : Event → Prop) (W : Nat) (s : State) :
    List (Request × Option Sector) → State → Prop
  | start : Session fip A W s [] s
  | serve {h s' s'' t x} {r : Request} : Session fip A W s h s' → r.Inside fip W →
      r.serve fip s' = .ok x s'' t → (∀ e ∈ t, A e) → Session fip A W s ((r, x) :: h) s''
  | refuse {h s' s'' t e} {r : Request} : Session fip A W s h s' → r.Inside fip W →
      r.serve fip s' = .stop (.errno e) s'' t → (∀ e ∈ t, A e) → Session fip A W s h s''

/-- What the requests of a session do to the contents of the device. -/
def effects (fip : UftlInfo) : List (Request × Option Sector) → Contents → Contents
  | [] => id
  | (r, _) :: h => r.effect fip ∘ effects fip h

section Session

variable {s s' : State} {D : Nat → Option (Nat → Sector)} {h : List (Request × Option Sector)}

/-- **A session** keeps the driver mounted. -/
theorem Session.advance (hwf : fip.Wf) (hA : Calm A) (hU : U → ∀ b p, ¬A (.program b p))
    (hW : W ≤ fip.virtualSectorNum) (h₀ : Mounted fip L U W s D)
    (hfed : A .noFreeBlock → Supplied fip s) (hs : Session fip A W s h s') :
    ∃ D', Advance fip L A U W (effects fip h) s D s' D' := by
  induction hs with
  | start => exact ⟨D, .refl h₀ hfed⟩
  | serve _ hin hrun ht ih =>
    obtain ⟨D₁, h₁⟩ := ih
    obtain ⟨⟨⟨D₂, h₂⟩, -⟩, -⟩ := wp_ok (serve_spec hwf hA hU hW h₁.mounted h₁.supplied hin) hrun ht
    exact ⟨D₂, h₁.trans h₂⟩
  | refuse _ hin hrun ht ih =>
    obtain ⟨D₁, h₁⟩ := ih
    obtain ⟨hstop, -⟩ := wp_stopped (serve_spec hwf hA hU hW h₁.mounted h₁.supplied hin) hrun ht
    have := hstop.not_errno
    cases this

end Session

/-! ## Runs by computation -/

/-- The memory of a module that was just loaded. -/
def State.cold (vol : Volume) (faults : Nat → Fault) (journal : List SyncRecord) : State where
  vol := vol
  env := ⟨faults, 0, fun _ => 0, 0⟩
  ftl := ⟨fun _ => 0, fun _ _ => .pageEmpty, fun _ => 0, .blank, ⟨0, 0⟩, 0, 0, ⟨0, []⟩⟩
  pool := fun _ => ⟨0, false, .blank, 0, 0⟩
  checkCount := 0
  fullState := 0
  sectorId := fun _ => 0
  needRewrite := false
  rewritePage := 0
  mounted := false
  journal := journal

theorem firstBoot_cold (faults : Nat → Fault) : FirstBoot fip (.cold .blank faults []) :=
  ⟨⟨rfl, rfl⟩, fun _ _ => ⟨blank_unmapped, rfl⟩, rfl⟩

/-- A sector to write in examples. -/
def sampleSector : Sector := Vector.replicate 512 0x5A

/-- Serve requests one after the other; the answers are returned newest first. -/
def serveAll (fip : UftlInfo) : List Request → M (List (Request × Option Sector))
  | [] => pure []
  | r :: rs => do
    let x ← r.serve fip
    let h ← serveAll fip rs
    pure (h ++ [(r, x)])

/-- A computed run is a session. -/
theorem Session.serveAll {rs : List Request} {s s₁ s' : State} {t : List Event}
    {h h' : List (Request × Option Sector)} (hs : Session fip A W s h s₁)
    (hrun : serveAll fip rs s₁ = .ok h' s' t) (hin : ∀ r ∈ rs, r.Inside fip W)
    (ht : ∀ x ∈ t, A x) : Session fip A W s (h' ++ h) s' := by
  induction rs generalizing h h' s₁ t with
  | nil =>
    cases hrun
    exact hs
  | cons r rs ih =>
    obtain ⟨x, s₂, t₁, t₂, hr, hrest, rfl⟩ := bind_ok hrun
    obtain ⟨h₂, s₃, t₃, t₄, hall, hpure, rfl⟩ := bind_ok hrest
    cases hpure
    have hs₂ := hs.serve (hin r (List.mem_cons_self ..)) hr fun y hy =>
      ht y (List.mem_append_left _ hy)
    have := ih hs₂ hall (fun r' hr' => hin r' (List.mem_cons_of_mem _ hr'))
      fun y hy => ht y (List.mem_append_right _ (List.mem_append_left _ hy))
    rwa [List.append_assoc]

/-! ## Clean runs -/

/-- No flash operation returns an error, and none on a log page is cut. -/
def Faultless : Event → Prop
  | .flashError => False
  | .tearLog _ => False
  | _ => True

instance : DecidablePred Faultless
  | .flashError => isFalse id
  | .tearLog _ => isFalse id
  | .program .. => isTrue trivial
  | .noFreeBlock => isTrue trivial
  | .fifoFull _ => isTrue trivial
  | .countWraps => isTrue trivial

/-- Besides, `get_first_empty_block` finds a block. -/
def Served (x : Event) : Prop := Faultless x ∧ x ≠ .noFreeBlock

instance : DecidablePred Served := fun _ => inferInstanceAs (Decidable (_ ∧ _))

theorem not_served_noFreeBlock : ¬Served .noFreeBlock := fun h => h.2 rfl

theorem calm_served : Calm Served :=
  ⟨fun hx => hx.1, fun _ hx => hx.1, fun hx => absurd hx not_served_noFreeBlock⟩

/-- No flash operation fails, and `check_count` does not wrap. -/
def Steady (x : Event) : Prop := Faultless x ∧ x ≠ .countWraps

instance : DecidablePred Steady := fun _ => inferInstanceAs (Decidable (_ ∧ _))

theorem calm_steady : Calm Steady := ⟨fun hx => hx.1, fun _ hx => hx.1, fun _ hx => hx.2 rfl⟩

/-- Sessions on an erased volume, each but the last ended by a flush of all buffers after which the
    state satisfied `R`. -/
inductive Clean (fip : UftlInfo) (cap : Nat) (A : Event → Prop) (R : State → Prop) : State → Prop
  | init {s s' t} : FirstBoot fip s →
      ftlCoreIoInit fip cap s = .ok () s' t → (∀ e ∈ t, A e) → Clean fip cap A R s'
  | serve {h s s'} : Clean fip cap A R s → Session fip A fip.virtualSectorNum s h s' →
      Clean fip cap A R s'
  | remount {r s s₁ s₂ s₃ t t'} : Clean fip cap A R s → ftlCoreIoAllFlush fip s = .ok r s₁ t →
      (∀ e ∈ t, A e) → R s₁ → Boot s₁ s₂ → ftlCoreIoInit fip cap s₂ = .ok () s₃ t' →
      (∀ e ∈ t', A e) → Clean fip cap A R s₃

section Clean

variable {s s₁ s₂ s₃ : State} {vol w : Volume} {D : Nat → Option (Nat → Sector)} {b k cap : Nat}
  {i : Int} {f : Ftl} {R : State → Prop}

/-- A block that was blank when the flash was left has no newest copy when it is found again. -/
theorem Chain.no_newest (h : Chain fip L vol b k i) (hw : vol.Reattached w)
    (hD : ∀ v, v < fip.virtualSectorNum → DataAt fip vol v (D v)) {n : Nat}
    (hblank : Blank fip (vol.leb n)) (v p : Nat) : ¬Newest fip w v n p := by
  rintro hn
  obtain ⟨hnl, j, hc, -⟩ := id hn
  have hch := h.reattached hw
  have hv := (hch.copy hnl hc).2.2.1
  have hd := hD v hv
  cases hdv : D v with
  | none =>
    rw [hdv] at hd
    exact h.reattached_data hw hd n p j hnl hc
  | some d =>
    rw [hdv] at hd
    obtain ⟨b', p', pg, hn', -⟩ := hd
    obtain ⟨rfl, rfl⟩ := hch.newest_unique hn (h.reattached_newest hw hn').1
    obtain ⟨-, l, hc', -⟩ := hn'
    exact hblank.stub.no_copy hc'

/-- The open block is found again as it was. -/
theorem Chain.reattached_open (h : Chain fip L vol b k i) (hw : vol.Reattached w) :
    OpenAt w b k ↔ OpenAt vol b k := by
  refine and_congr_right fun hk => ?_
  rcases hw.2 b with he | ⟨hm, -⟩
  · rw [he]
  · rw [(h.cur hk).2.1] at hm
    cases hm

/-- What a clean shutdown leaves is open only below the last page. -/
theorem InvAt.open_iff (h : InvAt fip L noOrphan b k f vol D) (hlog : Logged fip True b k f vol) :
    OpenAt vol b k ↔ 0 < k ∧ k < fip.ftlPageNum := by
  refine and_congr_right fun hk => ⟨fun he => ?_, h.cleanLog⟩
  by_contra hlt
  obtain ⟨l, hl, -⟩ := hlog (by have := h.le; omega) trivial
  rw [he] at hl
  cases hl

/-- A clean remount finds no full block without log page. -/
theorem Remounted.logged (h : Remounted fip D b k i cap s₂ s₃)
    (hinv : InvAt fip True noOrphan b k f vol D) (hlog : Logged fip True b k f vol)
    (hw : vol.Reattached s₂.vol) : Ready fip True False s₃.ftl s₃.vol D := by
  obtain ⟨b', k', hinv', hor, hpos⟩ := h.ready
  refine ⟨b', k', hinv', .inr (hor.resolve_left ?_), hpos⟩
  rintro ⟨hop, hk⟩
  have := ((hinv.open_iff hlog).mp ((hinv.chain.reattached_open hw).mp hop)).2
  omega

/-- **A clean remount loses no room.** -/
theorem Remounted.room (h : Remounted fip D b k i cap s₂ s₃) (hcap : fip.lebNum ≤ cap)
    (hinv : InvAt fip True noOrphan b k f vol D) (hlog : Logged fip True b k f vol)
    (hpos : f.curOffset.page = (k : Int) - 1) (hw : vol.Reattached s₂.vol) (hwf : fip.Wf) :
    f.room fip ≤ s₃.ftl.room fip := by
  obtain ⟨b', k', hinv', -, hpos'⟩ := h.ready
  have hP := hwf.page_pos
  -- a block that was blank is free again, or the one to write next
  have hfree : ∀ n, n < fip.lebNum → Blank fip (vol.leb n) →
      n ∈ b' :: s₃.ftl.emptyBlockFifo.items := by
    intro n hn hb
    rw [List.mem_cons]
    by_cases hne : n = b'
    · exact .inl hne
    · exact .inr (hinv'.queued (by rw [h.cap]; exact hcap) n hn hne
        (h.dead n hn (hinv.chain.no_newest hw (fun v hv => (hinv.index v hv).dataAt) hb)))
  have hopen := (hinv.chain.reattached_open hw).trans (hinv.open_iff hlog)
  have hle := hinv.le
  unfold Ftl.room
  rcases h.position with ⟨hop, hcur⟩ | ⟨hno, hpage⟩
  · have hk := hopen.mp hop
    have hb' : b' = b := by
      have := hinv'.curBlock
      rw [hcur] at this
      show b' = b
      have hbb : (b : Int) = b' := this
      omega
    subst hb'
    have hlen : f.emptyBlockFifo.items.length ≤ s₃.ftl.emptyBlockFifo.items.length := by
      refine (hinv.nodup.subperm fun n hn => ?_).length_le
      obtain ⟨hlt, hne, hblank⟩ := hinv.fifo n hn
      exact (List.mem_cons.mp (hfree n hlt hblank)).resolve_left hne
    rw [hcur, hpos]
    have := Nat.mul_le_mul_left fip.ftlPageNum hlen
    simp only [← Int.natCast_mul]
    omega
  · rw [hpage, hpos]
    by_cases hk : k = 0
    · -- the block that was being filled is blank
      have hblank : Blank fip (vol.leb b) :=
        ⟨fun p hp => hinv.clean p (by omega) hp, hinv.cleanLog (by omega)⟩
      have hlen : f.emptyBlockFifo.items.length + 1 ≤ s₃.ftl.emptyBlockFifo.items.length + 1 := by
        have hnd : (b :: f.emptyBlockFifo.items).Nodup :=
          List.nodup_cons.mpr ⟨fun hb => (hinv.fifo b hb).2.1 rfl, hinv.nodup⟩
        have hsub : ∀ n ∈ b :: f.emptyBlockFifo.items, n ∈ b' :: s₃.ftl.emptyBlockFifo.items := by
          intro n hn
          rcases List.mem_cons.mp hn with rfl | hn
          · exact hfree n hinv.chain.lt hblank
          · exact hfree n (hinv.fifo n hn).1 (hinv.fifo n hn).2.2
        exact (hnd.subperm hsub).length_le
      have := Nat.mul_le_mul_left fip.ftlPageNum (Nat.le_of_succ_le_succ hlen)
      simp only [← Int.natCast_mul]
      omega
    · have hkP : k = fip.ftlPageNum := by
        by_contra hne
        exact hno (hopen.mpr ⟨by omega, by omega⟩)
      have hlen : f.emptyBlockFifo.items.length ≤ s₃.ftl.emptyBlockFifo.items.length + 1 :=
        (hinv.nodup.subperm fun n hn => hfree n (hinv.fifo n hn).1 (hinv.fifo n hn).2.2).length_le
      have := Nat.mul_le_mul_left fip.ftlPageNum hlen
      rw [Nat.mul_succ] at this
      simp only [← Int.natCast_mul]
      omega

/-- A driver after a mount: the buffers are free, and there is enough room for a while. -/
structure Fresh (fip : UftlInfo) (A : Event → Prop) (cap : Nat) (s s' : State) : Prop where
  pool : FreePool s'.pool
  fullState : s'.fullState = fullStateOf fip
  cap : s'.ftl.emptyBlockFifo.cap = cap
  faults : s'.env.faults = s.env.faults
  supplied : A .noFreeBlock → Supplied fip s'

/-- After a mount there are free blocks. -/
theorem Remounted.fresh (h : Remounted fip D b k i cap s₂ s₃)
    (hfed : A .noFreeBlock → fip.lebNum ≤ cap ∧ 2 * (fip.ftlPageNum : Int) ≤ s₃.ftl.room fip) :
    Fresh fip A cap s₂ s₃ := by
  refine ⟨h.pool, h.fullState, h.cap, h.faults, fun hA => ⟨?_, ?_, fun _ => ?_, fun hlt => ?_⟩⟩
  · rw [h.cap]
    exact (hfed hA).1
  · rw [h.checkCount]
    decide
  · rw [h.checkCount]
    have := (hfed hA).2
    omega
  · rw [h.checkCount] at hlt
    omega

/-- **The first mount**, of an erased volume. -/
theorem mountErased_spec (hwf : fip.Wf) (hA : Calm A) (hboot : FirstBoot fip s)
    (hfed : A .noFreeBlock → fip.lebNum ≤ cap ∧ 2 ≤ fip.lebNum) :
    wp A Fed (ftlCoreIoInit fip cap)
      (fun _ s' => Mounted fip True False fip.virtualSectorNum s' (fun _ => none) ∧
        Fresh fip A cap s s') (MountCut fip (fun _ => none) s) s := by
  have he := hboot.erased
  have hno : ∀ n, n < fip.lebNum → ∀ v p, ¬Newest fip s.vol v n p := by
    rintro n hn v p ⟨-, j, hc, -⟩
    exact (he n hn).1.stub.no_copy hc
  have hempty : ∀ v, DataAt fip s.vol v ((fun _ => none : Nat → Option (Nat → Sector)) v) :=
    he.dataAt
  refine wp_mono (ftlCoreIoInit_spec hwf hA hboot.booted (he.chain hwf) (by decide) (fun v _ => hempty v)
    fun hx => ⟨(hfed hx).1, .inr ⟨0, hwf.leb_pos, hno 0 hwf.leb_pos⟩⟩) ?_ fun _ _ hs => hs
  rintro _ s' h
  have hnop : ¬OpenAt s.vol 0 0 := fun hop => absurd hop.1 (Nat.lt_irrefl 0)
  obtain ⟨b', k', hinv, hor, hpos⟩ := h.ready
  refine ⟨h.mounted (hboot.journal ▸ ⟨fun v _ => rfl, fun _ _ _ => rfl⟩)
    ⟨b', k', hinv, .inr (hor.resolve_left fun hc => hnop hc.1), hpos⟩,
    h.fresh fun hx => ⟨(hfed hx).1, ?_⟩⟩
  -- every block but the current one is in the fifo
  have hlen : fip.lebNum ≤ s'.ftl.emptyBlockFifo.items.length + 1 := by
    have hsub : ∀ n ∈ List.range fip.lebNum, n ∈ b' :: s'.ftl.emptyBlockFifo.items := by
      intro n hn
      have hlt := List.mem_range.mp hn
      rw [List.mem_cons]
      by_cases hne : n = b'
      · exact .inl hne
      · exact .inr (hinv.queued (by rw [h.cap]; exact (hfed hx).1) n hlt hne
          (h.dead n hlt (hno n hlt)))
    simpa using (List.nodup_range.subperm hsub).length_le
  have hpage := (h.position.resolve_left fun hc => hnop hc.1).2
  have h2 := (hfed hx).2
  have : fip.ftlPageNum * 2 ≤
      fip.ftlPageNum * s'.ftl.emptyBlockFifo.items.length + fip.ftlPageNum := by
    rw [← Nat.mul_succ]
    exact Nat.mul_le_mul_left _ (Nat.le_trans h2 hlen)
  unfold Ftl.room
  rw [hpage]
  simp only [← Int.natCast_mul]
  omega

/-- **A mount after a clean shutdown** finds the same map, as long as the number of the last block fits
    into an `int`. -/
theorem remount_spec (hwf : fip.Wf) (hA : Calm A) (h : Mounted fip True False W s₁ D)
    (hb : Boot s₁ s₂) (hid : s₁.ftl.stamp ≤ intMax)
    (hfed : A .noFreeBlock → fip.lebNum ≤ cap ∧ 2 * (fip.ftlPageNum : Int) ≤ s₁.ftl.room fip) :
    wp A Fed (ftlCoreIoInit fip cap)
      (fun _ s₃ => Mounted fip True False W s₃ D ∧ Fresh fip A cap s₂ s₃ ∧
        (∀ v, v < fip.virtualSectorNum → s₃.ftl.sectorIndex v = s₁.ftl.sectorIndex v) ∧
        s₃.ftl.stamp ≤ s₁.ftl.stamp + 1)
      (MountCut fip D s₂) s₂ := by
  obtain ⟨b, k, hinv, hor, hpos⟩ := h.ready
  have hlog := hor.resolve_left id
  have hw := hb.flash
  have hP := hwf.page_pos
  have hch := hinv.chain.reattached hw
  have hD : ∀ v, v < fip.virtualSectorNum → DataAt fip s₂.vol v (D v) := fun v hv =>
    hinv.chain.reattached_data hw (hinv.index v hv).dataAt
  have hdead : ∀ n, Blank fip (s₁.vol.leb n) → ∀ v p, ¬Newest fip s₂.vol v n p := fun n hbl =>
    hinv.chain.no_newest hw (fun v hv => (hinv.index v hv).dataAt) hbl
  refine wp_mono (ftlCoreIoInit_spec hwf hA hb.booted hch hid hD fun hx => ⟨(hfed hx).1, ?_⟩) ?_
    fun _ _ hs => hs
  · -- with room left, there is an open block or a blank one
    have hroom := (hfed hx).2
    by_cases hk : k = 0
    · exact .inr ⟨b, hinv.chain.lt, hdead b
        ⟨fun p hp => hinv.clean p (by omega) hp, hinv.cleanLog (by omega)⟩⟩
    · by_cases hkP : k < fip.ftlPageNum
      · exact .inl ((hinv.chain.reattached_open hw).mpr ((hinv.open_iff hlog).mpr ⟨by omega, hkP⟩))
      · cases hq : s₁.ftl.emptyBlockFifo.items with
        | nil =>
          unfold Ftl.room at hroom
          rw [hq, hpos] at hroom
          simp only [List.length_nil, Int.natCast_zero, Int.mul_zero] at hroom
          omega
        | cons n rest =>
          obtain ⟨hn, -, hbl⟩ := hinv.fifo n (hq ▸ List.mem_cons_self ..)
          exact .inr ⟨n, hn, hdead n hbl⟩
  · rintro _ s₃ h₃
    have hready := h₃.logged hinv hlog hw
    refine ⟨h₃.mounted (hb.journal ▸ h.tracked) hready, h₃.fresh fun hx => ?_, fun v hv => ?_, ?_⟩
    · have := h₃.room (hfed hx).1 hinv hlog hpos hw hwf
      exact ⟨(hfed hx).1, by have := (hfed hx).2; omega⟩
    · exact hch.indexed_unique (h₃.index v hv) (hinv.chain.reattached_indexed hw (hinv.index v hv))
    · have hpos := hinv.stamp_pos
      have hle := h₃.stamp
      omega

/-- **Clean runs** keep the driver mounted, and supplied where that is asked for. -/
theorem Clean.mounted (hwf : fip.Wf) (hA : Calm A) (hid : ∀ s, R s → s.ftl.stamp ≤ intMax)
    (hfed : A .noFreeBlock → fip.lebNum ≤ cap ∧ 2 ≤ fip.lebNum ∧
      ∀ s, R s → 2 * (fip.ftlPageNum : Int) ≤ s.ftl.room fip)
    (h : Clean fip cap A R s) :
    ∃ D, Mounted fip True False fip.virtualSectorNum s D ∧ (A .noFreeBlock → Supplied fip s) := by
  induction h with
  | init hboot hrun ht =>
    obtain ⟨⟨hm, hfresh⟩, -⟩ := wp_ok (mountErased_spec hwf hA hboot fun hx =>
      ⟨(hfed hx).1, (hfed hx).2.1⟩) hrun ht
    exact ⟨_, hm, hfresh.supplied⟩
  | serve _ hs ih =>
    obtain ⟨D, hm, hsup⟩ := ih
    obtain ⟨D', ha⟩ := hs.advance hwf hA (fun hf => hf.elim) (Nat.le_refl _) hm hsup
    exact ⟨D', ha.mounted, ha.supplied⟩
  | remount _ hflush ht hR hboot hrun ht' ih =>
    obtain ⟨D, hm, hsup⟩ := ih
    obtain ⟨⟨-, -, D', ha⟩, -⟩ := wp_ok (ftlCoreIoAllFlush_spec hwf hA (fun hf => hf.elim)
      (Nat.le_refl _) hm hsup) hflush ht
    obtain ⟨⟨hm', hfresh, -⟩, -⟩ := wp_ok (remount_spec hwf hA ha.mounted hboot (hid _ hR) fun hx =>
      ⟨(hfed hx).1, (hfed hx).2.2 _ hR⟩) hrun ht'
    exact ⟨D', hm', hfresh.supplied⟩

end Clean

end Uftl
