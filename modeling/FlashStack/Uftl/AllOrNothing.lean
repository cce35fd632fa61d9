/-
  When `ftl_core_io_init` is all or nothing.

  A call that fails before `block_state_index` is allocated leaves the module as it was, up to
  pointers that the next call sets before it uses them: the next call runs alike (`Uniform`).  Once
  that pointer is set, no error path resets it, and the next call is answered `-EBUSY`.  A call that
  fails to allocate one of the two page buffers even returns 0, with the tables freed.
-/
import FlashStack.Uftl.Init
import FlashStack.Uftl.Sessions

namespace Uftl

open Lib Lib.Prog

variable {a : InitArgs} {m m' : Module} {t : List Event}

/-! ## What a call looks at -/

/-- The modules differ at most in pointers other than `block_state_index`. -/
structure SameGuard (m m' : Module) : Prop where
  state : m'.state = m.state
  allocs : m'.allocs = m.allocs
  allocCount : m'.allocCount = m.allocCount
  guard : m'.heap.blockStateIndex = m.heap.blockStateIndex

section Uniform

variable {α : Type}

/-- Setting a pointer; `block_state_index` is set to a value, if at all. -/
theorem uniform_onHeap {f : Heap → Heap}
    (hf : ∀ h h' : Heap, h'.blockStateIndex = h.blockStateIndex →
      (f h').blockStateIndex = (f h).blockStateIndex) : Uniform SameGuard (onHeap f) :=
  .modifyState fun _ _ h => ⟨h.state, h.allocs, h.allocCount, hf _ _ h.guard⟩

/-- What does not touch the pointer of the block states runs the same way, whatever that is. -/
theorem uniform_pointer {f : Heap → Heap}
    (hf : ∀ h, (f h).blockStateIndex = h.blockStateIndex) : Uniform SameGuard (onHeap f) :=
  uniform_onHeap fun h h' he => by rw [hf, hf, he]

theorem uniform_onState (f : State → State) : Uniform SameGuard (onState f) :=
  .modifyState fun _ _ h => ⟨congrArg f h.state, h.allocs, h.allocCount, h.guard⟩

/-- So does an allocation. -/
theorem uniform_kmalloc (size : Int) : Uniform SameGuard (kmalloc size) := by
  refine .get (fun s s' h => ?_) fun s => ?_
  · unfold Module.grants
    rw [h.allocs, h.allocCount]
  · refine .bind (.modifyState fun _ _ h => ?_) fun _ => .pure _
    exact ⟨h.state, h.allocs, congrArg (· + 1) h.allocCount, h.guard⟩

/-- And what works on the state. -/
theorem uniform_core (c : M α) : Uniform SameGuard (core c) := by
  intro m m' h
  unfold core
  rw [h.state]
  cases c m.state with
  | ok a s t => exact .ok _ t ⟨rfl, h.allocs, h.allocCount, h.guard⟩
  | stop e s t =>
    cases e with
    | errno e => exact .ok _ t ⟨rfl, h.allocs, h.allocCount, h.guard⟩
    | powerCut => exact .stop _ t ⟨rfl, h.allocs, h.allocCount, h.guard⟩
    | bug => exact .stop _ t ⟨rfl, h.allocs, h.allocCount, h.guard⟩
    | outOfTable => exact .stop _ t ⟨rfl, h.allocs, h.allocCount, h.guard⟩
    | outOfBuffer => exact .stop _ t ⟨rfl, h.allocs, h.allocCount, h.guard⟩
    | spin => exact .stop _ t ⟨rfl, h.allocs, h.allocCount, h.guard⟩

theorem uniform_allocRows {store : Nat → Ptr → Heap → Heap}
    (hs : ∀ i p, Uniform SameGuard (onHeap (store i p))) (size : Int) (n : Nat) :
    Uniform SameGuard (allocRows store size n) := by
  induction n with
  | zero => exact .pure true
  | succ n ih =>
    refine .bind ih fun ok => .ite ?_ (.pure false)
    exact .bind (uniform_kmalloc size) fun p => .bind (hs n p) fun _ => .pure _

/-- A table other than `block_state_index`. -/
theorem uniform_allocFakeIntArray {put : (FakeIntArray → FakeIntArray) → Heap → Heap}
    (hput : ∀ f h, (put f h).blockStateIndex = h.blockStateIndex) (sector : Int) :
    Uniform SameGuard (allocFakeIntArray put sector) := by
  have hset : ∀ f, Uniform SameGuard (onHeap (put f)) := fun f => uniform_pointer (hput f)
  refine .bind (uniform_kmalloc _) fun p => .bind (hset _) fun _ => .ite (.stop _) ?_
  exact uniform_allocRows (fun i p => hset _) _ _

theorem uniform_allocSectorIndex (sector : Int) : Uniform SameGuard (allocSectorIndex sector) :=
  uniform_allocFakeIntArray (fun _ _ => by rfl) sector

theorem uniform_allocSectorId (sector : Int) : Uniform SameGuard (allocSectorId sector) :=
  uniform_allocFakeIntArray (fun _ _ => by rfl) sector

theorem uniform_allocBlockStateIndex (block pages : Int) :
    Uniform SameGuard (allocBlockStateIndex block pages) := by
  refine .bind (uniform_kmalloc _) fun p => .bind (uniform_onHeap fun _ _ _ => by rfl) fun _ => ?_
  refine .ite (.pure false) (.bind (uniform_onState _) fun _ => ?_)
  exact uniform_allocRows (fun i p => uniform_pointer fun _ => by rfl) _ _

theorem uniform_allocPageBufPool (pageSize : Int) :
    Uniform SameGuard (allocPageBufPool pageSize) := by
  refine .bind (uniform_kmalloc _) fun p => .bind (uniform_pointer fun _ => by rfl) fun _ => ?_
  refine .ite (.stop _) (.forUpto (fun i => ?_) _)
  refine .bind (uniform_kmalloc _) fun d => .bind (uniform_pointer fun _ => by rfl) fun _ => ?_
  exact .bind (uniform_core _) fun _ => .pure ()

theorem uniform_initStatusAlloc (fip : UftlInfo) : Uniform SameGuard (initStatusAlloc fip) := by
  unfold initStatusAlloc
  refine .ite (.bind (uniform_pointer fun _ => by rfl) fun _ => .pure _) ?_
  refine .bind (uniform_kmalloc _) fun p => .bind (uniform_pointer fun _ => by rfl) fun _ => ?_
  refine .ite (.pure _) (.bind (uniform_core _) fun r => ?_)
  refine .ite (.pure _) ?_
  refine .get (fun s s' h => by rw [h.state]) fun s => ?_
  refine .bind (.ite (uniform_kmalloc _) (.pure _)) fun p => ?_
  refine .ite (.pure _) ?_
  exact .bind (uniform_core _) fun r => .pure _

theorem uniform_err3 (r : Ret) : Uniform SameGuard (err3 r) :=
  .bind (uniform_pointer fun _ => by rfl) fun _ => .bind (uniform_pointer fun _ => by rfl) fun _ =>
    .bind (uniform_pointer fun _ => by rfl) fun _ => .pure r

theorem uniform_err4 (a : InitArgs) (r : Ret) : Uniform SameGuard (err4 a r) :=
  .bind (uniform_onHeap fun _ _ _ => by rfl) fun _ => uniform_err3 r

theorem uniform_initPages (a : InitArgs) : Uniform SameGuard (initPages a) := by
  refine .bind (uniform_allocPageBufPool _) fun _ => ?_
  refine .bind (uniform_kmalloc _) fun p => .bind (uniform_pointer fun _ => by rfl) fun _ => ?_
  refine .bind (uniform_kmalloc _) fun p' => .bind (uniform_pointer fun _ => by rfl) fun _ => ?_
  refine .ite (uniform_err4 a _) (.bind (uniform_core _) fun r => .ite (uniform_err4 a _) ?_)
  refine .get (fun s s' h => by rw [h.state]) fun s => .ite (.stop _) ?_
  refine .bind (uniform_initStatusAlloc _) fun r => .ite (uniform_err4 a r) ?_
  exact .bind (uniform_pointer fun _ => by rfl) fun _ => .pure _

/-- So `ftl_core_io_init` does not look at it after the first check. -/
theorem uniform_initTables (a : InitArgs) : Uniform SameGuard (initTables a) := by
  refine .bind (uniform_kmalloc _) fun p => ?_
  refine .bind (uniform_pointer fun _ => by rfl) fun _ => .ite (.pure _) (.ite (.stop _) ?_)
  refine .bind (uniform_allocSectorIndex _) fun ok => ?_
  refine .ite ?_ ?_
  · exact .bind (uniform_pointer fun _ => by rfl) fun _ => .pure _
  refine .bind (uniform_allocSectorId _) fun ok => ?_
  refine .ite ?_ ?_
  · exact .bind (uniform_pointer fun _ => by rfl) fun _ =>
      .bind (uniform_pointer fun _ => by rfl) fun _ => .pure _
  refine .bind (uniform_allocBlockStateIndex _ _) fun ok => ?_
  exact .ite (uniform_err3 _) (uniform_initPages a)

end Uniform

/-! ## What the allocations leave -/

/-- `n` requests of `size` bytes are granted, from number `k` of the script on. -/
def Module.grantsFrom (m : Module) (size : Int) (k n : Nat) : Prop :=
  ∀ i, i < n → m.grants size (k + i) = true

/-- The module after allocations that changed neither the state nor the script. -/
structure Drew (n : Nat) (m m' : Module) : Prop where
  state : m'.state = m.state
  allocs : m'.allocs = m.allocs
  count : m'.allocCount = m.allocCount + n

/-- The environment was asked so many times. -/
theorem Drew.trans {n n' : Nat} {m'' : Module} (h : Drew n m m') (h' : Drew n' m' m'') :
    Drew (n + n') m m'' :=
  ⟨h'.state.trans h.state, h'.allocs.trans h.allocs, by rw [h'.count, h.count, Nat.add_assoc]⟩

/-- What it will answer does not change. -/
theorem grants_congr (h : m'.allocs = m.allocs) (size : Int) (k : Nat) :
    m'.grants size k = m.grants size k := by
  unfold Module.grants
  rw [h]

theorem Drew.grantsFrom {n : Nat} (h : Drew n m m') (size : Int) (k j : Nat) :
    m'.grantsFrom size k j ↔ m.grantsFrom size k j := by
  unfold Module.grantsFrom
  simp only [grants_congr h.allocs]

theorem onHeap_ok {f : Heap → Heap} {u : Unit} (h : onHeap f m = .ok u m' t) :
    Drew 0 m m' ∧ m'.heap = f m.heap := by
  cases h
  exact ⟨⟨rfl, rfl, rfl⟩, rfl⟩

/-- Memory is there exactly if the environment says so. -/
theorem kmalloc_ok {size : Int} {p : Ptr} (h : kmalloc size m = .ok p m' t) :
    (p = .live ↔ m.grants size m.allocCount = true) ∧ (p ≠ .live → p = .null) ∧ Drew 1 m m' ∧
      m'.heap = m.heap := by
  cases h
  refine ⟨?_, ?_, ⟨rfl, rfl, rfl⟩, rfl⟩
  · by_cases hg : m.grants size m.allocCount = true
    · simp [hg]
    · simp [hg]
  · intro hp
    by_cases hg : m.grants size m.allocCount = true
    · rw [if_pos hg] at hp
      exact absurd rfl hp
    · exact if_neg hg

/-- So many answers in a row. -/
theorem grantsFrom_succ {size : Int} {k n : Nat} :
    m.grantsFrom size k (n + 1) ↔ m.grantsFrom size k n ∧ m.grants size (k + n) = true := by
  constructor
  · exact fun h => ⟨fun i hi => h i (by omega), h n (Nat.lt_succ_self n)⟩
  · rintro ⟨h, hn⟩ i hi
    rcases Nat.lt_succ_iff_lt_or_eq.mp hi with hlt | rfl
    · exact h i hlt
    · exact hn

section Rows

variable {store : Nat → Ptr → Heap → Heap} {P : Heap → Prop} {size : Int}
  {n : Nat} {b : Bool}

/-- By induction on the rows: they are all there, or one of the requests was refused.  `P` is what
    storing a row does not change. -/
theorem allocRows_ok (row : Heap → Nat → Ptr)
    (hrow : ∀ i p h, row (store i p h) = Function.update (row h) i p)
    (hP : ∀ i p h, P h → P (store i p h)) (hm : P m.heap)
    (h : allocRows store size n m = .ok b m' t) :
    m'.state = m.state ∧ P m'.heap ∧ (b = true ↔ m.grantsFrom size m.allocCount n) ∧
      (b = true → Drew n m m' ∧ ∀ i, i < n → row m'.heap i = .live) := by
  induction n generalizing m' b t with
  | zero =>
    cases h
    exact ⟨rfl, hm, by simp [Module.grantsFrom], fun _ =>
      ⟨⟨rfl, rfl, rfl⟩, fun i hi => absurd hi (Nat.not_lt_zero i)⟩⟩
  | succ n ih =>
    obtain ⟨ok, m₁, t₁, t₂, hrows, hrest, -⟩ := bind_ok h
    obtain ⟨hs, hP₁, hall, hdrew⟩ := ih hrows
    rw [grantsFrom_succ]
    cases ok with
    | false =>
      rw [if_neg (by decide)] at hrest
      cases hrest
      refine ⟨hs, hP₁, ?_, fun hf => by cases hf⟩
      exact ⟨fun hf => (by cases hf), fun hg => hall.mpr hg.1⟩
    | true =>
      rw [if_pos rfl] at hrest
      obtain ⟨p, m₂, t₃, t₄, hk, hrest, -⟩ := bind_ok hrest
      obtain ⟨_, m₃, t₅, t₆, hset, hpure, -⟩ := bind_ok hrest
      obtain ⟨hp, -, hd, hheap⟩ := kmalloc_ok hk
      obtain ⟨hd₁, hlive⟩ := hdrew rfl
      cases hset
      cases hpure
      rw [grants_congr hd₁.allocs, hd₁.count] at hp
      refine ⟨hd.state.trans hs, hP _ _ _ (by rw [hheap]; exact hP₁), ?_, fun hb => ?_⟩
      · rw [decide_eq_true_eq, hp, ← hall]
        exact ⟨fun hg => ⟨rfl, hg⟩, fun hg => hg.2⟩
      · refine ⟨⟨hd.state.trans hs, hd.allocs.trans hd₁.allocs, ?_⟩, fun i hi => ?_⟩
        · show m₂.allocCount = _
          rw [hd.count, hd₁.count]
          omega
        · show row (store n p m₂.heap) i = .live
          rw [hrow, hheap]
          by_cases hin : i = n
          · rw [hin, Function.update_self]
            exact of_decide_eq_true hb
          · rw [Function.update_of_ne hin]
            exact hlive i (by omega)

end Rows

/-! ## The tables -/

/-- A table that can be used: it has rows, and all of them are there. -/
structure FakeIntArray.Live (x : FakeIntArray) : Prop where
  line : 0 < x.line
  data : x.data = .live
  row : ∀ i : Nat, (i : Int) < x.line → x.row i = .live

section FakeIntArray

variable {put : (FakeIntArray → FakeIntArray) → Heap → Heap} {get : Heap → FakeIntArray}
  {P : Heap → Prop} {sector : Int} {b : Bool}

/-- A table is allocated row by row. -/
theorem allocFakeIntArray_ok (hget : ∀ f h, get (put f h) = f (get h))
    (hP : ∀ f h, P h → P (put f h)) (hm : P m.heap)
    (h : allocFakeIntArray put sector m = .ok b m' t) :
    m'.state = m.state ∧ P m'.heap ∧
      (b = true ↔ m.grantsFrom perIndexLen (m.allocCount + 1) (lines sector).toNat) ∧
      (b = true → Drew (1 + (lines sector).toNat) m m' ∧
        ((get m'.heap).Live ↔ 0 < lines sector)) := by
  obtain ⟨p, m₁, t₁, t₂, hk, hrest, -⟩ := bind_ok h
  obtain ⟨_, m₂, t₃, t₄, hset, hrest, -⟩ := bind_ok hrest
  obtain ⟨hp, hnull, hd₁, hheap₁⟩ := kmalloc_ok hk
  obtain ⟨hd₂, hheap₂⟩ := onHeap_ok hset
  have hd : Drew 1 m m₂ := hd₁.trans hd₂
  rw [hheap₁] at hheap₂
  by_cases hoops : 0 < lines sector ∧ p = .null
  · rw [if_pos hoops] at hrest
    cases hrest
  · rw [if_neg hoops] at hrest
    obtain ⟨hs, ⟨hPm, hline, hdata⟩, hall, hdrew⟩ := allocRows_ok (fun h => (get h).row)
      (P := fun h => P h ∧ (get h).line = lines sector ∧ (get h).data = p)
      (fun i q h => by rw [hget]) (fun i q h hh => ⟨hP _ _ hh.1, by rw [hget]; exact hh.2⟩)
      (by rw [hheap₂, hget]; exact ⟨hP _ _ hm, rfl, rfl⟩) hrest
    rw [hd.grantsFrom, hd.count] at hall
    refine ⟨hs.trans hd.state, hPm, hall, fun hb => ?_⟩
    obtain ⟨hd', hrows⟩ := hdrew hb
    refine ⟨hd.trans hd', fun hl => hline ▸ hl.line, fun hpos => ?_⟩
    refine ⟨by rw [hline]; exact hpos, ?_, fun i hi => hrows i ?_⟩
    · rw [hdata]
      by_contra hne
      exact hoops ⟨hpos, hnull hne⟩
    · rw [hline] at hi
      omega

theorem allocSectorIndex_ok (hP : ∀ f h, P h → P (Heap.putSectorIndex f h)) (hm : P m.heap)
    (h : allocSectorIndex sector m = .ok b m' t) :
    m'.state = m.state ∧ P m'.heap ∧
      (b = true ↔ m.grantsFrom perIndexLen (m.allocCount + 1) (lines sector).toNat) ∧
      (b = true → Drew (1 + (lines sector).toNat) m m' ∧
        (m'.heap.sectorIndex.Live ↔ 0 < lines sector)) :=
  allocFakeIntArray_ok (fun _ _ => rfl) hP hm h

theorem allocSectorId_ok (hP : ∀ f h, P h → P (Heap.putSectorId f h)) (hm : P m.heap)
    (h : allocSectorId sector m = .ok b m' t) :
    m'.state = m.state ∧ P m'.heap ∧
      (b = true ↔ m.grantsFrom perIndexLen (m.allocCount + 1) (lines sector).toNat) ∧
      (b = true → Drew (1 + (lines sector).toNat) m m' ∧
        (m'.heap.sectorId.Live ↔ 0 < lines sector)) :=
  allocFakeIntArray_ok (fun _ _ => rfl) hP hm h

end FakeIntArray

/-- The state of the driver once `block_state_index` is allocated. -/
def State.tabled (s : State) : State :=
  { s with
    mounted := true
    ftl := { s.ftl with pageState := fun _ _ => .pageEmpty } }

section BlockStateIndex

variable {P : Heap → Prop} {block pages : Int} {b : Bool}

/-- The table of block states has its rows and one more array. -/
theorem allocBlockStateIndex_ok
    (hP : ∀ (h : Heap) p f, P h → P { h with blockStateIndex := p, pageState := f })
    (hm : P m.heap) (h : allocBlockStateIndex block pages m = .ok b m' t) :
    (m.grants (block * 8) m.allocCount = false ∧ b = false ∧ m'.state = m.state ∧
        m'.heap.blockStateIndex = .null) ∨
      (m.grants (block * 8) m.allocCount = true ∧ m'.heap.blockStateIndex = .live ∧
        (b = true ↔ m.grantsFrom pages (m.allocCount + 1) block.toNat) ∧
        (b = true → P m'.heap ∧ Drew (1 + block.toNat) { m with state := m.state.tabled } m' ∧
          ∀ i, i < block.toNat → m'.heap.pageState i = .live)) := by
  obtain ⟨p, m₁, t₁, t₂, hk, hrest, -⟩ := bind_ok h
  obtain ⟨_, m₂, t₃, t₄, hset, hrest, -⟩ := bind_ok hrest
  obtain ⟨hp, hnull, hd₁, hheap₁⟩ := kmalloc_ok hk
  obtain ⟨hd₂, hheap₂⟩ := onHeap_ok hset
  have hd : Drew 1 m m₂ := hd₁.trans hd₂
  rw [hheap₁] at hheap₂
  by_cases hpn : p = .null
  · rw [if_pos hpn] at hrest
    cases hrest
    refine .inl ⟨?_, rfl, hd.state, by rw [hheap₂]; exact hpn⟩
    rw [← Bool.not_eq_true, ← hp, hpn]
    decide
  · rw [if_neg hpn] at hrest
    have hlive : p = .live := by
      by_contra hne
      exact hpn (hnull hne)
    obtain ⟨_, m₃, t₅, t₆, hstate, hrest, -⟩ := bind_ok hrest
    have hm₃ : m₃ = { m₂ with state := m₂.state.tabled } := by
      cases hstate
      rfl
    have hd₃ : Drew 1 { m with state := m.state.tabled } m₃ := by
      rw [hm₃]
      exact ⟨congrArg State.tabled hd.state, hd.allocs, hd.count⟩
    have hheap₃ : m₃.heap = { m.heap with blockStateIndex := p } := by rw [hm₃]; exact hheap₂
    obtain ⟨hs, ⟨hPm, hguard⟩, hall, hdrew⟩ := allocRows_ok Heap.pageState
      (P := fun h => P h ∧ h.blockStateIndex = .live) (fun i q h => rfl)
      (fun i q h hh => ⟨hP h h.blockStateIndex (Function.update h.pageState i q) hh.1, hh.2⟩)
      (by rw [hheap₃]; exact ⟨hP m.heap p m.heap.pageState hm, hlive⟩) hrest
    rw [hd₃.grantsFrom, hd₃.count] at hall
    refine .inr ⟨hp.mp hlive, hguard, hall, fun hb => ?_⟩
    obtain ⟨hd', hrows⟩ := hdrew hb
    exact ⟨hPm, hd₃.trans hd', hrows⟩

end BlockStateIndex

/-! ## The buffers -/

section Buffers

variable {P : Heap → Prop} {size : Int} {n : Nat}

/-- What works on the state leaves the heap alone. -/
theorem core_ok {α : Type} {c : M α} {r : Except Errno α} (h : core c m = .ok r m' t) :
    m'.heap = m.heap ∧ m'.allocs = m.allocs ∧ m'.allocCount = m.allocCount ∧
      ((∃ x, c m.state = .ok x m'.state t ∧ r = .ok x) ∨
        ∃ e, c m.state = .stop (.errno e) m'.state t ∧ r = .error e) := by
  unfold core at h
  cases hc : c m.state with
  | ok x s t' =>
    rw [hc] at h
    cases h
    exact ⟨rfl, rfl, rfl, .inl ⟨x, rfl, rfl⟩⟩
  | stop e s t' =>
    rw [hc] at h
    cases e with
    | errno e =>
      cases h
      exact ⟨rfl, rfl, rfl, .inr ⟨e, rfl, rfl⟩⟩
    | powerCut => cases h
    | bug => cases h
    | outOfTable => cases h
    | outOfBuffer => cases h
    | spin => cases h

/-- The state of the driver once the first `n` buffers are set up. -/
def State.pooled (s : State) (n : Nat) : State := (forUpto n allocPageBuf s).state

/-- The state `create_index` starts in. -/
def State.prepared (s : State) : State := s.resetId.tabled.pooled bufNum

/-- The buffers of the pool are set up. -/
theorem pooled_run (s : State) (n : Nat) : forUpto n allocPageBuf s = .ok () (s.pooled n) [] := by
  induction n with
  | zero => rfl
  | succ n ih =>
    obtain ⟨s', hs'⟩ : ∃ s', allocPageBuf n (s.pooled n) = .ok () s' [] := ⟨_, rfl⟩
    have hrun : forUpto (n + 1) allocPageBuf s = .ok () s' [] := ok_bind ih hs'
    unfold State.pooled
    rw [hrun]
    rfl

theorem pooled_succ {s s' : State} (h : allocPageBuf n (s.pooled n) = .ok () s' t) :
    s.pooled (n + 1) = s' := by
  have hrun : forUpto (n + 1) allocPageBuf s = .ok () s' ([] ++ t) := ok_bind (pooled_run s n) h
  unfold State.pooled
  rw [hrun]
  rfl

theorem allocPageBuf_returns {i : Nat} {s s' : State} {e : Exit} :
    allocPageBuf i s ≠ .stop e s' t := by
  intro h
  cases h

/-- The loop over the buffers: `data_buf` of a buffer is what its own request returned. -/
theorem bufLoop_ok (hP : ∀ (h : Heap) f, P h → P { h with dataBuf := f }) (hm : P m.heap)
    {u : Unit}
    (h : forUpto n (fun i => do
      let d ← kmalloc size
      onHeap fun h => { h with dataBuf := Function.update h.dataBuf i d }
      let _ ← core (allocPageBuf i)
      pure ()) m = .ok u m' t) :
    P m'.heap ∧ Drew n { m with state := m.state.pooled n } m' ∧
      ∀ i, i < n → (m'.heap.dataBuf i = .live ↔ m.grants size (m.allocCount + i) = true) := by
  induction n generalizing m' t u with
  | zero =>
    cases h
    exact ⟨hm, ⟨rfl, rfl, rfl⟩, fun i hi => absurd hi (Nat.not_lt_zero i)⟩
  | succ n ih =>
    obtain ⟨_, m₁, t₁, t₂, hloop, hrest, -⟩ := bind_ok h
    obtain ⟨hP₁, hd₁, hrows⟩ := ih hloop
    obtain ⟨d, m₂, t₃, t₄, hk, hrest, -⟩ := bind_ok hrest
    obtain ⟨_, m₃, t₅, t₆, hset, hrest, -⟩ := bind_ok hrest
    obtain ⟨r, m₄, t₇, t₈, hcore, hpure, -⟩ := bind_ok hrest
    cases hpure
    obtain ⟨hp, -, hd₂, hheap₂⟩ := kmalloc_ok hk
    obtain ⟨hd₃, hheap₃⟩ := onHeap_ok hset
    obtain ⟨hheap, hallocs, hcount, hrun⟩ := core_ok hcore
    rw [hheap₂] at hheap₃
    have hd : Drew (n + 1) { m with state := m.state.pooled n } m₃ := hd₁.trans (hd₂.trans hd₃)
    refine ⟨by rw [hheap, hheap₃]; exact hP _ _ hP₁, ⟨?_, hallocs.trans hd.allocs,
      hcount.trans hd.count⟩, fun i hi => ?_⟩
    · rcases hrun with ⟨_, hrun, -⟩ | ⟨e, hrun, -⟩
      · rw [hd.state] at hrun
        exact (pooled_succ hrun).symm
      · exact absurd hrun allocPageBuf_returns
    · rw [hheap, hheap₃]
      show Function.update m₁.heap.dataBuf n d i = .live ↔ _
      by_cases hin : i = n
      · rw [hin, Function.update_self, hp, hd₁.count, grants_congr hd₁.allocs]
        exact Iff.rfl
      · rw [Function.update_of_ne hin]
        exact hrows i (by omega)

theorem allocPageBufPool_ok
    (hP : ∀ (h : Heap) p f, P h → P { h with pageBufPool := p, dataBuf := f }) (hm : P m.heap)
    {u : Unit} (h : allocPageBufPool size m = .ok u m' t) :
    m'.heap.pageBufPool = .live ∧ P m'.heap ∧
      Drew (1 + bufNum) { m with state := m.state.pooled bufNum } m' ∧
      ∀ i, i < bufNum →
        (m'.heap.dataBuf i = .live ↔ m.grants size (m.allocCount + 1 + i) = true) := by
  obtain ⟨p, m₁, t₁, t₂, hk, hrest, -⟩ := bind_ok h
  obtain ⟨_, m₂, t₃, t₄, hset, hrest, -⟩ := bind_ok hrest
  obtain ⟨hp, hnull, hd₁, hheap₁⟩ := kmalloc_ok hk
  obtain ⟨hd₂, hheap₂⟩ := onHeap_ok hset
  have hd : Drew 1 m m₂ := hd₁.trans hd₂
  rw [hheap₁] at hheap₂
  by_cases hpn : p = .null
  · rw [if_pos hpn] at hrest
    cases hrest
  · rw [if_neg hpn] at hrest
    have hlive : p = .live := by
      by_contra hne
      exact hpn (hnull hne)
    obtain ⟨⟨hPm, hpool⟩, hd', hrows⟩ := bufLoop_ok
      (P := fun h => P h ∧ h.pageBufPool = .live)
      (fun h f hh => ⟨hP h h.pageBufPool f hh.1, hh.2⟩)
      (by rw [hheap₂]; exact ⟨hP m.heap p m.heap.dataBuf hm, hlive⟩) hrest
    refine ⟨hpool, hPm, ⟨?_, hd'.allocs.trans hd.allocs, ?_⟩, fun i hi => ?_⟩
    · rw [hd'.state]
      show m₂.state.pooled bufNum = m.state.pooled bufNum
      rw [hd.state]
    · rw [hd'.count]
      show m₂.allocCount + bufNum = m.allocCount + (1 + bufNum)
      rw [hd.count, Nat.add_assoc]
    · rw [hrows i hi, hd.count, grants_congr hd.allocs]

end Buffers

/-! ## Mount -/

section Mount

variable {P : Heap → Prop} {fip : UftlInfo} {r : Ret}

/-- `init_status` returns 0 from `s`: its allocations, from number `k` of the script on, are
    granted, and no flash operation fails. -/
def StatusDone (fip : UftlInfo) (m : Module) (s : State) (k : Nat) : Prop :=
  2 ≤ kfifoBytes (fip.lebNum * 4) ∧ m.grants (kfifoBytes (fip.lebNum * 4)) k = true ∧
    ∃ s₁ t₁ s₂ t₂, initBlocks fip (kfifoCap fip.lebNum) s = .ok () s₁ t₁ ∧
      (s₁.rescues → m.grants (fip.lebPageSize * s₁.rewritePage) (k + 1) = true) ∧
      initOffset fip s₁ = .ok () s₂ t₂

theorem retOf_ne {α : Type} {c : M α} {x : Except Errno α} (h : core c m = .ok x m' t)
    (hx : retOf x ≠ .zero) : ∀ y s t', c m.state ≠ .ok y s t' := by
  intro y s t' hrun
  obtain ⟨-, -, -, ⟨z, -, rfl⟩ | ⟨e, hstop, -⟩⟩ := core_ok h
  · exact hx rfl
  · rw [hrun] at hstop
    cases hstop

/-- Zero is returned by what succeeds. -/
theorem retOf_zero {α : Type} {c : M α} {x : Except Errno α} (h : core c m = .ok x m' t)
    (hx : retOf x = .zero) : ∃ y, c m.state = .ok y m'.state t := by
  obtain ⟨-, -, -, ⟨z, hrun, -⟩ | ⟨e, -, rfl⟩⟩ := core_ok h
  · exact ⟨z, hrun⟩
  · cases hx

/-- A buffer is only needed if there is something to rescue. -/
theorem allocRewriteBuf_ok {s : State} {p : Ptr} (h : allocRewriteBuf fip s m = .ok p m' t) :
    (p ≠ .null ↔ (s.rescues →
        m.grants (fip.lebPageSize * s.rewritePage) m.allocCount = true)) ∧
      m'.state = m.state ∧ m'.heap = m.heap := by
  unfold allocRewriteBuf at h
  by_cases hr : s.rescues
  · rw [if_pos hr] at h
    obtain ⟨hp, hnull, hd, hheap⟩ := kmalloc_ok h
    refine ⟨⟨fun hne _ => hp.mp ?_, fun hg hn => ?_⟩, hd.state, hheap⟩
    · by_contra hl
      exact hne (hnull hl)
    · have hlive := hp.mpr (hg hr)
      rw [hn] at hlive
      cases hlive
  · rw [if_neg hr] at h
    cases h
    exact ⟨⟨fun _ hr' => absurd hr' hr, fun _ hn => by cases hn⟩, rfl, rfl⟩

theorem initStatusAlloc_ok (hP : ∀ (h : Heap) p, P h → P { h with fifo := p }) (hm : P m.heap)
    (h : initStatusAlloc fip m = .ok r m' t) :
    P m'.heap ∧ (r = .zero ↔ StatusDone fip m m.state m.allocCount) ∧
      (r = .zero → m'.heap.fifo = .live ∧
        ∃ t', initStatus fip (kfifoCap fip.lebNum) m.state = .ok () m'.state t') := by
  unfold initStatusAlloc at h
  by_cases hbytes : kfifoBytes (fip.lebNum * 4) < 2
  · rw [if_pos hbytes] at h
    obtain ⟨_, m₁, t₁, t₂, hset, hpure, -⟩ := bind_ok h
    cases hset
    cases hpure
    -- `kfifo_alloc` refuses to make a fifo of less than two bytes
    refine ⟨hP _ _ hm, ⟨fun he => (by cases he), fun hd => ?_⟩, fun he => by cases he⟩
    exact absurd hbytes (Nat.not_lt.mpr hd.1)
  rw [if_neg hbytes] at h
  obtain ⟨p, m₁, t₁, t₂, hk, hrest, -⟩ := bind_ok h
  obtain ⟨_, m₂, t₃, t₄, hset, hrest, -⟩ := bind_ok hrest
  obtain ⟨hp, hnull, hd₁, hheap₁⟩ := kmalloc_ok hk
  obtain ⟨hd₂, hheap₂⟩ := onHeap_ok hset
  have hd : Drew 1 m m₂ := hd₁.trans hd₂
  rw [hheap₁] at hheap₂
  have hP₂ : P m₂.heap := by rw [hheap₂]; exact hP _ _ hm
  -- The fifo was refused.
  by_cases hpn : p = .null
  · rw [if_pos hpn] at hrest
    cases hrest
    refine ⟨hP₂, ⟨fun he => (by cases he), fun hdone => ?_⟩, fun he => by cases he⟩
    have hlive := hp.mpr hdone.2.1
    rw [hpn] at hlive
    cases hlive
  rw [if_neg hpn] at hrest
  have hlive : p = .live := by
    by_contra hne
    exact hpn (hnull hne)
  obtain ⟨x, m₃, t₅, t₆, hblocks, hrest, -⟩ := bind_ok hrest
  obtain ⟨hheap₃, hallocs₃, hcount₃, -⟩ := core_ok hblocks
  -- A block could not be erased.
  by_cases hx : retOf x ≠ .zero
  · rw [if_pos hx] at hrest
    cases hrest
    refine ⟨by rw [hheap₃]; exact hP₂, ⟨fun he => absurd he hx, fun hdone => ?_⟩,
      fun he => absurd he hx⟩
    obtain ⟨-, -, s₁, t₁, s₂, t₂, hrun, -⟩ := hdone
    rw [← hd.state] at hrun
    exact absurd hrun (retOf_ne hblocks hx () s₁ t₁)
  rw [if_neg hx] at hrest
  obtain ⟨_, hrun₁⟩ := retOf_zero hblocks (not_not.mp hx)
  rw [hd.state] at hrun₁
  obtain ⟨m₄, _, t₇, t₈, hget, hrest, -⟩ := bind_ok hrest
  cases hget
  obtain ⟨q, m₅, t₉, t₁₀, hbuf, hrest, -⟩ := bind_ok hrest
  obtain ⟨hq, hs₅, hheap₅⟩ := allocRewriteBuf_ok hbuf
  rw [grants_congr (hallocs₃.trans hd.allocs), hcount₃, hd.count] at hq
  have hP₅ : P m₅.heap := by rw [hheap₅, hheap₃]; exact hP₂
  -- `ftl_rescure` would have no buffer.
  by_cases hqn : q = .null
  · rw [if_pos hqn] at hrest
    cases hrest
    refine ⟨hP₅, ⟨fun he => (by cases he), fun hdone => ?_⟩, fun he => by cases he⟩
    obtain ⟨-, -, s₁, t₁, s₂, t₂, hrun, hg, -⟩ := hdone
    cases hrun.symm.trans hrun₁
    exact absurd hqn (hq.mpr hg)
  rw [if_neg hqn] at hrest
  obtain ⟨y, m₆, t₁₁, t₁₂, hoffset, hpure, -⟩ := bind_ok hrest
  cases hpure
  obtain ⟨hheap₆, -⟩ := core_ok hoffset
  -- What comes back is what the rewriting of the last block returned.
  refine ⟨by rw [hheap₆]; exact hP₅, ⟨fun hy => ?_, fun hdone => ?_⟩, fun hy => ⟨?_, ?_⟩⟩
  · obtain ⟨_, hrun₂⟩ := retOf_zero hoffset hy
    rw [hs₅] at hrun₂
    exact ⟨Nat.not_lt.mp hbytes, hp.mp hlive, m₃.state, _, _, _, hrun₁, hq.mp hqn, hrun₂⟩
  · obtain ⟨-, -, s₁, t₁, s₂, t₂, hrun, -, hrun'⟩ := hdone
    cases hrun.symm.trans hrun₁
    rw [← hs₅] at hrun'
    by_contra hy
    exact retOf_ne hoffset hy () s₂ t₂ hrun'
  · rw [hheap₆, hheap₅, hheap₃, hheap₂]
    exact hlive
  · obtain ⟨_, hrun₂⟩ := retOf_zero hoffset hy
    rw [hs₅] at hrun₂
    rw [initStatus_eq]
    exact ⟨_, ok_bind hrun₁ hrun₂⟩

end Mount

/-! ## The whole function -/

/-- The buffers and the fifo. -/
structure Heap.BufsReady (h : Heap) : Prop where
  pageBufPool : h.pageBufPool = .live
  dataBuf : ∀ i, i < bufNum → h.dataBuf i = .live
  blockLogPage : h.blockLogPage = .live
  tmpPageBuf : h.tmpPageBuf = .live
  fifo : h.fifo = .live

/-- Everything that is used after `ftl_core_io_init` is allocated. -/
structure Heap.Ready (a : InitArgs) (h : Heap) : Prop where
  fip : h.fip = .live
  sectorIndex : h.sectorIndex.Live
  blockStateIndex : h.blockStateIndex = .live
  pageState : ∀ i, i < a.fip.lebNum → h.pageState i = .live
  bufs : h.BufsReady

/-- `create_index` and `init_status` have completed, from `s` to `s'`. -/
def Completed (a : InitArgs) (s s' : State) : Prop :=
  ∃ s₁ t₁ t₂, createIndex a.fip s = .ok () s₁ t₁ ∧
    initStatus a.fip (kfifoCap a.fip.lebNum) s₁ = .ok () s' t₂

/-- The requests for `block_log_page` and `tmp_page_buf`. -/
def PagesGranted (a : InitArgs) (m : Module) (k : Nat) : Prop :=
  m.grants a.lebPageSize (k + (1 + bufNum)) = true ∧
    m.grants a.lebPageSize (k + (1 + bufNum) + 1) = true

/-- From `s` on, with the script at number `k`: the buffers are granted, and `create_index` and
    `init_status` return 0. -/
structure PagesDone (a : InitArgs) (m : Module) (s : State) (k : Nat) : Prop where
  dataBuf : m.grantsFrom a.lebPageSize (k + 1) bufNum
  granted : PagesGranted a m k
  mount : ∃ s₁ t₁, createIndex a.fip (s.pooled bufNum) = .ok () s₁ t₁ ∧
    StatusDone a.fip m s₁ (k + (1 + bufNum) + 1 + 1)

section Pages

variable {P : Heap → Prop} {r r' : Ret}

/-- The labels free what was allocated, and keep the error. -/
theorem err4_ok (h : err4 a r m = .ok r' m' t) :
    r' = r ∧ m'.heap.blockStateIndex = .freed ∧
      m'.heap.blockLogPage = m.heap.blockLogPage ∧ m'.heap.tmpPageBuf = m.heap.tmpPageBuf := by
  cases h
  exact ⟨rfl, rfl, rfl, rfl⟩

theorem StatusDone.congr {fip : UftlInfo} {s : State} {k : Nat} (h : m'.allocs = m.allocs) :
    StatusDone fip m' s k ↔ StatusDone fip m s k := by
  unfold StatusDone
  simp only [grants_congr h]

theorem PagesDone.congr {s : State} {k : Nat} (h : m'.allocs = m.allocs) :
    PagesDone a m' s k ↔ PagesDone a m s k := by
  have hgrants : ∀ size j, m'.grants size j = m.grants size j := grants_congr h
  constructor
  · intro hd
    obtain ⟨s₁, t₁, hrun, hst⟩ := hd.mount
    exact ⟨fun i hi => (hgrants _ _).symm.trans (hd.dataBuf i hi),
      ⟨(hgrants _ _).symm.trans hd.granted.1, (hgrants _ _).symm.trans hd.granted.2⟩,
      s₁, t₁, hrun, (StatusDone.congr h).mp hst⟩
  · intro hd
    obtain ⟨s₁, t₁, hrun, hst⟩ := hd.mount
    exact ⟨fun i hi => (hgrants _ _).trans (hd.dataBuf i hi),
      ⟨(hgrants _ _).trans hd.granted.1, (hgrants _ _).trans hd.granted.2⟩,
      s₁, t₁, hrun, (StatusDone.congr h).mpr hst⟩

/-- The heap facts `P` are about tables other than the buffers. -/
structure AboutTables (P : Heap → Prop) : Prop where
  pool : ∀ (h : Heap) p f, P h → P { h with pageBufPool := p, dataBuf := f }
  log : ∀ (h : Heap) p, P h → P { h with blockLogPage := p }
  tmp : ∀ (h : Heap) p, P h → P { h with tmpPageBuf := p }
  fifo : ∀ (h : Heap) p, P h → P { h with fifo := p }
  sectorId : ∀ (h : Heap) x, P h → P { h with sectorId := x }

/-- A path that ended at `ERR4`. -/
theorem of_err4 (hr : err4 a r m = .ok r' m' t)
    (hbad : r = .zero → m.heap.blockLogPage = .null ∨ m.heap.tmpPageBuf = .null)
    {C D : Prop} (hC : r = .zero → C) (hD : ¬D) :
    m'.heap.blockStateIndex ≠ .null ∧ (r' = .zero → C) ∧
      (r' = .zero ∧ m'.heap.BufsReady ↔ D) := by
  obtain ⟨rfl, hg, hlog, htmp⟩ := err4_ok hr
  have hnot : ¬(r' = .zero ∧ m'.heap.BufsReady) := by
    rintro ⟨hz, hbufs⟩
    rcases hbad hz with hl | ht
    · have := hbufs.blockLogPage
      rw [hlog, hl] at this
      cases this
    · have := hbufs.tmpPageBuf
      rw [htmp, ht] at this
      cases this
  exact ⟨by rw [hg]; decide, hC, fun hb => absurd hb hnot, fun hd => absurd hd hD⟩

/-- The second half of `ftl_core_io_init`. -/
theorem initPages_ok (hP : AboutTables P) (hm : P m.heap)
    (hguard : ∀ h, P h → h.blockStateIndex = .live) (h : initPages a m = .ok r m' t) :
    m'.heap.blockStateIndex ≠ .null ∧
      (r = .zero → PagesGranted a m m.allocCount →
        Completed a (m.state.pooled bufNum) m'.state ∧ P m'.heap) ∧
      (r = .zero ∧ m'.heap.BufsReady ↔ PagesDone a m m.state m.allocCount) := by
  obtain ⟨_, m₁, t₁, t₂, hpool, hrest, -⟩ := bind_ok h
  obtain ⟨p, m₂, t₃, t₄, hk, hrest, -⟩ := bind_ok hrest
  obtain ⟨_, m₃, t₅, t₆, hset, hrest, -⟩ := bind_ok hrest
  obtain ⟨p', m₄, t₇, t₈, hk', hrest, -⟩ := bind_ok hrest
  obtain ⟨_, m₅, t₉, t₁₀, hset', hrest, -⟩ := bind_ok hrest
  obtain ⟨hlive, hP₁, hd₁, hdata⟩ := allocPageBufPool_ok hP.pool hm hpool
  obtain ⟨hp, hnull, hd₂, hheap₂⟩ := kmalloc_ok hk
  obtain ⟨hd₃, hheap₃⟩ := onHeap_ok hset
  obtain ⟨hp', hnull', hd₄, hheap₄⟩ := kmalloc_ok hk'
  obtain ⟨hd₅, hheap₅⟩ := onHeap_ok hset'
  have hd₁₃ := hd₁.trans (hd₂.trans hd₃)
  have hd := hd₁₃.trans (hd₄.trans hd₅)
  rw [hheap₂] at hheap₃
  rw [hheap₄, hheap₃] at hheap₅
  have hP₅ : P m₅.heap := by
    rw [hheap₅]
    exact hP.tmp _ _ (hP.log _ _ hP₁)
  have hlog : m₅.heap.blockLogPage = p := by rw [hheap₅]
  have htmp : m₅.heap.tmpPageBuf = p' := by rw [hheap₅]
  rw [hd₁.count, grants_congr hd₁.allocs] at hp
  rw [hd₁₃.count, grants_congr hd₁₃.allocs] at hp'
  -- One of the two page buffers was refused: `err4`.
  by_cases hpn : p = .null ∨ p' = .null
  · rw [if_pos hpn] at hrest
    have hrefused : ¬PagesGranted a m m.allocCount := by
      rintro ⟨hlog, htmp⟩
      rcases hpn with hpn | hpn
      · have := hp.mpr hlog
        rw [hpn] at this
        cases this
      · have := hp'.mpr htmp
        rw [hpn] at this
        cases this
    exact of_err4 hrest (fun _ => by rw [hlog, htmp]; exact hpn)
      (fun _ hg => absurd hg hrefused) fun hdone => hrefused hdone.granted
  rw [if_neg hpn] at hrest
  have hpl : p = .live := by
    by_contra hne
    exact hpn (.inl (hnull hne))
  have hpl' : p' = .live := by
    by_contra hne
    exact hpn (.inr (hnull' hne))
  obtain ⟨x, m₆, t₁₁, t₁₂, hcreate, hrest, -⟩ := bind_ok hrest
  obtain ⟨hheap₆, hallocs₆, hcount₆, -⟩ := core_ok hcreate
  have hstate : m₅.state = m.state.pooled bufNum := hd.state
  -- `create_index` failed: `err4`, too.
  by_cases hx : retOf x ≠ .zero
  · rw [if_pos hx] at hrest
    refine of_err4 hrest (fun hz => absurd hz hx) (fun hz => absurd hz hx) fun hdone => ?_
    obtain ⟨s₁, t₁, hrun, -⟩ := hdone.mount
    rw [← hstate] at hrun
    exact retOf_ne hcreate hx () s₁ t₁ hrun
  rw [if_neg hx] at hrest
  obtain ⟨_, hrun₁⟩ := retOf_zero hcreate (not_not.mp hx)
  rw [hstate] at hrun₁
  obtain ⟨_, m₇, t₁₃, t₁₄, hget, hrest, -⟩ := bind_ok hrest
  cases hget
  -- With no rows in its table, `create_index` has not come back.
  by_cases hrow : a.Rowless m₆.state
  · rw [if_pos hrow] at hrest
    cases hrest
  rw [if_neg hrow] at hrest
  obtain ⟨y, m₈, t₁₅, t₁₆, hstatus, hrest, -⟩ := bind_ok hrest
  have hP₆ : P m₆.heap := by rw [hheap₆]; exact hP₅
  obtain ⟨⟨hP₈, hpool₈, hlog₈, htmp₈, hdata₈⟩, hdone, hzero⟩ := initStatusAlloc_ok
    (P := fun h => P h ∧ h.pageBufPool = .live ∧ h.blockLogPage = .live ∧ h.tmpPageBuf = .live ∧
      h.dataBuf = m₁.heap.dataBuf)
    (fun h q hh => ⟨hP.fifo h q hh.1, hh.2⟩)
    (by rw [hheap₆, hheap₅]; exact ⟨hP.tmp _ _ (hP.log _ _ hP₁), hlive, hpl, hpl', rfl⟩) hstatus
  rw [StatusDone.congr (hallocs₆.trans hd.allocs), hcount₆, hd.count] at hdone
  -- `init_status` failed.
  by_cases hy : y ≠ .zero
  · rw [if_pos hy] at hrest
    refine of_err4 hrest (fun hz => absurd hz hy) (fun hz => absurd hz hy) fun hd' =>
      hy (hdone.mpr ?_)
    obtain ⟨s₁, t₁, hrun, hst⟩ := hd'.mount
    cases hrun.symm.trans hrun₁
    exact hst
  rw [if_neg hy] at hrest
  obtain ⟨_, m₉, t₁₇, t₁₈, hfree, hpure, -⟩ := bind_ok hrest
  cases hpure
  obtain ⟨hd₉, hheap₉⟩ := onHeap_ok hfree
  obtain ⟨hfifo, t', hinit⟩ := hzero (not_not.mp hy)
  have hP₉ : P m'.heap := by
    rw [hheap₉]
    exact hP.sectorId _ _ hP₈
  -- It returns 0, also where a buffer of the pool is missing: nothing looks at those.
  refine ⟨by rw [hguard _ hP₉]; decide, fun _ _ => ⟨?_, hP₉⟩, ?_, ?_⟩
  · exact ⟨m₆.state, _, t', hrun₁, by rw [hd₉.state]; exact hinit⟩
  · rintro ⟨-, hbufs⟩
    refine ⟨fun i hi => (hdata i hi).mp ?_, ⟨hp.mp hpl, hp'.mp hpl'⟩, _, _, hrun₁,
      hdone.mp (not_not.mp hy)⟩
    have hi' := hbufs.dataBuf i hi
    rw [hheap₉] at hi'
    rw [← hdata₈]
    exact hi'
  · intro hdone'
    refine ⟨rfl, ?_⟩
    rw [hheap₉]
    refine ⟨hpool₈, fun i hi => ?_, hlog₈, htmp₈, hfifo⟩
    show m₈.heap.dataBuf i = .live
    rw [hdata₈]
    exact (hdata i hi).mpr (hdone'.dataBuf i hi)

end Pages

namespace InitArgs

/-- The rows of each sector table. -/
def rows (a : InitArgs) : Nat := (lines a.virtualSectorNum).toNat

/-- The requests before the one for `block_state_index`. -/
def tableCount (a : InitArgs) : Nat := 1 + (1 + a.rows) + (1 + a.rows)

/-- The requests up to and including the one for `block_state_index` are granted.  (Those for the
    tables of rows are not checked: refusing one is an oops.) -/
structure EarlyGranted (a : InitArgs) (m : Module) : Prop where
  info : m.grants 24 m.allocCount = true
  sectorIndex : m.grantsFrom perIndexLen (m.allocCount + 1 + 1) a.rows
  sectorId : m.grantsFrom perIndexLen (m.allocCount + (1 + (1 + a.rows)) + 1) a.rows
  blockStateIndex : m.grants ((a.lebNum - ftlLogBlockNum) * 8) (m.allocCount + a.tableCount) = true

/-- The later ones are granted too, the sector table has a row, and the flash part succeeds. -/
structure LateDone (a : InitArgs) (m : Module) : Prop where
  row : 0 < lines a.virtualSectorNum
  pageState : m.grantsFrom (a.lebPageNum - logPageNumPerBlock) (m.allocCount + a.tableCount + 1)
    a.fip.lebNum
  pages : PagesDone a m m.state.resetId.tabled (m.allocCount + (a.tableCount + (1 + a.fip.lebNum)))

end InitArgs

section Tables

variable {r : Ret}

theorem err1_ok {r' : Ret} (h : err1 r m = .ok r' m' t) :
    r' = r ∧ m'.state = m.state ∧ m'.heap.blockStateIndex = m.heap.blockStateIndex := by
  cases h
  exact ⟨rfl, rfl, rfl⟩

theorem err2_ok {r' : Ret} (h : err2 r m = .ok r' m' t) :
    r' = r ∧ m'.state = m.state ∧ m'.heap.blockStateIndex = m.heap.blockStateIndex := by
  cases h
  exact ⟨rfl, rfl, rfl⟩

theorem err3_ok {r' : Ret} (h : err3 r m = .ok r' m' t) :
    r' = r ∧ m'.state = m.state ∧ m'.heap.blockStateIndex = m.heap.blockStateIndex := by
  cases h
  exact ⟨rfl, rfl, rfl⟩

/-- `ftl_core_io_init` past its first check, by where the run ends: before `block_state_index` is
    allocated, or after. -/
theorem initTables_ok (hguard : m.heap.blockStateIndex = .null)
    (hreset : m.state.resetId = m.state)
    (h : initTables a m = .ok r m' t) :
    (¬a.EarlyGranted m ∧ r = .enomem ∧ m'.state = m.state ∧ m'.heap.blockStateIndex = .null) ∨
      (a.EarlyGranted m ∧ m'.heap.blockStateIndex ≠ .null ∧
        (r = .zero → PagesGranted a m (m.allocCount + (a.tableCount + (1 + a.fip.lebNum))) →
          Completed a (m.state.tabled.pooled bufNum) m'.state) ∧
        (r = .zero ∧ m'.heap.Ready a ↔ a.LateDone m)) := by
  obtain ⟨p, m₁, t₁, t₂, hk, hrest, -⟩ := bind_ok h
  obtain ⟨_, m₂, t₃, t₄, hset, hrest, -⟩ := bind_ok hrest
  obtain ⟨hp, hnull, hd₁, hheap₁⟩ := kmalloc_ok hk
  obtain ⟨hd₂, hheap₂⟩ := onHeap_ok hset
  have hd : Drew 1 m m₂ := hd₁.trans hd₂
  rw [hheap₁] at hheap₂
  by_cases hpn : p = .null
  · rw [if_pos hpn] at hrest
    cases hrest
    refine .inl ⟨fun he => ?_, rfl, hd.state, by rw [hheap₂]; exact hguard⟩
    have := hp.mpr he.info
    rw [hpn] at this
    cases this
  rw [if_neg hpn] at hrest
  have hlive : p = .live := by
    by_contra hne
    exact hpn (hnull hne)
  by_cases hdiv : a.pageSectorNum = 0
  · rw [if_pos hdiv] at hrest
    cases hrest
  rw [if_neg hdiv] at hrest
  -- `sector_index`
  obtain ⟨ok, m₃, t₅, t₆, hindex, hrest, -⟩ := bind_ok hrest
  obtain ⟨hs₃, ⟨hg₃, hfip₃⟩, hall₃, hdrew₃⟩ := allocSectorIndex_ok
    (P := fun h => h.blockStateIndex = .null ∧ h.fip = .live) (fun _ _ hh => hh)
    (by rw [hheap₂]; exact ⟨hguard, hlive⟩) hindex
  rw [hd.grantsFrom, hd.count] at hall₃
  by_cases hok : ok = false
  · rw [if_pos hok] at hrest
    obtain ⟨rfl, hs, hg⟩ := err1_ok hrest
    refine .inl ⟨fun he => ?_, rfl, hs.trans (hs₃.trans hd.state), hg.trans hg₃⟩
    rw [hall₃.mpr he.sectorIndex] at hok
    cases hok
  rw [if_neg hok] at hrest
  have hok₃ : ok = true := by simpa using hok
  obtain ⟨hd₃, hindexLive⟩ := hdrew₃ hok₃
  have hd₀₃ := hd.trans hd₃
  -- `sector_id`
  obtain ⟨ok', m₄, t₇, t₈, hid, hrest, -⟩ := bind_ok hrest
  obtain ⟨hs₄, ⟨hg₄, hfip₄, hindex₄⟩, hall₄, hdrew₄⟩ := allocSectorId_ok
    (P := fun h => h.blockStateIndex = .null ∧ h.fip = .live ∧
      (h.sectorIndex.Live ↔ 0 < lines a.virtualSectorNum)) (fun _ _ hh => hh)
    ⟨hg₃, hfip₃, hindexLive⟩ hid
  rw [hd₀₃.grantsFrom, hd₀₃.count] at hall₄
  by_cases hok' : ok' = false
  · rw [if_pos hok'] at hrest
    obtain ⟨rfl, hs, hg⟩ := err2_ok hrest
    refine .inl ⟨fun he => ?_, rfl, hs.trans (hs₄.trans hd₀₃.state), hg.trans hg₄⟩
    rw [hall₄.mpr he.sectorId] at hok'
    cases hok'
  rw [if_neg hok'] at hrest
  have hok₄ : ok' = true := by simpa using hok'
  obtain ⟨hd₄, -⟩ := hdrew₄ hok₄
  have hd₀₄ : Drew a.tableCount m m₄ := hd₀₃.trans hd₄
  -- `block_state_index`
  obtain ⟨ok'', m₅, t₉, t₁₀, hblock, hrest, -⟩ := bind_ok hrest
  rcases allocBlockStateIndex_ok (P := fun h => h.fip = .live ∧
      (h.sectorIndex.Live ↔ 0 < lines a.virtualSectorNum)) (fun _ _ _ hh => hh) ⟨hfip₄, hindex₄⟩
      hblock with ⟨hno, rfl, hs₅, hg₅⟩ | ⟨hyes, hg₅, hall₅, hdrew₅⟩
  · rw [if_pos rfl] at hrest
    obtain ⟨rfl, hs, hg⟩ := err3_ok hrest
    refine .inl ⟨fun he => ?_, rfl, hs.trans (hs₅.trans hd₀₄.state), hg.trans hg₅⟩
    rw [hd₀₄.count, grants_congr hd₀₄.allocs, he.blockStateIndex] at hno
    cases hno
  rw [hd₀₄.count, grants_congr hd₀₄.allocs] at hyes
  rw [hd₀₄.grantsFrom, hd₀₄.count] at hall₅
  have hearly : a.EarlyGranted m :=
    ⟨hp.mp hlive, hall₃.mp hok₃, hall₄.mp hok₄, hyes⟩
  refine .inr ⟨hearly, ?_⟩
  by_cases hok'' : ok'' = false
  · rw [if_pos hok''] at hrest
    obtain ⟨rfl, hs, hg⟩ := err3_ok hrest
    refine ⟨by rw [hg, hg₅]; decide, fun hz => absurd hz (by decide),
      fun hz => absurd hz.1 (by decide), fun hl => ?_⟩
    rw [hall₅.mpr hl.pageState] at hok''
    cases hok''
  rw [if_neg hok''] at hrest
  have hok₅ : ok'' = true := by simpa using hok''
  obtain ⟨⟨hfip₅, hindex₅⟩, hd₅, hrows₅⟩ := hdrew₅ hok₅
  -- everything but the buffers is there
  obtain ⟨hg, hcomplete, hdone⟩ := initPages_ok (P := fun h => h.fip = .live ∧
      (h.sectorIndex.Live ↔ 0 < lines a.virtualSectorNum) ∧ h.blockStateIndex = .live ∧
      ∀ i, i < a.fip.lebNum → h.pageState i = .live)
    ⟨fun _ _ _ hh => hh, fun _ _ hh => hh, fun _ _ hh => hh, fun _ _ hh => hh, fun _ _ hh => hh⟩
    ⟨hfip₅, hindex₅, hg₅, hrows₅⟩ (fun _ hh => hh.2.2.1) hrest
  have hstate₅ : m₅.state = m.state.tabled := by
    rw [hd₅.state]
    show m₄.state.tabled = _
    rw [hd₀₄.state]
  have hcount₅ : m₅.allocCount = m.allocCount + (a.tableCount + (1 + a.fip.lebNum)) := by
    rw [hd₅.count]
    show m₄.allocCount + _ = _
    rw [hd₀₄.count, Nat.add_assoc]
    rfl
  have hpages : PagesDone a m₅ m₅.state m₅.allocCount ↔
      PagesDone a m m.state.tabled (m.allocCount + (a.tableCount + (1 + a.fip.lebNum))) := by
    rw [hstate₅, hcount₅]
    exact PagesDone.congr (hd₅.allocs.trans hd₀₄.allocs)
  have hgranted : PagesGranted a m₅ m₅.allocCount ↔
      PagesGranted a m (m.allocCount + (a.tableCount + (1 + a.fip.lebNum))) := by
    unfold PagesGranted
    rw [hcount₅, grants_congr (hd₅.allocs.trans hd₀₄.allocs),
      grants_congr (hd₅.allocs.trans hd₀₄.allocs)]
  rw [hpages, ← hreset] at hdone
  rw [hstate₅, hgranted] at hcomplete
  refine ⟨hg, fun hz hp => (hcomplete hz hp).1, fun hr => ?_, fun hl => ?_⟩
  · have hpd := hdone.mp ⟨hr.1, hr.2.bufs⟩
    obtain ⟨-, -, hindex', -⟩ := hcomplete hr.1 hpd.granted
    exact ⟨hindex'.mp hr.2.sectorIndex, hall₅.mp hok₅, hpd⟩
  · obtain ⟨hz, hbufs⟩ := hdone.mpr hl.pages
    obtain ⟨-, hfip', hindex', hguard', hrows'⟩ := hcomplete hz hl.pages.granted
    exact ⟨hz, hfip', hindex'.mpr hl.row, hguard', hrows', hbufs⟩

end Tables

/-- The module with a script that grants everything, and flash operations that succeed. -/
def Module.calm (m : Module) : Module :=
  { m with
    state := { m.state with env := { m.state.env with faults := fun _ => .ok } }
    allocs := fun _ => true
    allocCount := 0 }

/-- The call from `m` left the module, `m'`, as it was: a later call in which nothing fails runs as
    it would have without the first one. -/
structure AsBefore (m m' : Module) : Prop where
  guard : m'.heap.blockStateIndex = .null
  later : ∀ a, Alike SameGuard (ftlCoreIoInitAlloc a m.calm) (ftlCoreIoInitAlloc a m'.calm)

/-- `ftl_core_io_init` returned `r`: it did all, or nothing. -/
structure AllOrNothing (a : InitArgs) (m : Module) (r : Ret) (m' : Module) : Prop where
  all : r = .zero → m'.heap.Ready a ∧ Completed a m.state.prepared m'.state
  nothing : r ≠ .zero → AsBefore m m'

/-- Past the first check the function is `initTables`. -/
theorem ftlCoreIoInitAlloc_eq (hg : m.heap.blockStateIndex = .null) :
    ftlCoreIoInitAlloc a m = initTables a { m with state := m.state.resetId } := by
  unfold ftlCoreIoInitAlloc
  rw [getState_bind, if_neg (not_not.mpr hg)]
  exact modifyState_bind ..

/-- It starts only if nothing is initialised. -/
theorem guard_null {r : Ret} (h : ftlCoreIoInitAlloc a m = .ok r m' t) (hr : r ≠ .errno .EBUSY) :
    m.heap.blockStateIndex = .null := by
  by_contra hne
  unfold ftlCoreIoInitAlloc at h
  rw [getState_bind, if_pos hne] at h
  cases h
  exact hr rfl

/-- The early failures leave nothing but `block_id`. -/
theorem asBefore (hg : m.heap.blockStateIndex = .null) (hg' : m'.heap.blockStateIndex = .null)
    (hs : m'.state = m.state.resetId) : AsBefore m m' := by
  refine ⟨hg', fun a => ?_⟩
  have hcalm : m.calm.heap.blockStateIndex = .null := hg
  have hcalm' : m'.calm.heap.blockStateIndex = .null := hg'
  rw [ftlCoreIoInitAlloc_eq hcalm, ftlCoreIoInitAlloc_eq hcalm']
  refine uniform_initTables a _ _ ⟨?_, rfl, rfl, hg'.trans hg.symm⟩
  unfold Module.calm
  rw [hs]
  rfl

theorem earlyGranted_reset :
    a.EarlyGranted { m with state := m.state.resetId } ↔ a.EarlyGranted m :=
  ⟨fun h => ⟨h.info, h.sectorIndex, h.sectorId, h.blockStateIndex⟩,
    fun h => ⟨h.info, h.sectorIndex, h.sectorId, h.blockStateIndex⟩⟩

theorem lateDone_reset : a.LateDone { m with state := m.state.resetId } ↔ a.LateDone m := by
  have hpages : ∀ s k, PagesDone a { m with state := m.state.resetId } s k ↔ PagesDone a m s k :=
    fun s k => PagesDone.congr rfl
  exact ⟨fun h => ⟨h.row, h.pageState, (hpages _ _).mp h.pages⟩,
    fun h => ⟨h.row, h.pageState, (hpages _ _).mpr h.pages⟩⟩

/-- What has completed is the run of `ftlCoreIoInit`, where every allocation is granted. -/
theorem Completed.run {s s' : State} (h : Completed a s.prepared s') (hm : s.mounted = false) :
    ∃ t, ftlCoreIoInit a.fip (kfifoCap a.fip.lebNum) s = .ok () s' t := by
  obtain ⟨s₁, t₁, t₂, hcreate, hstatus⟩ := h
  refine ⟨[] ++ (t₁ ++ t₂), ?_⟩
  unfold ftlCoreIoInit
  rw [getState_bind, if_neg (by rw [hm]; decide), modifyState_bind]
  exact ok_bind (pooled_run _ _) (ok_bind hcreate hstatus)

/-- A call that returns 0, on a machine that grants every allocation. -/
theorem completed_of_granted (h : ftlCoreIoInitAlloc a m = .ok .zero m' t)
    (hall : ∀ k, m.allocs k = true) (hsize : 0 ≤ a.lebPageSize) :
    Completed a m.state.prepared m'.state := by
  have hg := guard_null h (by decide)
  rw [ftlCoreIoInitAlloc_eq hg] at h
  rcases initTables_ok (m := { m with state := m.state.resetId }) hg rfl h with
      ⟨-, hz, -⟩ | ⟨-, -, hcomplete, -⟩
  · cases hz
  · have hgrants : ∀ k, m.grants a.lebPageSize k = true := by
      intro k
      unfold Module.grants
      rw [hall k, Bool.or_true, Bool.and_true]
      exact decide_eq_true hsize
    exact hcomplete rfl ⟨hgrants _, hgrants _⟩

/-- **All or nothing.**  A call that returns something other than `-EBUSY` is all or nothing if and
    only if one of the requests up to the one for `block_state_index` is refused, or no later
    request is, and `create_index` and `init_status` return 0. -/
theorem init_all_or_nothing_iff {r : Ret} (h : ftlCoreIoInitAlloc a m = .ok r m' t)
    (hr : r ≠ .errno .EBUSY) :
    AllOrNothing a m r m' ↔ ¬a.EarlyGranted m ∨ a.LateDone m := by
  have hg := guard_null h hr
  rw [ftlCoreIoInitAlloc_eq hg] at h
  rcases initTables_ok (m := { m with state := m.state.resetId }) hg rfl h with 
      ⟨hearly, rfl, hs, hg'⟩ | ⟨hearly, hg', hcomplete, hdone⟩
  · rw [earlyGranted_reset] at hearly
    refine iff_of_true ⟨fun hz => (by cases hz), fun _ => asBefore hg hg' hs⟩ (.inl hearly)
  · rw [earlyGranted_reset] at hearly
    rw [lateDone_reset] at hdone
    have hlate : AllOrNothing a m r m' ↔ r = .zero ∧ m'.heap.Ready a := by
      constructor
      · intro hall
        have hz : r = .zero := by
          by_contra hne
          exact hg' (hall.nothing hne).guard
        exact ⟨hz, (hall.all hz).1⟩
      · rintro ⟨hz, hready⟩
        have hgranted := (hdone.mp ⟨hz, hready⟩).pages.granted
        exact ⟨fun _ => ⟨hready, hcomplete hz hgranted⟩, fun hne => absurd hz hne⟩
    rw [hlate, hdone]
    exact ⟨.inr, fun hor => hor.resolve_left (not_not.mpr hearly)⟩

/-! ## Small calls -/

/-- A module that was just loaded, on a volume that was never written. -/
def Module.loaded (allocs : Nat → Bool) : Module where
  state := .cold .blank (fun _ => .ok) []
  heap := ⟨.null, ⟨0, .null, fun _ => .null⟩, ⟨0, .null, fun _ => .null⟩, .null, fun _ => .null,
    .null, fun _ => .null, .null, .null, .null⟩
  allocs := allocs
  allocCount := 0

/-- Three blocks of one page, 65 sectors. -/
def smallArgs : InitArgs := ⟨13, 2, 1024, 65⟩

/-- The row of the first sector table is refused. -/
theorem init_all_or_nothing_noRow :
    ∃ r m' t, ftlCoreIoInitAlloc smallArgs (.loaded fun k => decide (k ≠ 2)) = .ok r m' t ∧
      AllOrNothing smallArgs (.loaded fun k => decide (k ≠ 2)) r m' := by
  have hrun : (ftlCoreIoInitAlloc smallArgs (.loaded fun k => decide (k ≠ 2))).okAnd
      (fun r _ _ => decide (r = .enomem)) = true := by decide +kernel
  obtain ⟨r, m', t, hrun, hr⟩ := Res.okAnd_true hrun
  have hr := of_decide_eq_true hr
  refine ⟨r, m', t, hrun, (init_all_or_nothing_iff hrun (by rw [hr]; decide)).mpr (.inl ?_)⟩
  intro he
  exact absurd (he.sectorIndex 0 (by decide)) (by decide)

/-- The page of `block_log_page` is refused: the call returns 0, with no tables. -/
theorem init_returns_zero_without_tables :
    ∃ a m r m' t, ftlCoreIoInitAlloc a m = .ok r m' t ∧ r ≠ .errno .EBUSY ∧
      ¬AllOrNothing a m r m' := by
  have hrun : (ftlCoreIoInitAlloc smallArgs (.loaded fun k => decide (k ≠ 74))).okAnd
      (fun r m' _ => decide (r = .zero ∧ m'.heap.blockStateIndex = .freed)) = true := by
    decide +kernel
  obtain ⟨r, m', t, hrun, hr⟩ := Res.okAnd_true hrun
  obtain ⟨hz, hfreed⟩ := of_decide_eq_true hr
  refine ⟨_, _, r, m', t, hrun, by rw [hz]; decide, fun hall => ?_⟩
  have hlive := (hall.all hz).1.blockStateIndex
  rw [hfreed] at hlive
  cases hlive

end Uftl
