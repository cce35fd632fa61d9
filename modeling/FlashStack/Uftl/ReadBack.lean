/-
  Reads return what was written.

  On an erased volume, with flash operations that succeed and free blocks when they are asked for, a
  read returns the last data written to its sector, through evictions, merges, block scrubs and
  garbage collection.  The one way out is `BUG()`: `garbage_checking` asks for `GC_BLOCK_NUM` free
  blocks, and a volume too small for its virtual sectors cannot provide them.
-/
import FlashStack.Uftl.Sessions
import FlashStack.Uftl.Frames
import FlashStack.Uftl.Collecting

namespace Uftl

open Lib Lib.Prog

variable {fip : UftlInfo} {L : Prop}

/-! ## `BUG()` -/

/-- `garbage_checking` gets stuck only where the virtual sectors fill all blocks but
    `GC_BLOCK_NUM`. -/
theorem Stuck.crowded {s : State} {D : Nat → Option (Nat → Sector)} (h : Stuck fip L D s)
    (hcap : fip.lebNum ≤ s.ftl.emptyBlockFifo.cap) :
    (fip.lebNum - gcBlockNum) * fip.ftlPageNum ≤ fip.virtualSectorNum := by
  obtain ⟨⟨b, k, hinv, -, hpos⟩, hfew, hnone⟩ := h
  exact (hinv.books hpos hcap).crowded hfew hnone

/-! ## The last data written -/

/-- The last data written to a sector (`h` is newest first). -/
def lastWrite : List (Request × Option Sector) → Nat → Option Sector
  | [], _ => none
  | (.write k d, _) :: h, sector => if k = sector then some d else lastWrite h sector
  | (_, _) :: h, sector => lastWrite h sector

/-- The contents of the device after the requests of `h`, none of which found any. -/
theorem effects_lastWrite (h : List (Request × Option Sector)) (sector : Nat) :
    effects fip h (fun _ _ => none) (sector / fip.pageSectorNum) (sector % fip.pageSectorNum) =
      lastWrite h sector := by
  induction h with
  | nil => rfl
  | cons x h ih =>
    obtain ⟨r, a⟩ := x
    cases r with
    | write k d =>
      show (effects fip h _).write _ _ d _ _ = if k = sector then some d else lastWrite h sector
      rw [← ih]
      unfold Contents.write
      by_cases hk : k = sector
      · rw [if_pos hk, hk, Function.update_self, Function.update_self]
      · rw [if_neg hk]
        by_cases hv : sector / fip.pageSectorNum = k / fip.pageSectorNum
        · rw [← hv, Function.update_self, Function.update_of_ne]
          intro hm
          -- a sector is determined by its virtual sector and its place there
          have h₁ := Nat.div_add_mod sector fip.pageSectorNum
          have h₂ := Nat.div_add_mod k fip.pageSectorNum
          rw [← hv, ← hm] at h₂
          exact hk (h₂.symm.trans h₁)
        · rw [Function.update_of_ne hv]
    | read k => exact ih
    | queueFlush => exact ih
    | allFlush => exact ih

/-- Nothing is cached and nothing was written. -/
theorem Caches.empty {s : State} {D : Nat → Option (Nat → Sector)} (hbits : fip.pageSectorNum ≤ 31)
    (hfull : s.fullState = fullStateOf fip) (hpool : FreePool s.pool) :
    Caches fip (fun _ _ => none) s D where
  bits := hbits
  full := hfull
  unique i _ v hi _ hs _ := by
    have : (v : Int) = -1 := hs.symm.trans (hpool i hi).1
    omega
  buffered _ _ _ _ _ _ _ hx := by cases hx
  flash _ _ _ _ _ hx := by cases hx

/-- Every read of a session returned the last data written before. -/
theorem Session.answers {A : Event → Prop} {W : Nat} {s s' : State}
    {D : Nat → Option (Nat → Sector)} {h : List (Request × Option Sector)} (hwf : fip.Wf)
    (hA : Calm A) (hW : W ≤ fip.virtualSectorNum) (h₀ : Mounted fip True False W s D)
    (hfed : A .noFreeBlock → Supplied fip s) (hc : Caches fip (fun _ _ => none) s D)
    (hs : Session fip A W s h s') {k : Nat} {x : Option Sector}
    {rest : List (Request × Option Sector)} (hsuf : (Request.read k, x) :: rest <:+ h) {d : Sector}
    (hd : lastWrite rest k = some d) : x = some d := by
  induction hs with
  | start =>
    have := hsuf.length_le
    simp at this
  | @serve h s₁ s₂ t y r hs₁ hin hrun ht ih =>
    rcases List.suffix_cons_iff.mp hsuf with heq | hsuf
    · obtain ⟨D₁, h₁⟩ := hs₁.advance hwf hA (fun hf => hf.elim) hW h₀ hfed
      obtain ⟨⟨-, hret⟩, -⟩ :=
        wp_ok (serve_spec hwf hA (fun hf => hf.elim) hW h₁.mounted h₁.supplied hin) hrun ht
      simp only [List.cons.injEq, Prod.mk.injEq] at heq
      obtain ⟨⟨rfl, rfl⟩, rfl⟩ := heq
      exact hret k rfl _ (h₁.caches _ hc) d ((effects_lastWrite rest k).trans hd)
    · exact ih hsuf
  | refuse _ _ _ _ ih => exact ih hsuf

/-! ## The device -/

theorem keeps_serve (r : Request) : Keeps SameCap (r.serve fip) := by
  cases r with
  | write k d => exact .bind (keeps_ftlCoreIoWrite k d) fun _ => .pure _
  | read k => exact keeps_ftlCoreIoRead k
  | queueFlush => exact .bind (keeps_queueFlushFrom _) fun _ => .pure _
  | allFlush => exact .bind (.bind (keeps_allFlushUpto _) fun _ => .pure _) fun _ => .pure _

/-- **Reads return the last write.**  A request that does not return ends in `BUG()`, and only on a
    volume with hardly more pages than virtual sectors (or too short a fifo). -/
theorem read_returns_last_write (hwf : fip.Wf) (hbits : fip.pageSectorNum ≤ 31) {cap : Nat}
    {s₀ s₁ s : State} {t₀ : List Event} {h : List (Request × Option Sector)}
    (hboot : FirstBoot fip s₀) (hok : ∀ n, s₀.env.faults n = .ok)
    (hinit : ftlCoreIoInit fip cap s₀ = .ok () s₁ t₀) (ht₀ : ∀ x ∈ t₀, Served x)
    (hs : Session fip Served fip.virtualSectorNum s₁ h s) :
    (∀ k x rest, (Request.read k, x) :: rest <:+ h → ∀ d, lastWrite rest k = some d →
      x = some d) ∧
    ∀ r : Request, r.Inside fip fip.virtualSectorNum → ∀ e s' t, r.serve fip s = .stop e s' t →
      (∀ x ∈ t, Served x) → e = .bug ∧
        (fip.lebNum ≤ cap → (fip.lebNum - gcBlockNum) * fip.ftlPageNum ≤ fip.virtualSectorNum) := by
  have hfed : ∀ {P : Prop}, Served .noFreeBlock → P := fun hx =>
    absurd hx not_served_noFreeBlock
  obtain ⟨⟨hm, hfresh⟩, -⟩ := wp_ok (mountErased_spec hwf calm_served hboot fun hx => hfed hx)
    hinit ht₀
  have hcaches : Caches fip (fun _ _ => none) s₁ fun _ => none :=
    .empty hbits hfresh.fullState hfresh.pool
  refine ⟨fun k x rest hsuf d hd => hs.answers hwf calm_served (Nat.le_refl _) hm
    (fun hx => hfed hx) hcaches hsuf hd, fun r hin e s' t hstop ht => ?_⟩
  obtain ⟨D, ha⟩ := hs.advance hwf calm_served (fun hf => hf.elim) (Nat.le_refl _) hm fun hx =>
    hfed hx
  obtain ⟨⟨D', -, hleft⟩, -⟩ := wp_stopped (serve_spec hwf calm_served (fun hf => hf.elim)
    (Nat.le_refl _) ha.mounted ha.supplied hin) hstop ht
  rcases hleft with ⟨-, ⟨n, p, hcut⟩, -⟩ | ⟨rfl, hstuck⟩
  · rw [ha.frame.faults, hfresh.faults, hok] at hcut
    cases hcut
  · refine ⟨rfl, fun hcap => hstuck.crowded ?_⟩
    have hkeep : s'.ftl.emptyBlockFifo.cap = s.ftl.emptyBlockFifo.cap := by
      have hkept : SameCap s (r.serve fip s).state := keeps_serve r s
      rw [hstop] at hkept
      exact hkept.eq
    rw [hkeep, ha.frame.cap, hfresh.cap]
    exact hcap

/-- Three blocks of one page each, for 65 virtual sectors of one sector. -/
def threeBlocks : UftlInfo := .ofVolume 13 2 1024 65

/-- The device of the example is well formed. -/
theorem wf_threeBlocks : threeBlocks.Wf :=
  ⟨by decide, by decide, by decide, rfl, by decide⟩

/-- A sector that was written, flushed and read back. -/
theorem read_back_threeBlocks :
    ∃ s₁ h s x rest d, Session threeBlocks Served threeBlocks.virtualSectorNum s₁ h s ∧
      h = (.read 0, x) :: rest ∧ lastWrite rest 0 = some d ∧ x = some d := by
  have hrun : (ftlCoreIoInit threeBlocks 4 (.cold .blank (fun _ => .ok) [])).okAnd (fun _ s₁ t₀ =>
      decide (∀ x ∈ t₀, Served x) &&
      (serveAll threeBlocks [.write 0 sampleSector, .allFlush, .read 0] s₁).okAnd fun h _ t =>
        decide (∀ x ∈ t, Served x) && (lastWrite h.tail 0).isSome &&
          match h with
          | (.read 0, _) :: _ => true
          | _ => false) = true := by decide +kernel
  obtain ⟨_, s₁, t₀, hinit, hrun⟩ := Res.okAnd_true hrun
  rw [Bool.and_eq_true, decide_eq_true_eq] at hrun
  obtain ⟨h, s, t, hserve, hcheck⟩ := Res.okAnd_true hrun.2
  rw [Bool.and_eq_true, Bool.and_eq_true, decide_eq_true_eq] at hcheck
  obtain ⟨⟨ht, hlast⟩, hhead⟩ := hcheck
  obtain ⟨d, hlast⟩ := Option.isSome_iff_exists.mp hlast
  have hs := Session.start.serveAll hserve
    (W := threeBlocks.virtualSectorNum) (by decide) ht
  rw [List.append_nil] at hs
  split at hhead
  · rename_i x rest _
    exact ⟨s₁, _, s, x, rest, d, hs, rfl, hlast, (read_returns_last_write wf_threeBlocks
      (by decide) (firstBoot_cold _) (fun _ => rfl) hinit hrun.1 hs).1 0 x rest List.suffix_rfl d hlast⟩
  · cases hhead

/-- With one synced sector and 64 dirty buffers, reading the sector evicts a buffer, which fills the
    second block; garbage is looked for and there is none. -/
theorem read_may_end_in_bug :
    ∃ s₁ t₀ h s d s' t, FirstBoot threeBlocks (.cold .blank (fun _ => .ok) []) ∧
      ftlCoreIoInit threeBlocks 4 (.cold .blank (fun _ => .ok) []) = .ok () s₁ t₀ ∧
      (∀ x ∈ t₀, Served x) ∧ Session threeBlocks Served threeBlocks.virtualSectorNum s₁ h s ∧
      lastWrite h 0 = some d ∧ ftlCoreIoRead threeBlocks 0 s = .stop .bug s' t ∧
      ∀ x ∈ t, Served x := by
  have hrun : (ftlCoreIoInit threeBlocks 4 (.cold .blank (fun _ => .ok) [])).okAnd (fun _ s₁ t₀ =>
      decide (∀ x ∈ t₀, Served x) &&
      (serveAll threeBlocks (.write 0 sampleSector :: .allFlush ::
        (List.range bufNum).map fun i => .write (i + 1) sampleSector) s₁).okAnd fun h s t =>
          decide (∀ x ∈ t, Served x) && (lastWrite h 0).isSome &&
          (ftlCoreIoRead threeBlocks 0 s).stopAnd fun e _ t =>
            decide (e = .bug ∧ ∀ x ∈ t, Served x)) = true := by decide +kernel
  obtain ⟨_, s₁, t₀, hinit, hrun⟩ := Res.okAnd_true hrun
  rw [Bool.and_eq_true, decide_eq_true_eq] at hrun
  obtain ⟨h, s, t, hserve, hcheck⟩ := Res.okAnd_true hrun.2
  rw [Bool.and_eq_true, Bool.and_eq_true, decide_eq_true_eq] at hcheck
  obtain ⟨d, hlast⟩ := Option.isSome_iff_exists.mp hcheck.1.2
  obtain ⟨e, s', t', hread, hbug⟩ := Res.stopAnd_true hcheck.2
  obtain ⟨rfl, ht'⟩ := of_decide_eq_true hbug
  have hs := Session.start.serveAll hserve
    (W := threeBlocks.virtualSectorNum) (by decide +kernel) hcheck.1.1
  rw [List.append_nil] at hs
  exact ⟨s₁, t₀, h, s, d, s', t', firstBoot_cold _, hinit, hrun.1, hs, hlast, hread, ht'⟩

end Uftl
