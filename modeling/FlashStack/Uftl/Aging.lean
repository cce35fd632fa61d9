/-
  When `ftl_core_io_queue_flush` writes back a buffer that was not touched for a while.

  The function compares `jiffies + NEED_FLUSH_TIME` with the present `jiffies`, both of them reduced
  modulo `2 ^ 32`.  The comparison is right as long as neither or both of the sums have wrapped.  A
  buffer touched shortly before the wrap is written back at once; one touched a little earlier is
  not written back until the counter comes round again.

  `flush_one_buf`, which frees a buffer when all are in use, does not look at the ages it compares at all.
-/
import FlashStack.Uftl.ReadBack

namespace Uftl

open Lib Lib.Prog

variable {fip : UftlInfo} {i n : Nat}

/-! ## Comparing counters that wrap -/

/-- `n` and `d` ticks after `T`, compared as counter values. -/
theorem ticks_lt_iff {w : Nat} (T : BitVec w) {n d : Nat} (hn : n < 2 ^ w) (hd : d < 2 ^ w) :
    (T + BitVec.ofNat w n < T + BitVec.ofNat w d ↔ n < d) ↔
      (2 ^ w ≤ T.toNat + n ↔ 2 ^ w ≤ T.toNat + d) := by
  have hT : T.toNat < 2 ^ w := T.isLt
  rw [BitVec.lt_def, BitVec.toNat_add, BitVec.toNat_add, BitVec.toNat_ofNat, BitVec.toNat_ofNat,
    Nat.mod_eq_of_lt hn, Nat.mod_eq_of_lt hd]
  generalize T.toNat = t at hT ⊢
  generalize 2 ^ w = N at hn hd hT ⊢
  have hwrap : ∀ x, x < N → (t + x) % N = if N ≤ t + x then t + x - N else t + x := by
    intro x hx
    split
    · rw [Nat.mod_eq_sub_mod ‹_›, Nat.mod_eq_of_lt (by omega)]
    · exact Nat.mod_eq_of_lt (by omega)
  rw [hwrap n hn, hwrap d hd]
  split
  · split
    · omega
    · omega
  · split
    · omega
    · omega

/-! ## One call -/

/-- Buffer `i` and the clock are as they were. -/
structure SameBuf (i : Nat) (s s' : State) : Prop where
  buf : s'.pool i = s.pool i
  clock : s'.env.clock = s.env.clock

namespace SameBuf

instance refl : Std.Refl (SameBuf i) := ⟨fun _ => ⟨rfl, rfl⟩⟩

instance trans : Trans (SameBuf i) (SameBuf i) (SameBuf i) :=
  ⟨fun h h' => ⟨h'.buf.trans h.buf, h'.clock.trans h.clock⟩⟩

end SameBuf

/-- A buffer is one of the others. -/
theorem SameOthers.sameBuf {j : Nat} {s s' : State} (h : SameOthers j s s') (hj : i ≠ j) :
    SameBuf i s s' := ⟨h.pool i hj, h.clock⟩

theorem sameBuf_readJiffies : Keeps (SameBuf i) readJiffies :=
  .bind .getState fun _ => .bind (.modifyState fun _ => ⟨rfl, rfl⟩) fun _ => .pure _

/-- The round of another buffer. -/
theorem sameBuf_queueFlushBuf {j : Nat} (hj : i ≠ j) :
    Keeps (SameBuf i) (queueFlushBuf fip j) := by
  refine .bind .getState fun _ => .ite (.pure _) (.bind sameBuf_readJiffies fun _ => ?_)
  refine .ite (.bind (.attempt ?_) fun _ => .pure _) (.pure _)
  exact (others_syncOneBuf j).imp fun _ _ h => h.sameBuf hj

/-- The rounds before that of buffer `i`. -/
theorem sameBuf_queueFlushFrom (hn : n ≤ i) : Keeps (SameBuf i) (queueFlushFrom fip n) := by
  induction n with
  | zero => exact .pure false
  | succ n ih =>
    exact .bind (ih (by omega)) fun _ => .bind (sameBuf_queueFlushBuf (by omega)) fun _ => .pure _

/-- A call that returns comes to the round of buffer `i`, finds the buffer as it was before the
    call, and leaves it as the round does. -/
theorem round_of_call (hi : i < n) {s s' : State} {b : Bool} {t : List Event}
    (h : queueFlushFrom fip n s = .ok b s' t) :
    ∃ b₁ s₁ t₁ b₂ s₂ t₂, queueFlushFrom fip i s = .ok b₁ s₁ t₁ ∧
      queueFlushBuf fip i s₁ = .ok b₂ s₂ t₂ ∧ SameBuf i s s₁ ∧ SameBuf i s₂ s' := by
  induction n generalizing s' b t with
  | zero => exact absurd hi (Nat.not_lt_zero i)
  | succ n ih =>
    obtain ⟨b₁, s₁, t₁, t', hfrom, hrest, -⟩ := bind_ok h
    obtain ⟨b₂, s₂, t₂, t'', hbuf, hpure, -⟩ := bind_ok hrest
    cases hpure
    rcases Nat.lt_succ_iff_lt_or_eq.mp hi with hlt | rfl
    · obtain ⟨b₃, s₃, t₃, b₄, s₄, t₄, hfrom', hround, hbefore, hafter⟩ := ih hlt hfrom
      have hother : SameBuf i s₁ s' := (sameBuf_queueFlushBuf (by omega)).of_ok hbuf
      exact ⟨b₃, s₃, t₃, b₄, s₄, t₄, hfrom', hround, hbefore, Trans.trans hafter hother⟩
    · exact ⟨b₁, s₁, t₁, b₂, s', t₂, hfrom, hbuf,
        (sameBuf_queueFlushFrom (Nat.le_refl _)).of_ok hfrom, Std.Refl.refl s'⟩

/-- A buffer that is in use and has sectors to write. -/
def PageBuf.Pending (b : PageBuf) : Prop := b.sector ≠ ftlNomap ∧ b.sectorState ≠ 0

instance PageBuf.decidablePending (b : PageBuf) : Decidable b.Pending :=
  inferInstanceAs (Decidable (_ ∧ _))

/-- In the call from `s`, writing back buffer `i` does not fail. -/
def State.Syncable (fip : UftlInfo) (s : State) (i : Nat) : Prop :=
  ∀ b s₁ t, queueFlushFrom fip i s = .ok b s₁ t →
    ∃ s₂ t₂, (readJiffies >>= fun _ => syncOneBuf fip i) s₁ = .ok () s₂ t₂

/-- A buffer that was written is free. -/
theorem syncOneBuf_frees {s s' : State} {t : List Event} (h : syncOneBuf fip i s = .ok () s' t) :
    (s'.pool i).sector = ftlNomap := by
  obtain ⟨_, s₁, t₁, _, -, hrest, -⟩ := bind_ok h
  obtain ⟨_, s₂, t₂, _, -, hrest, -⟩ := bind_ok hrest
  obtain ⟨now, s₃, t₃, _, -, hset, -⟩ := bind_ok hrest
  cases hset
  show (Function.update s₃.pool i _ i).sector = _
  rw [Function.update_self]

/-- What the round of a pending buffer does to it. -/
theorem queueFlushBuf_ok {s s' : State} {b : Bool} {t : List Event} {now : BitVec 32}
    (hp : (s.pool i).Pending) (hnow : s.env.clock s.env.clockReads = now)
    (hsync : ∃ s₂ t₂, (readJiffies >>= fun _ => syncOneBuf fip i) s = .ok () s₂ t₂)
    (h : queueFlushBuf fip i s = .ok b s' t) :
    ((s.pool i).jiffies + needFlushTime < now → (s'.pool i).sector = ftlNomap) ∧
      (¬(s.pool i).jiffies + needFlushTime < now → s'.pool i = s.pool i) := by
  obtain ⟨_, s₀, t₀, t', hget, hrest, -⟩ := bind_ok h
  cases hget
  rw [if_neg (not_or.mpr hp)] at hrest
  obtain ⟨now', s₁, t₁, t'', hread, hrest, -⟩ := bind_ok hrest
  obtain ⟨s₂, t₂, hsync⟩ := hsync
  obtain ⟨_, _, _, t₃, hread', hsync, -⟩ := bind_ok hsync
  cases hread.symm.trans hread'
  have hclock : now' = now := by
    rw [← hnow]
    cases hread
    rfl
  have hsame : SameBuf i s s₁ := sameBuf_readJiffies.of_ok hread
  subst hclock
  refine ⟨fun hdue => ?_, fun hdue => ?_⟩
  · rw [if_pos hdue] at hrest
    obtain ⟨r, s₃, t₄, _, htry, hpure, -⟩ := bind_ok hrest
    cases hpure
    cases htry.symm.trans (attempt_ok hsync)
    exact syncOneBuf_frees hsync
  · rw [if_neg hdue] at hrest
    cases hrest
    exact hsame.buf

/-- One call, made when the clock reads `now`: a pending buffer is free after it, or as before. -/
theorem ftlCoreIoQueueFlush_ok (hi : i < bufNum) {s s' : State} {b : Bool} {t : List Event}
    {now : BitVec 32} (hp : (s.pool i).Pending) (hnow : ∀ m, s.env.clock m = now)
    (hsync : s.Syncable fip i) (h : ftlCoreIoQueueFlush fip s = .ok b s' t) :
    ((s'.pool i).sector = ftlNomap ↔ (s.pool i).jiffies + needFlushTime < now) ∧
      ((s'.pool i).sector ≠ ftlNomap → s'.pool i = s.pool i) := by
  obtain ⟨b₁, s₁, t₁, b₂, s₂, t₂, hfrom, hround, hbefore, hafter⟩ := round_of_call hi h
  have hp₁ : (s₁.pool i).Pending := by rw [hbefore.buf]; exact hp
  have hnow₁ : s₁.env.clock s₁.env.clockReads = now := by rw [hbefore.clock]; exact hnow _
  obtain ⟨hdue, hkeep⟩ := queueFlushBuf_ok hp₁ hnow₁ (hsync b₁ s₁ t₁ hfrom) hround
  rw [hbefore.buf] at hdue hkeep
  rw [hafter.buf]
  refine ⟨⟨fun hfree => ?_, hdue⟩, fun hnot => hkeep fun hlt => hnot (hdue hlt)⟩
  by_contra hlt
  rw [hkeep hlt] at hfree
  exact hp.1 hfree

/-! ## Sequences of calls -/

/-- `n` calls of `ftl_core_io_queue_flush`, the `k`-th from `pre k` to `post k`.  Buffer `i` was
    last touched at `T`, and call `k` happens `age k` ticks later.  Between two calls anything may
    happen that does not touch the buffer. -/
structure FlushCalls (fip : UftlInfo) (i n : Nat) (T : BitVec 32) (age : Nat → Nat)
    (pre post : Nat → State) : Prop where
  pending : ((pre 0).pool i).Pending
  touched : ((pre 0).pool i).jiffies = T
  clock : ∀ k, k < n → ∀ m, (pre k).env.clock m = T + BitVec.ofNat 32 (age k)
  first : age 0 ≤ 400
  apart : ∀ k, k + 1 < n → age k ≤ age (k + 1) ∧ age (k + 1) ≤ age k + 400
  returns : ∀ k, k < n → ∃ b t, ftlCoreIoQueueFlush fip (pre k) = .ok b (post k) t
  sound : ∀ k, k < n → (pre k).Syncable fip i
  between : ∀ k, k + 1 < n → (pre (k + 1)).pool i = (post k).pool i

/-- Up to the first call more than `NEED_FLUSH_TIME` ticks after the last touch, the buffer is
    written back by that call and by no other.  (Only writing it back frees it.) -/
def FlushedInTime (i n : Nat) (age : Nat → Nat) (post : Nat → State) : Prop :=
  ∀ k, k < n → (∀ j, j < k → age j ≤ needFlushTime.toNat) →
    (((post k).pool i).sector = ftlNomap ↔ needFlushTime.toNat < age k)

namespace FlushCalls

variable {T : BitVec 32} {age : Nat → Nat} {pre post : Nat → State} {k : Nat}

/-- What a call does to the buffer, as long as no earlier call wrote it back. -/
theorem step (hi : i < bufNum) (run : FlushCalls fip i n T age pre post) (hk : k < n)
    (hsame : (pre k).pool i = (pre 0).pool i) :
    (((post k).pool i).sector = ftlNomap ↔
        T + needFlushTime < T + BitVec.ofNat 32 (age k)) ∧
      (((post k).pool i).sector ≠ ftlNomap → (post k).pool i = (pre 0).pool i) := by
  obtain ⟨b, t, hcall⟩ := run.returns k hk
  have hp : ((pre k).pool i).Pending := by rw [hsame]; exact run.pending
  have h := ftlCoreIoQueueFlush_ok hi hp (run.clock k hk) (run.sound k hk) hcall
  rwa [hsame, run.touched] at h

/-- By induction on the calls: before the call that writes it back, the buffer is as it was. -/
theorem untouched (hi : i < bufNum) (run : FlushCalls fip i n T age pre post) (hk : k < n)
    (hnot : ∀ j, j < k → ((post j).pool i).sector ≠ ftlNomap) :
    (pre k).pool i = (pre 0).pool i := by
  induction k with
  | zero => rfl
  | succ k ih =>
    have hsame := ih (by omega) fun j hj => hnot j (by omega)
    rw [run.between k hk]
    exact (run.step hi (by omega) hsame).2 (hnot k (by omega))

/-- Calls that came too early, and decided rightly, left the buffer alone. -/
theorem young_untouched (hi : i < bufNum) (run : FlushCalls fip i n T age pre post) (hk : k < n)
    (hyoung : ∀ j, j < k → age j ≤ needFlushTime.toNat)
    (hright : ∀ j, j < k → (((post j).pool i).sector = ftlNomap ↔ needFlushTime.toNat < age j)) :
    (pre k).pool i = (pre 0).pool i := by
  refine run.untouched hi hk fun j hj hfree => ?_
  have hlt := (hright j hj).mp hfree
  have hle := hyoung j hj
  omega

theorem age_lt (run : FlushCalls fip i n T age pre post) (hk : k < n)
    (hyoung : ∀ j, j < k → age j ≤ needFlushTime.toNat) : age k < 2 ^ 32 := by
  cases k with
  | zero =>
    have := run.first
    omega
  | succ k =>
    have hlast : age k ≤ 200 := hyoung k (Nat.lt_succ_self k)
    have hgap := (run.apart k hk).2
    omega

/-- A call decides rightly if and only if neither or both of the sums have wrapped. -/
theorem decides_iff (run : FlushCalls fip i n T age pre post) (hk : k < n)
    (hyoung : ∀ j, j < k → age j ≤ needFlushTime.toNat) :
    (T + needFlushTime < T + BitVec.ofNat 32 (age k) ↔ needFlushTime.toNat < age k) ↔
      (2 ^ 32 ≤ T.toNat + needFlushTime.toNat ↔ 2 ^ 32 ≤ T.toNat + age k) :=
  ticks_lt_iff T (by decide) (run.age_lt hk hyoung)

end FlushCalls

/-- **Aged buffers are flushed** by the first call more than `NEED_FLUSH_TIME` ticks after they were
    touched, and not before, if and only if up to that call `T + NEED_FLUSH_TIME` passes the wrap
    of the counter exactly when the time of the call does. -/
theorem aged_buffer_flushed_iff (hi : i < bufNum) {T : BitVec 32} {age : Nat → Nat}
    {pre post : Nat → State} (run : FlushCalls fip i n T age pre post) :
    FlushedInTime i n age post ↔
      ∀ k, k < n → (∀ j, j < k → age j ≤ needFlushTime.toNat) →
        (2 ^ 32 ≤ T.toNat + needFlushTime.toNat ↔ 2 ^ 32 ≤ T.toNat + age k) := by
  constructor
  · intro hin k hk hyoung
    have hsame := run.young_untouched hi hk hyoung fun j hj =>
      hin j (by omega) fun j' hj' => hyoung j' (by omega)
    rw [← run.decides_iff hk hyoung, ← (run.step hi hk hsame).1]
    exact hin k hk hyoung
  · intro hwrap k
    induction k using Nat.strongRecOn with
    | ind k ih =>
      intro hk hyoung
      have hsame := run.young_untouched hi hk hyoung fun j hj =>
        ih j hj (by omega) fun j' hj' => hyoung j' (by omega)
      rw [(run.step hi hk hsame).1, run.decides_iff hk hyoung]
      exact hwrap k hk hyoung

/-! ## Before and across the wrap -/

/-- A device that booted and wrote one sector when the clock read `T`; now it reads `now`. -/
def wroteAt (T now : BitVec 32) : State :=
  let c := do
    ftlCoreIoInit threeBlocks 4
    ftlCoreIoWrite threeBlocks 0 sampleSector
  let s := State.cold .blank (fun _ => .ok) []
  let s := (c { s with env := { s.env with clock := fun _ => T } }).state
  { s with env := { s.env with clock := fun _ => now } }

/-- One call, `d` ticks after the sector was written. -/
theorem oneCall {T : BitVec 32} {d : Nat} (hd : d ≤ 400)
    (hbuf : decide (((wroteAt T (T + BitVec.ofNat 32 d)).pool 0).Pending ∧
      ((wroteAt T (T + BitVec.ofNat 32 d)).pool 0).jiffies = T) = true)
    (hsync : ((readJiffies >>= fun _ => syncOneBuf threeBlocks 0)
      (wroteAt T (T + BitVec.ofNat 32 d))).okAnd (fun _ _ _ => true) = true)
    (hcall : (ftlCoreIoQueueFlush threeBlocks (wroteAt T (T + BitVec.ofNat 32 d))).okAnd
      (fun _ _ _ => true) = true) :
    FlushCalls threeBlocks 0 1 T (fun _ => d) (fun _ => wroteAt T (T + BitVec.ofNat 32 d))
      (fun _ => (ftlCoreIoQueueFlush threeBlocks (wroteAt T (T + BitVec.ofNat 32 d))).state) where
  pending := (of_decide_eq_true hbuf).1
  touched := (of_decide_eq_true hbuf).2
  clock _ _ _ := rfl
  first := hd
  apart _ hk := by omega
  returns _ _ := by
    obtain ⟨b, s', t, hret, -⟩ := Res.okAnd_true hcall
    exact ⟨b, t, by rw [hret]; rfl⟩
  sound _ _ b s₁ t hfrom := by
    cases hfrom
    obtain ⟨_, s₂, t₂, hret, -⟩ := Res.okAnd_true hsync
    exact ⟨s₂, t₂, hret⟩
  between _ hk := by omega

/-- Touched at 0 and due at 300. -/
theorem aged_buffer_flushed_early :
    FlushedInTime 0 1 (fun _ => 300)
      (fun _ => (ftlCoreIoQueueFlush threeBlocks (wroteAt 0 (0 + BitVec.ofNat 32 300))).state) := by
  have run := oneCall (T := 0) (d := 300) (by decide) (by decide +kernel) (by decide +kernel)
    (by decide +kernel)
  exact (aged_buffer_flushed_iff (by decide) run).mpr fun k hk hyoung => by decide

/-- Touched 300 ticks before the wrap: 400 ticks later the buffer is not written back. -/
theorem aged_buffer_kept :
    ∃ (T : BitVec 32) (age : Nat → Nat) (pre post : Nat → State),
      FlushCalls threeBlocks 0 1 T age pre post ∧ ¬FlushedInTime 0 1 age post := by
  obtain ⟨pre, post, run⟩ : ∃ pre post,
      FlushCalls threeBlocks 0 1 0xFFFFFED4 (fun _ => 400) pre post :=
    ⟨_, _, oneCall (by decide) (by decide +kernel) (by decide +kernel) (by decide +kernel)⟩
  refine ⟨_, _, pre, post, run, fun hin => ?_⟩
  have hfree := (hin 0 (by decide) fun j hj => absurd hj (Nat.not_lt_zero j)).mpr (by decide)
  have hlt := (run.step (k := 0) (by decide) (by decide) rfl).1.mp hfree
  exact absurd hlt (by decide)

/-! ## The buffer that is flushed when all are in use -/

/-- The buffer that is flushed is the one touched least recently exactly when that is the first one. -/
theorem flushVictim_least_iff (s : State) (now : BitVec 32) :
    (∀ i, i < bufNum → (s.pool (s.flushVictim now)).jiffies ≤ (s.pool i).jiffies) ↔
      ∀ i, i < bufNum → (s.pool 0).jiffies ≤ (s.pool i).jiffies := by
  rw [flushVictim_eq]

/-- A pool in which buffer 1 has not been touched since tick 3, and buffer 0 was touched at tick 5. -/
def touchedPool : State :=
  let s := State.cold .blank (fun _ => .ok) []
  { s with pool := fun i => { s.pool i with jiffies := if i = 1 then 3 else 5 } }

theorem flushVictim_not_least :
    (∀ i, i < bufNum → (touchedPool.pool i).jiffies < 10) ∧
      ¬∀ i, i < bufNum →
        (touchedPool.pool (touchedPool.flushVictim 10)).jiffies ≤ (touchedPool.pool i).jiffies := by
  refine ⟨by decide, fun hleast => ?_⟩
  have hone := hleast 1 (by decide)
  rw [flushVictim_eq] at hone
  exact absurd hone (by decide)

end Uftl
