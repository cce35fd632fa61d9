/-
  Programs with a state, early exits and an event trace, and a weakest-precondition calculus.

  A C function of the code under study reads and writes global state, leaves early through
  `return ret`, and meets things the environment decides (a flash operation that fails, an empty
  queue).  `Prog σ ω ε α` is such a function: from a state it either returns a value or stops with
  an exit of type `ε`, and in both cases it leaves a state and the list of EVENTS (of type `ω`)
  that happened on the way.

  What the environment does is described by predicates on events: `wp A G c Q E s` says that, as
  long as the events of the run of `c` from `s` satisfy `A`, they satisfy `G` too, and that then a
  normal return satisfies `Q` and a stop satisfies `E`.  The trace is assembled by `bind` itself, so
  an assumption about a whole run is an assumption about each of its parts and no monotonicity fact
  has to be carried along.

  Contents:
  1. the monad and its primitive commands;
  2. `Along`, `wp` and its rules (`wp_bind`, `wp_mono`, one rule per command);
  3. counted loops, with the invariant rule `wp_forUpto`;
  4. `Keeps` and `Traces`, for what a program leaves alone and does on the way, however it ends;
  5. `Uniform`, for what a program does not look at.
-/

namespace Lib

/-- What a run ends with: a value or an exit, the state reached and the events that happened. -/
inductive Res (σ ω ε α : Type) where
  | ok (a : α) (s : σ) (t : List ω)
  | stop (e : ε) (s : σ) (t : List ω)

namespace Res

variable {σ ω ε α : Type}

/-- The state a run leaves, whether it returned or stopped. -/
def state : Res σ ω ε α → σ
  | ok _ s _ => s
  | stop _ s _ => s

/-- The events of a run, oldest first. -/
def events : Res σ ω ε α → List ω
  | ok _ _ t => t
  | stop _ _ t => t

/-- The run returned, with a result of which `p` holds. -/
def okAnd (r : Res σ ω ε α) (p : α → σ → List ω → Bool) : Bool :=
  match r with
  | ok a s t => p a s t
  | stop _ _ _ => false

/-- The run stopped, with an exit and a state of which `p` holds. -/
def stopAnd (r : Res σ ω ε α) (p : ε → σ → List ω → Bool) : Bool :=
  match r with
  | ok _ _ _ => false
  | stop e s t => p e s t

/-- A run that was evaluated: it returns, and the test holds. -/
theorem okAnd_true {r : Res σ ω ε α} {p : α → σ → List ω → Bool} (h : r.okAnd p = true) :
    ∃ a s t, r = ok a s t ∧ p a s t = true := by
  cases r with
  | ok a s t => exact ⟨a, s, t, rfl, h⟩
  | stop e s t => cases h

/-- A run that was evaluated: it stops, and the test holds. -/
theorem stopAnd_true {r : Res σ ω ε α} {p : ε → σ → List ω → Bool} (h : r.stopAnd p = true) :
    ∃ e s t, r = stop e s t ∧ p e s t = true := by
  cases r with
  | ok a s t => cases h
  | stop e s t => exact ⟨e, s, t, rfl, h⟩

end Res

/-- A program over states `σ`, with events `ω`, exits `ε` and results `α`. -/
def Prog (σ ω ε α : Type) : Type := σ → Res σ ω ε α

namespace Prog

variable {σ ω ε α β : Type}

/-! ## The monad and its primitive commands -/

/-- Return a value, changing nothing. -/
protected def pure (a : α) : Prog σ ω ε α := fun s => .ok a s []

/-- Sequencing: an exit of the first part skips the second, the events are joined. -/
protected def bind (c : Prog σ ω ε α) (f : α → Prog σ ω ε β) : Prog σ ω ε β := fun s =>
  match c s with
  | .stop e s₁ t₁ => .stop e s₁ t₁
  | .ok a s₁ t₁ =>
    match f a s₁ with
    | .ok b s₂ t₂ => .ok b s₂ (t₁ ++ t₂)
    | .stop e s₂ t₂ => .stop e s₂ (t₁ ++ t₂)

instance : Monad (Prog σ ω ε) where
  pure := Prog.pure
  bind := Prog.bind

/-- Read the state. -/
def getState : Prog σ ω ε σ := fun s => .ok s s []

/-- Change the state. -/
def modifyState (f : σ → σ) : Prog σ ω ε Unit := fun s => .ok () (f s) []

/-- Record that an event happened. -/
def emit (x : ω) : Prog σ ω ε Unit := fun s => .ok () s [x]

/-- Leave the program. -/
def stop (e : ε) : Prog σ ω ε α := fun s => .stop e s []

/-- Run `c` and hand an exit that `catchable` accepts to the caller as a value (the C idiom of
    looking at, or ignoring, a return code); other exits still leave the program. -/
def attempt (catchable : ε → Bool) (c : Prog σ ω ε α) : Prog σ ω ε (Except ε α) := fun s =>
  match c s with
  | .ok a s₁ t => .ok (.ok a) s₁ t
  | .stop e s₁ t => if catchable e then .ok (.error e) s₁ t else .stop e s₁ t

/-- A run of a sequence returned because both parts did. -/
theorem bind_ok {c : Prog σ ω ε α} {f : α → Prog σ ω ε β} {s s' : σ} {b : β} {t : List ω}
    (h : (c >>= f) s = .ok b s' t) :
    ∃ a s₁ t₁ t₂, c s = .ok a s₁ t₁ ∧ f a s₁ = .ok b s' t₂ ∧ t = t₁ ++ t₂ := by
  change Prog.bind c f s = _ at h
  unfold Prog.bind at h
  cases hc : c s with
  | stop e s₁ t₁ => rw [hc] at h; cases h
  | ok a s₁ t₁ =>
    rw [hc] at h
    dsimp only at h
    cases hf : f a s₁ with
    | stop e s₂ t₂ => rw [hf] at h; cases h
    | ok b' s₂ t₂ =>
      rw [hf] at h
      cases h
      exact ⟨a, s₁, t₁, t₂, rfl, hf, rfl⟩

/-- Two runs in a row. -/
theorem ok_bind {c : Prog σ ω ε α} {f : α → Prog σ ω ε β} {s s₁ s₂ : σ} {a : α} {b : β}
    {t₁ t₂ : List ω} (h : c s = .ok a s₁ t₁) (h' : f a s₁ = .ok b s₂ t₂) :
    (c >>= f) s = .ok b s₂ (t₁ ++ t₂) := by
  show Prog.bind c f s = _
  unfold Prog.bind
  simp only [h, h']

theorem getState_bind (f : σ → Prog σ ω ε α) (s : σ) : (getState >>= f) s = f s s := by
  show Prog.bind getState f s = f s s
  unfold Prog.bind
  simp only [getState]
  cases f s s <;> rfl

theorem modifyState_bind (g : σ → σ) (f : Unit → Prog σ ω ε α) (s : σ) :
    (modifyState g >>= f) s = f () (g s) := by
  show Prog.bind (modifyState g) f s = f () (g s)
  unfold Prog.bind
  simp only [modifyState]
  cases f () (g s) <;> rfl

theorem bind_assoc {γ : Type} (c : Prog σ ω ε α) (f : α → Prog σ ω ε β) (g : β → Prog σ ω ε γ) :
    c >>= f >>= g = c >>= fun a => f a >>= g := by
  funext s
  show Prog.bind (Prog.bind c f) g s = Prog.bind c (fun a => Prog.bind (f a) g) s
  unfold Prog.bind
  cases c s with
  | stop e s₁ t₁ => rfl
  | ok a s₁ t₁ =>
    dsimp only
    cases f a s₁ with
    | stop e s₂ t₂ => rfl
    | ok b s₂ t₂ =>
      dsimp only
      cases g b s₂ with
      | stop e s₃ t₃ => simp only [List.append_assoc]
      | ok c s₃ t₃ => simp only [List.append_assoc]

/-- A sequence stopped in its first part or in its second. -/
theorem bind_stop {c : Prog σ ω ε α} {f : α → Prog σ ω ε β} {s s' : σ} {e : ε} {t : List ω}
    (h : (c >>= f) s = .stop e s' t) :
    c s = .stop e s' t ∨
      ∃ a s₁ t₁ t₂, c s = .ok a s₁ t₁ ∧ f a s₁ = .stop e s' t₂ ∧ t = t₁ ++ t₂ := by
  change Prog.bind c f s = _ at h
  unfold Prog.bind at h
  cases hc : c s with
  | stop e' s₁ t₁ =>
    rw [hc] at h
    cases h
    exact .inl rfl
  | ok a s₁ t₁ =>
    rw [hc] at h
    dsimp only at h
    cases hf : f a s₁ with
    | ok b s₂ t₂ => rw [hf] at h; cases h
    | stop e' s₂ t₂ =>
      rw [hf] at h
      cases h
      exact .inr ⟨a, s₁, t₁, t₂, rfl, hf, rfl⟩

/-- A step that succeeds, succeeds under `attempt`. -/
theorem attempt_ok {k : ε → Bool} {c : Prog σ ω ε α} {s s' : σ} {a : α} {t : List ω}
    (h : c s = .ok a s' t) : attempt k c s = .ok (.ok a) s' t := by
  unfold attempt
  rw [h]

/-- What `attempt` does not catch. -/
theorem attempt_stop {k : ε → Bool} {c : Prog σ ω ε α} {s s' : σ} {e : ε} {t : List ω}
    (h : attempt k c s = .stop e s' t) : c s = .stop e s' t := by
  unfold attempt at h
  cases hc : c s with
  | ok a s₁ t₁ => rw [hc] at h; cases h
  | stop e' s₁ t₁ =>
    rw [hc] at h
    dsimp only at h
    split at h
    · cases h
    · cases h
      rfl

/-- What it returned. -/
theorem attempt_returns {k : ε → Bool} {c : Prog σ ω ε α} {s s' : σ} {a : α} {t : List ω}
    (h : attempt k c s = .ok (.ok a) s' t) : c s = .ok a s' t := by
  unfold attempt at h
  cases hc : c s with
  | ok a' s₁ t₁ =>
    rw [hc] at h
    cases h
    rfl
  | stop e' s₁ t₁ =>
    rw [hc] at h
    dsimp only at h
    split at h
    · cases h
    · cases h

/-! ## Weakest preconditions, relying on events and guaranteeing events -/

/-- `R`, where each event on the way may be assumed to satisfy `A` and is to satisfy `G`. -/
def Along (A G : ω → Prop) : List ω → Prop → Prop
  | [], R => R
  | x :: t, R => A x → G x ∧ Along A G t R

/-- The events of two steps in a row. -/
theorem along_append {A G : ω → Prop} {R : Prop} (t t' : List ω) :
    Along A G (t ++ t') R ↔ Along A G t (Along A G t' R) := by
  induction t with
  | nil => exact Iff.rfl
  | cons x t ih => simp only [List.cons_append, Along, ih]

theorem Along.imp {A G : ω → Prop} {R R' : Prop} {t : List ω} (h : Along A G t R) (hR : R → R') :
    Along A G t R' := by
  induction t with
  | nil => exact hR h
  | cons x t ih => exact fun hx => ⟨(h hx).1, ih (h hx).2⟩

/-- If the assumption held all along, so did the guarantee. -/
theorem Along.elim {A G : ω → Prop} {R : Prop} {t : List ω} (h : Along A G t R)
    (ht : ∀ x ∈ t, A x) : R ∧ ∀ x ∈ t, G x := by
  induction t with
  | nil => exact ⟨h, fun x hx => absurd hx (List.not_mem_nil)⟩
  | cons x t ih =>
    obtain ⟨hG, hr⟩ := h (ht x (List.mem_cons_self ..))
    obtain ⟨hR, hGs⟩ := ih hr fun y hy => ht y (List.mem_cons_of_mem _ hy)
    refine ⟨hR, fun y hy => ?_⟩
    rcases List.mem_cons.mp hy with rfl | hy
    · exact hG
    · exact hGs y hy

/-- Relying on `A` and guaranteeing `G`: a return satisfies `Q` and a stop satisfies `E`. -/
def wp (A G : ω → Prop) (c : Prog σ ω ε α) (Q : α → σ → Prop) (E : ε → σ → Prop) (s : σ) : Prop :=
  match c s with
  | .ok a s' t => Along A G t (Q a s')
  | .stop e s' t => Along A G t (E e s')

variable {A G : ω → Prop} {Q Q' : α → σ → Prop} {E E' : ε → σ → Prop} {s : σ}

/-- The rules: `wp` of each construct is told by `wp` of its parts. -/
@[simp] theorem wp_pure {a : α} : wp A G (pure a : Prog σ ω ε α) Q E s ↔ Q a s := Iff.rfl

@[simp] theorem wp_getState {Q : σ → σ → Prop} :
    wp A G (getState : Prog σ ω ε σ) Q E s ↔ Q s s := Iff.rfl

@[simp] theorem wp_modifyState {f : σ → σ} {Q : Unit → σ → Prop} :
    wp A G (modifyState f : Prog σ ω ε Unit) Q E s ↔ Q () (f s) := Iff.rfl

@[simp] theorem wp_emit {x : ω} {Q : Unit → σ → Prop} :
    wp A G (emit x : Prog σ ω ε Unit) Q E s ↔ (A x → G x ∧ Q () s) := Iff.rfl

@[simp] theorem wp_stop {e : ε} : wp A G (stop e : Prog σ ω ε α) Q E s ↔ E e s := Iff.rfl

/-- The rule of sequencing: the precondition of the rest is the postcondition of the first part. -/
@[simp] theorem wp_bind {c : Prog σ ω ε α} {f : α → Prog σ ω ε β} {Q : β → σ → Prop} :
    wp A G (c >>= f) Q E s ↔ wp A G c (fun a s' => wp A G (f a) Q E s') E s := by
  show wp A G (Prog.bind c f) Q E s ↔ _
  unfold wp Prog.bind
  cases c s with
  | stop e s₁ t₁ => exact Iff.rfl
  | ok a s₁ t₁ =>
    cases hf : f a s₁ with
    | ok b s₂ t₂ => simp only [hf, along_append]
    | stop e s₂ t₂ => simp only [hf, along_append]

@[simp] theorem wp_ite {P : Prop} [Decidable P] {c d : Prog σ ω ε α} :
    wp A G (if P then c else d) Q E s ↔ (P → wp A G c Q E s) ∧ (¬P → wp A G d Q E s) := by
  by_cases h : P <;> simp [h]

@[simp] theorem wp_attempt {k : ε → Bool} {c : Prog σ ω ε α} {Q : Except ε α → σ → Prop} :
    wp A G (attempt k c) Q E s ↔
      wp A G c (fun a => Q (.ok a))
        (fun e s' => if k e then Q (.error e) s' else E e s') s := by
  unfold wp attempt
  cases c s with
  | ok a s₁ t => exact Iff.rfl
  | stop e s₁ t => by_cases h : k e <;> simp [h]

/-- The rule of consequence. -/
theorem wp_mono {c : Prog σ ω ε α} (h : wp A G c Q E s) (hQ : ∀ a s', Q a s' → Q' a s')
    (hE : ∀ e s', E e s' → E' e s') : wp A G c Q' E' s := by
  unfold wp at h ⊢
  cases hc : c s with
  | ok a s₁ t => rw [hc] at h; exact h.imp (hQ _ _)
  | stop e s₁ t => rw [hc] at h; exact h.imp (hE _ _)

/-- Reading a specification off a run that returned. -/
theorem wp_ok {c : Prog σ ω ε α} {a : α} {s' : σ} {t : List ω} (h : wp A G c Q E s)
    (hc : c s = .ok a s' t) (ht : ∀ x ∈ t, A x) : Q a s' ∧ ∀ x ∈ t, G x := by
  unfold wp at h; rw [hc] at h; exact h.elim ht

/-- Reading a specification off a run that stopped. -/
theorem wp_stopped {c : Prog σ ω ε α} {e : ε} {s' : σ} {t : List ω} (h : wp A G c Q E s)
    (hc : c s = .stop e s' t) (ht : ∀ x ∈ t, A x) : E e s' ∧ ∀ x ∈ t, G x := by
  unfold wp at h; rw [hc] at h; exact h.elim ht

/-- A program that cannot stop returns. -/
theorem wp_returns {c : Prog σ ω ε α} (h : wp (fun _ => True) G c Q (fun _ _ => False) s) :
    ∃ a s' t, c s = .ok a s' t ∧ Q a s' := by
  cases hc : c s with
  | ok a s' t => exact ⟨a, s', t, rfl, (wp_ok h hc fun _ _ => trivial).1⟩
  | stop e s' t => exact absurd (wp_stopped h hc fun _ _ => trivial).1 id

/-- The guarantee alone, whatever way the run ended. -/
theorem wp_events {c : Prog σ ω ε α} (h : wp A G c Q E s) (ht : ∀ x ∈ (c s).events, A x) :
    ∀ x ∈ (c s).events, G x := by
  unfold wp at h
  cases hc : c s with
  | ok a s' t => rw [hc] at h ht; exact (h.elim ht).2
  | stop e s' t => rw [hc] at h ht; exact (h.elim ht).2

/-! ## Counted loops -/

/-- `for (i = 0; i < n; i++) f(i)`. -/
def forUpto : Nat → (Nat → Prog σ ω ε Unit) → Prog σ ω ε Unit
  | 0, _ => pure ()
  | n + 1, f => forUpto n f >>= fun _ => f n

/-- The invariant rule of the counted loop: `I i` holds before round `i`. -/
theorem wp_forUpto {n : Nat} {f : Nat → Prog σ ω ε Unit} (I : Nat → σ → Prop) (h0 : I 0 s)
    (step : ∀ i, i < n → ∀ s, I i s → wp A G (f i) (fun _ s' => I (i + 1) s') E s) :
    wp A G (forUpto n f) (fun _ s' => I n s') E s := by
  induction n with
  | zero => simpa [forUpto] using h0
  | succ n ih =>
    rw [forUpto, wp_bind]
    refine wp_mono (ih fun i hi => step i (by omega)) (fun _ s' hI => ?_) (fun _ _ h => h)
    exact step n (by omega) s' hI

/-- A loop that stopped did so in one of its rounds. -/
theorem forUpto_stop {n : Nat} {f : Nat → Prog σ ω ε Unit} {s s' : σ} {e : ε} {t : List ω}
    (h : forUpto n f s = .stop e s' t) :
    ∃ i s₁ t₁ t₂, i < n ∧ forUpto i f s = .ok () s₁ t₁ ∧ f i s₁ = .stop e s' t₂ := by
  induction n generalizing s' t with
  | zero => cases h
  | succ n ih =>
    rcases bind_stop h with hfirst | ⟨_, s₁, t₁, t₂, hfirst, hlast, -⟩
    · obtain ⟨i, s₁, t₁, t₂, hi, hrun, hstop⟩ := ih hfirst
      exact ⟨i, s₁, t₁, t₂, Nat.lt_succ_of_lt hi, hrun, hstop⟩
    · exact ⟨n, s₁, t₁, t₂, Nat.lt_succ_self n, hfirst, hlast⟩

/-! ## What a program leaves alone -/

/-- The states before and after `c`, returned or not, are related by `I`. -/
def Keeps (I : σ → σ → Prop) (c : Prog σ ω ε α) : Prop := ∀ s, I s (c s).state

namespace Keeps

variable {I I' : σ → σ → Prop} {c d : Prog σ ω ε α}

/-- What a run that returned left alone. -/
theorem of_ok (hc : Keeps I c) {a : α} {s s' : σ} {t : List ω} (h : c s = .ok a s' t) :
    I s s' := by
  have hI := hc s
  rwa [h] at hI

/-- The rules, one for each construct. -/
theorem pure [Std.Refl I] (a : α) : Keeps I (pure a : Prog σ ω ε α) := fun s => Std.Refl.refl s

theorem getState [Std.Refl I] : Keeps I (getState : Prog σ ω ε σ) := fun s => Std.Refl.refl s

theorem stop [Std.Refl I] (e : ε) : Keeps I (Prog.stop e : Prog σ ω ε α) := fun s =>
  Std.Refl.refl s

theorem emit [Std.Refl I] (x : ω) : Keeps I (Prog.emit x : Prog σ ω ε Unit) := fun s =>
  Std.Refl.refl s

theorem modifyState {f : σ → σ} (hf : ∀ s, I s (f s)) :
    Keeps I (modifyState f : Prog σ ω ε Unit) := hf

theorem imp (hc : Keeps I c) (h : ∀ s s', I s s' → I' s s') : Keeps I' c := fun s => h _ _ (hc s)

theorem ite {P : Prop} [Decidable P] (hc : Keeps I c) (hd : Keeps I d) :
    Keeps I (if P then c else d) := by
  split
  · exact hc
  · exact hd

theorem attempt {k : ε → Bool} (hc : Keeps I c) : Keeps I (attempt k c) := by
  intro s
  have h := hc s
  unfold Prog.attempt
  cases hcs : c s with
  | ok a s₁ t => rw [hcs] at h; exact h
  | stop e s₁ t =>
    rw [hcs] at h
    dsimp only
    split
    · exact h
    · exact h

theorem bind [Trans I I I] (hc : Keeps I c) {f : α → Prog σ ω ε β} (hf : ∀ a, Keeps I (f a)) :
    Keeps I (c >>= f) := by
  intro s
  show I s (Prog.bind c f s).state
  have h := hc s
  unfold Prog.bind
  cases hcs : c s with
  | stop e s₁ t => rw [hcs] at h; exact h
  | ok a s₁ t =>
    rw [hcs] at h
    have h' : I s (f a s₁).state := Trans.trans h (hf a s₁)
    dsimp only
    cases hfs : f a s₁ with
    | ok b s₂ t₂ => rw [hfs] at h'; exact h'
    | stop e s₂ t₂ => rw [hfs] at h'; exact h'

theorem forUpto [Std.Refl I] [Trans I I I] {f : Nat → Prog σ ω ε Unit} (hf : ∀ i, Keeps I (f i))
    (n : Nat) : Keeps I (forUpto n f) := by
  induction n with
  | zero => exact .pure ()
  | succ n ih => exact .bind ih fun _ => hf n

end Keeps

/-! ## What a program does on the way -/

/-- Runs that follow one another compose to a run of the same kind. -/
class Composes (R : σ → List ω → σ → Prop) : Prop where
  nil : ∀ s, R s [] s
  append : ∀ {s s₁ s₂ t t'}, R s t s₁ → R s₁ t' s₂ → R s (t ++ t') s₂

/-- However `c` ends, `R` relates the state before it, its events and the state after it. -/
def Traces (R : σ → List ω → σ → Prop) (c : Prog σ ω ε α) : Prop :=
  ∀ s, R s (c s).events (c s).state

namespace Traces

variable {R R' : σ → List ω → σ → Prop} {c d : Prog σ ω ε α}

/-- What a run leaves behind. -/
theorem of_ok (hc : Traces R c) {a : α} {s s' : σ} {t : List ω} (h : c s = .ok a s' t) :
    R s t s' := by
  have hR := hc s
  rwa [h] at hR

/-- The rules, one for each construct. -/
theorem pure [Composes R] (a : α) : Traces R (pure a : Prog σ ω ε α) := fun s => Composes.nil s

theorem getState [Composes R] : Traces R (getState : Prog σ ω ε σ) := fun s => Composes.nil s

theorem stop [Composes R] (e : ε) : Traces R (Prog.stop e : Prog σ ω ε α) := fun s =>
  Composes.nil s

theorem imp (hc : Traces R c) (h : ∀ s t s', R s t s' → R' s t s') : Traces R' c := fun s =>
  h _ _ _ (hc s)

theorem ite {P : Prop} [Decidable P] (hc : Traces R c) (hd : Traces R d) :
    Traces R (if P then c else d) := by
  split
  · exact hc
  · exact hd

theorem attempt {k : ε → Bool} (hc : Traces R c) : Traces R (attempt k c) := by
  intro s
  have h := hc s
  unfold Prog.attempt
  cases hcs : c s with
  | ok a s₁ t => rw [hcs] at h; exact h
  | stop e s₁ t =>
    rw [hcs] at h
    dsimp only
    split
    · exact h
    · exact h

theorem bind [Composes R] (hc : Traces R c) {f : α → Prog σ ω ε β} (hf : ∀ a, Traces R (f a)) :
    Traces R (c >>= f) := by
  intro s
  show R s (Prog.bind c f s).events (Prog.bind c f s).state
  have h := hc s
  unfold Prog.bind
  cases hcs : c s with
  | stop e s₁ t => rw [hcs] at h; exact h
  | ok a s₁ t =>
    rw [hcs] at h
    have h' := Composes.append h (hf a s₁)
    dsimp only
    cases hfs : f a s₁ with
    | ok b s₂ t₂ => rw [hfs] at h'; exact h'
    | stop e s₂ t₂ => rw [hfs] at h'; exact h'

theorem forUpto [Composes R] {f : Nat → Prog σ ω ε Unit} (hf : ∀ i, Traces R (f i)) (n : Nat) :
    Traces R (forUpto n f) := by
  induction n with
  | zero => exact .pure ()
  | succ n ih => exact .bind ih fun _ => hf n

/-- What was shown of all runs, as a specification. -/
theorem wp (hc : Traces R c) {G : ω → Prop} {s : σ} (hG : ∀ t s', R s t s' → ∀ x ∈ t, G x) :
    wp (fun _ => True) G c (fun _ s' => ∃ t, R s t s') (fun _ s' => ∃ t, R s t s') s := by
  have along : ∀ (t : List ω) {P : Prop}, (∀ x ∈ t, G x) → P → Along (fun _ => True) G t P := by
    intro t P hG hP
    induction t with
    | nil => exact hP
    | cons x t ih =>
      exact fun _ => ⟨hG x (List.mem_cons_self ..), ih fun y hy => hG y (List.mem_cons_of_mem _ hy)⟩
  have h := hc s
  unfold Prog.wp
  cases hcs : c s with
  | ok a s' t => rw [hcs] at h; exact along t (hG t s' h) ⟨t, h⟩
  | stop e s' t => rw [hcs] at h; exact along t (hG t s' h) ⟨t, h⟩

end Traces

/-! ## What a program does not look at -/

/-- Two runs ended the same way, in states that `R` relates. -/
inductive Alike (R : σ → σ → Prop) : Res σ ω ε α → Res σ ω ε α → Prop where
  | ok {s s' : σ} (a : α) (t : List ω) (h : R s s') : Alike R (.ok a s t) (.ok a s' t)
  | stop {s s' : σ} (e : ε) (t : List ω) (h : R s s') : Alike R (.stop e s t) (.stop e s' t)

/-- From states that `R` relates `c` runs alike: where they differ it does not look. -/
def Uniform (R : σ → σ → Prop) (c : Prog σ ω ε α) : Prop := ∀ s s', R s s' → Alike R (c s) (c s')

namespace Uniform

variable {R : σ → σ → Prop} {c d : Prog σ ω ε α}

/-- The rules, one for each construct. -/
theorem pure (a : α) : Uniform R (pure a : Prog σ ω ε α) := fun _ _ h => .ok a [] h

theorem stop (e : ε) : Uniform R (Prog.stop e : Prog σ ω ε α) := fun _ _ h => .stop e [] h

theorem modifyState {f : σ → σ} (hf : ∀ s s', R s s' → R (f s) (f s')) :
    Uniform R (modifyState f : Prog σ ω ε Unit) := fun s s' h => .ok () [] (hf s s' h)

theorem ite {P : Prop} [Decidable P] (hc : Uniform R c) (hd : Uniform R d) :
    Uniform R (if P then c else d) := by
  split
  · exact hc
  · exact hd

theorem bind (hc : Uniform R c) {f : α → Prog σ ω ε β} (hf : ∀ a, Uniform R (f a)) :
    Uniform R (c >>= f) := by
  intro s s' h
  show Alike R (Prog.bind c f s) (Prog.bind c f s')
  unfold Prog.bind
  have hcs := hc s s' h
  revert hcs
  generalize c s = x
  generalize c s' = y
  rintro (⟨a, t, h₁⟩ | ⟨e, t, h₁⟩)
  · have hfs := hf a _ _ h₁
    revert hfs
    dsimp only
    generalize f a _ = x
    generalize f a _ = y
    rintro (⟨b, t', h₂⟩ | ⟨e, t', h₂⟩)
    · exact .ok b _ h₂
    · exact .stop e _ h₂
  · exact .stop e t h₁

/-- A program that starts by looking at the state. -/
theorem get {f : σ → Prog σ ω ε α} (hf : ∀ s s', R s s' → f s = f s')
    (h : ∀ s, Uniform R (f s)) : Uniform R (getState >>= f) := by
  intro s s' hR
  rw [getState_bind, getState_bind, ← hf s s' hR]
  exact h s s s' hR

theorem forUpto {f : Nat → Prog σ ω ε Unit} (hf : ∀ i, Uniform R (f i)) (n : Nat) :
    Uniform R (forUpto n f) := by
  induction n with
  | zero => exact .pure ()
  | succ n ih => exact .bind ih fun _ => hf n

end Uniform

end Prog

end Lib
