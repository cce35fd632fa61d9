/-
  A cursor over a sorted set that changes between its steps.

  A step goes to the next element that is there now.  Then no element is met twice, and one that was there
  all the time is not missed.
-/
import Mathlib

namespace Lib

variable {κ : Type} [LinearOrder κ] {dir kept kept' present after : κ → Prop} {fed : List κ} {e : κ}

/-- The least element that is there and behind; or there is none of those that are looked for. -/
def IsNext (dir present after : κ → Prop) : Option κ → Prop
  | some e => dir e ∧ present e ∧ after e ∧ ∀ x, present x → after x → e ≤ x
  | none => ∀ x, present x → after x → ¬dir x

/-- Where a reader is: before everything, on an entry, or behind everything. -/
inductive Cursor (κ : Type)
  | start
  | on (e : κ)
  | done

/-- What the elements that were met have to do with those that were there all the time.  The element that
    the cursor is at is not among those that were met. -/
structure Walked (dir kept : κ → Prop) (fed : List κ) (cur : Cursor κ) : Prop where
  sorted : fed.Pairwise (· < ·)
  inside : ∀ x ∈ fed, dir x
  reached : match cur with
    | .start => fed = []
    | .on e => dir e ∧ (∀ x ∈ fed, x < e) ∧ ∀ x, dir x → kept x → x < e → x ∈ fed
    | .done => ∀ x, dir x → kept x → x ∈ fed

namespace Walked

/-- Before the first entry nothing has been read. -/
theorem start : Walked dir kept [] (.start : Cursor κ) :=
  ⟨List.Pairwise.nil, List.forall_mem_nil _, rfl⟩

/-- Fewer elements have been there all the time. -/
theorem mono {cur : Cursor κ} (h : Walked dir kept fed cur) (hle : ∀ x, kept' x → kept x) :
    Walked dir kept' fed cur := by
  refine ⟨h.sorted, h.inside, ?_⟩
  cases cur with
  | start => exact h.reached
  | on e =>
    obtain ⟨hdir, hlow, hall⟩ := h.reached
    exact ⟨hdir, hlow, fun x hx hk hlt => hall x hx (hle x hk) hlt⟩
  | done => exact fun x hx hk => h.reached x hx (hle x hk)

/-- The first step. -/
theorem first (hpresent : ∀ x, kept x → present x) (hafter : ∀ x, dir x → present x → after x)
    {next : Option κ} (hnext : IsNext dir present after next) :
    Walked dir kept [] (next.elim .done .on) := by
  cases next with
  | none =>
    refine ⟨List.Pairwise.nil, List.forall_mem_nil _, fun x hx hk => ?_⟩
    exact absurd hx (hnext x (hpresent x hk) (hafter x hx (hpresent x hk)))
  | some e =>
    obtain ⟨hdir, -, -, hleast⟩ := hnext
    refine ⟨List.Pairwise.nil, List.forall_mem_nil _, hdir, List.forall_mem_nil _, fun x hx hk hlt => ?_⟩
    exact absurd hlt (not_lt.mpr (hleast x (hpresent x hk) (hafter x hx (hpresent x hk))))

/-- The element that the cursor is at is met, and the cursor goes on. -/
theorem next (h : Walked dir kept fed (.on e)) (hpresent : ∀ x, kept x → present x) {next : Option κ}
    (hnext : IsNext dir present (e < ·) next) :
    Walked dir kept (fed ++ [e]) (next.elim .done .on) := by
  obtain ⟨hdir, hlow, hall⟩ := h.reached
  have hsorted : (fed ++ [e]).Pairwise (· < ·) :=
    List.pairwise_append.mpr ⟨h.sorted, List.pairwise_singleton _ _, fun x hx y hy =>
      List.mem_singleton.mp hy ▸ hlow x hx⟩
  have hinside : ∀ x ∈ fed ++ [e], dir x := by
    intro x hx
    rcases List.mem_append.mp hx with hx | hx
    · exact h.inside x hx
    · exact List.mem_singleton.mp hx ▸ hdir
  have hmet : ∀ x, dir x → kept x → x ≤ e → x ∈ fed ++ [e] := by
    intro x hx hk hle
    rcases lt_or_eq_of_le hle with hlt | rfl
    · exact List.mem_append_left _ (hall x hx hk hlt)
    · exact List.mem_append_right _ List.mem_cons_self
  cases next with
  | none =>
    refine ⟨hsorted, hinside, fun x hx hk => hmet x hx hk (not_lt.mp fun hlt => ?_)⟩
    exact hnext x (hpresent x hk) hlt hx
  | some e' =>
    obtain ⟨hdir', -, hlt', hleast⟩ := hnext
    refine ⟨hsorted, hinside, hdir', ?_, fun x hx hk hlt => hmet x hx hk (not_lt.mp fun hgt => ?_)⟩
    · intro x hx
      rcases List.mem_append.mp hx with hx | hx
      · exact (hlow x hx).trans hlt'
      · exact List.mem_singleton.mp hx ▸ hlt'
    · exact absurd hlt (not_lt.mpr (hleast x (hpresent x hk) hgt))

end Walked

end Lib
