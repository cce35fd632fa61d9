/-
  A PEB that is handed out is protected for exactly `UBI_PROT_QUEUE_LEN` erasures.

  The queue is a ring of which the head moves on with each call of `serve_prot_queue`, and a PEB is put
  behind it.  What an operation does otherwise is to move entries from one place to another: no entry
  is ever in two places (`Dev.Fine`), and the slot of a PEB that waits is the right number of calls
  ahead (`Dev.Waits`).
-/
import FlashStack.Lib.Reach
import FlashStack.Lib.Totals
import FlashStack.Ubi.GetPeb
import FlashStack.Ubi.ProtQueue
import Mathlib.Data.List.Count

open Lib
open Lib.SearchTree (inorder)

namespace Ubi.Wl

/-! ## Trees -/

/-- The order of the keys, which are erase counters and PEB numbers. -/
def Before (ec : Nat → Nat) (a b : Nat) : Prop := ec a < ec b ∨ ec a = ec b ∧ a < b

instance (ec : Nat → Nat) : DecidableRel (Before ec) :=
  fun a b => inferInstanceAs (Decidable (ec a < ec b ∨ ec a = ec b ∧ a < b))

/-- A tree in the order of the keys. -/
def Sorted (ec : Nat → Nat) (t : BinaryTree Nat) : Prop := (inorder t).Pairwise (Before ec)

section Trees

variable {ec ec' : Nat → Nat} {t : BinaryTree Nat} {e x : Nat} {rb : Rb}

/-- The comparisons on the way down a tree. -/
theorem ite_before {α : Type} (a : Nat) (x y : α) :
    (if ec e < ec a then x else if ec e > ec a then y else if e < a then x else y) =
      if Before ec e a then x else y := by
  rcases Nat.lt_trichotomy (ec e) (ec a) with h | h | h
  · have hlt : Before ec e a := Or.inl h
    rw [if_pos h, if_pos hlt]
  · rw [if_neg (by omega), if_neg (by omega)]
    by_cases hea : e < a
    · have hlt : Before ec e a := Or.inr ⟨h, hea⟩
      rw [if_pos hea, if_pos hlt]
    · have hlt : ¬ Before ec e a := by
        unfold Before
        omega
      rw [if_neg hea, if_neg hlt]
  · have hlt : ¬ Before ec e a := by
      unfold Before
      omega
    rw [if_neg (by omega), if_pos h, if_neg hlt]

/-- The trees of `wl.c` are search trees, ordered by erase counter and number. -/
theorem wlLink_eq : wlLink ec e t = SearchTree.insert (Before ec) e t := by
  induction t with
  | nil => rfl
  | node a l r ihl ihr => rw [wlLink, SearchTree.insert, ihl, ihr, ite_before]

theorem inWlTree_eq : inWlTree ec e t = SearchTree.has (Before ec) e t := by
  induction t with
  | nil => rfl
  | node a l r ihl ihr => rw [inWlTree, SearchTree.has, ihl, ihr, ite_before]

/-- In such a tree an entry is found exactly if it is there. -/
theorem inWlTree_iff (ht : Sorted ec t) : inWlTree ec e t = true ↔ e ∈ inorder t := by
  rw [inWlTree_eq]
  refine SearchTree.has_iff (fun a b => ?_) ht
  unfold Before
  omega

/-- Adding an entry adds it once. -/
theorem count_wlTreeAdd : (inorder (wlTreeAdd rb ec t e)).count x =
    (inorder t).count x + if e = x then 1 else 0 := by
  rw [wlTreeAdd, rb.inorder_insertColor, wlLink_eq, SearchTree.inorder_insert.count_eq,
    List.count_cons]
  simp only [beq_iff_eq]

/-- The tree stays in order. -/
theorem Sorted.add (ht : Sorted ec t) (he : e ∉ inorder t) :
    Sorted ec (wlTreeAdd rb ec t e) := by
  unfold Sorted
  rw [wlTreeAdd, rb.inorder_insertColor, wlLink_eq]
  refine SearchTree.insert_ordered (fun a b c => ?_) ht fun a ha => ?_
  · unfold Before
    omega
  · have hne : e ≠ a := fun heq => he (heq ▸ ha)
    unfold Before
    omega

/-- Removing an entry removes it once. -/
theorem count_rbErase (he : e ∈ inorder t) : (inorder t).count x =
    (inorder (rb.erase t e)).count x + if e = x then 1 else 0 := by
  rw [rb.inorder_erase he, List.count_erase]
  have := List.count_pos_iff.mpr he
  by_cases hx : e = x
  · subst hx
    simp
    omega
  · simp [hx]

/-- And the tree stays in order. -/
theorem Sorted.erase (ht : Sorted ec t) (he : e ∈ inorder t) : Sorted ec (rb.erase t e) := by
  unfold Sorted
  rw [rb.inorder_erase he]
  exact List.Pairwise.sublist List.erase_sublist ht

/-- Another counter for an entry that is not there. -/
theorem Sorted.congr (ht : Sorted ec t) (h : ∀ x ∈ inorder t, ec' x = ec x) : Sorted ec' t := by
  refine List.Pairwise.imp_of_mem (fun {a b} ha hb hab => ?_) ht
  unfold Before at hab ⊢
  rw [h a ha, h b hb]
  exact hab

end Trees

/-! ## Serving -/

section Serve

variable {rb : Rb} {ec : Nat → Nat} {count : Nat} {l : List Nat} {used : BinaryTree Nat}

/-- A pass moves entries from the front; if it does not break off, then all of them. -/
theorem servePass_spec : ∃ done, l = done ++ (servePass rb ec count l used).2.1 ∧
    (servePass rb ec count l used).2.2 = done.foldl (wlTreeAdd rb ec) used ∧
    ((servePass rb ec count l used).1 = false → (servePass rb ec count l used).2.1 = []) := by
  induction l generalizing count used with
  | nil => exact ⟨[], rfl, rfl, fun _ => rfl⟩
  | cons e l ih =>
    simp only [servePass]
    split
    · exact ⟨[e], rfl, rfl, by simp⟩
    · obtain ⟨done, hl, hused, hrest⟩ := @ih (count + 1) (wlTreeAdd rb ec used e)
      exact ⟨e :: done, congrArg (e :: ·) hl, hused, hrest⟩

/-- However often it starts over, the slot is empty in the end and all of it is in the tree. -/
theorem serveSlot_eq : serveSlot rb ec l used = ([], l.foldl (wlTreeAdd rb ec) used) := by
  induction l, used using serveSlot.induct rb ec with
  | case1 l used h ih =>
    obtain ⟨done, hl, hused, -⟩ := @servePass_spec rb ec 0 l used
    rw [serveSlot, if_pos h, ih, hused, ← List.foldl_append, ← hl]
  | case2 l used h =>
    obtain ⟨done, hl, hused, hrest⟩ := @servePass_spec rb ec 0 l used
    have hnil := hrest (Bool.eq_false_iff.mpr h)
    rw [hnil, List.append_nil] at hl
    rw [serveSlot, if_neg h]
    refine Prod.ext hnil (hused.trans ?_)
    rw [← hl]

/-- The entries of a list are added one by one. -/
theorem count_foldl_wlTreeAdd {x : Nat} : (inorder (l.foldl (wlTreeAdd rb ec) used)).count x =
    (inorder used).count x + l.count x := by
  induction l generalizing used with
  | nil => rfl
  | cons e l ih =>
    rw [List.foldl_cons, ih, count_wlTreeAdd, List.count_cons]
    simp only [beq_iff_eq]
    omega

theorem Sorted.foldl_add (ht : Sorted ec used)
    (hnew : ∀ x, (inorder used).count x + l.count x ≤ 1) :
    Sorted ec (l.foldl (wlTreeAdd rb ec) used) := by
  induction l generalizing used with
  | nil => exact ht
  | cons e l ih =>
    rw [List.foldl_cons]
    refine ih (ht.add fun he => ?_) fun x => ?_
    · have := hnew e
      have := List.count_pos_iff.mpr he
      rw [List.count_cons_self] at *
      omega
    · have := hnew x
      rw [List.count_cons] at this
      simp only [beq_iff_eq] at this
      rw [count_wlTreeAdd]
      omega

end Serve

/-! ## No entry is in two places -/

/-- The entries that a work holds. -/
def Work.entries : Work → List Nat
  | .erase e _ => [e]
  | .wearLeveling => []

namespace Dev

/-- In how many places is the entry? -/
def count (s : Dev) (x : Nat) : Nat :=
  (inorder s.free).count x + (inorder s.used).count x + (inorder s.scrub).count x +
    (inorder s.erroneous).count x + ∑ i ∈ Finset.range ubiProtQueueLen, (s.pq i).count x +
    (s.works.flatMap Work.entries).count x

/-- No entry is in two places, and the trees are in order. -/
structure Fine (s : Dev) : Prop where
  head : s.pqHead < ubiProtQueueLen
  once : ∀ x, s.count x ≤ 1
  used : Sorted s.ec s.used
  scrub : Sorted s.ec s.scrub
  erroneous : Sorted s.ec s.erroneous

variable {rb : Rb} {s s' s'' : Dev} {e x w n : Nat}

/-- An entry of a tree is counted. -/
theorem count_pos_of_free (he : e ∈ inorder s.free) : 0 < s.count e := by
  have := List.count_pos_iff.mpr he
  unfold count
  omega

/-- One that is not counted is in no tree. -/
theorem not_mem_of_count (h : s.count e = 0) : e ∉ inorder s.used ∧ e ∉ inorder s.scrub ∧
    e ∉ inorder s.erroneous := by
  unfold count at h
  refine ⟨fun he => ?_, fun he => ?_, fun he => ?_⟩ <;>
    · have := List.count_pos_iff.mpr he
      omega

/-- An entry is taken out of its place. -/
theorem Fine.take (h : s.Fine) (hhead : s'.pqHead = s.pqHead) (hused : Sorted s'.ec s'.used)
    (hscrub : Sorted s'.ec s'.scrub) (herr : Sorted s'.ec s'.erroneous)
    (hcount : ∀ x, s.count x = s'.count x + if e = x then 1 else 0) :
    s'.Fine ∧ s'.count e = 0 := by
  refine ⟨⟨hhead ▸ h.head, fun x => ?_, hused, hscrub, herr⟩, ?_⟩
  · have := h.once x
    have := hcount x
    omega
  · have := h.once e
    have := hcount e
    rw [if_pos rfl] at this
    omega

/-- An entry that is nowhere is put somewhere. -/
theorem Fine.put (h : s.Fine) (h0 : s.count e = 0) (hhead : s'.pqHead = s.pqHead)
    (hused : Sorted s'.ec s'.used) (hscrub : Sorted s'.ec s'.scrub)
    (herr : Sorted s'.ec s'.erroneous)
    (hcount : ∀ x, s'.count x = s.count x + if e = x then 1 else 0) : s'.Fine := by
  refine ⟨hhead ▸ h.head, fun x => ?_, hused, hscrub, herr⟩
  have hx := hcount x
  by_cases hex : e = x
  · subst hex
    rw [if_pos rfl] at hx
    omega
  · rw [if_neg hex] at hx
    have := h.once x
    omega

/-- An entry is taken out of one of the trees. -/
theorem Fine.eraseFree (h : s.Fine) (he : e ∈ inorder s.free) :
    Fine { s with free := rb.erase s.free e } ∧
      count { s with free := rb.erase s.free e } e = 0 := by
  refine h.take rfl h.used h.scrub h.erroneous fun x => ?_
  have := @count_rbErase _ _ x rb he
  simp only [count]
  omega

theorem Fine.eraseUsed (h : s.Fine) (he : e ∈ inorder s.used) :
    Fine { s with used := rb.erase s.used e } ∧
      count { s with used := rb.erase s.used e } e = 0 := by
  refine h.take rfl (h.used.erase he) h.scrub h.erroneous fun x => ?_
  have := @count_rbErase _ _ x rb he
  simp only [count]
  omega

theorem Fine.eraseScrub (h : s.Fine) (he : e ∈ inorder s.scrub) :
    Fine { s with scrub := rb.erase s.scrub e } ∧
      count { s with scrub := rb.erase s.scrub e } e = 0 := by
  refine h.take rfl h.used (h.scrub.erase he) h.erroneous fun x => ?_
  have := @count_rbErase _ _ x rb he
  simp only [count]
  omega

theorem Fine.eraseErroneous {k : Nat} (h : s.Fine) (he : e ∈ inorder s.erroneous) :
    Fine { s with erroneous := rb.erase s.erroneous e, erroneousPebCount := k } ∧
      count { s with erroneous := rb.erase s.erroneous e, erroneousPebCount := k } e = 0 := by
  refine h.take rfl h.used h.scrub (h.erroneous.erase he) fun x => ?_
  have := @count_rbErase _ _ x rb he
  simp only [count]
  omega

/-- A work is taken off the list, with its entries. -/
theorem Fine.popErase {torture : Bool} {works : List Work} {k : Nat} (h : s.Fine)
    (hworks : s.works = .erase e torture :: works) :
    Fine { s with works := works, worksCount := k } ∧
      count { s with works := works, worksCount := k } e = 0 := by
  refine h.take rfl h.used h.scrub h.erroneous fun x => ?_
  simp only [count, hworks, List.flatMap_cons, Work.entries, List.cons_append, List.nil_append,
    List.count_cons, beq_iff_eq]
  omega

/-- An entry is in one slot of the protection queue at most. -/
theorem Fine.slot_unique (h : s.Fine) {i j : Nat} (hi : i < ubiProtQueueLen)
    (hj : j < ubiProtQueueLen) (hei : e ∈ s.pq i) (hej : e ∈ s.pq j) : i = j := by
  by_contra hne
  have hrest := Finset.sum_erase_add (Finset.range ubiProtQueueLen) (fun i => (s.pq i).count e)
    (Finset.mem_range.mpr hi)
  have hrest' := Finset.sum_erase_add ((Finset.range ubiProtQueueLen).erase i)
    (fun i => (s.pq i).count e) (Finset.mem_erase.mpr ⟨Ne.symm hne, Finset.mem_range.mpr hj⟩)
  have := List.count_pos_iff.mpr hei
  have := List.count_pos_iff.mpr hej
  have := h.once e
  simp only [count] at *
  omega

/-- The entry is in one slot only. -/
theorem Fine.protQueueDel (h : s.Fine) {i : Nat} (hi : i < ubiProtQueueLen) (he : e ∈ s.pq i) :
    (s.protQueueDel e).Fine ∧ (s.protQueueDel e).count e = 0 := by
  refine h.take rfl h.used h.scrub h.erroneous fun x => ?_
  have hsum : ∑ i ∈ Finset.range ubiProtQueueLen, (s.pq i).count x =
      ∑ i ∈ Finset.range ubiProtQueueLen, ((s.protQueueDel e).pq i).count x +
        if e = x then 1 else 0 := by
    have hchange := @sum_change _ _ _ _ _ _ (fun i => (s.pq i).count x)
      (fun i => ((s.pq i).erase e).count x) (Finset.mem_range.mpr hi) fun j hj hne => by
        rw [List.erase_of_not_mem fun hej => hne (h.slot_unique (Finset.mem_range.mp hj) hi hej he)]
    have herase : (s.pq i).count x = ((s.pq i).erase e).count x + if e = x then 1 else 0 := by
      rw [List.count_erase]
      have := List.count_pos_iff.mpr he
      by_cases hx : e = x
      · subst hx
        simp
        omega
      · simp [hx]
    simp only [Dev.protQueueDel]
    omega
  simp only [count, hsum]
  simp only [Dev.protQueueDel]
  omega

/-- An entry that is put into a tree is counted once more. -/
theorem count_addUsed : count { s with used := wlTreeAdd rb s.ec s.used e } x =
    s.count x + if e = x then 1 else 0 := by
  simp only [count, count_wlTreeAdd]
  omega

theorem count_addScrub : count { s with scrub := wlTreeAdd rb s.ec s.scrub e } x =
    s.count x + if e = x then 1 else 0 := by
  simp only [count, count_wlTreeAdd]
  omega

theorem count_addErroneous {k : Nat} :
    count { s with erroneous := wlTreeAdd rb s.ec s.erroneous e, erroneousPebCount := k } x =
      s.count x + if e = x then 1 else 0 := by
  simp only [count, count_wlTreeAdd]
  omega

theorem Fine.count_protQueueAdd (h : s.Fine) : (s.protQueueAdd e).count x =
    s.count x + if e = x then 1 else 0 := by
  have htail : (if s.pqHead = 0 then ubiProtQueueLen - 1 else s.pqHead - 1) ∈
      Finset.range ubiProtQueueLen := by
    have := h.head
    rw [Finset.mem_range]
    split <;> omega
  have hsum := sum_update (t := s.pq) (f := fun l => l.count x)
    (a := s.pq (if s.pqHead = 0 then ubiProtQueueLen - 1 else s.pqHead - 1) ++ [e]) htail
  rw [List.count_append, List.count_singleton] at hsum
  simp only [beq_iff_eq] at hsum
  simp only [count, Dev.protQueueAdd, Info.protQueueAdd]
  omega

/-- An entry that is nowhere can go into any tree. -/
theorem Fine.addFree (h : s.Fine) (h0 : s.count e = 0) :
    Fine { s with free := wlTreeAdd rb s.ec s.free e } := by
  refine h.put h0 rfl h.used h.scrub h.erroneous fun x => ?_
  simp only [count, count_wlTreeAdd]
  omega

theorem Fine.addUsed (h : s.Fine) (h0 : s.count e = 0) :
    Fine { s with used := wlTreeAdd rb s.ec s.used e } :=
  h.put h0 rfl (h.used.add (not_mem_of_count h0).1) h.scrub h.erroneous fun _ => count_addUsed

theorem Fine.addScrub (h : s.Fine) (h0 : s.count e = 0) :
    Fine { s with scrub := wlTreeAdd rb s.ec s.scrub e } :=
  h.put h0 rfl h.used (h.scrub.add (not_mem_of_count h0).2.1) h.erroneous fun _ => count_addScrub

theorem Fine.addErroneous {k : Nat} (h : s.Fine) (h0 : s.count e = 0) :
    Fine { s with erroneous := wlTreeAdd rb s.ec s.erroneous e, erroneousPebCount := k } :=
  h.put h0 rfl h.used h.scrub (h.erroneous.add (not_mem_of_count h0).2.2) fun _ =>
    count_addErroneous

/-- Or into the protection queue. -/
theorem Fine.protQueueAdd (h : s.Fine) (h0 : s.count e = 0) : (s.protQueueAdd e).Fine :=
  h.put h0 rfl h.used h.scrub h.erroneous fun _ => h.count_protQueueAdd

/-- Or into a work. -/
theorem Fine.scheduleUbiWork {wrk : Work} (h : s.Fine) (h0 : ∀ e ∈ wrk.entries, s.count e = 0) :
    (s.scheduleUbiWork wrk).Fine := by
  cases wrk with
  | wearLeveling =>
    refine ⟨h.head, fun x => ?_, h.used, h.scrub, h.erroneous⟩
    have := h.once x
    simp only [count, Dev.scheduleUbiWork, List.flatMap_append, List.flatMap_cons,
      List.flatMap_nil, Work.entries, List.append_nil] at this ⊢
    exact this
  | erase e torture =>
    refine h.put (h0 e (List.mem_singleton_self e)) rfl h.used h.scrub h.erroneous fun x => ?_
    simp only [count, Dev.scheduleUbiWork, List.flatMap_append, List.flatMap_cons,
      List.flatMap_nil, Work.entries, List.append_nil, List.count_append, List.count_singleton,
      beq_iff_eq]
    omega

/-! ## Serving the queue -/

/-- `serve_prot_queue` moves a slot of the queue to the used tree, and the head to the next slot. -/
theorem serveProtQueue_eq : s.serveProtQueue rb = { s with
    pq := Function.update s.pq s.pqHead []
    used := (s.pq s.pqHead).foldl (wlTreeAdd rb s.ec) s.used
    pqHead := if s.pqHead + 1 = ubiProtQueueLen then 0 else s.pqHead + 1
    served := s.served ++ [s.pq s.pqHead] } := by
  rw [Dev.serveProtQueue, serveSlot_eq]

theorem Fine.serveProtQueue (h : s.Fine) : (s.serveProtQueue rb).Fine := by
  have hhead := Finset.mem_range.mpr h.head
  have hsum : ∀ x, ∑ i ∈ Finset.range ubiProtQueueLen,
      (Function.update s.pq s.pqHead [] i).count x + (s.pq s.pqHead).count x =
      ∑ i ∈ Finset.range ubiProtQueueLen, (s.pq i).count x := by
    intro x
    have := sum_update (t := s.pq) (f := fun l => l.count x) (a := []) hhead
    rw [List.count_nil] at this
    exact this
  rw [serveProtQueue_eq]
  refine ⟨?_, fun x => ?_, ?_, h.scrub, h.erroneous⟩
  · have := h.head
    dsimp only
    split <;> omega
  · have := h.once x
    have := hsum x
    simp only [count, count_foldl_wlTreeAdd] at *
    omega
  · refine h.used.foldl_add fun x => ?_
    have := h.once x
    have := hsum x
    unfold count at *
    omega

/-- `w` has been in the queue since `n` calls of `serve_prot_queue`: its slot is served by the tenth
one, and none before it moves `w`. -/
structure Waits (n w : Nat) (s : Dev) : Prop where
  since : n ≤ s.served.length
  early : ∀ k, n ≤ k → k + 1 < n + ubiProtQueueLen → w ∉ s.served.getD k []
  waiting : s.served.length < n + ubiProtQueueLen →
    w ∈ s.pq ((s.pqHead + (n + ubiProtQueueLen - 1 - s.served.length)) % ubiProtQueueLen)
  served : n + ubiProtQueueLen ≤ s.served.length → w ∈ s.served.getD (n + ubiProtQueueLen - 1) []

/-- The services that were done, with the new one. -/
theorem getD_served (k : Nat) : (s.serveProtQueue rb).served.getD k [] =
    if k = s.served.length then s.pq s.pqHead else s.served.getD k [] := by
  rw [serveProtQueue_eq, List.getD_eq_getElem?_getD, List.getD_eq_getElem?_getD,
    List.getElem?_append]
  by_cases hk : k = s.served.length
  · subst hk
    simp
  · rw [if_neg hk]
    split
    · rfl
    · rw [List.getElem?_eq_none (by rw [List.length_singleton]; omega),
        List.getElem?_eq_none (by omega)]

/-- One call of `serve_prot_queue`. -/
theorem Waits.serve (hw : s.Waits n w) (h : s.Fine) : (s.serveProtQueue rb).Waits n w := by
  obtain ⟨hsince, hearly, hwaiting, hserved⟩ := hw
  have hhead := h.head
  have hlen : (s.serveProtQueue rb).served.length = s.served.length + 1 := by
    rw [serveProtQueue_eq, List.length_append, List.length_singleton]
  have hslot : (s.pqHead + (n + ubiProtQueueLen - 1 - s.served.length)) % ubiProtQueueLen <
      ubiProtQueueLen := Nat.mod_lt _ (by decide)
  constructor
  · omega
  · intro k hnk hk
    rw [getD_served]
    split
    · rename_i hkl
      -- the slot of `w` comes later
      intro hin
      have := h.slot_unique hhead hslot hin (hwaiting (by omega))
      unfold ubiProtQueueLen at *
      omega
    · exact hearly k hnk hk
  · intro hlt
    have hin := hwaiting (by omega)
    rw [hlen] at hlt ⊢
    have hnext : (s.serveProtQueue rb).pqHead =
        if s.pqHead + 1 = ubiProtQueueLen then 0 else s.pqHead + 1 := by
      rw [serveProtQueue_eq]
    have hsame : ((s.serveProtQueue rb).pqHead +
        (n + ubiProtQueueLen - 1 - (s.served.length + 1))) % ubiProtQueueLen =
        (s.pqHead + (n + ubiProtQueueLen - 1 - s.served.length)) % ubiProtQueueLen := by
      rw [hnext]
      unfold ubiProtQueueLen at *
      split <;> omega
    have hne : (s.pqHead + (n + ubiProtQueueLen - 1 - s.served.length)) % ubiProtQueueLen ≠
        s.pqHead := by
      unfold ubiProtQueueLen at *
      omega
    rw [hsame, serveProtQueue_eq]
    dsimp only
    rw [Function.update_of_ne hne]
    exact hin
  · intro hle
    rw [hlen] at hle
    rw [getD_served]
    split
    · rename_i hkl
      have hin := hwaiting (by omega)
      have hslot : (s.pqHead + (n + ubiProtQueueLen - 1 - s.served.length)) % ubiProtQueueLen =
          s.pqHead := by
        unfold ubiProtQueueLen at *
        omega
      rw [hslot] at hin
      exact hin
    · exact hserved (by omega)

/-! ## What a function does to the queue -/

/-- Everything is in one place, and what waits goes on waiting. -/
structure Onward (s s' : Dev) : Prop where
  fine : s'.Fine
  waits : ∀ n w, s.Waits n w → s'.Waits n w

/-- Steps in a row do not take anything out of the queue but by a service. -/
theorem Onward.trans (h : s.Onward s') (h' : s'.Onward s'') : s.Onward s'' :=
  ⟨h'.fine, fun n w hw => h'.waits n w (h.waits n w hw)⟩

/-- Nothing is served, and `w` is not taken out of the queue. -/
theorem Waits.calm (hw : s.Waits n w) (hhead : s'.pqHead = s.pqHead)
    (hserved : s'.served = s.served)
    (hpq : s.served.length < n + ubiProtQueueLen → ∀ i, w ∈ s.pq i → w ∈ s'.pq i) :
    s'.Waits n w := by
  obtain ⟨hsince, hearly, hwaiting, hdone⟩ := hw
  constructor
  · rw [hserved]
    exact hsince
  · rw [hserved]
    exact hearly
  · rw [hserved, hhead]
    exact fun hlt => hpq hlt _ (hwaiting hlt)
  · rw [hserved]
    exact hdone

/-- A step that leaves the queue alone. -/
theorem Fine.onward (h : s'.Fine) (hhead : s'.pqHead = s.pqHead) (hserved : s'.served = s.served)
    (hpq : s'.pq = s.pq) : s.Onward s' :=
  ⟨h, fun _ _ hw => hw.calm hhead hserved fun _ i hi => by rw [hpq]; exact hi⟩

theorem Fine.refl (h : s.Fine) : s.Onward s := h.onward rfl rfl rfl

/-- The service itself. -/
theorem Fine.serve (h : s.Fine) : s.Onward (s.serveProtQueue rb) :=
  ⟨h.serveProtQueue, fun _ _ hw => hw.serve h⟩

theorem mem_protQueueAdd {i : Nat} (hi : w ∈ s.pq i) : w ∈ (s.protQueueAdd e).pq i := by
  simp only [Dev.protQueueAdd, Info.protQueueAdd]
  generalize (if s.pqHead = 0 then ubiProtQueueLen - 1 else s.pqHead - 1) = pqTail
  by_cases htail : i = pqTail
  · subst htail
    rw [Function.update_self]
    exact List.mem_append_left [e] hi
  · rw [Function.update_of_ne htail]
    exact hi

theorem Fine.add (h : s.Fine) (h0 : s.count e = 0) : s.Onward (s.protQueueAdd e) :=
  ⟨h.protQueueAdd h0, fun _ _ hw => hw.calm rfl rfl fun _ _ => mem_protQueueAdd⟩

/-! ## Erasing -/

/-- Erasing serves the queue. -/
theorem Fine.syncErase {env : SyncEnv} (h : s.Fine) (hu : e ∉ inorder s.used)
    (hs : e ∉ inorder s.scrub) (herr : e ∉ inorder s.erroneous) :
    s.Onward (s.syncErase env e).2 ∧ (s.syncErase env e).2.count = s.count := by
  have hsorted : ∀ {t : BinaryTree Nat} {ec : Nat}, Sorted s.ec t → e ∉ inorder t →
      Sorted (Function.update s.ec e ec) t := by
    intro t ec ht he
    refine ht.congr fun x hx => Function.update_of_ne ?_ _ _
    rintro rfl
    exact he hx
  have hfine : ∀ {flash : Nat → Peb} {ec maxEc : Nat}, Fine { s with
      flash := flash, ec := Function.update s.ec e ec, maxEc := maxEc } :=
    ⟨h.head, h.once, hsorted h.used hu, hsorted h.scrub hs, hsorted h.erroneous herr⟩
  unfold Dev.syncErase
  dsimp only
  split_ifs
  · exact ⟨h.refl, rfl⟩
  -- the counter changes at the end only
  all_goals refine ⟨Fine.onward ?_ rfl rfl rfl, rfl⟩
  all_goals first
    | exact ⟨h.head, h.once, h.used, h.scrub, h.erroneous⟩
    | exact hfine

/-- Read-only mode. -/
theorem Fine.ubiRoMode (h : s.Fine) : s.Onward s.ubiRoMode :=
  Fine.onward ⟨h.head, h.once, h.used, h.scrub, h.erroneous⟩ rfl rfl rfl

/-- An erasure is scheduled, if there is memory for it. -/
theorem Fine.scheduleErase {alloc torture : Bool} (h : s.Fine) (h0 : s.count e = 0) :
    s.Onward (s.scheduleErase alloc e torture).2 := by
  unfold Dev.scheduleErase
  split
  · have hwork : (s.scheduleUbiWork (.erase e torture)).Fine := h.scheduleUbiWork fun x hx => by
      rw [List.mem_singleton.mp hx]
      exact h0
    exact hwork.onward rfl rfl rfl
  · exact h.refl

theorem Fine.scheduleWl {alloc : Bool} (h : s.Fine) : s.Onward (s.scheduleWl alloc).2 := by
  unfold Dev.scheduleWl
  split
  · have hwork : (s.scheduleUbiWork .wearLeveling).Fine :=
      h.scheduleUbiWork fun _ hx => by cases hx
    exact Fine.onward ⟨hwork.head, hwork.once, hwork.used, hwork.scrub, hwork.erroneous⟩ rfl rfl rfl
  · exact h.refl

/-- Wear-leveling is scheduled, if it makes sense. -/
theorem Fine.ensureWearLeveling {alloc : Bool} (h : s.Fine) :
    s.Onward (s.ensureWearLeveling alloc).2 := by
  unfold Dev.ensureWearLeveling
  split
  · exact h.refl
  · split
    · split
      · exact h.refl
      · split
        · exact h.refl
        · split
          · exact h.refl
          · split
            · exact h.scheduleWl
            · exact h.refl
    · exact h.scheduleWl

/-- The worker that erases a PEB, with its retries. -/
theorem Fine.eraseWorker {env : WorkEnv} (h : s.Fine) (h0 : s.count e = 0) :
    s.Onward (s.eraseWorker rb env e).2 := by
  obtain ⟨hu, hs, herr⟩ := not_mem_of_count h0
  obtain ⟨hsync, hcount⟩ := @Fine.syncErase _ _ env.sync h hu hs herr
  have h0' : (s.syncErase env.sync e).2.count e = 0 := by rw [hcount, h0]
  refine hsync.trans ?_
  have hfine := hsync.fine
  unfold Dev.eraseWorker
  dsimp only
  generalize s.syncErase env.sync e = r at *
  split
  · have hfree : r.2.Onward { r.2 with free := wlTreeAdd rb r.2.ec r.2.free e } :=
      (hfine.addFree h0').onward rfl rfl rfl
    exact (hfree.trans hfree.fine.serve).trans hfree.fine.serveProtQueue.ensureWearLeveling
  · split
    · have hsched := @Fine.scheduleErase _ _ env.allocErase false hfine h0'
      split
      · exact hsched.trans hsched.fine.ubiRoMode
      · exact hsched
    · split
      · exact hfine.ubiRoMode
      · split
        · exact hfine.ubiRoMode
        · exact hfine.refl

/-! ## Moving -/

theorem Fine.setWlScheduled {b : Bool} (h : s.Fine) : s.Onward { s with wlScheduled := b } :=
  Fine.onward ⟨h.head, h.once, h.used, h.scrub, h.erroneous⟩ rfl rfl rfl

theorem Fine.scheduleLast {alloc torture : Bool} (h : s.Fine) (h0 : s.count e = 0) :
    s.Onward (s.scheduleLast alloc e torture).2 := by
  have hsched := @Fine.scheduleErase _ _ alloc torture h h0
  unfold Dev.scheduleLast
  dsimp only
  split
  · exact hsched
  · exact hsched.trans hsched.fine.ubiRoMode

/-- `out_not_moved`: `e2` is not put anywhere. -/
theorem Fine.notMoved {scrubbing torture : Bool} {copy : Copy} {e1 e2 : Nat} (h : s.Fine)
    (h1 : s.count e1 = 0) (h2 : s.count e2 = 0) (hne : e1 ≠ e2)
    (hs : s.notMoved rb scrubbing e1 copy = some (s', torture)) :
    s.Onward s' ∧ s'.count e2 = 0 := by
  have hcount : ∀ {c : Nat}, (c = s.count e2 + if e1 = e2 then 1 else 0) → c = 0 := by
    intro c hc
    rw [hc, h2, if_neg hne]
  cases copy with
  | moved => cases hs
  | error err => cases hs
  | protect =>
    cases hs
    exact ⟨h.add h1, hcount h.count_protQueueAdd⟩
  | scrub =>
    cases hs
    exact ⟨(h.addScrub h1).onward rfl rfl rfl, hcount count_addScrub⟩
  | torture =>
    simp only [Dev.notMoved] at hs
    split at hs
    · cases hs
      exact ⟨(h.addScrub h1).onward rfl rfl rfl, hcount count_addScrub⟩
    · cases hs
      exact ⟨(h.addUsed h1).onward rfl rfl rfl, hcount count_addUsed⟩
  | sourceRdErr =>
    simp only [Dev.notMoved] at hs
    split at hs
    · cases hs
    · cases hs
      exact ⟨(h.addErroneous h1).onward rfl rfl rfl, hcount count_addErroneous⟩

/-- A PEB is moved; either of the two may end anywhere. -/
theorem Fine.movePeb {env : WorkEnv} {scrubbing : Bool} {e1 e2 : Nat} (h : s.Fine)
    (h1 : s.count e1 = 0) (h2 : s.count e2 = 0) (hne : e1 ≠ e2) :
    s.Onward (s.movePeb rb env scrubbing e1 e2).2 := by
  unfold Dev.movePeb
  split
  · have hused := @Fine.addUsed rb _ _ h h2
    have hcount : count { s with used := wlTreeAdd rb s.ec s.used e2 } e1 = 0 := by
      rw [count_addUsed, h1, if_neg (Ne.symm hne)]
    have hstep := (hused.onward rfl rfl rfl : s.Onward _).trans
      (hused.setWlScheduled (b := false))
    exact hstep.trans (hstep.fine.scheduleLast hcount)
  · split
    · rename_i s' torture heq
      obtain ⟨hmoved, hcount⟩ := h.notMoved h1 h2 hne heq
      have hstep := hmoved.trans (hmoved.fine.setWlScheduled (b := false))
      exact hstep.trans (hstep.fine.scheduleLast hcount)
    · have hstep := h.setWlScheduled (b := false)
      split
      · exact hstep.trans hstep.fine.ubiRoMode
      · exact hstep.trans hstep.fine.ubiRoMode

/-- What is found was free. -/
theorem mem_findWlEntry {max : Nat} (h : s.findWlEntry s.free max = some e) :
    e ∈ inorder s.free := by
  unfold Info.findWlEntry at h
  split at h
  · cases h
  · rename_i first hfirst
    split at h
    · cases h
    · cases h
      rw [SearchTree.first_eq] at hfirst
      rcases SearchTree.search_mem first with heq | hin
      · rw [heq]
        exact List.mem_of_mem_head? hfirst
      · exact hin

theorem mem_of_first {t : BinaryTree Nat} (h : SearchTree.first t = some e) : e ∈ inorder t := by
  rw [SearchTree.first_eq] at h
  exact List.mem_of_mem_head? h

/-- The target of a move, after the PEB to be moved is nowhere. -/
theorem Fine.eraseTarget {e1 e2 : Nat} (h : s.Fine) (h1 : s.count e1 = 0)
    (h2 : e2 ∈ inorder s.free) : Fine { s with free := rb.erase s.free e2 } ∧
      count { s with free := rb.erase s.free e2 } e1 = 0 ∧
      count { s with free := rb.erase s.free e2 } e2 = 0 ∧ e1 ≠ e2 := by
  obtain ⟨hfine, hcount⟩ := @Fine.eraseFree rb _ _ h h2
  refine ⟨hfine, ?_, hcount, ?_⟩
  · have := @count_rbErase _ _ e1 rb h2
    simp only [count] at h1 ⊢
    omega
  · rintro rfl
    have := count_pos_of_free h2
    omega

/-- The worker that moves PEBs. -/
theorem Fine.wearLevelingWorker {env : WorkEnv} (h : s.Fine) :
    s.Onward (s.wearLevelingWorker rb env).2 := by
  unfold Dev.wearLevelingWorker
  split
  · exact h.refl
  · split
    · exact h.setWlScheduled
    · split
      · exact h.refl
      · rename_i e2 hfind
        have hfree := mem_findWlEntry hfind
        split
        · split
          · exact h.refl
          · rename_i e1 hfirst
            split
            · exact h.setWlScheduled
            · obtain ⟨hused, h1⟩ := @Fine.eraseUsed rb _ _ h (mem_of_first hfirst)
              obtain ⟨hboth, h1, h2, hne⟩ := @Fine.eraseTarget rb _ _ _ hused h1 hfree
              exact (hboth.onward rfl rfl rfl : s.Onward _).trans (hboth.movePeb h1 h2 hne)
        · split
          · exact h.refl
          · rename_i e1 hfirst
            obtain ⟨hscrub, h1⟩ := @Fine.eraseScrub rb _ _ h (mem_of_first hfirst)
            obtain ⟨hboth, h1, h2, hne⟩ := @Fine.eraseTarget rb _ _ _ hscrub h1 hfree
            exact (hboth.onward rfl rfl rfl : s.Onward _).trans (hboth.movePeb h1 h2 hne)

/-- The worker that does the first work. -/
theorem Fine.doWork {env : WorkEnv} (h : s.Fine) : s.Onward (s.doWork rb env).2 := by
  unfold Dev.doWork
  split
  · exact h.refl
  · rename_i wrk works hworks
    cases wrk with
    | erase e torture =>
      obtain ⟨hpop, h0⟩ := h.popErase (k := s.worksCount - 1) hworks
      exact (hpop.onward rfl rfl rfl : s.Onward _).trans (hpop.eraseWorker h0)
    | wearLeveling =>
      have hpop : Fine { s with works := works, worksCount := s.worksCount - 1 } := by
        refine ⟨h.head, fun x => ?_, h.used, h.scrub, h.erroneous⟩
        have := h.once x
        simp only [count, hworks, List.flatMap_cons, Work.entries, List.nil_append] at this ⊢
        exact this
      exact (hpop.onward rfl rfl rfl : s.Onward _).trans hpop.wearLevelingWorker

/-! ## The operations -/

/-- Works are done until there is a free PEB. -/
theorem Fine.produceFreePeb {env : Nat → WorkEnv} {fuel : Nat} (h : s.Fine) :
    s.Onward (produceFreePeb rb env fuel s).2 := by
  induction fuel generalizing s with
  | zero => exact h.refl
  | succ fuel ih =>
    have hwork := @Fine.doWork rb _ (env fuel) h
    rw [Dev.produceFreePeb]
    split
    · dsimp only
      split
      · exact hwork.trans (ih hwork.fine)
      · exact hwork
    · exact h.refl

theorem Fine.waitFree {env : Nat → Nat → WorkEnv} {fuel : Nat} (h : s.Fine) :
    s.Onward (waitFree rb env fuel s).2 := by
  induction fuel generalizing s with
  | zero => exact h.refl
  | succ fuel ih =>
    have hfree := @Fine.produceFreePeb rb _ (env fuel) (fuel + 1) h
    rw [Dev.waitFree]
    split
    · split
      · exact h.refl
      · dsimp only
        split
        · exact hfree
        · split
          · exact hfree
          · exact hfree.trans (ih hfree.fine)
    · exact h.refl

/-- What is picked was free. -/
theorem mem_pick {dtype : Dtype} (h : s.pick dtype = some e) : e ∈ inorder s.free := by
  cases dtype with
  | longterm => exact mem_findWlEntry h
  | shortterm => exact mem_of_first h
  | unknown =>
    simp only [Info.pick] at h
    split at h
    · rename_i root l r _ _ hroot
      split at h
      · cases h
        rw [hroot]
        simp
      · split at h
        · cases h
        · exact mem_findWlEntry h
    · cases h

theorem syncErase_served {env : SyncEnv} : (s.syncErase env e).2.served = s.served := by
  unfold Dev.syncErase
  dsimp only
  split_ifs <;> rfl

/-- An entry that is added now waits from now on. -/
theorem waits_protQueueAdd (h : s.Fine) : (s.protQueueAdd e).Waits s.served.length e := by
  have hhead := h.head
  constructor
  · exact Nat.le_refl _
  · intro k hk _
    show e ∉ s.served.getD k []
    rw [List.getD_eq_getElem?_getD, List.getElem?_eq_none hk]
    exact List.not_mem_nil
  · intro _
    show e ∈ (s.protQueueAdd e).pq
      ((s.pqHead + (s.served.length + ubiProtQueueLen - 1 - s.served.length)) % ubiProtQueueLen)
    have htail : (s.pqHead + (s.served.length + ubiProtQueueLen - 1 - s.served.length)) %
        ubiProtQueueLen = if s.pqHead = 0 then ubiProtQueueLen - 1 else s.pqHead - 1 := by
      unfold ubiProtQueueLen at *
      split <;> omega
    rw [htail]
    simp only [Dev.protQueueAdd, Info.protQueueAdd, Function.update_self]
    exact List.mem_append_right _ (List.mem_singleton_self e)
  · intro hle
    have hle : s.served.length + ubiProtQueueLen ≤ s.served.length := hle
    unfold ubiProtQueueLen at hle
    omega

/-- A PEB that is handed out waits from now on. -/
theorem Fine.ubiWlGetPeb {env : Nat → Nat → WorkEnv} {sync : SyncEnv} {dtype : Dtype} {fuel : Nat}
    (h : s.Fine) : s.Onward (s.ubiWlGetPeb rb env sync dtype fuel).2 ∧
      ∀ e : Nat, (s.ubiWlGetPeb rb env sync dtype fuel).1 = some (e : Int) →
        (s.ubiWlGetPeb rb env sync dtype fuel).2.Waits
          (s.ubiWlGetPeb rb env sync dtype fuel).2.served.length e := by
  have hwait := @Fine.waitFree rb _ env fuel h
  have hfine := hwait.fine
  unfold Dev.ubiWlGetPeb
  dsimp only
  generalize Dev.waitFree rb env fuel s = r at *
  cases hr : r.1 with
  | none =>
    refine ⟨hwait, fun e he => ?_⟩
    rw [hr] at he
    cases he
  | some err =>
    dsimp only
    split
    · refine ⟨hwait, fun e he => ?_⟩
      rw [hr] at he
      cases he
      omega
    · cases hpick : r.2.pick dtype with
      | none => exact ⟨hwait, fun e he => by cases he⟩
      | some e =>
        dsimp only
        obtain ⟨hfree, h0⟩ := @Fine.eraseFree rb _ _ hfine (mem_pick hpick)
        have hadd := hfree.add h0
        obtain ⟨hu, hs, herr⟩ := not_mem_of_count h0
        obtain ⟨hsync, -⟩ := @Fine.syncErase _ _ sync hadd.fine hu hs herr
        have hstep : r.2.Onward { r.2 with free := rb.erase r.2.free e } :=
          hfree.onward rfl rfl rfl
        refine ⟨hwait.trans (hstep.trans (hadd.trans hsync)), fun w hw => ?_⟩
        have hew : e = w := Int.ofNat.inj (Option.some.inj hw)
        subst hew
        rw [syncErase_served]
        exact hsync.waits _ _ (waits_protQueueAdd hfree)

/-- What users of the WL sub-system have. -/
def Held (s : Dev) (e : Nat) : Prop :=
  e ∈ inorder s.used ∨ e ∈ inorder s.scrub ∨ e ∈ inorder s.erroneous ∨
    ∃ i < ubiProtQueueLen, e ∈ s.pq i

/-- Any entry but `e` goes on waiting, and `e` too if its time is over. -/
def KeepsWaiting (e : Nat) (s s' : Dev) : Prop :=
  ∀ n w, (s.served.length < n + ubiProtQueueLen → w ≠ e) → s.Waits n w → s'.Waits n w

/-- Who is waiting keeps waiting. -/
theorem KeepsWaiting.trans (h : s.KeepsWaiting e s') (h' : s'.Onward s'') :
    s.KeepsWaiting e s'' :=
  fun n w hne hw => h'.waits n w (h n w hne hw)

/-- `e` is nowhere. -/
structure TakenOut (e : Nat) (s s' : Dev) : Prop where
  fine : s'.Fine
  nowhere : s'.count e = 0
  waits : s.KeepsWaiting e s'

/-- An entry is taken out of where it is, and nobody else is disturbed. -/
theorem Fine.takenOut (h : s'.Fine ∧ s'.count e = 0) (hhead : s'.pqHead = s.pqHead)
    (hserved : s'.served = s.served) (hpq : s'.pq = s.pq) : s.TakenOut e s' :=
  ⟨h.1, h.2, fun n w _ => (h.1.onward hhead hserved hpq).waits n w⟩

theorem Fine.takenOutOfQueue (h : s.Fine) {i : Nat} (hi : i < ubiProtQueueLen)
    (he : e ∈ s.pq i) : s.TakenOut e (s.protQueueDel e) := by
  obtain ⟨hfine, h0⟩ := h.protQueueDel hi he
  exact ⟨hfine, h0, fun n w hne hw => hw.calm rfl rfl fun hlt i hw =>
    (List.mem_erase_of_ne (hne hlt)).mpr hw⟩

/-- A PEB that is held is in a tree or in the queue. -/
theorem Fine.takeOut {torture : Bool} (h : s.Fine) (hheld : s.Held e) :
    s.TakenOut e (s.takeOut rb e torture).1 := by
  unfold Dev.takeOut
  split
  · rename_i hu
    exact Fine.takenOut (h.eraseUsed ((inWlTree_iff h.used).mp hu)) rfl rfl rfl
  · split
    · rename_i hs
      exact Fine.takenOut (h.eraseScrub ((inWlTree_iff h.scrub).mp hs)) rfl rfl rfl
    · split
      · rename_i herr
        exact Fine.takenOut (h.eraseErroneous ((inWlTree_iff h.erroneous).mp herr)) rfl rfl rfl
      · rename_i hu hs herr
        rcases hheld with hin | hin | hin | ⟨i, hi, hin⟩
        · exact absurd ((inWlTree_iff h.used).mpr hin) hu
        · exact absurd ((inWlTree_iff h.scrub).mpr hin) hs
        · exact absurd ((inWlTree_iff h.erroneous).mpr hin) herr
        · exact h.takenOutOfQueue hi hin

/-- `ubi_wl_put_peb` disturbs nobody but the PEB it is called for. -/
theorem Fine.ubiWlPutPeb {alloc torture : Bool} (h : s.Fine) (hheld : s.Held e) :
    (s.ubiWlPutPeb rb alloc e torture).2.Fine ∧
      s.KeepsWaiting e (s.ubiWlPutPeb rb alloc e torture).2 := by
  obtain ⟨hfine, h0, hwaits⟩ := @Fine.takeOut rb _ _ torture h hheld
  unfold Dev.ubiWlPutPeb
  dsimp only
  generalize s.takeOut rb e torture = r at *
  cases alloc with
  | true =>
    have hsched := @Fine.scheduleErase _ _ true r.2 hfine h0
    exact ⟨hsched.fine, hwaits.trans hsched⟩
  | false =>
    have hused := @Fine.addUsed rb _ _ hfine h0
    have hstep : r.1.Onward { r.1 with used := wlTreeAdd rb r.1.ec r.1.used e } :=
      hused.onward rfl rfl rfl
    exact ⟨hused, hwaits.trans hstep⟩

/-- Nor does `ubi_wl_scrub_peb`. -/
theorem Fine.ubiWlScrubPeb {alloc : Bool} (h : s.Fine) (hheld : s.Held e) :
    (s.ubiWlScrubPeb rb alloc e).2.Fine ∧ s.KeepsWaiting e (s.ubiWlScrubPeb rb alloc e).2 := by
  unfold Dev.ubiWlScrubPeb
  split
  · exact ⟨h, fun _ _ _ hw => hw⟩
  · rename_i hnot
    rw [Bool.or_eq_true, not_or, inWlTree_iff h.scrub, inWlTree_iff h.erroneous] at hnot
    dsimp only
    have hout : s.TakenOut e (if inWlTree s.ec e s.used then { s with used := rb.erase s.used e }
        else s.protQueueDel e) := by
      split
      · rename_i hu
        exact Fine.takenOut (h.eraseUsed ((inWlTree_iff h.used).mp hu)) rfl rfl rfl
      · rename_i hu
        rcases hheld with hin | hin | hin | ⟨i, hi, hin⟩
        · exact absurd ((inWlTree_iff h.used).mpr hin) hu
        · exact absurd hin hnot.1
        · exact absurd hin hnot.2
        · exact h.takenOutOfQueue hi hin
    generalize (if inWlTree s.ec e s.used then { s with used := rb.erase s.used e }
        else s.protQueueDel e) = t at *
    have hscrub : t.Onward { t with scrub := wlTreeAdd rb t.ec t.scrub e } :=
      (hout.fine.addScrub hout.nowhere).onward rfl rfl rfl
    have hlast := hscrub.trans (@Fine.ensureWearLeveling _ alloc hscrub.fine)
    exact ⟨hlast.fine, hout.waits.trans hlast⟩

/-! ## Runs -/

/-- PEBs are put and scrubbed by who has them. -/
def OpOk (s : Dev) : Op → Prop
  | .putPeb _ pnum _ | .scrubPeb _ pnum => s.Held pnum
  | _ => True

/-- The operation puts the PEB, or has it scrubbed. -/
def Touches (e : Nat) : Op → Prop
  | .putPeb _ pnum _ | .scrubPeb _ pnum => pnum = e
  | _ => False

/-- Any operation. -/
def Step (rb : Rb) (s s' : Dev) : Prop := ∃ op : Op, s.OpOk op ∧ s' = op.run rb s

/-- Any operation that leaves `e` alone, as long as it is protected since `n` calls. -/
def StepUnless (rb : Rb) (n e : Nat) (s s' : Dev) : Prop :=
  ∃ op : Op, s.OpOk op ∧ (s.served.length < n + ubiProtQueueLen → ¬ Touches e op) ∧
    s' = op.run rb s

/-- Every operation keeps the queue, and those who wait in it unless they are touched. -/
theorem Fine.op {op : Op} (h : s.Fine) (hok : s.OpOk op) : (op.run rb s).Fine ∧
    ∀ n w, (s.served.length < n + ubiProtQueueLen → ¬ Touches w op) → s.Waits n w →
      (op.run rb s).Waits n w := by
  cases op with
  | getPeb env sync dtype fuel =>
    have hget := (@Fine.ubiWlGetPeb rb _ env sync dtype fuel h).1
    exact ⟨hget.fine, fun n w _ => hget.waits n w⟩
  | doWork env =>
    have hwork := @Fine.doWork rb _ env h
    exact ⟨hwork.fine, fun n w _ => hwork.waits n w⟩
  | putPeb alloc pnum torture =>
    obtain ⟨hfine, hwaits⟩ := @Fine.ubiWlPutPeb rb _ _ alloc torture h hok
    exact ⟨hfine, fun n w hne => hwaits n w fun hlt heq => hne hlt heq.symm⟩
  | scrubPeb alloc pnum =>
    obtain ⟨hfine, hwaits⟩ := @Fine.ubiWlScrubPeb rb _ _ alloc h hok
    exact ⟨hfine, fun n w hne => hwaits n w fun hlt heq => hne hlt heq.symm⟩

/-- What is promised for a PEB that was queued after `n` calls of `serve_prot_queue`. -/
structure Protected (n e : Nat) (s : Dev) : Prop where
  /-- The first nine calls leave it alone. -/
  early : ∀ k, n ≤ k → k + 1 < n + ubiProtQueueLen → e ∉ s.served.getD k []
  waiting : s.served.length < n + ubiProtQueueLen →
    (∃ i < ubiProtQueueLen, e ∈ s.pq i) ∧ e ∉ inorder s.used
  /-- The tenth one moves it. -/
  served : n + ubiProtQueueLen ≤ s.served.length → e ∈ s.served.getD (n + ubiProtQueueLen - 1) []

/-- One call of `serve_prot_queue`: the slot at the head is moved to the used tree. -/
structure Served (s s' : Dev) : Prop where
  slot : s'.pq s.pqHead = []
  others : ∀ i, i ≠ s.pqHead → s'.pq i = s.pq i
  used : (inorder s'.used).Perm (s.pq s.pqHead ++ inorder s.used)
  head : s'.pqHead = (s.pqHead + 1) % ubiProtQueueLen
  call : s'.served = s.served ++ [s.pq s.pqHead]

/-- Who waits is in the queue. -/
theorem Waits.isProtected (hw : s.Waits n w) (h : s.Fine) : s.Protected n w := by
  refine ⟨hw.early, fun hlt => ?_, hw.served⟩
  have hin := hw.waiting hlt
  have hslot : (s.pqHead + (n + ubiProtQueueLen - 1 - s.served.length)) % ubiProtQueueLen <
      ubiProtQueueLen := Nat.mod_lt _ (by decide)
  refine ⟨⟨_, hslot, hin⟩, fun hused => ?_⟩
  have hsum := Finset.sum_erase_add (Finset.range ubiProtQueueLen) (fun i => (s.pq i).count w)
    (Finset.mem_range.mpr hslot)
  have := List.count_pos_iff.mpr hin
  have := List.count_pos_iff.mpr hused
  have := h.once w
  simp only [count] at *
  omega

/-- A service lets go of one slot. -/
theorem Fine.served (h : s.Fine) : s.Served (s.serveProtQueue rb) := by
  have hhead := h.head
  rw [serveProtQueue_eq]
  refine ⟨Function.update_self _ _ _, fun i hi => Function.update_of_ne hi _ _, ?_, ?_, rfl⟩
  · refine List.perm_iff_count.mpr fun x => ?_
    rw [count_foldl_wlTreeAdd, List.count_append, Nat.add_comm]
  · unfold ubiProtQueueLen at *
    dsimp only
    split <;> omega

end Dev

/-- A PEB that `ubi_wl_get_peb` has returned enters the used tree at the tenth call of
`serve_prot_queue`, unless it is put or scrubbed before. -/
theorem protected_until_served {rb : Rb} {s₀ s : Dev} {env : Nat → Nat → WorkEnv} {sync : SyncEnv}
    {dtype : Dtype} {fuel e : Nat} (h₀ : Reach Dev.Fine (Dev.Step rb) s₀)
    (hget : (s₀.ubiWlGetPeb rb env sync dtype fuel).1 = some (e : Int))
    (h : Reach (fun t => t = (s₀.ubiWlGetPeb rb env sync dtype fuel).2)
      (Dev.StepUnless rb (s₀.ubiWlGetPeb rb env sync dtype fuel).2.served.length e) s) :
    s.Protected (s₀.ubiWlGetPeb rb env sync dtype fuel).2.served.length e ∧
      s.Served (s.serveProtQueue rb) := by
  have hfine₀ : s₀.Fine := by
    refine h₀.invariant (fun _ hs => hs) ?_
    rintro s _ hs ⟨op, hok, rfl⟩
    exact (hs.op hok).1
  obtain ⟨hafter, hwaits⟩ := @Dev.Fine.ubiWlGetPeb rb _ env sync dtype fuel hfine₀
  have hrun : s.Fine ∧ s.Waits (s₀.ubiWlGetPeb rb env sync dtype fuel).2.served.length e := by
    refine Reach.invariant (I := fun s => s.Fine ∧
      s.Waits (s₀.ubiWlGetPeb rb env sync dtype fuel).2.served.length e) ?_ ?_ h
    · rintro _ rfl
      exact ⟨hafter.fine, hwaits e hget⟩
    · rintro s _ ⟨hs, hw⟩ ⟨op, hok, htouch, rfl⟩
      obtain ⟨hfine, hkeep⟩ := @Dev.Fine.op rb _ _ hs hok
      exact ⟨hfine, hkeep _ _ htouch hw⟩
  exact ⟨hrun.2.isProtected hrun.1, hrun.1.served⟩

/-- Rebalancing does nothing. -/
def plainTrees : Rb := { unbalanced with
  insertColor := fun t => t
  inorder_insertColor := rfl }

/-- One PEB is free, and another one is to be erased. -/
def oneWork : Dev := { oneFree .erased with
  worksCount := 1
  used := .nil
  scrub := .nil
  erroneous := .nil
  erroneousPebCount := 0
  maxErroneous := 8
  works := [.erase 6 false]
  wlScheduled := false
  served := [] }

/-- Everything can be written. -/
def syncFine : SyncEnv := ⟨true, (1, .erased), (0, .erased)⟩

/-- Nothing goes wrong in a work. -/
def workFine : WorkEnv := ⟨syncFine, .ok (), true, true, true, .moved⟩

/-- The free PEB is taken, and the other one is erased. -/
theorem protected_until_served_once :
    ((((oneWork.ubiWlGetPeb plainTrees (fun _ _ => workFine) syncFine .shortterm 1).2).doWork
      plainTrees workFine).2).Protected 0 0 := by
  have hfine : oneWork.Fine := by
    refine ⟨by decide, fun x => ?_, List.Pairwise.nil, List.Pairwise.nil, List.Pairwise.nil⟩
    simp only [Dev.count, oneWork, oneFree, Work.entries, SearchTree.inorder_node,
      SearchTree.inorder_nil, List.nil_append, List.flatMap_cons, List.flatMap_nil,
      List.append_nil, List.count_nil, List.count_singleton, Finset.sum_const_zero, beq_iff_eq]
    split_ifs <;> omega
  have h₀ : Reach Dev.Fine (Dev.Step plainTrees) oneWork := .init hfine
  have hget : (oneWork.ubiWlGetPeb plainTrees (fun _ _ => workFine) syncFine .shortterm 1).1 =
      some ((0 : Nat) : Int) := rfl
  have hstep := Reach.step (@Reach.init _ (fun t => t =
      (oneWork.ubiWlGetPeb plainTrees (fun _ _ => workFine) syncFine .shortterm 1).2) _ _ rfl)
    (show Dev.StepUnless plainTrees 0 0 _ _ from ⟨.doWork workFine, trivial, fun _ h => h, rfl⟩)
  exact (protected_until_served h₀ hget hstep).1

end Ubi.Wl
