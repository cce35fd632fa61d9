/-
  The PEBs that `ubi_wl_get_peb` hands out: how worn they are, and what is on them.

  The tree of free PEBs is in the order of their erase counters, and `find_wl_entry` goes right as
  long as the counter is below its limit.  The limit is computed in an `int`: whether the PEB found
  is within what the callers ask for is decided by the counters in the tree (`pick_bounded_iff`).

  The PEB is erased before it is handed out, and the result of that is not looked at.  So it is
  clean if and only if one of the attempts went through and the header could be written
  (`syncErase_clean_iff`).
-/
import FlashStack.Ubi.WearLevel
import Mathlib.Data.List.Pairwise

open Lib
open Lib.SearchTree (inorder)

namespace Ubi.Wl

namespace Info

variable {s : Info} {low max e : Nat} {dtype : Dtype}

/-! ## How worn they are -/

/-- The free tree is a search tree for pairs of counter and number. -/
structure FreeTree (s : Info) : Prop where
  nonempty : inorder s.free ≠ []
  ordered : (inorder s.free).Pairwise fun a b => s.ec a < s.ec b ∨ s.ec a = s.ec b ∧ a < b
  ec_le {e : Nat} : e ∈ inorder s.free → s.ec e ≤ ubiMaxErasecounter

/-- The lowest counter in the tree. -/
structure Lowest (s : Info) (low : Nat) : Prop where
  attained : ∃ e ∈ inorder s.free, s.ec e = low
  le {e : Nat} : e ∈ inorder s.free → low ≤ s.ec e

/-- Erase counters go up through the tree. -/
theorem FreeTree.monotone (h : s.FreeTree) :
    (inorder s.free).Pairwise fun a b => s.ec a ≤ s.ec b :=
  h.ordered.imp fun hab => hab.elim Nat.le_of_lt fun hab => Nat.le_of_eq hab.1

/-- The leftmost PEB has the lowest erase counter. -/
theorem FreeTree.first_lowest (h : s.FreeTree) (hlow : s.Lowest low) :
    ∃ e, SearchTree.first s.free = some e ∧ e ∈ inorder s.free ∧ s.ec e = low := by
  obtain ⟨e, rest, he⟩ := List.exists_cons_of_ne_nil h.nonempty
  refine ⟨e, ?_, ?_, ?_⟩
  · rw [SearchTree.first_eq, he, List.head?_cons]
  · rw [he]
    exact List.mem_cons_self ..
  · obtain ⟨x, hx, rfl⟩ := hlow.attained
    have hmono := h.monotone
    rw [he] at hx hmono
    refine Nat.le_antisymm ?_ (hlow.le (he ▸ List.mem_cons_self ..))
    rcases List.mem_cons.mp hx with rfl | hx
    · exact Nat.le_refl _
    · exact (List.pairwise_cons.mp hmono).1 x hx

/-- The rightmost one has the highest. -/
theorem FreeTree.last_highest (h : s.FreeTree) :
    ∃ e, SearchTree.last s.free = some e ∧ e ∈ inorder s.free ∧
      ∀ x ∈ inorder s.free, s.ec x ≤ s.ec e := by
  have hlast := List.getLast?_eq_some_getLast h.nonempty
  refine ⟨_, (SearchTree.last_eq _).trans hlast, List.getLast_mem _, fun x hx => ?_⟩
  have : Std.Refl fun a b => s.ec a ≤ s.ec b := ⟨fun a => Nat.le_refl _⟩
  exact h.monotone.rel_getLast hx

/-- When the limit does not fit in an `int`, everything is below it and nothing is found. -/
theorem findWlEntry_overflow (h : s.FreeTree) (hlow : s.Lowest low) (hover : intMax < max + low) :
    s.findWlEntry s.free max = none := by
  obtain ⟨e, hfirst, -, rfl⟩ := h.first_lowest hlow
  simp only [findWlEntry, hfirst, addInt, if_neg (Nat.not_le.mpr hover)]

/-- `find_wl_entry` finds the highest counter below the bound, if it does not overflow. -/
theorem findWlEntry_found (h : s.FreeTree) (hlow : s.Lowest low) (hpos : 0 < max)
    (hle : max + low ≤ intMax) :
    ∃ e ∈ inorder s.free, s.findWlEntry s.free max = some e ∧ s.ec e < max + low ∧
      ∀ x ∈ inorder s.free, s.ec x < max + low → s.ec x ≤ s.ec e := by
  obtain ⟨first, hfirst, hmem, rfl⟩ := h.first_lowest hlow
  obtain ⟨below, hbelow⟩ : ∃ p : Nat → Bool, p = fun x => !decide (s.ec x ≥ max + s.ec first) :=
    ⟨_, rfl⟩
  have hp : ∀ x, below x = true ↔ s.ec x < max + s.ec first := fun x => by simp [hbelow]
  have hclosed : (inorder s.free).Pairwise fun a b => below b = true → below a = true :=
    h.monotone.imp fun hab hb => (hp _).mpr (Nat.lt_of_le_of_lt hab ((hp _).mp hb))
  have hne : (inorder s.free).filter below ≠ [] := by
    refine List.ne_nil_of_mem (a := first) (List.mem_filter.mpr ⟨hmem, (hp _).mpr ?_⟩)
    omega
  have hsearch := SearchTree.search_eq hclosed first
  rw [List.getLast?_eq_some_getLast hne, Option.getD_some] at hsearch
  have hin := List.mem_filter.mp (List.getLast_mem hne)
  refine ⟨_, hin.1, ?_, (hp _).mp hin.2, fun x hx hlt => ?_⟩
  · rw [← hsearch, hbelow]
    simp only [findWlEntry, hfirst, addInt, if_pos hle]
  · have : Std.Refl fun a b => s.ec a ≤ s.ec b := ⟨fun a => Nat.le_refl _⟩
    exact (h.monotone.sublist List.filter_sublist).rel_getLast
      (List.mem_filter.mpr ⟨hx, (hp x).mpr hlt⟩)

/-- When the bound holds. -/
def Bounded (s : Info) (low : Nat) : Dtype → Prop
  | .longterm => low + wlFreeMaxDiff ≤ intMax
  | .shortterm => True
  | .unknown =>
    (∀ x ∈ inorder s.free, s.ec x < low + wlFreeMaxDiff) ∨
      low + (low + wlFreeMaxDiff) / 2 ≤ intMax ∧ low + wlFreeMaxDiff ≤ intMax ∧
        ∀ x ∈ inorder s.free, s.ec x < low + wlFreeMaxDiff ∨
          low + (low + wlFreeMaxDiff) / 2 ≤ s.ec x

/-- What is picked is in bounds. -/
def InBounds (s : Info) (low : Nat) (dtype : Dtype) (e : Nat) : Prop :=
  e ∈ inorder s.free ∧ s.ec e < low + wlFreeMaxDiff ∧ (dtype = .shortterm → s.ec e = low)

/-- The PEB that is picked is within its limit, exactly if the erase counters allow for it. -/
theorem pick_bounded_iff (h : s.FreeTree) (hlow : s.Lowest low) (dtype : Dtype) :
    (∃ e, s.pick dtype = some e ∧ s.InBounds low dtype e) ↔ s.Bounded low dtype := by
  have hdiff : 2 ≤ wlFreeMaxDiff := by decide
  obtain ⟨first, hfirst, hfmem, hfec⟩ := h.first_lowest hlow
  cases dtype with
  | shortterm =>
    refine ⟨fun _ => trivial, fun _ => ⟨first, hfirst, hfmem, ?_, fun _ => hfec⟩⟩
    omega
  | longterm =>
    by_cases hle : low + wlFreeMaxDiff ≤ intMax
    · refine ⟨fun _ => hle, fun _ => ?_⟩
      obtain ⟨e, hmem, hfind, hlt, -⟩ := findWlEntry_found h hlow (Nat.zero_lt_of_lt hdiff) (by omega)
      exact ⟨e, hfind, hmem, by omega, nofun⟩
    · refine ⟨fun hpick => ?_, fun hb => absurd hb hle⟩
      obtain ⟨e, he, -⟩ := hpick
      rw [pick, findWlEntry_overflow h hlow (by omega)] at he
      cases he
  | unknown =>
    obtain ⟨last, hlast, hlmem, hlmax⟩ := h.last_highest
    obtain ⟨root, l, r, hroot⟩ : ∃ root l r, s.free = .node root l r := by
      cases hf : s.free with
      | nil => exact absurd (by rw [hf]; rfl) h.nonempty
      | node root l r => exact ⟨root, l, r, rfl⟩
    have hllow := hlow.le hlmem
    by_cases hall : s.ec last < low + wlFreeMaxDiff
    · -- the root of the tree is taken, whatever it is
      have hsub : s.ec last - s.ec first < wlFreeMaxDiff := by omega
      have hpick : s.pick .unknown = some root := by
        rw [hroot] at hfirst hlast
        simp only [pick, hroot, hfirst, hlast, if_pos hsub]
      have hin : root ∈ inorder s.free := by
        rw [hroot, SearchTree.inorder_node]
        exact List.mem_append_right _ (List.mem_cons_self ..)
      have hbelow : ∀ x ∈ inorder s.free, s.ec x < low + wlFreeMaxDiff :=
        fun x hx => Nat.lt_of_le_of_lt (hlmax x hx) hall
      exact ⟨fun _ => .inl hbelow, fun _ => ⟨root, hpick, hin, hbelow root hin, nofun⟩⟩
    · have hsub : ¬s.ec last - s.ec first < wlFreeMaxDiff := by omega
      have hspread : ¬∀ x ∈ inorder s.free, s.ec x < low + wlFreeMaxDiff := fun hx =>
        hall (hx last hlmem)
      by_cases hsum : low + wlFreeMaxDiff ≤ intMax
      · have hadd : addInt (s.ec first) wlFreeMaxDiff = some (s.ec first + wlFreeMaxDiff) :=
          if_pos (hfec ▸ hsum)
        have hpick : s.pick .unknown = s.findWlEntry s.free ((low + wlFreeMaxDiff) / 2) := by
          rw [hroot] at hfirst hlast
          simp only [pick, hroot, hfirst, hlast, hadd, if_neg hsub]
          rw [hfec]
        by_cases hle : low + (low + wlFreeMaxDiff) / 2 ≤ intMax
        · have hpos : 0 < (low + wlFreeMaxDiff) / 2 := by omega
          obtain ⟨e, hmem, hfind, hlt, hbest⟩ := findWlEntry_found h hlow hpos (by omega)
          constructor
          · rintro ⟨e', hpick', -, hlt', -⟩
            obtain rfl : e' = e := Option.some.inj ((hpick'.symm.trans hpick).trans hfind)
            refine .inr ⟨hle, hsum, fun x hx => ?_⟩
            by_contra hgap
            have := hbest x hx (by omega)
            omega
          · rintro (hx | ⟨-, -, hgap⟩)
            · exact absurd hx hspread
            · refine ⟨e, hpick.trans hfind, hmem, ?_, nofun⟩
              have := hgap e hmem
              omega
        · constructor
          · rintro ⟨e, he, -⟩
            rw [hpick, findWlEntry_overflow h hlow (by omega)] at he
            cases he
          · rintro (hx | ⟨hle', -⟩)
            · exact absurd hx hspread
            · exact absurd hle' hle
      · have hadd : addInt (s.ec first) wlFreeMaxDiff = none := if_neg (hfec ▸ hsum)
        have hpick : s.pick .unknown = none := by
          rw [hroot] at hfirst hlast
          simp only [pick, hroot, hfirst, hlast, hadd, if_neg hsub]
        constructor
        · rintro ⟨e, he, -⟩
          rw [hpick] at he
          cases he
        · rintro (hx | ⟨-, hsum', -⟩)
          · exact absurd hx hspread
          · exact absurd hsum' hsum

variable {rb : RbErase} {g : Geometry} {doWork : Info → Int × Info} {fuel : Nat} {env : Env}

@[simp] theorem setFlash_free (s : Info) (e : Nat) (p : Peb) : (s.setFlash e p).free = s.free := rfl

/-- Erasing a PEB does not change the tree of free ones. -/
theorem syncErase_free (s : Info) (e : Nat) : (syncErase g env s e).2.free = s.free := by
  simp only [syncErase]
  split
  · rfl
  · split
    · rfl
    · split
      · rfl
      · split <;> rfl

/-- `ubi_wl_get_peb` when there is a free PEB. -/
theorem getPeb_free (hfree : inorder s.free ≠ []) :
    s.getPeb rb g doWork (fuel + 1) env dtype = (s.pick dtype).map fun e : Nat =>
      ((e : Int), (syncErase g env ({ s with free := rb.erase s.free e }.protQueueAdd e) e).2) := by
  have hwait : waitFree doWork (fuel + 1) s = some (0, s) := by
    rw [waitFree, if_neg (by simpa using hfree)]
  simp only [getPeb, hwait, if_neg (Int.lt_irrefl 0)]
  cases s.pick dtype <;> rfl

/-- `ubi_wl_get_peb` takes a PEB with a counter in bounds from the free tree, exactly when the
    tree is no trap for it. -/
theorem getPeb_bounded_iff (rb : RbErase) (g : Geometry) (doWork : Info → Int × Info) (fuel : Nat)
    (env : Env) (dtype : Dtype) (h : s.FreeTree) (hlow : s.Lowest low) :
    (∃ (e : Nat) (s' : Info), s.getPeb rb g doWork (fuel + 1) env dtype = some ((e : Int), s') ∧
      e ∈ inorder s.free ∧ inorder s'.free = (inorder s.free).erase e ∧
      s.ec e < low + wlFreeMaxDiff ∧ (dtype = .shortterm → s.ec e = low)) ↔
    s.Bounded low dtype := by
  rw [← pick_bounded_iff h hlow dtype, getPeb_free h.nonempty]
  constructor
  · rintro ⟨e, s', hget, hmem, -, hbound⟩
    obtain ⟨e', hpick, he⟩ := Option.map_eq_some_iff.mp hget
    obtain rfl : e' = e := Int.ofNat.inj (congrArg Prod.fst he)
    exact ⟨e', hpick, hmem, hbound⟩
  · rintro ⟨e, hpick, hmem, hbound⟩
    refine ⟨e, _, by rw [hpick]; rfl, hmem, ?_, hbound⟩
    rw [syncErase_free]
    exact rb.inorder_erase hmem

end Info

/-! ### Three worn PEBs -/

/-- The two trees side by side. -/
def join : BinaryTree Nat → BinaryTree Nat → BinaryTree Nat
  | .nil, t => t
  | .node a l r, t => .node a l (join r t)

/-- A way to take an entry out of a tree: its left subtree is hung below the leftmost entry of the
    right one. -/
def eraseNode : BinaryTree Nat → Nat → BinaryTree Nat
  | .nil, _ => .nil
  | .node a l r, e =>
    if e ∈ inorder l then .node a (eraseNode l e) r
    else if a = e then join l r
    else .node a l (eraseNode r e)

/-- An entry that is removed leaves its subtrees in order. -/
theorem inorder_join (l r : BinaryTree Nat) : inorder (join l r) = inorder l ++ inorder r := by
  induction l with
  | nil => rfl
  | node a l r' _ ih => simp [join, ih]

/-- Erasing without balancing. -/
def unbalanced : RbErase where
  erase := eraseNode
  inorder_erase {t e} h := by
    induction t with
    | nil => cases h
    | node a l r ihl ihr =>
      rw [SearchTree.inorder_node] at h ⊢
      by_cases hl : e ∈ inorder l
      · rw [eraseNode, if_pos hl, SearchTree.inorder_node, ihl hl, List.erase_append_left _ hl]
      · rw [eraseNode, if_neg hl, List.erase_append_right _ hl]
        by_cases ha : a = e
        · rw [if_pos ha, ha, List.erase_cons_head, inorder_join]
        · have hr : e ∈ inorder r := by
            rcases List.mem_append.mp h with h | h
            · exact absurd h hl
            · exact (List.mem_cons.mp h).resolve_left fun he => ha he.symm
          rw [if_neg ha, SearchTree.inorder_node, ihr hr,
            List.erase_cons_tail (by simpa using ha)]

theorem peb128k_lt : 131072 < 2 ^ 31 := by decide

/-- NAND with pages of 2048 bytes. -/
def nand : Geometry where
  pebSize := 131072
  hdrsMinIoSize := 2048
  vidHdrOffset := 2048
  lebStart := 4096
  imageSeq := 0
  norFlash := false
  crc32 _ := 0
  io := ⟨11, rfl⟩
  ecHdr_le := by decide
  vidHdr_le := by decide
  lebStart_le := by decide
  pebSize_lt := peb128k_lt

/-- Nothing fails. -/
def calm : Env where
  alloc := true
  norWriteEc := .done
  norWriteVid := .done
  norReadVid := 0
  norReadEc := 0
  erase _ := .done
  writeEcHdr := .done

/-- Free PEBs with the counters 1000, 1100 and `ec`. -/
def threeFree (ec : Nat) : Info where
  ec pnum := if pnum = 0 then 1000 else if pnum = 1 then 1100 else ec
  free := .node 1 (.node 0 .nil .nil) (.node 2 .nil .nil)
  pq _ := []
  pqHead := 0
  worksCount := 0
  maxEc := ec
  roMode := false
  flash _ := .erased

/-- The example is a tree of free PEBs. -/
theorem threeFree_freeTree {ec : Nat} (h : 1100 < ec) (hle : ec ≤ ubiMaxErasecounter) :
    (threeFree ec).FreeTree where
  nonempty := by simp [threeFree]
  ordered := by
    simp [threeFree]
    omega
  ec_le he := by
    have hmax : 1100 < ubiMaxErasecounter := by decide
    simp only [threeFree, SearchTree.inorder_node, SearchTree.inorder_nil, List.nil_append,
      List.cons_append, List.mem_cons, List.not_mem_nil, or_false] at he
    rcases he with rfl | rfl | rfl
    · exact Nat.le_trans (by decide : 1000 ≤ 1100) (Nat.le_of_lt hmax)
    · exact Nat.le_of_lt hmax
    · exact hle

theorem threeFree_lowest {ec : Nat} (h : 1100 < ec) : (threeFree ec).Lowest 1000 where
  attained := ⟨0, by simp [threeFree], rfl⟩
  le {e} _ := by
    show 1000 ≤ if e = 0 then 1000 else if e = 1 then 1100 else ec
    split
    · exact Nat.le_refl _
    · split
      · decide
      · omega

open Info in

/-- With the third counter at 1800 the PEB in the middle is within the limit. -/
theorem getPeb_bounded_threeFree : ∃ (e : Nat) (s' : Info),
    (threeFree 1800).getPeb unbalanced nand (fun s => (0, s)) 1 calm .unknown =
      some ((e : Int), s') ∧
    e ∈ inorder (threeFree 1800).free ∧
    inorder s'.free = (inorder (threeFree 1800).free).erase e ∧
    (threeFree 1800).ec e < 1000 + wlFreeMaxDiff ∧
    (Dtype.unknown = .shortterm → (threeFree 1800).ec e = 1000) := by
  have h : (threeFree 1800).FreeTree := threeFree_freeTree (by decide) (by decide)
  refine (getPeb_bounded_iff unbalanced nand (fun s => (0, s)) 0 calm .unknown h
    (threeFree_lowest (by decide))).mpr (.inr ⟨by decide, by decide, ?_⟩)
  decide

/-- A PEB with the counter 1600 is taken, though there is one with 1000. -/
theorem medium_peb_too_worn : (threeFree 1600).FreeTree ∧ (threeFree 1600).Lowest 1000 ∧
    (threeFree 1600).ec 2 = 1600 ∧ ¬1600 < 1000 + wlFreeMaxDiff ∧
    ∃ s', (threeFree 1600).getPeb unbalanced nand (fun s => (0, s)) 1 calm .unknown =
      some ((2 : Int), s') := by
  refine ⟨threeFree_freeTree (by decide) (by decide), threeFree_lowest (by decide), rfl,
    by decide, ?_⟩
  have hpick : (threeFree 1600).pick .unknown = some 2 := by decide
  rw [Info.getPeb_free (by simp [threeFree]), hpick]
  exact ⟨_, rfl⟩

/-! ## What is on them -/

section

variable {g : Geometry} {env : Env} {r r' : EraseResult}

/-- The attempts to erase end with this result. -/
def Env.Ends (env : Env) (r : EraseResult) : Prop :=
  ∃ k ≤ ubiIoRetries, (∀ j < k, (env.erase j).retried = true) ∧ env.erase k = r ∧
    (k < ubiIoRetries → r.retried = false)

/-- The attempts to erase end in one way. -/
theorem Env.Ends.unique (h : env.Ends r) (h' : env.Ends r') : r = r' := by
  obtain ⟨k, hk, hbefore, rfl, hlast⟩ := h
  obtain ⟨k', hk', hbefore', rfl, hlast'⟩ := h'
  rcases Nat.lt_trichotomy k k' with hlt | rfl | hlt
  · have := hlast (Nat.lt_of_lt_of_le hlt hk')
    rw [hbefore' k hlt] at this
    cases this
  · rfl
  · have := hlast' (Nat.lt_of_lt_of_le hlt hk)
    rw [hbefore k' hlt] at this
    cases this

/-- The loop ends with the first attempt that is not to be repeated, or with the last. -/
theorem eraseLoop_eq (env : Env) (n k : Nat) :
    ∃ j ≤ n, (∀ i < j, (env.erase (k + i)).retried = true) ∧
      (j < n → (env.erase (k + j)).retried = false) ∧
      eraseLoop env n k = (env.erase (k + j)).outcome := by
  induction n generalizing k with
  | zero => exact ⟨0, Nat.le_refl 0, nofun, nofun, rfl⟩
  | succ n ih =>
    cases hr : (env.erase k).retried with
    | true =>
      obtain ⟨j, hj, hbefore, hlast, hloop⟩ := ih (k + 1)
      rw [show k + 1 + j = k + (j + 1) by omega] at hlast hloop
      refine ⟨j + 1, Nat.succ_le_succ hj, fun i hi => ?_,
        fun hlt => hlast (Nat.lt_of_succ_lt_succ hlt), ?_⟩
      · cases i with
        | zero => exact hr
        | succ i =>
          have := hbefore i (Nat.lt_of_succ_lt_succ hi)
          rwa [show k + 1 + i = k + (i + 1) by omega] at this
      · rw [eraseLoop, if_pos hr, hloop]
    | false =>
      refine ⟨0, Nat.zero_le _, nofun, fun _ => hr, ?_⟩
      rw [eraseLoop, hr]
      rfl

/-- So erasing ends with that attempt. -/
theorem doSyncErase_eq (env : Env) : ∃ r, env.Ends r ∧ doSyncErase env = r.outcome := by
  obtain ⟨j, hj, hbefore, hlast, hloop⟩ := eraseLoop_eq env ubiIoRetries 0
  simp only [Nat.zero_add] at hbefore hlast hloop
  exact ⟨env.erase j, ⟨j, hj, hbefore, rfl, hlast⟩, hloop⟩

/-- Erasing that was not done is an error. -/
theorem EraseResult.outcome_neg (h : r ≠ .done) : r.outcome.1 < 0 := by
  cases r with
  | done => exact absurd rfl h
  | error err left => exact err.neg
  | failed left => exact (by decide : -eio < 0)
  | interrupted left => exact (by decide : -eintr < 0)

/-- The preparation for NOR flash fails with an error, too. -/
theorem norErasePrepare_neg {p : Peb} (h : (norErasePrepare g env p).1 ≠ 0) :
    (norErasePrepare g env p).1 < 0 := by
  have heio : -eio < 0 := by decide
  unfold norErasePrepare at h ⊢
  dsimp only at h ⊢
  split at h
  · split at h
    · exact absurd rfl h
    · rename_i hec hvid
      rw [if_pos hec, if_neg hvid]
      split at h
      · exact absurd rfl h
      · rename_i hgarbage
        rw [if_neg hgarbage]
        exact heio
  · rename_i hec
    rw [if_neg hec]
    split at h
    · exact absurd rfl h
    · rename_i hgarbage
      rw [if_neg hgarbage]
      exact heio

/-- An erased PEB without a header is not clean. -/
theorem Peb.not_clean_erased (ec : Nat) : ¬Peb.Clean g .erased ec := by
  intro h
  obtain ⟨h, hread, -⟩ := h.header
  have hmagic : (EcHdr.parse (Peb.erased.read 0 ubiEcHdrSize)).magic ≠ ubiEcHdrMagic := by
    decide +kernel
  simp only [ubiIoReadEcHdr, if_pos hmagic] at hread
  cases hread

/-- The header is written with its padding. -/
theorem length_ecHdrBuf (g : Geometry) (ec : Nat) : (ecHdrBuf g ec).length = g.ecHdrAlsize := by
  have := g.ecHdrSize_le
  simp only [ecHdrBuf, List.length_append, EcHdr.length_bytes, EcHdr.length_padding]
  omega

/-- A new header makes an erased PEB clean, unless it reaches into the I/O unit of the VID
    header. -/
theorem Peb.clean_put_iff {ec : Nat} (h : ec ≤ ubiMaxErasecounter) :
    Peb.Clean g (Peb.erased.put 0 (ecHdrBuf g ec)) ec ↔ g.ecHdrAlsize ≤ g.vidHdrAloffset := by
  constructor
  · intro hc
    refine g.vidHdrAloffset_cases.resolve_left fun h0 => ?_
    have hsize : 0 < g.pebSize := by
      have := g.lebStart_le
      have : 0 < ubiVidHdrSize := by decide
      omega
    have hff := hc.empty (Nat.le_of_eq h0) hsize
    have hmagic : BigEndian.encode 4 ubiEcHdrMagic = [0x55, 0x42, 0x49, 0x23] := by decide +kernel
    have hlen : 0 < (ecHdrBuf g ec).length := by
      rw [length_ecHdrBuf]
      exact Nat.lt_of_lt_of_le (by decide) g.ecHdrSize_le
    have hfirst : (ecHdrBuf g ec).getD 0 0 = 0x55 := by
      simp [ecHdrBuf, EcHdr.bytes, EcHdr.body, newEcHdr, hmagic]
    rw [Peb.put, if_pos ⟨Nat.le_refl 0, by omega⟩, hfirst] at hff
    exact absurd hff (by decide)
  · intro hle
    refine ⟨⟨_, Peb.readEcHdr_put g h, rfl⟩, fun hi _ => ?_⟩
    rw [Peb.put_behind _ (by rw [length_ecHdrBuf]; omega)]
    rfl

namespace Info

variable {s : Info} {e : Nat}

/-- When what `sync_erase` leaves on a PEB can be handed out: it succeeds, and the headers do not
    share an I/O unit; or what it fails with leaves a clean PEB. -/
def Handed (g : Geometry) (env : Env) (s : Info) (e : Nat) : Prop :=
  if env.alloc = false ∨ s.roMode = true then (s.flash e).Clean g (s.ec e)
  else if g.norFlash = true ∧ (norErasePrepare g env (s.flash e)).1 ≠ 0 then
    (norErasePrepare g env (s.flash e)).2.Clean g (s.ec e)
  else
    (∃ r, env.Ends r ∧ r ≠ .done ∧ r.outcome.2.Clean g (s.ec e)) ∨
      env.Ends .done ∧ s.ec e < ubiMaxErasecounter ∧
        match env.writeEcHdr with
        | .done => g.ecHdrAlsize ≤ g.vidHdrAloffset
        | .error _ left => (Peb.erased.spoil 0 g.ecHdrAlsize left).Clean g (s.ec e)

@[simp] theorem setFlash_flash (s : Info) (e : Nat) (p : Peb) : (s.setFlash e p).flash e = p :=
  Function.update_self ..

@[simp] theorem setFlash_ec (s : Info) (e : Nat) (p : Peb) : (s.setFlash e p).ec = s.ec := rfl

@[simp] theorem setFlash_roMode (s : Info) (e : Nat) (p : Peb) :
    (s.setFlash e p).roMode = s.roMode := rfl

/-- An error leaves the PEB as the attempts left it. -/
theorem syncErase_failed {res : Int × Peb} (halloc : env.alloc = true)
    (hio : ubiIoSyncErase g env s.roMode (s.flash e) = res) (hneg : res.1 < 0) :
    syncErase g env s e = (res.1, s.setFlash e res.2) := by
  simp [syncErase, halloc, hio, hneg]

/-- `sync_erase` of a PEB that is erased. -/
theorem syncErase_erased {p : Peb} (halloc : env.alloc = true) (hro : s.roMode = false)
    (hio : ubiIoSyncErase g env false (s.flash e) = (1, p)) :
    (s.ec e < ubiMaxErasecounter ∧ env.writeEcHdr = .done ∧
        (syncErase g env s e).2.flash e = p.put 0 (ecHdrBuf g (s.ec e + 1)) ∧
        (syncErase g env s e).2.ec e = s.ec e + 1) ∨
      (s.ec e < ubiMaxErasecounter ∧ ∃ err left, env.writeEcHdr = .error err left ∧
        (syncErase g env s e).2.flash e = p.spoil 0 g.ecHdrAlsize left ∧
        (syncErase g env s e).2.ec e = s.ec e) ∨
      (¬s.ec e < ubiMaxErasecounter ∧ (syncErase g env s e).2.flash e = p ∧
        (syncErase g env s e).2.ec e = s.ec e) := by
  by_cases hec : s.ec e < ubiMaxErasecounter
  · have hec' : ¬ubiMaxErasecounter < s.ec e + 1 := by omega
    cases hw : env.writeEcHdr with
    | done =>
      refine .inl ⟨hec, rfl, ?_⟩
      simp [syncErase, halloc, hro, hio, hec', ubiIoWriteEcHdr, mtdWrite, hw]
    | error err left =>
      refine .inr (.inl ⟨hec, err, left, rfl, ?_⟩)
      have hne : err.val ≠ 0 := Int.ne_of_lt err.neg
      simp [syncErase, halloc, hro, hio, hec', ubiIoWriteEcHdr, mtdWrite, hw, hne,
        length_ecHdrBuf]
  · have hec' : ubiMaxErasecounter < s.ec e + 1 := by omega
    refine .inr (.inr ⟨hec, ?_⟩)
    simp [syncErase, halloc, hro, hio, hec']

/-- Erasing leaves a clean PEB exactly if the header could be written behind a good attempt. -/
theorem syncErase_clean_iff (g : Geometry) (env : Env) (s : Info) (e : Nat) :
    ((syncErase g env s e).2.flash e).Clean g ((syncErase g env s e).2.ec e) ↔
      Handed g env s e := by
  unfold Handed
  -- Without memory or in read-only mode nothing is done to the PEB.
  by_cases hstop : env.alloc = false ∨ s.roMode = true
  · rw [if_pos hstop]
    cases halloc : env.alloc with
    | false => simp [syncErase, halloc]
    | true =>
      have hro : s.roMode = true := hstop.resolve_left (by simp [halloc])
      have hio : ubiIoSyncErase g env s.roMode (s.flash e) = (-erofs, s.flash e) := if_pos hro
      have hneg : -erofs < 0 := by decide
      rw [syncErase_failed halloc hio hneg, setFlash_flash, setFlash_ec]
  · rw [if_neg hstop]
    obtain ⟨halloc, hro⟩ := not_or.mp hstop
    rw [Bool.not_eq_false] at halloc
    rw [Bool.not_eq_true] at hro
    -- A NOR chip whose headers could not be overwritten is not erased either.
    by_cases hprep : g.norFlash = true ∧ (norErasePrepare g env (s.flash e)).1 ≠ 0
    · rw [if_pos hprep]
      have hio : ubiIoSyncErase g env s.roMode (s.flash e) = norErasePrepare g env (s.flash e) := by
        simp [ubiIoSyncErase, hro, hprep.1, hprep.2]
      rw [syncErase_failed halloc hio (norErasePrepare_neg hprep.2), setFlash_flash, setFlash_ec]
    · rw [if_neg hprep]
      obtain ⟨r, hr, herase⟩ := doSyncErase_eq env
      have hprep' : ¬(if g.norFlash then norErasePrepare g env (s.flash e)
          else (0, s.flash e)).1 ≠ 0 := by
        split
        · rename_i hnor
          exact fun h => hprep ⟨hnor, h⟩
        · exact fun h => h rfl
      -- The last attempt was good or not; in the first case it is the header that counts.
      by_cases hdone : r = .done
      · subst hdone
        have hio : ubiIoSyncErase g env false (s.flash e) = (1, Peb.erased) := by
          simp only [ubiIoSyncErase, Bool.false_eq_true, if_false, if_neg hprep', herase,
            EraseResult.outcome]
          rfl
        have hleft : ¬∃ r, env.Ends r ∧ r ≠ .done ∧ r.outcome.2.Clean g (s.ec e) := by
          rintro ⟨r, hr', hne, -⟩
          exact hne (hr'.unique hr)
        rcases syncErase_erased halloc hro hio with ⟨hec, hw, hflash, hcnt⟩ |
          ⟨hec, err, left, hw, hflash, hcnt⟩ | ⟨hec, hflash, hcnt⟩
        · rw [hflash, hcnt, Peb.clean_put_iff hec]
          simp [hleft, hr, hec, hw]
        · rw [hflash, hcnt]
          simp [hleft, hr, hec, hw]
        · rw [hflash, hcnt]
          simp [hleft, hec, Peb.not_clean_erased]
      · have hneg := EraseResult.outcome_neg hdone
        have hio : ubiIoSyncErase g env s.roMode (s.flash e) = r.outcome := by
          simp only [ubiIoSyncErase, hro, Bool.false_eq_true, if_false, if_neg hprep', herase]
          exact if_pos (Int.ne_of_lt hneg)
        rw [syncErase_failed halloc hio hneg, setFlash_flash, setFlash_ec]
        constructor
        · exact fun hc => .inl ⟨r, hr, hdone, hc⟩
        · rintro (⟨r', hr', -, hc⟩ | ⟨hends, -⟩)
          · rwa [hr'.unique hr] at hc
          · exact absurd (hends.unique hr).symm hdone

/-- Waiting for a free PEB ends with an error or with one. -/
theorem waitFree_cases {doWork : Info → Int × Info} {fuel : Nat} {err : Int} {s₁ : Info}
    (h : s.waitFree doWork fuel = some (err, s₁)) : err < 0 ∨ err = 0 := by
  induction fuel generalizing s with
  | zero => cases h
  | succ fuel ih =>
    unfold waitFree at h
    split at h
    · split at h
      · obtain ⟨rfl, -⟩ := Prod.mk.inj (Option.some.inj h)
        exact .inl (by decide)
      · split at h
        · cases h
        · split at h
          next hneg =>
            obtain ⟨rfl, -⟩ := Prod.mk.inj (Option.some.inj h)
            exact .inl hneg
          next => exact ih h
    · obtain ⟨rfl, -⟩ := Prod.mk.inj (Option.some.inj h)
      exact .inr rfl

/-- Whether the PEB that `ubi_wl_get_peb` returns is clean. -/
theorem getPeb_clean_iff (rb : RbErase) (g : Geometry) (doWork : Info → Int × Info) (fuel : Nat)
    (env : Env) (dtype : Dtype) {s' : Info} {ret : Int}
    (h : s.getPeb rb g doWork fuel env dtype = some (ret, s')) (hret : 0 ≤ ret) :
    ∃ (s₁ : Info) (e : Nat), s.waitFree doWork fuel = some (0, s₁) ∧ s₁.pick dtype = some e ∧
      ret = e ∧ ((s'.flash e).Clean g (s'.ec e) ↔ Handed g env s₁ e) := by
  unfold getPeb at h
  split at h
  · cases h
  next err s₁ hwait =>
    rcases waitFree_cases hwait with hneg | rfl
    · rw [if_pos hneg] at h
      obtain ⟨rfl, -⟩ := Prod.mk.inj (Option.some.inj h)
      exact absurd hret (Int.not_le.mpr hneg)
    · rw [if_neg (Int.lt_irrefl 0)] at h
      split at h
      · cases h
      next e hpick =>
        obtain ⟨rfl, rfl⟩ := Prod.mk.inj (Option.some.inj h)
        refine ⟨s₁, e, hwait, hpick, rfl, ?_⟩
        -- neither the tree nor the queue matters
        exact syncErase_clean_iff g env
          ({ s₁ with free := rb.erase s₁.free e }.protQueueAdd e) e

end Info

/-! ### One free PEB -/

/-- A device with one free PEB, which holds `p`. -/
def oneFree (p : Peb) : Info where
  ec _ := 7
  free := .node 0 .nil .nil
  pq _ := []
  pqHead := 0
  worksCount := 0
  maxEc := 7
  roMode := false
  flash _ := p

/-- A free PEB that something was written to before power was cut. -/
def stained : Peb := (Peb.erased.put 0 (ecHdrBuf nand 7)).put 70000 [0]

/-- Erasing stops halfway, every time. -/
def halfErased (p : Peb) : Env :=
  { calm with erase := fun _ => .failed fun i => if i < 65536 then 0xFF else p i }

/-- The one free PEB is handed out, whatever erasing it came to. -/
theorem getPeb_oneFree (p : Peb) (env : Env) :
    (oneFree p).getPeb unbalanced nand (fun s => (0, s)) 1 env .shortterm =
      some (0, (Info.syncErase nand env ({ oneFree p with free := .nil }.protQueueAdd 0) 0).2) := by
  rw [Info.getPeb_free (by simp [oneFree])]
  rfl

/-- If nothing fails, a PEB with dirt in it is handed out clean. -/
theorem getPeb_clean_stained : ∃ s' : Info,
    (oneFree stained).getPeb unbalanced nand (fun s => (0, s)) 1 calm .shortterm = some (0, s') ∧
      (s'.flash 0).Clean nand (s'.ec 0) := by
  obtain ⟨s₁, e, hwait, hpick, he, hiff⟩ := Info.getPeb_clean_iff unbalanced nand
    (fun s => (0, s)) 1 calm .shortterm (getPeb_oneFree stained calm) (Int.le_refl 0)
  obtain rfl : e = 0 := Int.ofNat.inj he.symm
  obtain ⟨-, rfl⟩ := Prod.mk.inj (Option.some.inj hwait)
  refine ⟨_, getPeb_oneFree stained calm, hiff.mpr ?_⟩
  have hends : calm.Ends .done := ⟨0, Nat.zero_le _, nofun, rfl, fun _ => rfl⟩
  have hnot : ¬(calm.alloc = false ∨ (oneFree stained).roMode = true) := by decide
  have hnor : ¬(nand.norFlash = true ∧
      (norErasePrepare nand calm ((oneFree stained).flash 0)).1 ≠ 0) := fun h => nomatch h.1
  rw [Info.Handed, if_neg hnot, if_neg hnor]
  exact .inr ⟨hends, (by decide : 7 < ubiMaxErasecounter),
    (by decide : nand.ecHdrAlsize ≤ nand.vidHdrAloffset)⟩

/-- A PEB is handed out though it could not be erased. -/
theorem half_erased_peb_returned : ∃ s' : Info,
    (oneFree stained).getPeb unbalanced nand (fun s => (0, s)) 1 (halfErased stained) .shortterm =
      some (0, s') ∧ ¬(s'.flash 0).Clean nand (s'.ec 0) := by
  refine ⟨_, getPeb_oneFree stained _, fun hclean => ?_⟩
  have hleft := hclean.empty (i := 70000) (by decide) (by decide)
  let left : Peb := fun i => if i < 65536 then 0xFF else stained i
  have hneg : (-eio, left).1 < 0 := by decide
  rw [Info.syncErase_failed rfl (show _ = (-eio, left) from rfl) hneg, Info.setFlash_flash] at hleft
  exact absurd hleft (by decide)

end

end Ubi.Wl
