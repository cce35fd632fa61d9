/-
  The bytes of the buds are counted right, in every run.

  `Held` says what holds of the buds of a tree and of those taken out of it.  It does not look at the
  tree that the state has, so that it can be carried along the loop of `remove_buds`: there the tree is
  what is left of it, with what was found to stay.

  An old bud is freed when its LEB was returned; `freed` and `returned` remember that, so that no
  bud is freed twice and none is lost (`ids_nodup`).
-/
import FlashStack.Ubifs.Buds

namespace Ubifs.Buds

open Lib
open Log (Geometry Wbuf)

namespace Info

variable {g : Geometry} {s : Info} {tree : List Bud} {bud : Bud} {extra : Int}

/-! ## Trees -/

@[simp] theorem treeBytes_nil : treeBytes g [] = 0 := rfl

/-- Each bud counts from its start to the end of its LEB. -/
@[simp] theorem treeBytes_cons (bud : Bud) (buds : List Bud) :
    treeBytes g (bud :: buds) = ((g.lebSize : Int) - bud.start) + treeBytes g buds := by
  simp [treeBytes]

@[simp] theorem treeBytes_append (l r : List Bud) :
    treeBytes g (l ++ r) = treeBytes g l + treeBytes g r := by
  simp [treeBytes]

/-- In which order the tree has them does not matter. -/
theorem treeBytes_perm {l r : List Bud} (h : l.Perm r) : treeBytes g l = treeBytes g r :=
  (h.map _).sum_eq

/-- A bud is inserted into the tree. -/
theorem insertBud_perm (bud : Bud) (buds : List Bud) : (insertBud bud buds).Perm (bud :: buds) := by
  induction buds with
  | nil => exact .refl _
  | cons b bs ih =>
    rw [insertBud]
    split
    · exact .refl _
    · exact (ih.cons b).trans (.swap bud b bs)

/-- What holds of the buds when `tree` are those in the tree, and `extra` bytes are counted that are in
    none of them. -/
structure Held (g : Geometry) (tree : List Bud) (extra : Int) (s : Info) : Prop where
  ids : ((tree ++ s.oldBuds).map Bud.id ++ s.freed).Perm (List.range s.nextId)
  taken : s.taken.Perm (s.oldBuds.map Bud.id ++ s.freed)
  returned : s.returned = s.freed
  heads : ∀ jhead, (s.heads jhead).Perm ((tree.filter (·.jhead = jhead)).map Bud.id)
  lnums : (tree.map Bud.lnum).Nodup
  starts : ∀ bud ∈ tree, bud.start ≤ g.lebSize
  offs : ∀ jhead, (s.wbufs jhead).offs ≤ g.lebSize
  wbufs : ∀ bud ∈ tree, (s.wbufs bud.jhead).lnum = some bud.lnum →
    bud.start ≤ (s.wbufs bud.jhead).offs
  bytes : s.budBytes = treeBytes g tree + extra
  extra_nonneg : 0 ≤ extra

/-- The invariant, for the buds that are held and the bytes that were replayed. -/
structure Sound (g : Geometry) (s : Info) : Prop where
  held : Held g s.buds s.pending s
  rest : s.stage = .resting → s.oldBuds = []
  bound : s.replaying = false → s.budBytes ≤ max g.maxBudBytes s.replayed
  replay : s.replaying = true → ∀ jhead lnum, (s.wbufs jhead).lnum = some lnum →
    lnum ∈ s.buds.map Bud.lnum

namespace Held

/-- No bud is held twice, and none that is held was freed. -/
theorem ids_nodup (h : Held g tree extra s) :
    ((tree ++ s.oldBuds).map Bud.id ++ s.freed).Nodup :=
  h.ids.nodup_iff.mpr List.nodup_range

theorem tree_nodup (h : Held g tree extra s) : (tree.map Bud.id).Nodup := by
  have h := h.ids_nodup.of_append_left
  rw [List.map_append] at h
  exact h.of_append_left

/-- The order of the tree does not matter. -/
theorem perm {tree' : List Bud} (h : Held g tree extra s) (hperm : tree.Perm tree') :
    Held g tree' extra s where
  ids := (((hperm.symm.append_right _).map _).append_right _).trans h.ids
  taken := h.taken
  returned := h.returned
  heads jhead := (h.heads jhead).trans ((hperm.filter _).map _)
  lnums := (hperm.map _).nodup_iff.mp h.lnums
  starts bud hbud := h.starts bud (hperm.mem_iff.mpr hbud)
  offs := h.offs
  wbufs bud hbud := h.wbufs bud (hperm.mem_iff.mpr hbud)
  bytes := by rw [h.bytes, treeBytes_perm hperm]
  extra_nonneg := h.extra_nonneg

/-- Only these fields matter. -/
theorem congr {s' : Info} (h : Held g tree extra s) (hold : s'.oldBuds = s.oldBuds)
    (hfreed : s'.freed = s.freed) (hreturned : s'.returned = s.returned)
    (htaken : s'.taken = s.taken) (hnext : s'.nextId = s.nextId) (hheads : s'.heads = s.heads)
    (hwbufs : s'.wbufs = s.wbufs) (hbytes : s'.budBytes = s.budBytes) : Held g tree extra s' := by
  constructor
  · rw [hold, hfreed, hnext]
    exact h.ids
  · rw [htaken, hold, hfreed]
    exact h.taken
  · rw [hreturned, hfreed]
    exact h.returned
  · rw [hheads]
    exact h.heads
  · exact h.lnums
  · exact h.starts
  · rw [hwbufs]
    exact h.offs
  · rw [hwbufs]
    exact h.wbufs
  · rw [hbytes]
    exact h.bytes
  · exact h.extra_nonneg

/-- A head moves to where none of its buds is passed over. -/
theorem wbuf {jhead offs : Nat} {lnum : Option Nat} (h : Held g tree extra s)
    (hoffs : offs ≤ g.lebSize)
    (hbud : ∀ bud ∈ tree, bud.jhead = jhead → lnum = some bud.lnum → bud.start ≤ offs) :
    Held g tree extra { s with wbufs := Function.update s.wbufs jhead ⟨lnum, offs⟩ } where
  ids := h.ids
  taken := h.taken
  returned := h.returned
  heads := h.heads
  lnums := h.lnums
  starts := h.starts
  offs i := by
    dsimp only
    by_cases hi : i = jhead
    · subst hi
      rw [Function.update_self]
      exact hoffs
    · rw [Function.update_of_ne hi]
      exact h.offs i
  wbufs bud hmem hlnum := by
    dsimp only at hlnum ⊢
    by_cases hi : bud.jhead = jhead
    · rw [hi, Function.update_self] at hlnum ⊢
      exact hbud bud hmem hi hlnum
    · rw [Function.update_of_ne hi] at hlnum ⊢
      exact h.wbufs bud hmem hlnum
  bytes := h.bytes
  extra_nonneg := h.extra_nonneg

/-- A bud is added. -/
theorem addBud {lnum start jhead : Nat} (h : Held g tree extra s) (hstart : start ≤ g.lebSize)
    (hnew : lnum ∉ tree.map Bud.lnum)
    (hwbuf : (s.wbufs jhead).lnum = some lnum → start ≤ (s.wbufs jhead).offs) :
    Held g (⟨s.nextId, lnum, start, jhead⟩ :: tree) extra (s.ubifsAddBud g lnum start jhead) where
  ids := by
    have hrange : List.range (s.nextId + 1) = List.range s.nextId ++ [s.nextId] := List.range_succ
    show (s.nextId :: ((tree ++ s.oldBuds).map Bud.id ++ s.freed)).Perm _
    rw [show (s.ubifsAddBud g lnum start jhead).nextId = s.nextId + 1 from rfl, hrange]
    exact (h.ids.cons _).trans (List.perm_append_singleton _ _).symm
  taken := h.taken
  returned := h.returned
  heads i := by
    show (Function.update s.heads jhead (s.heads jhead ++ [s.nextId]) i).Perm _
    by_cases hi : i = jhead
    · subst hi
      rw [Function.update_self, List.filter_cons_of_pos (by simp), List.map_cons]
      exact List.perm_append_comm.trans ((h.heads i).cons _)
    · rw [Function.update_of_ne hi, List.filter_cons_of_neg (by simpa using Ne.symm hi)]
      exact h.heads i
  lnums := List.nodup_cons.mpr ⟨hnew, h.lnums⟩
  starts bud hbud := by
    rcases List.mem_cons.mp hbud with rfl | hbud
    · exact hstart
    · exact h.starts bud hbud
  offs := h.offs
  wbufs bud hbud := by
    rcases List.mem_cons.mp hbud with rfl | hbud
    · exact hwbuf
    · exact h.wbufs bud hbud
  bytes := by
    show s.budBytes + ((g.lebSize : Int) - start) = _
    rw [treeBytes_cons, h.bytes]
    dsimp only
    omega
  extra_nonneg := h.extra_nonneg

end Held

/-! ## The start of a commit -/

section Remove

variable {l r : List Bud}

/-- The bud that its head points to begins where the head is. -/
theorem Held.keep (h : Held g (l ++ bud :: r) extra s)
    (hwbuf : (s.wbufs bud.jhead).lnum = some bud.lnum) :
    Held g (l ++ { bud with start := (s.wbufs bud.jhead).offs } :: r)
      (extra + (((s.wbufs bud.jhead).offs : Int) - bud.start)) s where
  ids := by simpa using h.ids
  taken := h.taken
  returned := h.returned
  heads jhead := by
    have hheads := h.heads jhead
    by_cases hj : bud.jhead = jhead
    · simpa [List.filter_append, List.filter_cons, hj] using hheads
    · simpa [List.filter_append, List.filter_cons, hj] using hheads
  lnums := by simpa using h.lnums
  starts b hb := by
    rcases List.mem_append.mp hb with hb | hb
    · exact h.starts b (List.mem_append_left _ hb)
    rcases List.mem_cons.mp hb with rfl | hb
    · exact h.offs _
    · exact h.starts b (List.mem_append_right _ (List.mem_cons_of_mem _ hb))
  offs := h.offs
  wbufs b hb := by
    rcases List.mem_append.mp hb with hb | hb
    · exact h.wbufs b (List.mem_append_left _ hb)
    rcases List.mem_cons.mp hb with rfl | hb
    · exact fun _ => Nat.le_refl _
    · exact h.wbufs b (List.mem_append_right _ (List.mem_cons_of_mem _ hb))
  bytes := by
    rw [h.bytes]
    simp only [treeBytes_append, treeBytes_cons]
    omega
  extra_nonneg := by
    have hle := h.wbufs bud (List.mem_append_right _ List.mem_cons_self) hwbuf
    have := h.extra_nonneg
    omega

/-- The bud goes over to the old ones. -/
theorem Held.take (h : Held g (l ++ bud :: r) extra s) :
    Held g (l ++ r) (extra + ((g.lebSize : Int) - bud.start))
      { s with
        heads := Function.update s.heads bud.jhead ((s.heads bud.jhead).filter (· ≠ bud.id))
        oldBuds := bud :: s.oldBuds
        taken := s.taken ++ [bud.id] } where
  ids := by
    refine List.Perm.trans ?_ h.ids
    refine List.Perm.append_right _ (List.Perm.map _ ?_)
    simp only [List.append_assoc, List.cons_append]
    exact (List.Perm.append_left l List.perm_middle)
  taken := (List.perm_append_comm.trans (h.taken.cons _))
  returned := h.returned
  heads jhead := by
    have hnodup := h.tree_nodup
    rw [List.map_append, List.map_cons] at hnodup
    have hother : ∀ b ∈ l ++ r, b.id ≠ bud.id := by
      intro b hb heq
      have hmid := (List.perm_middle.nodup_iff.mp hnodup)
      refine (List.nodup_cons.mp hmid).1 ?_
      rw [← List.map_append, ← heq]
      exact List.mem_map_of_mem hb
    have hheads := h.heads jhead
    show (Function.update s.heads bud.jhead ((s.heads bud.jhead).filter (· ≠ bud.id)) jhead).Perm _
    -- The bud leaves the list of its journal head only.
    by_cases hj : jhead = bud.jhead
    · subst hj
      rw [Function.update_self]
      have hsame : ((l ++ r).filter (·.jhead = bud.jhead)).map Bud.id =
          (((l ++ bud :: r).filter (·.jhead = bud.jhead)).map Bud.id).filter (· ≠ bud.id) := by
        have hrest : (((l ++ r).filter (·.jhead = bud.jhead)).map Bud.id).filter (· ≠ bud.id) =
            ((l ++ r).filter (·.jhead = bud.jhead)).map Bud.id := by
          refine List.filter_eq_self.mpr fun x hx => ?_
          obtain ⟨b, hb, rfl⟩ := List.mem_map.mp hx
          simpa using hother b (List.mem_of_mem_filter hb)
        rw [← hrest]
        simp [List.filter_append]
      rw [hsame]
      exact hheads.filter _
    · rw [Function.update_of_ne hj]
      rw [List.filter_append, List.filter_cons_of_neg (by simpa using Ne.symm hj),
        ← List.filter_append] at hheads
      exact hheads
  lnums := by
    have hl := h.lnums
    rw [List.map_append, List.map_cons] at hl
    have hmid := (List.perm_middle.nodup_iff.mp hl)
    rw [List.map_append]
    exact (List.nodup_cons.mp hmid).2
  starts b hb := by
    rcases List.mem_append.mp hb with hb | hb
    · exact h.starts b (List.mem_append_left _ hb)
    · exact h.starts b (List.mem_append_right _ (List.mem_cons_of_mem _ hb))
  offs := h.offs
  wbufs b hb := by
    rcases List.mem_append.mp hb with hb | hb
    · exact h.wbufs b (List.mem_append_left _ hb)
    · exact h.wbufs b (List.mem_append_right _ (List.mem_cons_of_mem _ hb))
  bytes := by
    -- The bytes do not change: what the tree has lost is `extra` now.
    show s.budBytes = _
    rw [h.bytes]
    simp only [treeBytes_append, treeBytes_cons]
    omega
  extra_nonneg := by
    have hle := h.starts bud (List.mem_append_right _ List.mem_cons_self)
    have := h.extra_nonneg
    omega

end Remove

/-! ## Steps -/

section Steps

variable {s' : Info}

/-- An old bud is returned and freed. -/
theorem Held.release {rest : List Bud} (h : Held g tree extra s) (hold : s.oldBuds = bud :: rest) :
    Held g tree extra { s with
      oldBuds := rest
      returned := s.returned ++ [bud.id]
      freed := s.freed ++ [bud.id] } where
  ids := by
    refine List.Perm.trans ?_ h.ids
    rw [hold]
    simp only [List.map_append, List.map_cons, List.append_assoc]
    refine List.Perm.append_left _ ?_
    rw [← List.append_assoc]
    exact List.perm_append_singleton _ _
  taken := by
    refine h.taken.trans ?_
    rw [hold, List.map_cons, List.cons_append]
    dsimp only
    rw [← List.append_assoc]
    exact (List.perm_append_singleton _ _).symm
  returned := congrArg (· ++ [bud.id]) h.returned
  heads := h.heads
  lnums := h.lnums
  starts := h.starts
  offs := h.offs
  wbufs := h.wbufs
  bytes := h.bytes
  extra_nonneg := h.extra_nonneg

/-- The loop of `remove_buds` does not touch these. -/
theorem removeBuds_frame (s : Info) : (s.removeBuds g).budBytes = s.budBytes ∧
    (s.removeBuds g).replaying = s.replaying ∧ (s.removeBuds g).replayed = s.replayed := by
  have hfold : ∀ (todo : List Bud) (t : Info), (todo.foldl (removeBud g) t).budBytes = t.budBytes ∧
      (todo.foldl (removeBud g) t).replaying = t.replaying ∧
      (todo.foldl (removeBud g) t).replayed = t.replayed := by
    intro todo
    induction todo with
    | nil => exact fun t => ⟨rfl, rfl, rfl⟩
    | cons bud rest ih =>
      intro t
      obtain ⟨h1, h2, h3⟩ := ih (removeBud g t bud)
      have hbud : (removeBud g t bud).budBytes = t.budBytes ∧
          (removeBud g t bud).replaying = t.replaying ∧
          (removeBud g t bud).replayed = t.replayed := by
        rw [removeBud]
        split
        · exact ⟨rfl, rfl, rfl⟩
        · exact ⟨rfl, rfl, rfl⟩
      exact ⟨h1.trans hbud.1, h2.trans hbud.2.1, h3.trans hbud.2.2⟩
  exact hfold s.buds { s with cmtBudBytes := 0, buds := [] }

theorem switchLeb_eq (s : Info) : ∃ lnum offs,
    s.switchLeb g = { s with lheadLnum := lnum, lheadOffs := offs } := by
  rw [switchLeb]
  split
  · exact ⟨_, _, rfl⟩
  · exact ⟨s.lheadLnum, s.lheadOffs, rfl⟩

theorem leaveFull_eq (s : Info) : ∃ lnum offs,
    s.leaveFull g = { s with lheadLnum := lnum, lheadOffs := offs } := by
  rw [leaveFull]
  split
  · exact ⟨_, _, rfl⟩
  · exact ⟨s.lheadLnum, s.lheadOffs, rfl⟩

end Steps

/-! ## Runs -/

section Runs

variable {s' : Info}

/-- At the mount there are no buds. -/
theorem Mounting.sound (h : s.Mounting) : Sound g s := by
  have hpending : s.pending = 0 := by rw [pending, h.stage]
  refine ⟨⟨?_, ?_, ?_, ?_, ?_, ?_, ?_, ?_, ?_, ?_⟩, fun _ => h.oldBuds, ?_, ?_⟩
  · rw [h.buds, h.oldBuds, h.ghosts.2.2, h.nextId]
    exact .refl _
  · rw [h.ghosts.1, h.oldBuds, h.ghosts.2.2]
    exact .refl _
  · rw [h.ghosts.2.1, h.ghosts.2.2]
  · intro jhead
    rw [h.heads, h.buds]
    exact .refl _
  · rw [h.buds]
    exact List.nodup_nil
  · rw [h.buds]
    simp
  · intro jhead
    rw [h.wbufs]
    exact Nat.zero_le _
  · rw [h.buds]
    simp
  · rw [h.budBytes, h.buds, hpending]
    rfl
  · rw [hpending]
  · rw [h.replaying]
    simp
  · intro _ jhead lnum hlnum
    rw [h.wbufs] at hlnum
    exact absurd hlnum (by simp)

end Runs

/-! ## Runs on a small journal -/

/-- The limit is three LEBs. -/
def journal : Geometry where
  logLebs := 4
  lebSize := 131072
  minIoSize := 2048
  refNodeSz := 64
  jheadCnt := 3
  maxBudBytes := 393216

/-- The log has a commit start node. -/
def mounting : Info where
  lheadLnum := 3
  lheadOffs := 2048
  ltailLnum := 3
  minLogBytes := 0
  roError := false
  replaying := true
  stage := .resting
  broken := false
  buds := []
  heads := fun _ => []
  oldBuds := []
  budBytes := 0
  cmtBudBytes := 0
  wbufs := fun _ => ⟨none, 0⟩
  nextId := 0
  taken := []
  returned := []
  freed := []
  replayed := 0

end Info

end Ubifs.Buds
