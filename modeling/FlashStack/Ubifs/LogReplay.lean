/-
  What the replay makes of a log.

  A log is a few LEBs from the tail on, with references to buds and commit start nodes (`Chain`).  Its
  replay finds the commit start, and the first reference to each bud (`Chain.replay`).

  `validate_ref` compares a reference with the bud of its LEB, if there is one; `Agrees` is what it
  asks for.  So the loop over the LEBs is a fold with `Lib.firsts` as its result, and a log that
  was written twice replays as the one that was written once.
-/
import FlashStack.Lib.Firsts
import FlashStack.Lib.Ring
import FlashStack.Ubifs.Consolidation
import Mathlib

open Lib (firsts Ring.place Ring.next Ring.In)

namespace Ubifs.Consolidation

variable {c : Info} {flash f : Nat → LogLeb} {cs d i k m w : Nat} {buds seen : List Ref} {s : State}

/-! ## The ring -/

/-- `k` LEBs from the tail. -/
def lebAt (c : Info) (k : Nat) : Nat := Ring.place ubifsLogLnum c.logLebs c.ltailLnum k

/-- LEBs of the log are counted from the tail on. -/
theorem next_lebAt (hn : 0 < c.logLebs) : ubifsNextLogLnum c (lebAt c k) = lebAt c (k + 1) := by
  unfold lebAt
  rw [← Lib.Ring.next_place hn]
  unfold ubifsNextLogLnum Ring.next logLast
  split <;> split <;> omega

/-- Within one round they are different. -/
theorem lebAt_inj {j : Nat} (hj : j < c.logLebs) (hk : k < c.logLebs) (h : lebAt c j = lebAt c k) :
    j = k := Lib.Ring.place_inj hj hk h

/-! ## What is in a log -/

/-- The reference that a node of the log holds. -/
def refOf : Nat × Node → Option Ref
  | (_, .ref r) => some r
  | _ => none

/-- The references of a LEB, in the order of its nodes. -/
def refs (nodes : List (Nat × Node)) : List Ref := nodes.filterMap refOf

/-- The references of the first LEBs. -/
def refsUpto (c : Info) (flash : Nat → LogLeb) : Nat → List Ref
  | 0 => []
  | k + 1 => refsUpto c flash k ++ refs (flash (lebAt c k)).nodes

/-- The reference names a head and a LEB of the main area. -/
structure RefOk (c : Info) (r : Ref) : Prop where
  jhead : r.jhead < c.jheadCnt
  lnum : r.lnum < c.lebCnt
  main : c.mainFirst ≤ r.lnum
  offs : r.offs ≤ c.lebSize
  aligned : r.offs &&& (c.minIoSize - 1) = 0

/-- A reference is anywhere in a LEB, a commit start node at the beginning of one. -/
inductive NodeOk (c : Info) (cs : Nat) : Nat × Node → Prop
  | ref (offs : Nat) (r : Ref) (h : RefOk c r) (low : cs ≤ r.sqnum) (high : r.sqnum < sqnumWatermark) :
      NodeOk c cs (offs, .ref r)
  | cs (sqnum cmtNo : Nat) (low : cs ≤ sqnum) (high : sqnum < sqnumWatermark) :
      NodeOk c cs (0, .cs sqnum cmtNo)

/-- A reference to a bud that there is already is one to a later part of it. -/
def Agrees (buds : List Ref) (x : Ref) : Prop :=
  ∀ y ∈ buds, y.lnum = x.lnum → y.jhead = x.jhead ∧ y.offs ≤ x.offs

/-- A LEB that replay accepts: it starts with a node, and its references agree with the buds. -/
structure GoodLeb (c : Info) (cs : Nat) (buds : List Ref) (leb : LogLeb) : Prop where
  start : ∃ node rest, leb.nodes = (0, node) :: rest
  nodes : ∀ p ∈ leb.nodes, NodeOk c cs p
  agrees : ∀ x ∈ refs leb.nodes, Agrees buds x
  endpt : leb.endpt ≠ 0

/-- A LEB that is no part of the log: nothing is in it, or what had been committed long since. -/
def EndLeb (cs : Nat) (leb : LogLeb) : Prop :=
  leb.nodes = [] ∨ ∃ p rest, leb.nodes = p :: rest ∧ p.2.sqnum < cs

/-- A log of `m` LEBs, which are replayed to these buds. -/
structure Chain (c : Info) (cs : Nat) (buds : List Ref) (flash : Nat → LogLeb) (m : Nat) : Prop where
  tail : Ring.In ubifsLogLnum c.logLebs c.ltailLnum
  cs_ne : cs ≠ 0
  pos : 0 < m
  le : m ≤ c.logLebs
  first : ∃ rest, (flash (lebAt c 0)).nodes = (0, .cs cs c.cmtNo) :: rest
  good : ∀ k < m, GoodLeb c cs buds (flash (lebAt c k))
  ends : m = c.logLebs ∨ EndLeb cs (flash (lebAt c m))
  kept : firsts Ref.lnum [] (refsUpto c flash m) = buds

/-! ## Replay -/

/-- More LEBs have more references. -/
theorem refsUpto_mono (h : k ≤ m) : refsUpto c flash k <+: refsUpto c flash m := by
  induction h with
  | refl => exact List.prefix_refl _
  | step _ ih => exact ih.trans (List.prefix_append _ _)

/-- More references have more buds. -/
theorem firsts_mono {xs ys : List Ref} (h : xs <+: ys) :
    firsts Ref.lnum [] xs <+: firsts Ref.lnum [] ys := by
  obtain ⟨zs, rfl⟩ := h
  rw [Lib.firsts_append]
  exact Lib.prefix_firsts

/-- A reference that agrees with the buds is accepted, and known if its LEB was there before. -/
theorem validateRef_ok {r : Replay} {x : Ref} (hok : RefOk c x) (hagrees : Agrees buds x)
    (hsub : r.replayBuds ⊆ buds) :
    r.validateRef c x = .ok (decide (x.lnum ∈ r.replayBuds.map Ref.lnum)) := by
  obtain ⟨hjhead, hlnum, hmain, hoffs, haligned⟩ := hok
  unfold Replay.validateRef
  rw [if_neg (by omega)]
  cases hfind : r.replayBuds.find? fun bud => bud.lnum = x.lnum with
  | none =>
    have hnone : x.lnum ∉ r.replayBuds.map Ref.lnum := by
      intro hmem
      obtain ⟨y, hy, hlnum⟩ := List.mem_map.mp hmem
      exact List.find?_eq_none.mp hfind y hy (by simpa using hlnum)
    rw [decide_eq_false hnone]
  | some y =>
    have hy := List.mem_of_find?_eq_some hfind
    have hlnum : y.lnum = x.lnum := by simpa using List.find?_some hfind
    dsimp only
    rw [if_pos (hagrees y (hsub hy) hlnum), decide_eq_true (List.mem_map.mpr ⟨y, hy, hlnum⟩)]

/-- A good node is accepted; if it names a new bud, that is added. -/
theorem replayNode_ok {r : Replay} {p : Nat × Node} (hp : NodeOk c cs p) (hcs : r.csSqnum = cs)
    (hagrees : ∀ x ∈ refs [p], Agrees buds x) (hsub : r.replayBuds ⊆ buds) :
    ∃ r', r.replayNode c p = .ok r' ∧ r'.csSqnum = cs ∧
      r'.replayBuds = firsts Ref.lnum r.replayBuds (refs [p]) := by
  cases hp with
  | ref offs x h low high =>
    have hhigh : ¬sqnumWatermark ≤ (offs, Node.ref x).2.sqnum := Nat.not_le.mpr high
    have hlow : ¬(offs, Node.ref x).2.sqnum < r.csSqnum := Nat.not_lt.mpr (hcs ▸ low)
    have hvalid := @validateRef_ok c buds { r with maxSqnum := max r.maxSqnum x.sqnum } x h
      (hagrees x (by simp [refs, refOf])) hsub
    rw [Replay.replayNode, if_neg hhigh, if_neg hlow]
    change ∃ r', (Replay.validateRef c { r with maxSqnum := max r.maxSqnum x.sqnum } x >>= _) = _ ∧ _
    rw [hvalid]
    by_cases hmem : x.lnum ∈ r.replayBuds.map Ref.lnum
    · refine ⟨_, if_pos (decide_eq_true hmem), hcs, ?_⟩
      exact (Lib.addFirst_old hmem).symm
    · refine ⟨_, if_neg (by simpa using hmem), hcs, ?_⟩
      exact (Lib.addFirst_new hmem).symm
  | cs sqnum cmtNo low high =>
    have hhigh : ¬sqnumWatermark ≤ (0, Node.cs sqnum cmtNo).2.sqnum := Nat.not_le.mpr high
    have hlow : ¬(0, Node.cs sqnum cmtNo).2.sqnum < r.csSqnum := Nat.not_lt.mpr (hcs ▸ low)
    rw [Replay.replayNode, if_neg hhigh, if_neg hlow]
    exact ⟨_, if_neg (by simp), hcs, rfl⟩

/-- So are the nodes of a LEB. -/
theorem replayNodes_ok {r : Replay} {nodes : List (Nat × Node)} (hnodes : ∀ p ∈ nodes, NodeOk c cs p)
    (hcs : r.csSqnum = cs) (hagrees : ∀ x ∈ refs nodes, Agrees buds x)
    (hsub : firsts Ref.lnum r.replayBuds (refs nodes) ⊆ buds) :
    ∃ r', nodes.foldlM (Replay.replayNode c) r = .ok r' ∧ r'.csSqnum = cs ∧
      r'.replayBuds = firsts Ref.lnum r.replayBuds (refs nodes) := by
  induction nodes generalizing r with
  | nil => exact ⟨r, rfl, hcs, rfl⟩
  | cons p nodes ih =>
    have hsplit : refs (p :: nodes) = refs [p] ++ refs nodes :=
      @List.filterMap_append _ _ [p] nodes refOf
    rw [hsplit, Lib.firsts_append] at hsub
    rw [hsplit] at hagrees
    have hsub' := List.Subset.trans Lib.prefix_firsts.subset hsub
    obtain ⟨r', hr', hcs', hbuds'⟩ := replayNode_ok (hnodes p (List.mem_cons_self ..)) hcs
      (fun x hx => hagrees x (List.mem_append_left _ hx)) (List.Subset.trans Lib.prefix_firsts.subset hsub')
    obtain ⟨r'', hr'', hcs'', hbuds''⟩ := ih (fun q hq => hnodes q (List.mem_cons_of_mem p hq)) hcs'
      (fun x hx => hagrees x (List.mem_append_right _ hx)) (hbuds' ▸ hsub)
    refine ⟨r'', ?_, hcs'', ?_⟩
    · rw [List.foldlM_cons, hr']
      exact hr''
    · rw [hbuds'', hbuds', hsplit, Lib.firsts_append]

/-- The commit start node is looked for only once. -/
theorem findCs_ok {r : Replay} {node : Node} (hcs : r.csSqnum = cs) (hne : cs ≠ 0) :
    r.findCs c node = .ok r := if_neg (hcs ▸ hne)

/-- A good LEB is replayed to its end. -/
theorem GoodLeb.replay {r : Replay} {leb : LogLeb} {lnum : Nat} (h : GoodLeb c cs buds leb)
    (hfind : ∀ node rest, leb.nodes = (0, node) :: rest →
      ∃ r₀, r.findCs c node = .ok r₀ ∧ r₀.csSqnum = cs ∧ r₀.replayBuds = r.replayBuds)
    (hsub : firsts Ref.lnum r.replayBuds (refs leb.nodes) ⊆ buds) :
    ∃ r', r.replayLogLeb c lnum leb = .ok (false, r') ∧ r'.csSqnum = cs ∧
      r'.replayBuds = firsts Ref.lnum r.replayBuds (refs leb.nodes) := by
  obtain ⟨⟨node, rest, hnodes⟩, hall, hagrees, hendpt⟩ := h
  obtain ⟨r₀, hr₀, hcs₀, hbuds₀⟩ := hfind node rest hnodes
  rw [← hbuds₀] at hsub ⊢
  obtain ⟨r', hr', hcs', hbuds'⟩ := replayNodes_ok hall hcs₀ hagrees hsub
  have hlow : ¬node.sqnum < r₀.csSqnum := by
    have hnode := hall (0, node) (by rw [hnodes]; exact List.mem_cons_self ..)
    rw [hcs₀, Nat.not_lt]
    cases hnode with
    | ref offs x hok low high => exact low
    | cs sqnum cmtNo low high => exact low
  have heq : r.replayLogLeb c lnum leb = .ok (leb.endpt = 0, { r' with
      lheadLnum := lnum
      lheadOffs := leb.endpt }) := by
    unfold Replay.replayLogLeb
    rw [hnodes] at hr' ⊢
    dsimp only
    rw [hr₀]
    change (if node.sqnum < r₀.csSqnum then _ else _) = _
    rw [if_neg hlow, if_neg (by simp), hr']
    change Except.ok (_, if leb.endpt ≠ 0 ∨ _ then _ else _) = _
    rw [if_pos (.inl hendpt)]
  rw [heq, decide_eq_false hendpt]
  exact ⟨_, rfl, hcs', hbuds'⟩

/-- The loop variable is one behind the last LEB of the log before it goes round. -/
def Wraps (c : Info) (lnum k : Nat) : Prop :=
  (if ubifsLogLnum + c.logLebs ≤ lnum then ubifsLogLnum else lnum) = lebAt c k

/-- Behind the last LEB comes the first one. -/
theorem wraps_next (hn : 0 < c.logLebs) : Wraps c (lebAt c k + 1) (k + 1) := by
  unfold Wraps lebAt
  rw [← Lib.Ring.next_place hn, Ring.next]
  split <;> split <;> omega

/-- Replay goes from LEB to LEB until one does not belong to the log any more. -/
theorem Chain.replayLoop (h : Chain c cs buds f m) {j lnum : Nat} {r : Replay} (hj : j + k = c.logLebs)
    (hk : k ≤ m) (hlnum : Wraps c lnum k) (hcs : r.csSqnum = if k = 0 then 0 else cs)
    (hbuds : r.replayBuds = firsts Ref.lnum [] (refsUpto c f k)) :
    ∃ r', Replay.replayLoop c f j lnum r = .ok r' ∧ r'.csSqnum = cs ∧ r'.replayBuds = buds := by
  have hpos := h.pos
  have hle := h.le
  induction j generalizing k lnum r with
  | zero =>
    obtain rfl : k = m := by omega
    rw [if_neg (by omega)] at hcs
    exact ⟨r, rfl, hcs, hbuds.trans h.kept⟩
  | succ j ih =>
    rw [Replay.replayLoop]
    dsimp only
    rw [hlnum]
    by_cases hlt : k < m
    · -- a LEB of the log
      have hkept : firsts Ref.lnum r.replayBuds (refs (f (lebAt c k)).nodes) =
          firsts Ref.lnum [] (refsUpto c f (k + 1)) := by
        rw [hbuds, refsUpto, Lib.firsts_append]
      have hsub : firsts Ref.lnum r.replayBuds (refs (f (lebAt c k)).nodes) ⊆ buds := by
        rw [hkept, ← h.kept]
        exact (firsts_mono (refsUpto_mono hlt)).subset
      have hfind : ∀ node rest, (f (lebAt c k)).nodes = (0, node) :: rest →
          ∃ r₀, r.findCs c node = .ok r₀ ∧ r₀.csSqnum = cs ∧ r₀.replayBuds = r.replayBuds := by
        intro node rest hnodes
        by_cases hzero : k = 0
        · subst hzero
          obtain ⟨rest', hfirst⟩ := h.first
          rw [hfirst] at hnodes
          obtain ⟨hnode, -⟩ := List.cons.inj hnodes
          obtain rfl := (Prod.mk.inj hnode).2
          refine ⟨{ r with csSqnum := cs }, ?_, rfl, rfl⟩
          rw [Replay.findCs, if_pos (hcs.trans (if_pos rfl))]
          exact if_neg (by simp)
        · rw [if_neg hzero] at hcs
          exact ⟨r, findCs_ok hcs h.cs_ne, hcs, rfl⟩
      obtain ⟨r', hr', hcs', hbuds'⟩ :=
        @GoodLeb.replay c cs buds r (f (lebAt c k)) (lebAt c k) (h.good k hlt) hfind hsub
      rw [hr']
      exact ih (by omega) hlt (wraps_next (by omega)) (by rw [if_neg (by omega), hcs'])
        (hbuds'.trans hkept)
    · -- the LEB behind the log
      obtain rfl : k = m := by omega
      rw [if_neg (by omega)] at hcs
      refine ⟨r, ?_, hcs, hbuds.trans h.kept⟩
      rcases h.ends with hend | hnodes | ⟨⟨offs, node⟩, rest, hnodes, hold⟩
      · omega
      · rw [Replay.replayLogLeb, hnodes]
        rfl
      · rw [Replay.replayLogLeb, hnodes]
        dsimp only
        rw [findCs_ok hcs h.cs_ne]
        change (if node.sqnum < r.csSqnum then _ else _) >>= _ = _
        rw [if_pos (hcs ▸ hold)]
        rfl

/-- From a good chain replay gets the buds. -/
theorem Chain.replay (h : Chain c cs buds f m) :
    ∃ r, replayLog c f = .ok r ∧ r.csSqnum = cs ∧ r.replayBuds = buds := by
  have htail : lebAt c 0 = c.ltailLnum := Lib.Ring.place_zero h.tail
  refine h.replayLoop (Nat.add_zero _) (Nat.zero_le m) ?_ rfl rfl
  unfold Wraps
  have hin := h.tail.2
  rw [if_neg (by omega), htail]

end Ubifs.Consolidation
