/-
  The journal survives the consolidation of its log.

  The LEBs from the tail to the head are read and packed again (`readOn`), and those that are left over are
  unmapped (`unmapOn`).  Whenever the power is cut, the replay finds the same commit start and the same
  buds; the head is behind the last of them in the end, unless the references fill all the LEBs there are.

  The invariant of reading (`Inv`) says that what was written so far and what is in the buffer are
  the references that were seen, each once.  That of unmapping (`Unmapped`) says that the LEBs
  behind hold nothing new.  Both of them give a `Chain` for each state of the flash on the way.
-/
import FlashStack.Ubifs.ConsolidationSafe
import Mathlib

open Lib (Ring.In)

namespace Ubifs.Consolidation

variable {c : Info} {flash f : Nat → LogLeb} {cs d i j k w : Nat} {seen : List Ref} {s : State}

/-! ## Reading -/

/-- Only the first commit start node is kept. -/
theorem takeCs {sqnum cmtNo offs : Nat} (h : s.first = false) :
    s.takeNode c (offs, .cs sqnum cmtNo) = s := by
  unfold State.takeNode
  dsimp only
  rw [h]
  exact if_neg Bool.false_ne_true

/-- The nodes of a LEB are taken, one by one. -/
theorem Inv.takeNodes {nodes : List (Nat × Node)} (h : Inv c flash d cs i w seen s)
    (hlog : Log c flash d cs) (hi : i ≤ d) (hnodes : ∀ p ∈ nodes, NodeOk c cs p)
    (hseen : seen ++ refs nodes <+: refsUpto c flash (i + 1)) :
    ∃ w, Inv c flash d cs i w (seen ++ refs nodes) (nodes.foldl (State.takeNode c) s) := by
  induction nodes generalizing s seen w with
  | nil =>
    rw [show refs [] = [] from rfl, List.append_nil]
    exact ⟨w, h⟩
  | cons p nodes ih =>
    have hrest : ∀ q ∈ nodes, NodeOk c cs q := fun q hq => hnodes q (List.mem_cons_of_mem p hq)
    rw [List.foldl_cons]
    cases hp : hnodes p (List.mem_cons_self ..) with
    | ref offs x hok low high =>
      have hsplit : seen ++ refs ((offs, Node.ref x) :: nodes) = (seen ++ [x]) ++ refs nodes :=
        List.append_cons seen x (refs nodes)
      rw [hsplit] at hseen ⊢
      have hx := (List.prefix_append (seen ++ [x]) (refs nodes)).trans hseen
      obtain ⟨w', h'⟩ := h.takeRef hlog hi (.ref offs x hok low high) hx
      exact ih h' hrest hseen
    | cs sqnum cmtNo low high =>
      rw [takeCs h.first]
      exact ih h hrest hseen

/-- The nodes of the log are good. -/
theorem Log.nodeOk (h : Log c flash d cs) (hi : i ≤ d) :
    ∀ p ∈ (flash (lebAt c i)).nodes, NodeOk c cs p := by
  by_cases hid : i = d
  · subst hid
    rcases h.last with hgood | ⟨-, hempty⟩
    · exact hgood.nodes
    · intro p hp
      rw [hempty] at hp
      exact absurd hp List.not_mem_nil
  · exact (h.good i (by omega)).nodes

/-- The next LEB is read as it was. -/
theorem Inv.takeLeb (h : Inv c flash d cs i w (refsUpto c flash i) s) (hlog : Log c flash d cs)
    (hi : i ≤ d) :
    ∃ w, Inv c flash d cs i w (refsUpto c flash (i + 1))
      ((s.flash (lebAt c i)).nodes.foldl (State.takeNode c) s) := by
  have hd := hlog.lt
  rw [h.old i h.le (by omega)]
  exact h.takeNodes hlog hi (hlog.nodeOk hi) (List.prefix_refl _)

/-- On to the next LEB. -/
theorem Inv.next (h : Inv c flash d cs i w (refsUpto c flash (i + 1)) s) :
    Inv c flash d cs (i + 1) w (refsUpto c flash (i + 1)) s :=
  { h with
    le := Nat.le_succ_of_le h.le
    low := List.prefix_refl _ }

/-- Behind a LEB that has been read. -/
theorem Inv.readOn (h : Inv c flash d cs i w (refsUpto c flash (i + 1)) s) (hlog : Log c flash d cs)
    (hi : i ≤ d) (hj : d ≤ i + j) :
    ∃ s' w, (if lebAt c i = c.lheadLnum then some s
        else State.readLoop c j (ubifsNextLogLnum c (lebAt c i)) s) = some s' ∧
      Inv c flash d cs d w (refsUpto c flash (d + 1)) s' := by
  have hd := hlog.lt
  induction j generalizing i w s with
  | zero =>
    obtain rfl : i = d := by omega
    rw [if_pos hlog.head.symm]
    exact ⟨s, w, rfl, h⟩
  | succ j ih =>
    by_cases hid : i = d
    · subst hid
      rw [if_pos hlog.head.symm]
      exact ⟨s, w, rfl, h⟩
    · have hne : lebAt c i ≠ c.lheadLnum := by
        rw [hlog.head]
        exact fun heq => hid (lebAt_inj (by omega) hd heq)
      obtain ⟨w', h'⟩ := h.next.takeLeb hlog (by omega)
      rw [if_neg hne, next_lebAt (by omega), State.readLoop]
      exact ih h' (by omega) (by omega)

/-- The commit start node is the first node of the new log, too. -/
theorem Log.inv (h : Log c flash d cs) {rest : List (Nat × Node)}
    (hfirst : (flash (lebAt c 0)).nodes = (0, .cs cs c.cmtNo) :: rest) :
    Inv c flash d cs 0 0 []
      (State.takeNode c ⟨flash, c.ltailLnum, [], 0, true, [], []⟩ (0, .cs cs c.cmtNo)) := by
  have hroom := h.room
  have heq : State.takeNode c ⟨flash, c.ltailLnum, [], 0, true, [], []⟩ (0, .cs cs c.cmtNo) =
      ⟨flash, c.ltailLnum, [(0, .cs cs c.cmtNo)], 32, false, [], []⟩ := by
    have hsmall : ¬c.lebSize - 0 < (Node.cs cs c.cmtNo).len := by
      change ¬c.lebSize - 0 < 32
      omega
    have hlen : Lib.align (Node.cs cs c.cmtNo).len 8 = 32 := by
      change Lib.align 32 8 = 32
      decide
    unfold State.takeNode
    dsimp only
    rw [if_pos rfl, State.addNode,
      @makeRoom_room c ⟨flash, c.ltailLnum, [], 0, true, [], []⟩ (Node.cs cs c.cmtNo).len hsmall,
      State.putNode, hlen]
    rfl
  rw [heq]
  constructor
  case write => exact (Lib.Ring.place_zero h.tail).symm
  case le => exact Nat.le_refl 0
  case new => exact fun k hk => absurd hk (Nat.not_lt_zero k)
  case old => exact fun _ _ _ => rfl
  case csNode => exact ⟨[], rfl⟩
  case first => rfl
  case kept => rfl
  case done => exact fun l => Iff.rfl
  case start => exact ⟨_, [], rfl⟩
  case nodes =>
    intro p hp
    rw [List.mem_singleton.mp hp]
    exact h.nodeOk (Nat.zero_le d) _ (hfirst ▸ List.mem_cons_self ..)
  case offs => rfl
  case behind =>
    intro p hp
    rw [List.mem_singleton.mp hp]
    exact Nat.le_refl 32
  case fits =>
    dsimp only
    omega
  case filled => rfl
  case low => exact List.prefix_refl _
  case high => exact List.nil_prefix
  case history => exact fun f hf => absurd hf List.not_mem_nil

/-- The whole log is read. -/
theorem Log.readLoop (h : Log c flash d cs) :
    ∃ s w, State.readLoop c c.logLebs c.ltailLnum ⟨flash, c.ltailLnum, [], 0, true, [], []⟩ = some s ∧
      Inv c flash d cs d w (refsUpto c flash (d + 1)) s := by
  have hd := h.lt
  obtain ⟨rest, hfirst⟩ := h.first
  have htail : lebAt c 0 = c.ltailLnum := Lib.Ring.place_zero h.tail
  have hrefs : refsUpto c flash 1 = [] ++ refs rest := by
    rw [refsUpto, hfirst]
    rfl
  have hrest : ∀ p ∈ rest, NodeOk c cs p := fun p hp =>
    h.nodeOk (Nat.zero_le d) p (hfirst ▸ List.mem_cons_of_mem _ hp)
  obtain ⟨w, hinv⟩ := (h.inv hfirst).takeNodes h (Nat.zero_le d) hrest (hrefs ▸ List.prefix_refl _)
  rw [← hrefs] at hinv
  obtain ⟨j, hj⟩ := Nat.exists_eq_add_one.mpr (show 0 < c.logLebs by omega)
  obtain ⟨s, w, hs, hinv⟩ := hinv.readOn h (Nat.zero_le d) (show d ≤ 0 + j by omega)
  rw [htail] at hs hfirst
  refine ⟨s, w, ?_, hinv⟩
  rw [hj, State.readLoop, hfirst, List.foldl_cons]
  exact hs

/-! ## Unmapping -/

/-- The new log is written, and the LEBs behind it are unmapped up to `k`. -/
structure Unmapped (c : Info) (flash : Nat → LogLeb) (d cs w k : Nat) (s : State) : Prop where
  new : ∀ j ≤ w, GoodLeb c cs (budsOf c flash d) (s.flash (lebAt c j))
  empty : ∀ j, w < j → j ≤ k → s.flash (lebAt c j) = .empty
  csNode : ∃ rest, (s.flash (lebAt c 0)).nodes = (0, .cs cs c.cmtNo) :: rest
  kept : refsUpto c s.flash (w + 1) = budsOf c flash d
  history : ∀ f ∈ s.history, ∃ m, Chain c cs (budsOf c flash d) f m

/-- Unmapping a LEB leaves the others. -/
theorem unmap_other (hj : j < c.logLebs) (hk : k < c.logLebs) (hne : j ≠ k) :
    (s.ubifsLebUnmap (lebAt c k)).flash (lebAt c j) = s.flash (lebAt c j) := by
  change Function.update s.flash (lebAt c k) _ (lebAt c j) = _
  rw [Function.update_of_ne]
  exact fun heq => hne (lebAt_inj hj hk heq)

/-- The log ends where it is unmapped. -/
theorem Unmapped.chain (h : Unmapped c flash d cs w k s) (hlog : Log c flash d cs) (hw : w < k)
    (hk : k ≤ d) : Chain c cs (budsOf c flash d) s.flash (w + 1) := by
  have hd := hlog.lt
  refine ⟨hlog.tail, hlog.cs_ne, Nat.succ_pos w, by omega, h.csNode,
    fun j hj => h.new j (Nat.le_of_lt_succ hj), .inr (.inl ?_), ?_⟩
  · rw [h.empty (w + 1) (Nat.lt_succ_self w) hw]
    rfl
  · rw [h.kept]
    exact Lib.firsts_of_nodup nodup_budsOf

/-- One more LEB is unmapped. -/
theorem Unmapped.step (h : Unmapped c flash d cs w k s) (hlog : Log c flash d cs) (hw : w ≤ k)
    (hk : k < d) : Unmapped c flash d cs w (k + 1) (s.ubifsLebUnmap (lebAt c (k + 1))) := by
  have hd := hlog.lt
  have hnew : ∀ j ≤ w, GoodLeb c cs (budsOf c flash d)
      ((s.ubifsLebUnmap (lebAt c (k + 1))).flash (lebAt c j)) := by
    intro j hj
    rw [unmap_other (by omega) (by omega) (by omega)]
    exact h.new j hj
  have hempty : ∀ j, w < j → j ≤ k + 1 →
      (s.ubifsLebUnmap (lebAt c (k + 1))).flash (lebAt c j) = .empty := by
    intro j hwj hj
    by_cases hlast : j = k + 1
    · subst hlast
      exact Function.update_self ..
    · rw [unmap_other (by omega) (by omega) hlast]
      exact h.empty j hwj (by omega)
  have hcs : ∃ rest, ((s.ubifsLebUnmap (lebAt c (k + 1))).flash (lebAt c 0)).nodes =
      (0, .cs cs c.cmtNo) :: rest := by
    rw [unmap_other (by omega) (by omega) (by omega)]
    exact h.csNode
  have hkept : refsUpto c (s.ubifsLebUnmap (lebAt c (k + 1))).flash (w + 1) = budsOf c flash d := by
    rw [← h.kept]
    exact refsUpto_congr fun j hj => unmap_other (by omega) (by omega) (by omega)
  -- but for the history, which the others say something about
  have hnow : Unmapped c flash d cs w (k + 1)
      { s.ubifsLebUnmap (lebAt c (k + 1)) with history := s.history } :=
    ⟨hnew, hempty, hcs, hkept, h.history⟩
  refine ⟨hnew, hempty, hcs, hkept, ?_⟩
  intro f hf
  rcases List.mem_append.mp hf with hf | hf
  · exact h.history f hf
  · obtain rfl := List.mem_singleton.mp hf
    exact ⟨w + 1, hnow.chain hlog (by omega) hk⟩

/-- All LEBs up to the head are unmapped. -/
theorem Unmapped.unmapOn (h : Unmapped c flash d cs w k s) (hlog : Log c flash d cs) (hw : w ≤ k)
    (hk : k < d) (hj : d ≤ k + j) :
    ∃ s', State.unmapLoop c j (lebAt c k) s = some s' ∧ Unmapped c flash d cs w d s' ∧
      s'.writeLnum = s.writeLnum ∧ s'.offs = s.offs ∧
      s'.flash (lebAt c w) = s.flash (lebAt c w) := by
  have hd := hlog.lt
  induction j generalizing k s with
  | zero => omega
  | succ j ih =>
    have hstep := h.step hlog hw hk
    have hsame := @unmap_other c w (k + 1) s (by omega) (by omega) (by omega)
    rw [State.unmapLoop, next_lebAt (by omega)]
    by_cases hlast : k + 1 = d
    · rw [hlast] at hstep hsame ⊢
      rw [if_pos hlog.head.symm]
      exact ⟨_, rfl, hstep, rfl, rfl, hsame⟩
    · have hne : lebAt c (k + 1) ≠ c.lheadLnum := by
        rw [hlog.head]
        exact fun heq => hlast (lebAt_inj (by omega) hd heq)
      rw [if_neg hne]
      obtain ⟨s', hs', hdone, hwrite, hoffs, hsame'⟩ := ih hstep (by omega) (by omega) (by omega)
      exact ⟨s', hs', hdone, hwrite, hoffs, hsame'.trans hsame⟩

/-! ## The whole -/

/-- The log is a chain that can be replayed. -/
theorem Log.chain (h : Log c flash d cs) : ∃ m, Chain c cs (budsOf c flash d) flash m := by
  have hd := h.lt
  by_cases hall : GoodLeb c cs (budsOf c flash d) (flash (lebAt c d))
  · refine ⟨d + 1, h.tail, h.cs_ne, Nat.succ_pos d, hd, h.first, ?_, ?_, rfl⟩
    · intro k hk
      by_cases hkd : k = d
      · exact hkd ▸ hall
      · exact h.good k (by omega)
    · exact h.ends
  · obtain ⟨hpos, hempty⟩ := h.last.resolve_left hall
    refine ⟨d, h.tail, h.cs_ne, hpos, hd.le, h.first, h.good, .inr (.inl hempty), ?_⟩
    rw [budsOf, refsUpto, hempty]
    exact congrArg _ (List.append_nil _).symm

/-- How many references there are, as it is decided by the LEB that is written last. -/
theorem Inv.full_iff (h : Inv c flash d cs d w (refsUpto c flash (d + 1)) s) :
    w = d ↔ d = 0 ∨ capSum c d < (budsOf c flash d).length := by
  have hle := h.le
  have hpos := h.offs_pos
  have hoffs := h.offs
  have hfits := h.fits
  have hlen := congrArg List.length h.kept
  rw [List.length_append, h.filled] at hlen
  change _ = (budsOf c flash d).length at hlen
  constructor
  · intro hwd
    subst hwd
    by_cases hzero : w = 0
    · exact .inl hzero
    · rw [if_neg hzero] at hoffs
      exact .inr (by omega)
  · intro hfull
    by_contra hne
    have hmono := @capSum_mono c (w + 1) d (by omega)
    rw [capSum_succ] at hmono
    omega

/-- Where the head is, and what the log is then. -/
structure Consolidated (c : Info) (d : Nat) (buds : List Ref) (head : Nat × Nat) (w : Nat)
    (flash : Nat → LogLeb) : Prop where
  lt : w < d
  lnum : head.1 = lebAt c w
  offs : (flash head.1).endpt = head.2
  behind : ∀ p ∈ (flash head.1).nodes, p.1 + p.2.len ≤ head.2
  empty : ∀ k, w < k → k ≤ d → flash (lebAt c k) = .empty
  once : refsUpto c flash (w + 1) = buds
  nodup : (buds.map Ref.lnum).Nodup

/-- Consolidation, with all that is on flash on the way; it fails only if nothing would be gained.
    -/
theorem ubifsConsolidateLog_ok (h : Log c flash d cs) :
    ∃ res s, ubifsConsolidateLog c flash = some (res, s) ∧
      (∀ f ∈ s.history, ∃ m, Chain c cs (budsOf c flash d) f m) ∧
      (res = .error .einval ↔ d = 0 ∨ capSum c d < (budsOf c flash d).length) ∧
      ∀ head, res = .ok head → ∃ w, Consolidated c d (budsOf c flash d) head w s.flash := by
  obtain ⟨s, w, hread, hinv⟩ := h.readLoop
  have hw := hinv.le
  have hpos := hinv.offs_pos
  have hpacked := hinv.packed h hw (refsUpto_mono (Nat.succ_le_succ hw))
  have hfull := hinv.full_iff
  set s₁ : State := { s.ubifsLebChange c with offs := Lib.align s.offs c.minIoSize } with hs₁
  have hrun : ubifsConsolidateLog c flash =
      if s₁.writeLnum = c.lheadLnum then some (.error .einval, s₁)
      else (State.unmapLoop c c.logLebs s₁.writeLnum s₁).bind
        fun s => some (.ok (s.writeLnum, s.offs), s) := by
    unfold ubifsConsolidateLog
    rw [hread]
    change (if (if s.offs ≠ 0 then s₁ else s).writeLnum = c.lheadLnum then _ else _) = _
    rw [if_pos hpos.ne']
    rfl
  have hwrite : s₁.writeLnum = lebAt c w := hinv.write
  rw [hrun, hwrite, h.head]
  by_cases hwd : w = d
  · rw [if_pos (congrArg (lebAt c) hwd)]
    refine ⟨_, _, rfl, hpacked.history, ⟨fun _ => hfull.mp hwd, fun _ => rfl⟩, ?_⟩
    intro head hhead
    cases hhead
  · have hd := h.lt
    have hne : lebAt c w ≠ lebAt c d := fun heq => hwd (lebAt_inj (by omega) hd heq)
    have hstart : Unmapped c flash d cs w w s₁ :=
      ⟨hpacked.new, fun j hlt hle => absurd hlt (Nat.not_lt.mpr hle), hpacked.csNode, hpacked.kept,
        hpacked.history⟩
    obtain ⟨s₂, hunmap, hdone, hwrite₂, hoffs₂, hsame⟩ :=
      hstart.unmapOn h (Nat.le_refl w) (by omega) (show d ≤ w + c.logLebs by omega)
    rw [if_neg hne, hunmap]
    refine ⟨_, _, rfl, hdone.history, ⟨fun herr => ?_, fun hcond => absurd (hfull.mpr hcond) hwd⟩, ?_⟩
    · cases herr
    · intro head hhead
      cases hhead
      have hleb : s₂.flash s₂.writeLnum = ⟨s.buf, Lib.align s.offs c.minIoSize⟩ := by
        rw [hwrite₂, hwrite, hsame, ← hwrite]
        exact Function.update_self ..
      refine ⟨w, by omega, hwrite₂.trans hwrite, ?_, ?_, hdone.empty, hdone.kept, nodup_budsOf⟩
      · rw [hleb, hoffs₂]
      · intro p hp
        rw [hleb] at hp
        rw [hoffs₂]
        exact (hinv.behind p hp).trans (Lib.le_align h.minIo)

theorem consolidation_keeps_journal (h : Log c flash d cs) :
    ∃ r res s, replayLog c flash = .ok r ∧ ubifsConsolidateLog c flash = some (res, s) ∧
      (∀ f ∈ s.history, ∃ r', replayLog c f = .ok r' ∧ r'.csSqnum = r.csSqnum ∧
        r'.replayBuds = r.replayBuds) ∧
      (res = .error .einval ↔ d = 0 ∨ capSum c d < r.replayBuds.length) ∧
      ∀ head, res = .ok head → ∃ w, Consolidated c d r.replayBuds head w s.flash := by
  obtain ⟨m, hchain⟩ := h.chain
  obtain ⟨r, hr, hcs, hbuds⟩ := hchain.replay
  obtain ⟨res, s, hrun, hhistory, hfull, hhead⟩ := ubifsConsolidateLog_ok h
  refine ⟨r, res, s, hr, hrun, ?_, hbuds ▸ hfull, hbuds ▸ hhead⟩
  intro f hf
  obtain ⟨m', hchain'⟩ := hhistory f hf
  obtain ⟨r', hr', hcs', hbuds'⟩ := hchain'.replay
  exact ⟨r', hr', hcs'.trans hcs.symm, hbuds'.trans hbuds.symm⟩

/-! ## A log with two failed commits

The log goes round: its tail is LEB 5, and its head LEB 3. -/

namespace FailedCommits

/-- A log of four LEBs with 256 bytes each. -/
def info : Info where
  lebSize := 256
  minIoSize := 64
  lebCnt := 100
  mainFirst := 10
  jheadCnt := 3
  logLebs := 4
  cmtNo := 7
  ltailLnum := 5
  lheadLnum := 3

/-- It wraps around: LEB 6 starts a second commit, and LEB 3 follows it. -/
def log (lnum : Nat) : LogLeb :=
  if lnum = 5 then ⟨[(0, .cs 100 7), (64, .ref ⟨101, 20, 0, 0⟩), (128, .ref ⟨102, 21, 0, 1⟩)], 192⟩
  else if lnum = 6 then ⟨[(0, .cs 110 8), (64, .ref ⟨111, 20, 128, 0⟩), (128, .ref ⟨112, 22, 0, 0⟩)], 192⟩
  else if lnum = 3 then ⟨[(0, .cs 120 8), (64, .ref ⟨121, 21, 64, 1⟩)], 128⟩
  else ⟨[(0, .cs 50 6)], 64⟩

theorem nodeOk {offs : Nat} {r : Ref}
    (h : (r.jhead < 3 ∧ r.lnum < 100 ∧ 10 ≤ r.lnum ∧ r.offs ≤ 256 ∧ r.offs &&& 63 = 0) ∧
      100 ≤ r.sqnum ∧ r.sqnum < sqnumWatermark) : NodeOk info 100 (offs, .ref r) := by
  obtain ⟨⟨hjhead, hlnum, hmain, hoffs, haligned⟩, hlow, hhigh⟩ := h
  exact .ref offs r ⟨hjhead, hlnum, hmain, hoffs, haligned⟩ hlow hhigh

/-- The log of the example is one that can be consolidated. -/
theorem log_ok : Log info log 2 100 where
  tail := by unfold Ring.In; decide
  lt := by decide
  head := by decide
  cs_ne := by decide
  first := ⟨_, rfl⟩
  good := by
    intro k hk
    interval_cases k
    · refine ⟨⟨_, _, rfl⟩, ?_, ?_, by decide⟩
      · exact List.forall_mem_cons.mpr ⟨.cs 100 7 (by decide) (by decide), List.forall_mem_cons.mpr
          ⟨nodeOk (by decide), List.forall_mem_singleton.mpr (nodeOk (by decide))⟩⟩
      · unfold Agrees; decide
    · refine ⟨⟨_, _, rfl⟩, ?_, ?_, by decide⟩
      · exact List.forall_mem_cons.mpr ⟨.cs 110 8 (by decide) (by decide), List.forall_mem_cons.mpr
          ⟨nodeOk (by decide), List.forall_mem_singleton.mpr (nodeOk (by decide))⟩⟩
      · unfold Agrees; decide
  last := by
    refine .inl ⟨⟨_, _, rfl⟩, ?_, ?_, by decide⟩
    · exact List.forall_mem_cons.mpr ⟨.cs 120 8 (by decide) (by decide),
        List.forall_mem_singleton.mpr (nodeOk (by decide))⟩
    · unfold Agrees; decide
  fit := by decide
  ends := by
    refine .inr (.inr ⟨_, _, rfl, ?_⟩)
    decide
  room := by decide
  minIo := by decide

theorem consolidation_keeps_journal_twice :
    ∃ r res s, replayLog info log = .ok r ∧ ubifsConsolidateLog info log = some (res, s) ∧
      (∀ f ∈ s.history, ∃ r', replayLog info f = .ok r' ∧ r'.csSqnum = r.csSqnum ∧
        r'.replayBuds = r.replayBuds) ∧
      (res = .error .einval ↔ 2 = 0 ∨ capSum info 2 < r.replayBuds.length) ∧
      ∀ head, res = .ok head → ∃ w, Consolidated info 2 r.replayBuds head w s.flash :=
  consolidation_keeps_journal log_ok

end FailedCommits

end Ubifs.Consolidation
