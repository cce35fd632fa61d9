/-
  The journal of `Buds` is the one of `Log`.

  `Log` follows the ring of log LEBs and what a replay needs of them; `Buds` follows the objects and
  the errors of the calls.  Both have the functions of `log.c`.  As long as nothing fails, a call of
  `Buds` is what its events are in `Log` (`Call.events`): the head, the tail and the counters are the
  same, and so are the buds, which `Buds` has in the order of the LEBs and `Log` in the order they
  were added (`InLog`).
-/
import FlashStack.Ubifs.BudBytes
import FlashStack.Ubifs.LogRing

namespace Ubifs.Buds

open Lib
open Log (Geometry Wbuf)

/-- A bud as the log has it. -/
def Bud.inLog (bud : Bud) : Log.Bud := ⟨bud.lnum, bud.start, bud.jhead⟩

/-- `do_commit` is at the same point. -/
inductive Stage.Seen : Stage → Log.Commit → Prop
  | resting : Seen .resting .resting
  | started (tail cs : Nat) : Seen (.started tail) (.running tail cs)
  | ended (tail cs : Nat) : Seen (.ended tail) (.ended tail cs)

/-- The buds and the log have the same head and tail, the same buds and the same counters. -/
structure InLog (g : Geometry) (s : Info) (t : Log.State) : Prop where
  head : t.lheadLnum = s.lheadLnum ∧ t.lheadOffs = s.lheadOffs
  tail : t.ltailLnum = s.ltailLnum
  minLogBytes : t.minLogBytes = s.minLogBytes
  buds : (s.buds.map Bud.inLog).Perm t.buds
  budBytes : t.budBytes = s.budBytes
  cmtBudBytes : t.cmtBudBytes = s.cmtBudBytes
  stage : s.stage.Seen t.commit
  jheads : ∀ bud ∈ s.buds, bud.jhead < g.jheadCnt
  works : s.replaying = false ∧ s.broken = false ∧ s.roError = false

/-- The write-buffers as the log is told of them. -/
def Info.wbufList (g : Geometry) (s : Info) : List Wbuf := (List.range g.jheadCnt).map s.wbufs

/-- What a call does to the log; the master node is written before `ubifs_log_post_commit`. -/
def Call.events (g : Geometry) (s : Info) : Call → List Log.Event
  | .reserve _ jhead lnum offs => [.addBud jhead lnum offs]
  | .startCommit _ => [.startCommit (s.wbufList g)]
  | .endCommit => [.endCommit]
  | .postCommit _ => [.writeMaster, .postCommit]
  | .replayBud .. | .replaySeek .. | .replayEnd | .write .. | .abortCommit => []

/-- The call is made after the replay, and nothing in it fails. -/
def Call.Works (g : Geometry) : Call → Prop
  | .reserve env jhead _ _ => jhead < g.jheadCnt ∧ env = ⟨true, true, none, none, none⟩
  | .write .. | .endCommit => True
  | .startCommit env => env = ⟨true, none, none⟩
  | .postCommit env => (∀ lnum, env.returnLeb lnum = none) ∧ env.unmap = none
  | .replayBud .. | .replaySeek .. | .replayEnd | .abortCommit => False

variable {g : Geometry} {s s' : Info} {t : Log.State}

/-! ## The head -/

/-- The head moves on to the next LEB, in both. -/
theorem nextHead_inLog {p : Prop} [Decidable p] (h : InLog g s t) :
    InLog g
      (if p then { s with lheadLnum := Log.State.nextLogLnum g s.lheadLnum, lheadOffs := 0 } else s)
      (if p then { t with lheadLnum := Log.State.nextLogLnum g t.lheadLnum, lheadOffs := 0 }
        else t) := by
  split
  · refine ⟨⟨?_, rfl⟩, h.tail, h.minLogBytes, h.buds, h.budBytes, h.cmtBudBytes, h.stage, h.jheads,
      h.works⟩
    show Log.State.nextLogLnum g t.lheadLnum = Log.State.nextLogLnum g s.lheadLnum
    rw [h.head.1]
  · exact h

/-- Both heads move on. -/
theorem moveOn_inLog (h : InLog g s t) : InLog g (s.moveOn g) (t.moveOn g) := by
  unfold Info.moveOn Log.State.moveOn
  rw [h.head.2]
  exact nextHead_inLog h

theorem switchLeb_inLog (h : InLog g s t) : InLog g (s.switchLeb g) (t.switchLeb g) := by
  unfold Info.switchLeb Log.State.switchLeb
  rw [h.head.2]
  exact nextHead_inLog h

theorem leaveFull_inLog (h : InLog g s t) : InLog g (s.leaveFull g) (t.leaveFull g) := by
  unfold Info.leaveFull Log.State.leaveFull
  rw [h.head.2]
  exact nextHead_inLog h

/-- Clearing the head changes the flash only. -/
theorem clearHead_frame (t : Log.State) : ∃ flash overrun,
    t.clearHead = { t with flash := flash, overrun := overrun } := by
  unfold Log.State.clearHead
  split
  · exact ⟨_, _, rfl⟩
  · exact ⟨_, _, rfl⟩

/-- What is written there does not matter to the buds. -/
theorem writeHead_inLog (h : InLog g s t) (n len : Nat) :
    InLog g { s with lheadOffs := s.lheadOffs + len } (t.clearHead.writeHead g n len) := by
  obtain ⟨_, _, hclear⟩ := clearHead_frame t
  rw [hclear]
  exact ⟨⟨h.head.1, congrArg (· + len) h.head.2⟩, h.tail, h.minLogBytes, h.buds, h.budBytes,
    h.cmtBudBytes, h.stage, h.jheads, h.works⟩

/-! ## Adding a bud -/

/-- They have the same space left. -/
theorem emptyLogBytes_inLog (h : InLog g s t) : t.emptyLogBytes g = s.emptyLogBytes g := by
  unfold Log.State.emptyLogBytes Info.emptyLogBytes
  rw [h.head.1, h.head.2, h.tail]

/-- A bud is added to both. -/
theorem addBud_inLog (h : InLog g s t) (lnum start : Nat) {jhead : Nat}
    (hjhead : jhead < g.jheadCnt) :
    InLog g (s.ubifsAddBud g lnum start jhead) (t.ubifsAddBud g ⟨lnum, start, jhead⟩) := by
  refine ⟨h.head, h.tail, h.minLogBytes, ?_, ?_, h.cmtBudBytes, h.stage, ?_, h.works⟩
  · refine ((Info.insertBud_perm _ _).map Bud.inLog).trans ?_
    exact (h.buds.cons _).trans (List.perm_append_singleton _ _).symm
  · show t.budBytes + _ = s.budBytes + _
    rw [h.budBytes]
  · intro bud hbud
    rcases List.mem_cons.mp ((Info.insertBud_perm _ _).mem_iff.mp hbud) with rfl | hbud
    · exact hjhead
    · exact h.jheads bud hbud

/-- A reference node is written by both, or refused by both. -/
theorem reserve_inLog (h : InLog g s t) (lnum offs : Nat) {jhead : Nat}
    (hjhead : jhead < g.jheadCnt) :
    InLog g (match s.ubifsAddBudToLog g ⟨true, true, none, none, none⟩ jhead lnum offs with
      | (.error _, s) => s
      | (.ok (), s) => s.seek jhead lnum offs) (t.ubifsAddBudToLog g jhead lnum offs) := by
  have h : InLog g s { t with
      overrated := t.overrated || decide ((t.room g : Int) < t.emptyLogBytes g) } :=
    ⟨h.head, h.tail, h.minLogBytes, h.buds, h.budBytes, h.cmtBudBytes, h.stage, h.jheads, h.works⟩
  unfold Info.ubifsAddBudToLog Log.State.ubifsAddBudToLog
  generalize ({ t with
    overrated := t.overrated || decide ((t.room g : Int) < t.emptyLogBytes g) } : Log.State) = t at h ⊢
  dsimp only
  rw [if_neg (by simp), if_neg (by simp [h.works.2.2]), emptyLogBytes_inLog h, h.minLogBytes, h.budBytes]
  by_cases hroom : s.emptyLogBytes g - (g.refNodeAlsz : Int) < s.minLogBytes
  · rw [if_pos hroom, if_pos hroom]
    exact h
  rw [if_neg hroom, if_neg hroom]
  by_cases hbytes : s.budBytes + g.lebSize - offs > g.maxBudBytes
  · rw [if_pos hbytes, if_pos hbytes]
    exact h
  rw [if_neg hbytes, if_neg hbytes, ite_self, ite_self]
  have hadd := addBud_inLog (writeHead_inLog (moveOn_inLog h) 1 g.refNodeAlsz) lnum offs hjhead
  exact ⟨hadd.head, hadd.tail, hadd.minLogBytes, hadd.buds, hadd.budBytes, hadd.cmtBudBytes,
    hadd.stage, hadd.jheads, hadd.works⟩

/-! ## Starting a commit -/

/-- The bud stays, and begins where its head is. -/
def stays (wbufs : Nat → Wbuf) (bud : Log.Bud) : Option Log.Bud :=
  if (wbufs bud.jhead).lnum = some bud.lnum then some { bud with start := (wbufs bud.jhead).offs }
  else none

/-- What of a bud is behind it. -/
def passed (g : Geometry) (wbufs : Nat → Wbuf) (bud : Log.Bud) : Int :=
  if (wbufs bud.jhead).lnum = some bud.lnum then (wbufs bud.jhead).offs - bud.start
  else g.lebSize - bud.start

/-- A loop that puts out something for some of the elements, and adds up a cost. -/
theorem foldl_collects {σ β γ : Type} (f : σ → β → σ) (bs : List β) (P : σ → Prop)
    (keep : β → Option γ) (cost : β → Int) (out : σ → List γ) (sum : σ → Int)
    (hone : ∀ s, P s → ∀ b ∈ bs, P (f s b) ∧ out (f s b) = out s ++ (keep b).toList ∧
      sum (f s b) = sum s + cost b) : ∀ s, P s →
      out (bs.foldl f s) = out s ++ bs.filterMap keep ∧
        sum (bs.foldl f s) = sum s + (bs.map cost).sum := by
  induction bs with
  | nil => exact fun s _ => ⟨(List.append_nil _).symm, (Int.add_zero _).symm⟩
  | cons b bs ih =>
    intro s hs
    obtain ⟨hP, hout, hsum⟩ := hone s hs b (List.mem_cons_self ..)
    obtain ⟨hout', hsum'⟩ := ih (fun s hs c hc => hone s hs c (List.mem_cons_of_mem _ hc)) _ hP
    rw [List.foldl_cons]
    refine ⟨hout'.trans ?_, hsum'.trans ?_⟩
    · rw [hout, List.append_assoc, List.filterMap_cons]
      cases keep b with
      | none => rfl
      | some c => rfl
    · rw [hsum, List.map_cons, List.sum_cons, Int.add_assoc]

/-- What a commit does with the buds of the log. -/
theorem removeBuds_log (wbufs : Nat → Wbuf) (hjheads : ∀ bud ∈ t.buds, bud.jhead < g.jheadCnt) :
    (t.removeBuds g ((List.range g.jheadCnt).map wbufs)).buds = t.buds.filterMap (stays wbufs) ∧
      (t.removeBuds g ((List.range g.jheadCnt).map wbufs)).cmtBudBytes =
        (t.buds.map (passed g wbufs)).sum := by
  have hall := foldl_collects (Log.State.removeBud g ((List.range g.jheadCnt).map wbufs)) t.buds
    (fun _ => True) (stays wbufs) (passed g wbufs) Log.State.buds Log.State.cmtBudBytes ?_
    { t with cmtBudBytes := 0, buds := [] } trivial
  · exact ⟨hall.1, hall.2.trans (Int.zero_add _)⟩
  intro t _ bud hbud
  have hget : ((List.range g.jheadCnt).map wbufs)[bud.jhead]? = some (wbufs bud.jhead) := by
    rw [List.getElem?_map, List.getElem?_range (hjheads bud hbud)]
    rfl
  unfold Log.State.removeBud stays passed
  rw [hget]
  obtain ⟨lnum, offs⟩ := wbufs bud.jhead
  cases lnum with
  | none => exact ⟨trivial, (List.append_nil _).symm, rfl⟩
  | some lnum =>
    simp only [Option.some.injEq]
    split
    · exact ⟨trivial, rfl, rfl⟩
    · exact ⟨trivial, (List.append_nil _).symm, rfl⟩

/-- And with those of the tree. -/
theorem removeBuds_info (s : Info) :
    (s.removeBuds g).buds.map Bud.inLog = (s.buds.map Bud.inLog).filterMap (stays s.wbufs) ∧
      (s.removeBuds g).cmtBudBytes = ((s.buds.map Bud.inLog).map (passed g s.wbufs)).sum := by
  rw [List.filterMap_map, List.map_map]
  have hall := foldl_collects (Info.removeBud g) s.buds (fun t => t.wbufs = s.wbufs)
    (stays s.wbufs ∘ Bud.inLog) (passed g s.wbufs ∘ Bud.inLog) (fun t => t.buds.map Bud.inLog)
    Info.cmtBudBytes ?_ { s with cmtBudBytes := 0, buds := [] } rfl
  · exact ⟨hall.1, hall.2.trans (Int.zero_add _)⟩
  intro t ht bud _
  have hw := congrFun ht bud.jhead
  unfold Info.removeBud
  simp only [hw, Function.comp_apply, stays, passed, Bud.inLog]
  by_cases hlnum : (s.wbufs bud.jhead).lnum = some bud.lnum
  · simp only [hlnum, if_true]
    exact ⟨ht, List.map_append, trivial⟩
  · simp only [hlnum, if_false]
    exact ⟨ht, (List.append_nil _).symm, trivial⟩

/-- It is the same. -/
theorem removeBuds_inLog (h : InLog g s t) :
    ((s.removeBuds g).buds.map Bud.inLog).Perm (t.removeBuds g (s.wbufList g)).buds ∧
      (t.removeBuds g (s.wbufList g)).cmtBudBytes = (s.removeBuds g).cmtBudBytes ∧
      ∀ bud ∈ (s.removeBuds g).buds, bud.jhead < g.jheadCnt := by
  have hjheads : ∀ bud ∈ t.buds, bud.jhead < g.jheadCnt := by
    intro bud hbud
    obtain ⟨b, hb, rfl⟩ := List.mem_map.mp (h.buds.mem_iff.mpr hbud)
    exact h.jheads b hb
  obtain ⟨hlog, hlogCmt⟩ := removeBuds_log s.wbufs hjheads
  obtain ⟨hinfo, hinfoCmt⟩ := removeBuds_info (g := g) s
  have hperm : ((s.removeBuds g).buds.map Bud.inLog).Perm (t.removeBuds g (s.wbufList g)).buds := by
    rw [hinfo]
    exact (h.buds.filterMap _).trans (List.Perm.of_eq hlog.symm)
  refine ⟨hperm, hlogCmt.trans ?_, fun bud hbud => ?_⟩
  · rw [hinfoCmt]
    exact ((h.buds.map _).sum_eq).symm
  · have hmem := List.mem_map_of_mem (f := Bud.inLog) hbud
    rw [hinfo] at hmem
    obtain ⟨b, hb, hkeep⟩ := List.mem_filterMap.mp hmem
    have hjhead : bud.jhead = b.jhead := by
      unfold stays at hkeep
      split at hkeep
      · exact (congrArg Log.Bud.jhead (Option.some.inj hkeep)).symm
      · cases hkeep
    rw [hjhead]
    exact hjheads b (h.buds.mem_iff.mp hb)

/-- Nothing but the buds changes. -/
theorem removeBuds_frame (s : Info) : ∃ buds heads oldBuds cmtBudBytes taken, s.removeBuds g =
    { s with
      buds := buds
      heads := heads
      oldBuds := oldBuds
      cmtBudBytes := cmtBudBytes
      taken := taken } := by
  have hall : ∀ (bs : List Bud) (s : Info), ∃ buds heads oldBuds cmtBudBytes taken,
      bs.foldl (Info.removeBud g) s =
        { s with
          buds := buds
          heads := heads
          oldBuds := oldBuds
          cmtBudBytes := cmtBudBytes
          taken := taken } := by
    intro bs
    induction bs with
    | nil => exact fun s => ⟨_, _, _, _, _, rfl⟩
    | cons bud bs ih =>
      intro s
      obtain ⟨_, _, _, _, _, h⟩ := ih (Info.removeBud g s bud)
      rw [List.foldl_cons, h]
      unfold Info.removeBud
      dsimp only
      split
      · exact ⟨_, _, _, _, _, rfl⟩
      · exact ⟨_, _, _, _, _, rfl⟩
  obtain ⟨_, _, _, _, _, h⟩ := hall s.buds { s with cmtBudBytes := 0, buds := [] }
  exact ⟨_, _, _, _, _, h⟩

/-- So many references are written behind the commit start node. -/
theorem refs_inLog (s : Info) : (s.wbufList g).countP (Log.State.Wbuf.refd g) = s.refs g := by
  unfold Info.wbufList Info.refs
  rw [List.countP_map]
  rfl

/-- A commit starts in both, at the same LEB. -/
theorem startCommit_inLog (h : InLog g s t) :
    ∃ s', s.ubifsLogStartCommit g ⟨true, none, none⟩ = (.ok (s.switchLeb g).lheadLnum, s') ∧
      InLog g { s' with stage := .started (s.switchLeb g).lheadLnum }
        (t.ubifsLogStartCommit g (s.wbufList g)) := by
  unfold Info.ubifsLogStartCommit Log.State.ubifsLogStartCommit
  rw [if_neg (by simp)]
  refine ⟨_, rfl, ?_⟩
  dsimp only
  rw [refs_inLog]
  have hswitch := switchLeb_inLog h
  have hwritten := leaveFull_inLog
    (writeHead_inLog hswitch (1 + s.refs g) (g.csLen (s.refs g)))
  have hwbufs : s.wbufList g = Info.wbufList g
      (Info.leaveFull g { s.switchLeb g with lheadOffs := (s.switchLeb g).lheadOffs + g.csLen (s.refs g) }) := by
    obtain ⟨_, _, hs⟩ := Info.switchLeb_eq (g := g) s
    obtain ⟨_, _, hl⟩ := Info.leaveFull_eq (g := g)
      { s.switchLeb g with lheadOffs := (s.switchLeb g).lheadOffs + g.csLen (s.refs g) }
    rw [hl, hs]
    rfl
  rw [hwbufs, hswitch.head.1]
  generalize Info.leaveFull g { s.switchLeb g with
    lheadOffs := (s.switchLeb g).lheadOffs + g.csLen (s.refs g) } = s₁ at hwritten ⊢
  generalize Log.State.leaveFull g ((t.switchLeb g).clearHead.writeHead g (1 + s.refs g)
    (g.csLen (s.refs g))) = t₁ at hwritten ⊢
  obtain ⟨hbuds, hcmt, hjheads⟩ := removeBuds_inLog hwritten
  obtain ⟨_, _, _, _, _, hinfo⟩ := removeBuds_frame (g := g) s₁
  obtain ⟨_, _, _, hlog⟩ := Log.State.removeBuds_frame g t₁ (s₁.wbufList g)
  rw [hinfo, hlog] at hbuds hcmt
  rw [hinfo] at hjheads ⊢
  rw [hlog]
  exact ⟨hwritten.head, hwritten.tail, rfl, hbuds, hwritten.budBytes, hcmt, .started _ _, hjheads,
    hwritten.works⟩

/-! ## Ending a commit -/

/-- It ends in both. -/
theorem endCommit_inLog (h : InLog g s t) (tail cs : Nat) :
    InLog g { s.ubifsLogEndCommit g tail with stage := .ended s.ltailLnum }
      { t.ubifsLogEndCommit g tail with commit := .ended t.ltailLnum cs } := by
  refine ⟨h.head, rfl, rfl, h.buds, ?_, h.cmtBudBytes, ?_, h.jheads, h.works⟩
  · show t.budBytes - t.cmtBudBytes = s.budBytes - s.cmtBudBytes
    rw [h.budBytes, h.cmtBudBytes]
  · show Stage.Seen (.ended s.ltailLnum) (.ended t.ltailLnum cs)
    rw [h.tail]
    exact .ended _ _

/-- Returning the old buds does not touch the log. -/
theorem releaseOld_frame {returnLeb : Nat → Option Errno} (hfine : ∀ lnum, returnLeb lnum = none)
    (old : List Bud) : ∀ s : Info, ∃ oldBuds returned freed, Info.releaseOld returnLeb old s =
      (none, { s with oldBuds := oldBuds, returned := returned, freed := freed }) := by
  induction old with
  | nil => exact fun s => ⟨_, _, _, rfl⟩
  | cons bud rest ih =>
    intro s
    obtain ⟨_, _, _, h⟩ := ih
      { s with
        oldBuds := rest
        returned := s.returned ++ [bud.id]
        freed := s.freed ++ [bud.id] }
    rw [Info.releaseOld, hfine]
    exact ⟨_, _, _, h⟩

/-- The master node is written in between. -/
theorem postCommit_inLog {env : Info.PostEnv} (h : InLog g s t) (tail cs : Nat)
    (hfine : ∀ lnum, env.returnLeb lnum = none) (hunmap : env.unmap = none) :
    ∃ s', s.ubifsLogPostCommit env tail = (none, s') ∧
      InLog g { s' with stage := .resting }
        { { t with mstCs := cs, commit := .written tail }.ubifsLogPostCommit g tail with
          commit := .resting } := by
  obtain ⟨_, _, _, hrelease⟩ := releaseOld_frame hfine s.oldBuds s
  obtain ⟨_, hlog, -⟩ := Log.State.unmapUpto_frame g
    { t with mstCs := cs, commit := .written tail, oldBuds := [] } g.logLebs tail
  unfold Info.ubifsLogPostCommit Log.State.ubifsLogPostCommit
  rw [hrelease, hlog, hunmap]
  dsimp only
  rw [ite_self]
  exact ⟨_, rfl, h.head, h.tail, h.minLogBytes, h.buds, h.budBytes, h.cmtBudBytes, .resting,
    h.jheads, h.works⟩

/-! ## Runs -/

/-- A call of `Buds` is what its events are in the log. -/
theorem step_inLog {call : Call} (h : InLog g s t) (hworks : call.Works g)
    (hstep : s.step g call = some s') :
    ∃ t', (call.events g s).foldlM (Log.State.step g) t = some t' ∧ InLog g s' t' := by
  obtain ⟨hreplaying, hbroken, -⟩ := id h.works
  cases call with
  | reserve env jhead lnum offs =>
    -- A bud is added, or the commit is asked for.
    obtain ⟨hjhead, rfl⟩ := hworks
    have hreserve := reserve_inLog h lnum offs hjhead
    refine ⟨_, rfl, ?_⟩
    rw [Info.step, if_neg (by simp [hreplaying])] at hstep
    split at hstep
    · rename_i hadd
      rw [hadd] at hreserve
      cases hstep
      exact hreserve
    · rename_i hadd
      rw [hadd] at hreserve
      cases hstep
      exact hreserve
  | write jhead len =>
    -- Nothing is written to the log.
    rw [Info.step, if_neg (by simp [hreplaying])] at hstep
    cases hstep
    exact ⟨t, rfl, h.head, h.tail, h.minLogBytes, h.buds, h.budBytes, h.cmtBudBytes, h.stage, h.jheads,
      h.works⟩
  | startCommit env =>
    obtain rfl : env = _ := hworks
    obtain ⟨s₁, hstart, hin⟩ := startCommit_inLog h
    have hstage := h.stage
    rw [Info.step] at hstep
    split at hstep
    · cases hstep
    rename_i hrest
    -- A commit starts only while none runs, on both sides.
    have hrest : s.stage = .resting := not_not.mp fun hne => hrest (.inr (.inr hne))
    rw [hstart] at hstep
    cases hstep
    rw [hrest] at hstage
    refine ⟨t.ubifsLogStartCommit g (s.wbufList g), ?_, hin⟩
    have hlog : t.step g (.startCommit (s.wbufList g)) =
        some (t.ubifsLogStartCommit g (s.wbufList g)) := by
      have hlen : (s.wbufList g).length = g.jheadCnt := by
        rw [Info.wbufList, List.length_map, List.length_range]
      unfold Log.State.step
      generalize t.commit = commit at hstage
      cases hstage
      exact if_pos hlen
    show (t.step g _).bind _ = _
    rw [hlog]
    rfl
  | endCommit =>
    have hstage := h.stage
    rw [Info.step, if_neg (by simp [hbroken])] at hstep
    cases hs : s.stage with
    | started tail =>
      -- The log has written its commit start, with the tail that will be.
      rw [hs] at hstep hstage
      cases hstep
      generalize hc : t.commit = commit at hstage
      cases hstage with
      | started _ cs =>
        refine ⟨_, ?_, endCommit_inLog h tail cs⟩
        show (t.step g .endCommit).bind _ = _
        unfold Log.State.step
        rw [hc]
        rfl
    | resting =>
      rw [hs] at hstep
      cases hstep
    | ended tail =>
      rw [hs] at hstep
      cases hstep
  | postCommit env =>
    obtain ⟨hfine, hunmap⟩ := hworks
    have hstage := h.stage
    rw [Info.step, if_neg (by simp [hbroken])] at hstep
    cases hs : s.stage with
    | ended tail =>
      -- The master node is written, and the old LEBs of the log are given back.
      rw [hs] at hstep hstage
      generalize hc : t.commit = commit at hstage
      cases hstage with
      | ended _ cs =>
        obtain ⟨s₁, hpost, hin⟩ := postCommit_inLog h tail cs hfine hunmap
        dsimp only at hstep
        rw [hpost] at hstep
        cases hstep
        refine ⟨_, ?_, hin⟩
        show (t.step g .writeMaster).bind _ = _
        unfold Log.State.step
        rw [hc]
        rfl
    | resting =>
      rw [hs] at hstep
      cases hstep
    | started tail =>
      rw [hs] at hstep
      cases hstep
  -- `Call.Works` leaves out the replay and a commit that is aborted.
  | replayBud lnum start jhead => exact hworks.elim
  | replaySeek jhead lnum offs => exact hworks.elim
  | replayEnd => exact hworks.elim
  | abortCommit => exact hworks.elim

/-- Events in a row. -/
theorem reach_foldlM (events : List Log.Event) {t t' : Log.State}
    (h : EventReach (Log.State.step g) (fun _ _ => True) (Log.Mounted g) t)
    (hrun : events.foldlM (Log.State.step g) t = some t') :
    EventReach (Log.State.step g) (fun _ _ => True) (Log.Mounted g) t' := by
  induction events generalizing t with
  | nil =>
    cases hrun
    exact h
  | cons e events ih =>
    obtain ⟨t₁, hstep, hrest⟩ := Option.bind_eq_some_iff.mp hrun
    exact ih (h.step ⟨e, trivial, hstep⟩) hrest

/-- So a run in which nothing fails is a run of the log. -/
theorem run_inLog (h : EventReach (Info.step g) (fun _ call => call.Works g)
      (fun s => ∃ t, Log.Mounted g t ∧ InLog g s t) s) :
    ∃ t, EventReach (Log.State.step g) (fun _ _ => True) (Log.Mounted g) t ∧ InLog g s t := by
  apply EventReach.invariant ?_ ?_ h
  · rintro s ⟨t, ht, hin⟩
    exact ⟨t, .init ht, hin⟩
  · rintro s s' call ⟨t, ht, hin⟩ hworks hstep
    obtain ⟨t', hrun, hin'⟩ := step_inLog hin hworks hstep
    exact ⟨t', reach_foldlM _ ht hrun, hin'⟩

end Ubifs.Buds
