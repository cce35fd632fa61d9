/-
  Budgeting (`budget.c`).

  Before an operation dirties anything it asks for the flash space that writing it back may take, in
  three parts: growth of the index, new data, and data that makes other data dirty.  The sums of what
  was granted are in `bi.idx_growth`, `bi.data_growth` and `bi.dd_growth`; a request is granted if the
  index and the data still fit.

  Any number of tasks call these functions.  A critical section under `space_lock` is one step;
  between two attempts of `ubifs_budget_space` the others run, write-back and commit among them
  (`Step`).  `budgets_conserved` is what every interleaving keeps: the sums are those of the requests
  that are outstanding, and what was granted did fit.
-/
import FlashStack.Lib.Reach
import FlashStack.Ubifs.Media
import Mathlib.Algebra.BigOperators.Group.Multiset.Basic
import Mathlib.Algebra.Order.Ring.Int

namespace Ubifs

open Lib

/-! ## Requests -/

/-- What budgeting knows about the file system; it does not change while it is mounted. -/
structure BudgInfo where
  lebSize : Nat
  mainBytes : Int
  /-- effective LEB size of the index -/
  idxLebSize : Nat
  maxIdxNodeSz : Nat
  jheadCnt : Nat
  darkWm : Nat
  /-- the reserved pool -/
  rpSize : Int
  /-- `UBIFS_BLOCKS_PER_PAGE_SHIFT` -/
  blocksPerPageShift : Nat

/-- `MIN_INDEX_LEBS`: what is kept for the index even if that is empty. -/
def minIndexLebs : Int := 2

namespace BudgInfo

/-- What one page, one inode and one directory entry may need on the media at most. -/
def pageBudget (c : BudgInfo) : Nat := ubifsMaxDataNodeSz <<< c.blocksPerPageShift
def inodeBudget (_ : BudgInfo) : Nat := ubifsInoNodeSz
def dentBudget (_ : BudgInfo) : Nat := ubifsMaxDentNodeSz

end BudgInfo

/-- `struct ubifs_budget_req`: the bit-fields of one bit are flags. -/
structure BudgetReq where
  fast : Bool := false
  recalculate : Bool := false
  newPage : Bool := false
  dirtiedPage : Bool := false
  newDent : Bool := false
  modDent : Bool := false
  newIno : Bool := false
  newInoD : Nat := 0
  dirtiedIno : Nat := 0
  dirtiedInoD : Nat := 0
  idxGrowth : Nat := 0
  dataGrowth : Nat := 0
  ddGrowth : Nat := 0

/-- `calc_idx_growth`: each new thing may need an index node of its own. -/
def calcIdxGrowth (c : BudgInfo) (req : BudgetReq) : Nat :=
  let znodes := req.newIno.toNat + req.newPage.toNat <<< c.blocksPerPageShift + req.newDent.toNat
  znodes * c.maxIdxNodeSz

/-- `calc_data_growth`: what the operation adds. -/
def calcDataGrowth (c : BudgInfo) (req : BudgetReq) : Nat :=
  (if req.newIno then c.inodeBudget else 0) + (if req.newPage then c.pageBudget else 0) +
    (if req.newDent then c.dentBudget else 0) + req.newInoD

/-- `calc_dd_growth`: what the operation makes dirty a second time. -/
def calcDdGrowth (c : BudgInfo) (req : BudgetReq) : Nat :=
  (if req.dirtiedPage then c.pageBudget else 0) +
    (if req.dirtiedIno ≠ 0 then c.inodeBudget <<< (req.dirtiedIno - 1) else 0) +
    (if req.modDent then c.dentBudget else 0) + req.dirtiedInoD

/-- What one request asks for. -/
structure Growth where
  idx : Nat
  data : Nat
  dd : Nat
deriving DecidableEq

/-- The three growths of a request, as `ubifs_budget_space` works them out. -/
def BudgetReq.growth (c : BudgInfo) (req : BudgetReq) : Growth :=
  ⟨calcIdxGrowth c req, calcDataGrowth c req, calcDdGrowth c req⟩

/-! ## The space -/

/-- `c->bi`, apart from its constants. -/
structure BudgetState where
  idxGrowth : Int
  dataGrowth : Int
  ddGrowth : Int
  uncommittedIdx : Int
  oldIdxSz : Int
  minIdxLebs : Int
  nospace : Bool
  nospaceRp : Bool

/-- `c->lst` and the counts of LEBs beside it. -/
structure SpaceStats where
  emptyLebs : Int
  takenEmptyLebs : Int
  idxLebs : Int
  totalUsed : Int
  totalDead : Int
  totalDark : Int
  freeableCnt : Int
  idxGcCnt : Int

/-- What is promised, and what there is to promise from. -/
structure Space where
  bi : BudgetState
  lst : SpaceStats

/-- `ubifs_calc_min_idx_lebs`. -/
def ubifsCalcMinIdxLebs (c : BudgInfo) (bi : BudgetState) : Int :=
  let idxSize := bi.oldIdxSz + bi.idxGrowth + bi.uncommittedIdx
  -- thrice the index size
  let idxSize := idxSize + 2 * idxSize
  let idxLebs := (idxSize + c.idxLebSize - 1) / c.idxLebSize + 1
  if idxLebs < minIndexLebs then minIndexLebs else idxLebs

/-- `ubifs_calc_available`: free and dirty space, less what no node can be written to. -/
def ubifsCalcAvailable (c : BudgInfo) (lst : SpaceStats) (minIdxLebs : Int) : Int :=
  let available := c.mainBytes - lst.totalUsed
  -- the index, one LEB for GC, the heads but one, one LEB for deletions
  let subtractLebs := minIdxLebs + 1 + (c.jheadCnt - 1) + 1
  let available := available - subtractLebs * c.lebSize - lst.totalDead - lst.totalDark
  let available := if lst.idxLebs > minIdxLebs then
    available - (lst.idxLebs - minIdxLebs) * c.darkWm else available
  if available > 0 then available else 0

/-- LEBs that the index still has to get. -/
def SpaceStats.rsvdIdxLebs (lst : SpaceStats) (minIdxLebs : Int) : Int :=
  if minIdxLebs > lst.idxLebs then minIdxLebs - lst.idxLebs else 0

/-- LEBs that the index may get. -/
def SpaceStats.lebs (lst : SpaceStats) : Int :=
  lst.emptyLebs + lst.freeableCnt + lst.idxGcCnt - lst.takenEmptyLebs

/-- What is promised for data, and not yet written. -/
def BudgetState.outstanding (bi : BudgetState) : Int := bi.dataGrowth + bi.ddGrowth

namespace Space

/-- The promise is made. -/
def grow (s : Space) (g : Growth) : Space :=
  { s with bi := { s.bi with
      idxGrowth := s.bi.idxGrowth + g.idx
      dataGrowth := s.bi.dataGrowth + g.data
      ddGrowth := s.bi.ddGrowth + g.dd } }

/-- The promise is taken back. -/
def shrink (s : Space) (g : Growth) : Space :=
  { s with bi := { s.bi with
      idxGrowth := s.bi.idxGrowth - g.idx
      dataGrowth := s.bi.dataGrowth - g.data
      ddGrowth := s.bi.ddGrowth - g.dd } }

/-- Store the number of LEBs that the index has to keep. -/
def setMinIdxLebs (s : Space) (minIdxLebs : Int) : Space :=
  { s with bi := { s.bi with minIdxLebs } }

end Space

/-- Returns the space if the request fits, nothing for `-ENOSPC`; `rp` tells whether the caller may
    use the reserved pool (`can_use_rp`). -/
def doBudgetSpace (c : BudgInfo) (rp : Bool) (s : Space) : Option Space :=
  let minIdxLebs := ubifsCalcMinIdxLebs c s.bi
  if s.lst.rsvdIdxLebs minIdxLebs > s.lst.lebs then none
  else
    let available := ubifsCalcAvailable c s.lst minIdxLebs
    if available < s.bi.outstanding then none
    else if available - s.bi.outstanding ≤ c.rpSize ∧ rp = false then none
    else some (s.setMinIdxLebs minIdxLebs)

/-- How one attempt of `ubifs_budget_space` ends. -/
inductive Attempt
  | nospace
  | denied
  | granted
deriving DecidableEq

/-- `ubifs_budget_space` from `again` to the end of the critical section. -/
def budgetAttempt (c : BudgInfo) (rp : Bool) (g : Growth) (s : Space) : Attempt × Space :=
  if s.bi.nospace ∧ (s.bi.nospaceRp ∨ rp = false) then (.nospace, s)
  else match doBudgetSpace c rp (s.grow g) with
    | some s' => (.granted, s')
    -- restore the old values
    | none => (.denied, (s.grow g).shrink g)

/-- What `ubifs_release_budget` gives back. -/
def BudgetReq.released (c : BudgInfo) (req : BudgetReq) : Growth :=
  if req.recalculate then req.growth c else ⟨req.idxGrowth, req.dataGrowth, req.ddGrowth⟩

/-- `ubifs_release_budget`. -/
def ubifsReleaseBudget (c : BudgInfo) (req : BudgetReq) (s : Space) : Space :=
  let g := req.released c
  if g.data = 0 ∧ g.dd = 0 then s
  else
    let s := s.shrink g
    let s := { s with bi := { s.bi with
      nospace := false, nospaceRp := false, uncommittedIdx := s.bi.uncommittedIdx + g.idx } }
    s.setMinIdxLebs (ubifsCalcMinIdxLebs c s.bi)

/-- `ubifs_convert_page_budget`: a new page has become a dirty page. -/
def ubifsConvertPageBudget (c : BudgInfo) (s : Space) : Space :=
  let s := { s with bi := { s.bi with
    idxGrowth := s.bi.idxGrowth - (c.maxIdxNodeSz <<< c.blocksPerPageShift : Nat)
    dataGrowth := s.bi.dataGrowth - c.pageBudget
    ddGrowth := s.bi.ddGrowth + c.pageBudget } }
  s.setMinIdxLebs (ubifsCalcMinIdxLebs c s.bi)

/-- `ubifs_release_dirty_inode_budget`: a dirty inode has been written. -/
def ubifsReleaseDirtyInodeBudget (c : BudgInfo) (dataLen : Nat) (s : Space) : Space :=
  ubifsReleaseBudget c { ddGrowth := c.inodeBudget + align dataLen 8 } s

/-- `ubifs_tnc_start_commit`, under the same lock: the index has a new size, and what was budgeted
    for it before is part of that. -/
def startCommit (c : BudgInfo) (calcIdxSz : Int) (s : Space) : Space :=
  let s := { s with bi := { s.bi with oldIdxSz := calcIdxSz, uncommittedIdx := 0 } }
  s.setMinIdxLebs (ubifsCalcMinIdxLebs c s.bi)

/-! ## Tasks -/

/-- A task in `ubifs_budget_space`. -/
structure BudgetCall where
  req : BudgetReq
  /-- `can_use_rp` -/
  rp : Bool
  retried : Bool

/-- Where a task is in `ubifs_budget_space`. -/
inductive Task
  | idle
  /-- before an attempt -/
  | again (call : BudgetCall)
  /-- in `make_free_space`, after an attempt failed -/
  | makeFreeSpace (call : BudgetCall)

/-- The file system, the tasks, and what was granted and not given back. -/
structure Sys where
  space : Space
  task : Nat → Task
  outstanding : Multiset Growth

/-- What a step means for the callers of `ubifs_budget_space`. -/
inductive Outcome
  /-- a call goes on -/
  | waiting
  /-- a call returns zero -/
  | granted (call : BudgetCall)
  /-- a call returns an error -/
  | failed
  /-- a step of something else -/
  | other

/-- A part of a grant that is given back on its own. -/
def Growth.Whole (g : Growth) : Prop := g.data = 0 → g.dd = 0 → g.idx = 0

/-- A file system that was just mounted: nothing is budgeted. -/
structure BudgetStart (c : BudgInfo) (s : Sys) : Prop where
  task : ∀ i, s.task i = .idle
  idx : s.space.bi.idxGrowth = 0
  data : s.space.bi.dataGrowth = 0
  dd : s.space.bi.ddGrowth = 0
  minIdxLebs : s.space.bi.minIdxLebs = ubifsCalcMinIdxLebs c s.space.bi
  outstanding : s.outstanding = 0

/-- One critical section of one task, or a change of the space statistics. -/
inductive Step (c : BudgInfo) : Sys → Outcome → Sys → Prop
  /-- Nothing is asked for. -/
  | budgetEmpty {s} (call : BudgetCall) : calcDataGrowth c call.req = 0 →
      calcDdGrowth c call.req = 0 → Step c s (.granted call) s
  /-- `ubifs_budget_space` is called. -/
  | budget {s} (i : Nat) (call : BudgetCall) :
      ¬(calcDataGrowth c call.req = 0 ∧ calcDdGrowth c call.req = 0) →
      Step c s .waiting { s with task := Function.update s.task i (.again call) }
  | granted {s i call space} : s.task i = .again call →
      budgetAttempt c call.rp (call.req.growth c) s.space = (.granted, space) →
      Step c s (.granted call)
        { space, task := Function.update s.task i .idle
          outstanding := call.req.growth c ::ₘ s.outstanding }
  | nospace {s i call space} : s.task i = .again call →
      budgetAttempt c call.rp (call.req.growth c) s.space = (.nospace, space) →
      Step c s .failed { s with space, task := Function.update s.task i .idle }
  | deniedFast {s i call space} : s.task i = .again call → call.req.fast = true →
      budgetAttempt c call.rp (call.req.growth c) s.space = (.denied, space) →
      Step c s .failed { s with space, task := Function.update s.task i .idle }
  | denied {s i call space} : s.task i = .again call → call.req.fast = false →
      budgetAttempt c call.rp (call.req.growth c) s.space = (.denied, space) →
      Step c s .waiting { s with space, task := Function.update s.task i (.makeFreeSpace call) }
  /-- `make_free_space` returned `-EAGAIN`. -/
  | madeSpace {s i call} : s.task i = .makeFreeSpace call →
      Step c s .waiting { s with task := Function.update s.task i (.again call) }
  /-- It returned `-ENOSPC`, but anyway try once again. -/
  | retry {s i call} : s.task i = .makeFreeSpace call → call.retried = false →
      Step c s .waiting
        { s with task := Function.update s.task i (.again { call with retried := true }) }
  /-- It returned `-ENOSPC` again: the file system is full. -/
  | full {s i call} : s.task i = .makeFreeSpace call → call.retried = true →
      Step c s .failed
        { s with
          space := { s.space with bi := { s.space.bi with
            nospace := true
            nospaceRp := s.space.bi.nospaceRp || (call.rp || c.rpSize == 0) } }
          task := Function.update s.task i .idle }
  /-- It returned another error. -/
  | error {s i call} : s.task i = .makeFreeSpace call →
      Step c s .failed { s with task := Function.update s.task i .idle }
  | release {s} (req : BudgetReq) : req.released c ∈ s.outstanding →
      Step c s .other
        { s with
          space := ubifsReleaseBudget c req s.space
          outstanding := s.outstanding.erase (req.released c) }
  /-- What was granted for nothing. -/
  | releaseEmpty {s} (req : BudgetReq) : req.released c = ⟨0, 0, 0⟩ →
      Step c s .other { s with space := ubifsReleaseBudget c req s.space }
  | convertPage {s} : BudgetReq.growth c { newPage := true } ∈ s.outstanding →
      Step c s .other
        { s with
          space := ubifsConvertPageBudget c s.space
          outstanding := BudgetReq.growth c { dirtiedPage := true } ::ₘ
            s.outstanding.erase (BudgetReq.growth c { newPage := true }) }
  | releaseDirtyInode {s} (dataLen : Nat) :
      BudgetReq.growth c { dirtiedIno := 1, dirtiedInoD := align dataLen 8 } ∈ s.outstanding →
      Step c s .other
        { s with
          space := ubifsReleaseDirtyInodeBudget c dataLen s.space
          outstanding := s.outstanding.erase
            (BudgetReq.growth c { dirtiedIno := 1, dirtiedInoD := align dataLen 8 }) }
  /-- The page and the inode of one request are given back one after the other. -/
  | split {s} (g g' : Growth) : g.Whole → g'.Whole →
      ⟨g.idx + g'.idx, g.data + g'.data, g.dd + g'.dd⟩ ∈ s.outstanding →
      Step c s .other
        { s with
          outstanding := g ::ₘ g' ::ₘ
            s.outstanding.erase ⟨g.idx + g'.idx, g.data + g'.data, g.dd + g'.dd⟩ }
  /-- LEBs are taken, filled, emptied and collected. -/
  | stats {s} (lst : SpaceStats) : Step c s .other { s with space := { s.space with lst } }
  /-- Something was deleted. -/
  | clearNospace {s} : Step c s .other { s with
      space := { s.space with bi := { s.space.bi with nospace := false, nospaceRp := false } } }
  | commit {s} (calcIdxSz : Int) :
      Step c s .other { s with space := startCommit c calcIdxSz s.space }

/-! ## What every interleaving keeps -/

/-- The counters are the sums over the outstanding requests. -/
structure Balanced (c : BudgInfo) (space : Space) (m : Multiset Growth) : Prop where
  idx : space.bi.idxGrowth = ((m.map Growth.idx).sum : Nat)
  data : space.bi.dataGrowth = ((m.map Growth.data).sum : Nat)
  dd : space.bi.ddGrowth = ((m.map Growth.dd).sum : Nat)
  minIdxLebs : space.bi.minIdxLebs = ubifsCalcMinIdxLebs c space.bi
  whole : ∀ g ∈ m, g.Whole

/-- The request fits, by the inequalities of `do_budget_space`. -/
structure Fits (c : BudgInfo) (rp : Bool) (s : Space) : Prop where
  minIdxLebs : s.bi.minIdxLebs = ubifsCalcMinIdxLebs c s.bi
  index : s.lst.rsvdIdxLebs s.bi.minIdxLebs ≤ s.lst.lebs
  data : s.bi.outstanding ≤ ubifsCalcAvailable c s.lst s.bi.minIdxLebs
  pool : rp = false → c.rpSize < ubifsCalcAvailable c s.lst s.bi.minIdxLebs - s.bi.outstanding

section Space

variable {c : BudgInfo} {rp : Bool} {g : Growth} {s s' : Space}

/-- A promise that is taken back leaves nothing. -/
theorem Space.shrink_grow (s : Space) (g : Growth) : (s.grow g).shrink g = s := by
  unfold Space.grow Space.shrink
  congr 2
  all_goals simp

/-- **A request that is granted fits**, and only the number of index LEBs is noted. -/
theorem doBudgetSpace_fits (h : doBudgetSpace c rp s = some s') :
    s' = s.setMinIdxLebs (ubifsCalcMinIdxLebs c s.bi) ∧ Fits c rp s' := by
  unfold doBudgetSpace at h
  simp only at h
  split at h
  · cases h
  · rename_i hidx
    split at h
    · cases h
    · rename_i hdata
      split at h
      · cases h
      · rename_i hpool
        cases h
        refine ⟨rfl, ⟨rfl, Int.not_lt.mp hidx, Int.not_lt.mp hdata, fun hrp => ?_⟩⟩
        rw [not_and_or, Int.not_le] at hpool
        exact hpool.resolve_right fun hn => hn hrp

/-- What is granted fits in the space that is left. -/
theorem budgetAttempt_granted {space : Space} (h : budgetAttempt c rp g s = (.granted, space)) :
    space = (s.grow g).setMinIdxLebs (ubifsCalcMinIdxLebs c (s.grow g).bi) ∧ Fits c rp space := by
  unfold budgetAttempt at h
  split at h
  · cases h
  · split at h
    · rename_i s' hdo
      cases h
      exact doBudgetSpace_fits hdo
    · cases h

/-- An attempt that fails restores the old values. -/
theorem budgetAttempt_failed {r : Attempt} {space : Space} (h : budgetAttempt c rp g s = (r, space))
    (hr : r ≠ .granted) : space = s := by
  unfold budgetAttempt at h
  split at h
  · cases h
    rfl
  · split at h
    · cases h
      exact absurd rfl hr
    · cases h
      exact s.shrink_grow g

end Space

section Balanced

variable {c : BudgInfo} {space : Space} {m : Multiset Growth}

/-- Taking a grant out of the outstanding ones. -/
theorem Growth.sum_erase {g : Growth} (h : g ∈ m) :
    g.idx + ((m.erase g).map Growth.idx).sum = (m.map Growth.idx).sum ∧
    g.data + ((m.erase g).map Growth.data).sum = (m.map Growth.data).sum ∧
    g.dd + ((m.erase g).map Growth.dd).sum = (m.map Growth.dd).sum :=
  ⟨Multiset.sum_map_erase h, Multiset.sum_map_erase h, Multiset.sum_map_erase h⟩

/-- One more promise. -/
theorem Balanced.grant (h : Balanced c space m) {g : Growth} (hg : g.Whole) :
    Balanced c ((space.grow g).setMinIdxLebs (ubifsCalcMinIdxLebs c (space.grow g).bi))
      (g ::ₘ m) := by
  obtain ⟨hi, hd, hdd, -, hw⟩ := h
  refine ⟨?_, ?_, ?_, rfl, ?_⟩
  · show space.bi.idxGrowth + _ = _
    rw [Multiset.map_cons, Multiset.sum_cons]
    omega
  · show space.bi.dataGrowth + _ = _
    rw [Multiset.map_cons, Multiset.sum_cons]
    omega
  · show space.bi.ddGrowth + _ = _
    rw [Multiset.map_cons, Multiset.sum_cons]
    omega
  · intro x hx
    rcases Multiset.mem_cons.mp hx with rfl | hx
    · exact hg
    · exact hw x hx

/-- Giving back an outstanding grant. -/
theorem Balanced.release (h : Balanced c space m) {req : BudgetReq} (hr : req.released c ∈ m) :
    Balanced c (ubifsReleaseBudget c req space) (m.erase (req.released c)) := by
  obtain ⟨hsumi, hsumd, hsumdd⟩ := Growth.sum_erase hr
  obtain ⟨hi, hd, hdd, hmin, hw⟩ := h
  have hw' : ∀ g ∈ m.erase (req.released c), g.Whole := fun g hg =>
    hw g (Multiset.mem_of_mem_erase hg)
  unfold ubifsReleaseBudget
  by_cases hnone : (req.released c).data = 0 ∧ (req.released c).dd = 0
  · -- nothing was granted, so nothing for the index either
    have hidx := hw _ hr hnone.1 hnone.2
    rw [if_pos hnone]
    exact ⟨by omega, by omega, by omega, hmin, hw'⟩
  · rw [if_neg hnone]
    refine ⟨?_, ?_, ?_, rfl, hw'⟩
    · show space.bi.idxGrowth - _ = _
      omega
    · show space.bi.dataGrowth - _ = _
      omega
    · show space.bi.ddGrowth - _ = _
      omega

/-- A new page needs an index node and its data. -/
theorem newPage_growth (c : BudgInfo) : BudgetReq.growth c { newPage := true } =
    ⟨c.maxIdxNodeSz <<< c.blocksPerPageShift, c.pageBudget, 0⟩ := by
  simp [BudgetReq.growth, calcIdxGrowth, calcDataGrowth, calcDdGrowth, Nat.shiftLeft_eq, Nat.mul_comm]

theorem dirtiedPage_growth (c : BudgInfo) : BudgetReq.growth c { dirtiedPage := true } =
    ⟨0, 0, c.pageBudget⟩ := by
  simp [BudgetReq.growth, calcIdxGrowth, calcDataGrowth, calcDdGrowth]

/-- The budget of a dirty inode is what its release computes. -/
theorem dirtiedIno_growth (c : BudgInfo) (dataLen : Nat) :
    BudgetReq.growth c { dirtiedIno := 1, dirtiedInoD := align dataLen 8 } =
      BudgetReq.released c { ddGrowth := c.inodeBudget + align dataLen 8 } := by
  simp [BudgetReq.growth, BudgetReq.released, calcIdxGrowth, calcDataGrowth, calcDdGrowth]

/-- A page budget becomes the smaller one of an existing page. -/
theorem Balanced.convertPage (h : Balanced c space m)
    (hr : BudgetReq.growth c { newPage := true } ∈ m) :
    Balanced c (ubifsConvertPageBudget c space) (BudgetReq.growth c { dirtiedPage := true } ::ₘ
      m.erase (BudgetReq.growth c { newPage := true })) := by
  obtain ⟨hsumi, hsumd, hsumdd⟩ := Growth.sum_erase hr
  obtain ⟨hi, hd, hdd, -, hw⟩ := h
  rw [newPage_growth] at hsumi hsumd hsumdd ⊢
  rw [dirtiedPage_growth]
  simp only at hsumi hsumd hsumdd
  refine ⟨?_, ?_, ?_, rfl, ?_⟩
  · show space.bi.idxGrowth - _ = _
    simp only [Multiset.map_cons, Multiset.sum_cons]
    omega
  · show space.bi.dataGrowth - _ = _
    simp only [Multiset.map_cons, Multiset.sum_cons]
    omega
  · show space.bi.ddGrowth + _ = _
    simp only [Multiset.map_cons, Multiset.sum_cons]
    omega
  · intro g hg
    rcases Multiset.mem_cons.mp hg with rfl | hg
    · exact fun _ _ => rfl
    · exact hw g (Multiset.mem_of_mem_erase hg)

/-- A promise is split in two. -/
theorem Balanced.split (h : Balanced c space m) {g g' : Growth} (hg : g.Whole) (hg' : g'.Whole)
    (hr : ⟨g.idx + g'.idx, g.data + g'.data, g.dd + g'.dd⟩ ∈ m) :
    Balanced c space
      (g ::ₘ g' ::ₘ m.erase ⟨g.idx + g'.idx, g.data + g'.data, g.dd + g'.dd⟩) := by
  obtain ⟨hsumi, hsumd, hsumdd⟩ := Growth.sum_erase hr
  obtain ⟨hi, hd, hdd, hmin, hw⟩ := h
  simp only at hsumi hsumd hsumdd
  refine ⟨?_, ?_, ?_, hmin, ?_⟩
  · simp only [Multiset.map_cons, Multiset.sum_cons]
    omega
  · simp only [Multiset.map_cons, Multiset.sum_cons]
    omega
  · simp only [Multiset.map_cons, Multiset.sum_cons]
    omega
  · intro x hx
    simp only [Multiset.mem_cons] at hx
    rcases hx with rfl | rfl | hx
    · exact hg
    · exact hg'
    · exact hw x (Multiset.mem_of_mem_erase hx)

end Balanced

/-! ## Runs -/

/-- The call asks for something. -/
def BudgetCall.Asks (c : BudgInfo) (call : BudgetCall) : Prop :=
  ¬(calcDataGrowth c call.req = 0 ∧ calcDdGrowth c call.req = 0)

/-- Requests are multiples of eight bytes. -/
theorem BudgetCall.Asks.whole {c : BudgInfo} {call : BudgetCall} (h : call.Asks c) :
    (call.req.growth c).Whole := fun hdata hdd => absurd ⟨hdata, hdd⟩ h

/-- The call that a task is in. -/
def Task.call : Task → Option BudgetCall
  | .idle => none
  | .again call => some call
  | .makeFreeSpace call => some call

/-- The counters are right, and no task waits for nothing. -/
structure BudgetInv (c : BudgInfo) (s : Sys) : Prop where
  balanced : Balanced c s.space s.outstanding
  asks : ∀ i call, (s.task i).call = some call → call.Asks c

section Step

variable {c : BudgInfo} {s s' : Sys} {l : Outcome}

/-- A task goes on. -/
theorem BudgetInv.setTask (h : BudgetInv c s) {i : Nat} {t : Task} {space : Space}
    {m : Multiset Growth} (hb : Balanced c space m) (ht : ∀ call, t.call = some call → call.Asks c) :
    BudgetInv c ⟨space, Function.update s.task i t, m⟩ := by
  refine ⟨hb, fun j call hj => ?_⟩
  have hj : (Function.update s.task i t j).call = some call := hj
  by_cases hji : j = i
  · subst hji
    rw [Function.update_self] at hj
    exact ht call hj
  · rw [Function.update_of_ne hji] at hj
    exact h.asks j call hj

/-- **A step** keeps the counters right. -/
theorem BudgetInv.step (h : BudgetInv c s) (hs : Step c s l s') : BudgetInv c s' := by
  have hb := h.balanced
  have hidle : ∀ call, Task.idle.call = some call → call.Asks c := fun _ hc => by cases hc
  have hcall : ∀ {i call}, s.task i = .again call ∨ s.task i = .makeFreeSpace call →
      call.Asks c := by
    rintro i call (ht | ht)
    · exact h.asks i call (by rw [ht]; rfl)
    · exact h.asks i call (by rw [ht]; rfl)
  have hsame : ∀ {call : BudgetCall} {r space}, budgetAttempt c call.rp (call.req.growth c) s.space =
      (r, space) → r ≠ .granted → Balanced c space s.outstanding := by
    intro call r space ha hr
    rw [budgetAttempt_failed ha hr]
    exact hb
  cases hs with
  | budgetEmpty call => exact h
  | budget i call hasks => exact h.setTask hb fun _ hc => by cases hc; exact hasks
  | granted ht ha =>
    obtain ⟨rfl, -⟩ := budgetAttempt_granted ha
    exact h.setTask (hb.grant (hcall (.inl ht)).whole) hidle
  | nospace ht ha => exact h.setTask (hsame ha (by decide)) hidle
  | deniedFast ht _ ha => exact h.setTask (hsame ha (by decide)) hidle
  | denied ht _ ha =>
    exact h.setTask (hsame ha (by decide)) fun _ hc => by cases hc; exact hcall (.inl ht)
  | madeSpace ht => exact h.setTask hb fun _ hc => by cases hc; exact hcall (.inr ht)
  | retry ht _ =>
    have hasks := hcall (.inr ht)
    exact h.setTask hb fun _ hc => by cases hc; exact hasks
  | full ht _ => exact h.setTask ⟨hb.idx, hb.data, hb.dd, hb.minIdxLebs, hb.whole⟩ hidle
  | error ht => exact h.setTask hb hidle
  | release req hr => exact ⟨hb.release hr, h.asks⟩
  | releaseEmpty req hr =>
    refine ⟨?_, h.asks⟩
    have hnone : (req.released c).data = 0 ∧ (req.released c).dd = 0 := by rw [hr]; exact ⟨rfl, rfl⟩
    unfold ubifsReleaseBudget
    rw [if_pos hnone]
    exact hb
  | convertPage hr => exact ⟨hb.convertPage hr, h.asks⟩
  | releaseDirtyInode dataLen hr =>
    refine ⟨?_, h.asks⟩
    rw [dirtiedIno_growth] at hr ⊢
    exact hb.release hr
  | split g g' hg hg' hr => exact ⟨hb.split hg hg' hr, h.asks⟩
  | stats lst => exact ⟨⟨hb.idx, hb.data, hb.dd, hb.minIdxLebs, hb.whole⟩, h.asks⟩
  | clearNospace => exact ⟨⟨hb.idx, hb.data, hb.dd, hb.minIdxLebs, hb.whole⟩, h.asks⟩
  | commit calcIdxSz => exact ⟨⟨hb.idx, hb.data, hb.dd, rfl, hb.whole⟩, h.asks⟩

/-- A step of a call that is not granted leaves the counters and the grants as they were. -/
theorem Step.unchanged (hs : Step c s l s') (hl : l = .waiting ∨ l = .failed) :
    s'.outstanding = s.outstanding ∧ s'.space.bi.idxGrowth = s.space.bi.idxGrowth ∧
      s'.space.bi.dataGrowth = s.space.bi.dataGrowth ∧
      s'.space.bi.ddGrowth = s.space.bi.ddGrowth := by
  cases hs with
  | budget | madeSpace | retry | full | error => exact ⟨rfl, rfl, rfl, rfl⟩
  | nospace ht ha =>
    obtain rfl := budgetAttempt_failed ha (by decide)
    exact ⟨rfl, rfl, rfl, rfl⟩
  | deniedFast ht _ ha =>
    obtain rfl := budgetAttempt_failed ha (by decide)
    exact ⟨rfl, rfl, rfl, rfl⟩
  | denied ht _ ha =>
    obtain rfl := budgetAttempt_failed ha (by decide)
    exact ⟨rfl, rfl, rfl, rfl⟩
  | _ => exact absurd hl (by simp)

/-- A request that was granted fits. -/
theorem Step.fits {call : BudgetCall} (hs : Step c s (.granted call) s') (hasks : call.Asks c) :
    Fits c call.rp s'.space ∧ s'.outstanding = call.req.growth c ::ₘ s.outstanding := by
  cases hs with
  | budgetEmpty _ hdata hdd => exact absurd ⟨hdata, hdd⟩ hasks
  | granted ht ha => exact ⟨(budgetAttempt_granted ha).2, rfl⟩

/-- The steps of all tasks. -/
def Steps (c : BudgInfo) (s s' : Sys) : Prop := ∃ l, Step c s l s'

/-- The invariant holds in every state that is reached. -/
theorem budgetInv_of_reach (hr : Reach (BudgetStart c) (Steps c) s) : BudgetInv c s := by
  refine hr.invariant (fun s h => ⟨⟨?_, ?_, ?_, h.minIdxLebs, ?_⟩, ?_⟩)
    fun s s' hi ⟨_, hs⟩ => hi.step hs
  · rw [h.idx, h.outstanding]
    rfl
  · rw [h.data, h.outstanding]
    rfl
  · rw [h.dd, h.outstanding]
    rfl
  · intro g hg
    rw [h.outstanding] at hg
    exact absurd hg (Multiset.notMem_zero g)
  · intro i call hcall
    rw [h.task i] at hcall
    cases hcall

/-- **Budgets are conserved** in every interleaving. -/
theorem budgets_conserved (hr : Reach (BudgetStart c) (Steps c) s) :
    s.space.bi.idxGrowth = ((s.outstanding.map Growth.idx).sum : Nat) ∧
    s.space.bi.dataGrowth = ((s.outstanding.map Growth.data).sum : Nat) ∧
    s.space.bi.ddGrowth = ((s.outstanding.map Growth.dd).sum : Nat) ∧
    0 ≤ s.space.bi.idxGrowth ∧ 0 ≤ s.space.bi.dataGrowth ∧ 0 ≤ s.space.bi.ddGrowth ∧
    s.space.bi.minIdxLebs = ubifsCalcMinIdxLebs c s.space.bi ∧
    (∀ l s', Step c s l s' → l = .waiting ∨ l = .failed →
      s'.outstanding = s.outstanding ∧ s'.space.bi.idxGrowth = s.space.bi.idxGrowth ∧
        s'.space.bi.dataGrowth = s.space.bi.dataGrowth ∧
        s'.space.bi.ddGrowth = s.space.bi.ddGrowth) ∧
    ∀ call s', Step c s (.granted call) s' → call.Asks c →
      Fits c call.rp s'.space ∧ s'.outstanding = call.req.growth c ::ₘ s.outstanding := by
  have hb := (budgetInv_of_reach hr).balanced
  have hidx := hb.idx
  have hdata := hb.data
  have hdd := hb.dd
  exact ⟨hidx, hdata, hdd, by omega, by omega, by omega, hb.minIdxLebs,
    fun l s' hs hl => hs.unchanged hl, fun call s' hs hasks => hs.fits hasks⟩

end Step

/-! ## An empty request -/

/-- 100 LEBs of 16 KiB. -/
def smallFs : BudgInfo where
  lebSize := 16384
  mainBytes := 100 * 16384
  idxLebSize := 16384 - 192
  maxIdxNodeSz := 192
  jheadCnt := 3
  darkWm := 8192
  rpSize := 0
  blocksPerPageShift := 0

/-- The small file system, with `empty` of its LEBs empty and the rest used. -/
def smallSys (empty : Nat) : Sys where
  space :=
    { bi := ⟨0, 0, 0, 0, 0, 2, false, false⟩
      lst := ⟨empty, 0, 0, (100 - empty) * 16384, 0, 0, 0, 0⟩ }
  task _ := .idle
  outstanding := 0

/-- The example starts with nothing promised. -/
theorem smallSys_start (empty : Nat) : BudgetStart smallFs (smallSys empty) :=
  ⟨fun _ => rfl, rfl, rfl, rfl, rfl, rfl⟩

/-- A file is created: an inode, its directory entry, and the directory that gets dirty. -/
def newFile : BudgetCall := ⟨{ newIno := true, newDent := true, dirtiedIno := 1 }, false, false⟩

/-- A new file on the empty file system. -/
theorem newFile_conserved : ∃ s : Sys, s.outstanding = {newFile.req.growth smallFs} ∧
    s.space.bi.idxGrowth = 384 ∧ Fits smallFs false s.space := by
  have hasks : newFile.Asks smallFs := fun h => absurd h.1 (by decide)
  have hcall : Reach (BudgetStart smallFs) (Steps smallFs)
      { smallSys 100 with task := Function.update (smallSys 100).task 0 (.again newFile) } :=
    (Reach.init (smallSys_start 100)).step ⟨_, .budget 0 newFile hasks⟩
  obtain ⟨space, hattempt⟩ : ∃ space, budgetAttempt smallFs newFile.rp
      (newFile.req.growth smallFs) (smallSys 100).space = (.granted, space) :=
    ⟨_, Prod.ext (show (budgetAttempt smallFs false (newFile.req.growth smallFs)
      (smallSys 100).space).1 = .granted by decide) rfl⟩
  have hgrant := Step.granted (s := { smallSys 100 with
    task := Function.update (smallSys 100).task 0 (.again newFile) }) (Function.update_self ..) hattempt
  obtain ⟨hidx, -⟩ := budgets_conserved (hcall.step ⟨_, hgrant⟩)
  obtain ⟨-, -, -, -, -, -, -, -, hfits⟩ := budgets_conserved hcall
  obtain ⟨hf, ho⟩ := hfits _ _ hgrant hasks
  refine ⟨_, ho, ?_, hf⟩
  rw [hidx, ho]
  rfl

/-- A request for nothing is granted on a full file system. -/
theorem empty_request_granted : ∃ call s, Reach (BudgetStart smallFs) (Steps smallFs) (smallSys 0) ∧
    Step smallFs (smallSys 0) (.granted call) s ∧ ¬Fits smallFs call.rp s.space :=
  ⟨⟨{}, false, false⟩, smallSys 0, .init (smallSys_start 0), .budgetEmpty _ rfl rfl,
    fun hf => absurd hf.index (by decide)⟩

end Ubifs
