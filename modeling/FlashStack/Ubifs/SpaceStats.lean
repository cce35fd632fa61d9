/-
  The space statistics (`c->lst`) count what the LEB properties are.

  A LEB has its share in each count (`share`).  `ubifs_change_lp` takes the old share out and puts the
  new one in, though not count by count (`Change.apply_eq`); looking up LEBs, copying them and sorting
  them into categories changes no share at all.

  So `lst` is the sum of the shares over the LEBs (`recomputed`) after each call, be the LEB
  properties in memory or not; a call that fails leaves both as they were.
-/
import FlashStack.Lib.Totals
import FlashStack.Ubifs.LpCategories

open Lib

namespace Ubifs.Lp

/-! ## Statistics -/

/-- `struct ubifs_lp_stats` -/
@[ext] structure LpStats where
  emptyLebs : Int
  takenEmptyLebs : Int
  idxLebs : Int
  totalFree : Int
  totalDirty : Int
  totalUsed : Int
  totalDead : Int
  totalDark : Int
deriving DecidableEq

/-- `ALIGN(x, 8)`, of an `int`. -/
def align8 (x : Int) : Int := (x + 7) / 8 * 8

/-- `ubifs_calc_dark`. -/
def ubifsCalcDark (g : Consts) (spc : Int) : Int :=
  if spc < g.darkWm then spc
  else if spc - g.darkWm < minWriteSz then spc - minWriteSz
  else g.darkWm

namespace LpStats

variable (g : Consts) (lst : LpStats) (lp : Lprops)

/-! The blocks of `ubifs_change_lp`, in their order. -/

/-- The LEB is taken out of the statistics, as `ubifs_change_lp` starts. -/
def takeOut : LpStats :=
  let lst := if lp.flags.taken ∧ lp.free = g.lebSize then
      { lst with takenEmptyLebs := lst.takenEmptyLebs - 1 } else lst
  if lp.flags.index then lst
  else
    let oldSpc := lp.free + lp.dirty
    let lst := if oldSpc < g.deadWm then { lst with totalDead := lst.totalDead - oldSpc }
      else { lst with totalDark := lst.totalDark - ubifsCalcDark g oldSpc }
    { lst with totalUsed := lst.totalUsed - (g.lebSize - oldSpc) }

/-- The free space is changed. -/
def setFree (free : Int) : LpStats :=
  let lst := { lst with totalFree := lst.totalFree + (free - lp.free) }
  if free = g.lebSize then
    if lp.free ≠ g.lebSize then { lst with emptyLebs := lst.emptyLebs + 1 } else lst
  else if lp.free = g.lebSize then { lst with emptyLebs := lst.emptyLebs - 1 } else lst

/-- The dirty space is changed. -/
def setDirty (dirty : Int) : LpStats :=
  { lst with totalDirty := lst.totalDirty + (dirty - lp.dirty) }

/-- The flags are changed; only the index flag is counted. -/
def setFlags (flags : Flags) : LpStats :=
  if lp.flags.index then
    if ¬ flags.index then { lst with idxLebs := lst.idxLebs - 1 } else lst
  else if flags.index then { lst with idxLebs := lst.idxLebs + 1 } else lst

/-- The LEB is counted again, with what it has now. -/
def putIn : LpStats :=
  let lst := if lp.flags.index then lst
    else
      let newSpc := lp.free + lp.dirty
      let lst := if newSpc < g.deadWm then { lst with totalDead := lst.totalDead + newSpc }
        else { lst with totalDark := lst.totalDark + ubifsCalcDark g newSpc }
      { lst with totalUsed := lst.totalUsed + (g.lebSize - newSpc) }
  if lp.flags.taken ∧ lp.free = g.lebSize then
    { lst with takenEmptyLebs := lst.takenEmptyLebs + 1 } else lst

end LpStats

/-- New values for a LEB.  `none` is `LPROPS_NC`. -/
structure Change where
  free : Option Int
  dirty : Option Int
  flags : Option Flags

namespace Change

variable (g : Consts) (ch : Change)

/-- The fields that are to change, in the order of `ubifs_change_lp`. -/
def chgFree (r : LpStats × Lprops) : LpStats × Lprops :=
  match ch.free with
  | none => r
  | some free => (r.1.setFree g r.2 (align8 free), { r.2 with free := align8 free })

def chgDirty (r : LpStats × Lprops) : LpStats × Lprops :=
  match ch.dirty with
  | none => r
  | some dirty => (r.1.setDirty r.2 (align8 dirty), { r.2 with dirty := align8 dirty })

def chgFlags (r : LpStats × Lprops) : LpStats × Lprops :=
  match ch.flags with
  | none => r
  | some flags => (r.1.setFlags r.2 flags, { r.2 with flags := flags })

/-- All of them, with the space that the LEB has out of the counts meanwhile. -/
def apply (lst : LpStats) (lp : Lprops) : LpStats × Lprops :=
  let r := ch.chgFlags (ch.chgDirty (ch.chgFree g (lst.takeOut g lp, lp)))
  (r.1.putIn g r.2, r.2)

end Change

/-! ## Tables -/

/-- The main LEBs, and the properties of those that are not in memory. -/
structure Table where
  lebs : Finset Nat
  flash : Nat → Lprops
  lnum : ∀ l, (flash l).lnum = l

/-- What a lookup does to the properties in memory, one LEB at a time. -/
inductive Move
  /-- `ubifs_get_pnode` -/
  | read (lnum p : Nat)
  /-- `dirty_cow_pnode` -/
  | copy (lnum new : Nat)

namespace Lpt

variable (T : Table)

/-- The properties of a LEB, wherever they are. -/
def props (s : Lpt) (l : Nat) : Vals :=
  match s.pnode l with
  | none => (T.flash l).vals
  | some p => (s.cats.lprops p).vals

/-- One change of the table in memory. -/
def move (s : Lpt) : Move → Lpt
  | .read lnum p => s.add p (T.flash lnum) (T.flash lnum).flags.cat
  | .copy lnum new =>
    match s.pnode lnum with
    | none => s
    | some old => s.replace lnum old new

/-- Only main LEBs are read, and only if they have not been.  Memory is allocated where no LEB is. -/
def Allows (s : Lpt) : Move → Prop
  | .read lnum p => lnum ∈ T.lebs ∧ s.pnode lnum = none ∧ ¬ s.Live p
  | .copy _ new => ¬ s.Live new

/-- Some of them, in order. -/
def moves (s : Lpt) : List Move → Lpt
  | [] => s
  | m :: ms => (s.move T m).moves ms

/-- Each of them is allowed when its turn comes. -/
def AllowsAll (s : Lpt) : List Move → Prop
  | [] => True
  | m :: ms => s.Allows T m ∧ (s.move T m).AllowsAll ms

end Lpt

/-- How a lookup goes.  One that fails has done some of its moves. -/
structure Look where
  moves : List Move
  result : Except Int Nat

/-- A look-up changes the table in allowed ways, and what it finds is there. -/
structure Look.Ok (T : Table) (s : Lpt) (lnum : Nat) (look : Look) : Prop where
  allowed : s.AllowsAll T look.moves
  found : ∀ p, look.result = .ok p → (s.moves T look.moves).pnode lnum = some p

/-- The table, the statistics and the count of index LEBs that were collected. -/
structure Space where
  lpt : Lpt
  lst : LpStats
  idxGcCnt : Int

/-- `LPROPS_TAKEN` and `LPROPS_INDEX`, to be set or cleaned. -/
structure Bits where
  taken : Bool
  index : Bool

/-- The flags after bits were set and cleared. -/
def Flags.setClean (flags : Flags) (set clean : Bits) : Flags where
  cat := flags.cat
  taken := (flags.taken || set.taken) && !clean.taken
  index := (flags.index || set.index) && !clean.index

namespace Space

variable (g : Consts) (T : Table) (s : Space)

/-- What is left of a look-up. -/
def lookup (look : Look) : Space := { s with lpt := s.lpt.moves T look.moves }

/-- `ubifs_change_lp`, from the lock on. -/
def changed (p : Nat) (ch : Change) (idxGcCnt : Int) : Space :=
  let r := ch.apply g s.lst (s.lpt.cats.lprops p)
  { lpt := { s.lpt with cats := (s.lpt.cats.write p r.2).changeCategory g p }
    lst := r.1
    idxGcCnt := s.idxGcCnt + idxGcCnt }

/-- Properties that are dirty (`is_lprops_dirty`) are not looked up. -/
def ubifsChangeLp (p : Nat) (look : Option Look) (ch : Change) (idxGcCnt : Int) :
    Except Int Nat × Space :=
  match look with
  | none => (.ok p, s.changed g p ch idxGcCnt)
  | some look =>
    match look.result with
    | .error err => (.error err, s.lookup T look)
    | .ok p => (.ok p, (s.lookup T look).changed g p ch idxGcCnt)

/-- `ubifs_change_one_lp`. -/
def ubifsChangeOneLp (look : Look) (again : Option Look) (free dirty : Option Int) (set clean : Bits)
    (idxGcCnt : Int) : Except Int Nat × Space :=
  match look.result with
  | .error err => (.error err, s.lookup T look)
  | .ok p =>
    let s := s.lookup T look
    let flags := (s.lpt.cats.lprops p).flags.setClean set clean
    s.ubifsChangeLp g T p again ⟨free, dirty, some flags⟩ idxGcCnt

/-- `ubifs_update_one_lp`. -/
def ubifsUpdateOneLp (look : Look) (again : Option Look) (free : Option Int) (dirty : Int)
    (set clean : Bits) : Except Int Nat × Space :=
  match look.result with
  | .error err => (.error err, s.lookup T look)
  | .ok p =>
    let s := s.lookup T look
    let lp := s.lpt.cats.lprops p
    let flags := lp.flags.setClean set clean
    s.ubifsChangeLp g T p again ⟨free, some (lp.dirty + dirty), some flags⟩ 0

end Space

/-- The three ways to change the properties of a LEB. -/
inductive Call
  | change (p : Nat) (look : Option Look) (ch : Change) (idxGcCnt : Int)
  | changeOne (lnum : Nat) (look : Look) (again : Option Look) (free dirty : Option Int)
    (set clean : Bits) (idxGcCnt : Int)
  | updateOne (lnum : Nat) (look : Look) (again : Option Look) (free : Option Int) (dirty : Int)
    (set clean : Bits)

namespace Call

variable (g : Consts) (T : Table)

/-- The call of `lprops.c`. -/
def run (s : Space) : Call → Except Int Nat × Space
  | change p look ch idxGcCnt => s.ubifsChangeLp g T p look ch idxGcCnt
  | changeOne _ look again free dirty set clean idxGcCnt =>
    s.ubifsChangeOneLp g T look again free dirty set clean idxGcCnt
  | updateOne _ look again free dirty set clean =>
    s.ubifsUpdateOneLp g T look again free dirty set clean

/-- The lookup in `ubifs_change_lp`, if there is one. -/
def OkAgain (s : Lpt) (lnum : Nat) (look : Option Look) : Prop :=
  ∀ l, look = some l → l.Ok T s lnum

/-- The properties are those of a LEB, and the lookups look for this LEB. -/
def Ok (s : Space) : Call → Prop
  | change p look _ _ => ∃ lnum, s.lpt.pnode lnum = some p ∧ OkAgain T s.lpt lnum look
  | changeOne lnum look again _ _ _ _ _ | updateOne lnum look again _ _ _ _ =>
    look.Ok T s.lpt lnum ∧ OkAgain T (s.lookup T look).lpt lnum again

end Call

/-- What happens to the properties of LEBs. -/
inductive SpaceStep (g : Consts) (T : Table) (s : Space) : Space → Prop
  | call (call : Call) : call.Ok T s → SpaceStep g T s (call.run g T s).2
  | lookup (lnum : Nat) (look : Look) : look.Ok T s.lpt lnum → SpaceStep g T s (s.lookup T look)
  | ensure (p : Nat) : SpaceStep g T s { s with lpt := s.lpt.ensure g p }

/-! ## Recomputed -/

/-- What a LEB counts for. -/
def share (g : Consts) (v : Vals) : LpStats where
  emptyLebs := if v.free = g.lebSize then 1 else 0
  takenEmptyLebs := if v.taken ∧ v.free = g.lebSize then 1 else 0
  idxLebs := if v.index then 1 else 0
  totalFree := v.free
  totalDirty := v.dirty
  totalUsed := if v.index then 0 else g.lebSize - (v.free + v.dirty)
  totalDead := if v.index then 0 else if v.free + v.dirty < g.deadWm then v.free + v.dirty else 0
  totalDark := if v.index then 0
    else if v.free + v.dirty < g.deadWm then 0 else ubifsCalcDark g (v.free + v.dirty)

/-- The sums over all main LEBs. -/
def recomputed (g : Consts) (lebs : Finset Nat) (props : Nat → Vals) : LpStats where
  emptyLebs := ∑ l ∈ lebs, (share g (props l)).emptyLebs
  takenEmptyLebs := ∑ l ∈ lebs, (share g (props l)).takenEmptyLebs
  idxLebs := ∑ l ∈ lebs, (share g (props l)).idxLebs
  totalFree := ∑ l ∈ lebs, (share g (props l)).totalFree
  totalDirty := ∑ l ∈ lebs, (share g (props l)).totalDirty
  totalUsed := ∑ l ∈ lebs, (share g (props l)).totalUsed
  totalDead := ∑ l ∈ lebs, (share g (props l)).totalDead
  totalDark := ∑ l ∈ lebs, (share g (props l)).totalDark

/-- Nothing has been read, and the counts are those of the table on the media. -/
structure Space.Initial (g : Consts) (T : Table) (s : Space) : Prop where
  pnode : ∀ lnum, s.lpt.pnode lnum = none
  lst : s.lst = recomputed g T.lebs fun l => (T.flash l).vals

/-! ## The share of one LEB -/

/-- One share for another. -/
def LpStats.shift (lst a b : LpStats) : LpStats where
  emptyLebs := lst.emptyLebs + (b.emptyLebs - a.emptyLebs)
  takenEmptyLebs := lst.takenEmptyLebs + (b.takenEmptyLebs - a.takenEmptyLebs)
  idxLebs := lst.idxLebs + (b.idxLebs - a.idxLebs)
  totalFree := lst.totalFree + (b.totalFree - a.totalFree)
  totalDirty := lst.totalDirty + (b.totalDirty - a.totalDirty)
  totalUsed := lst.totalUsed + (b.totalUsed - a.totalUsed)
  totalDead := lst.totalDead + (b.totalDead - a.totalDead)
  totalDark := lst.totalDark + (b.totalDark - a.totalDark)

/-- The counts while a LEB is being changed, with the space that it had out of them. -/
def LpStats.between (lst a b : LpStats) : LpStats where
  emptyLebs := lst.emptyLebs + (b.emptyLebs - a.emptyLebs)
  takenEmptyLebs := lst.takenEmptyLebs - a.takenEmptyLebs
  idxLebs := lst.idxLebs + (b.idxLebs - a.idxLebs)
  totalFree := lst.totalFree + (b.totalFree - a.totalFree)
  totalDirty := lst.totalDirty + (b.totalDirty - a.totalDirty)
  totalUsed := lst.totalUsed - a.totalUsed
  totalDead := lst.totalDead - a.totalDead
  totalDark := lst.totalDark - a.totalDark

section Shares

variable {g : Consts} {lst a : LpStats} {lp : Lprops} {ch : Change}
  {r : LpStats × Lprops}

/-- Taking a LEB out takes away its share. -/
theorem LpStats.takeOut_eq : lst.takeOut g lp = lst.between (share g lp.vals) (share g lp.vals) := by
  unfold takeOut between share Lprops.vals
  dsimp only
  generalize lp.free + lp.dirty = spc
  by_cases htaken : lp.flags.taken ∧ lp.free = g.lebSize <;> by_cases hidx : lp.flags.index <;>
    by_cases hdead : spc < g.deadWm <;> simp [htaken, hidx, hdead]

/-- Putting it in adds its new one. -/
theorem LpStats.putIn_eq :
    (lst.between a (share g lp.vals)).putIn g lp = lst.shift a (share g lp.vals) := by
  unfold putIn between shift share Lprops.vals
  dsimp only
  generalize lp.free + lp.dirty = spc
  by_cases htaken : lp.flags.taken ∧ lp.free = g.lebSize <;> by_cases hidx : lp.flags.index <;>
    by_cases hdead : spc < g.deadWm <;> simp [htaken, hidx, hdead] <;> omega

/-- In between, each field that changes is accounted for. -/
theorem Change.chgFree_eq (hr : r.1 = lst.between a (share g r.2.vals)) :
    (ch.chgFree g r).1 = lst.between a (share g (ch.chgFree g r).2.vals) := by
  unfold chgFree
  split
  · exact hr
  · rename_i free _
    rw [hr]
    generalize align8 free = free
    simp only [LpStats.setFree, LpStats.between, share, Lprops.vals]
    by_cases hnew : free = g.lebSize <;> by_cases hold : r.2.free = g.lebSize <;> simp [hnew, hold]
    · rfl
    · exact ⟨by omega, rfl, by omega⟩
    · exact ⟨by omega, rfl, by omega⟩
    · exact ⟨rfl, by omega⟩

theorem Change.chgDirty_eq (hr : r.1 = lst.between a (share g r.2.vals)) :
    (ch.chgDirty r).1 = lst.between a (share g (ch.chgDirty r).2.vals) := by
  unfold chgDirty
  split
  · exact hr
  · rw [hr]
    simp only [LpStats.setDirty, LpStats.between, share, Lprops.vals]
    congr 1
    omega

theorem Change.chgFlags_eq (hr : r.1 = lst.between a (share g r.2.vals)) :
    (ch.chgFlags r).1 = lst.between a (share g (ch.chgFlags r).2.vals) := by
  unfold chgFlags
  split
  · exact hr
  · rename_i flags _
    rw [hr]
    simp only [LpStats.setFlags, LpStats.between, share, Lprops.vals]
    by_cases hnew : flags.index <;> by_cases hold : r.2.flags.index <;>
      simp [hnew, hold] <;> omega

/-- `ubifs_change_lp` takes out the old share and puts in the new one. -/
theorem Change.apply_eq :
    (ch.apply g lst lp).1 = lst.shift (share g lp.vals) (share g (ch.apply g lst lp).2.vals) := by
  unfold Change.apply
  dsimp only
  rw [Change.chgFlags_eq (Change.chgDirty_eq (Change.chgFree_eq LpStats.takeOut_eq))]
  exact LpStats.putIn_eq

end Shares

/-! ## The sums when one LEB changes -/

/-- When one LEB changes, its share changes. -/
theorem recomputed_change {g : Consts} {lebs : Finset Nat} {props props' : Nat → Vals} {l : Nat}
    (hl : l ∈ lebs) (h : ∀ y, y ≠ l → props' y = props y) :
    recomputed g lebs props' =
      (recomputed g lebs props).shift (share g (props l)) (share g (props' l)) := by
  have hfield : ∀ field : LpStats → Int, ∑ y ∈ lebs, field (share g (props' y)) =
      ∑ y ∈ lebs, field (share g (props y)) +
        (field (share g (props' l)) - field (share g (props l))) := by
    intro field
    have hsum := @sum_change _ _ _ _ _ _ (fun y => field (share g (props y)))
      (fun y => field (share g (props' y))) hl fun y _ hy => by rw [h y hy]
    omega
  exact LpStats.ext (hfield _) (hfield _) (hfield _) (hfield _) (hfield _) (hfield _) (hfield _)
    (hfield _)

/-! ## Lookups -/

namespace Lpt

variable {T : Table} {s : Lpt} {p q old new lnum : Nat} {lp : Lprops} {cat : Cat}

/-- An address has the properties of one main LEB. -/
structure Placed (T : Table) (s : Lpt) : Prop where
  lnum : ∀ l p, s.pnode l = some p → (s.cats.lprops p).lnum = l
  main : ∀ l p, s.pnode l = some p → l ∈ T.lebs

/-- LEB properties that are written. -/
theorem vals_write {c : Cats} : ((c.write p lp).lprops q).vals =
    if q = p then lp.vals else (c.lprops q).vals := by
  simp only [Cats.write, Function.update_apply]
  split <;> rfl

/-- LEB properties that are read. -/
theorem vals_add : ((s.add p lp cat).cats.lprops q).vals =
    if q = p then lp.vals else (s.cats.lprops q).vals :=
  Cats.vals_addToCat.trans vals_write

/-- A copy has the values of the original. -/
theorem vals_replace : ((s.replace lnum old new).cats.lprops q).vals =
    if q = new then (s.cats.lprops old).vals else (s.cats.lprops q).vals :=
  Cats.vals_replaceCat.trans vals_write

/-- What counts is what is in memory, if it is there. -/
theorem props_of_some (h : s.pnode lnum = some p) : s.props T lnum = (s.cats.lprops p).vals := by
  rw [props, h]

/-- Else what is on the media. -/
theorem props_of_none (h : s.pnode lnum = none) : s.props T lnum = (T.flash lnum).vals := by
  rw [props, h]

/-- A LEB that is given a new address has the values that it had, and so have the others. -/
theorem Placed.moved {s' : Lpt} {v : Vals} (hs : s.Placed T) (hlnum : lnum ∈ T.lebs)
    (hp : ¬ s.Live p) (hv : v = s.props T lnum) (hvl : v.lnum = lnum)
    (hnode : s'.pnode = Function.update s.pnode lnum (some p))
    (hvals : ∀ q, (s'.cats.lprops q).vals = if q = p then v else (s.cats.lprops q).vals) :
    s'.Placed T ∧ s'.props T = s.props T := by
  have hat : s'.pnode lnum = some p := by rw [hnode, Function.update_self]
  have hother : ∀ l, l ≠ lnum → s'.pnode l = s.pnode l := by
    intro l hl
    rw [hnode, Function.update_of_ne hl]
  have hvalsOther : ∀ l q, s.pnode l = some q →
      (s'.cats.lprops q).vals = (s.cats.lprops q).vals := by
    intro l q hq
    rw [hvals, if_neg]
    rintro rfl
    exact hp ⟨l, hq⟩
  refine ⟨⟨fun l q hq => ?_, fun l q hq => ?_⟩, funext fun l => ?_⟩
  · by_cases hl : l = lnum
    · subst hl
      rw [hat] at hq
      cases hq
      have := congrArg Vals.lnum (hvals p)
      rw [if_pos rfl, hvl] at this
      exact this
    · rw [hother l hl] at hq
      exact (congrArg Vals.lnum (hvalsOther l q hq)).trans (hs.lnum l q hq)
  · by_cases hl : l = lnum
    · rw [hl]
      exact hlnum
    · rw [hother l hl] at hq
      exact hs.main l q hq
  · by_cases hl : l = lnum
    · rw [hl, props_of_some hat, hvals, if_pos rfl, hv]
    · unfold props
      rw [hother l hl]
      cases hq : s.pnode l with
      | none => rfl
      | some q => exact hvalsOther l q hq

/-- Reading and copying does not change what counts. -/
theorem Placed.move {m : Move} (hs : s.Placed T) (h : s.Allows T m) :
    (s.move T m).Placed T ∧ (s.move T m).props T = s.props T := by
  cases m with
  | read lnum p =>
    obtain ⟨hmain, hnone, hp⟩ := h
    refine hs.moved (v := (T.flash lnum).vals) hmain hp (props_of_none hnone).symm (T.lnum lnum) ?_
      fun q => vals_add
    show Function.update s.pnode (T.flash lnum).lnum (some p) = _
    rw [T.lnum]
  | copy lnum new =>
    cases hold : s.pnode lnum with
    | none =>
      simp only [Lpt.move, hold, and_true]
      exact hs
    | some old =>
      simp only [Lpt.move, hold]
      exact hs.moved (v := (s.cats.lprops old).vals) (hs.main lnum old hold) h
        (props_of_some hold).symm (hs.lnum lnum old hold) rfl fun q => vals_replace

/-- Nor does a look-up. -/
theorem Placed.moves {ms : List Move} (hs : s.Placed T) (h : s.AllowsAll T ms) :
    (s.moves T ms).Placed T ∧ (s.moves T ms).props T = s.props T := by
  induction ms generalizing s with
  | nil => exact ⟨hs, rfl⟩
  | cons m ms ih =>
    obtain ⟨hm, hms⟩ := h
    obtain ⟨hplaced, hprops⟩ := hs.move hm
    obtain ⟨hplaced', hprops'⟩ := ih hplaced hms
    exact ⟨hplaced', hprops'.trans hprops⟩

/-- Nor a category. -/
theorem Placed.ensure {g : Consts} (hs : s.Placed T) :
    (s.ensure g p).Placed T ∧ (s.ensure g p).props T = s.props T := by
  have hvals : ∀ q, ((s.ensure g p).cats.lprops q).vals = (s.cats.lprops q).vals :=
    fun q => Cats.vals_ensureCat g
  refine ⟨⟨fun l q hq => ?_, hs.main⟩, funext fun l => ?_⟩
  · exact (congrArg Vals.lnum (hvals q)).trans (hs.lnum l q hq)
  · show (s.ensure g p).props T l = s.props T l
    unfold props
    have hnode : (s.ensure g p).pnode l = s.pnode l := rfl
    rw [hnode]
    cases hq : s.pnode l with
    | none => rfl
    | some q => exact hvals q

end Lpt

/-! ## Calls -/

namespace Space

variable {g : Consts} {T : Table} {s : Space} {p lnum : Nat} {ch : Change} {look : Look}
  {again : Option Look} {idxGcCnt : Int}

/-- The counts are what they would be recomputed. -/
structure Counted (g : Consts) (T : Table) (s : Space) : Prop where
  placed : s.lpt.Placed T
  lst : s.lst = recomputed g T.lebs (s.lpt.props T)

/-- After the mount the statistics are right. -/
theorem Initial.counted (h : s.Initial g T) : s.Counted g T := by
  have hnone : ∀ l p, s.lpt.pnode l ≠ some p := by
    intro l p hp
    rw [h.pnode] at hp
    cases hp
  refine ⟨⟨fun l p hp => absurd hp (hnone l p), fun l p hp => absurd hp (hnone l p)⟩, ?_⟩
  have hprops : s.lpt.props T = fun l => (T.flash l).vals :=
    funext fun l => Lpt.props_of_none (h.pnode l)
  rw [h.lst, hprops]

/-- A look-up keeps them. -/
theorem Counted.lookup (hs : s.Counted g T) (h : look.Ok T s.lpt lnum) :
    (s.lookup T look).Counted g T ∧ (s.lookup T look).lpt.props T = s.lpt.props T := by
  obtain ⟨hplaced, hprops⟩ := hs.placed.moves h.allowed
  refine ⟨⟨hplaced, ?_⟩, hprops⟩
  show s.lst = recomputed g T.lebs ((s.lpt.moves T look.moves).props T)
  rw [hprops]
  exact hs.lst

/-- The blocks of `ubifs_change_lp` leave the LEB number as it is. -/
theorem apply_lnum {lst : LpStats} {lp : Lprops} : (ch.apply g lst lp).2.lnum = lp.lnum := by
  obtain ⟨free, dirty, flags⟩ := ch
  cases free <;> cases dirty <;> cases flags <;> rfl

/-- One LEB has new values. -/
theorem changed_placed (hs : s.lpt.Placed T) (hp : s.lpt.pnode lnum = some p) :
    (s.changed g p ch idxGcCnt).lpt.Placed T ∧ (s.changed g p ch idxGcCnt).lpt.props T =
      Function.update (s.lpt.props T) lnum (ch.apply g s.lst (s.lpt.cats.lprops p)).2.vals := by
  have hvals : ∀ q, ((s.changed g p ch idxGcCnt).lpt.cats.lprops q).vals =
      if q = p then (ch.apply g s.lst (s.lpt.cats.lprops p)).2.vals
      else (s.lpt.cats.lprops q).vals :=
    fun q => (Cats.vals_changeCategory g).trans Lpt.vals_write
  have hnode : (s.changed g p ch idxGcCnt).lpt.pnode = s.lpt.pnode := rfl
  have hat : (s.changed g p ch idxGcCnt).lpt.pnode lnum = some p := hp
  -- no other LEB has its properties there
  have hother : ∀ l q, s.lpt.pnode l = some q → l ≠ lnum → q ≠ p := by
    rintro l q hq hl rfl
    exact hl ((hs.lnum l q hq).symm.trans (hs.lnum lnum q hp))
  refine ⟨⟨fun l q hq => ?_, hs.main⟩, funext fun l => ?_⟩
  · rw [hnode] at hq
    have hv := congrArg Vals.lnum (hvals q)
    by_cases hqp : q = p
    · rw [if_pos hqp] at hv
      refine hv.trans ?_
      show (ch.apply g s.lst (s.lpt.cats.lprops p)).2.lnum = l
      rw [apply_lnum, ← hqp]
      exact hs.lnum l q hq
    · rw [if_neg hqp] at hv
      exact hv.trans (hs.lnum l q hq)
  · by_cases hl : l = lnum
    · subst hl
      rw [Function.update_self, Lpt.props_of_some hat, hvals, if_pos rfl]
    · rw [Function.update_of_ne hl]
      unfold Lpt.props
      rw [hnode]
      cases hq : s.lpt.pnode l with
      | none => rfl
      | some q =>
        show ((s.changed g p ch idxGcCnt).lpt.cats.lprops q).vals = _
        rw [hvals, if_neg (hother l q hq hl)]

/-- So does a change. -/
theorem Counted.changed (hs : s.Counted g T) (hp : s.lpt.pnode lnum = some p) :
    (s.changed g p ch idxGcCnt).Counted g T := by
  obtain ⟨hplaced, hprops⟩ := @changed_placed g T s p lnum ch idxGcCnt hs.placed hp
  refine ⟨hplaced, ?_⟩
  have hrest : ∀ l, l ≠ lnum →
      (s.changed g p ch idxGcCnt).lpt.props T l = s.lpt.props T l := by
    intro l hl
    rw [hprops, Function.update_of_ne hl]
  rw [recomputed_change (hs.placed.main lnum p hp) hrest, hprops, Function.update_self,
    Lpt.props_of_some hp, ← hs.lst]
  exact Change.apply_eq

/-- `ubifs_change_lp`: a failure changes no count and no properties. -/
theorem Counted.ubifsChangeLp (hs : s.Counted g T) (hp : s.lpt.pnode lnum = some p)
    (h : Call.OkAgain T s.lpt lnum again) :
    (s.ubifsChangeLp g T p again ch idxGcCnt).2.Counted g T ∧
      ∀ err, (s.ubifsChangeLp g T p again ch idxGcCnt).1 = .error err →
        (s.ubifsChangeLp g T p again ch idxGcCnt).2.lst = s.lst ∧
        (s.ubifsChangeLp g T p again ch idxGcCnt).2.lpt.props T = s.lpt.props T := by
  cases again with
  | none =>
    refine ⟨hs.changed hp, fun err herr => ?_⟩
    cases herr
  | some look =>
    have hlook := h look rfl
    obtain ⟨hs', hprops⟩ := hs.lookup hlook
    cases hres : look.result with
    | error err =>
      simp only [Space.ubifsChangeLp, hres]
      exact ⟨hs', fun _ _ => ⟨rfl, hprops⟩⟩
    | ok p' =>
      simp only [Space.ubifsChangeLp, hres]
      refine ⟨hs'.changed (hlook.found p' hres), fun err herr => ?_⟩
      cases herr

end Space

namespace Call

variable {g : Consts} {T : Table} {s : Space} {call : Call}

/-- So does any call, and one that fails changes nothing. -/
theorem counted (hs : s.Counted g T) (h : call.Ok T s) :
    (call.run g T s).2.Counted g T ∧ ∀ err, (call.run g T s).1 = .error err →
      (call.run g T s).2.lst = s.lst ∧ (call.run g T s).2.lpt.props T = s.lpt.props T := by
  cases call with
  | change p look ch idxGcCnt =>
    obtain ⟨lnum, hp, hlook⟩ := h
    exact hs.ubifsChangeLp hp hlook
  | changeOne lnum look again free dirty set clean idxGcCnt =>
    obtain ⟨hlook, hagain⟩ := h
    obtain ⟨hs', hprops⟩ := hs.lookup hlook
    cases hres : look.result with
    | error err =>
      simp only [run, Space.ubifsChangeOneLp, hres]
      exact ⟨hs', fun _ _ => ⟨rfl, hprops⟩⟩
    | ok p =>
      simp only [run, Space.ubifsChangeOneLp, hres]
      rw [← hprops]
      exact hs'.ubifsChangeLp (hlook.found p hres) hagain
  | updateOne lnum look again free dirty set clean =>
    obtain ⟨hlook, hagain⟩ := h
    obtain ⟨hs', hprops⟩ := hs.lookup hlook
    cases hres : look.result with
    | error err =>
      simp only [run, Space.ubifsUpdateOneLp, hres]
      exact ⟨hs', fun _ _ => ⟨rfl, hprops⟩⟩
    | ok p =>
      simp only [run, Space.ubifsUpdateOneLp, hres]
      rw [← hprops]
      exact hs'.ubifsChangeLp (hlook.found p hres) hagain

end Call

/-- Any step. -/
theorem Space.Counted.step {g : Consts} {T : Table} {s s' : Space} (hs : s.Counted g T)
    (h : SpaceStep g T s s') : s'.Counted g T := by
  cases h with
  | call call hok => exact (Call.counted hs hok).1
  | lookup lnum look hok => exact (hs.lookup hok).1
  | ensure p =>
    obtain ⟨hplaced, hprops⟩ := hs.placed.ensure (g := g) (p := p)
    refine ⟨hplaced, ?_⟩
    show s.lst = recomputed g T.lebs ((s.lpt.ensure g p).props T)
    rw [hprops]
    exact hs.lst

/-- In every run, the counts are the recomputed ones, and a call that fails changes nothing. -/
theorem lst_recomputed {g : Consts} {T : Table} {s : Space}
    (h : Reach (Space.Initial g T) (SpaceStep g T) s) :
    s.lst = recomputed g T.lebs (s.lpt.props T) ∧
      ∀ call : Call, call.Ok T s → ∀ err, (call.run g T s).1 = .error err →
        (call.run g T s).2.lst = s.lst ∧ (call.run g T s).2.lpt.props T = s.lpt.props T := by
  have hs : s.Counted g T :=
    h.invariant (fun _ => Space.Initial.counted) fun _ _ => Space.Counted.step
  exact ⟨hs.lst, fun call hok => (Call.counted hs hok).2⟩

/-- What is on flash about a LEB: LEB 7 is empty, LEBs 8 and 9 have some free space. -/
def fourFlash (l : Nat) : Lprops :=
  if l = 7 then ⟨l, 4096, 0, ⟨.list .empty, false, false⟩, 0⟩
  else if l = 8 then ⟨l, 512, 8, ⟨.heap .free, false, false⟩, 0⟩
  else if l = 9 then ⟨l, 1024, 64, ⟨.heap .free, false, false⟩, 0⟩
  else ⟨l, 0, 2048, ⟨.heap .dirtyIdx, false, true⟩, 0⟩

/-- Four main LEBs, the last of which is an index LEB. -/
def fourLebs : Table :=
  ⟨{7, 8, 9, 10}, fourFlash, fun l => by unfold fourFlash; split_ifs <;> rfl⟩

/-- Four LEBs, with the statistics that belong to them. -/
def fourLebsSpace : Space :=
  ⟨noLpt, recomputed ⟨4096, 64, 64, 64⟩ {7, 8, 9, 10} fun l => (fourFlash l).vals, 0⟩

/-- Three of them are read, and the one with the most free space in the heap is taken to be written. -/
def takeLeb : Call :=
  .changeOne 9 ⟨[.read 8 16, .read 7 17, .read 9 18], .ok 18⟩ none (some 500) (some 8) ⟨true, false⟩
    ⟨false, false⟩ 0

theorem lst_recomputed_take :
    (takeLeb.run ⟨4096, 64, 64, 64⟩ fourLebs fourLebsSpace).2.lst =
      recomputed ⟨4096, 64, 64, 64⟩ {7, 8, 9, 10}
        ((takeLeb.run ⟨4096, 64, 64, 64⟩ fourLebs fourLebsSpace).2.lpt.props fourLebs) := by
  have h0 : Reach (Space.Initial ⟨4096, 64, 64, 64⟩ fourLebs) (SpaceStep ⟨4096, 64, 64, 64⟩ fourLebs)
      fourLebsSpace := .init ⟨fun _ => rfl, rfl⟩
  have hsecond : ¬ (noLpt.move fourLebs (.read 8 16)).Live 17 :=
    Lpt.not_live_add (noLpt_not_live 17) (by decide)
  have hthird : ¬ ((noLpt.move fourLebs (.read 8 16)).move fourLebs (.read 7 17)).Live 18 :=
    Lpt.not_live_add (Lpt.not_live_add (noLpt_not_live 18) (by decide)) (by decide)
  have hok : takeLeb.Ok fourLebs fourLebsSpace := by
    refine ⟨⟨⟨⟨by decide, rfl, noLpt_not_live 16⟩, ⟨by decide, rfl, hsecond⟩,
      ⟨by decide, rfl, hthird⟩, trivial⟩, fun p hp => ?_⟩, fun l hl => ?_⟩
    · cases hp
      rfl
    · cases hl
  exact (lst_recomputed (h0.step (SpaceStep.call takeLeb hok))).1

end Ubifs.Lp
