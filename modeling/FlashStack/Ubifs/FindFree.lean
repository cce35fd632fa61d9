/-
  Looking for a LEB with free space (`ubifs_find_free_space` in `find.c`).

  The search goes through the top of the free heap, the list of empty LEBs, the dirty heap and the list
  of uncategorized LEBs, and at last through all the LEB properties there are, read or not
  (`ubifs_lpt_scan_nolock` in `lpt.c`).

  `Picks` is what the caller asks for, said of the values of a LEB: enough free space, or enough
  free and dirty space, not taken, not of the index.  Each place that is searched has a lemma that
  what it gives is picked; the scan has one more, that if it gives nothing no LEB is picked
  (`scanLebs_spec`).
-/
import FlashStack.Ubifs.CategoriesRight
import FlashStack.Ubifs.SpaceStats
import Mathlib

open Lib

namespace Ubifs.Lp

/-- Where the main area is, and what else does not change. -/
structure Area where
  mainFirst : Nat
  lebCnt : Nat
  pnodeCnt : Nat
  lsaveCnt : Int

/-- `struct ubifs_info` for the search. -/
structure Info where
  space : Space
  minIdxLebs : Int
  lscanLnum : Nat
  pnodesHave : Nat

/-- What the search may end with. -/
inductive FindErr
  | enospc
  | other (err : Int)
deriving DecidableEq

/-- What comes up at one LEB of the scan: an error when the nodes above it are read, and how adding them
    to the tree goes. -/
structure Visit where
  read : Option Int
  add : Except Int (List Move)

/-- What comes up in the search: at the LEBs of the scan, when the LEB found is looked up, in
    `ubifs_change_lp`, and when an empty LEB is unmapped. -/
structure FindEnv where
  visit : Nat → Visit
  look : Look
  again : Option Look
  unmap : Option Int

/-- `struct scan_data`: what the callback is asked for. -/
structure ScanData where
  minSpace : Int
  pickFree : Bool

/-- What a scan callback returns: `LPT_SCAN_ADD` and `LPT_SCAN_STOP`. -/
structure ScanRet where
  add : Bool
  stop : Bool

/-- `ubifs_fast_find_empty` -/
def Cats.ubifsFastFindEmpty (c : Cats) : Option Nat := (c.list .empty).head?

/-- The values of the LEB properties at an address. -/
def Cats.vals (c : Cats) (p : Nat) : Vals := (c.lprops p).vals

namespace Info

variable (g : Consts) (k : Area) (T : Table) (c : Info)

/-- `valuable` -/
def valuable (cat : Cat) (v : Vals) : Bool :=
  match cat with
  | .heap h => (c.space.lpt.cats.heap h).cnt < lptHeapSz || g.darkWm ≤ v.free + v.dirty
  | .list .empty =>
    c.space.lst.emptyLebs + c.space.lpt.cats.freeableCnt - c.space.lst.takenEmptyLebs < k.lsaveCnt
  | .list .freeable => true
  | .list .frdiIdx => true
  | .list .uncat => false

/-- `scan_for_free_cb` -/
def scanForFreeCb (cat : Cat) (v : Vals) (inTree : Bool) (data : ScanData) : ScanRet :=
  if v.taken then ⟨false, false⟩
  else
    let add := !inTree && c.valuable g k cat v
    if v.index then ⟨add, false⟩
    else if v.free < data.minSpace then ⟨add, false⟩
    else if !data.pickFree ∧ v.free = g.lebSize then ⟨add, false⟩
    else if v.free + v.dirty = g.lebSize ∧ 0 < v.dirty then ⟨add, false⟩
    else ⟨true, true⟩

/-! ## `ubifs_lpt_scan_nolock` -/

/-- `LPT_SCAN_ADD`: the nodes above the LEB are added to the tree, if they are not there. -/
def scanAdd (lnum : Nat) (visit : Visit) : Except FindErr Unit × Info :=
  match c.space.lpt.pnode lnum with
  | some p => (.ok (), { c with space.lpt := c.space.lpt.ensure g p })
  | none =>
    match visit.add with
    | .error err => (.error (.other err), c)
    | .ok ms =>
      (.ok (), { c with
        space.lpt := c.space.lpt.moves T ms
        pnodesHave := c.pnodesHave + 1 })

/-- One LEB.  The scan is over with it if there is a result. -/
def scanLeb (data : ScanData) (lnum : Nat) (visit : Visit) : Option (Except FindErr Nat) × Info :=
  match visit.read with
  | some err => (some (.error (.other err)), c)
  | none =>
    let node := c.space.lpt.pnode lnum
    let cat := node.elim (T.flash lnum).flags.cat fun p => (c.space.lpt.cats.lprops p).flags.cat
    let ret := c.scanForFreeCb g k cat (c.space.lpt.props T lnum) node.isSome data
    match if ret.add then c.scanAdd g T lnum visit else (.ok (), c) with
    | (.error err, c) => (some (.error err), c)
    | (.ok (), c) => (if ret.stop then some (.ok lnum) else none, c)

/-- `ubifs_lpt_scan_nolock`, over the LEBs in the order they are visited. -/
def scanLebs (visit : Nat → Visit) (data : ScanData) : List Nat → Info → Except FindErr Nat × Info
  | [], c => (.error .enospc, c)
  | lnum :: lnums, c =>
    match c.scanLeb g k T data lnum (visit lnum) with
    | (some res, c) => (res, c)
    | (none, c) => scanLebs visit data lnums c

/-- The LEBs from `lnum` on, around the end of the main area, to `endLnum`. -/
def around (endLnum : Nat) : Nat → Nat → List Nat
  | 0, _ => []
  | n + 1, lnum =>
    lnum :: if lnum = endLnum then []
      else around endLnum n (if k.lebCnt ≤ lnum + 1 then k.mainFirst else lnum + 1)

/-- The order of a search that starts after `endLnum` and wraps around. -/
def scanOrder (endLnum : Nat) : List Nat :=
  around k endLnum (k.lebCnt - k.mainFirst)
    (if k.lebCnt ≤ endLnum + 1 then k.mainFirst else endLnum + 1)

/-! ## `do_find_free_space` -/

/-- The dirty heap. -/
def onDirtyHeap (minSpace : Int) : Option Nat :=
  let heap := c.space.lpt.cats.heap .dirty
  ((List.range heap.cnt).map heap.arr).find? fun p => minSpace ≤ (c.space.lpt.cats.vals p).free

/-- The list of uncategorized LEBs. -/
def onUncatList (minSpace : Int) : Option Nat :=
  (c.space.lpt.cats.list .uncat).find? fun p =>
    let v := c.space.lpt.cats.vals p
    !v.taken && !v.index && minSpace ≤ v.free

/-- The top of the free heap, if it has the space. -/
def onFreeHeap (minSpace : Int) : Option Nat :=
  c.space.lpt.cats.ubifsFastFindFree.filter fun p => minSpace ≤ (c.space.lpt.cats.vals p).free

/-- What is in main memory, in the order in which it is looked at. -/
def inMemory (minSpace : Int) (pickFree squeeze : Bool) : Option Nat :=
  (if squeeze then c.onFreeHeap minSpace else none).or <|
  (if pickFree then c.space.lpt.cats.ubifsFastFindEmpty else none).or <|
  (if !squeeze then c.onFreeHeap minSpace else none).or <|
  (c.onDirtyHeap minSpace).or (c.onUncatList minSpace)

/-- `do_find_free_space` -/
def doFindFreeSpace (env : FindEnv) (minSpace : Int) (pickFree squeeze : Bool) :
    Except FindErr Nat × Info :=
  match c.inMemory minSpace pickFree squeeze with
  | some p => (.ok p, c)
  | none =>
    if k.pnodeCnt ≤ c.pnodesHave then (.error .enospc, c)
    else
      match scanLebs g k T env.visit ⟨minSpace, pickFree⟩ (scanOrder k c.lscanLnum) c with
      | (.error err, c) => (.error err, c)
      | (.ok lnum, c) =>
        let c := { c with lscanLnum := lnum, space := c.space.lookup T env.look }
        match env.look.result with
        | .error err => (.error (.other err), c)
        | .ok p => (.ok p, c)

/-! ## `ubifs_find_free_space` -/

/-- How many LEBs the index may still need. -/
def rsvdIdxLebs : Int :=
  if c.space.lst.idxLebs < c.minIdxLebs then c.minIdxLebs - c.space.lst.idxLebs else 0

/-- The LEBs that the index may still have. -/
def lebs : Int :=
  c.space.lst.emptyLebs + c.space.lpt.cats.freeableCnt + c.space.idxGcCnt -
    c.space.lst.takenEmptyLebs

/-- An empty LEB may be taken, if the index does not need all of them. -/
def pickFree : Bool :=
  c.rsvdIdxLebs < c.lebs ∧ 0 < c.space.lst.emptyLebs - c.space.lst.takenEmptyLebs

/-- The LEB that will be allocated is accounted for before the lock is released, and no longer after. -/
def addTakenEmpty (pickFree : Bool) (n : Int) : Info :=
  if pickFree then { c with space.lst.takenEmptyLebs := c.space.lst.takenEmptyLebs + n } else c

/-- `ubifs_find_free_space`: the LEB and `*offs`. -/
def ubifsFindFreeSpace (env : FindEnv) (minSpace : Int) (squeeze : Bool) :
    Except FindErr (Nat × Int) × Info :=
  let pickFree := c.pickFree
  let c := c.addTakenEmpty pickFree 1
  let out (c : Info) : Info := c.addTakenEmpty pickFree (-1)
  match c.doFindFreeSpace g k T env minSpace pickFree squeeze with
  | (.error err, c) => (.error err, out c)
  | (.ok p, c) =>
    let lp := c.space.lpt.cats.lprops p
    let flags := { lp.flags with taken := true }
    match c.space.ubifsChangeLp g T p env.again ⟨none, none, some flags⟩ 0 with
    | (.error err, space) => (.error (.other err), out { c with space })
    | (.ok p, space) =>
      let c := out { c with space }
      let offs := g.lebSize - (space.lpt.cats.lprops p).free
      match if offs = 0 then env.unmap else none with
      | some err => (.error (.other err), c)
      | none => (.ok (lp.lnum, offs), c)

end Info

/-! ## What the search may rely on -/

/-- Properties of a LEB.  An index LEB is not empty, as `ubifs_categorize_lprops` asserts. -/
structure Vals.WellFormed (g : Consts) (v : Vals) : Prop where
  free : 0 ≤ v.free
  dirty : 0 ≤ v.dirty
  space : v.free + v.dirty ≤ g.lebSize
  index : v.index = true → v.free ≠ g.lebSize

/-- The number of the pnode of a LEB (`UBIFS_LPT_FANOUT` is 4). -/
def Area.pnodeOf (k : Area) (l : Nat) : Nat := (l - k.mainFirst) / 4

/-- A table of LEB properties, in heaps and lists as far as it has been read. -/
structure Info.Valid (g : Consts) (k : Area) (T : Table) (c : Info) : Prop where
  lebs : T.lebs = Finset.Ico k.mainFirst k.lebCnt
  wellFormed : ∀ l ∈ T.lebs, (c.space.lpt.props T l).WellFormed g
  counted : c.space.Counted g T
  sound : c.space.lpt.cats.Sound c.space.lpt.Live
  right : c.space.lpt.Right g
  lscanLnum : c.lscanLnum ∈ T.lebs
  whole : ∀ l ∈ T.lebs, ∀ l' ∈ T.lebs, k.pnodeOf l = k.pnodeOf l' →
    c.space.lpt.pnode l ≠ none → c.space.lpt.pnode l' ≠ none
  pnodeCnt : k.pnodeCnt = (T.lebs.image k.pnodeOf).card
  pnodesHave : c.pnodesHave =
    ((T.lebs.filter fun l => c.space.lpt.pnode l ≠ none).image k.pnodeOf).card

/-- A pnode that is added has not been read, and has the LEB. -/
def Visit.Ok (T : Table) (s : Lpt) (lnum : Nat) (visit : Visit) : Prop :=
  ∀ ms, visit.add = .ok ms → s.AllowsAll T ms ∧ (s.moves T ms).pnode lnum ≠ none

namespace Info

variable (g : Consts) (k : Area) (T : Table)

/-- All the LEBs that the scan comes to. -/
def ScanOk (visit : Nat → Visit) (data : ScanData) : List Nat → Info → Prop
  | [], _ => True
  | lnum :: lnums, c => (visit lnum).Ok T c.space.lpt lnum ∧
    ((c.scanLeb g k T data lnum (visit lnum)).1 = none →
      ScanOk visit data lnums (c.scanLeb g k T data lnum (visit lnum)).2)

/-- Lookups look for the right LEB. -/
structure EnvOk (c : Info) (env : FindEnv) (minSpace : Int) (pickFree squeeze : Bool) : Prop where
  scan : ScanOk g k T env.visit ⟨minSpace, pickFree⟩ (scanOrder k c.lscanLnum) c
  look : ∀ lnum c', scanLebs g k T env.visit ⟨minSpace, pickFree⟩ (scanOrder k c.lscanLnum) c =
    (.ok lnum, c') → env.look.Ok T c'.space.lpt lnum
  again : ∀ p c', c.doFindFreeSpace g k T env minSpace pickFree squeeze = (.ok p, c') →
    ∀ lnum, c'.space.lpt.pnode lnum = some p → Call.OkAgain T c'.space.lpt lnum env.again

end Info

/-! ## The scan -/

/-- The LEBs that `scan_for_free_cb` takes. -/
structure Picks (g : Consts) (data : ScanData) (v : Vals) : Prop where
  taken : v.taken = false
  index : v.index = false
  space : data.minSpace ≤ v.free
  empty : v.free = g.lebSize → data.pickFree = true
  freeable : v.free + v.dirty = g.lebSize → v.dirty ≤ 0

namespace Info

variable {g : Consts} {k : Area} {T : Table} {c c' : Info} {cat : Cat} {v : Vals} {inTree : Bool}
  {data : ScanData} {visit : Nat → Visit} {lnum l : Nat} {lnums : List Nat}

/-- The callback stops exactly at a LEB that can be picked. -/
theorem scanForFreeCb_stop :
    (c.scanForFreeCb g k cat v inTree data).stop = true ↔ Picks g data v := by
  have hpicks : Picks g data v ↔ v.taken = false ∧ v.index = false ∧ data.minSpace ≤ v.free ∧
      (v.free = g.lebSize → data.pickFree = true) ∧
      (v.free + v.dirty = g.lebSize → v.dirty ≤ 0) :=
    ⟨fun h => ⟨h.taken, h.index, h.space, h.empty, h.freeable⟩,
      fun ⟨h₁, h₂, h₃, h₄, h₅⟩ => ⟨h₁, h₂, h₃, h₄, h₅⟩⟩
  rw [hpicks]
  unfold scanForFreeCb
  dsimp only
  split
  · simp_all
  · split
    · simp_all
    · split
      · simp_all
      · split
        · simp_all
        · split
          · simp_all
          · rename_i htaken hindex hspace hempty hfreeable
            simp only [Bool.not_eq_true] at htaken hindex
            simp only [Bool.not_eq_eq_eq_not, Bool.not_true, not_and] at hempty
            refine iff_of_true rfl ⟨htaken, hindex, by omega, fun h => ?_, by omega⟩
            cases hp : data.pickFree with
            | true => rfl
            | false => exact absurd h (hempty hp)

/-- What a scan leaves as it is. -/
structure Same (T : Table) (c c' : Info) : Prop where
  placed : c'.space.lpt.Placed T
  props : c'.space.lpt.props T = c.space.lpt.props T
  lst : c'.space.lst = c.space.lst

/-- Nothing has changed but what was read. -/
theorem Same.refl (h : c.space.lpt.Placed T) : Same T c c := ⟨h, rfl, rfl⟩

theorem Same.trans {c'' : Info} (h : Same T c c') (h' : Same T c' c'') : Same T c c'' where
  placed := h'.placed
  props := h'.props.trans h.props
  lst := h'.lst.trans h.lst

/-- Reading nodes changes nothing on the media. -/
theorem scanAdd_same {visit : Visit} (h : c.space.lpt.Placed T)
    (hv : visit.Ok T c.space.lpt lnum) : Same T c (c.scanAdd g T lnum visit).2 := by
  unfold scanAdd
  split
  · rename_i p hp
    obtain ⟨hplaced, hprops⟩ := h.ensure (g := g) (p := p)
    exact ⟨hplaced, hprops, rfl⟩
  · split
    · exact Same.refl h
    · rename_i ms hms
      obtain ⟨hplaced, hprops⟩ := h.moves (hv ms hms).1
      exact ⟨hplaced, hprops, rfl⟩

/-- An error of it is not taken for a lack of space. -/
theorem scanAdd_error {visit : Visit} {err : FindErr}
    (h : (c.scanAdd g T lnum visit).1 = .error err) : err ≠ .enospc := by
  unfold scanAdd at h
  split at h
  · cases h
  · split at h
    · cases h
      simp
    · cases h

/-- One LEB of the scan. -/
theorem scanLeb_spec {visit : Visit} (h : c.space.lpt.Placed T)
    (hv : visit.Ok T c.space.lpt lnum) : Same T c (c.scanLeb g k T data lnum visit).2 ∧
      (∀ l, (c.scanLeb g k T data lnum visit).1 = some (.ok l) →
        l = lnum ∧ Picks g data (c.space.lpt.props T lnum)) ∧
      (c.scanLeb g k T data lnum visit).1 ≠ some (.error .enospc) ∧
      ((c.scanLeb g k T data lnum visit).1 = none → ¬Picks g data (c.space.lpt.props T lnum)) := by
  unfold scanLeb
  split
  · simp [Same.refl h]
  · dsimp only
    generalize hcat : (c.space.lpt.pnode lnum).elim (T.flash lnum).flags.cat
      (fun p => (c.space.lpt.cats.lprops p).flags.cat) = cat
    generalize (c.space.lpt.pnode lnum).isSome = inTree
    have hstop := @scanForFreeCb_stop g k c cat (c.space.lpt.props T lnum) inTree data
    rw [← hstop]
    generalize c.scanForFreeCb g k _ _ _ data = ret
    have hadd : Same T c (if ret.add then c.scanAdd g T lnum visit else (.ok (), c)).2 := by
      split
      · exact scanAdd_same h hv
      · exact Same.refl h
    split
    · rename_i err c' heq
      rw [heq] at hadd
      have herr : err ≠ .enospc := by
        split at heq
        · exact scanAdd_error (congrArg Prod.fst heq)
        · cases heq
      simp [hadd, herr]
    · rename_i c' heq
      rw [heq] at hadd
      refine ⟨hadd, ?_⟩
      cases ret.stop <;> simp

/-- The scan picks one of the LEBs, and if it does not, none can be picked. -/
theorem scanLebs_spec (h : c.space.lpt.Placed T) (hok : ScanOk g k T visit data lnums c) :
    Same T c (scanLebs g k T visit data lnums c).2 ∧
      (∀ l, (scanLebs g k T visit data lnums c).1 = .ok l →
        l ∈ lnums ∧ Picks g data (c.space.lpt.props T l)) ∧
      ((scanLebs g k T visit data lnums c).1 = .error .enospc →
        ∀ l ∈ lnums, ¬Picks g data (c.space.lpt.props T l)) := by
  induction lnums generalizing c with
  | nil =>
    refine ⟨Same.refl h, fun l hl => ?_, fun _ => List.forall_mem_nil _⟩
    cases hl
  | cons lnum lnums ih =>
    obtain ⟨hv, hrest⟩ := hok
    obtain ⟨hsame, hfound, herr, hnone⟩ := @scanLeb_spec g k T c data lnum (visit lnum) h hv
    rw [scanLebs]
    cases hleb : c.scanLeb g k T data lnum (visit lnum) with
    | mk res c' =>
      rw [hleb] at hsame hfound herr hnone hrest
      cases res with
      | some res =>
        refine ⟨hsame, fun l hl => ?_, fun heq => ?_⟩
        · obtain ⟨rfl, hp⟩ := hfound l (congrArg some hl)
          exact ⟨List.mem_cons_self, hp⟩
        · exact absurd (congrArg some heq) herr
      | none =>
        obtain ⟨hsame', hfound', hall⟩ := ih hsame.placed (hrest rfl)
        rw [hsame.props] at hfound' hall
        refine ⟨hsame.trans hsame', fun l hl => ?_, fun heq => ?_⟩
        · obtain ⟨hmem, hp⟩ := hfound' l hl
          exact ⟨List.mem_cons_of_mem _ hmem, hp⟩
        · exact List.forall_mem_cons.mpr ⟨hnone rfl, hall heq⟩

/-! ## Around the main area -/

/-- Up to the end of the walk. -/
theorem mem_around_up {endLnum n : Nat} (hend : endLnum < k.lebCnt) (hl : lnum ≤ l) (hle : l ≤ endLnum)
    (hn : endLnum < lnum + n) : l ∈ around k endLnum n lnum := by
  induction n generalizing lnum with
  | zero => omega
  | succ n ih =>
    rw [around, List.mem_cons]
    by_cases heq : l = lnum
    · exact .inl heq
    · rw [if_neg (by omega), if_neg (by omega)]
      exact .inr (ih (by omega) (by omega))

/-- Above the end of the walk, first to the end of the main area. -/
theorem mem_around {endLnum n : Nat} (hfirst : k.mainFirst ≤ endLnum) (habove : endLnum < lnum)
    (hlnum : lnum < k.lebCnt) (hmain : k.mainFirst ≤ l) (hcnt : l < k.lebCnt)
    (hl : lnum ≤ l ∨ l ≤ endLnum) (hn : n = k.lebCnt - lnum + (endLnum + 1 - k.mainFirst)) :
    l ∈ around k endLnum n lnum := by
  induction n generalizing lnum with
  | zero => omega
  | succ n ih =>
    rw [around, List.mem_cons, if_neg (by omega)]
    by_cases heq : l = lnum
    · exact .inl heq
    · right
      split
      · exact mem_around_up (by omega) hmain (by omega) (by omega)
      · exact ih (by omega) (by omega) (by omega) (by omega)

/-- Every LEB of the main area is visited. -/
theorem mem_scanOrder {endLnum : Nat} (hfirst : k.mainFirst ≤ endLnum) (hend : endLnum < k.lebCnt)
    (hmain : k.mainFirst ≤ l) (hcnt : l < k.lebCnt) : l ∈ scanOrder k endLnum := by
  unfold scanOrder
  split
  · exact mem_around_up hend hmain (by omega) (by omega)
  · exact mem_around hfirst (by omega) (by omega) hmain hcnt (by omega) (by omega)

end Info

/-! ## What is in main memory -/

/-- What is in a heap of data LEBs. -/
theorem categorize_data {g : Consts} {lp : Lprops} {h : HeapCat}
    (hcat : ubifsCategorizeLprops g lp = .heap h) (hne : h ≠ .dirtyIdx) :
    lp.flags.taken = false ∧ lp.flags.index = false ∧ lp.free ≠ g.lebSize ∧
      lp.free + lp.dirty ≠ g.lebSize := by
  unfold ubifsCategorizeLprops at hcat
  split_ifs at hcat with htaken hempty hfreeable hidx hidx' hsz
  · cases hcat
    exact absurd rfl hne
  · simp_all
  · simp_all

/-- What is on the list of empty LEBs. -/
theorem categorize_empty {g : Consts} {lp : Lprops}
    (hcat : ubifsCategorizeLprops g lp = .list .empty) :
    lp.flags.taken = false ∧ lp.free = g.lebSize := by
  unfold ubifsCategorizeLprops at hcat
  split at hcat
  · cases hcat
  · rename_i htaken
    split at hcat
    · rename_i hempty
      exact ⟨Bool.eq_false_iff.mpr htaken, hempty⟩
    · split_ifs at hcat
      all_goals cases hcat

/-- Where data that there is only free and dirty space for is kept. -/
theorem categorize_full {g : Consts} {lp : Lprops} (htaken : lp.flags.taken = false)
    (hindex : lp.flags.index = false) (hfull : lp.free = g.lebSize ∨ lp.free + lp.dirty = g.lebSize) :
    ubifsCategorizeLprops g lp = .list .empty ∨ ubifsCategorizeLprops g lp = .list .freeable := by
  unfold ubifsCategorizeLprops
  by_cases hempty : lp.free = g.lebSize
  · simp [htaken, hempty]
  · simp [htaken, hindex, hempty, hfull.resolve_left hempty]

/-- Where data that may be written to is kept. -/
theorem categorize_cases {g : Consts} {lp : Lprops} (htaken : lp.flags.taken = false)
    (hindex : lp.flags.index = false) (hempty : lp.free ≠ g.lebSize)
    (hfreeable : lp.free + lp.dirty ≠ g.lebSize) :
    ubifsCategorizeLprops g lp = .heap .dirty ∨ ubifsCategorizeLprops g lp = .heap .free ∨
      ubifsCategorizeLprops g lp = .list .uncat := by
  unfold ubifsCategorizeLprops
  simp only [htaken, hindex, hempty, hfreeable, Bool.false_eq_true, if_false]
  split_ifs <;> simp

namespace Info.Valid

variable {g : Consts} {k : Area} {T : Table} {c : Info} {p l : Nat} {minSpace : Int}
  {pickFree squeeze : Bool}

/-- What is in memory of a LEB says the same as the table. -/
theorem vals (hc : c.Valid g k T) (hp : c.space.lpt.pnode l = some p) :
    l ∈ T.lebs ∧ c.space.lpt.props T l = c.space.lpt.cats.vals p ∧
      (c.space.lpt.cats.vals p).WellFormed g := by
  have hmain := hc.counted.placed.main l p hp
  have hprops : c.space.lpt.props T l = c.space.lpt.cats.vals p := Lpt.props_of_some hp
  exact ⟨hmain, hprops, hprops ▸ hc.wellFormed l hmain⟩

/-- A LEB in a heap has the category of the heap. -/
theorem inHeap (hc : c.Valid g k T) {h : HeapCat} (hp : (c.space.lpt.cats.view h).Has p) :
    c.space.lpt.Live p ∧ ubifsCategorizeLprops g (c.space.lpt.cats.lprops p) = .heap h := by
  obtain ⟨hlive, hcat⟩ := (hc.sound.inCat p (.heap h)).mp hp
  refine ⟨hlive, ?_⟩
  rcases hc.right p hlive with hright | ⟨huncat, -⟩
  · rw [← hright, hcat]
  · rw [hcat] at huncat
    cases huncat

/-- A LEB in a list has the category of the list, or fell off a heap. -/
theorem inList (hc : c.Valid g k T) {li : ListCat} (hp : p ∈ c.space.lpt.cats.list li) :
    c.space.lpt.Live p ∧ (ubifsCategorizeLprops g (c.space.lpt.cats.lprops p) = .list li ∨
      li = .uncat ∧ ∃ h, ubifsCategorizeLprops g (c.space.lpt.cats.lprops p) = .heap h) := by
  obtain ⟨hlive, hcat⟩ := (hc.sound.inCat p (.list li)).mp hp
  refine ⟨hlive, ?_⟩
  rcases hc.right p hlive with hright | ⟨huncat, hheap⟩
  · exact .inl (hright.symm.trans hcat)
  · rw [hcat] at huncat
    exact .inr ⟨Cat.list.inj huncat, hheap⟩

/-- From a heap of data LEBs, with enough space. -/
theorem heap_picks (hc : c.Valid g k T) {h : HeapCat} (hp : (c.space.lpt.cats.view h).Has p)
    (hne : h ≠ .dirtyIdx) (hfree : minSpace ≤ (c.space.lpt.cats.vals p).free) :
    c.space.lpt.Live p ∧ Picks g ⟨minSpace, pickFree⟩ (c.space.lpt.cats.vals p) := by
  obtain ⟨hlive, hcat⟩ := hc.inHeap hp
  obtain ⟨htaken, hindex, hempty, hfreeable⟩ := categorize_data hcat hne
  exact ⟨hlive, htaken, hindex, hfree, fun h => absurd h hempty, fun h => absurd h hfreeable⟩

/-- What is found on the heap can be picked. -/
theorem onFreeHeap_picks (hc : c.Valid g k T) (h : c.onFreeHeap minSpace = some p) :
    c.space.lpt.Live p ∧ Picks g ⟨minSpace, pickFree⟩ (c.space.lpt.cats.vals p) := by
  unfold Info.onFreeHeap at h
  rw [Option.filter_eq_some_iff] at h
  obtain ⟨htop, hfree⟩ := h
  unfold Cats.ubifsFastFindFree at htop
  split at htop
  · cases htop
  · rename_i hcnt
    cases htop
    exact hc.heap_picks ⟨0, Nat.pos_of_ne_zero hcnt, rfl⟩ (by simp) (of_decide_eq_true hfree)

theorem onDirtyHeap_picks (hc : c.Valid g k T) (h : c.onDirtyHeap minSpace = some p) :
    c.space.lpt.Live p ∧ Picks g ⟨minSpace, pickFree⟩ (c.space.lpt.cats.vals p) := by
  unfold Info.onDirtyHeap at h
  dsimp only at h
  have hfree := List.find?_some h
  rw [decide_eq_true_eq] at hfree
  obtain ⟨i, hi, rfl⟩ := List.mem_map.mp (List.mem_of_find?_eq_some h)
  exact hc.heap_picks ⟨i, List.mem_range.mp hi, rfl⟩ (by simp) hfree

/-- What is found on the list can be picked. -/
theorem onUncatList_picks (hc : c.Valid g k T) (h : c.onUncatList minSpace = some p) :
    c.space.lpt.Live p ∧ Picks g ⟨minSpace, pickFree⟩ (c.space.lpt.cats.vals p) := by
  unfold Info.onUncatList at h
  have hfilter := List.find?_some h
  simp only [Bool.and_eq_true, Bool.not_eq_true', decide_eq_true_eq] at hfilter
  obtain ⟨⟨htaken, hindex⟩, hfree⟩ := hfilter
  obtain ⟨hlive, hcat⟩ := hc.inList (List.mem_of_find?_eq_some h)
  -- an empty or a freeable LEB is on a list of its own
  have hnot : ¬((c.space.lpt.cats.lprops p).free = g.lebSize ∨
      (c.space.lpt.cats.lprops p).free + (c.space.lpt.cats.lprops p).dirty = g.lebSize) := by
    intro hfull
    rcases categorize_full htaken hindex hfull with heq | heq
    · rw [heq] at hcat
      simp at hcat
    · rw [heq] at hcat
      simp at hcat
  rw [not_or] at hnot
  exact ⟨hlive, htaken, hindex, hfree, fun h => absurd h hnot.1, fun h => absurd h hnot.2⟩

/-- So can an empty LEB. -/
theorem empty_picks (hc : c.Valid g k T) (hmin : minSpace ≤ g.lebSize)
    (h : c.space.lpt.cats.ubifsFastFindEmpty = some p) :
    c.space.lpt.Live p ∧ Picks g ⟨minSpace, true⟩ (c.space.lpt.cats.vals p) := by
  obtain ⟨hlive, hcat⟩ := hc.inList (List.mem_of_mem_head? h)
  have hcat := hcat.resolve_right (by simp)
  obtain ⟨htaken, hempty⟩ := categorize_empty hcat
  obtain ⟨l, hl⟩ := hlive
  obtain ⟨-, -, hwell⟩ := hc.vals hl
  have hempty : (c.space.lpt.cats.vals p).free = g.lebSize := hempty
  have hspace := hwell.space
  refine ⟨⟨l, hl⟩, htaken, ?_, ?_, fun _ => rfl, fun _ => by omega⟩
  · exact Bool.eq_false_iff.mpr fun hindex => hwell.index hindex hempty
  · dsimp only
    omega

/-- What is found in main memory. -/
theorem inMemory_picks (hc : c.Valid g k T) (hmin : minSpace ≤ g.lebSize)
    (h : c.inMemory minSpace pickFree squeeze = some p) :
    c.space.lpt.Live p ∧ Picks g ⟨minSpace, pickFree⟩ (c.space.lpt.cats.vals p) := by
  unfold Info.inMemory at h
  simp only [Option.or_eq_some_iff] at h
  obtain h | ⟨-, h | ⟨-, h | ⟨-, h | ⟨-, h⟩⟩⟩⟩ := h
  · split at h
    · exact hc.onFreeHeap_picks h
    · cases h
  · split at h
    · rename_i hpick
      rw [hpick]
      exact hc.empty_picks hmin h
    · cases h
  · split at h
    · exact hc.onFreeHeap_picks h
    · cases h
  · exact hc.onDirtyHeap_picks h
  · exact hc.onUncatList_picks h

/-- What is not found in main memory is not there. -/
theorem inMemory_none (hc : c.Valid g k T) (h : c.inMemory minSpace pickFree squeeze = none)
    (hl : c.space.lpt.pnode l = some p) (htaken : (c.space.lpt.cats.vals p).taken = false)
    (hindex : (c.space.lpt.cats.vals p).index = false)
    (hempty : (c.space.lpt.cats.vals p).free ≠ g.lebSize)
    (hfreeable : (c.space.lpt.cats.vals p).free + (c.space.lpt.cats.vals p).dirty ≠ g.lebSize) :
    (c.space.lpt.cats.vals p).free < minSpace := by
  unfold Info.inMemory at h
  simp only [Option.or_eq_none_iff] at h
  obtain ⟨hsqueeze, -, hnot, hdirty, huncat⟩ := h
  have hfree : c.onFreeHeap minSpace = none := by
    cases squeeze with
    | true => exact hsqueeze
    | false => exact hnot
  have hlive : c.space.lpt.Live p := ⟨l, hl⟩
  -- the structure that the LEB is in
  have hin : c.space.lpt.cats.InCat p (.heap .dirty) ∨ c.space.lpt.cats.InCat p (.heap .free) ∨
      c.space.lpt.cats.InCat p (.list .uncat) := by
    simp only [hc.sound.inCat, hlive, true_and]
    rcases hc.right p hlive with hright | ⟨hright, -⟩
    · rw [hright]
      exact categorize_cases htaken hindex hempty hfreeable
    · exact .inr (.inr hright)
  rcases hin with ⟨i, hi, rfl⟩ | ⟨i, hi, rfl⟩ | hin
  · unfold Info.onDirtyHeap at hdirty
    rw [List.find?_eq_none] at hdirty
    have hlt := hdirty _ (List.mem_map.mpr ⟨i, List.mem_range.mpr hi, rfl⟩)
    rw [decide_eq_true_eq] at hlt
    exact not_le.mp hlt
  · have hroot := (hc.sound.valid .free).ordered.le_root hi
    unfold Info.onFreeHeap Cats.ubifsFastFindFree at hfree
    rw [if_neg (by exact Nat.ne_of_gt (Nat.zero_lt_of_lt hi)), Option.filter_some] at hfree
    have hlt : ¬minSpace ≤ (c.space.lpt.cats.vals ((c.space.lpt.cats.heap .free).arr 0)).free := by
      intro hle
      rw [if_pos (decide_eq_true hle)] at hfree
      cases hfree
    exact lt_of_le_of_lt hroot (not_le.mp hlt)
  · unfold Info.onUncatList at huncat
    rw [List.find?_eq_none] at huncat
    have hlt := huncat p hin
    simp only [htaken, hindex, Bool.not_false, Bool.true_and, decide_eq_true_eq] at hlt
    exact not_le.mp hlt

/-- If as many pnodes have been read as there are, then every LEB has been. -/
theorem allRead (hc : c.Valid g k T) (h : k.pnodeCnt ≤ c.pnodesHave) (hl : l ∈ T.lebs) :
    ∃ p, c.space.lpt.pnode l = some p := by
  rw [hc.pnodeCnt, hc.pnodesHave] at h
  have himage := Finset.eq_of_subset_of_card_le
    (Finset.image_subset_image (Finset.filter_subset _ T.lebs)) h
  have hmem := Finset.mem_image_of_mem k.pnodeOf hl
  rw [← himage, Finset.mem_image] at hmem
  obtain ⟨l', hl', heq⟩ := hmem
  rw [Finset.mem_filter] at hl'
  exact Option.ne_none_iff_exists'.mp (hc.whole l' hl'.1 l hl heq hl'.2)

end Info.Valid

/-! ## The search -/

/-- One LEB more or less is accounted for as taken. -/
def LpStats.addTaken (lst : LpStats) (n : Int) : LpStats :=
  { lst with takenEmptyLebs := lst.takenEmptyLebs + n }

/-- The count of LEBs that are taken is apart from the others. -/
theorem LpStats.shift_addTaken {lst a b : LpStats} {n : Int} :
    (lst.addTaken n).shift a b = (lst.shift a b).addTaken n := by
  unfold shift addTaken
  dsimp only
  congr 1
  omega

/-- It is put back. -/
theorem LpStats.addTaken_cancel {lst : LpStats} {n : Int} :
    (lst.addTaken n).addTaken (n * -1) = lst := by
  unfold addTaken
  dsimp only
  congr 1
  omega

namespace Info

variable {g : Consts} {k : Area} {T : Table} {c c' : Info} {p l : Nat} {minSpace n : Int}
  {pickFree squeeze : Bool} {env : FindEnv}

/-- What is accounted for. -/
def account (pickFree : Bool) : Int := if pickFree then 1 else 0

theorem lst_addTakenEmpty : (c.addTakenEmpty pickFree n).space.lst =
    c.space.lst.addTaken (account pickFree * n) := by
  cases pickFree with
  | true => simp [addTakenEmpty, account, LpStats.addTaken]
  | false => simp [addTakenEmpty, account, LpStats.addTaken]

theorem lpt_addTakenEmpty : (c.addTakenEmpty pickFree n).space.lpt = c.space.lpt := by
  cases pickFree <;> rfl

/-- The search in memory does not look at that count. -/
theorem inMemory_addTakenEmpty :
    (c.addTakenEmpty pickFree n).inMemory minSpace pickFree squeeze =
      c.inMemory minSpace pickFree squeeze := by
  cases pickFree <;> rfl

/-- What `do_find_free_space` returns. -/
theorem doFindFreeSpace_spec (hc : c.Valid g k T) (hmin : minSpace ≤ g.lebSize)
    (henv : EnvOk g k T (c.addTakenEmpty pickFree n) env minSpace pickFree squeeze) {c' : Info}
    {res : Except FindErr Nat} (hres : (c.addTakenEmpty pickFree n).doFindFreeSpace g k T env minSpace
      pickFree squeeze = (res, c')) :
    Same T (c.addTakenEmpty pickFree n) c' ∧
      (∀ p, res = .ok p → ∃ l ∈ T.lebs, c'.space.lpt.pnode l = some p ∧
        Picks g ⟨minSpace, pickFree⟩ (c.space.lpt.props T l)) ∧
      (res = .error .enospc → ∀ l ∈ T.lebs, (c.space.lpt.props T l).taken = false →
        (c.space.lpt.props T l).index = false → (c.space.lpt.props T l).free ≠ g.lebSize →
        (c.space.lpt.props T l).free + (c.space.lpt.props T l).dirty ≠ g.lebSize →
        (c.space.lpt.props T l).free < minSpace) := by
  have hplaced : (c.addTakenEmpty pickFree n).space.lpt.Placed T := by
    rw [lpt_addTakenEmpty]
    exact hc.counted.placed
  have hprops : (c.addTakenEmpty pickFree n).space.lpt.props T = c.space.lpt.props T := by
    rw [lpt_addTakenEmpty]
  unfold doFindFreeSpace at hres
  rw [inMemory_addTakenEmpty] at hres
  cases hmem : c.inMemory minSpace pickFree squeeze with
  | some p =>
    -- The heaps and lists in memory have one.
    rw [hmem] at hres
    cases hres
    refine ⟨Same.refl hplaced, fun p hp => ?_, fun h => ?_⟩
    · cases hp
      obtain ⟨⟨l, hl⟩, hpicks⟩ := hc.inMemory_picks hmin hmem
      obtain ⟨hmain, hvals, -⟩ := hc.vals hl
      rw [lpt_addTakenEmpty]
      exact ⟨l, hmain, hl, hvals ▸ hpicks⟩
    · cases h
  | none =>
    -- None in memory will do, so what is returned depends on what was read in.
    rw [hmem] at hres
    dsimp only at hres
    split at hres
    · -- all of the LPT is in memory: nothing that the heaps lack has room
      rename_i hread
      cases hres
      refine ⟨Same.refl hplaced, fun p hp => ?_, fun _ l hl htaken hindex hempty hfreeable => ?_⟩
      · cases hp
      · have hread : k.pnodeCnt ≤ c.pnodesHave := by
          cases pickFree <;> exact hread
        obtain ⟨p, hp⟩ := hc.allRead hread hl
        obtain ⟨-, hvals, -⟩ := hc.vals hp
        rw [hvals] at htaken hindex hempty hfreeable ⊢
        exact hc.inMemory_none hmem hp htaken hindex hempty hfreeable
    · -- The LPT is scanned from behind `lscan_lnum` on, once round (`hmemOrder`).
      obtain ⟨hsame, hfound, hall⟩ := scanLebs_spec hplaced henv.scan
      rw [hprops] at hfound hall
      have hlscan : (c.addTakenEmpty pickFree n).lscanLnum = c.lscanLnum := by
        cases pickFree <;> rfl
      have hmemOrder : ∀ l, l ∈ T.lebs → l ∈ scanOrder k (c.addTakenEmpty pickFree n).lscanLnum := by
        intro l hl
        have hlast := hc.lscanLnum
        rw [hc.lebs, Finset.mem_Ico] at hl hlast
        rw [hlscan]
        exact mem_scanOrder hlast.1 hlast.2 hl.1 hl.2
      cases hscan : scanLebs g k T env.visit ⟨minSpace, pickFree⟩
          (scanOrder k (c.addTakenEmpty pickFree n).lscanLnum) (c.addTakenEmpty pickFree n) with
      | mk r c₁ =>
        rw [hscan] at hres hsame hfound hall
        cases r with
        | error err =>
          cases hres
          refine ⟨hsame, fun p hp => ?_, fun h l hl htaken hindex hempty hfreeable => ?_⟩
          · cases hp
          · -- an LEB that would do would have been taken by the scan
            by_contra hle
            exact hall h l (hmemOrder l hl) ⟨htaken, hindex, not_lt.mp hle,
              fun h => absurd h hempty, fun h => absurd h hfreeable⟩
        | ok lnum =>
          have hlook := henv.look lnum c₁ hscan
          obtain ⟨hplaced', hprops'⟩ := hsame.placed.moves hlook.allowed
          have hsame' : Same T c₁ { c₁ with lscanLnum := lnum, space := c₁.space.lookup T env.look } :=
            ⟨hplaced', hprops', rfl⟩
          dsimp only at hres
          split at hres
          · -- reading the properties once more fails
            cases hres
            refine ⟨hsame.trans hsame', fun p hp => ?_, fun h => ?_⟩
            · cases hp
            · cases h
          · -- they are read
            rename_i p' hp'
            cases hres
            refine ⟨hsame.trans hsame', fun p hp => ?_, fun h => ?_⟩
            · cases hp
              have hnode := hlook.found p' hp'
              exact ⟨lnum, hplaced'.main lnum p' hnode, hnode, (hfound lnum rfl).2⟩
            · cases h

/-! ## What `ubifs_find_free_space` returns -/

/-- The LEBs that are taken and empty. -/
def takenEmpty (g : Consts) (T : Table) (c : Info) : Finset Nat :=
  T.lebs.filter fun l => (c.space.lpt.props T l).taken ∧ (c.space.lpt.props T l).free = g.lebSize

/-- A LEB that was returned, with the offset of its free space. -/
structure Found (g : Consts) (T : Table) (minSpace : Int) (c c' : Info) (lnum : Nat) (offs : Int) :
    Prop where
  main : lnum ∈ T.lebs
  untaken : (c.space.lpt.props T lnum).taken = false
  data : (c.space.lpt.props T lnum).index = false
  space : minSpace ≤ (c.space.lpt.props T lnum).free
  offs : offs = g.lebSize - (c.space.lpt.props T lnum).free
  freeable : (c.space.lpt.props T lnum).free + (c.space.lpt.props T lnum).dirty = g.lebSize →
    (c.space.lpt.props T lnum).free = g.lebSize
  reserved : (c.space.lpt.props T lnum).free = g.lebSize → c.rsvdIdxLebs < c.lebs
  taken : c'.space.lpt.props T = Function.update (c.space.lpt.props T) lnum
    { c.space.lpt.props T lnum with taken := true }

/-- There is a LEB that the search must not miss. -/
def HasSpace (g : Consts) (T : Table) (minSpace : Int) (c : Info) : Prop :=
  ∃ l ∈ T.lebs, (c.space.lpt.props T l).taken = false ∧ (c.space.lpt.props T l).index = false ∧
    (c.space.lpt.props T l).free + (c.space.lpt.props T l).dirty ≠ g.lebSize ∧
    (c.space.lpt.props T l).free ≠ g.lebSize ∧ minSpace ≤ (c.space.lpt.props T l).free

/-- `ubifs_change_lp` marks the LEB as taken, or fails and leaves everything. -/
theorem take_spec {s : Space} {again : Option Look} (hp : s.lpt.pnode l = some p)
    (hs : s.lpt.Placed T) (hagain : Call.OkAgain T s.lpt l again) {flags : Flags}
    (hflags : flags = { (s.lpt.cats.lprops p).flags with taken := true }) {s' : Space}
    {res : Except Int Nat}
    (hres : s.ubifsChangeLp g T p again ⟨none, none, some flags⟩ 0 = (res, s')) :
    (∀ err, res = .error err → s'.lst = s.lst ∧ s'.lpt.props T = s.lpt.props T) ∧
      ∀ p', res = .ok p' → (s'.lpt.cats.lprops p').free = (s.lpt.props T l).free ∧
        s'.lpt.props T = Function.update (s.lpt.props T) l { s.lpt.props T l with taken := true } ∧
        s'.lst = s.lst.shift (share g (s.lpt.props T l))
          (share g { s.lpt.props T l with taken := true }) := by
  -- the change, wherever the properties are by then
  have hchange : ∀ (s₁ : Space) (p' : Nat), s₁.lpt.pnode l = some p' → s₁.lpt.Placed T →
      s₁.lst = s.lst → s₁.lpt.props T = s.lpt.props T →
      let s₂ := s₁.changed g p' ⟨none, none, some flags⟩ 0
      (s₂.lpt.cats.lprops p').free = (s.lpt.props T l).free ∧
        s₂.lpt.props T = Function.update (s.lpt.props T) l { s.lpt.props T l with taken := true } ∧
        s₂.lst = s.lst.shift (share g (s.lpt.props T l))
          (share g { s.lpt.props T l with taken := true }) := by
    intro s₁ p' hp' hplaced hlst hprops s₂
    have hvals : (s₁.lpt.cats.lprops p').vals = s.lpt.props T l := by
      rw [← Lpt.props_of_some hp', hprops]
    have happly : ((Change.mk none none (some flags)).apply g s₁.lst
        (s₁.lpt.cats.lprops p')).2.vals = { s.lpt.props T l with taken := true } := by
      have hindex : flags.index = (s.lpt.props T l).index := by
        rw [hflags, Lpt.props_of_some hp]
        rfl
      have htaken : flags.taken = true := by rw [hflags]
      rw [← hvals] at hindex ⊢
      show Vals.mk _ _ _ flags.taken flags.index = _
      rw [hindex, htaken]
      rfl
    obtain ⟨-, hprops₂⟩ := @Space.changed_placed g T s₁ p' l ⟨none, none, some flags⟩ 0 hplaced hp'
    rw [happly, hprops] at hprops₂
    have hlst₂ : s₂.lst = s₁.lst.shift (share g (s₁.lpt.cats.lprops p').vals) (share g _) :=
      Change.apply_eq
    rw [happly, hvals, hlst] at hlst₂
    have hat : s₂.lpt.props T l = (s₂.lpt.cats.lprops p').vals := Lpt.props_of_some hp'
    rw [hprops₂, Function.update_self] at hat
    exact ⟨(congrArg Vals.free hat).symm, hprops₂, hlst₂⟩
  cases again with
  | none =>
    cases hres
    refine ⟨fun err h => ?_, fun p' h => ?_⟩
    · cases h
    · cases h
      exact hchange s p hp hs rfl rfl
  | some look =>
    have hlook := hagain look rfl
    obtain ⟨hplaced, hprops⟩ := hs.moves hlook.allowed
    unfold Space.ubifsChangeLp at hres
    dsimp only at hres
    split at hres
    · cases hres
      refine ⟨fun _ _ => ⟨rfl, hprops⟩, fun p' h => ?_⟩
      cases h
    · rename_i p' hp'
      cases hres
      refine ⟨fun err h => ?_, fun p'' h => ?_⟩
      · cases h
      · cases h
        exact hchange _ p' (hlook.found p' hp') hplaced rfl hprops

/-- Once the allocation is no longer accounted for. -/
theorem takenEmpty_card {c' : Info} (hlst : c'.space.lst = recomputed g T.lebs (c'.space.lpt.props T)) :
    c'.space.lst.takenEmptyLebs = (takenEmpty g T c').card := by
  rw [hlst, takenEmpty, Finset.card_filter, Nat.cast_sum]
  refine Finset.sum_congr rfl fun l _ => ?_
  simp only [share]
  split <;> rfl

/-- The search returns what it may, has missed nothing if it returns `-ENOSPC`, and accounts for the
    taken empty LEBs.  `ubifs_find_free_space` is not asked for more than an LEB: its only caller,
    `reserve_space`, asks for the length of a node, and the function asserts that what it found has
    `offs <= leb_size - min_space`. -/
theorem find_free_space_spec (hc : c.Valid g k T) (hmin : minSpace ≤ g.lebSize)
    (henv : EnvOk g k T (c.addTakenEmpty c.pickFree 1) env minSpace c.pickFree squeeze)
    {res : Except FindErr (Nat × Int)}
    (hres : c.ubifsFindFreeSpace g k T env minSpace squeeze = (res, c')) :
    (∀ lnum offs, res = .ok (lnum, offs) → Found g T minSpace c c' lnum offs) ∧
      (res = .error .enospc → ¬HasSpace g T minSpace c) ∧
      c'.space.lst.takenEmptyLebs = (takenEmpty g T c').card := by
  unfold ubifsFindFreeSpace at hres
  dsimp only at hres
  cases hfind : (c.addTakenEmpty c.pickFree 1).doFindFreeSpace g k T env minSpace c.pickFree squeeze
    with
  | mk r c₁ =>
    obtain ⟨hsame, hfound, hnospc⟩ := doFindFreeSpace_spec hc hmin henv hfind
    have hprops := hsame.props
    have hlst := hsame.lst
    rw [lpt_addTakenEmpty] at hprops
    rw [lst_addTakenEmpty, hc.counted.lst, mul_one] at hlst
    rw [hfind] at hres
    cases r with
    | error err =>
      cases hres
      refine ⟨fun lnum offs h => ?_, fun h => ?_, ?_⟩
      · cases h
      · rintro ⟨l, hl, htaken, hindex, hfreeable, hempty, hle⟩
        have hlt := hnospc (by cases h; rfl) l hl htaken hindex hempty hfreeable
        omega
      · refine takenEmpty_card ?_
        rw [lst_addTakenEmpty, lpt_addTakenEmpty, hlst, hprops, LpStats.addTaken_cancel]
    | ok p =>
      obtain ⟨l, hl, hnode, hpicks⟩ := hfound p rfl
      have hagain := henv.again p c₁ hfind l hnode
      dsimp only at hres
      cases hch : c₁.space.ubifsChangeLp g T p env.again ⟨none, none, some
          { (c₁.space.lpt.cats.lprops p).flags with taken := true }⟩ 0 with
      | mk r' s' =>
        obtain ⟨herr, hok⟩ := take_spec hnode hsame.placed hagain rfl hch
        rw [hch] at hres
        cases r' with
        | error err =>
          obtain ⟨hlst', hprops'⟩ := herr err rfl
          cases hres
          refine ⟨fun lnum offs h => ?_, fun h => ?_, takenEmpty_card ?_⟩
          · cases h
          · cases h
          · rw [lst_addTakenEmpty, lpt_addTakenEmpty, hlst', hlst, hprops', hprops,
              LpStats.addTaken_cancel]
        | ok p' =>
          obtain ⟨hfree, hprops', hlst'⟩ := hok p' rfl
          rw [hprops] at hfree hprops' hlst'
          -- the counts are right again
          have hcounts : (addTakenEmpty { c₁ with space := s' } c.pickFree (-1)).space.lst =
              recomputed g T.lebs
                ((addTakenEmpty { c₁ with space := s' } c.pickFree (-1)).space.lpt.props T) := by
            rw [lst_addTakenEmpty, lpt_addTakenEmpty, hlst', hlst, LpStats.shift_addTaken,
              LpStats.addTaken_cancel, hprops']
            have hsum := @recomputed_change g T.lebs (c.space.lpt.props T)
              (Function.update (c.space.lpt.props T) l { c.space.lpt.props T l with taken := true }) l
              hl fun y hy => Function.update_of_ne hy _ _
            rw [Function.update_self] at hsum
            exact hsum.symm
          dsimp only at hres
          split at hres
          · cases hres
            refine ⟨fun lnum offs h => ?_, fun h => ?_, takenEmpty_card hcounts⟩
            · cases h
            · cases h
          · cases hres
            refine ⟨fun lnum offs h => ?_, fun h => ?_, takenEmpty_card hcounts⟩
            · cases h
              rw [hsame.placed.lnum l p hnode]
              refine ⟨hl, hpicks.taken, hpicks.index, hpicks.space, ?_, fun h => ?_, fun h => ?_, ?_⟩
              · rw [hfree]
              · have := hpicks.freeable h
                have := (hc.wellFormed l hl).dirty
                omega
              · have hpick := hpicks.empty h
                unfold pickFree at hpick
                exact (of_decide_eq_true hpick).1
              · rw [lpt_addTakenEmpty]
                exact hprops'
            · cases h

end Info

/-! ## Two LEBs that have not been read -/

namespace TwoLebs

/-- LEBs of 8 KiB. -/
def consts : Consts := ⟨8192, 64, 64, 128⟩

/-- Two LEBs, in one pnode. -/
def area : Area := ⟨10, 12, 1, 4⟩

/-- LEB 10 is empty, LEB 11 is full. -/
def flash (l : Nat) : Lprops :=
  if l = 10 then ⟨10, 8192, 0, ⟨.list .empty, false, false⟩, 0⟩
  else ⟨l, 0, 0, ⟨.list .uncat, false, false⟩, 0⟩

theorem flash_lnum (l : Nat) : (flash l).lnum = l := by
  unfold flash
  split
  · rename_i h
    exact h.symm
  · rfl

/-- What the media say about them. -/
def table : Table where
  lebs := Finset.Ico 10 12
  flash := flash
  lnum := flash_lnum

/-- Nothing has been read yet. -/
def unread : Lpt where
  cats := ⟨flash, fun _ => ⟨fun _ => 0, 0⟩, fun _ => [], 0⟩
  pnode _ := none

/-- The search starts at LEB 10. -/
def start : Info where
  space := ⟨unread, ⟨1, 0, 0, 8192, 0, 8192, 0, 128⟩, 0⟩
  minIdxLebs := 0
  lscanLnum := 10
  pnodesHave := 0

/-- LEB 10 is put into the table; with any other LEB that fails. -/
def env : FindEnv where
  visit l := if l = 10 then ⟨none, .ok [.read 10 0, .read 11 1]⟩ else ⟨none, .error (-12)⟩
  look := ⟨[], .ok 0⟩
  again := none
  unmap := none

/-- The scan of both LEBs. -/
def scanned : Except FindErr Nat × Info :=
  Info.scanLebs consts area table env.visit ⟨100, start.pickFree⟩ [11, 10]
    (start.addTakenEmpty start.pickFree 1)

/-- The search finds LEB 10. -/
theorem scanned_ok : scanned.1 = .ok 10 := rfl

/-- The example is a file system in order. -/
theorem start_valid : start.Valid consts area table where
  lebs := rfl
  wellFormed l hl := by
    have hl : l = 10 ∨ l = 11 := by
      have := Finset.mem_Ico.mp hl
      omega
    rcases hl with rfl | rfl
    · exact ⟨by decide, by decide, by decide, by decide⟩
    · exact ⟨by decide, by decide, by decide, by decide⟩
  counted := by
    refine ⟨⟨fun l p h => ?_, fun l p h => ?_⟩, by decide⟩
    · cases h
    · cases h
  sound := (Lpt.Initial.good ⟨fun _ => rfl, fun _ => rfl, fun _ => rfl, rfl⟩).sound
  right p hp := by
    obtain ⟨l, hl⟩ := hp
    cases hl
  lscanLnum := by decide
  whole l _ l' _ _ h := absurd rfl h
  pnodeCnt := by decide
  pnodesHave := by decide

/-- Its look-ups look for the right LEB. -/
theorem env_ok : Info.EnvOk consts area table (start.addTakenEmpty start.pickFree 1) env 100
    start.pickFree true where
  scan := by
    refine ⟨fun ms h => ?_, fun _ => ⟨fun ms h => ?_, fun h => ?_⟩⟩
    · cases h
    · cases h
      refine ⟨⟨⟨by decide, rfl, ?_⟩, ⟨by decide, rfl, ?_⟩, trivial⟩, by decide⟩
      · rintro ⟨l, hl⟩
        cases hl
      · rintro ⟨l, hl⟩
        have hl : Function.update (fun _ => none) 10 (some 0) l = some 1 := hl
        by_cases h10 : l = 10
        · rw [h10, Function.update_self] at hl
          cases hl
        · rw [Function.update_of_ne h10] at hl
          cases hl
    · cases h
  look lnum c' h := by
    have h : scanned = (.ok lnum, c') := h
    have hlnum : lnum = 10 := by
      have := congrArg Prod.fst h
      rw [scanned_ok] at this
      cases this
      rfl
    have hc' : scanned.2 = c' := congrArg Prod.snd h
    subst hlnum hc'
    refine ⟨trivial, fun p hp => ?_⟩
    cases hp
    rfl
  again p c' h lnum hp look hlook := by
    cases hlook

/-- The empty LEB is found. -/
theorem find_free_space_ten : Info.Found consts table 100 start
    (start.ubifsFindFreeSpace consts area table env 100 true).2 10 0 :=
  (Info.find_free_space_spec start_valid (by decide) env_ok rfl).1 10 0 rfl

end TwoLebs

end Ubifs.Lp
