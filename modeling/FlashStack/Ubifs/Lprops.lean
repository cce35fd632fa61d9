/-
  LEB properties: categories and space statistics (`lprops.c`).

  The properties of a LEB are in memory at an address, and the category in their flags says which heap
  or list they are in.  What is on the media is read when it is looked up, and copied when it is changed
  while it is being written (`dirty_cow_pnode` in `lpt.c`).

  Addresses of LEB properties are numbers; `Lpt` has in it which LEB is in memory and where.  Heaps
  are arrays with a count, as the source has them, and lists are lists.
-/
import FlashStack.Lib.Heap
import FlashStack.Ubifs.Media

open Lib

namespace Ubifs.Lp

/-- `LPT_HEAP_SZ`, and the smallest write. -/
def lptHeapSz : Nat := 256
def minWriteSz : Int := ubifsDataNodeSz + 8

/-! ## Properties -/

/-- `LPROPS_DIRTY`, `LPROPS_DIRTY_IDX`, `LPROPS_FREE`: the categories with a heap. -/
inductive HeapCat
  | dirty | dirtyIdx | free
deriving DecidableEq

/-- `LPROPS_UNCAT`, `LPROPS_EMPTY`, `LPROPS_FREEABLE`, `LPROPS_FRDI_IDX`: those with a list. -/
inductive ListCat
  | uncat | empty | freeable | frdiIdx
deriving DecidableEq

/-- A category is a heap or a list. -/
inductive Cat
  | heap (h : HeapCat)
  | list (l : ListCat)
deriving DecidableEq

/-- `flags`: the category, `LPROPS_TAKEN` and `LPROPS_INDEX`. -/
structure Flags where
  cat : Cat
  taken : Bool
  index : Bool
deriving DecidableEq

/-- `struct ubifs_lprops`.  `hpos` has a meaning in a heap; in a list its place is taken by the links. -/
structure Lprops where
  lnum : Nat
  free : Int
  dirty : Int
  flags : Flags
  hpos : Nat
deriving DecidableEq

/-- `get_heap_comp_val`: what a heap is ordered by. -/
def getHeapCompVal (lp : Lprops) : HeapCat → Int
  | .free => lp.free
  | .dirtyIdx => lp.free + lp.dirty
  | .dirty => lp.dirty

/-- What does not change. -/
structure Consts where
  lebSize : Int
  minIdxNodeSz : Int
  deadWm : Int
  darkWm : Int

/-- `ubifs_categorize_lprops`. -/
def ubifsCategorizeLprops (g : Consts) (lp : Lprops) : Cat :=
  if lp.flags.taken then .list .uncat
  else if lp.free = g.lebSize then .list .empty
  else if lp.free + lp.dirty = g.lebSize then
    if lp.flags.index then .list .frdiIdx else .list .freeable
  else if lp.flags.index then
    if g.minIdxNodeSz ≤ lp.dirty + lp.free then .heap .dirtyIdx else .list .uncat
  else if g.deadWm ≤ lp.dirty ∧ lp.free < lp.dirty then .heap .dirty
  else if 0 < lp.free then .heap .free
  else .list .uncat

/-! ## Heaps and lists -/

/-- `struct ubifs_lpt_heap`. -/
structure LptHeap where
  arr : Nat → Nat
  cnt : Nat

/-- The memory, by addresses, and what points into it. -/
structure Cats where
  lprops : Nat → Lprops
  heap : HeapCat → LptHeap
  list : ListCat → List Nat
  freeableCnt : Int

namespace Cats

variable (c : Cats)

/-- The key of the LEB properties at an address. -/
def key (h : HeapCat) (p : Nat) : Int := getHeapCompVal (c.lprops p) h

/-- A heap with the positions that its entries have in `hpos`. -/
def view (h : HeapCat) : Heap Nat := ⟨(c.heap h).arr, (c.heap h).cnt, fun p => (c.lprops p).hpos⟩

/-- The heap and the positions are those of the view. -/
def setHeap (h : HeapCat) (H : Heap Nat) : Cats :=
  { c with
    heap := Function.update c.heap h ⟨H.arr, H.cnt⟩
    lprops := fun p => { c.lprops p with hpos := H.pos p } }

/-- The category is put into the flags. -/
def setCat (p : Nat) (cat : Cat) : Cats :=
  { c with
    lprops := Function.update c.lprops p
      { c.lprops p with flags := { (c.lprops p).flags with cat := cat } } }

/-- `list_add`: to the front of the list. -/
def listAdd (p : Nat) (l : ListCat) : Cats :=
  { c with list := Function.update c.list l (p :: c.list l) }

/-- `list_del` takes the entry out of the list that it is in. -/
def listDel (p : Nat) : Cats := { c with list := fun l => (c.list l).erase p }

/-- `list_replace`: a copy takes the place of the original. -/
def listReplace (old new : Nat) : Cats :=
  { c with list := fun l => (c.list l).map fun q => if q = old then new else q }

/-- `move_up_lpt_heap`. -/
def moveUpLptHeap (h : HeapCat) (p : Nat) : Cats :=
  c.setHeap h ((c.view h).siftUp (c.key h) p (c.lprops p).hpos)

/-- `adjust_lpt_heap`. -/
def adjustLptHeap (h : HeapCat) (p hpos : Nat) : Cats :=
  c.setHeap h ((c.view h).adjust (c.key h) p hpos)

/-- The entry of a full heap that a new one at address `p` is compared with. -/
def bottomPos (p : Nat) : Nat := ((p >>> 4) &&& (lptHeapSz / 2 - 1)) + (lptHeapSz / 2 - 1)

/-- Is there room, or an entry at the bottom that is smaller?  That one falls off. -/
def addToLptHeap (p : Nat) (h : HeapCat) : Bool × Cats :=
  if lptHeapSz ≤ (c.heap h).cnt then
    let lp := (c.heap h).arr (bottomPos p)
    if c.key h lp < c.key h p then
      let c := (c.setCat lp (.list .uncat)).listAdd lp .uncat
      let c := c.setHeap h ((c.view h).put p (bottomPos p))
      (true, c.moveUpLptHeap h p)
    else (false, c)
  else
    let H := c.view h
    let c := c.setHeap h (Heap.put { H with cnt := H.cnt + 1 } p H.cnt)
    (true, c.moveUpLptHeap h p)

/-- `remove_from_lpt_heap`: the last element fills the gap. -/
def removeFromLptHeap (p : Nat) (h : HeapCat) : Cats :=
  let hpos := (c.lprops p).hpos
  let H := c.view h
  let cnt := H.cnt - 1
  if hpos < cnt then
    let last := H.arr cnt
    let c := c.setHeap h (Heap.put { H with cnt := cnt } last hpos)
    c.adjustLptHeap h last hpos
  else c.setHeap h { H with cnt := cnt }

/-- `ubifs_add_to_cat`: what does not fit in a heap is not categorised. -/
def ubifsAddToCat (p : Nat) : Cat → Cats
  | .heap h =>
    let r := c.addToLptHeap p h
    if r.1 then r.2.setCat p (.heap h) else (r.2.listAdd p .uncat).setCat p (.list .uncat)
  | .list l =>
    let c := c.listAdd p l
    let c := { c with freeableCnt := if l = ListCat.freeable then c.freeableCnt + 1 else c.freeableCnt }
    c.setCat p (.list l)

/-- `ubifs_remove_from_cat`. -/
def ubifsRemoveFromCat (p : Nat) : Cat → Cats
  | .heap h => c.removeFromLptHeap p h
  | .list l =>
    let c := { c with freeableCnt := if l = ListCat.freeable then c.freeableCnt - 1 else c.freeableCnt }
    c.listDel p

/-- `new` is a copy of `old`, its `hpos` included. -/
def lptHeapReplace (new : Nat) (h : HeapCat) : Cats :=
  { c with
    heap := Function.update c.heap h
      ⟨Function.update (c.heap h).arr (c.lprops new).hpos new, (c.heap h).cnt⟩ }

/-- `ubifs_replace_cat`. -/
def ubifsReplaceCat (old new : Nat) : Cats :=
  match (c.lprops new).flags.cat with
  | .heap h => c.lptHeapReplace new h
  | .list _ => c.listReplace old new

/-- `ubifs_ensure_cat`: LEB properties that have no category get one. -/
def ubifsEnsureCat (g : Consts) (p : Nat) : Cats :=
  if (c.lprops p).flags.cat ≠ .list .uncat then c
  else
    let cat := ubifsCategorizeLprops g (c.lprops p)
    if cat = .list .uncat then c
    else (c.ubifsRemoveFromCat p (.list .uncat)).ubifsAddToCat p cat

/-- `change_category`. -/
def changeCategory (g : Consts) (p : Nat) : Cats :=
  let oldCat := (c.lprops p).flags.cat
  let newCat := ubifsCategorizeLprops g (c.lprops p)
  if oldCat = newCat then
    match newCat with
    | .heap h => c.adjustLptHeap h p (c.lprops p).hpos
    | .list _ => c
  else (c.ubifsRemoveFromCat p oldCat).ubifsAddToCat p newCat

/-- `ubifs_fast_find_free`: the properties at the top of the heap, if there are any. -/
def ubifsFastFindFree : Option Nat :=
  if (c.heap .free).cnt = 0 then none else some ((c.heap .free).arr 0)

/-- New values for what is at an address. -/
def write (p : Nat) (lp : Lprops) : Cats := { c with lprops := Function.update c.lprops p lp }

end Cats

/-! ## Which LEBs there are -/

/-- The categories, and where in memory the properties of a LEB are. -/
structure Lpt where
  cats : Cats
  pnode : Nat → Option Nat

/-- Properties of a LEB are at the address. -/
def Lpt.Live (s : Lpt) (p : Nat) : Prop := ∃ lnum, s.pnode lnum = some p

namespace Lpt

variable (s : Lpt) (g : Consts)

/-- `update_cats`: the properties of a LEB have been read. -/
def add (p : Nat) (lp : Lprops) (cat : Cat) : Lpt where
  cats := (s.cats.write p lp).ubifsAddToCat p cat
  pnode := Function.update s.pnode lp.lnum (some p)

/-- New values, and then `change_category`. -/
def change (p : Nat) (free dirty : Int) (taken index : Bool) : Lpt :=
  let lp := s.cats.lprops p
  { s with
    cats := (s.cats.write p { lp with
      free := free, dirty := dirty, flags := ⟨lp.flags.cat, taken, index⟩ }).changeCategory g p }

/-- `dirty_cow_pnode` as far as one LEB is concerned. -/
def replace (lnum old new : Nat) : Lpt where
  cats := (s.cats.write new (s.cats.lprops old)).ubifsReplaceCat old new
  pnode := Function.update s.pnode lnum (some new)

/-- The same, of the table. -/
def ensure (p : Nat) : Lpt := { s with cats := s.cats.ubifsEnsureCat g p }

variable {s} in
/-- Reading the properties of a LEB makes no others live. -/
theorem not_live_add {p q : Nat} {lp : Lprops} {cat : Cat} (hq : ¬ s.Live q) (hne : q ≠ p) :
    ¬ (s.add p lp cat).Live q := by
  rintro ⟨l, hl⟩
  change Function.update s.pnode lp.lnum (some p) l = some q at hl
  by_cases heq : l = lp.lnum
  · rw [heq, Function.update_self] at hl
    exact hne (Option.some.inj hl).symm
  · rw [Function.update_of_ne heq] at hl
    exact hq ⟨l, hl⟩

/-- Nothing has been read. -/
def Initial : Prop :=
  (∀ lnum, s.pnode lnum = none) ∧ (∀ h, (s.cats.heap h).cnt = 0) ∧ (∀ l, s.cats.list l = []) ∧
    s.cats.freeableCnt = 0

end Lpt

/-- What happens to the properties of LEBs.  New ones are where no others are. -/
inductive Step (g : Consts) (s : Lpt) : Lpt → Prop
  | add (p : Nat) (lp : Lprops) (cat : Cat) :
    s.pnode lp.lnum = none → ¬ s.Live p → Step g s (s.add p lp cat)
  | change (lnum p : Nat) (free dirty : Int) (taken index : Bool) :
    s.pnode lnum = some p → Step g s (s.change g p free dirty taken index)
  | replace (lnum old new : Nat) :
    s.pnode lnum = some old → ¬ s.Live new → Step g s (s.replace lnum old new)
  | ensure (lnum p : Nat) : s.pnode lnum = some p → Step g s (s.ensure g p)

end Ubifs.Lp
