/-
  The red-black trees of scanning (`scan.c`): volumes by their ID, and the LEBs of a volume by `lnum`.

  Each walk down has the direction of the order written into it.  Volumes are in descending order, for
  `add_volume` and for `ubi_scan_find_sv`.  LEBs are added in ascending order, but `ubi_scan_find_seb`
  walks as if they descended: it finds the root of the tree and nothing else.

  Without errors the trees are the maps of `Scan` (`ubiScanAddUsed_refines`), whatever the
  balancing does; `find_agrees_iff` says for which trees the walk finds the LEB all the same.
-/
import FlashStack.Lib.SearchTree
import FlashStack.Ubi.Scan
import FlashStack.Ubi.Volume
import Mathlib

open Lib

namespace Ubi.ScanTrees

open Lib.SearchTree (inorder)
open Scan (VolType VidHdr Flash ScanLeb CmpRes validateVidHdr)
open Vol (Errno)

/-! ## Red-black trees -/

/-- A node with its colour. -/
structure RbNode (α : Type) where
  red : Bool
  entry : α

/-- A red-black tree, of which the colours do not matter. -/
abbrev RbTree (α : Type) := BinaryTree (RbNode α)

/-- The entries from left to right. -/
def entries {α : Type} (t : RbTree α) : List α := (inorder t).map (·.entry)

/-- The kernel's red-black trees: a tree is coloured and rotated after a node has been linked to it, and
    the order of its nodes stays. -/
structure RbLib where
  insertColor : {α : Type} → RbTree α → RbTree α
  entries_insertColor : ∀ {α : Type} (t : RbTree α), entries (insertColor t) = entries t

namespace RbTree

variable {α : Type} (lt : Nat → Nat → Prop) [DecidableRel lt] (key : α → Nat)

/-- A walk down: to the left where the key is `lt` that of the entry. -/
def find (x : Nat) (t : RbTree α) : Option α :=
  (SearchTree.find lt (fun n : RbNode α => key n.entry) x t).map (·.entry)

/-- `rb_link_node` where such a walk ends, and `rb_insert_color` -/
def add (rb : RbLib) (e : α) (t : RbTree α) : RbTree α :=
  rb.insertColor
    (SearchTree.insert (fun n n' : RbNode α => lt (key n.entry) (key n'.entry)) ⟨true, e⟩ t)

/-- An entry is changed where it is. -/
def put (e : α) (t : RbTree α) : RbTree α :=
  t.map fun n => if key n.entry = key e then { n with entry := e } else n

variable {lt key} {rb : RbLib} {t : RbTree α} {e a : α} {x : Nat}

/-- What is in a tree. -/
theorem mem_entries : a ∈ entries t ↔ ∃ n ∈ inorder t, n.entry = a := List.mem_map

/-- The entries are in order. -/
def Sorted (lt : Nat → Nat → Prop) (key : α → Nat) (t : RbTree α) : Prop :=
  (entries t).Pairwise fun a b => lt (key a) (key b)

omit [DecidableRel lt] in
/-- A sorted tree has its keys in order. -/
theorem Sorted.inorder (h : Sorted lt key t) :
    (inorder t).Pairwise fun n n' => lt (key n.entry) (key n'.entry) := by
  rw [Sorted, entries, List.pairwise_map] at h
  exact h

/-- A search finds what is there. -/
theorem find_eq_some (hasymm : ∀ x y, lt x y → ¬lt y x) (h : Sorted lt key t) :
    find lt key x t = some a ↔ a ∈ entries t ∧ key a = x := by
  rw [find, Option.map_eq_some_iff, mem_entries]
  simp only [SearchTree.find_eq_some hasymm h.inorder]
  constructor
  · rintro ⟨n, ⟨hn, rfl⟩, rfl⟩
    exact ⟨⟨n, hn, rfl⟩, rfl⟩
  · rintro ⟨⟨n, hn, rfl⟩, rfl⟩
    exact ⟨n, ⟨hn, rfl⟩, rfl⟩

/-- And nothing else. -/
theorem find_eq_none (hasymm : ∀ x y, lt x y → ¬lt y x) (h : Sorted lt key t) :
    find lt key x t = none ↔ ∀ a ∈ entries t, key a ≠ x := by
  rw [Option.eq_none_iff_forall_ne_some]
  simp only [ne_eq, find_eq_some hasymm h, not_and]

/-- An entry is added, and nothing is lost by the balancing. -/
theorem mem_add : a ∈ entries (add lt key rb e t) ↔ a = e ∨ a ∈ entries t := by
  rw [add, rb.entries_insertColor, mem_entries, mem_entries]
  simp only [SearchTree.mem_insert]
  constructor
  · rintro ⟨n, rfl | hn, rfl⟩
    · exact .inl rfl
    · exact .inr ⟨n, hn, rfl⟩
  · rintro (rfl | ⟨n, hn, rfl⟩)
    · exact ⟨_, .inl rfl, rfl⟩
    · exact ⟨n, .inr hn, rfl⟩

/-- A new key keeps the tree sorted. -/
theorem Sorted.add (htrans : ∀ x y z, lt x y → lt y z → lt x z)
    (htotal : ∀ x y, x ≠ y → ¬lt x y → lt y x) (h : Sorted lt key t)
    (he : ∀ a ∈ entries t, key a ≠ key e) : Sorted lt key (add lt key rb e t) := by
  rw [Sorted, RbTree.add, rb.entries_insertColor]
  refine List.pairwise_map.mpr (SearchTree.insert_ordered ?_ h.inorder ?_)
  · intro n n' n''
    exact htrans _ _ _
  · intro n hn
    exact htotal _ _ (he n.entry (mem_entries.mpr ⟨n, hn, rfl⟩)).symm

/-- Changing entries in place keeps their order. -/
theorem inorder_map {β : Type} (f : RbNode α → RbNode β) (t : RbTree α) :
    SearchTree.inorder (t.map f) = (SearchTree.inorder t).map f := by
  induction t with
  | nil => rfl
  | node a l r ihl ihr =>
    rw [BinaryTree.map, SearchTree.inorder_node, SearchTree.inorder_node, ihl, ihr, List.map_append,
      List.map_cons]

theorem entries_put :
    entries (put key e t) = (entries t).map fun a => if key a = key e then e else a := by
  rw [entries, put, inorder_map, entries, List.map_map, List.map_map]
  refine List.map_congr_left fun n hn => ?_
  simp only [Function.comp_apply]
  split <;> rfl

/-- An entry is replaced by one with the same key. -/
theorem mem_put : a ∈ entries (put key e t) ↔
    (a = e ∧ ∃ b ∈ entries t, key b = key e) ∨ (a ∈ entries t ∧ key a ≠ key e) := by
  rw [entries_put, List.mem_map]
  constructor
  · rintro ⟨b, hb, rfl⟩
    split
    · rename_i h
      exact .inl ⟨rfl, b, hb, h⟩
    · rename_i h
      exact .inr ⟨hb, h⟩
  · rintro (⟨rfl, b, hb, h⟩ | ⟨ha, h⟩)
    · exact ⟨b, hb, if_pos h⟩
    · exact ⟨a, ha, if_neg h⟩

omit [DecidableRel lt] in
/-- The keys stay where they are. -/
theorem Sorted.put (h : Sorted lt key t) : Sorted lt key (put key e t) := by
  rw [Sorted, entries_put, List.pairwise_map]
  refine h.imp fun {a b} hab => ?_
  have hkey : ∀ a, key (if key a = key e then e else a) = key a := by
    intro a
    split
    · exact Eq.symm (by assumption)
    · rfl
  rw [hkey, hkey]
  exact hab

/-- The keys stay the same. -/
theorem key_put : (∃ a ∈ entries (put key e t), key a = x) ↔ ∃ a ∈ entries t, key a = x := by
  simp only [mem_put]
  constructor
  · rintro ⟨a, ⟨rfl, b, hb, h⟩ | ⟨ha, -⟩, rfl⟩
    · exact ⟨b, hb, h⟩
    · exact ⟨a, ha, rfl⟩
  · rintro ⟨a, ha, rfl⟩
    by_cases h : key a = key e
    · exact ⟨e, .inl ⟨rfl, a, ha, h⟩, h.symm⟩
    · exact ⟨a, .inr ⟨ha, h⟩, rfl⟩

/-- Looking up after a new entry. -/
theorem find_add (hasymm : ∀ x y, lt x y → ¬lt y x) (hs : Sorted lt key (add lt key rb e t))
    (h : Sorted lt key t) (he : ∀ a ∈ entries t, key a ≠ key e) :
    (fun x => find lt key x (add lt key rb e t)) =
      Function.update (fun x => find lt key x t) (key e) (some e) := by
  funext x
  by_cases hx : x = key e
  · subst hx
    rw [Function.update_self, find_eq_some hasymm hs, mem_add]
    exact ⟨.inl rfl, rfl⟩
  · rw [Function.update_of_ne hx]
    refine Option.ext fun a => ?_
    rw [find_eq_some hasymm hs, find_eq_some hasymm h, mem_add]
    constructor
    · rintro ⟨rfl | ha, rfl⟩
      · exact absurd rfl hx
      · exact ⟨ha, rfl⟩
    · exact fun ⟨ha, hk⟩ => ⟨.inr ha, hk⟩

/-- Looking up after an entry has been changed. -/
theorem find_put (hasymm : ∀ x y, lt x y → ¬lt y x) (h : Sorted lt key t)
    (he : ∃ b ∈ entries t, key b = key e) : (fun x => find lt key x (put key e t)) =
      Function.update (fun x => find lt key x t) (key e) (some e) := by
  funext x
  by_cases hx : x = key e
  · subst hx
    rw [Function.update_self, find_eq_some hasymm h.put, mem_put]
    exact ⟨.inl ⟨rfl, he⟩, rfl⟩
  · rw [Function.update_of_ne hx]
    refine Option.ext fun a => ?_
    rw [find_eq_some hasymm h.put, find_eq_some hasymm h, mem_put]
    constructor
    · rintro ⟨⟨rfl, -⟩ | ⟨ha, -⟩, rfl⟩
      · exact absurd rfl hx
      · exact ⟨ha, rfl⟩
    · rintro ⟨ha, rfl⟩
      exact ⟨.inr ⟨ha, hx⟩, rfl⟩

end RbTree

/-! ## Scanning -/

/-- `struct ubi_scan_volume`, with its LEBs as a tree. -/
structure ScanVolume where
  volId : Nat
  highestLnum : Nat
  lebCount : Nat
  volType : VolType
  usedEbs : Nat
  dataPad : Nat
  compat : Nat
  lastDataSize : Nat
  root : RbTree ScanLeb

/-- `struct ubi_scan_info`, with its volumes as a tree. -/
structure ScanInfo where
  volumes : RbTree ScanVolume
  erase : List (Nat × Nat)
  maxSqnum : Nat
  highestVolId : Nat
  volsFound : Nat

/-- What goes wrong in a call: memory for a volume, for an entry of a tree or of a list, and the check of
    a copy. -/
structure Env where
  volume : Bool
  leb : Bool
  list : Bool
  copy : Option Errno

/-- The arguments of `ubi_scan_add_used`; the headers are those of the PEB. -/
structure Call where
  pnum : Nat
  bitflips : Bool
  env : Env

/-- The volume with its LEBs as a function. -/
def ScanVolume.toMap (sv : ScanVolume) : Scan.ScanVolume where
  volId := sv.volId
  highestLnum := sv.highestLnum
  lebCount := sv.lebCount
  volType := sv.volType
  usedEbs := sv.usedEbs
  dataPad := sv.dataPad
  compat := sv.compat
  lastDataSize := sv.lastDataSize
  leb lnum := RbTree.find (· < ·) (·.lnum) lnum sv.root

/-- A further PEB of a LEB has been found. -/
def ScanVolume.putLeb (sv : ScanVolume) (vidHdr : VidHdr) (seb : ScanLeb) : ScanVolume :=
  { sv with
    root := RbTree.put (·.lnum) seb sv.root
    lastDataSize := if sv.highestLnum = vidHdr.lnum then vidHdr.dataSize else sv.lastDataSize }

/-- A new LEB has been found. -/
def ScanVolume.addLeb (rb : RbLib) (sv : ScanVolume) (vidHdr : VidHdr) (seb : ScanLeb) : ScanVolume :=
  { sv with
    highestLnum := if sv.highestLnum ≤ vidHdr.lnum then vidHdr.lnum else sv.highestLnum
    lastDataSize := if sv.highestLnum ≤ vidHdr.lnum then vidHdr.dataSize else sv.lastDataSize
    lebCount := sv.lebCount + 1
    root := RbTree.add (· < ·) (·.lnum) rb seb sv.root }

/-- What `add_volume` fills in from the first header of a volume. -/
def newVolume (vidHdr : VidHdr) : ScanVolume where
  volId := vidHdr.volId
  highestLnum := 0
  lebCount := 0
  volType := vidHdr.volType
  usedEbs := vidHdr.usedEbs
  dataPad := vidHdr.dataPad
  compat := vidHdr.compat
  lastDataSize := 0
  root := .nil

/-- `compare_lebs`: the newer PEB is read if it is a copy. -/
def compareLebs (fl : Flash) (env : Env) (seb : ScanLeb) (pnum : Nat) : Except Errno CmpRes :=
  match Scan.compareLebs fl seb pnum with
  | none => .error .EINVAL
  | some cmp =>
    if (if (fl.vidHdr pnum).sqnum > seb.sqnum then (fl.vidHdr pnum).copyFlag else seb.copyFlag) then
      env.copy.elim (.ok cmp) .error
    else .ok cmp

namespace ScanInfo

/-- `add_to_list`, for the list of PEBs to erase. -/
def addToErase (si : ScanInfo) (env : Env) (pnum ec : Nat) (toHead : Bool) :
    Except Errno Unit × ScanInfo :=
  if env.list then
    (.ok (),
      { si with erase := if toHead then (pnum, ec) :: si.erase else si.erase ++ [(pnum, ec)] })
  else (.error .ENOMEM, si)

/-- The volume is changed where it is. -/
def setVolume (si : ScanInfo) (sv : ScanVolume) : ScanInfo :=
  { si with volumes := RbTree.put (·.volId) sv si.volumes }

end ScanInfo

section

variable (rb : RbLib) (fl : Flash)

/-- `add_volume` -/
def addVolume (si : ScanInfo) (vidHdr : VidHdr) (env : Env) : Except Errno (ScanInfo × ScanVolume) :=
  match RbTree.find (· > ·) (·.volId) vidHdr.volId si.volumes with
  | some sv => .ok (si, sv)
  | none =>
    if env.volume then
      let sv := newVolume vidHdr
      .ok ({ si with
        volumes := RbTree.add (· > ·) (·.volId) rb sv si.volumes
        highestVolId := max si.highestVolId vidHdr.volId
        volsFound := si.volsFound + 1 }, sv)
    else .error .ENOMEM

/-- A PEB with a LEB that is there already. -/
def addAgain (si : ScanInfo) (sv : ScanVolume) (seb : ScanLeb) (c : Call) :
    Except Errno Unit × ScanInfo :=
  let vidHdr := fl.vidHdr c.pnum
  let ec := fl.ec c.pnum
  if seb.sqnum = vidHdr.sqnum ∧ vidHdr.sqnum ≠ 0 then (.error .EINVAL, si)
  else
    match compareLebs fl c.env seb c.pnum with
    | .error err => (.error err, si)
    | .ok cmp =>
      if cmp.secondIsNewer then
        if validateVidHdr vidHdr sv.toMap then (.error .EINVAL, si)
        else
          match si.addToErase c.env seb.pnum seb.ec cmp.corrupted with
          | (.error err, si) => (.error err, si)
          | (.ok (), si) =>
            let seb' : ScanLeb :=
              { seb with
                ec
                pnum := c.pnum
                scrub := cmp.bitflips || c.bitflips
                copyFlag := vidHdr.copyFlag
                sqnum := vidHdr.sqnum }
            (.ok (), si.setVolume (sv.putLeb vidHdr seb'))
      else si.addToErase c.env c.pnum ec cmp.corrupted

/-- The first PEB with a LEB. -/
def addFirst (si : ScanInfo) (sv : ScanVolume) (c : Call) : Except Errno Unit × ScanInfo :=
  let vidHdr := fl.vidHdr c.pnum
  if validateVidHdr vidHdr sv.toMap then (.error .EINVAL, si)
  else if !c.env.leb then (.error .ENOMEM, si)
  else
    let seb : ScanLeb :=
      { ec := fl.ec c.pnum, pnum := c.pnum, lnum := vidHdr.lnum, scrub := c.bitflips,
        copyFlag := vidHdr.copyFlag, sqnum := vidHdr.sqnum }
    (.ok (), si.setVolume (sv.addLeb rb vidHdr seb))

/-- `ubi_scan_add_used` -/
def ubiScanAddUsed (si : ScanInfo) (c : Call) : Except Errno Unit × ScanInfo :=
  match addVolume rb si (fl.vidHdr c.pnum) c.env with
  | .error err => (.error err, si)
  | .ok (si, sv) =>
    let si := { si with maxSqnum := max si.maxSqnum (fl.vidHdr c.pnum).sqnum }
    match RbTree.find (· < ·) (·.lnum) (fl.vidHdr c.pnum).lnum sv.root with
    | some seb => addAgain fl si sv seb c
    | none => addFirst rb fl si sv c

/-- `ubi_scan_find_sv` -/
def ubiScanFindSv (si : ScanInfo) (volId : Nat) : Option ScanVolume :=
  RbTree.find (· > ·) (·.volId) volId si.volumes

/-- `ubi_scan_find_seb` -/
def ubiScanFindSeb (sv : ScanVolume) (lnum : Nat) : Option ScanLeb :=
  RbTree.find (· > ·) (·.lnum) lnum sv.root

/-! ## A sequence of calls -/

/-- The PEBs, one after the other. -/
def scan (si : ScanInfo) : List Call → ScanInfo
  | [] => si
  | c :: cs => scan (ubiScanAddUsed rb fl si c).2 cs

/-- The volumes that `add_volume` had, one after the other. -/
def addedVolumes (si : ScanInfo) : List Call → List Nat
  | [] => []
  | c :: cs =>
    let vidHdr := fl.vidHdr c.pnum
    let rest := addedVolumes (ubiScanAddUsed rb fl si c).2 cs
    if (addVolume rb si vidHdr c.env).isOk then vidHdr.volId :: rest else rest

/-- The volumes and LEBs of the calls that returned 0. -/
def addedLebs (si : ScanInfo) : List Call → List (Nat × Nat)
  | [] => []
  | c :: cs =>
    let vidHdr := fl.vidHdr c.pnum
    let rest := addedLebs (ubiScanAddUsed rb fl si c).2 cs
    if (ubiScanAddUsed rb fl si c).1.isOk then (vidHdr.volId, vidHdr.lnum) :: rest else rest

end

/-! ## What is in the trees -/

variable {rb : RbLib} {fl : Flash} {si : ScanInfo} {sv sv' : ScanVolume} {vidHdr : VidHdr}
  {vols : List Nat} {lebs : List (Nat × Nat)} {c : Call} {cs : List Call} {v l : Nat}

/-- The LEBs of a volume, in order. -/
def ScanVolume.Sorted (sv : ScanVolume) : Prop := RbTree.Sorted (· < ·) (·.lnum) sv.root

/-- There is an entry for the LEB. -/
def ScanVolume.Has (sv : ScanVolume) (lnum : Nat) : Prop := ∃ seb ∈ entries sv.root, seb.lnum = lnum

/-- The trees are in order, and have the volumes and LEBs of two lists. -/
structure Agrees (si : ScanInfo) (vols : List Nat) (lebs : List (Nat × Nat)) : Prop where
  sorted : RbTree.Sorted (· > ·) (·.volId) si.volumes
  volIds : ∀ v, (∃ sv ∈ entries si.volumes, sv.volId = v) ↔ v ∈ vols
  roots : ∀ sv ∈ entries si.volumes, sv.Sorted
  lnums : ∀ sv ∈ entries si.volumes, ∀ l, sv.Has l ↔ (sv.volId, l) ∈ lebs
  known : ∀ v l, (v, l) ∈ lebs → v ∈ vols

theorem lt_asymm' (x y : Nat) : x < y → ¬y < x := by omega

theorem gt_asymm' (x y : Nat) : x > y → ¬y > x := by omega

/-- A new volume. -/
theorem Sorted.newVolume {t : RbTree ScanVolume} (h : RbTree.Sorted (· > ·) (·.volId) t)
    (hnew : ∀ a ∈ entries t, a.volId ≠ sv.volId) :
    RbTree.Sorted (· > ·) (·.volId) (RbTree.add (· > ·) (·.volId) rb sv t) := by
  refine h.add ?_ ?_ hnew
  · intro x y z
    exact fun hxy hyz => hyz.trans hxy
  · intro x y
    omega

/-- A new LEB. -/
theorem Sorted.newLeb {t : RbTree ScanLeb} {seb : ScanLeb} (h : RbTree.Sorted (· < ·) (·.lnum) t)
    (hnew : ∀ a ∈ entries t, a.lnum ≠ seb.lnum) :
    RbTree.Sorted (· < ·) (·.lnum) (RbTree.add (· < ·) (·.lnum) rb seb t) := by
  refine h.add ?_ ?_ hnew
  · intro x y z
    exact Nat.lt_trans
  · intro x y
    omega

namespace Agrees

/-- Nothing has been scanned. -/
theorem empty (h : si.volumes = .nil) : Agrees si [] [] where
  sorted := by
    rw [h]
    exact List.Pairwise.nil
  volIds v := by simp [h, entries]
  roots := by simp [h, entries]
  lnums := by simp [h, entries]
  known := by simp

theorem congr (h : Agrees si vols lebs) {si' : ScanInfo} (hv : si'.volumes = si.volumes) :
    Agrees si' vols lebs where
  sorted := hv ▸ h.sorted
  volIds := hv ▸ h.volIds
  roots := hv ▸ h.roots
  lnums := hv ▸ h.lnums
  known := h.known

/-- Only what is in the lists matters. -/
theorem lists (h : Agrees si vols lebs) {vols' : List Nat} {lebs' : List (Nat × Nat)}
    (hv : ∀ v, v ∈ vols' ↔ v ∈ vols) (hl : ∀ p, p ∈ lebs' ↔ p ∈ lebs) : Agrees si vols' lebs' where
  sorted := h.sorted
  volIds v := (h.volIds v).trans (hv v).symm
  roots := h.roots
  lnums sv hsv l := (h.lnums sv hsv l).trans (hl _).symm
  known v l hm := (hv v).mpr (h.known v l ((hl _).mp hm))

/-- A volume that no call had yet. -/
theorem newVolume (h : Agrees si vols lebs) (hv : vidHdr.volId ∉ vols) {si' : ScanInfo}
    (hsi : si'.volumes = RbTree.add (· > ·) (·.volId) rb (newVolume vidHdr) si.volumes) :
    Agrees si' (vols ++ [vidHdr.volId]) lebs := by
  have hnew : ∀ sv ∈ entries si.volumes, sv.volId ≠ vidHdr.volId := by
    intro sv hsv heq
    exact hv ((h.volIds _).mp ⟨sv, hsv, heq⟩)
  constructor
  case sorted =>
    rw [hsi]
    exact Sorted.newVolume h.sorted hnew
  case volIds =>
    intro v
    rw [hsi, List.mem_append, List.mem_singleton, ← h.volIds]
    simp only [RbTree.mem_add]
    constructor
    · rintro ⟨sv, rfl | hsv, rfl⟩
      · exact .inr rfl
      · exact .inl ⟨sv, hsv, rfl⟩
    · rintro (⟨sv, hsv, rfl⟩ | rfl)
      · exact ⟨sv, .inr hsv, rfl⟩
      · exact ⟨_, .inl rfl, rfl⟩
  case roots =>
    intro sv hsv
    rw [hsi, RbTree.mem_add] at hsv
    obtain rfl | hsv := hsv
    · exact List.Pairwise.nil
    · exact h.roots sv hsv
  case lnums =>
    intro sv hsv l
    rw [hsi, RbTree.mem_add] at hsv
    obtain rfl | hsv := hsv
    · have hnone : ¬(ScanTrees.newVolume vidHdr).Has l := by
        rintro ⟨seb, hseb, -⟩
        cases hseb
      exact iff_of_false hnone fun hl => hv (h.known _ _ hl)
    · exact h.lnums sv hsv l
  case known =>
    intro v l hl
    exact List.mem_append_left _ (h.known v l hl)

/-- What `add_volume` leaves. -/
theorem addVolume (h : Agrees si vols lebs) {env : Env} {si' : ScanInfo}
    (ha : addVolume rb si vidHdr env = .ok (si', sv)) :
    Agrees si' (vols ++ [vidHdr.volId]) lebs ∧ sv ∈ entries si'.volumes ∧
      sv.volId = vidHdr.volId := by
  unfold ScanTrees.addVolume at ha
  split at ha
  · rename_i sv' hf
    cases ha
    obtain ⟨hsv, hid⟩ := (RbTree.find_eq_some gt_asymm' h.sorted).mp hf
    -- a volume that is there already is in the list, too
    have hmem : vidHdr.volId ∈ vols := (h.volIds _).mp ⟨sv, hsv, hid⟩
    refine ⟨h.lists (fun v => ?_) fun _ => Iff.rfl, hsv, hid⟩
    rw [List.mem_append, List.mem_singleton]
    constructor
    · rintro (hv | rfl)
      · exact hv
      · exact hmem
    · exact .inl
  · rename_i hf
    rw [RbTree.find_eq_none gt_asymm' h.sorted] at hf
    split at ha
    · cases ha
      refine ⟨h.newVolume (fun hv => ?_) rfl, ?_, rfl⟩
      · obtain ⟨sv, hsv, hid⟩ := (h.volIds _).mpr hv
        exact hf sv hsv hid
      · dsimp only
        rw [RbTree.mem_add]
        exact .inl rfl
    · cases ha

/-- One volume is changed, and has one more LEB, or the same ones. -/
theorem setVolume (h : Agrees si vols lebs) (hsv : sv ∈ entries si.volumes)
    (hid : sv'.volId = sv.volId) (hroot : sv'.Sorted) (hl : ∀ l', sv'.Has l' ↔ sv.Has l' ∨ l' = l) :
    Agrees (si.setVolume sv') vols (lebs ++ [(sv.volId, l)]) := by
  have hput : ∃ b ∈ entries si.volumes, b.volId = sv'.volId := ⟨sv, hsv, hid.symm⟩
  constructor
  case sorted => exact h.sorted.put
  case volIds =>
    intro v
    rw [ScanInfo.setVolume, RbTree.key_put]
    exact h.volIds v
  case roots =>
    intro a ha
    rcases RbTree.mem_put.mp ha with ⟨rfl, -⟩ | ⟨ha, -⟩
    · exact hroot
    · exact h.roots a ha
  case lnums =>
    intro a ha l'
    rw [List.mem_append, List.mem_singleton, Prod.mk.injEq]
    rcases RbTree.mem_put.mp ha with ⟨rfl, -⟩ | ⟨ha, hne⟩
    · rw [hl, h.lnums sv hsv, hid]
      simp
    · rw [h.lnums a ha]
      have : a.volId ≠ sv.volId := hid ▸ hne
      simp [this]
  case known =>
    intro v l' hm
    rcases List.mem_append.mp hm with hm | hm
    · exact h.known v l' hm
    · cases List.mem_singleton.mp hm
      exact (h.volIds _).mp ⟨sv, hsv, rfl⟩

/-- A LEB that is there already is in the list, too. -/
theorem mem_lebs (h : Agrees si vols lebs) (hsv : sv ∈ entries si.volumes) (hl : sv.Has l) (b : Bool)
    (p : Nat × Nat) : p ∈ lebs ++ (if b then [(sv.volId, l)] else []) ↔ p ∈ lebs := by
  rw [List.mem_append]
  constructor
  · rintro (hp | hp)
    · exact hp
    · split at hp
      · rw [List.mem_singleton.mp hp]
        exact (h.lnums sv hsv l).mp hl
      · cases hp
  · exact .inl

end Agrees

/-! ## What a call does -/

/-- The lists of PEBs are no part of the volumes. -/
theorem addToErase_volumes {env : Env} {pnum ec : Nat} {toHead : Bool} :
    (si.addToErase env pnum ec toHead).2.volumes = si.volumes := by
  unfold ScanInfo.addToErase
  split <;> rfl

theorem setVolume_volumes {si' : ScanInfo} (h : si'.volumes = si.volumes) :
    (si'.setVolume sv).volumes = (si.setVolume sv).volumes := by
  rw [ScanInfo.setVolume, h]
  rfl

/-- The trees stay, or the entry is changed. -/
theorem addAgain_cases {seb : ScanLeb} :
    (addAgain fl si sv seb c).2.volumes = si.volumes ∨
      ∃ seb' sv' : _, (addAgain fl si sv seb c).2.volumes = (si.setVolume sv').volumes ∧
        seb'.lnum = seb.lnum ∧ sv'.volId = sv.volId ∧
        sv'.root = RbTree.put (·.lnum) seb' sv.root := by
  unfold addAgain
  dsimp only
  split
  · exact .inl rfl
  · split
    · exact .inl rfl
    · rename_i cmp hcmp
      split
      · split
        · exact .inl rfl
        · have hkeep := @addToErase_volumes si c.env seb.pnum seb.ec cmp.corrupted
          split
          · rename_i heq
            rw [heq] at hkeep
            exact .inl hkeep
          · rename_i heq
            rw [heq] at hkeep
            refine .inr ⟨_, _, setVolume_volumes hkeep, ?_, ?_, rfl⟩ <;> rfl
      · exact .inl addToErase_volumes

/-- The trees stay, or there is one more entry. -/
theorem addFirst_cases :
    ((addFirst rb fl si sv c).1.isOk = false ∧ (addFirst rb fl si sv c).2 = si) ∨
      ∃ seb sv' : _, addFirst rb fl si sv c = (.ok (), si.setVolume sv') ∧
        seb.lnum = (fl.vidHdr c.pnum).lnum ∧ sv'.volId = sv.volId ∧
        sv'.root = RbTree.add (· < ·) (·.lnum) rb seb sv.root := by
  unfold addFirst
  dsimp only
  split
  · exact .inl ⟨rfl, rfl⟩
  · split
    · exact .inl ⟨rfl, rfl⟩
    · exact .inr ⟨_, _, rfl, rfl, rfl, rfl⟩

@[simp] theorem isOk_ok {α : Type} (a : α) : (.ok a : Except Errno α).isOk = true := rfl

@[simp] theorem isOk_error {α : Type} (err : Errno) : (.error err : Except Errno α).isOk = false := rfl

/-- The volume of a call that `add_volume` has. -/
def volumeOf (rb : RbLib) (fl : Flash) (si : ScanInfo) (c : Call) : List Nat :=
  if (addVolume rb si (fl.vidHdr c.pnum) c.env).isOk then [(fl.vidHdr c.pnum).volId] else []

/-- The LEB of a call that returns 0. -/
def lebOf (rb : RbLib) (fl : Flash) (si : ScanInfo) (c : Call) : List (Nat × Nat) :=
  if (ubiScanAddUsed rb fl si c).1.isOk then [((fl.vidHdr c.pnum).volId, (fl.vidHdr c.pnum).lnum)]
  else []

namespace Agrees

/-- A LEB that is there already. -/
theorem addAgain (h : Agrees si vols lebs) (hsv : sv ∈ entries si.volumes) {seb : ScanLeb}
    (hseb : seb ∈ entries sv.root) (b : Bool) :
    Agrees (addAgain fl si sv seb c).2 vols
      (lebs ++ if b then [(sv.volId, seb.lnum)] else []) := by
  have hhas : sv.Has seb.lnum := ⟨seb, hseb, rfl⟩
  have hmem := h.mem_lebs hsv hhas
  obtain hstay | ⟨seb', sv', hset, hl, hid, hroot⟩ := @addAgain_cases fl si sv c seb
  · exact (h.lists (fun _ => Iff.rfl) (hmem b)).congr hstay
  · have hset' := h.setVolume hsv hid (l := seb.lnum) ?_ fun l' => ?_
    · exact (hset'.lists (fun _ => Iff.rfl) fun p => (hmem b p).trans (hmem true p).symm).congr hset
    · have hput := (h.roots sv hsv).put (e := seb')
      rw [← hroot] at hput
      exact hput
    · rw [ScanVolume.Has, hroot, RbTree.key_put]
      constructor
      · exact .inl
      · rintro (hl' | rfl)
        · exact hl'
        · exact hhas

/-- A LEB that is new in its volume. -/
theorem addFirst (h : Agrees si vols lebs) (hsv : sv ∈ entries si.volumes)
    (hid : sv.volId = (fl.vidHdr c.pnum).volId) (hnew : ¬sv.Has (fl.vidHdr c.pnum).lnum) :
    Agrees (addFirst rb fl si sv c).2 vols (lebs ++
      if (ScanTrees.addFirst rb fl si sv c).1.isOk then
        [((fl.vidHdr c.pnum).volId, (fl.vidHdr c.pnum).lnum)] else []) := by
  obtain ⟨hfail, hstay⟩ | ⟨seb, sv', hres, hl, hid', hroot⟩ := @addFirst_cases rb fl si sv c
  · rw [hfail, hstay, if_neg Bool.false_ne_true, List.append_nil]
    exact h
  · rw [hres, isOk_ok, if_pos rfl, ← hid]
    refine h.setVolume hsv hid' ?_ fun l' => ?_
    · have hsorted : RbTree.Sorted (· < ·) (·.lnum) (RbTree.add (· < ·) (·.lnum) rb seb sv.root) := by
        refine Sorted.newLeb (h.roots sv hsv) fun a ha heq => ?_
        exact hnew ⟨a, ha, heq.trans hl⟩
      rw [← hroot] at hsorted
      exact hsorted
    · rw [ScanVolume.Has, hroot]
      simp only [RbTree.mem_add]
      constructor
      · rintro ⟨a, rfl | ha, rfl⟩
        · exact .inr hl
        · exact .inl ⟨a, ha, rfl⟩
      · rintro (⟨a, ha, rfl⟩ | rfl)
        · exact ⟨a, .inr ha, rfl⟩
        · exact ⟨seb, .inl rfl, hl⟩

/-- One call: the trees have what it adds. -/
theorem step (h : Agrees si vols lebs) : Agrees (ubiScanAddUsed rb fl si c).2
    (vols ++ volumeOf rb fl si c) (lebs ++ lebOf rb fl si c) := by
  cases hadd : ScanTrees.addVolume rb si (fl.vidHdr c.pnum) c.env with
  | error err =>
    have hres : ubiScanAddUsed rb fl si c = (.error err, si) := by rw [ubiScanAddUsed, hadd]
    simpa [volumeOf, lebOf, hres, hadd] using h
  | ok res =>
    obtain ⟨si', sv⟩ := res
    obtain ⟨h', hsv, hid⟩ := h.addVolume hadd
    have hvol : volumeOf rb fl si c = [(fl.vidHdr c.pnum).volId] := by
      rw [volumeOf, hadd, isOk_ok, if_pos rfl]
    -- `max_sqnum` is no part of the trees
    have hmax : Agrees { si' with maxSqnum := max si'.maxSqnum (fl.vidHdr c.pnum).sqnum }
        (vols ++ [(fl.vidHdr c.pnum).volId]) lebs := h'.congr rfl
    rw [hvol, lebOf]
    cases hf : RbTree.find (· < ·) (·.lnum) (fl.vidHdr c.pnum).lnum sv.root with
    | some seb =>
      obtain ⟨hseb, hl⟩ := (RbTree.find_eq_some lt_asymm' (h'.roots sv hsv)).mp hf
      have hres : ubiScanAddUsed rb fl si c = ScanTrees.addAgain fl
          { si' with maxSqnum := max si'.maxSqnum (fl.vidHdr c.pnum).sqnum } sv seb c := by
        rw [ubiScanAddUsed, hadd]
        dsimp only
        rw [hf]
      rw [hres, ← hid, ← hl]
      rw [← hid] at hmax
      exact hmax.addAgain hsv hseb _
    | none =>
      have hnew := (RbTree.find_eq_none lt_asymm' (h'.roots sv hsv)).mp hf
      have hres : ubiScanAddUsed rb fl si c = ScanTrees.addFirst rb fl
          { si' with maxSqnum := max si'.maxSqnum (fl.vidHdr c.pnum).sqnum } sv c := by
        rw [ubiScanAddUsed, hadd]
        dsimp only
        rw [hf]
      rw [hres]
      refine hmax.addFirst hsv hid ?_
      rintro ⟨a, ha, hl⟩
      exact hnew a ha hl

/-- A sequence of calls. -/
theorem run (h : Agrees si vols lebs) : Agrees (scan rb fl si cs)
    (vols ++ addedVolumes rb fl si cs) (lebs ++ addedLebs rb fl si cs) := by
  induction cs generalizing si vols lebs with
  | nil =>
    rw [addedVolumes, addedLebs, List.append_nil, List.append_nil]
    exact h
  | cons c cs ih =>
    have hvols : addedVolumes rb fl si (c :: cs) = volumeOf rb fl si c ++
        addedVolumes rb fl (ubiScanAddUsed rb fl si c).2 cs := by
      rw [addedVolumes, volumeOf]
      split <;> rfl
    have hlebs : addedLebs rb fl si (c :: cs) = lebOf rb fl si c ++
        addedLebs rb fl (ubiScanAddUsed rb fl si c).2 cs := by
      rw [addedLebs, lebOf]
      split <;> rfl
    rw [hvols, hlebs, ← List.append_assoc, ← List.append_assoc]
    exact ih h.step

end Agrees

/-! ## The trees as functions -/

/-- The same as functions of the numbers. -/
def ScanInfo.toMaps (si : ScanInfo) : Scan.ScanInfo where
  volumes v := (RbTree.find (· > ·) (·.volId) v si.volumes).map ScanVolume.toMap
  erase := si.erase
  maxSqnum := si.maxSqnum
  highestVolId := si.highestVolId
  volsFound := si.volsFound

/-- The information after a call that returns 0. -/
def result : Except Errno Unit × ScanInfo → Option Scan.ScanInfo
  | (.ok (), si) => some si.toMaps
  | (.error _, _) => none

/-- A scan that succeeds gives maps. -/
theorem result_ok : result (.ok (), si) = some si.toMaps := rfl

theorem map_update {α β : Type} (f : α → β) (g : Nat → Option α) (x : Nat) (a : α) :
    (fun y => (Function.update g x (some a) y).map f) =
      Function.update (fun y => (g y).map f) x (some (f a)) := by
  funext y
  by_cases hy : y = x
  · subst hy
    rw [Function.update_self, Function.update_self, Option.map_some]
  · rw [Function.update_of_ne hy, Function.update_of_ne hy]

namespace Agrees

/-- A volume that changes in the tree changes in the map. -/
theorem toMaps_setVolume (h : Agrees si vols lebs) (hsv : sv ∈ entries si.volumes)
    (hid : sv'.volId = sv.volId) : (si.setVolume sv').toMaps = si.toMaps.setVolume sv'.toMap := by
  have hput := RbTree.find_put (e := sv') gt_asymm' h.sorted ⟨sv, hsv, hid.symm⟩
  have hmap := map_update ScanVolume.toMap
    (fun v => RbTree.find (· > ·) (·.volId) v si.volumes) sv'.volId sv'
  rw [← hput] at hmap
  unfold ScanInfo.toMaps Scan.ScanInfo.setVolume
  exact congrArg (fun m => Scan.ScanInfo.mk m si.erase si.maxSqnum si.highestVolId si.volsFound) hmap

/-- A volume that is added to the tree is added to the map. -/
theorem toMaps_addVolume (h : Agrees si vols lebs) {env : Env} (henv : env.volume = true)
    {si' : ScanInfo} (hadd : ScanTrees.addVolume rb si vidHdr env = .ok (si', sv)) :
    Scan.addVolume si.toMaps vidHdr = (si'.toMaps, sv.toMap) := by
  unfold ScanTrees.addVolume at hadd
  have hvol : si.toMaps.volumes vidHdr.volId =
    (RbTree.find (· > ·) (·.volId) vidHdr.volId si.volumes).map ScanVolume.toMap := rfl
  cases hf : RbTree.find (· > ·) (·.volId) vidHdr.volId si.volumes with
  | some sv' =>
    rw [hf] at hadd hvol
    cases hadd
    rw [Scan.addVolume, hvol]
    rfl
  | none =>
    rw [hf] at hadd hvol
    dsimp only at hadd
    rw [if_pos henv] at hadd
    cases hadd
    have hnew := (RbTree.find_eq_none gt_asymm' h.sorted).mp hf
    have hsorted : RbTree.Sorted (· > ·) (·.volId)
        (RbTree.add (· > ·) (·.volId) rb (ScanTrees.newVolume vidHdr) si.volumes) :=
      Sorted.newVolume h.sorted hnew
    have hfind := RbTree.find_add gt_asymm' hsorted h.sorted hnew
    have hmap := map_update ScanVolume.toMap
      (fun v => RbTree.find (· > ·) (·.volId) v si.volumes) vidHdr.volId (ScanTrees.newVolume vidHdr)
    rw [Scan.addVolume, hvol]
    unfold ScanInfo.toMaps
    exact congrArg (fun m => (Scan.ScanInfo.mk m si.erase si.maxSqnum
      (max si.highestVolId vidHdr.volId) (si.volsFound + 1), Scan.newVolume vidHdr))
      (hmap.symm.trans (congrArg (fun g => fun v => (g v).map ScanVolume.toMap) hfind.symm))

/-- A LEB is looked up in the volume. -/
theorem toMap_leb : sv.toMap.leb l = RbTree.find (· < ·) (·.lnum) l sv.root := rfl

/-- So is a LEB. -/
theorem toMap_addLeb {seb : ScanLeb} (h : sv.Sorted) (hnew : ∀ a ∈ entries sv.root, a.lnum ≠ seb.lnum) :
    (sv.addLeb rb vidHdr seb).toMap = { (sv.addLeb rb vidHdr seb).toMap with
      leb := Function.update sv.toMap.leb seb.lnum (some seb) } := by
  have hfind : (sv.addLeb rb vidHdr seb).toMap.leb = Function.update sv.toMap.leb seb.lnum (some seb) :=
    RbTree.find_add lt_asymm' (Sorted.newLeb h hnew) h hnew
  rw [← hfind]

/-- And one that changes. -/
theorem toMap_putLeb {seb : ScanLeb} (h : sv.Sorted) (hhas : sv.Has seb.lnum) :
    (sv.putLeb vidHdr seb).toMap = { (sv.putLeb vidHdr seb).toMap with
      leb := Function.update sv.toMap.leb seb.lnum (some seb) } := by
  have hfind : (sv.putLeb vidHdr seb).toMap.leb = Function.update sv.toMap.leb seb.lnum (some seb) :=
    RbTree.find_put lt_asymm' h hhas
  rw [← hfind]

end Agrees

/-- Nothing goes wrong. -/
def Env.Fine (env : Env) : Prop :=
  env.volume = true ∧ env.leb = true ∧ env.list = true ∧ env.copy = none

/-- Copies are compared as before, if reading them does not fail. -/
theorem compareLebs_fine {env : Env} (h : env.copy = none) {seb : ScanLeb} {pnum : Nat} :
    compareLebs fl env seb pnum = (Scan.compareLebs fl seb pnum).elim (.error .EINVAL) .ok := by
  unfold compareLebs
  cases Scan.compareLebs fl seb pnum with
  | none => rfl
  | some cmp =>
    rw [h]
    dsimp only [Option.elim_none, Option.elim_some]
    split <;> split <;> rfl

/-- PEBs are put on the list as before, if there is memory. -/
theorem addToErase_fine (si : ScanInfo) {env : Env} (h : env.list = true) {pnum ec : Nat}
    {toHead : Bool} : ∃ si', si.addToErase env pnum ec toHead = (.ok (), si') ∧ si'.volumes = si.volumes ∧
      si'.toMaps = si.toMaps.addToErase pnum ec toHead := by
  rw [ScanInfo.addToErase, if_pos h]
  exact ⟨_, rfl, rfl, rfl⟩

/-- A call in which nothing goes wrong does to the trees what adding a PEB to the functions does. -/
theorem ubiScanAddUsed_refines (h : Agrees si vols lebs) (henv : c.env.Fine) :
    Scan.ubiScanAddUsed fl si.toMaps c.pnum c.bitflips = result (ubiScanAddUsed rb fl si c) := by
  obtain ⟨hvolume, hleb, hlist, hcopy⟩ := henv
  unfold Scan.ubiScanAddUsed
  dsimp only
  cases hadd : addVolume rb si (fl.vidHdr c.pnum) c.env with
  | error err =>
    -- With memory for the volume this does not happen.
    unfold addVolume at hadd
    split at hadd
    · cases hadd
    · rw [if_pos hvolume] at hadd
      cases hadd
  | ok res =>
    obtain ⟨si', sv⟩ := res
    obtain ⟨h', hsv, hid⟩ := h.addVolume hadd
    rw [h.toMaps_addVolume hvolume hadd, ubiScanAddUsed, hadd]
    have hmax : Agrees { si' with maxSqnum := max si'.maxSqnum (fl.vidHdr c.pnum).sqnum }
        (vols ++ [(fl.vidHdr c.pnum).volId]) lebs := h'.congr rfl
    dsimp only
    rw [Agrees.toMap_leb]
    cases hf : RbTree.find (· < ·) (·.lnum) (fl.vidHdr c.pnum).lnum sv.root with
    | none =>
      -- The first copy of the LEB becomes a node of its own.
      have hnew := (RbTree.find_eq_none lt_asymm' (h'.roots sv hsv)).mp hf
      dsimp only
      unfold addFirst
      dsimp only
      split
      · rfl
      · have hmem : ¬(!c.env.leb) = true := by simp [hleb]
        rw [if_neg hmem, result_ok, hmax.toMaps_setVolume hsv, Agrees.toMap_addLeb (h'.roots sv hsv) hnew]
        · rfl
        · rfl
    | some seb =>
      -- There is a node with that number: a newer copy takes its place, an older one is to be erased.
      obtain ⟨hseb, hl⟩ := (RbTree.find_eq_some lt_asymm' (h'.roots sv hsv)).mp hf
      dsimp only
      unfold addAgain
      dsimp only
      split
      · rfl
      · rw [compareLebs_fine hcopy]
        cases Scan.compareLebs fl seb c.pnum with
        | none => rfl
        | some cmp =>
          dsimp only [Option.elim_some]
          split
          · split
            · rfl
            · obtain ⟨si'', hadd', hvolumes, hmaps⟩ := addToErase_fine
                { si' with maxSqnum := max si'.maxSqnum (fl.vidHdr c.pnum).sqnum } hlist
              have hmem : sv ∈ entries si''.volumes := hvolumes ▸ hsv
              rw [hadd']
              dsimp only
              rw [result_ok, (hmax.congr hvolumes).toMaps_setVolume hmem, hmaps,
                Agrees.toMap_putLeb (h'.roots sv hsv)]
              · dsimp only
                rw [hl]
                rfl
              · exact ⟨seb, hseb, rfl⟩
              · rfl
          · obtain ⟨si'', hadd', -, hmaps⟩ := addToErase_fine
              { si' with maxSqnum := max si'.maxSqnum (fl.vidHdr c.pnum).sqnum } hlist
            rw [hadd', result_ok, hmaps]
            rfl

/-! ## Looking up -/

/-- A lookup is right: it finds an entry with the key if and only if one was added. -/
def FindsVolumes (rb : RbLib) (fl : Flash) (si : ScanInfo) (cs : List Call) : Prop :=
  ∀ v, (∃ sv ∈ entries (scan rb fl si cs).volumes,
      ubiScanFindSv (scan rb fl si cs) v = some sv ∧ sv.volId = v) ↔ v ∈ addedVolumes rb fl si cs

/-- The same for the LEBs of a volume. -/
def FindsLebs (rb : RbLib) (fl : Flash) (si : ScanInfo) (cs : List Call) (sv : ScanVolume) : Prop :=
  ∀ l, (∃ seb ∈ entries sv.root, ubiScanFindSeb sv l = some seb ∧ seb.lnum = l) ↔
    (sv.volId, l) ∈ addedLebs rb fl si cs

/-- `ubi_scan_find_seb` finds the root only. -/
theorem ubiScanFindSeb_node {n : RbNode ScanLeb} {left right : RbTree ScanLeb} (h : sv.Sorted)
    (hroot : sv.root = .node n left right) (lnum : Nat) :
    ubiScanFindSeb sv lnum = if lnum = n.entry.lnum then some n.entry else none := by
  rw [ScanVolume.Sorted, hroot] at h
  rw [ubiScanFindSeb, RbTree.find, hroot, SearchTree.find_against _ _ lt_asymm' h.inorder]
  · split <;> rfl
  · exact fun x y h => h
  · intro x y
    omega

/-- Every lookup of a LEB is right if and only if there is one LEB at most. -/
theorem Agrees.findSeb_iff (h : Agrees si vols lebs) (hsv : sv ∈ entries si.volumes) :
    (∀ l, (∃ seb ∈ entries sv.root, ubiScanFindSeb sv l = some seb ∧ seb.lnum = l) ↔
      (sv.volId, l) ∈ lebs) ↔
    ∀ l l', (sv.volId, l) ∈ lebs → (sv.volId, l') ∈ lebs → l = l' := by
  have hlnums := h.lnums sv hsv
  cases hroot : sv.root with
  | nil =>
    have hno : ∀ l, (sv.volId, l) ∉ lebs := by
      intro l hl
      obtain ⟨seb, hseb, -⟩ := (hlnums l).mpr hl
      rw [hroot] at hseb
      cases hseb
    simp [hno, entries]
  | node n left right =>
    have hmem : n.entry ∈ entries sv.root := by
      rw [hroot]
      simp [entries]
    have hfind : ∀ l, (∃ seb ∈ entries sv.root, ubiScanFindSeb sv l = some seb ∧ seb.lnum = l) ↔
        l = n.entry.lnum := by
      intro l
      simp only [ubiScanFindSeb_node (h.roots sv hsv) hroot]
      constructor
      · rintro ⟨seb, -, hseb, -⟩
        split at hseb
        · assumption
        · cases hseb
      · rintro rfl
        exact ⟨n.entry, hmem, if_pos rfl, rfl⟩
    have hn : (sv.volId, n.entry.lnum) ∈ lebs := (hlnums _).mp ⟨n.entry, hmem, rfl⟩
    rw [← hroot]
    simp only [hfind]
    constructor
    · intro hall l l' hl hl'
      rw [(hall l).mpr hl, (hall l').mpr hl']
    · intro hone l
      constructor
      · rintro rfl
        exact hn
      · intro hl
        exact hone l _ hl hn

/-- `ubi_scan_find_sv` is always right, and `ubi_scan_find_seb` is if and only if no two different
    LEBs of the volume have been added. -/
theorem find_agrees_iff (rb : RbLib) (fl : Flash) (si : ScanInfo) (h : si.volumes = .nil)
    (cs : List Call) : FindsVolumes rb fl si cs ∧
      ∀ sv ∈ entries (scan rb fl si cs).volumes, FindsLebs rb fl si cs sv ↔
        ∀ l l', (sv.volId, l) ∈ addedLebs rb fl si cs → (sv.volId, l') ∈ addedLebs rb fl si cs →
          l = l' := by
  have hrun : Agrees (scan rb fl si cs) ([] ++ addedVolumes rb fl si cs)
      ([] ++ addedLebs rb fl si cs) := (Agrees.empty h).run
  rw [List.nil_append, List.nil_append] at hrun
  refine ⟨fun v => ?_, fun sv hsv => hrun.findSeb_iff hsv⟩
  rw [← hrun.volIds v]
  unfold ubiScanFindSv
  simp only [RbTree.find_eq_some gt_asymm' hrun.sorted]
  constructor
  · rintro ⟨sv, hsv, -, hid⟩
    exact ⟨sv, hsv, hid⟩
  · rintro ⟨sv, hsv, hid⟩
    exact ⟨sv, hsv, ⟨hsv, hid⟩, hid⟩

/-- A root is made black; trees of two nodes need no more. -/
def blackRoot {α : Type} : RbTree α → RbTree α
  | .nil => .nil
  | .node n left right => .node { n with red := false } left right

/-- The colour of the root is no entry. -/
theorem entries_blackRoot {α : Type} (t : RbTree α) : entries (blackRoot t) = entries t := by
  cases t with
  | nil => rfl
  | node n left right => simp [blackRoot, entries]

/-- A way to balance a tree anew: the root gets another colour. -/
def smallTrees : RbLib where
  insertColor := blackRoot
  entries_insertColor := entries_blackRoot

/-- PEBs 0 and 1 have LEBs 0 and 1 of volume 7, the others have the LEBs of volume 9. -/
def twoVolumes : Flash where
  ec _ := 1
  vidHdr p := if p < 2 then ⟨.dynamic, 7, p, 0, 0, 0, false, p + 1, 0, 0⟩
    else ⟨.dynamic, 9, p - 2, 0, 0, 0, false, p + 1, 0, 0⟩
  data _ := []
  dataBitflips _ := false
  crc32 _ := 0

/-- A PEB is added without errors. -/
def addPeb (pnum : Nat) : Call := ⟨pnum, false, ⟨true, true, true, none⟩⟩

/-- Before the first PEB. -/
def noScanInfo : ScanInfo := ⟨.nil, [], 0, 0, 0⟩

/-- The one LEB of volume 9 is found, those of volume 7 are not. -/
theorem find_agrees_twoVolumes : FindsVolumes smallTrees twoVolumes noScanInfo ([0, 2, 1].map addPeb) ∧
    ∀ sv ∈ entries (scan smallTrees twoVolumes noScanInfo ([0, 2, 1].map addPeb)).volumes,
      FindsLebs smallTrees twoVolumes noScanInfo ([0, 2, 1].map addPeb) sv ↔ sv.volId = 9 := by
  obtain ⟨hvolumes, hlebs⟩ := find_agrees_iff smallTrees twoVolumes noScanInfo rfl
    ([0, 2, 1].map addPeb)
  have hadded : addedLebs smallTrees twoVolumes noScanInfo ([0, 2, 1].map addPeb) =
      [(7, 0), (9, 0), (7, 1)] := rfl
  have hids : ∀ sv ∈ entries (scan smallTrees twoVolumes noScanInfo ([0, 2, 1].map addPeb)).volumes,
      sv.volId = 9 ∨ sv.volId = 7 := by decide +kernel
  refine ⟨hvolumes, fun sv hsv => (hlebs sv hsv).trans ?_⟩
  rw [hadded]
  rcases hids sv hsv with hid | hid
  · rw [hid]
    simp
  · rw [hid]
    simp only [Nat.reduceEqDiff, iff_false, not_forall]
    exact ⟨0, 1, by simp, by simp, by decide⟩

/-- LEB 1 has been added after LEB 0, and is not found. -/
theorem find_seb_misses : ∃ sv ∈ entries (scan smallTrees twoVolumes noScanInfo
      [addPeb 0, addPeb 1]).volumes,
    (sv.volId, 1) ∈ addedLebs smallTrees twoVolumes noScanInfo [addPeb 0, addPeb 1] ∧
      ubiScanFindSeb sv 1 = none ∧
      ¬FindsLebs smallTrees twoVolumes noScanInfo [addPeb 0, addPeb 1] sv := by
  refine ⟨_, List.mem_cons_self, by decide, rfl, fun h => ?_⟩
  obtain ⟨seb, -, hseb, -⟩ := (h 1).mpr (by decide)
  cases hseb

end Ubi.ScanTrees
