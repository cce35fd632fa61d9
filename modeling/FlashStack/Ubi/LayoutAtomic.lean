/-
  The volume table changes atomically.

  What attaching makes of the copies on flash depends on the newest copy of each LEB only
  (`scan_spec`), and these two decide for a table (`Decides`).  Each step of a change, of its erase
  works and of a recovery keeps them deciding for the table before or after the change.

  While LEB 0 is unmapped its newest copy is still to be erased, and it must not be erased before the
  older copies are.  The works are queued in the right order; `Front` says that they end in it.

  Structure:
  1. the newest copies, and what scanning finds;
  2. what `process_lvol` decides;
  3. the invariant, and that each step keeps it;
  4. runs.
-/
import FlashStack.Ubi.LayoutVolume

namespace Ubi

open Lib

/-- A LEB of the layout volume. -/
abbrev Lnum := Fin ubiLayoutVolumeEbs

/-- There are two LEBs. -/
theorem lnum_eq_of_ne : ∀ {i j k : Lnum}, i ≠ k → j ≠ k → i = j := by decide

/-! ## The newest copies -/

/-- `x` is the newest of the copies of LEB `i`. -/
def Newest (F : Multiset Copy) (i : Lnum) : Option Copy → Prop
  | none => ∀ q ∈ F, q.lnum ≠ i
  | some p => p ∈ F ∧ p.lnum = i ∧ ∀ q ∈ F, q.lnum = i → q.sqnum ≤ p.sqnum

/-- No two copies have the same sequence number. -/
def Distinct (F : Multiset Copy) : Prop := (F.map Copy.sqnum).Nodup

section Copies

variable {F G : Multiset Copy} {i : Lnum} {p q : Copy} {x y : Option Copy}

/-- No two copies have the same sequence number. -/
theorem Distinct.eq (h : Distinct F) (hp : p ∈ F) (hq : q ∈ F) (hpq : p.sqnum = q.sqnum) : p = q :=
  Multiset.inj_on_of_nodup_map h p hp q hq hpq

theorem Distinct.mono (h : Distinct F) (hle : G ≤ F) : Distinct G :=
  Multiset.nodup_of_le (Multiset.map_le_map hle) h

/-- A copy with a new sequence number. -/
theorem Distinct.cons (h : Distinct F) (hp : ∀ q ∈ F, q.sqnum < p.sqnum) : Distinct (p ::ₘ F) := by
  unfold Distinct
  rw [Multiset.map_cons, Multiset.nodup_cons]
  refine ⟨fun hmem => ?_, h⟩
  obtain ⟨q, hq, heq⟩ := Multiset.mem_map.mp hmem
  exact absurd (hp q hq) (by omega)

theorem Distinct.ne (h : Distinct (p ::ₘ F)) (hq : q ∈ F) : q.sqnum ≠ p.sqnum := by
  intro heq
  unfold Distinct at h
  rw [Multiset.map_cons, Multiset.nodup_cons] at h
  exact h.1 (Multiset.mem_map.mpr ⟨q, hq, heq⟩)

/-- There is one newest copy. -/
theorem Newest.unique (h : Distinct F) (hx : Newest F i x) (hy : Newest F i y) : x = y := by
  cases x with
  | none =>
    cases y with
    | none => rfl
    | some q => exact absurd hy.2.1 (hx q hy.1)
  | some p =>
    cases y with
    | none => exact absurd hx.2.1 (hy p hx.1)
    | some q =>
      have hle := hx.2.2 q hy.1 hy.2.1
      have hge := hy.2.2 p hx.1 hx.2.1
      rw [h.eq hx.1 hy.1 (by omega)]

/-- Erasing other copies does not matter. -/
theorem Newest.mono (h : Newest F i x) (hle : G ≤ F) (hx : ∀ p, x = some p → p ∈ G) :
    Newest G i x := by
  cases x with
  | none => exact fun q hq => h q (Multiset.mem_of_le hle hq)
  | some p => exact ⟨hx p rfl, h.2.1, fun q hq => h.2.2 q (Multiset.mem_of_le hle hq)⟩

/-- A copy that is newer than all others. -/
theorem Newest.cons_self (hp : ∀ q ∈ F, q.sqnum < p.sqnum) : Newest (p ::ₘ F) p.lnum (some p) := by
  refine ⟨Multiset.mem_cons_self .., rfl, fun q hq _ => ?_⟩
  rcases Multiset.mem_cons.mp hq with rfl | hq
  · exact le_rfl
  · exact (hp q hq).le

/-- A copy of another LEB. -/
theorem Newest.cons_other (h : Newest F i x) (hp : p.lnum ≠ i) : Newest (p ::ₘ F) i x := by
  cases x with
  | none =>
    intro q hq
    rcases Multiset.mem_cons.mp hq with rfl | hq
    · exact hp
    · exact h q hq
  | some r =>
    refine ⟨Multiset.mem_cons_of_mem h.1, h.2.1, fun q hq hqi => ?_⟩
    rcases Multiset.mem_cons.mp hq with rfl | hq
    · exact absurd hqi hp
    · exact h.2.2 q hq hqi

/-- An older copy. -/
theorem Newest.cons_older (h : Newest F i (some q)) (hp : p.sqnum ≤ q.sqnum) :
    Newest (p ::ₘ F) i (some q) := by
  refine ⟨Multiset.mem_cons_of_mem h.1, h.2.1, fun r hr hri => ?_⟩
  rcases Multiset.mem_cons.mp hr with rfl | hr
  · exact hp
  · exact h.2.2 r hr hri

/-- A newer copy. -/
theorem Newest.cons_newer (h : Newest F i x) (hpi : p.lnum = i)
    (hp : ∀ q, x = some q → q.sqnum ≤ p.sqnum) : Newest (p ::ₘ F) i (some p) := by
  refine ⟨Multiset.mem_cons_self .., hpi, fun r hr hri => ?_⟩
  rcases Multiset.mem_cons.mp hr with rfl | hr
  · exact le_rfl
  · cases x with
    | none => exact absurd hri (h r hr)
    | some q => exact (h.2.2 r hr hri).trans (hp q rfl)

/-- The copies of a table of LEBs. -/
def lebs (f : Lnum → Option Copy) : Multiset Copy := ↑(f 0).toList + ↑(f 1).toList

/-- The copies that are mapped. -/
theorem mem_lebs {f : Lnum → Option Copy} : p ∈ lebs f ↔ ∃ i, f i = some p := by
  unfold lebs
  rw [Multiset.mem_add, Multiset.mem_coe, Multiset.mem_coe, Option.mem_toList, Option.mem_toList]
  constructor
  · rintro (h | h)
    · exact ⟨0, h⟩
    · exact ⟨1, h⟩
  · rintro ⟨i, h⟩
    match i with
    | 0 => exact .inl h
    | 1 => exact .inr h

/-- A LEB is mapped to another copy. -/
theorem lebs_update (f : Lnum → Option Copy) (i : Lnum) (x : Option Copy) :
    lebs (Function.update f i x) + ↑(f i).toList = lebs f + ↑x.toList := by
  unfold lebs
  match i with
  | 0 =>
    rw [Function.update_self, Function.update_of_ne (by decide)]
    abel
  | 1 =>
    rw [Function.update_self, Function.update_of_ne (by decide)]
    abel

end Copies

/-! ## Scanning -/

/-- What was scanned, `F`, is in the LEBs or to be erased. -/
structure Scanned (F : Multiset Copy) (si : LebScan) : Prop where
  all : lebs si.leb + ↑si.erase = F
  newest : ∀ i, Newest F i (si.leb i)
  below : ∀ p ∈ F, p.sqnum ≤ si.maxSqnum

/-- Nothing has been scanned yet. -/
theorem Scanned.empty : Scanned 0 .empty :=
  ⟨rfl, fun _ _ hq => absurd hq (Multiset.notMem_zero _), fun _ hp => absurd hp (Multiset.notMem_zero _)⟩

theorem Scanned.above {F : Multiset Copy} {si : LebScan} (h : Scanned F si) {n : Nat}
    (hn : si.maxSqnum ≤ n) : Scanned F { si with maxSqnum := n } :=
  ⟨h.all, h.newest, fun p hp => (h.below p hp).trans hn⟩

/-- A PEB that is to be erased is erased. -/
theorem Scanned.erase {F : Multiset Copy} {si : LebScan} (h : Scanned F si) {erase : List Copy}
    (herase : erase.Sublist si.erase) :
    Scanned (lebs si.leb + ↑erase) { si with erase := erase } := by
  have hle : lebs si.leb + ↑erase ≤ F := by
    rw [← h.all]
    exact add_le_add_right (Multiset.coe_le.mpr herase.subperm) _
  refine ⟨rfl, fun i => (h.newest i).mono hle fun p hp => ?_, fun p hp => h.below p ?_⟩
  · exact Multiset.mem_add.mpr (.inl (mem_lebs.mpr ⟨i, hp⟩))
  · exact Multiset.mem_of_le hle hp

/-- One more copy is scanned; the newer of two is kept. -/
theorem ubiScanAddUsed_spec {F : Multiset Copy} {si : LebScan} (h : Scanned F si) {p : Copy}
    (hp : Distinct (p ::ₘ F)) : ∃ si', ubiScanAddUsed si p = some si' ∧ Scanned (p ::ₘ F) si' ∧
      (∀ i, i ≠ p.lnum → si'.leb i = si.leb i) ∧
      ((∀ q ∈ F, q.sqnum < p.sqnum) → si'.leb p.lnum = some p) := by
  have hmax : ∀ q ∈ p ::ₘ F, q.sqnum ≤ max si.maxSqnum p.sqnum := by
    intro q hq
    rcases Multiset.mem_cons.mp hq with rfl | hq
    · exact le_max_right ..
    · exact (h.below q hq).trans (le_max_left ..)
  have hnewest := h.newest p.lnum
  have hupdate : ∀ y, (∀ q, si.leb p.lnum = some q → q.sqnum ≤ p.sqnum) →
      Newest (p ::ₘ F) y (Function.update si.leb p.lnum (some p) y) := by
    intro y hle
    by_cases hy : y = p.lnum
    · subst hy
      rw [Function.update_self]
      exact hnewest.cons_newer rfl hle
    · rw [Function.update_of_ne hy]
      exact (h.newest y).cons_other (Ne.symm hy)
  unfold ubiScanAddUsed
  cases hleb : si.leb p.lnum with
  | none =>
    -- The first copy of the LEB.
    have hall := lebs_update si.leb p.lnum (some p)
    rw [hleb] at hall
    refine ⟨_, rfl, ⟨?_, fun y => hupdate y (by simp [hleb]), hmax⟩, fun i hi => ?_, fun _ => ?_⟩
    · rw [← h.all, ← Multiset.singleton_add]
      calc lebs (Function.update si.leb p.lnum (some p)) + ↑si.erase
          = lebs si.leb + {p} + ↑si.erase := by simpa using hall
        _ = {p} + (lebs si.leb + ↑si.erase) := by abel
    · exact Function.update_of_ne hi ..
    · exact Function.update_self ..
  | some seb =>
    rw [hleb] at hnewest
    dsimp only
    rw [if_neg (hp.ne hnewest.1)]
    -- The older one of the two is to be erased.
    by_cases hgt : p.sqnum > seb.sqnum
    · have hall := lebs_update si.leb p.lnum (some p)
      rw [hleb] at hall
      rw [if_pos hgt]
      refine ⟨_, rfl, ⟨?_, fun y => hupdate y ?_, hmax⟩, fun i hi => ?_, fun _ => ?_⟩
      · rw [← h.all, ← Multiset.singleton_add]
        calc lebs (Function.update si.leb p.lnum (some p)) + ↑(si.erase ++ [seb])
            = lebs (Function.update si.leb p.lnum (some p)) + {seb} + ↑si.erase := by
              rw [← Multiset.coe_add, Multiset.coe_singleton]
              abel
          _ = lebs si.leb + {p} + ↑si.erase := congrArg (· + ↑si.erase) hall
          _ = {p} + (lebs si.leb + ↑si.erase) := by abel
      · intro q hq
        rw [hleb] at hq
        cases hq
        exact hgt.le
      · exact Function.update_of_ne hi ..
      · exact Function.update_self ..
    · rw [if_neg hgt]
      refine ⟨_, rfl, ⟨?_, fun y => ?_, hmax⟩, fun _ _ => rfl, fun hnew => ?_⟩
      · rw [← h.all, ← Multiset.singleton_add, ← Multiset.coe_add, Multiset.coe_singleton]
        abel
      · by_cases hy : p.lnum = y
        · subst hy
          rw [hleb]
          exact hnewest.cons_older (not_lt.mp hgt)
        · exact (h.newest y).cons_other hy
      · exact absurd (hnew seb hnewest.1) hgt

/-- **Scanning** finds the newest copies, in whatever order. -/
theorem scan_spec {F : Multiset Copy} {si : LebScan} (h : Scanned F si) {ps : List Copy}
    (hps : Distinct (↑ps + F)) : ∃ si', scan si ps = some si' ∧ Scanned (↑ps + F) si' := by
  induction ps generalizing si F with
  | nil =>
    refine ⟨si, rfl, ?_⟩
    rwa [Multiset.coe_nil, zero_add]
  | cons p ps ih =>
    have hmove : (↑(p :: ps) : Multiset Copy) + F = ↑ps + p ::ₘ F := by
      rw [← Multiset.cons_coe, Multiset.cons_add, Multiset.add_cons]
    rw [hmove] at hps ⊢
    obtain ⟨si', hadd, hsi', -⟩ := ubiScanAddUsed_spec h (hps.mono (Multiset.le_add_left ..))
    obtain ⟨si'', hscan, hsi''⟩ := ih hsi' hps
    refine ⟨si'', ?_, hsi''⟩
    unfold scan
    rw [hadd]
    exact hscan

/-! ## What is decided -/

/-- A record that is not complete is found out: the records before it are good. -/
theorem Junk.check {c : UbiInfo} {goodPebCount : Int} {j : Junk} (hj : j.fails c) {vtbl : Vtbl}
    (h : vtblCheck c goodPebCount vtbl = .ok) :
    vtblCheck c goodPebCount (j.data vtbl) = .badCrc := by
  have hbefore :
      ((vtbl.take j.n).map (recordCheck c goodPebCount)).find? (· ≠ .ok) = none := by
    rw [List.find?_eq_none]
    intro x hx
    obtain ⟨r, hr, rfl⟩ := List.mem_map.mp hx
    simpa using vtblCheck_eq_ok h (List.mem_of_mem_take hr)
  have hrecord : recordCheck c goodPebCount j.record = .badCrc := by
    unfold recordCheck
    exact if_pos (by simpa [Junk.fails] using hj)
  have hfind : ((j.data vtbl).map (recordCheck c goodPebCount)).find? (· ≠ .ok) = some .badCrc := by
    unfold Junk.data
    rw [List.map_append, List.find?_append, hbefore, Option.none_or, List.map_cons, hrecord]
    rfl
  unfold vtblCheck
  rw [hfind]

/-- The newest copies decide for `r`: that of LEB 0, or that of LEB 1 if that of LEB 0 is torn. -/
inductive Decides (c : UbiInfo) (goodPebCount : Int) (F : Multiset Copy) (r : Vtbl) : Prop
  | first {p} : Newest F 0 (some p) → p.data = r → Decides c goodPebCount F r
  | second {x p} : Newest F 0 x → (∀ q, x = some q → vtblCheck c goodPebCount q.data = .badCrc) →
      Newest F 1 (some p) → p.data = r → Decides c goodPebCount F r

/-- `p` is being written: it is newer than the others. -/
structure Torn (c : UbiInfo) (goodPebCount : Int) (F : Multiset Copy) (p : Copy) : Prop where
  newer : ∀ q ∈ F, q.sqnum < p.sqnum
  check : vtblCheck c goodPebCount p.data = .badCrc

section Decisions

variable {c : UbiInfo} {goodPebCount : Int} {F : Multiset Copy} {r : Vtbl} {p m : Copy}

/-- A torn copy of the first LEB: the second one decides. -/
theorem Decides.torn_first (hp : Torn c goodPebCount F p) (hp0 : p.lnum = 0)
    (hm : Newest F 1 (some m)) : Decides c goodPebCount (p ::ₘ F) m.data := by
  refine .second (x := some p) ?_ ?_ (hm.cons_other ?_) rfl
  · rw [← hp0]
    exact Newest.cons_self hp.newer
  · rintro q ⟨⟩
    exact hp.check
  · rw [hp0]
    decide

/-- A torn copy of the second LEB: the first one decides. -/
theorem Decides.torn_second (hp1 : p.lnum = 1) (hm : Newest F 0 (some m)) :
    Decides c goodPebCount (p ::ₘ F) m.data := by
  refine .first (hm.cons_other ?_) rfl
  rw [hp1]
  decide

/-- What is to be created anew: the other LEB has the result. -/
def Restores (c : UbiInfo) (goodPebCount : Int) (leb : Lnum → Option Copy) (r : Vtbl) :
    Option Lnum → Prop
  | none => ∀ i, (leb i).map Copy.data = some r
  | some 0 => (leb 1).map Copy.data = some r ∧
      ∀ q, leb 0 = some q → vtblCheck c goodPebCount q.data = .badCrc
  | some 1 => (leb 0).map Copy.data = some r

/-- The LEB that has the result, and its newest copy. -/
theorem Restores.copy {leb : Lnum → Option Copy} {restore : Option Lnum}
    (h : Restores c goodPebCount leb r restore) : ∃ i p, leb i = some p ∧ p.data = r ∧
      (i = 1 → ∀ q, leb 0 = some q → vtblCheck c goodPebCount q.data = .badCrc) ∧
      restore ≠ some i := by
  match restore, h with
  | none, h =>
    obtain ⟨p, hp, hpr⟩ := Option.map_eq_some_iff.mp (h 0)
    exact ⟨0, p, hp, hpr, fun h10 => absurd h10 (by decide), by decide⟩
  | some 0, h =>
    obtain ⟨p, hp, hpr⟩ := Option.map_eq_some_iff.mp h.1
    exact ⟨1, p, hp, hpr, fun _ => h.2, by decide⟩
  | some 1, h =>
    obtain ⟨p, hp, hpr⟩ := Option.map_eq_some_iff.mp h
    exact ⟨0, p, hp, hpr, fun h10 => absurd h10 (by decide), by decide⟩

/-- What `process_lvol` decides for is what there is to decide for, and it restores the other copy.
    -/
theorem processLvol_spec (hF : Distinct F) {si : LebScan} (hsi : Scanned F si)
    (hr : vtblCheck c goodPebCount r = .ok) (h : Decides c goodPebCount F r) :
    ∃ restore, processLvol c goodPebCount (fun i => (si.leb i).map Copy.data) = some (r, restore) ∧
      Restores c goodPebCount si.leb r restore := by
  cases h with
  | @first p hp hpr =>
    have h0 := (hsi.newest 0).unique hF hp
    subst hpr
    unfold processLvol
    simp only [h0, Option.map_some, Option.elim_some, hr]
    by_cases h1 : (si.leb 1).map Copy.data = some p.data
    · rw [if_pos h1]
      refine ⟨none, rfl, fun i => ?_⟩
      match i with
      | 0 => rw [h0]; rfl
      | 1 => exact h1
    · rw [if_neg h1]
      refine ⟨some 1, rfl, ?_⟩
      change (si.leb 0).map Copy.data = _
      rw [h0]
      rfl
  | @second x p hx hbad hp hpr =>
    have h0 := (hsi.newest 0).unique hF hx
    have h1 := (hsi.newest 1).unique hF hp
    subst hpr
    have hcheck : ((si.leb 0).map Copy.data).elim Check.badCrc (vtblCheck c goodPebCount) =
        .badCrc := by
      rw [h0]
      cases x with
      | none => rfl
      | some q => exact hbad q rfl
    refine ⟨some 0, ?_, ?_⟩
    · unfold processLvol
      simp only [hcheck, h1, Option.map_some, Option.elim_some, hr]
    · refine ⟨?_, fun q hq => hbad q (h0.symm.trans hq)⟩
      rw [h1]
      rfl

end Decisions

/-! ## Recovery -/

section Recovery

variable {c : UbiInfo} {goodPebCount : Int}

/-- The copies that are complete, or were when the device lost power. -/
def Attaching.rest (a : Attaching) : Multiset Copy := lebs a.si.leb + ↑a.si.erase

/-- The copies on flash, with the one that is being written. -/
theorem Attaching.coe_copies (a : Attaching) :
    (↑a.copies : Multiset Copy) = ↑a.writing.toList + a.rest := by
  unfold Attaching.copies Attaching.rest lebs
  simp only [← Multiset.coe_add]
  abel

/-- What holds while the table is restored: copies are distinct and the newest of each LEB is
    known. -/
structure Attaching.Inv (c : UbiInfo) (goodPebCount : Int) (a : Attaching) : Prop where
  distinct : Distinct a.rest
  scanned : Scanned a.rest a.si
  check : vtblCheck c goodPebCount a.result = .ok
  result : a.result = a.old ∨ a.result = a.vtbl
  restores : Restores c goodPebCount a.si.leb a.result a.restore
  writing : ∀ p, a.writing = some p → a.restore = some p.lnum ∧ p.sqnum ≤ a.si.maxSqnum ∧
    Torn c goodPebCount a.rest p

/-- What is left on flash after a cut. -/
structure Off.Inv (c : UbiInfo) (goodPebCount : Int) (o : Off) : Prop where
  distinct : Distinct ↑o.copies
  decides : ∃ r, (r = o.old ∨ r = o.vtbl) ∧ vtblCheck c goodPebCount r = .ok ∧
    Decides c goodPebCount ↑o.copies r

/-- Every order of scanning leads to the table that was in force. -/
theorem Off.boot_spec {o : Off} (h : o.Inv c goodPebCount) {order : List Copy}
    (horder : order.Perm o.copies) :
    ∃ a, o.boot c goodPebCount order = .attaching a ∧ a.Inv c goodPebCount := by
  obtain ⟨r, hr, hcheck, hdecides⟩ := h.decides
  have hcoe : (↑order : Multiset Copy) = ↑o.copies := Multiset.coe_eq_coe.mpr horder
  have hdistinct : Distinct (↑order + 0) := by
    rw [add_zero, hcoe]
    exact h.distinct
  obtain ⟨si, hscan, hsi⟩ := scan_spec .empty hdistinct
  rw [add_zero, hcoe] at hsi
  obtain ⟨restore, hprocess, hrestores⟩ := processLvol_spec h.distinct hsi hcheck hdecides
  refine ⟨⟨r, restore, none, si, o.old, o.vtbl⟩, ?_, ?_⟩
  · unfold Off.boot
    rw [hscan]
    dsimp only
    rw [hprocess]
  · have hrest : Attaching.rest ⟨r, restore, none, si, o.old, o.vtbl⟩ = ↑o.copies := hsi.all
    constructor
    · rw [hrest]
      exact h.distinct
    · rw [hrest]
      exact hsi
    · exact hcheck
    · exact hr
    · exact hrestores
    · rintro p ⟨⟩

/-- The power may go while the table is restored. -/
theorem Attaching.Inv.cut {a : Attaching} (h : a.Inv c goodPebCount) :
    Off.Inv c goodPebCount ⟨a.copies, a.old, a.vtbl⟩ := by
  obtain ⟨i, m, hm, hmr, hfirst, hi⟩ := h.restores.copy
  have hnewest := h.scanned.newest i
  rw [hm] at hnewest
  have hcopies := a.coe_copies
  cases hwriting : a.writing with
  | none =>
    rw [hwriting, Option.toList_none, Multiset.coe_nil, zero_add] at hcopies
    refine ⟨?_, a.result, h.result, h.check, ?_⟩
    · rw [hcopies]
      exact h.distinct
    · rw [hcopies]
      match i with
      | 0 => exact .first hnewest hmr
      | 1 => exact .second (h.scanned.newest 0) (hfirst rfl) hnewest hmr
  | some p =>
    obtain ⟨hp, -, htorn⟩ := h.writing p hwriting
    rw [hwriting, Option.toList_some, Multiset.coe_singleton, Multiset.singleton_add] at hcopies
    refine ⟨?_, a.result, h.result, h.check, ?_⟩
    · rw [hcopies]
      exact h.distinct.cons htorn.newer
    · rw [hcopies, ← hmr]
      rw [hp] at hi
      match i with
      | 0 => exact .torn_second (lnum_eq_of_ne (fun h0 => hi (congrArg some h0)) (by decide)) hnewest
      | 1 => exact .torn_first htorn (lnum_eq_of_ne (fun h1 => hi (congrArg some h1)) (by decide)) hnewest

/-- A step of restoring it. -/
theorem Attaching.Inv.step {a a' : Attaching} (h : a.Inv c goodPebCount) {e : Event}
    (hstep : a.step c e = some a') : a'.Inv c goodPebCount := by
  cases e with
  | next j =>
    -- The VID header of the copy is written, or more of its data.
    cases hrestore : a.restore with
    | none => simp [Attaching.step, hrestore] at hstep
    | some i =>
      unfold Attaching.step at hstep
      simp only [hrestore] at hstep
      split at hstep
      next hj =>
        have hbad := Junk.check hj h.check
        cases hwriting : a.writing with
        | none =>
          simp only [hwriting, Option.some.injEq] at hstep
          subst hstep
          refine ⟨h.distinct, h.scanned.above (Nat.le_succ _), h.check, h.result, ?_, ?_⟩
          · exact hrestore ▸ h.restores
          · rintro q ⟨⟩
            exact ⟨rfl, le_rfl, fun q hq => Nat.lt_succ_of_le (h.scanned.below q hq), hbad⟩
        | some p =>
          simp only [hwriting, Option.some.injEq] at hstep
          subst hstep
          obtain ⟨hp, hsqnum, htorn⟩ := h.writing p hwriting
          refine ⟨h.distinct, h.scanned, h.check, h.result, ?_, ?_⟩
          · exact hrestore ▸ h.restores
          · rintro q ⟨⟩
            exact ⟨hrestore ▸ hp, hsqnum, htorn.newer, hbad⟩
      next => cases hstep
  | written =>
    -- The LEB is restored: the copy is whole, and newer than all others.
    cases hwriting : a.writing with
    | none => simp [Attaching.step, hwriting] at hstep
    | some p =>
      obtain ⟨hp, -, htorn⟩ := h.writing p hwriting
      obtain ⟨si', hadd, hsi', hother, hself⟩ := ubiScanAddUsed_spec h.scanned
        (h.distinct.cons htorn.newer : Distinct ({ p with data := a.result } ::ₘ a.rest))
      unfold Attaching.step at hstep
      simp only [hwriting, hadd, Option.some.injEq] at hstep
      subst hstep
      have hrest : Attaching.rest { a with si := si', restore := none, writing := none } = _ :=
        hsi'.all
      refine ⟨?_, ?_, h.check, h.result, fun i => ?_, ?_⟩
      · rw [hrest]
        exact h.distinct.cons htorn.newer
      · rw [hrest]
        exact hsi'
      · by_cases hi : i = p.lnum
        · rw [hi, hself htorn.newer]
          rfl
        · obtain ⟨i', m, hm, hmr, -, hi'⟩ := h.restores.copy
          have heq : i = i' := lnum_eq_of_ne hi fun h' => hi' (by rw [hp, h'])
          rw [hother i hi, heq, hm, ← hmr]
          rfl
      · rintro q ⟨⟩
  | reuse n =>
    -- A PEB that is to be erased is used again: there is one old copy less.
    by_cases hn : n < a.si.erase.length
    · simp only [Attaching.step, if_pos hn, Option.some.injEq] at hstep
      subst hstep
      have hsub := List.eraseIdx_sublist a.si.erase n
      have hsi' := h.scanned.erase hsub
      have hle : lebs a.si.leb + ↑(a.si.erase.eraseIdx n) ≤ a.rest :=
        add_le_add_right (Multiset.coe_le.mpr hsub.subperm) _
      refine ⟨h.distinct.mono hle, hsi', h.check, h.result, h.restores, fun p hp => ?_⟩
      obtain ⟨hrestore, hsqnum, htorn⟩ := h.writing p hp
      exact ⟨hrestore, hsqnum, fun q hq => htorn.newer q (Multiset.mem_of_le hle hq), htorn.check⟩
    · simp [Attaching.step, if_neg hn] at hstep
  | _ => cases hstep

end Recovery

/-! ## Changes -/

section Changes

variable {c : UbiInfo} {goodPebCount : Int}

/-- Calls leave tables that make sense. -/
def Event.Valid (c : UbiInfo) (goodPebCount : Int) : State → Event → Prop
  | .live l, .call x => vtblCheck c goodPebCount (x.table c l.vtbl) = .ok
  | _, _ => True

/-- Erase works end in the order in which they were taken. -/
def Event.InOrder : Event → Prop
  | .erased n => n = 0
  | _ => True

/-- The erase works end in the last copy of LEB 0, or there is none. -/
inductive Front (r : Vtbl) (Q : List Copy) : Prop
  | gone : (∀ q ∈ Q, q.lnum ≠ 0) → Front r Q
  | last {f b : List Copy} {m : Copy} : Q = f ++ m :: b → m.lnum = 0 → m.data = r →
      (∀ q ∈ f, q.lnum = 0 → q.sqnum ≤ m.sqnum) → (∀ q ∈ b, q.lnum ≠ 0) → Front r Q

/-- The first work is done. -/
theorem Front.tail {r : Vtbl} {q : Copy} {Q : List Copy} (h : Front r (q :: Q)) : Front r Q := by
  cases h with
  | gone h => exact .gone fun q hq => h q (List.mem_cons_of_mem _ hq)
  | @last f b m hQ hm hmr hf hb =>
    cases f with
    | nil =>
      obtain ⟨-, rfl⟩ := List.cons.inj hQ
      exact .gone hb
    | cons x f =>
      obtain ⟨-, rfl⟩ := List.cons.inj hQ
      exact .last rfl hm hmr (fun q hq => hf q (List.mem_cons_of_mem _ hq)) hb

/-- While LEB 0 is unmapped, its last copy or LEB 1 decides. -/
theorem Front.decides {r : Vtbl} {Q : List Copy} {G : Multiset Copy} {p : Copy} (h : Front r Q)
    (hp : Newest (G + ↑Q) 1 (some p)) (hpr : p.data = r) (hG : ∀ q ∈ G, q.lnum ≠ 0) :
    Decides c goodPebCount (G + ↑Q) r := by
  cases h with
  | gone h =>
    refine .second (x := none) (fun q hq => ?_) (fun _ hq => by cases hq) hp hpr
    rcases Multiset.mem_add.mp hq with hq | hq
    · exact hG q hq
    · exact h q hq
  | @last f b m hQ hm hmr hf hb =>
    refine .first (p := m) ⟨?_, hm, fun q hq hq0 => ?_⟩ hmr
    · exact Multiset.mem_add.mpr (.inr (by simp [hQ]))
    · rcases Multiset.mem_add.mp hq with hq | hq
      · exact absurd hq0 (hG q hq)
      · rw [hQ, Multiset.mem_coe] at hq
        rcases List.mem_append.mp hq with hq | hq
        · exact hf q hq hq0
        · rcases List.mem_cons.mp hq with rfl | hq
          · exact le_rfl
          · exact absurd hq0 (hb q hq)

namespace Live

/-- The copies that are complete: mapped, or to be erased. -/
def rest (l : Live) : Multiset Copy := lebs l.mapped + ↑(l.busy ++ l.works)

theorem coe_copies (l : Live) : (↑l.copies : Multiset Copy) = ↑l.writing.toList + l.rest := by
  unfold copies rest lebs
  simp only [← Multiset.coe_add]
  abel

/-- LEB `i` is mapped to a copy of `r`. -/
def Has (l : Live) (i : Lnum) (r : Vtbl) : Prop := (l.mapped i).map Copy.data = some r

/-- The copy of LEB `i` that is being written. -/
def Writing (c : UbiInfo) (goodPebCount : Int) (l : Live) (i : Lnum) : Prop :=
  ∃ p, l.writing = some p ∧ p.lnum = i ∧ p.sqnum < l.sqnum ∧ Torn c goodPebCount l.rest p

/-- Where the tables are. -/
def Phase (c : UbiInfo) (goodPebCount : Int) (l : Live) : Pc → Prop
  | .idle => l.writing = none ∧ l.old = l.vtbl ∧ l.Has 0 l.vtbl ∧ l.Has 1 l.vtbl
  | .unmap 0 => l.writing = none ∧ l.Has 0 l.old ∧ l.Has 1 l.old
  | .vidHdr 0 =>
    l.writing = none ∧ l.mapped 0 = none ∧ Front l.old (l.busy ++ l.works) ∧ l.Has 1 l.old
  | .data 0 => l.Writing c goodPebCount 0 ∧ l.mapped 0 = none ∧ l.Has 1 l.old
  | .unmap 1 => l.writing = none ∧ l.Has 0 l.vtbl
  | .vidHdr 1 => l.writing = none ∧ l.mapped 1 = none ∧ l.Has 0 l.vtbl
  | .data 1 => l.Writing c goodPebCount 1 ∧ l.mapped 1 = none ∧ l.Has 0 l.vtbl

/-- What holds while the device is attached: what is mapped is the newest copy of its LEB. -/
structure Inv (c : UbiInfo) (goodPebCount : Int) (l : Live) : Prop where
  distinct : Distinct l.rest
  below : ∀ q ∈ l.rest, q.sqnum < l.sqnum
  newest : ∀ i p, l.mapped i = some p → Newest l.rest i (some p)
  checkOld : vtblCheck c goodPebCount l.old = .ok
  check : vtblCheck c goodPebCount l.vtbl = .ok
  phase : l.Phase c goodPebCount l.pc

/-- The newest copy of a LEB that has the table holds that table. -/
theorem Has.newest {l : Live} {i : Lnum} {r : Vtbl} (h : l.Inv c goodPebCount) (hi : l.Has i r) :
    ∃ p, Newest l.rest i (some p) ∧ p.data = r := by
  obtain ⟨p, hp, hpr⟩ := Option.map_eq_some_iff.mp hi
  exact ⟨p, h.newest i p hp, hpr⟩

/-- A cut while no copy is being written. -/
theorem Inv.off_quiet {l : Live} (h : l.Inv c goodPebCount) (hw : l.writing = none) {r : Vtbl}
    (hr : r = l.old ∨ r = l.vtbl) (hdecides : Decides c goodPebCount l.rest r) :
    Off.Inv c goodPebCount ⟨l.copies, l.old, l.vtbl⟩ := by
  have hcopies : (↑l.copies : Multiset Copy) = l.rest := by
    rw [l.coe_copies, hw]
    exact zero_add _
  refine ⟨?_, r, hr, ?_, ?_⟩
  · rw [hcopies]
    exact h.distinct
  · rcases hr with rfl | rfl
    · exact h.checkOld
    · exact h.check
  · rw [hcopies]
    exact hdecides

/-- A cut while a copy is being written: the other LEB decides. -/
theorem Inv.off_writing {l : Live} (h : l.Inv c goodPebCount) {i : Lnum}
    (hw : l.Writing c goodPebCount i) {r : Vtbl} (hr : r = l.old ∨ r = l.vtbl) {i' : Lnum}
    (hi : i ≠ i') (hhas : l.Has i' r) : Off.Inv c goodPebCount ⟨l.copies, l.old, l.vtbl⟩ := by
  obtain ⟨p, hp, hpi, -, htorn⟩ := hw
  obtain ⟨m, hm, rfl⟩ := hhas.newest h
  have hcopies : (↑l.copies : Multiset Copy) = p ::ₘ l.rest := by
    rw [l.coe_copies, hp, Option.toList_some, Multiset.coe_singleton, Multiset.singleton_add]
  refine ⟨?_, m.data, hr, ?_, ?_⟩
  · rw [hcopies]
    exact h.distinct.cons htorn.newer
  · rcases hr with hr | hr
    · exact hr ▸ h.checkOld
    · exact hr ▸ h.check
  · rw [hcopies]
    match i' with
    | 0 => exact .torn_second (hpi.trans (lnum_eq_of_ne hi (by decide))) hm
    | 1 => exact .torn_first htorn (hpi.trans (lnum_eq_of_ne hi (by decide))) hm

/-- **A cut** leaves copies that decide for the table before or after. -/
theorem Inv.cut {l : Live} (h : l.Inv c goodPebCount) :
    Off.Inv c goodPebCount ⟨l.copies, l.old, l.vtbl⟩ := by
  have hphase := h.phase
  have hfirst : ∀ {r}, l.Has 0 r → Decides c goodPebCount l.rest r := by
    intro r h0
    obtain ⟨p, hp, hpr⟩ := h0.newest h
    exact .first hp hpr
  match hpc : l.pc with
  | .idle =>
    rw [hpc] at hphase
    exact h.off_quiet hphase.1 (.inr rfl) (hfirst hphase.2.2.1)
  | .unmap 0 =>
    rw [hpc] at hphase
    exact h.off_quiet hphase.1 (.inl rfl) (hfirst hphase.2.1)
  | .vidHdr 0 =>
    rw [hpc] at hphase
    obtain ⟨hw, h0, hfront, h1⟩ := hphase
    obtain ⟨p, hp, hpr⟩ := h1.newest h
    refine h.off_quiet hw (.inl rfl) (hfront.decides hp hpr fun q hq hq0 => ?_)
    obtain ⟨i, hi⟩ := mem_lebs.mp hq
    have hqi := (h.newest i q hi).2.1
    rw [← hqi, hq0, h0] at hi
    cases hi
  | .data 0 =>
    rw [hpc] at hphase
    exact h.off_writing hphase.1 (.inl rfl) (by decide) hphase.2.2
  | .unmap 1 =>
    rw [hpc] at hphase
    exact h.off_quiet hphase.1 (.inr rfl) (hfirst hphase.2)
  | .vidHdr 1 =>
    rw [hpc] at hphase
    exact h.off_quiet hphase.1 (.inr rfl) (hfirst hphase.2.2)
  | .data 1 =>
    rw [hpc] at hphase
    exact h.off_writing hphase.1 (.inr rfl) (by decide) hphase.2.2

/-- A call begins. -/
theorem Inv.call {l : Live} (h : l.Inv c goodPebCount) (hpc : l.pc = .idle) {vtbl : Vtbl}
    (hvtbl : vtblCheck c goodPebCount vtbl = .ok) :
    Inv c goodPebCount { l with vtbl := vtbl, pc := .unmap 0 } := by
  have hphase := h.phase
  rw [hpc] at hphase
  obtain ⟨hw, hold, h0, h1⟩ := hphase
  exact ⟨h.distinct, h.below, h.newest, h.checkOld, hvtbl, hw, hold ▸ h0, hold ▸ h1⟩

/-- A LEB is unmapped. -/
theorem Inv.unmap {l : Live} (h : l.Inv c goodPebCount) {i : Lnum} (hpc : l.pc = .unmap i) :
    Inv c goodPebCount { l with
      pc := .vidHdr i
      mapped := Function.update l.mapped i none
      works := l.works ++ (l.mapped i).toList } := by
  have hrest : rest { l with
      pc := .vidHdr i
      mapped := Function.update l.mapped i none
      works := l.works ++ (l.mapped i).toList } = l.rest := by
    have hall := lebs_update l.mapped i none
    rw [Option.toList_none, Multiset.coe_nil, add_zero] at hall
    unfold rest
    rw [← hall, ← List.append_assoc, ← Multiset.coe_add]
    abel
  have hnone : Function.update l.mapped i none i = none := Function.update_self ..
  have hphase := h.phase
  rw [hpc] at hphase
  refine ⟨?_, ?_, fun j p hp => ?_, h.checkOld, h.check, ?_⟩
  · rw [hrest]
    exact h.distinct
  · rw [hrest]
    exact h.below
  · by_cases hj : j = i
    · rw [hj] at hp
      simp at hp
    · have hp' := h.newest j p (by simpa [Function.update_of_ne hj] using hp)
      rw [hrest]
      exact hp'
  · -- the old copy of LEB 0 is the newest of those to be erased, and the last in the queue.
    match i with
    | 0 =>
      obtain ⟨hw, h0, h1⟩ := hphase
      obtain ⟨m, hm, hmr⟩ := Option.map_eq_some_iff.mp h0
      have hnewest := h.newest 0 m hm
      refine ⟨hw, hnone, ?_, ?_⟩
      · change Front l.old (l.busy ++ (l.works ++ (l.mapped 0).toList))
        rw [hm, ← List.append_assoc]
        refine .last (m := m) (b := []) rfl hnewest.2.1 hmr (fun q hq => ?_) (by simp)
        exact hnewest.2.2 q (Multiset.mem_add.mpr (.inr hq))
      · exact h1
    | 1 =>
      obtain ⟨hw, h0⟩ := hphase
      exact ⟨hw, hnone, h0⟩

/-- The VID header of a copy is written. -/
theorem Inv.vidHdr {l : Live} (h : l.Inv c goodPebCount) {i : Lnum} (hpc : l.pc = .vidHdr i)
    {vtbl : Vtbl} (hvtbl : vtblCheck c goodPebCount vtbl = .badCrc) :
    Inv c goodPebCount { l with
      pc := .data i
      writing := some ⟨i, l.sqnum, vtbl⟩
      sqnum := l.sqnum + 1 } := by
  have hphase := h.phase
  rw [hpc] at hphase
  have htorn : Torn c goodPebCount l.rest ⟨i, l.sqnum, vtbl⟩ := ⟨h.below, hvtbl⟩
  refine ⟨h.distinct, fun q hq => ?_, h.newest, h.checkOld, h.check, ?_⟩
  · exact (h.below q hq).trans (Nat.lt_succ_self _)
  · match i with
    | 0 => exact ⟨⟨_, rfl, rfl, Nat.lt_succ_self _, htorn⟩, hphase.2.1, hphase.2.2.2⟩
    | 1 => exact ⟨⟨_, rfl, rfl, Nat.lt_succ_self _, htorn⟩, hphase.2.1, hphase.2.2⟩

/-- While a copy is written, what is there of it does not pass for a table. -/
theorem Writing.data {l : Live} {i : Lnum} (h : l.Writing c goodPebCount i) {vtbl : Vtbl}
    (hvtbl : vtblCheck c goodPebCount vtbl = .badCrc) :
    Writing c goodPebCount { l with writing := l.writing.map fun p => { p with data := vtbl } } i := by
  obtain ⟨p, hp, hpi, hsqnum, htorn⟩ := h
  exact ⟨{ p with data := vtbl }, by simp [hp], hpi, hsqnum, htorn.newer, hvtbl⟩

/-- A part of the pages is written. -/
theorem Inv.data {l : Live} (h : l.Inv c goodPebCount) {i : Lnum} (hpc : l.pc = .data i)
    {vtbl : Vtbl} (hvtbl : vtblCheck c goodPebCount vtbl = .badCrc) :
    Inv c goodPebCount { l with writing := l.writing.map fun p => { p with data := vtbl } } := by
  have hphase := h.phase
  rw [hpc] at hphase
  refine ⟨h.distinct, h.below, h.newest, h.checkOld, h.check, ?_⟩
  change Phase c goodPebCount _ l.pc
  rw [hpc]
  match i with
  | 0 => exact ⟨hphase.1.data hvtbl, hphase.2⟩
  | 1 => exact ⟨hphase.1.data hvtbl, hphase.2⟩

/-- All pages are written. -/
theorem Inv.written {l : Live} (h : l.Inv c goodPebCount) {i : Lnum} (hpc : l.pc = .data i)
    {p : Copy} (hp : l.writing = some p) :
    Inv c goodPebCount { l with
      pc := if i = 0 then .unmap 1 else .idle
      old := if i = 0 then l.old else l.vtbl
      mapped := Function.update l.mapped i (some { p with data := l.vtbl })
      writing := none } := by
  have hphase := h.phase
  rw [hpc] at hphase
  -- It was unmapped first.
  have hnone : l.mapped i = none := by
    match i with
    | 0 | 1 => exact hphase.2.1
  obtain ⟨hpi, hsqnum, htorn⟩ : p.lnum = i ∧ p.sqnum < l.sqnum ∧ Torn c goodPebCount l.rest p := by
    have hwriting : l.Writing c goodPebCount i := by
      match i with
      | 0 | 1 => exact hphase.1
    obtain ⟨p', hp', hpi, hsqnum, htorn⟩ := hwriting
    cases hp.symm.trans hp'
    exact ⟨hpi, hsqnum, htorn⟩
  have hrest : rest { l with
      pc := if i = 0 then .unmap 1 else .idle
      old := if i = 0 then l.old else l.vtbl
      mapped := Function.update l.mapped i (some { p with data := l.vtbl })
      writing := none } = { p with data := l.vtbl } ::ₘ l.rest := by
    have hall := lebs_update l.mapped i (some { p with data := l.vtbl })
    rw [hnone, Option.toList_none, Multiset.coe_nil, add_zero] at hall
    unfold rest
    rw [hall, Option.toList_some, Multiset.coe_singleton, ← Multiset.singleton_add]
    abel
  refine ⟨?_, ?_, fun j q hq => ?_, ?_, h.check, ?_⟩
  · rw [hrest]
    exact h.distinct.cons htorn.newer
  · rw [hrest]
    intro q hq
    rcases Multiset.mem_cons.mp hq with rfl | hq
    · exact hsqnum
    · exact h.below q hq
  · rw [hrest]
    by_cases hj : j = i
    · have hq' : some { p with data := l.vtbl } = some q := by
        rw [hj] at hq
        simpa using hq
      cases hq'
      rw [hj, ← hpi]
      exact Newest.cons_self htorn.newer
    · have hq' := h.newest j q (by simpa [Function.update_of_ne hj] using hq)
      refine hq'.cons_other fun hpj => hj ?_
      rw [← hpj]
      exact hpi
  · -- after LEB 0 the old table is in LEB 1 still, after LEB 1 the change is done
    by_cases hi : i = 0
    · simpa [hi] using h.checkOld
    · simpa [hi] using h.check
  · match i with
    | 0 => exact ⟨rfl, rfl⟩
    | 1 => exact ⟨rfl, rfl, hphase.2.2, rfl⟩

/-- The queue of works changes. -/
theorem Inv.queue {l : Live} (h : l.Inv c goodPebCount) {busy works : List Copy}
    (hsub : (busy ++ works).Sublist (l.busy ++ l.works))
    (hfront : ∀ r, Front r (l.busy ++ l.works) → Front r (busy ++ works)) :
    Inv c goodPebCount { l with busy := busy, works := works } := by
  have hle : lebs l.mapped + ↑(busy ++ works) ≤ l.rest :=
    add_le_add_right (Multiset.coe_le.mpr hsub.subperm) _
  have hmem : ∀ q ∈ lebs l.mapped + ↑(busy ++ works), q ∈ l.rest := fun q hq =>
    Multiset.mem_of_le hle hq
  have hwriting : ∀ i, l.Writing c goodPebCount i →
      Writing c goodPebCount { l with busy := busy, works := works } i := by
    rintro i ⟨p, hp, hpi, hsqnum, htorn⟩
    exact ⟨p, hp, hpi, hsqnum, fun q hq => htorn.newer q (hmem q hq), htorn.check⟩
  have hphase := h.phase
  refine ⟨h.distinct.mono hle, fun q hq => h.below q (hmem q hq), fun i p hp => ?_, h.checkOld,
    h.check, ?_⟩
  · refine (h.newest i p hp).mono hle fun q hq => ?_
    cases hq
    exact Multiset.mem_add.mpr (.inl (mem_lebs.mpr ⟨i, hp⟩))
  · -- Only while LEB 0 is about to be written does the order of the queue matter.
    change Phase c goodPebCount _ l.pc
    match hpc : l.pc with
    | .idle | .unmap 0 | .unmap 1 | .vidHdr 1 =>
      rw [hpc] at hphase
      exact hphase
    | .vidHdr 0 =>
      rw [hpc] at hphase
      exact ⟨hphase.1, hphase.2.1, hfront _ hphase.2.2.1, hphase.2.2.2⟩
    | .data 0 | .data 1 =>
      rw [hpc] at hphase
      exact ⟨hwriting _ hphase.1, hphase.2⟩

/-- A step of a device that is attached. -/
theorem Inv.step {l l' : Live} (h : l.Inv c goodPebCount) {e : Event}
    (hvalid : e.Valid c goodPebCount (.live l)) (horder : e.InOrder)
    (hstep : l.step c e = some l') : l'.Inv c goodPebCount := by
  cases e with
  | call x =>
    by_cases hpc : l.pc = .idle
    · simp only [Live.step, if_pos hpc, Option.some.injEq] at hstep
      subst hstep
      exact h.call hpc hvalid
    · simp [Live.step, if_neg hpc] at hstep
  | next j =>
    cases hpc : l.pc with
    | idle => simp [Live.step, hpc] at hstep
    | unmap i =>
      simp only [Live.step, hpc, Option.some.injEq] at hstep
      subst hstep
      exact h.unmap hpc
    | vidHdr i =>
      by_cases hj : j.fails c
      · simp only [Live.step, hpc, if_pos hj, Option.some.injEq] at hstep
        subst hstep
        exact h.vidHdr hpc (Junk.check hj h.check)
      · simp [Live.step, hpc, if_neg hj] at hstep
    | data i =>
      by_cases hj : j.fails c
      · simp only [Live.step, hpc, if_pos hj, Option.some.injEq] at hstep
        subst hstep
        exact hpc ▸ h.data hpc (Junk.check hj h.check)
      · simp [Live.step, hpc, if_neg hj] at hstep
  | written =>
    unfold Live.step at hstep
    dsimp only at hstep
    split at hstep
    next i p hpc hp =>
      cases hstep
      exact h.written hpc hp
    next => cases hstep
  | take =>
    -- A worker takes the oldest work.
    cases hworks : l.works with
    | nil => simp [Live.step, hworks] at hstep
    | cons p works =>
      simp only [Live.step, hworks, Option.some.injEq] at hstep
      subst hstep
      have heq : l.busy ++ [p] ++ works = l.busy ++ l.works := by
        rw [hworks, List.append_assoc]
        rfl
      exact h.queue (heq ▸ List.Sublist.refl _) fun r hr => heq ▸ hr
  | erased n =>
    -- The oldest one of those taken is erased.
    cases horder
    cases hbusy : l.busy with
    | nil => simp [Live.step, hbusy] at hstep
    | cons p busy =>
      simp [Live.step, hbusy] at hstep
      subst hstep
      refine h.queue ?_ fun r hr => ?_
      · rw [hbusy]
        exact List.sublist_cons_self ..
      · rw [hbusy] at hr
        exact hr.tail
  | _ => cases hstep

end Live

/-- The device is attached. -/
theorem Attaching.Inv.live {a : Attaching} (h : a.Inv c goodPebCount) (hrestore : a.restore = none) :
    a.live.Inv c goodPebCount := by
  have hrestores := h.restores
  rw [hrestore] at hrestores
  refine ⟨h.distinct, fun q hq => ?_, fun i p hp => ?_, h.check, h.check, ?_⟩
  · exact Nat.lt_succ_of_le (h.scanned.below q hq)
  · have hnewest := h.scanned.newest i
    change a.si.leb i = some p at hp
    rw [hp] at hnewest
    exact hnewest
  · exact ⟨rfl, rfl, hrestores 0, hrestores 1⟩

end Changes

/-! ## Runs -/

section Runs

variable {c : UbiInfo} {goodPebCount : Int}

/-- The invariant, whatever the device is doing. -/
def State.Inv (c : UbiInfo) (goodPebCount : Int) : State → Prop
  | .live l => l.Inv c goodPebCount
  | .off o => o.Inv c goodPebCount
  | .attaching a => a.Inv c goodPebCount
  | .failed => False

/-- The invariant says that a boot comes up with the old or the new table. -/
theorem State.Inv.safe {s : State} (h : s.Inv c goodPebCount) : s.Safe := by
  match s with
  | .live l =>
    intro hpc i
    have hphase := Live.Inv.phase h
    rw [hpc] at hphase
    match i with
    | 0 => exact hphase.2.2.1
    | 1 => exact hphase.2.2.2
  | .off _ => trivial
  | .attaching a => exact Attaching.Inv.result h
  | .failed => exact h

/-- It holds of a new device. -/
theorem State.Inv.initial {vtbl : Vtbl} (h : vtblCheck c goodPebCount vtbl = .ok) :
    (State.initial vtbl).Inv c goodPebCount := by
  have hmem : ∀ q ∈ lebs fun i => some ⟨i, i, vtbl⟩, q.sqnum = q.lnum := by
    intro q hq
    obtain ⟨i, hi⟩ := mem_lebs.mp hq
    cases hi
    rfl
  refine ⟨?_, fun q hq => ?_, fun i p hp => ?_, h, h, rfl, rfl, rfl, rfl⟩
  · change Multiset.Nodup {0, 1}
    decide
  · rw [hmem q (by simpa [Live.rest] using hq)]
    exact q.lnum.isLt
  · cases hp
    refine ⟨?_, rfl, fun q hq hqi => ?_⟩
    · exact Multiset.mem_add.mpr (.inl (mem_lebs.mpr ⟨i, rfl⟩))
    · rw [hmem q (by simpa [Live.rest] using hq), hqi]

/-- Anything but a cut is a step of the device. -/
theorem State.step_live {l : Live} {e : Event} (hcut : e ≠ .cut) :
    State.step c goodPebCount (.live l) e = (l.step c e).map .live := by
  cases e with
  | cut => exact absurd rfl hcut
  | _ => rfl

theorem State.step_attaching {a : Attaching} {e : Event} (hcut : e ≠ .cut)
    (hattached : e ≠ .attached) :
    State.step c goodPebCount (.attaching a) e = (a.step c e).map .attaching := by
  cases e with
  | cut => exact absurd rfl hcut
  | attached => exact absurd rfl hattached
  | _ => rfl

/-- It is kept by each step whose erasures go in order. -/
theorem State.Inv.step {s s' : State} (h : s.Inv c goodPebCount) {e : Event}
    (hvalid : e.Valid c goodPebCount s) (horder : e.InOrder)
    (hstep : s.step c goodPebCount e = some s') : s'.Inv c goodPebCount := by
  match s with
  | .live l =>
    by_cases hcut : e = .cut
    · subst hcut
      cases hstep
      exact Live.Inv.cut h
    · rw [State.step_live hcut] at hstep
      obtain ⟨l', hl', rfl⟩ := Option.map_eq_some_iff.mp hstep
      exact Live.Inv.step h hvalid horder hl'
  | .off o =>
    cases e with
    | boot order =>
      by_cases horder : order.isPerm o.copies
      · simp only [State.step, if_pos horder, Option.some.injEq] at hstep
        obtain ⟨a, ha, hinv⟩ := Off.boot_spec h (List.isPerm_iff.mp horder)
        rw [← hstep, ha]
        exact hinv
      · simp [State.step, if_neg horder] at hstep
    | _ => cases hstep
  | .attaching a =>
    by_cases hcut : e = .cut
    · subst hcut
      cases hstep
      exact Attaching.Inv.cut h
    by_cases hattached : e = .attached
    · subst hattached
      by_cases hrestore : a.restore = none
      · simp only [State.step, if_pos hrestore, Option.some.injEq] at hstep
        subst hstep
        exact Attaching.Inv.live h hrestore
      · simp [State.step, if_neg hrestore] at hstep
    · rw [State.step_attaching hcut hattached] at hstep
      obtain ⟨a', ha', rfl⟩ := Option.map_eq_some_iff.mp hstep
      exact Attaching.Inv.step h ha'
  | .failed => exact h.elim

/-- The states that runs of events with `P` reach, from a device that holds `vtbl`. -/
def Runs (c : UbiInfo) (goodPebCount : Int) (P : State → Event → Prop) (vtbl : Vtbl) :
    State → Prop :=
  EventReach (State.step c goodPebCount) P (· = State.initial vtbl)

end Runs

/-- However often power is cut, the table is the one before or the one after the change. -/
theorem layout_atomic (c : UbiInfo) (goodPebCount : Int) {vtbl : Vtbl}
    (hvtbl : vtblCheck c goodPebCount vtbl = .ok) {s : State}
    (h : Runs c goodPebCount (fun s e => e.Valid c goodPebCount s ∧ e.InOrder) vtbl s) :
    s.Safe := by
  have hinv : s.Inv c goodPebCount := by
    apply EventReach.invariant ?_ ?_ h
    · rintro s rfl
      exact State.Inv.initial hvtbl
    · rintro s s' e hs ⟨hvalid, horder⟩ hstep
      exact hs.step hvalid horder hstep
  exact hinv.safe

/-! ## Examples -/

section Examples

variable {c : UbiInfo} {goodPebCount : Int}

instance (s : State) (e : Event) : Decidable (e.Valid c goodPebCount s) :=
  match s, e with
  | .live l, .call x => inferInstanceAs (Decidable (vtblCheck c goodPebCount (x.table c l.vtbl) = .ok))
  | .live _, .next _ | .live _, .written | .live _, .take | .live _, .erased _ | .live _, .cut
  | .live _, .boot _ | .live _, .reuse _ | .live _, .attached | .off _, _ | .attaching _, _
  | .failed, _ => .isTrue trivial

instance (e : Event) : Decidable e.InOrder :=
  match e with
  | .erased n => inferInstanceAs (Decidable (n = 0))
  | .call _ | .next _ | .written | .take | .cut | .boot _ | .reuse _ | .attached => .isTrue trivial

end Examples

/-- A volume of one LEB. -/
def oneLeb (name : UInt8) : VtblFields :=
  ⟨1, 1, 0, ubiVidDynamic, 0, 1, name :: List.replicate ubiVolNameMax 0, 0⟩

/-- A record that is not complete. -/
def noRecord : Junk := ⟨0, { emptyFields with crc := 0 }, []⟩

/-- The tables without a volume, and with one. -/
def noVolume : Vtbl := [emptyVtblRecord]

/-- A volume table with one volume, of one LEB. -/
def oneVolume (name : UInt8) : Vtbl := [plainUbiInfo.record (oneLeb name)]

/-- The volume is created or replaced, up to the end. -/
def changed (name : UInt8) : List Event :=
  .call (.change 0 (some (oneLeb name))) ::
    [.next noRecord, .next noRecord, .written, .next noRecord, .next noRecord, .written]

/-- Power is cut while LEB 0 is unmapped and its last copy is erased. -/
def cutUnmapped : List Event :=
  changed 97 ++ [.take, .erased 0, .call (.change 0 none), .next noRecord, .take, .take, .erased 0,
    .erased 0, .cut, .boot [⟨1, 3, oneVolume 97⟩], .next noRecord, .written, .attached]

/-- A cut between unmapping a LEB and writing it is such a run. -/
theorem layout_atomic_cutUnmapped : ∃ l : Live,
    runEvents (State.step plainUbiInfo 18) (fun s e => e.Valid plainUbiInfo 18 s ∧ e.InOrder)
      (State.initial noVolume) cutUnmapped = some (.live l) ∧
    l.vtbl = oneVolume 97 ∧ (State.live l).Safe :=
  ⟨_, rfl, rfl, layout_atomic plainUbiInfo 18 (by decide)
    (EventReach.run (.init rfl) (rfl : runEvents _ _ (State.initial noVolume) cutUnmapped = _))⟩

/-- The last copy of LEB 0 is erased before an older one. -/
def oldCopyLeft : List Event :=
  changed 97 ++ [.take, .call (.change 0 (some (oneLeb 98))), .next noRecord, .take, .take,
    .erased 2, .cut, .boot [⟨1, 3, oneVolume 97⟩, ⟨0, 0, noVolume⟩, ⟨1, 1, noVolume⟩]]

/-- Without an order of the erase works an older table comes back. -/
theorem older_table_back : ¬∀ (c : UbiInfo) (goodPebCount : Int) (vtbl : Vtbl) (s : State),
    vtblCheck c goodPebCount vtbl = .ok →
    Runs c goodPebCount (fun s e => e.Valid c goodPebCount s) vtbl s → s.Safe := by
  intro hall
  have hsafe := hall plainUbiInfo 18 noVolume _ (by decide)
    (EventReach.run (.init rfl) (rfl : runEvents _ _ (State.initial noVolume) oldCopyLeft = _))
  have holder : noVolume = oneVolume 97 ∨ noVolume = oneVolume 98 := hsafe
  revert holder
  decide

end Ubi
