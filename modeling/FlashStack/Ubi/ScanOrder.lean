/-
  Scanning finds the same PEB for a LEB whatever the order of the PEBs is.

  After some PEBs the tables hold the best PEB of each LEB among them (`Chosen`), in the sense of
  `Lib.Best`, and the list of those to erase has all the others.  That determines the result up to
  the order of this list, so that a scan of the same PEBs in another order has the same
  (`Scanned.result`).
-/
import FlashStack.Ubi.Scan

open Lib.Newest (Best)

namespace Ubi.Scan

variable {fl : Flash} {v : Nat} {ps ps' all : List Nat} {p l : Nat} {si si₀ : ScanInfo}
  {sv : ScanVolume} {bitflips : Nat → Bool}

/-- A PEB that may be used: not a copy, or one that is complete. -/
def Valid (fl : Flash) (p : Nat) : Prop := (fl.vidHdr p).copyFlag = false ∨ crcOk fl p = true

/-- The PEBs of a list with the LEB `l`. -/
def OfLeb (fl : Flash) (ps : List Nat) (l p : Nat) : Prop := p ∈ ps ∧ (fl.vidHdr p).lnum = l

/-- The PEB that a LEB is to be found on. -/
def Newest (fl : Flash) (ps : List Nat) (l p : Nat) : Prop :=
  Best (fun p => (fl.vidHdr p).sqnum) (Valid fl) (OfLeb fl ps l) p

/-- PEBs of one volume. -/
structure Consistent (fl : Flash) (v : Nat) (ps : List Nat) : Prop where
  volId {p : Nat} : p ∈ ps → (fl.vidHdr p).volId = v
  same {p q : Nat} : p ∈ ps → q ∈ ps → (fl.vidHdr p).volType = (fl.vidHdr q).volType ∧
    (fl.vidHdr p).usedEbs = (fl.vidHdr q).usedEbs ∧ (fl.vidHdr p).dataPad = (fl.vidHdr q).dataPad
  sqnum : (ps.map fun p => (fl.vidHdr p).sqnum).Nodup

/-- No PEB is scanned twice. -/
theorem Consistent.nodup (h : Consistent fl v ps) : ps.Nodup := h.sqnum.of_map _

/-- Sequence numbers tell the PEBs apart. -/
theorem Consistent.inj (h : Consistent fl v ps) {p q : Nat} (hp : p ∈ ps) (hq : q ∈ ps)
    (he : (fl.vidHdr p).sqnum = (fl.vidHdr q).sqnum) : p = q :=
  List.inj_on_of_nodup_map h.sqnum hp hq he

/-- In which order they are scanned does not matter. -/
theorem Consistent.perm (h : Consistent fl v ps) (hp : ps'.Perm ps) : Consistent fl v ps' where
  volId hq := h.volId (hp.mem_iff.mp hq)
  same hq hq' := h.same (hp.mem_iff.mp hq) (hp.mem_iff.mp hq')
  sqnum := (hp.map _).nodup_iff.mpr h.sqnum

/-- The entry of a PEB. -/
structure Entry (fl : Flash) (seb : ScanLeb) (p : Nat) : Prop where
  pnum : seb.pnum = p
  ec : seb.ec = fl.ec p
  lnum : seb.lnum = (fl.vidHdr p).lnum
  copyFlag : seb.copyFlag = (fl.vidHdr p).copyFlag
  sqnum : seb.sqnum = (fl.vidHdr p).sqnum

/-- The LEBs that have been found on the PEBs of a list. -/
structure Chosen (fl : Flash) (ps : List Nat) (leb : Nat → Option ScanLeb) : Prop where
  absent {l : Nat} : leb l = none → ∀ p, ¬OfLeb fl ps l p
  newest {l : Nat} {seb : ScanLeb} : leb l = some seb → ∃ p, Entry fl seb p ∧ Newest fl ps l p

/-- What is known of a volume, after the PEBs of a list. -/
structure Holds (fl : Flash) (v : Nat) (ps : List Nat) (sv : ScanVolume) : Prop where
  volId : sv.volId = v
  same {p : Nat} : p ∈ ps → (fl.vidHdr p).volType = sv.volType ∧
    (fl.vidHdr p).usedEbs = sv.usedEbs ∧ (fl.vidHdr p).dataPad = sv.dataPad
  chosen : Chosen fl ps sv.leb
  lebCount : sv.lebCount = (ps.map fun p => (fl.vidHdr p).lnum).toFinset.card
  lnum_le {p : Nat} : p ∈ ps → (fl.vidHdr p).lnum ≤ sv.highestLnum
  highest : (ps = [] ∧ sv.highestLnum = 0) ∨ ∃ p ∈ ps, (fl.vidHdr p).lnum = sv.highestLnum
  lastDataSize {seb : ScanLeb} : sv.leb sv.highestLnum = some seb →
    sv.lastDataSize = (fl.vidHdr seb.pnum).dataSize

/-- A volume that was just found has no LEBs. -/
theorem Holds.newVolume (h : (fl.vidHdr p).volId = v) :
    Holds fl v [] (newVolume (fl.vidHdr p)) where
  volId := h
  same := nofun
  chosen := ⟨fun _ p hp => (by cases hp.1), nofun⟩
  lebCount := rfl
  lnum_le := nofun
  highest := .inl ⟨rfl, rfl⟩
  lastDataSize := nofun

/-- The LEB of this PEB has been found on it. -/
def ScanVolume.uses (fl : Flash) (sv : ScanVolume) (p : Nat) : Bool :=
  (sv.leb (fl.vidHdr p).lnum).any (·.pnum == p)

/-- What scanning knows after the PEBs of a list. -/
structure Scanned (fl : Flash) (v : Nat) (si₀ : ScanInfo) (ps : List Nat) (si : ScanInfo)
    (sv : ScanVolume) : Prop where
  holds : Holds fl v ps sv
  erase : si.erase.Perm
    (si₀.erase ++ (ps.filter fun p => !sv.uses fl p).map fun p => (p, fl.ec p))
  sqnum_le {p : Nat} : p ∈ ps → (fl.vidHdr p).sqnum ≤ si.maxSqnum
  maxSqnum_le : si₀.maxSqnum ≤ si.maxSqnum
  maxSqnum : si.maxSqnum = si₀.maxSqnum ∨ ∃ p ∈ ps, (fl.vidHdr p).sqnum = si.maxSqnum

/-! ## One PEB -/

/-- One more PEB. -/
theorem ofLeb_append {q : Nat} : OfLeb fl (ps ++ [p]) l q ↔
    OfLeb fl ps l q ∨ (q = p ∧ (fl.vidHdr p).lnum = l) := by
  simp only [OfLeb, List.mem_append, List.mem_singleton]
  constructor
  · rintro ⟨hq | rfl, hl⟩
    · exact .inl ⟨hq, hl⟩
    · exact .inr ⟨rfl, hl⟩
  · rintro (⟨hq, hl⟩ | ⟨rfl, hl⟩)
    · exact ⟨.inl hq, hl⟩
    · exact ⟨.inr rfl, hl⟩

/-- Other LEBs are not concerned. -/
theorem Newest.other {q : Nat} (h : Newest fl ps l q) (hl : (fl.vidHdr p).lnum ≠ l) :
    Newest fl (ps ++ [p]) l q :=
  Best.congr h fun b => by
    rw [ofLeb_append]
    exact ⟨.inl, fun hb => hb.resolve_right fun hb => hl hb.2⟩

/-- The first PEB of a LEB is the newest. -/
theorem Newest.first (h : ∀ q, ¬OfLeb fl ps (fl.vidHdr p).lnum q) :
    Newest fl (ps ++ [p]) (fl.vidHdr p).lnum p :=
  (Best.single p).congr fun b => by
    rw [ofLeb_append]
    exact ⟨fun hb => .inr ⟨hb, rfl⟩, fun hb => (hb.resolve_left (h b)).1⟩

/-- The verdict of `compare_lebs`. -/
theorem compareLebs_spec {seb : ScanLeb} {q : Nat} (he : Entry fl seb q)
    (hq : Newest fl ps (fl.vidHdr p).lnum q) (hne : (fl.vidHdr q).sqnum ≠ (fl.vidHdr p).sqnum) :
    ∃ cmp, compareLebs fl seb p = some cmp ∧
      Newest fl (ps ++ [p]) (fl.vidHdr p).lnum (if cmp.secondIsNewer then p else q) := by
  have hset : ∀ b, (OfLeb fl ps (fl.vidHdr p).lnum b ∨ b = p) ↔
      OfLeb fl (ps ++ [p]) (fl.vidHdr p).lnum b := fun b => by
    rw [ofLeb_append]
    exact or_congr_right (and_iff_left rfl).symm
  have hkeep := fun hx => (Best.keep hq hx).congr hset
  have hreplace := fun hx => (Best.replace hq hx).congr hset
  unfold compareLebs
  dsimp only
  rw [he.sqnum, if_neg hne.symm]
  by_cases hlt : (fl.vidHdr q).sqnum < (fl.vidHdr p).sqnum
  · rw [if_pos hlt]
    cases hcopy : (fl.vidHdr p).copyFlag with
    | false => exact ⟨_, rfl, hreplace (.inl ⟨hlt, .inl hcopy⟩)⟩
    | true =>
      refine ⟨_, rfl, ?_⟩
      cases hcrc : crcOk fl p with
      | true =>
        simp only [checkCopy, hcrc, if_true]
        exact hreplace (.inl ⟨hlt, .inr hcrc⟩)
      | false =>
        simp only [checkCopy, hcrc, Bool.false_eq_true, if_false, Bool.not_true]
        refine hkeep (.inl ⟨hlt, ?_⟩)
        simp [Valid, hcopy, hcrc]
  · have hlt' : (fl.vidHdr p).sqnum < (fl.vidHdr q).sqnum :=
      Nat.lt_of_le_of_ne (Nat.le_of_not_lt hlt) hne.symm
    rw [if_neg hlt, he.copyFlag, he.pnum]
    cases hcopy : (fl.vidHdr q).copyFlag with
    | false => exact ⟨_, rfl, hkeep (.inr ⟨hlt', .inl hcopy⟩)⟩
    | true =>
      refine ⟨_, rfl, ?_⟩
      cases hcrc : crcOk fl q with
      | true =>
        simp only [checkCopy, hcrc, if_true]
        exact hkeep (.inr ⟨hlt', .inr hcrc⟩)
      | false =>
        simp only [checkCopy, hcrc, Bool.false_eq_true, if_false, Bool.not_false, if_true]
        refine hreplace (.inr ⟨hlt', ?_⟩)
        simp [Valid, hcopy, hcrc]

/-- The header of a PEB fits to a volume. -/
def Fits (fl : Flash) (p : Nat) (sv : ScanVolume) : Prop :=
  (fl.vidHdr p).volType = sv.volType ∧ (fl.vidHdr p).usedEbs = sv.usedEbs ∧
    (fl.vidHdr p).dataPad = sv.dataPad

/-- A PEB that fits the volume passes the check of its header. -/
theorem Fits.validate (h : Fits fl p sv) (hv : (fl.vidHdr p).volId = sv.volId) :
    validateVidHdr (fl.vidHdr p) sv = false := by
  simp [validateVidHdr, hv, h.1, h.2.1, h.2.2]

/-- All PEBs of a volume fit it if one does. -/
theorem Holds.fits (h : Holds fl v ps sv) (hp : Fits fl p sv) {q : Nat} (hq : q ∈ ps ++ [p]) :
    Fits fl q sv := by
  rcases List.mem_append.mp hq with hq | hq
  · exact h.same hq
  · obtain rfl := List.mem_singleton.mp hq
    exact hp

/-- The PEB that is scanned is newer than the one that was there. -/
theorem Chosen.update {leb : Nat → Option ScanLeb} (h : Chosen fl ps leb) {seb : ScanLeb}
    (he : Entry fl seb p) (hnew : Newest fl (ps ++ [p]) (fl.vidHdr p).lnum p) :
    Chosen fl (ps ++ [p]) (Function.update leb (fl.vidHdr p).lnum (some seb)) := by
  constructor
  case absent =>
    intro l hl q hq
    by_cases hlp : l = (fl.vidHdr p).lnum
    · rw [hlp, Function.update_self] at hl
      cases hl
    · rw [Function.update_of_ne hlp] at hl
      exact (ofLeb_append.mp hq).elim (h.absent hl q) fun hq => hlp hq.2.symm
  case newest =>
    intro l seb' hl
    by_cases hlp : l = (fl.vidHdr p).lnum
    · subst hlp
      rw [Function.update_self] at hl
      obtain rfl := Option.some.inj hl
      exact ⟨p, he, hnew⟩
    · rw [Function.update_of_ne hlp] at hl
      obtain ⟨q, hentry, hq⟩ := h.newest hl
      exact ⟨q, hentry, hq.other (Ne.symm hlp)⟩

/-- It is older. -/
theorem Chosen.keep {leb : Nat → Option ScanLeb} (h : Chosen fl ps leb) {seb : ScanLeb} {q : Nat}
    (hsome : leb (fl.vidHdr p).lnum = some seb) (he : Entry fl seb q)
    (hold : Newest fl (ps ++ [p]) (fl.vidHdr p).lnum q) : Chosen fl (ps ++ [p]) leb := by
  constructor
  case absent =>
    intro l hl q hq
    rcases ofLeb_append.mp hq with hq | ⟨-, rfl⟩
    · exact h.absent hl q hq
    · rw [hsome] at hl
      cases hl
  case newest =>
    intro l seb' hl
    by_cases hlp : (fl.vidHdr p).lnum = l
    · subst hlp
      obtain rfl := Option.some.inj (hsome.symm.trans hl)
      exact ⟨q, he, hold⟩
    · obtain ⟨q, hentry, hq⟩ := h.newest hl
      exact ⟨q, hentry, hq.other hlp⟩

/-- The first PEB of a LEB. -/
theorem Holds.first (h : Holds fl v ps sv) (hp : Fits fl p sv)
    (hnone : sv.leb (fl.vidHdr p).lnum = none) {seb : ScanLeb} (he : Entry fl seb p) :
    Holds fl v (ps ++ [p])
      { sv with
        highestLnum :=
          if sv.highestLnum ≤ (fl.vidHdr p).lnum then (fl.vidHdr p).lnum else sv.highestLnum
        lastDataSize :=
          if sv.highestLnum ≤ (fl.vidHdr p).lnum then (fl.vidHdr p).dataSize else sv.lastDataSize
        lebCount := sv.lebCount + 1
        leb := Function.update sv.leb (fl.vidHdr p).lnum (some seb) } := by
  have hfree := h.chosen.absent hnone
  constructor
  case volId => exact h.volId
  case same => exact h.fits hp
  case chosen => exact h.chosen.update he (Newest.first hfree)
  case lebCount =>
    have hnot : (fl.vidHdr p).lnum ∉ (ps.map fun p => (fl.vidHdr p).lnum).toFinset := by
      rw [List.mem_toFinset, List.mem_map]
      rintro ⟨q, hq, hl⟩
      exact hfree q ⟨hq, hl⟩
    have hset : ((ps ++ [p]).map fun p => (fl.vidHdr p).lnum).toFinset =
        insert (fl.vidHdr p).lnum (ps.map fun p => (fl.vidHdr p).lnum).toFinset := by
      ext x
      simp [eq_comm]
    rw [hset, Finset.card_insert_of_notMem hnot]
    exact congrArg (· + 1) h.lebCount
  case lnum_le =>
    intro q hq
    dsimp only
    rcases List.mem_append.mp hq with hq | hq
    · have := h.lnum_le hq
      split <;> omega
    · obtain rfl := List.mem_singleton.mp hq
      split <;> omega
  case highest =>
    dsimp only
    refine .inr ?_
    by_cases hle : sv.highestLnum ≤ (fl.vidHdr p).lnum
    · exact ⟨p, List.mem_append_right _ (List.mem_singleton_self p), (if_pos hle).symm⟩
    · obtain ⟨-, h0⟩ | ⟨q, hq, hl⟩ := h.highest
      · omega
      · exact ⟨q, List.mem_append_left _ hq, hl.trans (if_neg hle).symm⟩
  case lastDataSize =>
    intro seb' hl
    dsimp only at hl ⊢
    -- The data size is that of the highest LEB, which may be this one.
    by_cases hle : sv.highestLnum ≤ (fl.vidHdr p).lnum
    · rw [if_pos hle, Function.update_self] at hl
      obtain rfl := Option.some.inj hl
      rw [if_pos hle, he.pnum]
    · rw [if_neg hle, Function.update_of_ne (by omega)] at hl
      rw [if_neg hle]
      exact h.lastDataSize hl

/-- A further PEB of a LEB. -/
theorem Holds.again (h : Holds fl v ps sv) (hp : Fits fl p sv) {q : Nat}
    (hq : OfLeb fl ps (fl.vidHdr p).lnum q) {sv' : ScanVolume}
    (hsv : sv' = { sv with leb := sv'.leb, lastDataSize := sv'.lastDataSize })
    (hchosen : Chosen fl (ps ++ [p]) sv'.leb)
    (hlast : ∀ {seb}, sv'.leb sv.highestLnum = some seb →
      sv'.lastDataSize = (fl.vidHdr seb.pnum).dataSize) : Holds fl v (ps ++ [p]) sv' := by
  constructor
  case volId =>
    rw [hsv]
    exact h.volId
  case same =>
    rw [hsv]
    exact h.fits hp
  case chosen => exact hchosen
  case lebCount =>
    have hset : ((ps ++ [p]).map fun p => (fl.vidHdr p).lnum).toFinset =
        (ps.map fun p => (fl.vidHdr p).lnum).toFinset := by
      ext x
      simp only [List.mem_toFinset, List.mem_map, List.mem_append, List.mem_singleton]
      constructor
      · rintro ⟨q', hq' | rfl, rfl⟩
        · exact ⟨q', hq', rfl⟩
        · exact ⟨q, hq.1, hq.2⟩
      · rintro ⟨q', hq', rfl⟩
        exact ⟨q', .inl hq', rfl⟩
    rw [hset, hsv]
    exact h.lebCount
  case lnum_le =>
    intro q' hq'
    rw [hsv]
    rcases List.mem_append.mp hq' with hq' | hq'
    · exact h.lnum_le hq'
    · obtain rfl := List.mem_singleton.mp hq'
      exact hq.2 ▸ h.lnum_le hq.1
  case highest =>
    rw [hsv]
    obtain ⟨rfl, -⟩ | ⟨q', hq', hl⟩ := h.highest
    · cases hq.1
    · exact .inr ⟨q', List.mem_append_left _ hq', hl⟩
  case lastDataSize =>
    intro seb hl
    rw [hsv] at hl
    exact hlast hl

/-- A PEB that is better than the one of its LEB so far. -/
theorem Holds.replace (h : Holds fl v ps sv) (hp : Fits fl p sv) {q : Nat}
    (hq : OfLeb fl ps (fl.vidHdr p).lnum q) {seb : ScanLeb} (he : Entry fl seb p)
    (hnew : Newest fl (ps ++ [p]) (fl.vidHdr p).lnum p) :
    Holds fl v (ps ++ [p])
      { sv with
        leb := Function.update sv.leb (fl.vidHdr p).lnum (some seb)
        lastDataSize :=
          if sv.highestLnum = (fl.vidHdr p).lnum then (fl.vidHdr p).dataSize
          else sv.lastDataSize } := by
  refine h.again hp hq rfl (h.chosen.update he hnew) fun {seb'} hl => ?_
  dsimp only at hl ⊢
  by_cases heq : sv.highestLnum = (fl.vidHdr p).lnum
  · rw [heq, Function.update_self] at hl
    obtain rfl := Option.some.inj hl
    rw [if_pos heq, he.pnum]
  · rw [Function.update_of_ne heq] at hl
    rw [if_neg heq]
    exact h.lastDataSize hl

/-! ## The list of PEBs to erase -/

/-- The list of PEBs to erase gets one more, at either end. -/
theorem addToErase_perm (si : ScanInfo) (pnum ec : Nat) (toHead : Bool) :
    (si.addToErase pnum ec toHead).erase.Perm (si.erase ++ [(pnum, ec)]) := by
  cases toHead with
  | true => exact (List.perm_append_singleton (pnum, ec) si.erase).symm
  | false => exact List.Perm.refl _

/-- One element more is taken by a filter. -/
theorem filter_perm_cons {f f' : Nat → Bool} {q : Nat} (hnd : ps.Nodup) (hq : q ∈ ps)
    (hf : f q = false) (hf' : f' q = true) (hsame : ∀ x ∈ ps, x ≠ q → f' x = f x) :
    (ps.filter f').Perm (ps.filter f ++ [q]) := by
  refine (List.perm_ext_iff_of_nodup (hnd.filter _) ?_).mpr fun x => ?_
  · refine List.nodup_append.mpr ⟨hnd.filter _, List.nodup_singleton q, ?_⟩
    rintro a ha b hb rfl
    obtain rfl := List.mem_singleton.mp hb
    rw [(List.mem_filter.mp ha).2] at hf
    cases hf
  · rw [List.mem_append, List.mem_singleton, List.mem_filter, List.mem_filter]
    by_cases hx : x = q
    · subst hx
      simp [hq, hf']
    · constructor
      · rintro ⟨hmem, hx'⟩
        exact .inl ⟨hmem, (hsame x hmem hx) ▸ hx'⟩
      · rintro (⟨hmem, hx'⟩ | rfl)
        · exact ⟨hmem, (hsame x hmem hx).trans hx'⟩
        · exact absurd rfl hx

/-- What is in use when the LEB goes to another PEB. -/
theorem uses_update {sv' : ScanVolume} {seb : ScanLeb}
    (hleb : sv'.leb = Function.update sv.leb (fl.vidHdr p).lnum (some seb)) (x : Nat) :
    sv'.uses fl x =
      if (fl.vidHdr x).lnum = (fl.vidHdr p).lnum then seb.pnum == x else sv.uses fl x := by
  rw [ScanVolume.uses, hleb]
  by_cases hx : (fl.vidHdr x).lnum = (fl.vidHdr p).lnum
  · rw [if_pos hx, hx, Function.update_self]
    rfl
  · rw [if_neg hx, Function.update_of_ne hx]
    rfl

/-- The first PEB of a LEB leaves the unused ones as they are. -/
theorem unused_first {sv' : ScanVolume} {seb : ScanLeb} (he : Entry fl seb p)
    (hfree : ∀ q, ¬OfLeb fl ps (fl.vidHdr p).lnum q)
    (hleb : sv'.leb = Function.update sv.leb (fl.vidHdr p).lnum (some seb)) :
    ((ps ++ [p]).filter fun x => !sv'.uses fl x) = ps.filter fun x => !sv.uses fl x := by
  have hself : sv'.uses fl p = true := by
    rw [uses_update hleb, if_pos rfl, he.pnum]
    exact beq_self_eq_true p
  rw [List.filter_append, List.filter_cons_of_neg (by simp [hself]), List.filter_nil,
    List.append_nil]
  refine List.filter_congr fun x hx => ?_
  rw [uses_update hleb, if_neg fun hl => hfree x ⟨hx, hl⟩]

/-- A newer one puts the older one among them. -/
theorem unused_replace {sv' : ScanVolume} {seb seb' : ScanLeb} {q : Nat}
    (hnd : (ps ++ [p]).Nodup) (he : Entry fl seb q) (he' : Entry fl seb' p) (hq : q ∈ ps)
    (hsome : sv.leb (fl.vidHdr p).lnum = some seb) (hl : (fl.vidHdr q).lnum = (fl.vidHdr p).lnum)
    (hleb : sv'.leb = Function.update sv.leb (fl.vidHdr p).lnum (some seb')) :
    ((ps ++ [p]).filter fun x => !sv'.uses fl x).Perm
      ((ps.filter fun x => !sv.uses fl x) ++ [q]) := by
  obtain ⟨hps, -, hne⟩ := List.nodup_append.mp hnd
  have hself : sv'.uses fl p = true := by
    rw [uses_update hleb, if_pos rfl, he'.pnum]
    exact beq_self_eq_true p
  rw [List.filter_append, List.filter_cons_of_neg (by simp [hself]), List.filter_nil,
    List.append_nil]
  have hold : ∀ x, (fl.vidHdr x).lnum = (fl.vidHdr p).lnum → sv.uses fl x = (q == x) := by
    intro x hx
    rw [ScanVolume.uses, hx, hsome, Option.any_some, he.pnum]
  have hnot : ∀ x ∈ ps, (p == x) = false := fun x hx => by
    simpa using (hne x hx p (List.mem_singleton_self p)).symm
  refine filter_perm_cons hps hq ?_ ?_ fun x hx hxq => ?_
  · rw [hold q hl, beq_self_eq_true]
    rfl
  · rw [uses_update hleb, if_pos hl, he'.pnum, hnot q hq]
    rfl
  · rw [uses_update hleb]
    by_cases hxl : (fl.vidHdr x).lnum = (fl.vidHdr p).lnum
    · rw [if_pos hxl, he'.pnum, hnot x hx, hold x hxl]
      simpa using hxq.symm
    · rw [if_neg hxl]

/-- An older one goes there itself. -/
theorem unused_keep {seb : ScanLeb} {q : Nat} (he : Entry fl seb q) (hne : q ≠ p)
    (hsome : sv.leb (fl.vidHdr p).lnum = some seb) :
    ((ps ++ [p]).filter fun x => !sv.uses fl x) = (ps.filter fun x => !sv.uses fl x) ++ [p] := by
  have hself : sv.uses fl p = false := by
    rw [ScanVolume.uses, hsome, Option.any_some, he.pnum]
    simpa using hne
  rw [List.filter_append, List.filter_cons_of_pos (by simp [hself]), List.filter_nil]

/-! ## The scan -/

/-- Scanning has not met the volume yet, or has found it. -/
def Before (fl : Flash) (v : Nat) (si₀ : ScanInfo) (ps : List Nat) (si : ScanInfo) : Prop :=
  (ps = [] ∧ si = si₀ ∧ si₀.volumes v = none) ∨
    ∃ sv, si.volumes v = some sv ∧ ps ≠ [] ∧ Scanned fl v si₀ ps si sv

theorem Scanned.congr (h : Scanned fl v si₀ ps si sv) {si' : ScanInfo} (he : si'.erase = si.erase)
    (hm : si'.maxSqnum = si.maxSqnum) : Scanned fl v si₀ ps si' sv where
  holds := h.holds
  erase := he ▸ h.erase
  sqnum_le hp := hm ▸ h.sqnum_le hp
  maxSqnum_le := hm ▸ h.maxSqnum_le
  maxSqnum := hm ▸ h.maxSqnum

/-- The volume is found, or added. -/
theorem addVolume_spec (hc : Consistent fl v (ps ++ [p])) (h : Before fl v si₀ ps si) :
    ∃ si₁ sv, addVolume si (fl.vidHdr p) = (si₁, sv) ∧ Scanned fl v si₀ ps si₁ sv ∧
      si₁.volumes v = some sv ∧ Fits fl p sv := by
  have hmem : p ∈ ps ++ [p] := List.mem_append_right _ (List.mem_singleton_self p)
  have hv := hc.volId hmem
  rcases h with ⟨rfl, rfl, hnone⟩ | ⟨sv, hsome, hne, hscan⟩
  · rw [← hv] at hnone
    refine ⟨_, newVolume (fl.vidHdr p), by simp only [addVolume, hnone]; rfl, ?_, ?_, rfl, rfl, rfl⟩
    · refine ⟨Holds.newVolume hv, ?_, nofun, Nat.le_refl _, .inl rfl⟩
      simp
    · rw [← hv]
      exact Function.update_self ..
  · refine ⟨si, sv, by simp only [addVolume, hv, hsome], hscan, hsome, ?_⟩
    obtain ⟨q, hq⟩ := List.exists_mem_of_ne_nil ps hne
    obtain ⟨h1, h2, h3⟩ := hscan.holds.same hq
    obtain ⟨h1', h2', h3'⟩ := hc.same hmem (List.mem_append_left [p] hq)
    exact ⟨h1'.trans h1, h2'.trans h2, h3'.trans h3⟩

/-- What has been scanned when one PEB more is known to be on the list or in the tree. -/
theorem Scanned.next (h : Scanned fl v si₀ ps si sv) {si' : ScanInfo} {sv' : ScanVolume}
    (hh : Holds fl v (ps ++ [p]) sv') (hm : si'.maxSqnum = max si.maxSqnum (fl.vidHdr p).sqnum)
    (es : List Nat) (he : si'.erase.Perm (si.erase ++ es.map fun p => (p, fl.ec p)))
    (hu : ((ps ++ [p]).filter fun x => !sv'.uses fl x).Perm
      ((ps.filter fun x => !sv.uses fl x) ++ es)) : Scanned fl v si₀ (ps ++ [p]) si' sv' := by
  have hle := h.maxSqnum_le
  constructor
  case holds => exact hh
  case erase =>
    refine he.trans ((h.erase.append_right _).trans ?_)
    rw [List.append_assoc, ← List.map_append]
    exact (hu.symm.map _).append_left _
  case sqnum_le =>
    intro q hq
    rw [hm]
    rcases List.mem_append.mp hq with hq | hq
    · have := h.sqnum_le hq
      omega
    · obtain rfl := List.mem_singleton.mp hq
      omega
  case maxSqnum_le => omega
  case maxSqnum =>
    rw [hm]
    by_cases hlt : si.maxSqnum ≤ (fl.vidHdr p).sqnum
    · exact .inr ⟨p, List.mem_append_right _ (List.mem_singleton_self p), by omega⟩
    · rw [Nat.max_eq_left (Nat.le_of_not_le hlt)]
      rcases h.maxSqnum with heq | ⟨q, hq, heq⟩
      · exact .inl heq
      · exact .inr ⟨q, List.mem_append_left _ hq, heq⟩

/-- One more PEB is scanned. -/
theorem ubiScanAddUsed_spec (hc : Consistent fl v (ps ++ [p])) (h : Before fl v si₀ ps si)
    (b : Bool) :
    ∃ si', ubiScanAddUsed fl si p b = some si' ∧ Before fl v si₀ (ps ++ [p]) si' := by
  obtain ⟨si₁, sv, hadd, hscan, hvol, hfits⟩ := addVolume_spec hc h
  have hmem : p ∈ ps ++ [p] := List.mem_append_right _ (List.mem_singleton_self p)
  have hval := hfits.validate ((hc.volId hmem).trans hscan.holds.volId.symm)
  have hne : ps ++ [p] ≠ [] := by simp
  unfold ubiScanAddUsed
  simp only [hadd, hval]
  cases hleb : sv.leb (fl.vidHdr p).lnum with
  | none =>
    -- The first PEB of the LEB: nothing is left over.
    let seb : ScanLeb :=
      { ec := fl.ec p, pnum := p, lnum := (fl.vidHdr p).lnum, scrub := b,
        copyFlag := (fl.vidHdr p).copyFlag, sqnum := (fl.vidHdr p).sqnum }
    have he : Entry fl seb p := ⟨rfl, rfl, rfl, rfl, rfl⟩
    have hholds := hscan.holds.first hfits hleb he
    refine ⟨_, rfl, .inr ⟨_, ?_, hne, hscan.next hholds rfl [] ?_ ?_⟩⟩
    · rw [← hholds.volId]
      exact Function.update_self ..
    · simp [ScanInfo.setVolume]
    · rw [List.append_nil, unused_first he (hscan.holds.chosen.absent hleb) rfl]
  | some seb =>
    obtain ⟨q, he, hq⟩ := hscan.holds.chosen.newest hleb
    have hqp : q ≠ p := by
      rintro rfl
      exact (List.nodup_append.mp hc.nodup).2.2 q hq.mem.1 q (List.mem_singleton_self q) rfl
    have hsq : (fl.vidHdr q).sqnum ≠ (fl.vidHdr p).sqnum := fun heq =>
      hqp (hc.inj (List.mem_append_left _ hq.mem.1) hmem heq)
    obtain ⟨cmp, hcmp, hbest⟩ := compareLebs_spec he hq hsq
    have hsq' : ¬(seb.sqnum = (fl.vidHdr p).sqnum ∧ (fl.vidHdr p).sqnum ≠ 0) :=
      fun h => hsq (he.sqnum.symm.trans h.1)
    simp only [if_neg hsq', hcmp]
    -- The older of the two PEBs is left over: the one that was kept, or this one.
    cases hnew : cmp.secondIsNewer with
    | true =>
      rw [hnew] at hbest
      have he' : Entry fl
          { seb with
            ec := fl.ec p
            pnum := p
            scrub := cmp.bitflips || b
            copyFlag := (fl.vidHdr p).copyFlag
            sqnum := (fl.vidHdr p).sqnum } p :=
        ⟨rfl, rfl, he.lnum.trans hq.mem.2, rfl, rfl⟩
      have hholds := hscan.holds.replace hfits hq.mem he' hbest
      refine ⟨_, rfl, .inr ⟨_, ?_, hne, hscan.next hholds rfl [q] ?_ ?_⟩⟩
      · rw [← hholds.volId]
        exact Function.update_self ..
      · rw [he.pnum, he.ec]
        exact addToErase_perm ..
      · exact unused_replace hc.nodup he he' hq.mem.1 hleb hq.mem.2 rfl
    | false =>
      rw [hnew] at hbest
      have hholds := hscan.holds.again hfits hq.mem rfl
        (hscan.holds.chosen.keep hleb he hbest) hscan.holds.lastDataSize
      refine ⟨_, rfl, .inr ⟨sv, hvol, hne, hscan.next hholds rfl [p] ?_ ?_⟩⟩
      · exact addToErase_perm ..
      · rw [unused_keep he hqp hleb]

/-- All PEBs are scanned. -/
theorem scan_spec {qs : List Nat} (hc : Consistent fl v (ps ++ qs)) (h : Before fl v si₀ ps si) :
    ∃ si', scan fl bitflips si qs = some si' ∧ Before fl v si₀ (ps ++ qs) si' := by
  induction qs generalizing ps si with
  | nil => exact ⟨si, rfl, by rwa [List.append_nil]⟩
  | cons p qs ih =>
    rw [List.append_cons] at hc ⊢
    have hc' : Consistent fl v (ps ++ [p]) :=
      { volId := fun hq => hc.volId (List.mem_append_left _ hq)
        same := fun hq hq' => hc.same (List.mem_append_left _ hq) (List.mem_append_left _ hq')
        sqnum := by
          have := hc.sqnum
          rw [List.map_append] at this
          exact (List.nodup_append.mp this).1 }
    obtain ⟨si₁, hadd, hbefore⟩ := ubiScanAddUsed_spec hc' h (bitflips p)
    obtain ⟨si', hscan, hafter⟩ := ih hc hbefore
    exact ⟨si', by simp only [scan, hadd, hscan], hafter⟩

theorem Newest.perm (hp : ps'.Perm ps) : Newest fl ps' l p ↔ Newest fl ps l p := by
  have hset : ∀ b, OfLeb fl ps' l b ↔ OfLeb fl ps l b := fun b => by rw [OfLeb, OfLeb, hp.mem_iff]
  exact ⟨fun h => h.congr hset, fun h => h.congr fun b => (hset b).symm⟩

/-- What a LEB is mapped to in the end is its newest PEB. -/
theorem Chosen.iff (hc : Consistent fl v ps) {leb : Nat → Option ScanLeb} (h : Chosen fl ps leb) :
    (leb l).map (·.pnum) = some p ↔ Newest fl ps l p := by
  constructor
  · intro hl
    obtain ⟨seb, hseb, rfl⟩ := Option.map_eq_some_iff.mp hl
    obtain ⟨q, he, hq⟩ := h.newest hseb
    rwa [he.pnum]
  · intro hnew
    cases hl : leb l with
    | none => exact absurd hnew.mem (h.absent hl p)
    | some seb =>
      obtain ⟨q, he, hq⟩ := h.newest hl
      obtain rfl := Best.unique (fun a b ha hb => hc.inj ha.1 hb.1) hq hnew
      rw [Option.map_some, he.pnum]

/-- What scanning has found, when `best` is the PEB to take for each LEB. -/
structure Result (fl : Flash) (si₀ : ScanInfo) (ps : List Nat) (best : Nat → Option Nat)
    (si : ScanInfo) (sv : ScanVolume) : Prop where
  leb (l : Nat) : (sv.leb l).map (·.pnum) = best l
  entry {l : Nat} {seb : ScanLeb} : sv.leb l = some seb → Entry fl seb seb.pnum
  erase : si.erase.Perm (si₀.erase ++
    (ps.filter fun p => best (fl.vidHdr p).lnum ≠ some p).map fun p => (p, fl.ec p))
  lebCount : sv.lebCount = (ps.map fun p => (fl.vidHdr p).lnum).toFinset.card
  highestLnum : (best sv.highestLnum).isSome = true ∧
    ∀ l, (best l).isSome = true → l ≤ sv.highestLnum
  lastDataSize {p : Nat} : best sv.highestLnum = some p →
    sv.lastDataSize = (fl.vidHdr p).dataSize
  maxSqnum : si₀.maxSqnum ≤ si.maxSqnum ∧ (∀ p ∈ ps, (fl.vidHdr p).sqnum ≤ si.maxSqnum) ∧
    (si.maxSqnum = si₀.maxSqnum ∨ ∃ p ∈ ps, (fl.vidHdr p).sqnum = si.maxSqnum)

/-- So the result does not tell in which order it was scanned. -/
theorem Scanned.result (hc : Consistent fl v ps) (hne : ps ≠ []) {best : Nat → Option Nat}
    (hbest : ∀ l p, best l = some p ↔ Newest fl ps l p) (hp : ps'.Perm ps)
    (h : Scanned fl v si₀ ps' si sv) : Result fl si₀ ps best si sv := by
  have hh := h.holds
  have hleb : ∀ l, (sv.leb l).map (·.pnum) = best l := fun l =>
    Option.ext fun p => (hh.chosen.iff (hc.perm hp)).trans ((Newest.perm hp).trans (hbest l p).symm)
  have hsome : ∀ {p}, p ∈ ps → (best (fl.vidHdr p).lnum).isSome = true := by
    intro p hpp
    rw [← hleb, Option.isSome_map]
    cases hl : sv.leb (fl.vidHdr p).lnum with
    | none => exact absurd ⟨hp.mem_iff.mpr hpp, rfl⟩ (hh.chosen.absent hl p)
    | some seb => rfl
  constructor
  case leb => exact hleb
  case entry =>
    intro l seb hl
    obtain ⟨q, he, -⟩ := hh.chosen.newest hl
    exact he.pnum.symm ▸ he
  case erase =>
    refine h.erase.trans (List.Perm.append_left _ ?_)
    refine (hp.filter _).map _ |>.trans ?_
    refine List.Perm.of_eq (congrArg _ (List.filter_congr fun x _ => ?_))
    rw [← hleb, ScanVolume.uses]
    cases sv.leb (fl.vidHdr x).lnum with
    | none => rfl
    | some seb => by_cases hx : seb.pnum = x <;> simp [hx]
  case lebCount =>
    rw [hh.lebCount]
    exact congrArg Finset.card (List.toFinset_eq_of_perm _ _ (hp.map _))
  case highestLnum =>
    constructor
    · obtain ⟨rfl, -⟩ | ⟨q, hq, hl⟩ := hh.highest
      · exact absurd hp.symm.eq_nil hne
      · exact hl ▸ hsome (hp.mem_iff.mp hq)
    · intro l hl
      obtain ⟨p, hpl⟩ := Option.isSome_iff_exists.mp hl
      have hmem := ((hbest l p).mp hpl).mem
      exact hmem.2 ▸ hh.lnum_le (hp.mem_iff.mpr hmem.1)
  case lastDataSize =>
    intro p hpl
    rw [← hleb] at hpl
    obtain ⟨seb, hseb, rfl⟩ := Option.map_eq_some_iff.mp hpl
    exact hh.lastDataSize hseb
  case maxSqnum =>
    refine ⟨h.maxSqnum_le, fun p hpp => h.sqnum_le (hp.mem_iff.mpr hpp), ?_⟩
    rcases h.maxSqnum with heq | ⟨p, hpp, heq⟩
    · exact .inl heq
    · exact .inr ⟨p, hp.mem_iff.mp hpp, heq⟩

/-- The PEBs of a volume can be scanned in any order: for each LEB the same PEB is found, the newest
    one that is valid or else the oldest one. -/
theorem scan_any_order (hc : Consistent fl v ps) (hnew : si₀.volumes v = none) :
    ∃ best : Nat → Option Nat, (∀ l p, best l = some p ↔ Newest fl ps l p) ∧
      ∀ ps' bitflips, ps'.Perm ps → ∃ si, scan fl bitflips si₀ ps' = some si ∧
        ((ps = [] ∧ si = si₀) ∨
          ∃ sv, si.volumes v = some sv ∧ Result fl si₀ ps best si sv) := by
  have hrun : ∀ ps' bitflips, ps'.Perm ps → ∃ si, scan fl bitflips si₀ ps' = some si ∧
      Before fl v si₀ ps' si := by
    intro ps' bitflips hp
    have hc' : Consistent fl v ([] ++ ps') := hc.perm hp
    exact scan_spec hc' (.inl ⟨rfl, rfl, hnew⟩)
  obtain ⟨si, -, hfirst⟩ := hrun ps (fun _ => false) (List.Perm.refl ps)
  obtain ⟨rfl, -⟩ | ⟨sv, -, hne, hscanned⟩ := hfirst
  · refine ⟨fun _ => none, fun l p => ⟨nofun, fun hp => by cases hp.mem.1⟩, ?_⟩
    intro ps' bitflips hp
    obtain rfl := hp.eq_nil
    exact ⟨si₀, rfl, .inl ⟨rfl, rfl⟩⟩
  · have hbest : ∀ l p, (sv.leb l).map (·.pnum) = some p ↔ Newest fl ps l p :=
      fun l p => hscanned.holds.chosen.iff hc
    refine ⟨fun l => (sv.leb l).map (·.pnum), hbest, fun ps' bitflips hp => ?_⟩
    obtain ⟨si', hscan, hbefore⟩ := hrun ps' bitflips hp
    refine ⟨si', hscan, .inr ?_⟩
    obtain ⟨rfl, -⟩ | ⟨sv', hvol, -, hafter⟩ := hbefore
    · exact absurd hp.symm.eq_nil hne
    · exact ⟨sv', hvol, hafter.result hc hne hbest hp⟩

/-- Two PEBs with LEB 0: PEB 1 is a newer copy that is not complete. -/
def tornCopy : Flash where
  ec _ := 5
  vidHdr p :=
    { volType := .dynamic, volId := 0, lnum := 0, usedEbs := 0, dataPad := 0, compat := 0
      copyFlag := p == 1, sqnum := p + 1, dataSize := 4, dataCrc := 0 }
  data _ := [1, 2, 3, 4]
  dataBitflips _ := false
  crc32 data := if data = [1, 2, 3, 4] then 7 else 0

/-- Before the first PEB. -/
def nothingFound : ScanInfo where
  volumes _ := none
  erase := []
  maxSqnum := 0
  highestVolId := 0
  volsFound := 0

/-- A copy that was not finished, and its original. -/
theorem tornCopy_consistent : Consistent tornCopy 0 [0, 1] where
  volId _ := rfl
  same _ _ := ⟨rfl, rfl, rfl⟩
  sqnum := by decide

theorem scan_any_order_tornCopy : ∃ best : Nat → Option Nat,
    (∀ l p, best l = some p ↔ Newest tornCopy [0, 1] l p) ∧
      ∀ ps' bitflips, ps'.Perm [0, 1] →
        ∃ si, scan tornCopy bitflips nothingFound ps' = some si ∧
          (([0, 1] = [] ∧ si = nothingFound) ∨
            ∃ sv, si.volumes 0 = some sv ∧ Result tornCopy nothingFound [0, 1] best si sv) :=
  scan_any_order tornCopy_consistent rfl

/-- PEB 0 is found, but the highest sequence number is that of PEB 1. -/
theorem dropped_sqnum_counts : Consistent tornCopy 0 [0, 1] ∧
    ∃ si sv seb, scan tornCopy (fun _ => false) nothingFound [0, 1] = some si ∧
      si.volumes 0 = some sv ∧ sv.leb 0 = some seb ∧ (∀ l, l ≠ 0 → sv.leb l = none) ∧
      seb.pnum = 0 ∧ seb.sqnum = 1 ∧ si.maxSqnum = 2 := by
  refine ⟨tornCopy_consistent, _, _, _, rfl, rfl, rfl, fun l hl => ?_, rfl, rfl, rfl⟩
  exact Function.update_of_ne hl _ _

end Ubi.Scan
