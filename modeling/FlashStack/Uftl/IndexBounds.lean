/-
  The sector numbers `create_index` finds on flash, and the tables it looks them up in.

  A number read from a log page or from the trailer of a page goes into the sector tables with no
  check but that of the 16-bit magic number beside it.  `Visits` lists the look-ups of a scan, each
  with the state it is made in; `InTables` says that one stays inside the tables.  `LogAccess` lists
  the entries of log pages that the scan reads or writes in its buffers, which have `leb_page_size`
  bytes: no check keeps `ftl_page_num` entries inside of them, and what is behind a buffer may be any
  number.

  Which of the blocks are looked at depends on the read errors of the scan.  With every pattern of
  them allowed the scan stays inside exactly when what is on flash in every block does (`LebFits`).
-/
import FlashStack.Uftl.ReadBack

namespace Uftl

open Lib Lib.Prog

variable {fip : UftlInfo} {vol : Volume} {s : State} {n : Nat}

/-! ## The look-ups of a scan -/

/-- The round of `indexLogged` for page `page`. -/
def indexEntry (fip : UftlInfo) (block : Nat) (curLog : LogPage) (page : Nat) : M Unit := do
  let sector ← getLogEntry fip curLog page
  let _ ← indexPage fip block page sector curLog.id
  pure ()

/-- The loop over the entries of a log page. -/
theorem indexLogged_eq (block : Nat) (curLog : LogPage) :
    indexLogged fip block curLog = forUpto fip.ftlPageNum (indexEntry fip block curLog) := rfl

/-- `create_index`, called in `s`, comes to page `page` of `block` in state `s₁`, and looks up the
    sector number it finds for the page there, with the id beside it. -/
inductive Visits (fip : UftlInfo) (s : State) : Nat → Nat → Int → Int → State → Prop
  | logged {block page : Nat} {log : LogPage} {s₁ s₂ s₃ : State} {t₁ t₂ t₃ : List Event}
      (hb : block < fip.lebNum)
      (hbefore : forUpto block (createIndexBlock fip) (resetIndex fip s) = .ok () s₁ t₁)
      (hlog : ftlReadLog fip block s₁ = .ok log s₂ t₂) (hmagic : log.magic = magicNum)
      (hp : page < fip.ftlPageNum)
      (hpages : forUpto page (indexEntry fip block log) s₂ = .ok () s₃ t₃)
      (hin : fip.inLogPage page) : Visits fip s block page (log.entry page) log.id s₃
  | unlogged {block page : Nat} {log : LogPage} {pg : Page} {s₁ s₂ s₃ s₄ : State}
      {t₁ t₂ t₃ t₄ : List Event} (hb : block < fip.lebNum)
      (hbefore : forUpto block (createIndexBlock fip) (resetIndex fip s) = .ok () s₁ t₁)
      (hlog : ftlReadLog fip block s₁ = .ok log s₂ t₂) (hmagic : log.magic ≠ magicNum)
      (hcur : s₂.ftl.curOffset.block = ftlNomap) (hp : page < fip.ftlPageNum)
      (hpages : scanOpenBlock fip block page 0 s₂ = .ok page s₃ t₃)
      (hread : ftlRead fip block page s₃ = .ok pg s₄ t₄) (hpg : pg.log.magic = magicNum) :
      Visits fip s block page pg.log.sector pg.log.id s₄

/-- `create_index`, called in `s`, reads entry `page` of the log page in `tmp_page_buf`, or writes it in
    `block_log_page` after a look-up. -/
inductive LogAccess (fip : UftlInfo) (s : State) : Nat → Prop
  | read {block page : Nat} {log : LogPage} {s₁ s₂ s₃ : State} {t₁ t₂ t₃ : List Event}
      (hb : block < fip.lebNum)
      (hbefore : forUpto block (createIndexBlock fip) (resetIndex fip s) = .ok () s₁ t₁)
      (hlog : ftlReadLog fip block s₁ = .ok log s₂ t₂) (hmagic : log.magic = magicNum)
      (hp : page < fip.ftlPageNum)
      (hpages : forUpto page (indexEntry fip block log) s₂ = .ok () s₃ t₃) : LogAccess fip s page
  | write {block page : Nat} {log : LogPage} {pg : Page} {s₁ s₂ s₃ s₄ s₅ : State}
      {t₁ t₂ t₃ t₄ t₅ : List Event} (hb : block < fip.lebNum)
      (hbefore : forUpto block (createIndexBlock fip) (resetIndex fip s) = .ok () s₁ t₁)
      (hlog : ftlReadLog fip block s₁ = .ok log s₂ t₂) (hmagic : log.magic ≠ magicNum)
      (hcur : s₂.ftl.curOffset.block = ftlNomap) (hp : page < fip.ftlPageNum)
      (hpages : scanOpenBlock fip block page 0 s₂ = .ok page s₃ t₃)
      (hread : ftlRead fip block page s₃ = .ok pg s₄ t₄) (hpg : pg.log.magic = magicNum)
      (htaken : indexPage fip block page pg.log.sector pg.log.id s₄ = .ok true s₅ t₅) :
      LogAccess fip s page

/-- `virtual_sector_num` sectors have an entry in the tables. -/
def UftlInfo.hasSector (fip : UftlInfo) (sector : Int) : Prop :=
  0 ≤ sector ∧ sector < fip.virtualSectorNum

instance (fip : UftlInfo) (sector : Int) : Decidable (fip.hasSector sector) :=
  inferInstanceAs (Decidable (_ ∧ _))

/-- Looking up `sector` in `s` stays inside the tables, and so does the page it leads to. -/
structure InTables (fip : UftlInfo) (sector id : Int) (s : State) : Prop where
  inRange : fip.hasSector sector
  page : ¬s.sectorId sector.toNat > id → s.ftl.sectorIndex sector.toNat ≠ ftlNomap →
    fip.inBlockTable ((s.ftl.sectorIndex sector.toNat).tdiv fip.ftlPageNum)
      ((s.ftl.sectorIndex sector.toNat).tmod fip.ftlPageNum)

/-- The scan that `create_index` makes from `s` stays inside the tables and the buffers. -/
structure StaysInside (fip : UftlInfo) (s : State) : Prop where
  tables : ∀ b p sector id s₁, Visits fip s b p sector id s₁ → InTables fip sector id s₁
  buffers : ∀ p, LogAccess fip s p → fip.inLogPage p

theorem UftlInfo.hasSector.toNat_lt {sector : Int} (h : fip.hasSector sector) :
    sector.toNat < fip.virtualSectorNum := by
  have h0 := h.1
  have h1 := h.2
  omega

/-- A sector of the device is in the tables. -/
theorem UftlInfo.hasSector.inTable {sector : Int} (h : fip.hasSector sector) :
    fip.inSectorTable sector := by
  obtain ⟨v, rfl⟩ := Int.eq_ofNat_of_zero_le h.1
  exact inSectorTable_of_lt (Int.ofNat_lt.mp h.2)

/-! ## One look-up -/

/-- `sector_index` names pages of the volume only. -/
def PagesIn (fip : UftlInfo) (f : Ftl) : Prop :=
  ∀ v, v < fip.virtualSectorNum → f.sectorIndex v = ftlNomap ∨
    ∃ b p, b < fip.lebNum ∧ p < fip.ftlPageNum ∧ f.sectorIndex v = fip.pageIndex b p

theorem inBlockTable_of_lt {b p : Nat} (hb : b < fip.lebNum) (hp : p < fip.ftlPageNum) :
    fip.inBlockTable b p := by
  unfold UftlInfo.inBlockTable
  omega

/-- A page the index names is in `block_state_index`. -/
theorem PagesIn.inTable {f : Ftl} (h : PagesIn fip f) {v : Nat} (hv : v < fip.virtualSectorNum)
    (hne : f.sectorIndex v ≠ ftlNomap) :
    fip.inBlockTable ((f.sectorIndex v).tdiv fip.ftlPageNum)
      ((f.sectorIndex v).tmod fip.ftlPageNum) := by
  obtain ⟨b, p, hb, hp, hi⟩ := (h v hv).resolve_left hne
  rw [hi, pageIndex_tdiv hp, pageIndex_tmod hp]
  exact inBlockTable_of_lt hb hp

theorem PagesIn.inTables {sector : Int} (h : PagesIn fip s.ftl) (hs : fip.hasSector sector)
    (id : Int) : InTables fip sector id s := by
  refine ⟨hs, fun _ hne => ?_⟩
  have h0 := hs.1
  have h1 := hs.2
  exact h.inTable (by omega) hne

/-- Naming another page of the volume. -/
theorem PagesIn.update {f : Ftl} (h : PagesIn fip f) {v b p : Nat} (hb : b < fip.lebNum)
    (hp : p < fip.ftlPageNum) :
    PagesIn fip { f with sectorIndex := Function.update f.sectorIndex v (fip.pageIndex b p) } := by
  intro w hw
  show Function.update f.sectorIndex v _ w = _ ∨ _
  by_cases hvw : w = v
  · subst hvw
    exact .inr ⟨b, p, hb, hp, Function.update_self ..⟩
  · have hw' := h w hw
    rw [← Function.update_of_ne (f := f.sectorIndex) hvw (fip.pageIndex b p)] at hw'
    exact hw'

/-- What a look-up does not touch. -/
structure LookupFrame (s s' : State) : Prop where
  vol : s'.vol = s.vol
  env : s'.env = s.env

theorem wp_setPageState_in {A G : Event → Prop} {Q : Unit → State → Prop}
    {E : Exit → State → Prop} {b p : Int} {st : PageState} (h : fip.inBlockTable b p) :
    wp A G (setPageState fip b p st) Q E s ↔
      Q () (s.onFtl fun f => f.setState b.toNat p.toNat st) := by
  unfold setPageState
  rw [if_pos h, wp_modifyState]

/-- **One look-up** inside the tables leaves an index that names pages of the volume.  The page is taken
    unless the known id of its sector is larger. -/
theorem indexPage_inTables {A G : Event → Prop} {E : Exit → State → Prop} {b p : Nat}
    {sector id : Int} (h : PagesIn fip s.ftl) (hb : b < fip.lebNum) (hp : p < fip.ftlPageNum)
    (hs : fip.hasSector sector) :
    wp A G (indexPage fip b p sector id)
      (fun taken s' => PagesIn fip s'.ftl ∧ LookupFrame s s' ∧
        (taken = true ↔ s.sectorId sector.toNat ≤ id) ∧
        s'.sectorId = Function.update s.sectorId sector.toNat (max (s.sectorId sector.toNat) id))
      E s := by
  obtain ⟨v, rfl⟩ := Int.eq_ofNat_of_zero_le hs.1
  have hv : v < fip.virtualSectorNum := Int.ofNat_lt.mp hs.2
  have hidx : (p : Int) + fip.ftlPageNum * b = fip.pageIndex b p := by
    unfold UftlInfo.pageIndex
    rw [Int.mul_comm, Int.add_comm]
  simp only [indexPage, wp_bind, wp_getSectorId hv, wp_ite, wp_setPageState hb hp, wp_pure,
    wp_modifyState, wp_getSectorIndex hv, wp_when]
  simp only [Int.toNat_natCast]
  refine ⟨fun hlt => ⟨h, ⟨rfl, rfl⟩, ?_, ?_⟩, fun hle => ?_⟩
  · exact ⟨fun hf => (by cases hf), fun hle => absurd hlt (by omega)⟩
  · rw [Int.max_eq_left (by omega), Function.update_eq_self]
    rfl
  have htaken : True ↔ s.sectorId v ≤ id := ⟨fun _ => by omega, fun _ => trivial⟩
  have hmax : max (s.sectorId v) id = id := Int.max_eq_right (by omega)
  rw [hmax]
  refine ⟨fun hne => ?_, fun _ => ?_⟩
  · refine (wp_setPageState_in (h.inTable hv hne)).mpr ?_
    rw [wp_setSectorId hv, wp_setSectorIndex hv, hidx]
    exact ⟨h.update hb hp, ⟨rfl, rfl⟩, htaken, rfl⟩
  · rw [wp_setSectorId hv, wp_setSectorIndex hv, hidx]
    exact ⟨h.update hb hp, ⟨rfl, rfl⟩, htaken, rfl⟩

/-! ## What a block may make the scan look up -/

/-- Data page `p` of the content reads as `pg`, which carries the magic number. -/
def Leb.Marked (c : Leb) (p : Nat) (pg : Page) : Prop :=
  (c.page p).read .blank = some pg ∧ pg.log.magic = magicNum

/-- Page `p`, which reads as `pg`, is not older than the pages before it with its sector. -/
def Leb.Leads (c : Leb) (p : Nat) (pg : Page) : Prop :=
  noId ≤ pg.log.id ∧ ∀ q, q < p → ∀ pg', c.Marked q pg' → pg'.log.sector = pg.log.sector →
    pg'.log.id ≤ pg.log.id

/-- The entries of a log page with magic number are inside of its buffer and sectors of the volume.
    Else the numbers of the pages before the first one without magic number are, and those of these
    pages that may be taken have an entry inside of the buffer. -/
structure LebFits (fip : UftlInfo) (c : Leb) : Prop where
  logged : ∀ log, c.log.read .blank = some log → log.magic = magicNum →
    ∀ p, p < fip.ftlPageNum → fip.inLogPage p ∧ fip.hasSector (log.entry p)
  unlogged : ∀ log, c.log.read .blank = some log → log.magic ≠ magicNum →
    ∀ p, p < fip.ftlPageNum → (∀ q, q < p → ∃ pg, c.Marked q pg) →
    ∀ pg, c.Marked p pg → fip.hasSector pg.log.sector ∧ (c.Leads p pg → fip.inLogPage p)

/-- A page holds one sector. -/
theorem Leb.Marked.unique {c : Leb} {p : Nat} {pg pg' : Page} (h : c.Marked p pg)
    (h' : c.Marked p pg') : pg = pg' := Option.some.inj (h.1.symm.trans h'.1)

/-- The first `page` pages of the content were looked up: their ids are known. -/
def Known (c : Leb) (page : Nat) (sectorId : Nat → Int) : Prop :=
  ∀ q, q < page → ∀ pg, c.Marked q pg → pg.log.id ≤ sectorId pg.log.sector.toNat

theorem Known.zero (c : Leb) (ids : Nat → Int) : Known c 0 ids := fun q hq =>
  absurd hq (Nat.not_lt_zero q)

/-- One more page of the block is known. -/
theorem Known.next {c : Leb} {page : Nat} {ids : Nat → Int} {pg : Page} (h : Known c page ids)
    (hpg : c.Marked page pg) : Known c (page + 1) (Function.update ids pg.log.sector.toNat
      (max (ids pg.log.sector.toNat) pg.log.id)) := by
  intro q hq pg' hpg'
  by_cases hsector : pg'.log.sector.toNat = pg.log.sector.toNat
  · rw [hsector, Function.update_self]
    rcases Nat.lt_succ_iff_lt_or_eq.mp hq with hlt | rfl
    · have hknown := h q hlt pg' hpg'
      rw [hsector] at hknown
      omega
    · rw [hpg'.unique hpg]
      omega
  · rw [Function.update_of_ne hsector]
    rcases Nat.lt_succ_iff_lt_or_eq.mp hq with hlt | rfl
    · exact h q hlt pg' hpg'
    · exact absurd (by rw [hpg'.unique hpg]) hsector

/-- A page is taken only if it is not older than those before it. -/
theorem Known.leads {c : Leb} {page : Nat} {ids : Nat → Int} {pg : Page} (h : Known c page ids)
    (hid : noId ≤ ids pg.log.sector.toNat) (htaken : ids pg.log.sector.toNat ≤ pg.log.id) :
    c.Leads page pg := by
  refine ⟨Int.le_trans hid htaken, fun q hq pg' hpg' hsector => ?_⟩
  have hknown := h q hq pg' hpg'
  rw [hsector] at hknown
  exact Int.le_trans hknown htaken

/-! ## Scanning with read errors -/

/-- The exit is not an access outside a table or behind a buffer. -/
def Exit.inside (e : Exit) : Prop := e ≠ .outOfTable ∧ e ≠ .outOfBuffer

/-- A flash operation that may fail, with or without its effect. -/
theorem flashOp_any {full part : Volume → Volume} {done torn : List Event} :
    wp (fun _ => True) (fun _ => True) (flashOp full part done torn)
      (fun _ s' => s' = s.tick.onVol full)
      (fun e s' => e.inside ∧ (s' = s.tick ∨ s' = s.tick.onVol part)) s := by
  have along : ∀ {t : List Event} {R : Prop}, R → Along (fun _ => True) (fun _ => True) t R := by
    intro t R hR
    induction t with
    | nil => exact hR
    | cons x t ih => exact fun _ => ⟨trivial, ih⟩
  unfold wp flashOp
  cases s.env.faults s.env.flashOps with
  | ok => exact along rfl
  | fail p =>
    cases p with
    | false => exact along ⟨by simp [Exit.inside], .inl rfl⟩
    | true => exact along ⟨by simp [Exit.inside], .inr rfl⟩
  | cut p =>
    cases p with
    | false => exact along ⟨by simp [Exit.inside], .inl rfl⟩
    | true => exact along ⟨by simp [Exit.inside], .inr rfl⟩

/-- A read that may fail. -/
theorem flashRead_any :
    wp (fun _ => True) (fun _ => True) (flashOp id id [] []) (fun _ s' => s' = s.tick)
      (fun e s' => e.inside ∧ s' = s.tick) s :=
  wp_mono flashOp_any (fun _ _ hs => hs) fun _ _ ⟨he, hs⟩ => ⟨he, hs.elim id id⟩

/-- Reading a page, whatever the environment does. -/
theorem ftlRead_any {b p : Nat} :
    wp (fun _ => True) (fun _ => True) (ftlRead fip b p)
      (fun pg s' => ((s.vol.leb b).page p).read .blank = some pg ∧ s' = s.tick)
      (fun e s' => e.inside ∧ (s' = s ∨ s' = s.tick)) s := by
  unfold ftlRead
  rw [wp_ite]
  refine ⟨fun _ => ?_, fun _ => ⟨by simp [Exit.inside], .inl rfl⟩⟩
  rw [wp_bind]
  refine wp_mono flashRead_any ?_ fun e s' ⟨he, hs⟩ => ⟨he, .inr hs⟩
  rintro _ _ rfl
  rw [wp_bind, wp_getState, Int.toNat_natCast, Int.toNat_natCast]
  have hleb : s.tick.vol = s.vol := rfl
  rw [hleb]
  cases hr : ((s.vol.leb b).page p).read .blank with
  | none => exact ⟨by simp [Exit.inside], .inr rfl⟩
  | some pg => exact ⟨rfl, rfl⟩

/-- Reading a log page. -/
theorem ftlReadLog_any {b : Nat} :
    wp (fun _ => True) (fun _ => True) (ftlReadLog fip b)
      (fun log s' => fip.ftlPageNum < fip.lebPageNum ∧
        (s.vol.leb b).log.read .blank = some log ∧ s' = s.tick)
      (fun e s' => e.inside ∧ (s' = s ∨ s' = s.tick)) s := by
  unfold ftlReadLog
  rw [wp_ite]
  refine ⟨fun hin => ?_, fun _ => ⟨by simp [Exit.inside], .inl rfl⟩⟩
  rw [wp_bind]
  refine wp_mono flashRead_any ?_ fun e s' ⟨he, hs⟩ => ⟨he, .inr hs⟩
  rintro _ _ rfl
  rw [wp_bind, wp_getState, Int.toNat_natCast]
  have hleb : s.tick.vol = s.vol := rfl
  rw [hleb]
  cases hr : (s.vol.leb b).log.read .blank with
  | none => exact ⟨by simp [Exit.inside], .inr rfl⟩
  | some log => exact ⟨Int.ofNat_lt.mp hin.2.2.2, rfl, rfl⟩

theorem Volume.erase_other (v : Volume) {b b' : Nat} (h : b' ≠ b) :
    (v.erase b).leb b' = v.leb b' := by simp [Volume.erase, h]

/-- An erasure that may fail. -/
theorem ftlErase_any {b : Nat} :
    wp (fun _ => True) (fun _ => True) (ftlErase fip b false)
      (fun _ s' => s'.ftl = s.ftl ∧ s'.sectorId = s.sectorId ∧
        ∀ b', b' ≠ b → s'.vol.leb b' = s.vol.leb b')
      (fun e _ => e.inside) s := by
  unfold ftlErase
  rw [wp_ite]
  refine ⟨fun _ => ?_, fun _ => by simp [Exit.inside]⟩
  refine wp_mono flashOp_any ?_ fun _ _ he => he.1
  rintro _ _ rfl
  exact ⟨rfl, rfl, fun b' hb' => s.vol.erase_other hb'⟩

/-- What a scan of blocks below `n` keeps: the later blocks, and an index into the volume. -/
structure Swept (fip : UftlInfo) (vol : Volume) (n : Nat) (s : State) : Prop where
  later : ∀ b, n ≤ b → s.vol.leb b = vol.leb b
  index : PagesIn fip s.ftl
  ids : ∀ v, v < fip.virtualSectorNum → noId ≤ s.sectorId v

theorem Swept.congr {s' : State} (h : Swept fip vol n s) (hf : PagesIn fip s'.ftl)
    (hv : s'.vol = s.vol) (hid : s'.sectorId = s.sectorId) : Swept fip vol n s' :=
  ⟨fun b hb => by rw [hv, h.later b hb], hf, by rw [hid]; exact h.ids⟩

/-- A look-up only raises ids. -/
theorem Swept.looked {s' : State} {v : Nat} {id : Int} (h : Swept fip vol n s)
    (hf : PagesIn fip s'.ftl) (hv : s'.vol = s.vol)
    (hid : s'.sectorId = Function.update s.sectorId v (max (s.sectorId v) id)) :
    Swept fip vol n s' := by
  refine ⟨fun b hb => by rw [hv, h.later b hb], hf, fun w hw => ?_⟩
  have hw' := h.ids w hw
  rw [hid]
  by_cases hwv : w = v
  · rw [hwv, Function.update_self]
    rw [hwv] at hw'
    omega
  · rw [Function.update_of_ne hwv]
    exact hw'

/-- The first `n` entries of a log page that are sectors of the volume. -/
theorem indexEntries_inTables {A G : Event → Prop} {E : Exit → State → Prop} {b m : Nat}
    {log : LogPage} (h : Swept fip vol n s) (hb : b < fip.lebNum) (hm : m ≤ fip.ftlPageNum)
    (hlog : ∀ p, p < m → fip.inLogPage p ∧ fip.hasSector (log.entry p)) :
    wp A G (forUpto m (indexEntry fip b log)) (fun _ s' => Swept fip vol n s') E s := by
  refine wp_forUpto (fun _ s' => Swept fip vol n s') h fun p hp s₁ h₁ => ?_
  obtain ⟨hin, hs⟩ := hlog p hp
  rw [indexEntry, getLogEntry, if_pos hin, wp_bind, wp_pure, wp_bind]
  refine wp_mono (indexPage_inTables h₁.index hb (by omega) hs) ?_ fun _ _ he => he
  rintro _ s₂ ⟨hidx, hf, -, hid⟩
  exact h₁.looked hidx hf.vol hid

/-- A block without log page: the pages passed carry the magic number. -/
theorem scanOpenBlock_any {b m page : Nat} {log : LogPage} (h : Swept fip vol b s)
    (hb : b < fip.lebNum) (hm : page + m ≤ fip.ftlPageNum) (hfits : LebFits fip (vol.leb b))
    (hlog : (vol.leb b).log.read .blank = some log) (hmagic : log.magic ≠ magicNum)
    (hbefore : ∀ q, q < page → ∃ pg, (vol.leb b).Marked q pg)
    (hknown : Known (vol.leb b) page s.sectorId) :
    wp (fun _ => True) (fun _ => True) (scanOpenBlock fip b m page)
      (fun r s' => Swept fip vol b s' ∧ (∀ q, q < r → ∃ pg, (vol.leb b).Marked q pg) ∧
        Known (vol.leb b) r s'.sectorId)
      (fun e _ => e.inside) s := by
  induction m generalizing page s with
  | zero => exact ⟨h, hbefore, hknown⟩
  | succ m ih =>
    rw [scanOpenBlock, wp_bind, wp_attempt]
    refine wp_mono ftlRead_any ?_ ?_
    · rintro pg _ ⟨hread, rfl⟩
      rw [h.later b (Nat.le_refl b)] at hread
      dsimp only
      split
      · rename_i hpg
        have hmarked : (vol.leb b).Marked page pg := ⟨hread, hpg⟩
        obtain ⟨hs, hentry⟩ := hfits.unlogged log hlog hmagic page (by omega) hbefore pg hmarked
        rw [wp_bind]
        have h₁ : Swept fip vol b s.tick := h.congr h.index rfl rfl
        refine wp_mono (indexPage_inTables h₁.index hb (by omega) hs) ?_ fun _ _ he => he
        rintro taken s₂ ⟨hidx, hf, htaken, hid⟩
        have h₂ : Swept fip vol b s₂ := h₁.looked hidx hf.vol hid
        have hknown₂ : Known (vol.leb b) (page + 1) s₂.sectorId := hid ▸ hknown.next hmarked
        have hnext : ∀ q, q < page + 1 → ∃ pg, (vol.leb b).Marked q pg := by
          intro q hq
          rcases Nat.lt_succ_iff_lt_or_eq.mp hq with hlt | rfl
          · exact hbefore q hlt
          · exact ⟨pg, hread, hpg⟩
        rw [wp_bind, wp_when]
        refine ⟨fun ht => ?_, fun _ => ih h₂ (by omega) hnext hknown₂⟩
        have hlt : pg.log.sector.toNat < fip.virtualSectorNum := by
          have h0 := hs.1
          have h1 := hs.2
          omega
        have hin : fip.inLogPage page :=
          hentry (hknown.leads (h.ids _ hlt) (htaken.mp ht))
        rw [setLogEntry, if_pos hin, wp_modifyState]
        exact ih (h₂.congr hidx rfl rfl) (by omega) hnext hknown₂
      · exact ⟨h.congr h.index rfl rfl, hbefore, hknown⟩
    · rintro e s' ⟨he, hs⟩
      split
      · rw [wp_bind, wp_modifyState, wp_pure]
        refine ⟨?_, hbefore, ?_⟩
        · rcases hs with rfl | rfl
          · exact h.congr h.index rfl rfl
          · exact h.congr h.index rfl rfl
        · rcases hs with rfl | rfl <;> exact hknown
      · exact he

/-- **One block.** -/
theorem createIndexBlock_any {b : Nat} (h : Swept fip vol b s) (hb : b < fip.lebNum)
    (hfits : fip.ftlPageNum < fip.lebPageNum → LebFits fip (vol.leb b)) :
    wp (fun _ => True) (fun _ => True) (createIndexBlock fip b)
      (fun _ s' => Swept fip vol (b + 1) s') (fun e _ => e.inside) s := by
  have hnext : ∀ {s'}, Swept fip vol b s' → Swept fip vol (b + 1) s' := fun h' =>
    ⟨fun b' hb' => h'.later b' (by omega), h'.index, h'.ids⟩
  rw [createIndexBlock, wp_bind, wp_attempt]
  refine wp_mono ftlReadLog_any ?_ ?_
  · rintro log _ ⟨hpages, hlog, rfl⟩
    rw [h.later b (Nat.le_refl b)] at hlog
    have h₁ : Swept fip vol b s.tick := h.congr h.index rfl rfl
    dsimp only
    split
    · rename_i hmagic
      refine wp_mono (indexEntries_inTables h₁ hb (Nat.le_refl _)
        ((hfits hpages).logged log hlog hmagic)) (fun _ _ h' => hnext h') fun _ _ he => he
    · rename_i hmagic
      rw [indexUnlogged, wp_bind, wp_getState, wp_when]
      refine ⟨fun _ => ?_, fun _ => hnext h₁⟩
      rw [wp_bind]
      refine wp_mono (scanOpenBlock_any h₁ hb (by omega) (hfits hpages) hlog hmagic
        (fun q hq => absurd hq (Nat.not_lt_zero q)) (.zero _ _)) ?_ fun _ _ he => he
      rintro page s₂ ⟨h₂, -⟩
      rw [wp_when, wp_modifyState]
      exact ⟨fun _ => hnext (h₂.congr h₂.index rfl rfl), fun _ => hnext h₂⟩
  · rintro e s' ⟨he, hs⟩
    split
    · have h₁ : Swept fip vol b s' := by
        rcases hs with rfl | rfl
        · exact h
        · exact h.congr h.index rfl rfl
      refine wp_mono ftlErase_any ?_ fun _ _ he' => he'
      rintro _ s₂ ⟨hf, hid, hleb⟩
      exact ⟨fun b' hb' => by rw [hleb b' (by omega), h₁.later b' (by omega)], hf ▸ h₁.index,
        hid ▸ h₁.ids⟩
    · exact he

/-- Before the first block. -/
theorem Swept.reset (hs : s.vol = vol) : Swept fip vol 0 (resetIndex fip s) := by
  refine ⟨fun b _ => congrArg (·.leb b) hs, fun v hv => .inl (if_pos hv), fun v hv => ?_⟩
  exact Int.le_of_eq (if_pos hv).symm

/-- The blocks before `n`. -/
theorem createIndexBlocks_any (hs : s.vol = vol) (hn : n ≤ fip.lebNum)
    (hfits : fip.ftlPageNum < fip.lebPageNum → ∀ b, b < fip.lebNum → LebFits fip (vol.leb b)) :
    wp (fun _ => True) (fun _ => True) (forUpto n (createIndexBlock fip))
      (fun _ s' => Swept fip vol n s') (fun e _ => e.inside) (resetIndex fip s) :=
  wp_forUpto (fun m s' => Swept fip vol m s') (.reset hs) fun b hb _ h =>
    createIndexBlock_any h (by omega) fun hp => hfits hp b (by omega)

section Fitting

variable {b p : Nat} {log : LogPage} {pg : Page} {s₁ s₂ s₃ s₄ : State} {t₁ t₂ t₃ t₄ : List Event}

/-- The scan has come to entry `p` of a log page that fits. -/
theorem at_entry (hfits : fip.ftlPageNum < fip.lebPageNum →
      ∀ b, b < fip.lebNum → LebFits fip (s.vol.leb b)) (hb : b < fip.lebNum)
    (hbefore : forUpto b (createIndexBlock fip) (resetIndex fip s) = .ok () s₁ t₁)
    (hlog : ftlReadLog fip b s₁ = .ok log s₂ t₂) (hmagic : log.magic = magicNum)
    (hp : p < fip.ftlPageNum) (hpages : forUpto p (indexEntry fip b log) s₂ = .ok () s₃ t₃) :
    PagesIn fip s₃.ftl ∧ fip.inLogPage p ∧ fip.hasSector (log.entry p) := by
  have h₀ := (wp_ok (createIndexBlocks_any rfl (Nat.le_of_lt hb) hfits) hbefore
    fun _ _ => trivial).1
  obtain ⟨⟨hin, hread, rfl⟩, -⟩ := wp_ok ftlReadLog_any hlog fun _ _ => trivial
  rw [h₀.later b (Nat.le_refl b)] at hread
  have hentry := (hfits hin b hb).logged log hread hmagic
  have h₂ : Swept fip s.vol b s₁.tick := h₀.congr h₀.index rfl rfl
  have h₃ := (wp_ok (G := fun _ => True) (E := fun _ _ => True) (indexEntries_inTables h₂ hb
    (Nat.le_of_lt hp) fun q hq => hentry q (by omega)) hpages fun _ _ => trivial).1
  exact ⟨h₃.index, hentry p hp⟩

/-- The scan has come to page `p` of an open block that fits. -/
theorem at_page (hfits : fip.ftlPageNum < fip.lebPageNum →
      ∀ b, b < fip.lebNum → LebFits fip (s.vol.leb b)) (hb : b < fip.lebNum)
    (hbefore : forUpto b (createIndexBlock fip) (resetIndex fip s) = .ok () s₁ t₁)
    (hlog : ftlReadLog fip b s₁ = .ok log s₂ t₂) (hmagic : log.magic ≠ magicNum)
    (hp : p < fip.ftlPageNum) (hpages : scanOpenBlock fip b p 0 s₂ = .ok p s₃ t₃)
    (hread : ftlRead fip b p s₃ = .ok pg s₄ t₄) (hpg : pg.log.magic = magicNum) :
    Swept fip s.vol b s₄ ∧ fip.hasSector pg.log.sector ∧
      (s₄.sectorId pg.log.sector.toNat ≤ pg.log.id → fip.inLogPage p) := by
  have h₀ := (wp_ok (createIndexBlocks_any rfl (Nat.le_of_lt hb) hfits) hbefore
    fun _ _ => trivial).1
  obtain ⟨⟨hin, hlogged, rfl⟩, -⟩ := wp_ok ftlReadLog_any hlog fun _ _ => trivial
  rw [h₀.later b (Nat.le_refl b)] at hlogged
  have h₂ : Swept fip s.vol b s₁.tick := h₀.congr h₀.index rfl rfl
  obtain ⟨⟨h₃, hbefore, hknown⟩, -⟩ := wp_ok (scanOpenBlock_any h₂ hb (by omega) (hfits hin b hb)
    hlogged hmagic (fun q hq => absurd hq (Nat.not_lt_zero q)) (.zero _ _)) hpages
    fun _ _ => trivial
  obtain ⟨⟨hpage, rfl⟩, -⟩ := wp_ok ftlRead_any hread fun _ _ => trivial
  rw [h₃.later b (Nat.le_refl b)] at hpage
  obtain ⟨hs, hentry⟩ := (hfits hin b hb).unlogged log hlogged hmagic p hp hbefore pg ⟨hpage, hpg⟩
  have hlt : pg.log.sector.toNat < fip.virtualSectorNum := by
    have h0 := hs.1
    have h1 := hs.2
    omega
  exact ⟨h₃.congr h₃.index rfl rfl, hs, fun htaken => hentry (hknown.leads (h₃.ids _ hlt) htaken)⟩

/-- **Where what is on flash fits, the scan stays inside the tables and the buffers.** -/
theorem staysInside (hfits : fip.ftlPageNum < fip.lebPageNum →
    ∀ b, b < fip.lebNum → LebFits fip (s.vol.leb b)) : StaysInside fip s where
  tables b p sector id s₁ h := by
    cases h with
    | logged hb hbefore hlog hmagic hp hpages hin =>
      obtain ⟨hidx, -, hs⟩ := at_entry hfits hb hbefore hlog hmagic hp hpages
      exact hidx.inTables hs _
    | unlogged hb hbefore hlog hmagic hcur hp hpages hread hpg =>
      obtain ⟨h₄, hs, -⟩ := at_page hfits hb hbefore hlog hmagic hp hpages hread hpg
      exact h₄.index.inTables hs _
  buffers p h := by
    cases h with
    | read hb hbefore hlog hmagic hp hpages =>
      exact (at_entry hfits hb hbefore hlog hmagic hp hpages).2.1
    | write hb hbefore hlog hmagic hcur hp hpages hread hpg htaken =>
      obtain ⟨h₄, hs, hentry⟩ := at_page hfits hb hbefore hlog hmagic hp hpages hread hpg
      obtain ⟨⟨-, -, hle, -⟩, -⟩ := wp_ok (A := fun _ => True) (G := fun _ => True)
        (E := fun _ _ => True) (indexPage_inTables h₄.index hb hp hs) htaken fun _ _ => trivial
      exact hentry (hle.mp rfl)

end Fitting

/-! ## Read errors that lead the scan to a block -/

/-- A flash operation that succeeds. -/
theorem wp_flashOp_ok {Q : Unit → State → Prop} {E : Exit → State → Prop}
    {full part : Volume → Volume} (h : s.env.faults s.env.flashOps = .ok)
    (hQ : Q () (s.tick.onVol full)) :
    wp (fun _ => True) (fun _ => True) (flashOp full part [] []) Q E s := by
  unfold wp flashOp
  rw [h]
  exact hQ

/-- One that fails. -/
theorem wp_flashOp_fail {Q : Unit → State → Prop} {E : Exit → State → Prop}
    {full part : Volume → Volume} {done torn : List Event}
    (h : s.env.faults s.env.flashOps = .fail false) (hE : E (.errno .eio) s.tick) :
    wp (fun _ => True) (fun _ => True) (flashOp full part done torn) Q E s := by
  unfold wp flashOp
  rw [h]
  exact fun _ => ⟨trivial, hE⟩

/-- No flash operation fails from now on. -/
def State.Healthy (s : State) : Prop := ∀ k, s.env.flashOps ≤ k → s.env.faults k = .ok

/-- The flash stays healthy. -/
theorem State.Healthy.tick (h : s.Healthy) : s.tick.Healthy := fun k hk =>
  h k (Nat.le_of_succ_le hk)

theorem State.Healthy.congr {s' : State} (h : s.Healthy) (he : s'.env = s.env) : s'.Healthy := by
  unfold State.Healthy
  rw [he]
  exact h

/-- Every second of the first `2 * n` operations fails: the reads of the log pages of the first `n`
    blocks, each of which is erased then. -/
def failingReads (n k : Nat) : Fault := if k < 2 * n ∧ k % 2 = 0 then .fail false else .ok

/-- The scan comes to block `b`, having erased those before it. -/
structure Skipped (fip : UftlInfo) (vol : Volume) (n b : Nat) (s : State) : Prop where
  swept : Swept fip vol b s
  flashOps : s.env.flashOps = 2 * b
  faults : s.env.faults = failingReads n
  cur : s.ftl.curOffset.block = ftlNomap
  ids : ∀ v, v < fip.virtualSectorNum → s.sectorId v = noId

theorem Skipped.healthy (h : Skipped fip vol n n s) : s.Healthy := by
  intro k hk
  rw [h.flashOps] at hk
  rw [h.faults]
  exact if_neg (by omega)

/-- A block is passed that the others do not depend on. -/
theorem skipBlock {b : Nat} (hin : fip.ftlPageNum < fip.lebPageNum) (hb : b < fip.lebNum)
    (hn : b < n) (h : Skipped fip vol n b s) :
    wp (fun _ => True) (fun _ => True) (createIndexBlock fip b)
      (fun _ s' => Skipped fip vol n (b + 1) s') (fun _ _ => False) s := by
  have hfail : s.env.faults s.env.flashOps = .fail false := by
    rw [h.faults, h.flashOps]
    exact if_pos ⟨by omega, by omega⟩
  have hok : s.tick.env.faults s.tick.env.flashOps = .ok := by
    show s.env.faults (s.env.flashOps + 1) = .ok
    rw [h.faults, h.flashOps]
    exact if_neg (by omega)
  have hlog : fip.inVolume b fip.ftlPageNum := by unfold UftlInfo.inVolume; omega
  have hvol : fip.inVolume b 0 := by unfold UftlInfo.inVolume; omega
  rw [createIndexBlock, wp_bind, wp_attempt, ftlReadLog, if_pos hlog, wp_bind]
  refine wp_flashOp_fail hfail ?_
  show wp _ _ (ftlErase fip b false) _ _ s.tick
  rw [ftlErase, if_pos hvol]
  refine wp_flashOp_ok hok
    ⟨⟨fun b' hb' => ?_, h.swept.index, h.swept.ids⟩, ?_, h.faults, h.cur, h.ids⟩
  · show (s.vol.erase b).leb b' = vol.leb b'
    rw [s.vol.erase_other (by omega), h.swept.later b' (by omega)]
  · show s.env.flashOps + 1 + 1 = 2 * (b + 1)
    rw [h.flashOps]
    omega

/-- **With those errors the scan comes to block `n`** as it was, and nothing fails any more. -/
theorem reach_block (vol : Volume) (hin : fip.ftlPageNum < fip.lebPageNum) (hn : n < fip.lebNum) :
    ∃ s s₁ t, s.vol = vol ∧ forUpto n (createIndexBlock fip) (resetIndex fip s) = .ok () s₁ t ∧
      Swept fip vol n s₁ ∧ s₁.Healthy ∧ s₁.ftl.curOffset.block = ftlNomap ∧
      ∀ v, v < fip.virtualSectorNum → s₁.sectorId v = noId := by
  let s : State := .cold vol (failingReads n) []
  have h : Skipped fip vol n 0 (resetIndex fip s) := ⟨.reset rfl, rfl, rfl, rfl, fun v hv => if_pos hv⟩
  obtain ⟨_, s₁, t, hrun, h₁⟩ := wp_returns (wp_forUpto (fun b s' => Skipped fip vol n b s') h
    fun b hb _ hs => @skipBlock fip _ _ _ _ hin (by omega) hb hs)
  exact ⟨s, s₁, t, rfl, hrun, h₁.swept, h₁.healthy, h₁.cur, h₁.ids⟩

/-! ## Scanning without read errors -/

/-- On a healthy flash a log page is read. -/
theorem ftlReadLog_healthy {b : Nat} {log : LogPage} (h : s.Healthy)
    (hin : fip.ftlPageNum < fip.lebPageNum) (hb : b < fip.lebNum)
    (hlog : (s.vol.leb b).log.read .blank = some log) :
    wp (fun _ => True) (fun _ => True) (ftlReadLog fip b)
      (fun r s' => r = log ∧ s' = s.tick) (fun _ _ => False) s := by
  have hvol : fip.inVolume b fip.ftlPageNum := by unfold UftlInfo.inVolume; omega
  rw [ftlReadLog, if_pos hvol, wp_bind]
  refine wp_flashOp_ok (h _ (Nat.le_refl _)) ?_
  show wp _ _ (getState >>= _) _ _ s.tick
  rw [wp_bind, wp_getState, Int.toNat_natCast]
  have hleb : s.tick.vol = s.vol := rfl
  rw [hleb, hlog]
  exact ⟨rfl, rfl⟩

/-- So is a page. -/
theorem ftlRead_healthy {b p : Nat} {pg : Page} (h : s.Healthy)
    (hin : fip.ftlPageNum < fip.lebPageNum) (hb : b < fip.lebNum) (hp : p < fip.ftlPageNum)
    (hpg : ((s.vol.leb b).page p).read .blank = some pg) :
    wp (fun _ => True) (fun _ => True) (ftlRead fip b p)
      (fun r s' => r = pg ∧ s' = s.tick) (fun _ _ => False) s := by
  have hvol : fip.inVolume b p := by unfold UftlInfo.inVolume; omega
  rw [ftlRead, if_pos hvol, wp_bind]
  refine wp_flashOp_ok (h _ (Nat.le_refl _)) ?_
  show wp _ _ (getState >>= _) _ _ s.tick
  rw [wp_bind, wp_getState, Int.toNat_natCast, Int.toNat_natCast]
  have hleb : s.tick.vol = s.vol := rfl
  rw [hleb, hpg]
  exact ⟨rfl, rfl⟩

/-- Every known id is that of one of the first `page` pages of the content. -/
def FromPages (fip : UftlInfo) (c : Leb) (page : Nat) (sectorId : Nat → Int) : Prop :=
  ∀ v, v < fip.virtualSectorNum → sectorId v = noId ∨
    ∃ q pg, q < page ∧ c.Marked q pg ∧ pg.log.sector = (v : Int) ∧ pg.log.id = sectorId v

/-- One more page. -/
theorem FromPages.next {c : Leb} {page : Nat} {ids : Nat → Int} {pg : Page}
    (h : FromPages fip c page ids) (hpg : c.Marked page pg) (hs : 0 ≤ pg.log.sector) :
    FromPages fip c (page + 1) (Function.update ids pg.log.sector.toNat
      (max (ids pg.log.sector.toNat) pg.log.id)) := by
  intro v hv
  have hold : ∀ x, ids v = x → x = noId ∨ ∃ q pg', q < page + 1 ∧ c.Marked q pg' ∧
      pg'.log.sector = (v : Int) ∧ pg'.log.id = x := by
    rintro _ rfl
    exact (h v hv).imp_right fun ⟨q, pg', hq, hrest⟩ => ⟨q, pg', Nat.lt_succ_of_lt hq, hrest⟩
  by_cases hvs : v = pg.log.sector.toNat
  · rw [hvs, Function.update_self, ← hvs]
    rcases Int.le_total pg.log.id (ids v) with hle | hle
    · rw [Int.max_eq_left hle]
      exact hold _ rfl
    · rw [Int.max_eq_right hle]
      exact .inr ⟨page, pg, Nat.lt_succ_self page, hpg, by omega, rfl⟩
  · rw [Function.update_of_ne hvs]
    exact hold _ rfl

/-- A page that is not older than those before it is taken. -/
theorem FromPages.taken {c : Leb} {page : Nat} {ids : Nat → Int} {pg : Page}
    (h : FromPages fip c page ids) (hs : fip.hasSector pg.log.sector) (hl : c.Leads page pg) :
    ids pg.log.sector.toNat ≤ pg.log.id := by
  have h0 := hs.1
  have h1 := hs.2
  rcases h pg.log.sector.toNat (by omega) with hno | ⟨q, pg', hq, hpg', hsector, hid⟩
  · rw [hno]
    exact hl.1
  · rw [← hid]
    exact hl.2 q hq pg' hpg' (by omega)

/-- The scan passes over pages that fit. -/
theorem scanOpenBlock_healthy {b m page : Nat} (h : Swept fip vol b s) (hs : s.Healthy)
    (hin : fip.ftlPageNum < fip.lebPageNum) (hb : b < fip.lebNum)
    (hm : page + m ≤ fip.ftlPageNum)
    (hpages : ∀ q, q < page + m → ∃ pg, (vol.leb b).Marked q pg ∧ fip.hasSector pg.log.sector ∧
      ((vol.leb b).Leads q pg → fip.inLogPage q))
    (hknown : Known (vol.leb b) page s.sectorId)
    (hfrom : FromPages fip (vol.leb b) page s.sectorId) :
    wp (fun _ => True) (fun _ => True) (scanOpenBlock fip b m page)
      (fun r s' => r = page + m ∧ Swept fip vol b s' ∧ s'.Healthy ∧
        FromPages fip (vol.leb b) (page + m) s'.sectorId) (fun _ _ => False) s := by
  induction m generalizing page s with
  | zero => exact ⟨rfl, h, hs, hfrom⟩
  | succ m ih =>
    obtain ⟨pg, ⟨hread, hpg⟩, hsector, hentry⟩ := hpages page (by omega)
    have hmarked : (vol.leb b).Marked page pg := ⟨hread, hpg⟩
    rw [← h.later b (Nat.le_refl b)] at hread
    rw [scanOpenBlock, wp_bind, wp_attempt]
    refine wp_mono (ftlRead_healthy hs hin hb (by omega) hread) ?_ fun _ _ he => he.elim
    rintro _ _ ⟨rfl, rfl⟩
    dsimp only
    rw [if_pos hpg, wp_bind]
    have h₁ : Swept fip vol b s.tick := h.congr h.index rfl rfl
    refine wp_mono (indexPage_inTables h₁.index hb (by omega) hsector) ?_ fun _ _ he => he
    rintro taken s₂ ⟨hidx, hf, htaken, hid⟩
    have h₂ : Swept fip vol b s₂ := h₁.looked hidx hf.vol hid
    have hs₂ : s₂.Healthy := hs.tick.congr hf.env
    have hknown₂ : Known (vol.leb b) (page + 1) s₂.sectorId := hid ▸ hknown.next hmarked
    have hfrom₂ : FromPages fip (vol.leb b) (page + 1) s₂.sectorId :=
      hid ▸ hfrom.next hmarked hsector.1
    have hpages' : ∀ q, q < page + 1 + m → ∃ pg, (vol.leb b).Marked q pg ∧
        fip.hasSector pg.log.sector ∧ ((vol.leb b).Leads q pg → fip.inLogPage q) :=
      fun q hq => hpages q (by omega)
    have hend : page + (m + 1) = page + 1 + m := by omega
    rw [hend, wp_bind, wp_when]
    refine ⟨fun ht => ?_, fun _ => ih h₂ hs₂ (by omega) hpages' hknown₂ hfrom₂⟩
    have hleads := hknown.leads (h.ids _ hsector.toNat_lt) (htaken.mp ht)
    rw [setLogEntry, if_pos (hentry hleads), wp_modifyState]
    exact ih (h₂.congr hidx rfl rfl) hs₂ (by omega) hpages' hknown₂ hfrom₂

/-! ## The scans that stay inside -/

/-- Where every scan stays inside, the entries of a log page do. -/
theorem logged_of_inside (hin : fip.ftlPageNum < fip.lebPageNum) (hn : n < fip.lebNum)
    (hall : ∀ s, s.vol = vol → StaysInside fip s) {log : LogPage}
    (hlog : (vol.leb n).log.read .blank = some log) (hmagic : log.magic = magicNum) (p : Nat)
    (hp : p < fip.ftlPageNum) : fip.inLogPage p ∧ fip.hasSector (log.entry p) := by
  induction p using Nat.strongRecOn with
  | ind p ih =>
    obtain ⟨s, s₁, t, hvol, hrun, h₁, hhealthy, -⟩ := reach_block vol hin hn
    rw [← h₁.later n (Nat.le_refl n)] at hlog
    obtain ⟨_, _, t₂, hread, rfl, rfl⟩ := wp_returns (ftlReadLog_healthy hhealthy hin hn hlog)
    have h₂ : Swept fip vol n s₁.tick := h₁.congr h₁.index rfl rfl
    obtain ⟨_, s₃, t₃, hpages, -⟩ := wp_returns (G := fun _ => True) (indexEntries_inTables h₂ hn
      (Nat.le_of_lt hp) fun q hq => ih q hq (by omega))
    have hentry := (hall s hvol).buffers p (.read hn hrun hread hmagic hp hpages)
    exact ⟨hentry, ((hall s hvol).tables n p _ _ s₃
      (.logged hn hrun hread hmagic hp hpages hentry)).inRange⟩

/-- And so do the pages of a block without log page. -/
theorem unlogged_of_inside (hin : fip.ftlPageNum < fip.lebPageNum) (hn : n < fip.lebNum)
    (hall : ∀ s, s.vol = vol → StaysInside fip s) {log : LogPage}
    (hlog : (vol.leb n).log.read .blank = some log) (hmagic : log.magic ≠ magicNum) (p : Nat)
    (hp : p < fip.ftlPageNum) (hbefore : ∀ q, q < p → ∃ pg, (vol.leb n).Marked q pg)
    {pg : Page} (hpg : (vol.leb n).Marked p pg) :
    fip.hasSector pg.log.sector ∧ ((vol.leb n).Leads p pg → fip.inLogPage p) := by
  induction p using Nat.strongRecOn generalizing pg with
  | ind p ih =>
    have hpages : ∀ q, q < 0 + p → ∃ pg, (vol.leb n).Marked q pg ∧ fip.hasSector pg.log.sector ∧
        ((vol.leb n).Leads q pg → fip.inLogPage q) := by
      intro q hq
      rw [Nat.zero_add] at hq
      obtain ⟨pg', hpg'⟩ := hbefore q hq
      exact ⟨pg', hpg', ih q hq (by omega) (fun r hr => hbefore r (by omega)) hpg'⟩
    obtain ⟨s, s₁, t, hvol, hrun, h₁, hhealthy, hcur, hids⟩ := reach_block vol hin hn
    rw [← h₁.later n (Nat.le_refl n)] at hlog
    obtain ⟨_, _, t₂, hread, rfl, rfl⟩ := wp_returns (ftlReadLog_healthy hhealthy hin hn hlog)
    have h₂ : Swept fip vol n s₁.tick := h₁.congr h₁.index rfl rfl
    obtain ⟨r, s₃, t₃, hscan, hr, h₃, hs₃, hfrom⟩ := wp_returns (scanOpenBlock_healthy h₂
      hhealthy.tick hin hn (by omega) hpages (.zero _ _) fun v hv => .inl (hids v hv))
    rw [Nat.zero_add] at hr hfrom
    subst hr
    have hmarked := hpg
    obtain ⟨hcell, hmark⟩ := hpg
    rw [← h₃.later n (Nat.le_refl n)] at hcell
    obtain ⟨_, _, t₄, hpage, rfl, rfl⟩ := wp_returns (ftlRead_healthy hs₃ hin hn hp hcell)
    have hs : fip.hasSector _ := ((hall s hvol).tables n _ _ _ _
      (.unlogged hn hrun hread hmagic hcur hp hscan hpage hmark)).inRange
    refine ⟨hs, fun hleads => ?_⟩
    -- the page is taken, as no block was looked up before
    have h₄ : PagesIn fip s₃.tick.ftl := h₃.index
    obtain ⟨taken, s₅, t₅, hindex, -, -, htaken, -⟩ := wp_returns (G := fun _ => True)
      (indexPage_inTables h₄ hn hp hs)
    obtain rfl : taken = true := htaken.mpr (hfrom.taken hs hleads)
    exact (hall s hvol).buffers _
      (.write hn hrun hread hmagic hcur hp hscan hpage hmark hindex)

/-- **Every scan of `vol`, whatever errors it meets, stays inside the tables and the buffers, exactly when
    what is on flash in every block does.** -/
theorem lookups_inTables_iff (fip : UftlInfo) (vol : Volume) :
    (∀ s, s.vol = vol → StaysInside fip s) ↔
      (fip.ftlPageNum < fip.lebPageNum → ∀ b, b < fip.lebNum → LebFits fip (vol.leb b)) := by
  constructor
  · intro hall hin b hb
    exact ⟨fun log hlog hmagic p hp => logged_of_inside hin hb hall hlog hmagic p hp,
      fun log hlog hmagic p hp hbefore pg hpg =>
        unlogged_of_inside hin hb hall hlog hmagic p hp hbefore hpg⟩
  · rintro hfits s rfl
    exact staysInside hfits

/-! ## Where a scan ends -/

/-- A look-up inside the tables. -/
theorem indexPage_stays {A G : Event → Prop} {E : Exit → State → Prop} {b p : Nat}
    {sector id : Int} (h : InTables fip sector id s) (hb : b < fip.lebNum)
    (hp : p < fip.ftlPageNum) :
    wp A G (indexPage fip b p sector id) (fun _ _ => True) E s := by
  obtain ⟨v, rfl⟩ := Int.eq_ofNat_of_zero_le h.inRange.1
  have hv : v < fip.virtualSectorNum := Int.ofNat_lt.mp h.inRange.2
  simp only [indexPage, wp_bind, wp_getSectorId hv, wp_ite, wp_setPageState hb hp, wp_pure,
    wp_modifyState, wp_getSectorIndex hv, wp_when]
  refine ⟨fun _ => trivial, fun hle => ⟨fun hne => ?_, fun _ => ?_⟩⟩
  · refine (wp_setPageState_in (h.page hle hne)).mpr ?_
    rw [wp_setSectorId hv, wp_setSectorIndex hv]
    trivial
  · rw [wp_setSectorId hv, wp_setSectorIndex hv]
    trivial

/-- The mount stops where a table ends. -/
theorem not_inTables_of_stop {b p : Nat} {sector id : Int} {e : Exit} {s' : State}
    {t : List Event} (hb : b < fip.lebNum) (hp : p < fip.ftlPageNum)
    (h : indexPage fip b p sector id s = .stop e s' t) : ¬InTables fip sector id s := fun hin =>
  (wp_stopped (A := fun _ => True) (G := fun _ => True) (E := fun _ _ => False)
    (indexPage_stays hin hb hp) h fun _ _ => trivial).1

/-- `block_log_page` takes the entry of a page that a look-up took, or the scan leaves the page. -/
theorem setLogEntry_stop {page : Nat} {sector : Int} {taken : Bool} {e : Exit} {s' : State}
    {t : List Event} (h : when taken (setLogEntry fip page sector) s = .stop e s' t) :
    taken = true ∧ ¬fip.inLogPage page := by
  unfold when setLogEntry at h
  split at h
  · rename_i htaken
    split at h
    · cases h
    · rename_i hin
      exact ⟨htaken, hin⟩
  · cases h

/-- A scan of the open block that leaves the tables or the log page does so at one of its pages. -/
theorem scanOpenBlock_stop {b m page : Nat} {e : Exit} {s' : State} {t : List Event}
    (he : ¬e.inside) (h : scanOpenBlock fip b m page s = .stop e s' t) :
    ∃ k pg s₁ s₂ s₃ t₁ t₂ t₃, k < m ∧ scanOpenBlock fip b k page s = .ok (page + k) s₁ t₁ ∧
      ftlRead fip b (page + k : Nat) s₁ = .ok pg s₂ t₂ ∧ pg.log.magic = magicNum ∧
      (indexPage fip b (page + k) pg.log.sector pg.log.id s₂ = .stop e s₃ t₃ ∨
        indexPage fip b (page + k) pg.log.sector pg.log.id s₂ = .ok true s₃ t₃ ∧
          ¬fip.inLogPage (page + k)) := by
  induction m generalizing page s t with
  | zero => cases h
  | succ m ih =>
    rcases bind_stop h with hread | ⟨r, s₁, t₁, t₂, hread, hrest, -⟩
    · exact absurd (wp_stopped ftlRead_any (attempt_stop hread) fun _ _ => trivial).1.1 he
    · cases r with
      | error e => cases hrest
      | ok pg =>
        have hread := attempt_returns hread
        dsimp only at hrest
        split at hrest
        · rename_i hpg
          rcases bind_stop hrest with hpage | ⟨taken, s₂, t₃, t₄, hpage, hrest, -⟩
          · exact ⟨0, pg, s, s₁, s', [], t₁, _, Nat.succ_pos m, rfl, hread, hpg, .inl hpage⟩
          · rcases bind_stop hrest with hwhen | ⟨_, s₃, t₅, t₆, hwhen, hrest, -⟩
            · obtain ⟨rfl, hin⟩ := setLogEntry_stop hwhen
              exact ⟨0, pg, s, s₁, s₂, [], t₁, t₃, Nat.succ_pos m, rfl, hread, hpg,
                .inr ⟨hpage, hin⟩⟩
            · -- the rest of the scan has gone `k` pages further
              obtain ⟨k, pg', s₄, s₅, s₆, t₇, t₈, t₉, hk, hscan, hread', hpg', hstop⟩ := ih hrest
              have hend : page + (k + 1) = page + 1 + k := by omega
              rw [← hend] at hscan hread' hstop
              refine ⟨k + 1, pg', s₄, s₅, s₆, t₁ ++ (t₃ ++ (t₅ ++ t₇)), t₈, t₉, by omega, ?_,
                hread', hpg', hstop⟩
              refine ok_bind (attempt_ok hread) ?_
              show (if pg.log.magic = magicNum then _ else _ : M Nat) s₁ = _
              rw [if_pos hpg]
              exact ok_bind hpage (ok_bind hwhen hscan)
        · cases hrest

/-- An entry of a log page is read in `tmp_page_buf`, and then looked up. -/
theorem indexEntry_stop {b p : Nat} {log : LogPage} {e : Exit} {s' : State} {t : List Event}
    (hin : fip.inLogPage p) (h : indexEntry fip b log p s = .stop e s' t) :
    indexPage fip b p (log.entry p) log.id s = .stop e s' t := by
  rw [indexEntry, getLogEntry, if_pos hin] at h
  rcases bind_stop h with hpure | ⟨_, s₁, t₁, t₂, hpure, hrest, rfl⟩
  · cases hpure
  · cases hpure
    rcases bind_stop hrest with hstop | ⟨_, s₂, t₃, t₄, -, hpure, -⟩
    · exact hstop
    · cases hpure

/-- **A scan all of whose look-ups and log entries are inside ends as the source has it end**: no exit
    of the model stands for an access outside that `StaysInside` does not name. -/
theorem StaysInside.exit {e : Exit} {s' : State} {t : List Event} (h : StaysInside fip s)
    (hstop : createIndex fip s = .stop e s' t) : e.inside := by
  by_contra he
  rw [createIndex, modifyState_bind] at hstop
  obtain ⟨b, s₁, t₁, t₂, hb, hbefore, hblock⟩ := forUpto_stop hstop
  rcases bind_stop hblock with hlog | ⟨r, s₂, t₃, t₄, hlog, hrest, -⟩
  · exact he (wp_stopped ftlReadLog_any (attempt_stop hlog) fun _ _ => trivial).1.1
  · cases r with
    | error e => exact he (wp_stopped ftlErase_any hrest fun _ _ => trivial).1
    | ok log =>
      have hlog := attempt_returns hlog
      dsimp only at hrest
      split at hrest
      · rename_i hmagic
        rw [indexLogged_eq] at hrest
        obtain ⟨p, s₃, t₅, t₆, hp, hpages, hentry⟩ := forUpto_stop hrest
        have hin := h.buffers p (.read hb hbefore hlog hmagic hp hpages)
        exact not_inTables_of_stop hb hp (indexEntry_stop hin hentry)
          (h.tables _ _ _ _ _ (.logged hb hbefore hlog hmagic hp hpages hin))
      · rename_i hmagic
        rw [indexUnlogged, getState_bind] at hrest
        unfold when at hrest
        split at hrest
        · rename_i hcur
          rcases bind_stop hrest with hscan | ⟨page, s₃, t₅, t₆, -, hset, -⟩
          · obtain ⟨p, pg, s₃, s₄, s₅, t₅, t₆, t₇, hp, hpages, hread, hpg, hpage⟩ :=
              scanOpenBlock_stop he hscan
            rw [Nat.zero_add] at hpages hread hpage
            rcases hpage with hpage | ⟨hpage, hin⟩
            · exact not_inTables_of_stop hb hp hpage (h.tables _ _ _ _ _
                (.unlogged hb hbefore hlog hmagic hcur hp hpages hread hpg))
            · exact hin (h.buffers p
                (.write hb hbefore hlog hmagic hcur hp hpages hread hpg hpage))
          · split at hset
            · cases hset
            · cases hset
        · cases hrest

/-- The flash of a volume whose first block names, in page and log page, the sector after the last
    one of `threeBlocks`: it was larger once. -/
def largerOnce : Volume :=
  Volume.blank.setLeb 0 ⟨fun _ => .written ⟨fun _ => sampleSector, ⟨magicNum, 66, 1⟩, 1⟩,
    .written ⟨magicNum, 1, fun _ => 66⟩, true⟩

/-- A scan of that volume looks up a sector that the volume does not have any more. -/
theorem lookup_outside_tables : ¬∀ (fip : UftlInfo) (s : State), StaysInside fip s := by
  intro h
  let s : State := .cold largerOnce (fun _ => .ok) []
  let s₁ : State := resetIndex threeBlocks s
  have hlog : ftlReadLog threeBlocks (0 : Nat) s₁ =
      .ok ⟨magicNum, 1, fun _ => 66⟩ s₁.tick [] := rfl
  have hin : threeBlocks.inLogPage 0 := by decide
  have hv : Visits threeBlocks s 0 0 66 1 s₁.tick :=
    .logged (by decide) rfl hlog rfl (by decide) rfl hin
  exact absurd ((h threeBlocks s).tables _ _ _ _ _ hv).inRange (by decide)

end Uftl
