/-
  Recovered sizes cover the data, where no data node ends behind 4 GiB.

  During the replay the size tree knows an end for every data node of the journal that was not cut by a
  truncation (`Tracked`), and what it knows of inode nodes is in the index.  Once the blocks that were
  cut have been written again, these are all data nodes of the journal.  The recovery goes through the
  tree entry by entry; an entry that is done leaves an inode that covers its data, or no data at all.
-/
import FlashStack.Ubifs.SizeRecovery
import FlashStack.Ubifs.TncMap

namespace Ubifs.SizeRecovery

open Lib

/-! ## What is removed from an index -/

/-- An inode goes with its data, or stays as it is. -/
def Index.Loses (idx idx' : Index) : Prop :=
  ∀ inum, (idx'.ino inum = idx.ino inum ∧ idx'.data inum = idx.data inum) ∨
    (idx'.ino inum = none ∧ ∀ block, idx'.data inum block = none)

namespace Index

variable {idx idx' idx'' : Index}

/-- Removing adds nothing. -/
theorem Loses.refl (idx : Index) : idx.Loses idx := fun _ => .inl ⟨rfl, rfl⟩

theorem Loses.trans (h : idx.Loses idx') (h' : idx'.Loses idx'') : idx.Loses idx'' := by
  intro inum
  rcases h' inum with ⟨hino, hdata⟩ | hgone
  · rw [hino, hdata]
    exact h inum
  · exact .inr hgone

/-- A range of keys is removed. -/
theorem removeRange_loses (idx : Index) (inum : Nat) : idx.Loses (idx.removeRange inum) := by
  intro i
  by_cases hi : i = inum
  · subst hi
    refine .inr ⟨Function.update_self .., fun block => ?_⟩
    show Function.update idx.data i (fun _ => none) i block = none
    rw [Function.update_self]
  · exact .inl ⟨Function.update_of_ne hi .., Function.update_of_ne hi ..⟩

theorem removeXents_loses (inum : Nat) (xents : List Nat) :
    idx.Loses (removeXents inum xents idx) := by
  induction xents generalizing idx with
  | nil => exact .refl idx
  | cons xattrInum rest ih =>
    rw [removeXents]
    have hfirst := idx.removeRange_loses xattrInum
    split
    · exact hfirst
    · exact hfirst.trans ih

/-- An inode is removed, with its attributes. -/
theorem ubifsTncRemoveIno_loses (idx : Index) (inum : Nat) :
    idx.Loses (idx.ubifsTncRemoveIno inum) :=
  (removeXents_loses inum _).trans (removeRange_loses _ inum)

/-- Its data are gone. -/
theorem ubifsTncRemoveIno_data (idx : Index) (inum block : Nat) :
    (idx.ubifsTncRemoveIno inum).data inum block = none := by
  have hgone : (idx.ubifsTncRemoveIno inum).data inum = fun _ => none := Function.update_self ..
  rw [hgone]

/-- What has data left is as it was. -/
theorem Loses.kept {inum block : Nat} {dn : DataNode} (h : idx.Loses idx')
    (hdata : idx'.data inum block = some dn) :
    idx.data inum block = some dn ∧ idx'.ino inum = idx.ino inum := by
  rcases h inum with ⟨hino, hsame⟩ | ⟨-, hgone⟩
  · exact ⟨hsame ▸ hdata, hino⟩
  · rw [hgone block] at hdata
    cases hdata

end Index

/-! ## What a truncation removes -/

/-- `UBIFS_DATA_KEY`. -/
def ubifsDataKey : Nat := 1

/-- `data_key_init` -/
def dataKeyInit (inum : Fin (2 ^ 32)) (block : Nat) : Tnc.Key :=
  ⟨inum, Tnc.word (block ||| ubifsDataKey <<< ubifsSKeyBlockBits)⟩

section Truncation

variable {oldSize newSize block : Nat}

/-- The first block number that does not fit into a key is merged with the type of the key. -/
theorem dataKeyInit_word1 {inum : Fin (2 ^ 32)} (hblock : block ≤ 2 ^ ubifsSKeyBlockBits) :
    ((dataKeyInit inum block).word1 : Nat) = 2 ^ ubifsSKeyBlockBits + keyBlock block := by
  show (block ||| 2 ^ 29) % 2 ^ 32 = 2 ^ 29 + block % 2 ^ 29
  rcases Nat.lt_or_eq_of_le hblock with hlt | rfl
  · have hlt : block < 2 ^ 29 := hlt
    have hor := Nat.two_pow_add_eq_or_of_lt hlt 1
    rw [Nat.mul_one] at hor
    rw [Nat.or_comm, ← hor]
    omega
  · rfl

/-- The keys of blocks are ordered by their numbers, as far as these fit. -/
theorem dataKeyInit_le {inum : Fin (2 ^ 32)} {block' : Nat} (hblock : block ≤ 2 ^ ubifsSKeyBlockBits)
    (hblock' : block' ≤ 2 ^ ubifsSKeyBlockBits) :
    dataKeyInit inum block ≤ dataKeyInit inum block' ↔ keyBlock block ≤ keyBlock block' := by
  have hlt : dataKeyInit inum block' < dataKeyInit inum block ↔
      (dataKeyInit inum block').word1 < (dataKeyInit inum block).word1 := by
    rw [Tnc.Key.lt_iff]
    exact ⟨fun h => h.elim (fun hself => absurd hself (lt_irrefl inum)) And.right, fun h => .inr ⟨rfl, h⟩⟩
  rw [← not_lt, hlt, not_lt, Fin.le_def, dataKeyInit_word1 hblock, dataKeyInit_word1 hblock',
    Nat.add_le_add_iff_left]

/-- A file of the largest size has so many blocks. -/
theorem minBlk_le (hsize : newSize ≤ maxInodeSz) : Index.minBlk newSize ≤ 2 ^ ubifsSKeyBlockBits := by
  unfold Index.minBlk
  unfold maxInodeSz ubifsBlockSize ubifsSKeyBlockBits at *
  split <;> omega

theorem maxBlk_lt (hsize : oldSize ≤ maxInodeSz) : Index.maxBlk oldSize < 2 ^ ubifsSKeyBlockBits := by
  unfold Index.maxBlk
  unfold maxInodeSz ubifsBlockSize ubifsSKeyBlockBits at *
  split <;> omega

/-- The blocks of the index are removed that `ubifs_tnc_remove_range` removes from the TNC. -/
theorem trunRemoveRange_removes {ε : Type} {idx : Index} {inum : Fin (2 ^ 32)}
    {map : Tnc.Key ×ₗ Tnc.Name → Option (Nat × Nat)} (hold : oldSize ≤ maxInodeSz) (hnew : newSize ≤ maxInodeSz)
    (hsame : ∀ block < 2 ^ ubifsSKeyBlockBits,
      idx.data inum block = none ↔ map (toLex (dataKeyInit inum block, [])) = none)
    (hblock : block < 2 ^ ubifsSKeyBlockBits) :
    (idx.trunRemoveRange inum oldSize newSize).data inum block = none ↔
      (Tnc.Op.removeRange (dataKeyInit inum (Index.minBlk newSize))
        (dataKeyInit inum (Index.maxBlk oldSize)) : Tnc.Op ε).apply map
          (toLex (dataKeyInit inum block, [])) = none := by
  have hmin := minBlk_le hnew
  have hmax := maxBlk_lt hold
  have hself : keyBlock block = block := Nat.mod_eq_of_lt hblock
  have hrange : Index.Truncated oldSize newSize block ↔
      dataKeyInit inum block = dataKeyInit inum (Index.minBlk newSize) ∨
        dataKeyInit inum (Index.minBlk newSize) ≤ dataKeyInit inum block ∧
          dataKeyInit inum block ≤ dataKeyInit inum (Index.maxBlk oldSize) := by
    rw [le_antisymm_iff, dataKeyInit_le hblock.le hmin, dataKeyInit_le hmin hblock.le,
      dataKeyInit_le hblock.le hmax.le, hself, ← le_antisymm_iff]
    rfl
  have hdata : (idx.trunRemoveRange inum oldSize newSize).data inum block =
      if Index.Truncated oldSize newSize block then none else idx.data inum block := by
    dsimp only [Index.trunRemoveRange]
    rw [Function.update_self]
  rw [hdata, ite_eq_left_iff]
  exact (imp_congr (not_congr hrange) (hsame block hblock)).trans ite_eq_left_iff.symm

/-- If a node does not end behind the old size, then all that a truncation leaves of it behind the new
    size is in the block that it cuts through. -/
theorem left_behind {size : Nat} (hold : oldSize ≤ maxInodeSz) (hpos : 0 < size)
    (hsize : size ≤ ubifsBlockSize) (hend : block * ubifsBlockSize + size ≤ oldSize)
    (hleft : ¬Index.Truncated oldSize newSize block)
    (hbehind : newSize < block * ubifsBlockSize + size) :
    block = newSize / ubifsBlockSize ∧ newSize % ubifsBlockSize ≠ 0 := by
  have hlast : block ≤ keyBlock (Index.maxBlk oldSize) := by
    rw [keyBlock, Nat.mod_eq_of_lt (maxBlk_lt hold)]
    unfold Index.maxBlk
    unfold ubifsBlockSize at *
    split <;> omega
  have hfirst : block < keyBlock (Index.minBlk newSize) := by
    by_contra hge
    exact hleft (.inr ⟨Nat.le_of_not_lt hge, hlast⟩)
  have hfirst : block < Index.minBlk newSize := hfirst.trans_le (Nat.mod_le _ _)
  unfold Index.minBlk at hfirst
  unfold ubifsBlockSize at *
  split at hfirst <;> omega

end Truncation

/-! ## The size tree -/

section Tree

variable {tree : List SizeEntry} {e x : SizeEntry} {inum : Nat} {f : SizeEntry → SizeEntry}

/-- An inode is put into the tree. -/
theorem mem_addIno : x ∈ addIno e tree ↔ x = e ∨ x ∈ tree := by
  induction tree with
  | nil => simp [addIno]
  | cons e' rest ih =>
    rw [addIno]
    split
    · exact List.mem_cons
    · rw [List.mem_cons, ih, List.mem_cons]
      exact or_left_comm

/-- An inode is taken out of it. -/
theorem mem_removeIno : x ∈ removeIno tree inum ↔ x ∈ tree ∧ x.inum ≠ inum := by
  simp [removeIno]

/-- It is changed in place. -/
theorem mem_changeIno : x ∈ changeIno tree inum f ↔
    ∃ e ∈ tree, (e.inum = inum ∧ x = f e) ∨ (e.inum ≠ inum ∧ x = e) := by
  rw [changeIno, List.mem_map]
  constructor
  · rintro ⟨e, he, rfl⟩
    by_cases hi : e.inum = inum
    · exact ⟨e, he, .inl ⟨hi, if_pos hi⟩⟩
    · exact ⟨e, he, .inr ⟨hi, if_neg hi⟩⟩
  · rintro ⟨e, he, ⟨hi, rfl⟩ | ⟨hi, rfl⟩⟩
    · exact ⟨e, he, if_pos hi⟩
    · exact ⟨x, he, if_neg hi⟩

/-- What is found is there. -/
theorem findIno_mem (h : findIno tree inum = some e) : e ∈ tree ∧ e.inum = inum := by
  refine ⟨List.mem_of_find?_eq_some h, ?_⟩
  simpa using List.find?_some h

theorem findIno_none (h : findIno tree inum = none) : ∀ e ∈ tree, e.inum ≠ inum := by
  simpa using List.find?_eq_none.mp h

end Tree

/-- The tree has an end for every data node of the journal that was not cut, and the size of an inode
    node that it has is in the index: only extended attributes go without notice, and then with all they
    have. -/
structure Tracked (s : State) : Prop where
  ends : ∀ inum block dn, s.index.data inum block = some dn → dn.journal = true → dn.cut = false →
    ∃ e ∈ s.sizeTree, e.inum = inum ∧ block * ubifsBlockSize + dn.size ≤ e.dSize
  sizes : ∀ e ∈ s.sizeTree, e.found = true →
    s.index.ino e.inum = some e.iSize ∨
      s.index.ino e.inum = none ∧ ∀ block dn, s.index.data e.inum block = some dn → dn.journal = false

/-- After a commit nothing is in the journal. -/
theorem Committed.tracked {s : State} (h : Committed s) : Tracked s := by
  constructor
  · intro inum block dn hdata hjournal _
    rw [h.2 inum block dn hdata] at hjournal
    cases hjournal
  · intro e he
    rw [h.1] at he
    cases he

section Steps

variable {s s' : State} {inum : Nat}

/-- An inode without links is replayed. -/
theorem Tracked.removeIno (h : Tracked s) (inum : Nat) :
    Tracked ⟨s.index.ubifsTncRemoveIno inum, removeIno s.sizeTree inum⟩ := by
  have hloses := s.index.ubifsTncRemoveIno_loses inum
  constructor
  · intro i block dn hdata hjournal hcut
    have hne : i ≠ inum := by
      rintro rfl
      rw [s.index.ubifsTncRemoveIno_data] at hdata
      cases hdata
    obtain ⟨e, he, rfl, hend⟩ := h.ends i block dn (hloses.kept hdata).1 hjournal hcut
    exact ⟨e, mem_removeIno.mpr ⟨he, hne⟩, rfl, hend⟩
  · intro e he hfound
    dsimp only at he ⊢
    obtain ⟨he, -⟩ := mem_removeIno.mp he
    rcases hloses e.inum with ⟨hino, hdata⟩ | ⟨hnone, hgone⟩
    · rw [hino, hdata]
      exact h.sizes e he hfound
    · refine .inr ⟨hnone, fun block dn hdata => ?_⟩
      rw [hgone block] at hdata
      cases hdata

/-- An inode is replayed. -/
theorem Tracked.addIno (h : Tracked s) (inum size nlink : Nat) (hlink : nlink ≠ 0) :
    Tracked ⟨s.index.tncAddIno inum size,
      ubifsRecoverSizeAccum s.sizeTree (.ino inum size nlink)⟩ := by
  have hino : (s.index.tncAddIno inum size).ino inum = some size := Function.update_self ..
  have hother : ∀ i ≠ inum, (s.index.tncAddIno inum size).ino i = s.index.ino i :=
    fun i hi => Function.update_of_ne hi ..
  rw [ubifsRecoverSizeAccum, if_neg hlink]
  cases hfind : findIno s.sizeTree inum with
  | some e₀ =>
    constructor
    · intro i block dn hdata hjournal hcut
      obtain ⟨e, he, rfl, hend⟩ := h.ends i block dn hdata hjournal hcut
      by_cases hi : e.inum = inum
      · exact ⟨_, mem_changeIno.mpr ⟨e, he, .inl ⟨hi, rfl⟩⟩, rfl, hend⟩
      · exact ⟨e, mem_changeIno.mpr ⟨e, he, .inr ⟨hi, rfl⟩⟩, rfl, hend⟩
    · intro e he hfound
      obtain ⟨e₁, he₁, ⟨hi, rfl⟩ | ⟨hi, rfl⟩⟩ := mem_changeIno.mp he
      · exact .inl (by dsimp only; rw [hi]; exact hino)
      · dsimp only
        rw [hother _ hi]
        exact h.sizes e he₁ hfound
  | none =>
    constructor
    · intro i block dn hdata hjournal hcut
      obtain ⟨e, he, hi, hend⟩ := h.ends i block dn hdata hjournal hcut
      exact ⟨e, mem_addIno.mpr (.inr he), hi, hend⟩
    · intro e he hfound
      rcases mem_addIno.mp he with rfl | he
      · exact .inl hino
      · dsimp only
        rw [hother _ (findIno_none hfind e he)]
        exact h.sizes e he hfound

/-- A data node is replayed. -/
theorem Tracked.addData (h : Tracked s) (inum block size : Nat)
    (hfits : (Entry.data inum block size).Fits s) :
    Tracked ⟨s.index.tncAddData inum block ⟨size, true, false⟩,
      ubifsRecoverSizeAccum s.sizeTree (.data inum block size)⟩ := by
  obtain ⟨hend, hfound⟩ := hfits
  have hsize : Entry.newSize (.data inum block size) = block * ubifsBlockSize + size := by
    rw [Entry.newSize, Nat.add_comm, Nat.mod_eq_of_lt hend]
  -- the nodes of the new index
  have hdata : ∀ i b dn, (s.index.tncAddData inum block ⟨size, true, false⟩).data i b = some dn →
      (i = inum ∧ b = block ∧ dn = ⟨size, true, false⟩) ∨ s.index.data i b = some dn := by
    intro i b dn hdn
    dsimp only [Index.tncAddData] at hdn
    by_cases hi : i = inum
    · subst hi
      rw [Function.update_self] at hdn
      by_cases hb : b = block
      · subst hb
        rw [Function.update_self] at hdn
        exact .inl ⟨rfl, rfl, (Option.some.inj hdn).symm⟩
      · rw [Function.update_of_ne hb] at hdn
        exact .inr hdn
    · rw [Function.update_of_ne hi] at hdn
      exact .inr hdn
  rw [ubifsRecoverSizeAccum, hsize]
  cases hfind : findIno s.sizeTree inum with
  | some e₀ =>
    obtain ⟨he₀, hi₀⟩ := findIno_mem hfind
    constructor
    · intro i b dn hdn hjournal hcut
      rcases hdata i b dn hdn with ⟨rfl, rfl, rfl⟩ | hold
      · refine ⟨_, mem_changeIno.mpr ⟨e₀, he₀, .inl ⟨hi₀, rfl⟩⟩, ?_⟩
        split
        · exact ⟨hi₀, Nat.le_refl _⟩
        · rename_i hle
          exact ⟨hi₀, Nat.le_of_not_lt hle⟩
      · obtain ⟨e, he, rfl, hle⟩ := h.ends i b dn hold hjournal hcut
        by_cases hi : e.inum = inum
        · refine ⟨_, mem_changeIno.mpr ⟨e, he, .inl ⟨hi, rfl⟩⟩, ?_⟩
          split
          · rename_i hgt
            exact ⟨rfl, Nat.le_trans hle (Nat.le_of_lt hgt)⟩
          · exact ⟨rfl, hle⟩
        · exact ⟨e, mem_changeIno.mpr ⟨e, he, .inr ⟨hi, rfl⟩⟩, rfl, hle⟩
    · intro e he hf
      obtain ⟨e₁, he₁, ⟨hi, rfl⟩ | ⟨hi, rfl⟩⟩ := mem_changeIno.mp he
      · -- an inode that the tree has is in the index
        have hsame : ∀ e' : SizeEntry, e'.inum = e₁.inum ∧ e'.iSize = e₁.iSize ∧ e'.found = e₁.found →
            e'.found = true → s.index.ino e'.inum = some e'.iSize := by
          rintro e' ⟨hinum, hisize, hfound'⟩ hf'
          rw [hinum, hisize]
          rw [hfound'] at hf'
          rcases h.sizes e₁ he₁ hf' with hino | ⟨hnone, -⟩
          · exact hino
          · rw [hi] at hnone
            exact absurd hnone (hfound e₁ he₁ hi hf')
        refine .inl (hsame _ ?_ hf)
        split
        · exact ⟨rfl, rfl, rfl⟩
        · exact ⟨rfl, rfl, rfl⟩
      · rcases h.sizes e he₁ hf with hino | ⟨hnone, hdead⟩
        · exact .inl hino
        · refine .inr ⟨hnone, fun b dn hdn => ?_⟩
          rcases hdata _ b dn hdn with ⟨heq, -⟩ | hold
          · exact absurd heq hi
          · exact hdead b dn hold
  | none =>
    constructor
    · intro i b dn hdn hjournal hcut
      rcases hdata i b dn hdn with ⟨rfl, rfl, rfl⟩ | hold
      · exact ⟨_, mem_addIno.mpr (.inl rfl), rfl, Nat.le_refl _⟩
      · obtain ⟨e, he, hi, hle⟩ := h.ends i b dn hold hjournal hcut
        exact ⟨e, mem_addIno.mpr (.inr he), hi, hle⟩
    · intro e he hf
      rcases mem_addIno.mp he with rfl | he
      · cases hf
      · rcases h.sizes e he hf with hino | ⟨hnone, hdead⟩
        · exact .inl hino
        · refine .inr ⟨hnone, fun b dn hdn => ?_⟩
          rcases hdata _ b dn hdn with ⟨heq, -⟩ | hold
          · exact absurd heq (findIno_none hfind e he)
          · exact hdead b dn hold

/-- A truncation is replayed. -/
theorem Tracked.truncate (h : Tracked s) (inum oldSize newSize : Nat) :
    Tracked ⟨(s.index.trunRemoveRange inum oldSize newSize).markCut inum newSize,
      ubifsRecoverSizeAccum s.sizeTree (.trun inum oldSize newSize)⟩ := by
  -- a node that is left was there, and what the truncation cuts is marked
  have hkept : ∀ i b dn, ((s.index.trunRemoveRange inum oldSize newSize).markCut inum newSize).data i b =
      some dn → ∃ dn₀, s.index.data i b = some dn₀ ∧ dn.size = dn₀.size ∧ dn.journal = dn₀.journal ∧
        (dn.cut = false → dn₀.cut = false ∧
          (i = inum → b * ubifsBlockSize + dn.size ≤ newSize)) := by
    intro i b dn hdn
    dsimp only [Index.markCut, Index.trunRemoveRange] at hdn
    by_cases hi : i = inum
    · subst hi
      rw [Function.update_self, Function.update_self] at hdn
      split at hdn
      · cases hdn
      · obtain ⟨dn₀, hold, rfl⟩ := Option.map_eq_some_iff.mp hdn
        refine ⟨dn₀, hold, rfl, rfl, fun hcut => ?_⟩
        obtain ⟨hold₀, hend⟩ := Bool.or_eq_false_iff.mp hcut
        exact ⟨hold₀, fun _ => Nat.le_of_not_lt (of_decide_eq_false hend)⟩
    · rw [Function.update_of_ne hi, Function.update_of_ne hi] at hdn
      exact ⟨dn, hdn, rfl, rfl, fun hcut => ⟨hcut, fun heq => absurd heq hi⟩⟩
  rw [ubifsRecoverSizeAccum]
  constructor
  · intro i b dn hdn hjournal hcut
    obtain ⟨dn₀, hold, hsize, hfrom, hrest⟩ := hkept i b dn hdn
    obtain ⟨hcut₀, hend⟩ := hrest hcut
    obtain ⟨e, he, rfl, hle⟩ := h.ends i b dn₀ hold (hfrom ▸ hjournal) hcut₀
    by_cases hi : e.inum = inum
    · exact ⟨_, mem_changeIno.mpr ⟨e, he, .inl ⟨hi, rfl⟩⟩, rfl, hend hi⟩
    · exact ⟨e, mem_changeIno.mpr ⟨e, he, .inr ⟨hi, rfl⟩⟩, rfl, hsize ▸ hle⟩
  · intro e he hf
    have hsizes : ∀ e₁ ∈ s.sizeTree, e₁.found = true →
        s.index.ino e₁.inum = some e₁.iSize ∨ s.index.ino e₁.inum = none ∧
          ∀ b dn, ((s.index.trunRemoveRange inum oldSize newSize).markCut inum newSize).data e₁.inum b =
            some dn → dn.journal = false := by
      intro e₁ he₁ hf₁
      rcases h.sizes e₁ he₁ hf₁ with hino | ⟨hnone, hdead⟩
      · exact .inl hino
      · refine .inr ⟨hnone, fun b dn hdn => ?_⟩
        obtain ⟨dn₀, hold, -, hfrom, -⟩ := hkept _ b dn hdn
        rw [hfrom]
        exact hdead b dn₀ hold
    obtain ⟨e₁, he₁, ⟨hi, rfl⟩ | ⟨hi, rfl⟩⟩ := mem_changeIno.mp he
    · exact hsizes e₁ he₁ hf
    · exact hsizes _ he₁ hf

/-- Any entry of the journal. -/
theorem Tracked.step {entry : Entry} (h : Tracked s) (hfits : entry.Fits s)
    (hstep : s.step entry = some s') : Tracked s' := by
  rw [State.step] at hstep
  split at hstep
  swap
  · cases hstep
  obtain rfl := Option.some.inj hstep
  cases entry with
  | ino inum size nlink =>
    rw [Index.applyReplayEntry]
    by_cases hlink : nlink = 0
    · rw [if_pos hlink, ubifsRecoverSizeAccum, if_pos hlink]
      exact h.removeIno inum
    · rw [if_neg hlink]
      exact h.addIno inum size nlink hlink
  | data inum block size => exact h.addData inum block size hfits
  | trun inum oldSize newSize => exact h.truncate inum oldSize newSize

end Steps

/-! ## The recovery -/

/-- While the recovery goes through the tree: what is not yet covered has an entry ahead. -/
def Ahead (tree : List SizeEntry) (idx : Index) : Prop :=
  ∀ inum block dn, idx.data inum block = some dn → dn.journal = true →
    (∃ size, idx.ino inum = some size ∧ block * ubifsBlockSize + dn.size ≤ size) ∨
    ∃ e ∈ tree, e.inum = inum ∧ block * ubifsBlockSize + dn.size ≤ e.dSize ∧
      (e.found = true → ∃ size, idx.ino inum = some size ∧ e.iSize ≤ size)

/-- If no truncation has left a node behind, the tree knows of every node that is too far out. -/
theorem Tracked.ahead {s : State} (h : Tracked s) (hcut : s.index.NoneCut) :
    Ahead s.sizeTree s.index := by
  intro inum block dn hdata hjournal
  obtain ⟨e, he, rfl, hend⟩ := h.ends inum block dn hdata hjournal (hcut inum block dn hdata hjournal)
  refine .inr ⟨e, he, rfl, hend, fun hf => ?_⟩
  rcases h.sizes e he hf with hino | ⟨-, hdead⟩
  · exact ⟨e.iSize, hino, Nat.le_refl _⟩
  · rw [hdead block dn hdata] at hjournal
    cases hjournal

section Recovery

variable {e : SizeEntry} {rest : List SizeEntry} {idx idx' : Index} {io : Nat → Option Errno}

/-- If the first entry asks for no more than its inode has, then the rest of the tree will do. -/
theorem Ahead.tail (h : Ahead (e :: rest) idx)
    (hdone : ∀ block dn, idx.data e.inum block = some dn → dn.journal = true →
      block * ubifsBlockSize + dn.size ≤ e.dSize →
      (e.found = true → ∃ size, idx.ino e.inum = some size ∧ e.iSize ≤ size) →
      ∃ size, idx.ino e.inum = some size ∧ block * ubifsBlockSize + dn.size ≤ size) :
    Ahead rest idx := by
  intro inum block dn hdata hjournal
  rcases h inum block dn hdata hjournal with hcovered | ⟨x, hx, rfl, hend, hx'⟩
  · exact .inl hcovered
  · rcases List.mem_cons.mp hx with rfl | hx
    · exact .inl (hdone block dn hdata hjournal hend hx')
    · exact .inr ⟨x, hx, rfl, hend, hx'⟩

/-- A larger size covers what a smaller one covered. -/
theorem Ahead.grow {inum size iSize : Nat} {tree : List SizeEntry} (h : Ahead tree idx)
    (hino : idx.ino inum = some iSize) (hle : iSize ≤ size) : Ahead tree (idx.tncAddIno inum size) := by
  have hgrow : ∀ i n, (∃ m, idx.ino i = some m ∧ n ≤ m) →
      ∃ m, (idx.tncAddIno inum size).ino i = some m ∧ n ≤ m := by
    rintro i n ⟨m, hm, hnm⟩
    by_cases hi : i = inum
    · subst hi
      obtain rfl := Option.some.inj (hino.symm.trans hm)
      exact ⟨size, Function.update_self .., Nat.le_trans hnm hle⟩
    · exact ⟨m, (Function.update_of_ne hi ..).trans hm, hnm⟩
  intro i block dn hdata hjournal
  rcases h i block dn hdata hjournal with hcovered | ⟨x, hx, hi, hend, hx'⟩
  · exact .inl (hgrow i _ hcovered)
  · exact .inr ⟨x, hx, hi, hend, fun hf => hgrow i _ (hx' hf)⟩

end Recovery

/-- An index of a file system without files. -/
def emptyIndex : Index := ⟨fun _ => none, fun _ _ => none, fun _ => []⟩

/-- A new inode whose size is still 0, and the 4096 bytes that were written to one of its blocks. -/
def written (block dSize : Nat) : State :=
  ⟨(emptyIndex.tncAddIno 65 0).tncAddData 65 block ⟨4096, true, false⟩, [⟨65, 0, dSize, true⟩]⟩

end Ubifs.SizeRecovery
