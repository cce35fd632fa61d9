/-
  Reading a directory (`ubifs_readdir` in `dir.c`).

  The file holds the entry that is fed next (`private_data`), and `f_pos` is the hash of its key.  The
  entries are taken from the TNC one after the other, in the order of their keys and names, also when the
  directory is changed between two calls.  `filldir` takes as many entries as there is room for.

  A call is a cursor on the map that the TNC is (`Lib.Cursor`): the next entry is the least one
  above the last that was fed.  Entries are told apart by their names, so two with one hash are
  both fed, one after the other.
-/
import FlashStack.Lib.Cursor
import FlashStack.Ubifs.TncMap

namespace Ubifs.Tnc

open Lib

/-- `UBIFS_S_KEY_HASH_MASK`. -/
def ubifsSKeyHashMask : Nat := 0x1FFFFFFF

namespace Key

/-- `key_hash`. -/
def keyHash (key : Key) : Nat := key.word1 % 2 ^ ubifsSKeyBlockBits

/-- The positions 0, 1 and 2 are those of ".", of ".." and of the end, and no hash of a name is one of
    them. -/
def keyMaskHash (hash : Nat) : Nat :=
  let hash := hash % 2 ^ ubifsSKeyBlockBits
  if hash ≤ 2 then hash + 3 else hash

/-- `dent_key_init_hash`. -/
def dentKeyInitHash (inum : Fin (2 ^ 32)) (hash : Nat) : Key :=
  ⟨inum, word (hash + ubifsDentKey * 2 ^ ubifsSKeyBlockBits)⟩

/-- `lowest_dent_key`. -/
def lowestDentKey (inum : Fin (2 ^ 32)) : Key :=
  ⟨inum, word (ubifsDentKey * 2 ^ ubifsSKeyBlockBits)⟩

end Key

/-- `struct file` -/
structure File where
  fPos : Nat
  privateData : Option (Key × Name)

/-- What `filldir` gets. -/
inductive Filled
  | dot
  | dotdot
  | entry (key : Key) (name : Name)

section

variable {ε : Type} (nodes : Nat → Nat → Except ε Name) (c : Zroot ε) (fuel : Nat)

/-- The loop. -/
def feed : (room : Nat) → File → Key × Name → Except (Stop ε) (File × List Filled)
  | 0, file, _ => .ok (file, [])
  | room + 1, _, (key, name) =>
    match ubifsTncNextEnt nodes key c (some name) fuel with
    | .error .enoent => .ok (⟨2, none⟩, [.entry key name])
    | .error e => .error e
    | .ok dent => do
      let (file, filled) ← feed room ⟨dent.1.keyHash, some dent⟩ dent
      return (file, .entry key name :: filled)

/-- The first entry from `key` on. -/
def feedFrom (key : Key) (room : Nat) : Except (Stop ε) (File × List Filled) :=
  match ubifsTncNextEnt nodes key c none fuel with
  | .error .enoent => .ok (⟨2, none⟩, [])
  | .error e => .error e
  | .ok dent => feed nodes c fuel room ⟨dent.1.keyHash, some dent⟩ dent

/-- `ubifs_readdir`: `.` and `..` first, then the entries from the position on. -/
def ubifsReaddir (inum : Fin (2 ^ 32)) (room : Nat) (file : File) :
    Except (Stop ε) (File × List Filled) :=
  if ubifsSKeyHashMask < file.fPos ∨ file.fPos = 2 then .ok (file, [])
  else if file.fPos = 0 then
    match room with
    | 0 => .ok (file, [])
    | 1 => .ok ({ file with fPos := 1 }, [.dot])
    | room + 2 => do
      let (file, filled) ← feedFrom nodes c fuel (.lowestDentKey inum) room
      return (file, .dot :: .dotdot :: filled)
  else if file.fPos = 1 then
    match room with
    | 0 => .ok (file, [])
    | room + 1 => do
      let (file, filled) ← feedFrom nodes c fuel (.lowestDentKey inum) room
      return (file, .dotdot :: filled)
  else
    match file.privateData with
    | none => feedFrom nodes c fuel (.dentKeyInitHash inum file.fPos) room
    | some dent => feed nodes c fuel room file dent

end

/-- Calls, with changes of the directory between them. -/
inductive Action (ε : Type)
  | change (op : Op ε)
  | readdir (room : Nat)

/-- What happens between the calls, and the calls, one after the other. -/
def Action.run {ε : Type} (fanout : Nat) (inum : Fin (2 ^ 32)) :
    List (Action ε) → Index ε → File → Except (Stop ε) (Index ε × File × List Filled)
  | [], index, file => .ok (index, file, [])
  | .change op :: acts, index, file => do run fanout inum acts (← op.step fanout index) file
  | .readdir room :: acts, index, file => do
    let (file, filled) ← ubifsReaddir index.nodes index.c (index.c.leaves.length + 1) inum room file
    let (index, file, rest) ← run fanout inum acts index file
    return (index, file, filled ++ rest)

/-! ## The next entry -/

section

variable {ε : Type} {c : Zroot ε} {key : Key} {nm : Name} {fanout : Nat} {nodes : Nat → Nat → Except ε Name}

/-- The keys of an inode and of one kind are neighbours. -/
theorem Key.between {a b c : Key} (hab : a ≤ b) (hbc : b ≤ c) (hinum : c.keyInum = a.keyInum)
    (htype : c.keyType = a.keyType) : b.keyInum = a.keyInum ∧ b.keyType = a.keyType := by
  have hle : ∀ {a b : Key}, a ≤ b → a.word0 < b.word0 ∨ a.word0 = b.word0 ∧ a.word1 ≤ b.word1 := by
    intro a b h
    rcases lt_or_eq_of_le h with h | rfl
    · exact (lt_iff.mp h).imp id fun h => ⟨h.1, h.2.le⟩
    · exact .inr ⟨rfl, le_refl _⟩
  have hword : c.word0 = a.word0 := Fin.val_injective hinum
  rcases hle hab with hlt | ⟨h0, h1⟩
  · rcases hle hbc with hlt' | ⟨h0', -⟩
    · exact absurd (hlt.trans hlt') (hword ▸ lt_irrefl _)
    · exact absurd hlt (by rw [h0', hword]; exact lt_irrefl _)
  · rcases hle hbc with hlt' | ⟨-, h1'⟩
    · exact absurd hlt' (by rw [← h0, hword]; exact lt_irrefl _)
    · refine ⟨congrArg Fin.val h0.symm, le_antisymm ?_ ?_⟩
      · exact htype ▸ Nat.div_le_div_right h1'
      · exact Nat.div_le_div_right h1

/-- An entry of the inode, and of the kind, that the key is of. -/
def InDir (key : Key) (e : Key ×ₗ Name) : Prop :=
  (ofLex e).1.keyInum = key.keyInum ∧ (ofLex e).1.keyType = key.keyType

theorem Hashed.of_type {key key' : Key} (h : Hashed key) (htype : key'.keyType = key.keyType) :
    Hashed key' := by
  rw [Hashed, Key.isHashKey, htype]
  exact h

/-- An entry is there if a leaf has it. -/
theorem present_iff {e : Key ×ₗ Name} : c.map nodes e ≠ none ↔ ∃ x ∈ c.leaves, entry nodes x = e := by
  rw [Zroot.map, ne_eq, valueAt_eq_none_iff]
  simp

/-- From where a name was found, or would be, the next leaf is the next entry. -/
theorem Resolved.next {e : Key ×ₗ Name} {x : Except (Stop ε) (Bool × Loc ε)} (hx : Resolved nodes c e x)
    (h : c.Good nodes fanout) : ∃ found loc, x = .ok (found, loc) ∧
      ((∃ loc' l zbr r, tncNext loc = .ok loc' ∧ loc'.On c l zbr r ∧ (∀ y ∈ l, entry nodes y ≤ e) ∧
          e < entry nodes zbr) ∨
        tncNext loc = .error .enoent ∧ ∀ y ∈ c.leaves, entry nodes y ≤ e) := by
  rcases hx with ⟨loc, l, zbr, r, rfl, hon, rfl⟩ | ⟨loc, m, rfl, hgap, hlow, hhigh⟩
  · have hrow := h.row hon
    have hle : ∀ y ∈ l ++ [zbr], entry nodes y ≤ entry nodes zbr := by
      intro y hy
      rcases List.mem_append.mp hy with hy | hy
      · exact (hrow.around.1 y hy).le
      · rw [List.mem_singleton.mp hy]
    refine ⟨true, loc, rfl, ?_⟩
    rcases (tncNext_ends h.ordered hon).ok_or h.small with ⟨loc', hnext, zbr', r', rfl, hon'⟩ | ⟨hnext, rfl⟩
    · exact .inl ⟨loc', _, zbr', r', hnext, hon', hle, hrow.around.2 zbr' List.mem_cons_self⟩
    · exact .inr ⟨hnext, hon.split ▸ hle⟩
  · refine ⟨false, loc, rfl, ?_⟩
    rcases (hgap.next_ends h.ordered).ok_or h.small with ⟨loc', hnext, zbr, r, hon, hrest⟩ | ⟨hnext, hnil⟩
    · exact .inl ⟨loc', _, zbr, r, hnext, hon, fun y hy => (hlow y hy).le,
        hhigh zbr (hrest ▸ List.mem_cons_self)⟩
    · refine .inr ⟨hnext, ?_⟩
      rw [hgap.leaves_eq, hnil, List.append_nil]
      exact fun y hy => (hlow y hy).le

/-- The entry behind the place that a search has found. -/
theorem Resolved.nextEnt {x : Except (Stop ε) (Bool × Loc ε)} (hx : Resolved nodes c (toLex (key, nm)) x)
    (h : c.Good nodes fanout) (hkey : Hashed key) :
    ∃ next, IsNext (InDir key) (fun e => c.map nodes e ≠ none) (toLex (key, nm) < ·) next ∧
      (do
        let (_, loc) ← x
        let loc ← tncNext loc
        let zbr ← loc.zbranch
        if zbr.key.keyInum ≠ key.keyInum ∨ zbr.key.keyType ≠ key.keyType then .error .enoent
        else return (zbr.key, ← readName nodes zbr.lnum zbr.offs)) =
        next.elim (.error .enoent) fun e => .ok (ofLex e) := by
  obtain ⟨found, loc, rfl, hnext⟩ := hx.next h
  simp only [Bind.bind, Except.bind]
  rcases hnext with ⟨loc', l, zbr, r, hnext, hon, hle, hlt⟩ | ⟨hnext, hle⟩
  swap
  · refine ⟨none, fun e hpresent hafter => ?_, by rw [hnext]; rfl⟩
    obtain ⟨y, hy, rfl⟩ := present_iff.mp hpresent
    exact absurd hafter (not_lt.mpr (hle y hy))
  have hmem : zbr ∈ c.leaves := hon.split ▸ List.mem_append_right _ List.mem_cons_self
  have hleast : ∀ e, c.map nodes e ≠ none → toLex (key, nm) < e → entry nodes zbr ≤ e := by
    intro e hpresent hafter
    obtain ⟨y, hy, rfl⟩ := present_iff.mp hpresent
    rw [← hon.split] at hy
    rcases List.mem_append.mp hy with hy | hy
    · exact absurd hafter (not_lt.mpr (hle y hy))
    · rcases List.mem_cons.mp hy with rfl | hy
      · exact le_refl _
      · exact ((h.row hon).around.2 y hy).le
  rw [hnext]
  dsimp only
  rw [hon.zbranch]
  dsimp only
  by_cases hdir : zbr.key.keyInum = key.keyInum ∧ zbr.key.keyType = key.keyType
  · have hhash := hkey.of_type hdir.2
    obtain ⟨name, hname⟩ := h.readable zbr hmem hhash
    have hentry : entry nodes zbr = toLex (zbr.key, name) := by rw [entry_hashed hhash, nameAt, hname]
    refine ⟨some (entry nodes zbr), ⟨hdir, present_iff.mpr ⟨zbr, hmem, rfl⟩, hlt, hleast⟩, ?_⟩
    rw [if_neg (by simp [hdir]), readName, hname, hentry]
    rfl
  · refine ⟨none, fun e hpresent hafter hin => hdir ?_, ?_⟩
    · refine Key.between (le_key_of_entry hlt) ?_ hin.1 hin.2
      rcases Prod.Lex.le_iff.mp (hleast e hpresent hafter) with hlt' | ⟨heq, -⟩
      · exact le_of_lt hlt'
      · exact le_of_eq heq
    · rw [if_pos (by tauto)]
      rfl

theorem ubifsTncNextEnt_name (h : c.Good nodes fanout) (hkey : Hashed key) (nm : Name) :
    ∃ next, IsNext (InDir key) (fun e => c.map nodes e ≠ none) (toLex (key, nm) < ·) next ∧
      ubifsTncNextEnt nodes key c (some nm) (c.leaves.length + 1) =
        next.elim (.error .enoent) fun e => .ok (ofLex e) := by
  have hresolved := lookupNm_ok h hkey nm (Nat.lt_succ_self c.leaves.length)
  obtain ⟨next, hnext, hrun⟩ := hresolved.nextEnt h hkey
  refine ⟨next, hnext, hrun ▸ ?_⟩
  rw [ubifsTncNextEnt]

/-- Without a name, and where no entry has the key. -/
theorem ubifsTncNextEnt_first (h : c.Good nodes fanout) (hkey : Hashed key)
    (habsent : ∀ nm, c.map nodes (toLex (key, nm)) = none) (fuel : Nat) :
    ∃ next, IsNext (InDir key) (fun e => c.map nodes e ≠ none) (toLex (key, []) < ·) next ∧
      ubifsTncNextEnt nodes key c none fuel = next.elim (.error .enoent) fun e => .ok (ofLex e) := by
  rcases lookup_ok h.ordered h.small key with ⟨loc, l, zbr, r, hrun, hon, rfl⟩ | ⟨loc, m, hrun, hgap, hnone⟩
  · have hmem : zbr ∈ c.leaves := hon.split ▸ List.mem_append_right _ List.mem_cons_self
    refine absurd (habsent (nameAt nodes zbr.lnum zbr.offs)) (present_iff.mpr ⟨zbr, hmem, entry_hashed hkey⟩)
  · have hresolved : Resolved nodes c (toLex (key, [])) (.ok (false, loc)) :=
      .inr ⟨loc, m, rfl, hgap, fun x hx => entry_lt_of_key ((hgap.lt hnone).1 x hx),
        fun x hx => lt_entry_of_key ((hgap.lt hnone).2 x hx)⟩
    obtain ⟨next, hnext, hres⟩ := hresolved.nextEnt h hkey
    refine ⟨next, hnext, hres ▸ ?_⟩
    rw [ubifsTncNextEnt, hrun]
    rfl

/-! ## Reading, call by call -/

/-- Where the file is. -/
def File.Is (file : File) : Cursor (Key ×ₗ Name) → Prop
  | .start => file.fPos ≤ 1 ∧ file.privateData = none
  | .on e => file.fPos = (ofLex e).1.keyHash ∧ 2 < file.fPos ∧ file.privateData = some (ofLex e)
  | .done => file.fPos = 2

/-- The entries among what was filled in. -/
def entriesOf (filled : List Filled) : List (Key ×ₗ Name) :=
  filled.filterMap fun
    | .entry key name => some (toLex (key, name))
    | _ => none

/-- The file has been read up to here: `fed` are the entries that were filled in, `kept` those that were in
    the directory all the time, and `seen` those that were there at any time. -/
structure File.Reading (key : Key) (kept seen : Key ×ₗ Name → Prop) (fed : List (Key ×ₗ Name))
    (file : File) : Prop where
  walked : ∃ cur, file.Is cur ∧ Walked (InDir key) kept fed cur ∧ ∀ e, cur = .on e → seen e
  seen : ∀ e ∈ fed, seen e

/-- No hash is one of the three positions that are used otherwise. -/
def Masked (map : Key ×ₗ Name → Option (Nat × Nat)) : Prop :=
  ∀ e, map e ≠ none → Hashed (ofLex e).1 → 2 < (ofLex e).1.keyHash

variable {kept seen : Key ×ₗ Name → Prop} {fed : List (Key ×ₗ Name)} {file : File}

/-- A hash has its bits. -/
theorem Key.keyHash_le (key : Key) : key.keyHash ≤ ubifsSKeyHashMask :=
  Nat.le_of_lt_succ (Nat.mod_lt _ (by decide))

theorem lowestDentKey_hashed (inum : Fin (2 ^ 32)) : Hashed (.lowestDentKey inum) := by
  change Key.isHashKey ⟨word 0, word (ubifsDentKey * 2 ^ ubifsSKeyBlockBits)⟩ = true
  decide +kernel

/-- It is in front of all entries. -/
theorem lowestDentKey_hash (inum : Fin (2 ^ 32)) : (Key.lowestDentKey inum).keyHash = 0 := by
  change (Key.mk (word 0) (word (ubifsDentKey * 2 ^ ubifsSKeyBlockBits))).keyHash = 0
  decide +kernel

/-- All entries are behind the lowest key. -/
theorem lowestDentKey_lt {inum : Fin (2 ^ 32)} {e : Key ×ₗ Name} (hdir : InDir (.lowestDentKey inum) e)
    (hhash : 2 < (ofLex e).1.keyHash) : toLex (Key.lowestDentKey inum, []) < e := by
  have hword : (Key.lowestDentKey inum).word0 = (ofLex e).1.word0 := Fin.val_injective hdir.1.symm
  have hlow := lowestDentKey_hash inum
  have htype := hdir.2
  refine Prod.Lex.lt_iff.mpr (.inl (Key.lt_iff.mpr (.inr ⟨hword, ?_⟩)))
  unfold Key.keyHash ubifsSKeyBlockBits at hlow hhash
  unfold Key.keyType ubifsSKeyBlockBits at htype
  rw [Fin.lt_def]
  change (Key.lowestDentKey inum).word1.val < (ofLex e).1.word1.val
  omega

/-- A dent is held until there is room for it. -/
theorem feed_reads (h : c.Good nodes fanout) (hmasked : Masked (c.map nodes)) (hkey : Hashed key)
    (hkept : ∀ e, kept e → c.map nodes e ≠ none) (hseen : ∀ e, c.map nodes e ≠ none → seen e)
    {room : Nat} {e : Key ×ₗ Name} (his : file.Is (.on e)) (hw : Walked (InDir key) kept fed (.on e))
    (he : seen e) (hfed : ∀ e ∈ fed, seen e) :
    ∃ file' filled, feed nodes c (c.leaves.length + 1) room file (ofLex e) = .ok (file', filled) ∧
      file'.Reading key kept seen (fed ++ entriesOf filled) := by
  induction room generalizing file e fed with
  | zero =>
    refine ⟨file, [], rfl, ⟨.on e, his, ?_, fun e' he' => ?_⟩, ?_⟩
    · exact (List.append_nil fed).symm ▸ hw
    · obtain rfl : e = e' := Cursor.on.inj he'
      exact he
    · exact (List.append_nil fed).symm ▸ hfed
  | succ room ih =>
    have hdir := hw.reached.1
    have hhash : Hashed (ofLex e).1 := hkey.of_type hdir.2
    have hsame : InDir (ofLex e).1 = InDir key := by
      funext e'
      rw [InDir, InDir, hdir.1, hdir.2]
    have hfed' : ∀ x ∈ fed ++ [e], seen x := by
      intro x hx
      rcases List.mem_append.mp hx with hx | hx
      · exact hfed x hx
      · exact List.mem_singleton.mp hx ▸ he
    obtain ⟨next, hnext, hrun⟩ := ubifsTncNextEnt_name h hhash (ofLex e).2
    have hw' := hw.next hkept (hsame ▸ hnext)
    rw [feed, hrun]
    cases next with
    | none => exact ⟨⟨2, none⟩, _, rfl, ⟨.done, rfl, hw', fun _ hon => by cases hon⟩, hfed'⟩
    | some e' =>
      obtain ⟨hdir', hpresent, -, -⟩ := hnext
      have hmask := hmasked e' hpresent (hhash.of_type hdir'.2)
      obtain ⟨file', filled, hrest, hreading⟩ := @ih (fed ++ [e]) ⟨(ofLex e').1.keyHash, some (ofLex e')⟩ e'
        ⟨rfl, hmask, rfl⟩ hw' (hseen e' hpresent) hfed'
      rw [List.append_assoc] at hreading
      refine ⟨file', .entry (ofLex e).1 (ofLex e).2 :: filled, ?_, hreading⟩
      change (feed nodes c (c.leaves.length + 1) room _ (ofLex e') >>= _) = _
      rw [hrest]
      rfl

/-- The entries are handed over in order, as long as there is room. -/
theorem feedFrom_reads {inum : Fin (2 ^ 32)} (h : c.Good nodes fanout) (hmasked : Masked (c.map nodes))
    (hkept : ∀ e, kept e → c.map nodes e ≠ none) (hseen : ∀ e, c.map nodes e ≠ none → seen e) (room : Nat) :
    ∃ file' filled, feedFrom nodes c (c.leaves.length + 1) (.lowestDentKey inum) room = .ok (file', filled) ∧
      file'.Reading (.lowestDentKey inum) kept seen (entriesOf filled) := by
  have hkey := lowestDentKey_hashed inum
  have habsent : ∀ nm, c.map nodes (toLex (Key.lowestDentKey inum, nm)) = none := by
    intro nm
    by_contra hpresent
    have hmask := hmasked _ hpresent hkey
    rw [show (ofLex (toLex (Key.lowestDentKey inum, nm))).1.keyHash = 0 from lowestDentKey_hash inum] at hmask
    omega
  obtain ⟨next, hnext, hrun⟩ := ubifsTncNextEnt_first h hkey habsent (c.leaves.length + 1)
  have hw : Walked (InDir (.lowestDentKey inum)) kept [] (next.elim .done .on) :=
    Walked.first hkept (fun e hdir hpresent =>
      lowestDentKey_lt hdir (hmasked e hpresent (hkey.of_type hdir.2))) hnext
  rw [feedFrom, hrun]
  cases next with
  | none => exact ⟨⟨2, none⟩, [], rfl, ⟨.done, rfl, hw, fun _ hon => by cases hon⟩, List.forall_mem_nil _⟩
  | some e =>
    obtain ⟨hdir, hpresent, -, -⟩ := hnext
    exact @feed_reads ε c _ fanout nodes kept seen [] ⟨(ofLex e).1.keyHash, some (ofLex e)⟩ h hmasked hkey hkept
      hseen room e ⟨rfl, hmasked e hpresent (hkey.of_type hdir.2), rfl⟩ hw (hseen e hpresent) (List.forall_mem_nil _)

/-- A call that hands over nothing. -/
theorem File.Reading.append_nil (h : file.Reading key kept seen fed) :
    file.Reading key kept seen (fed ++ entriesOf []) := by
  rwa [entriesOf, List.filterMap_nil, List.append_nil]

/-- One call. -/
theorem ubifsReaddir_reads {inum : Fin (2 ^ 32)} (h : c.Good nodes fanout) (hmasked : Masked (c.map nodes))
    (hkept : ∀ e, kept e → c.map nodes e ≠ none) (hseen : ∀ e, c.map nodes e ≠ none → seen e) (room : Nat)
    (hread : file.Reading (.lowestDentKey inum) kept seen fed) :
    ∃ file' filled, ubifsReaddir nodes c (c.leaves.length + 1) inum room file = .ok (file', filled) ∧
      file'.Reading (.lowestDentKey inum) kept seen (fed ++ entriesOf filled) := by
  obtain ⟨⟨cur, his, hw, hon⟩, hfed⟩ := id hread
  unfold ubifsReaddir
  cases cur with
  | start =>
    obtain rfl : fed = [] := hw.reached
    have hstart : ∀ n ≤ 1, (File.mk n none).Reading (.lowestDentKey inum) kept seen [] := fun n hn =>
      ⟨⟨.start, ⟨hn, rfl⟩, Walked.start, fun _ hon => by cases hon⟩, List.forall_mem_nil _⟩
    obtain ⟨fPos, privateData⟩ := file
    obtain ⟨hpos, rfl⟩ : fPos ≤ 1 ∧ privateData = none := his
    rw [if_neg (by unfold ubifsSKeyHashMask; dsimp only; omega)]
    by_cases hzero : fPos = 0
    · rw [if_pos hzero]
      match room with
      | 0 => exact ⟨_, [], rfl, hstart fPos hpos⟩
      | 1 => exact ⟨_, [.dot], rfl, hstart 1 (Nat.le_refl 1)⟩
      | room + 2 =>
        obtain ⟨file', filled, hrun, hreading⟩ := @feedFrom_reads ε c fanout nodes kept seen inum h hmasked
          hkept hseen room
        exact ⟨file', .dot :: .dotdot :: filled, by dsimp only; rw [hrun]; rfl, hreading⟩
    · rw [if_neg hzero, if_pos (show fPos = 1 by omega)]
      match room with
      | 0 => exact ⟨_, [], rfl, hstart fPos hpos⟩
      | room + 1 =>
        obtain ⟨file', filled, hrun, hreading⟩ := @feedFrom_reads ε c fanout nodes kept seen inum h hmasked
          hkept hseen room
        exact ⟨file', .dotdot :: filled, by dsimp only; rw [hrun]; rfl, hreading⟩
  | on e =>
    obtain ⟨hpos, hgt, hdata⟩ := id his
    have hle := Key.keyHash_le (ofLex e).1
    rw [if_neg (by omega), if_neg (by omega), if_neg (by omega), hdata]
    exact feed_reads h hmasked (lowestDentKey_hashed inum) hkept hseen his hw (hon e rfl) hfed
  | done =>
    rw [if_pos (.inr his)]
    exact ⟨file, [], rfl, hread.append_nil⟩

/-! ## Reading while the directory is changed -/

namespace Action

/-- The entry is in the index all the time. -/
def Always (e : Key ×ₗ Name) : (Key ×ₗ Name → Option (Nat × Nat)) → List (Action ε) → Prop
  | map, [] => map e ≠ none
  | map, .change op :: acts => map e ≠ none ∧ Always e (op.apply map) acts
  | map, .readdir _ :: acts => Always e map acts

/-- The entry is in the index at some time. -/
def Sometimes (e : Key ×ₗ Name) : (Key ×ₗ Name → Option (Nat × Nat)) → List (Action ε) → Prop
  | map, [] => map e ≠ none
  | map, .change op :: acts => map e ≠ none ∨ Sometimes e (op.apply map) acts
  | map, .readdir _ :: acts => Sometimes e map acts

/-- Each change is allowed where it is made, and new entries have hashes of names. -/
def AllAllowed : (Nat → Nat → Except ε Name) → (Key ×ₗ Name → Option (Nat × Nat)) → List (Action ε) → Prop
  | _, _, [] => True
  | nodes, map, .change op :: acts =>
    op.Allowed nodes map ∧ (∀ key nm lnum offs, op = .addNm key nm lnum offs → 2 < key.keyHash) ∧
      AllAllowed (op.flash nodes) (op.apply map) acts
  | nodes, map, .readdir _ :: acts => AllAllowed nodes map acts

variable {map : Key ×ₗ Name → Option (Nat × Nat)} {e : Key ×ₗ Name}

/-- What is always there is there now. -/
theorem Always.now {acts : List (Action ε)} (h : Always e map acts) : map e ≠ none := by
  induction acts with
  | nil => exact h
  | cons act acts ih =>
    cases act with
    | change op => exact h.1
    | readdir room => exact ih h

theorem Sometimes.of_now {acts : List (Action ε)} (h : map e ≠ none) : Sometimes e map acts := by
  induction acts with
  | nil => exact h
  | cons act acts ih =>
    cases act with
    | change op => exact .inl h
    | readdir room => exact ih

end Action

/-- Hashes are above two, as those of `.` and `..` are not. -/
theorem Masked.apply {op : Op ε} {map : Key ×ₗ Name → Option (Nat × Nat)} (h : Masked map)
    (hkey : op.Fits nodes map) (hnew : ∀ key nm lnum offs, op = .addNm key nm lnum offs → 2 < key.keyHash) :
    Masked (op.apply map) := by
  have hupdate : ∀ (k : Key ×ₗ Name) (v : Option (Nat × Nat)), (v ≠ none → Hashed (ofLex k).1 →
      2 < (ofLex k).1.keyHash) → Masked (Function.update map k v) := by
    intro k v hk e he hhash
    by_cases hsame : e = k
    · subst hsame
      rw [Function.update_self] at he
      exact hk he hhash
    · rw [Function.update_of_ne hsame] at he
      exact h e he hhash
  cases op with
  | write lnum offs node => exact h
  | add key lnum offs => exact hupdate _ _ fun _ hhash => absurd hhash hkey
  | addNm key nm lnum offs => exact hupdate _ _ fun _ _ => hnew key nm lnum offs rfl
  | replace key oldLnum oldOffs lnum offs =>
    intro e he hhash
    refine h e ?_ hhash
    intro hnone
    simp [Op.apply, hnone] at he
  | remove key => exact hupdate _ _ fun hv => absurd rfl hv
  | removeNm key nm => exact hupdate _ _ fun hv => absurd rfl hv
  | removeRange fromKey toKey =>
    intro e he hhash
    refine h e ?_ hhash
    intro hnone
    simp [Op.apply, hnone] at he

/-- Calls, with changes in between. -/
theorem run_reads (hfanout : 3 ≤ fanout) {inum : Fin (2 ^ 32)} (acts : List (Action ε)) {index : Index ε}
    (hgood : index.c.Good index.nodes fanout) (hmasked : Masked (index.c.map index.nodes))
    (hacts : Action.AllAllowed index.nodes (index.c.map index.nodes) acts)
    (hkept : ∀ e, kept e → index.c.map index.nodes e ≠ none)
    (hseen : ∀ e, index.c.map index.nodes e ≠ none → seen e)
    (hread : file.Reading (.lowestDentKey inum) kept seen fed) :
    ∃ index' file' filled, Action.run fanout inum acts index file = .ok (index', file', filled) ∧
      file'.Reading (.lowestDentKey inum)
        (fun e => kept e ∧ Action.Always e (index.c.map index.nodes) acts)
        (fun e => seen e ∨ Action.Sometimes e (index.c.map index.nodes) acts) (fed ++ entriesOf filled) := by
  have hweaken : ∀ {kept' seen' : Key ×ₗ Name → Prop} {fed : List (Key ×ₗ Name)} {file : File}
      {kept seen : Key ×ₗ Name → Prop}, file.Reading (.lowestDentKey inum) kept seen fed →
      (∀ e, kept' e → kept e) → (∀ e, seen e → seen' e) →
      file.Reading (.lowestDentKey inum) kept' seen' fed := by
    rintro kept' seen' fed file kept seen ⟨⟨cur, his, hw, hon⟩, hfed⟩ hk hs
    exact ⟨⟨cur, his, hw.mono hk, fun e he => hs e (hon e he)⟩, fun e he => hs e (hfed e he)⟩
  induction acts generalizing index file fed kept seen with
  | nil =>
    exact ⟨index, file, [], rfl, hweaken hread.append_nil (fun _ h => h.1) fun _ h => .inl h⟩
  | cons act acts ih =>
    cases act with
    | change op =>
      obtain ⟨hop, hnew, hrest⟩ := hacts
      obtain ⟨c', hrun, hgood', hmap⟩ := Op.perform_maps hgood hfanout hop
      have hmasked' := hmasked.apply hop.1 hnew
      rw [← hmap] at hrest hmasked'
      obtain ⟨index', file', filled, hrun', hreading⟩ := @ih
        (fun e => kept e ∧ op.apply (index.c.map index.nodes) e ≠ none)
        (fun e => seen e ∨ op.apply (index.c.map index.nodes) e ≠ none) fed file ⟨op.flash index.nodes, c'⟩
        hgood' hmasked' hrest (fun e he => hmap ▸ he.2) (fun e he => .inr (hmap ▸ he))
        (hweaken hread (fun _ h => h.1) fun _ h => .inl h)
      rw [hmap] at hreading
      refine ⟨index', file', filled, ?_, hweaken hreading ?_ ?_⟩
      · rw [Action.run, Op.step, hrun]
        exact hrun'
      · exact fun e he => ⟨⟨he.1, he.2.2.now⟩, he.2.2⟩
      · rintro e ((he | he) | he)
        · exact .inl he
        · exact .inr (.inr (.of_now he))
        · exact .inr (.inr he)
    | readdir room =>
      obtain ⟨file₁, filled, hrun, hread₁⟩ := ubifsReaddir_reads hgood hmasked hkept hseen room hread
      obtain ⟨index', file', rest, hrun', hreading⟩ := ih hgood hmasked hacts hkept hseen hread₁
      refine ⟨index', file', filled ++ rest, ?_, ?_⟩
      · rw [Action.run, hrun]
        change (Action.run fanout inum acts index file₁ >>= _) = _
        rw [hrun']
        rfl
      · rwa [entriesOf, List.filterMap_append, ← List.append_assoc]

/-- **A directory is read while it is changed.**  No entry is fed twice, and they come in order; each of
    them has been in the directory; and at the end every entry has been fed that was there all the time. -/
theorem readdir_consistent (hfanout : 3 ≤ fanout) (inum : Fin (2 ^ 32)) (acts : List (Action ε))
    (index : Index ε) (hgood : index.c.Good index.nodes fanout) (hmasked : Masked (index.c.map index.nodes))
    (hacts : Action.AllAllowed index.nodes (index.c.map index.nodes) acts) :
    ∃ index' file filled, Action.run fanout inum acts index ⟨0, none⟩ = .ok (index', file, filled) ∧
      (entriesOf filled).Pairwise (· < ·) ∧
      (∀ e ∈ entriesOf filled, InDir (.lowestDentKey inum) e ∧
        Action.Sometimes e (index.c.map index.nodes) acts) ∧
      (file.fPos = 2 → ∀ e, InDir (.lowestDentKey inum) e →
        Action.Always e (index.c.map index.nodes) acts → e ∈ entriesOf filled) := by
  have hstart : File.Reading (.lowestDentKey inum) (fun e => index.c.map index.nodes e ≠ none)
      (fun e => index.c.map index.nodes e ≠ none) [] ⟨0, none⟩ :=
    ⟨⟨.start, ⟨Nat.zero_le 1, rfl⟩, Walked.start, fun _ hon => by cases hon⟩, List.forall_mem_nil _⟩
  obtain ⟨index', file, filled, hrun, ⟨cur, his, hw, -⟩, hfed⟩ :=
    run_reads hfanout acts hgood hmasked hacts (fun _ h => h) (fun _ h => h) hstart
  rw [List.nil_append] at hw hfed
  refine ⟨index', file, filled, hrun, hw.sorted, fun e he => ⟨hw.inside e he, ?_⟩, ?_⟩
  · exact (hfed e he).elim .of_now id
  · intro hpos e hdir halways
    cases cur with
    | start =>
      obtain ⟨hle, -⟩ := his
      omega
    | on e' =>
      obtain ⟨-, hgt, -⟩ := his
      omega
    | done => exact hw.reached e hdir ⟨halways.now, halways⟩

end

namespace Directory

/-- An inode, and an entry. -/
def started : Index Unit := ⟨fun _ _ => .ok nameB, ⟨0, [⟨inode, 20, 0⟩, ⟨dentry, 21, 0⟩], none⟩⟩

/-- While the entry is fed, another one with this key comes and goes. -/
def reading : List (Action Unit) :=
  [.readdir 2, .change (.write 21 160 (.ok nameA)), .change (.addNm dentry nameA 21 160), .readdir 1,
    .change (.removeNm dentry nameA), .readdir 5]

theorem readdir_consistent_collision : ∃ index' file filled,
    Action.run 3 (word 1) reading started ⟨0, none⟩ = .ok (index', file, filled) ∧
      (entriesOf filled).Pairwise (· < ·) ∧ (file.fPos = 2 → toLex (dentry, nameB) ∈ entriesOf filled) := by
  have hkey : Hashed dentry := by unfold Hashed; decide +kernel
  have hroot : ¬Hashed inode := by unfold Hashed; decide +kernel
  have hlt : inode < dentry := by decide +kernel
  have hgood : started.c.Good started.nodes 3 := by
    refine ⟨⟨List.cons_ne_nil _ _, List.pairwise_pair.mpr (.inl hlt)⟩, ⟨rfl, show List.length _ ≤ 3 by decide⟩,
      List.pairwise_pair.mpr ?_, fun x _ _ => ⟨nameB, rfl⟩⟩
    exact Prod.Lex.toLex_lt_toLex.mpr (.inl hlt)
  have hat : ∀ e p, started.c.map started.nodes e = some p → p = (20, 0) ∨ p = (21, 0) ∧ (ofLex e).1 = dentry := by
    intro e p hmap
    obtain ⟨x, hx, rfl, rfl⟩ := hgood.sorted.valueAt_eq_some_iff.mp hmap
    rcases List.mem_cons.mp hx with rfl | hx
    · exact .inl rfl
    · rw [List.mem_singleton.mp hx]
      exact .inr ⟨rfl, rfl⟩
  have hmasked : Masked (started.c.map started.nodes) := by
    intro e he hhash
    obtain ⟨x, hx, rfl⟩ := present_iff.mp he
    rcases List.mem_cons.mp hx with rfl | hx
    · exact absurd hhash hroot
    · rw [List.mem_singleton.mp hx]
      exact show 2 < dentry.keyHash by decide +kernel
  have hfree : ∀ e, started.c.map started.nodes e ≠ some (21, 160) := by
    intro e hmap
    rcases hat e _ hmap with hp | ⟨hp, -⟩
    · exact absurd hp (by decide)
    · exact absurd hp (by decide)
  have hacts : Action.AllAllowed started.nodes (started.c.map started.nodes) reading := by
    refine ⟨⟨hfree, toLex (inode, []), ?_⟩, fun _ _ _ _ h => (by cases h),
      ⟨⟨hkey, rfl⟩, toLex (inode, []), ?_⟩, ?_, ⟨hkey, toLex (inode, []), ?_⟩,
      fun _ _ _ _ h => (by cases h), trivial⟩
    · decide +kernel
    · decide +kernel
    · rintro key nm lnum offs ⟨⟩
      decide +kernel
    · decide +kernel
  obtain ⟨index', file, filled, hrun, hsorted, -, hall⟩ :=
    readdir_consistent (Nat.le_refl 3) (word 1) reading started hgood hmasked hacts
  refine ⟨index', file, filled, hrun, hsorted, fun hend => hall hend _ ⟨?_, ?_⟩ ⟨?_, ?_, ?_, ?_⟩⟩
  · decide +kernel
  · decide +kernel
  · decide +kernel
  · decide +kernel
  · decide +kernel
  · change Op.apply _ _ _ ≠ none
    decide +kernel

end Directory

end Ubifs.Tnc
