/-
  Collisions in the TNC are resolved.

  The leaves are in the order of their keys and, among those with one key, of their names.  A walk over
  colliding entries ends at the entry with the name, or at the place where it would be; this is next to an
  entry with the key, so that the keys of the parents allow it (`Place`).

  `entry` pairs a key with the name that is read from the leaf node, and the pairs are in strict
  order.  The walk to the left and the walk to the right have the same result (`Resolved`), which
  does not tell where the look-up came in.
-/
import FlashStack.Lib.SortedRow
import FlashStack.Ubifs.TncNames
import FlashStack.Ubifs.TncRow

namespace Ubifs.Tnc

open Lib

variable {ε : Type} {c : Zroot ε} {key : Key} {nm : Name} {fanout : Nat}

/-! ## Names -/

/-- The answer is right about the two names. -/
def NameIs.Right (name nm : Name) : NameIs → Prop
  | .nameLess => name < nm
  | .nameMatches => name = nm
  | .nameGreater => nm < name

/-- Names are compared letter by letter. -/
theorem compareName_cons {a b : Fin 256} {s t : Name} : compareName (a :: s) (b :: t) =
    if a < b then .nameLess else if b < a then .nameGreater else compareName s t := by
  unfold compareName
  rw [memcmp]
  by_cases hlt : a < b
  · rw [if_pos hlt, if_pos hlt]
  · by_cases hgt : b < a
    · rw [if_neg hlt, if_pos hgt, if_neg hlt, if_pos hgt]
    · rw [if_neg hlt, if_neg hgt, if_neg hlt, if_neg hgt]
      simp only [List.length_cons, Nat.add_right_cancel_iff, Nat.add_lt_add_iff_right]

/-- Names are compared as lists are. -/
theorem compareName_right : ∀ name nm : Name, (compareName name nm).Right name nm
  | [], [] => rfl
  | [], b :: t => List.nil_lt_cons b t
  | a :: s, [] => List.nil_lt_cons a s
  | a :: s, b :: t => by
    rw [compareName_cons]
    by_cases hlt : a < b
    · rw [if_pos hlt]
      exact List.cons_lt_cons_iff.mpr (.inl hlt)
    rw [if_neg hlt]
    by_cases hgt : b < a
    · rw [if_pos hgt]
      exact List.cons_lt_cons_iff.mpr (.inl hgt)
    rw [if_neg hgt]
    obtain rfl : a = b := le_antisymm (not_lt.mp hgt) (not_lt.mp hlt)
    have hrest := compareName_right s t
    cases hcmp : compareName s t with
    | nameLess =>
      rw [hcmp] at hrest
      exact List.cons_lt_cons_iff.mpr (.inr ⟨rfl, hrest⟩)
    | nameMatches =>
      rw [hcmp] at hrest
      exact congrArg _ hrest
    | nameGreater =>
      rw [hcmp] at hrest
      exact List.cons_lt_cons_iff.mpr (.inr ⟨rfl, hrest⟩)

/-! ## Entries -/

section

variable (nodes : Nat → Nat → Except ε Name)

/-- The name at a position, where there is one. -/
def nameAt (lnum offs : Nat) : Name :=
  match nodes lnum offs with
  | .ok name => name
  | .error _ => []

/-- What an entry is found by: its key, and its name if keys of this kind collide. -/
def entry (zbr : Zbranch) : Key ×ₗ Name :=
  toLex (zbr.key, if zbr.key.isHashKey then nameAt nodes zbr.lnum zbr.offs else [])

/-- A tree that is in order, with names that can be read. -/
structure Zroot.Good (fanout : Nat) (c : Zroot ε) : Prop where
  ordered : c.Ordered
  small : c.Small fanout
  sorted : SortedRow (entry nodes) c.leaves
  readable : ∀ zbr ∈ c.leaves, Hashed zbr.key → ∃ name, nodes zbr.lnum zbr.offs = .ok name

/-- The place for an entry. -/
structure Place (c : Zroot ε) (e : Key ×ₗ Name) (loc : Loc ε) (m : Nat) : Prop where
  gap : Gap c (ofLex e).1 loc m
  low : ∀ x ∈ loc.ups.left ++ loc.znode.take m, entry nodes x < e
  high : ∀ x ∈ loc.znode.drop m ++ loc.ups.right, e < entry nodes x

/-- The search has found the entry, or the place for it. -/
def Resolved (c : Zroot ε) (e : Key ×ₗ Name) (x : Except (Stop ε) (Bool × Loc ε)) : Prop :=
  (∃ loc l zbr r, x = .ok (true, loc) ∧ loc.On c l zbr r ∧ entry nodes zbr = e) ∨
  ∃ loc m, x = .ok (false, loc) ∧ Place nodes c e loc m

end

variable {nodes : Nat → Nat → Except ε Name} {loc : Loc ε} {l r : List Zbranch} {zbr : Zbranch} {m : Nat}

/-- The key of a name is told apart by the name itself. -/
theorem entry_hashed (h : Hashed zbr.key) :
    entry nodes zbr = toLex (zbr.key, nameAt nodes zbr.lnum zbr.offs) := by
  rw [entry, if_pos (show zbr.key.isHashKey = true from h)]

theorem entry_single (h : ¬Hashed zbr.key) : entry nodes zbr = toLex (zbr.key, []) := by
  rw [entry, if_neg (show ¬zbr.key.isHashKey = true from h)]

/-- Keys decide first. -/
theorem entry_lt_of_key {e : Key ×ₗ Name} (h : zbr.key < (ofLex e).1) : entry nodes zbr < e :=
  Prod.Lex.lt_iff.mpr (.inl h)

theorem lt_entry_of_key {e : Key ×ₗ Name} (h : (ofLex e).1 < zbr.key) : e < entry nodes zbr :=
  Prod.Lex.lt_iff.mpr (.inl h)

/-- So entries in order have keys in order. -/
theorem key_le_of_entry {e : Key ×ₗ Name} (h : entry nodes zbr < e) : zbr.key ≤ (ofLex e).1 := by
  rcases Prod.Lex.lt_iff.mp h with h | ⟨h, -⟩
  · exact le_of_lt h
  · exact le_of_eq h

theorem le_key_of_entry {e : Key ×ₗ Name} (h : e < entry nodes zbr) : (ofLex e).1 ≤ zbr.key := by
  rcases Prod.Lex.lt_iff.mp h with h | ⟨h, -⟩
  · exact le_of_lt h
  · exact le_of_eq h

/-- Keys of names may be equal. -/
theorem ahead_of_le {a b : Key} (hb : Hashed b) (h : a ≤ b) : Ahead Hashed a b := by
  rcases lt_or_eq_of_le h with h | rfl
  · exact .inl h
  · exact .inr ⟨rfl, hb⟩

theorem ahead_of_le' {a b : Key} (ha : Hashed a) (h : a ≤ b) : Ahead Hashed a b := by
  rcases lt_or_eq_of_le h with h | rfl
  · exact .inl h
  · exact .inr ⟨rfl, ha⟩

/-- The leaves are in order, with their names. -/
theorem Zroot.Good.row (h : c.Good nodes fanout) (hon : loc.On c l zbr r) :
    SortedRow (entry nodes) (l ++ zbr :: r) := hon.split ▸ h.sorted

/-- The comparison of the names is the one of the entries. -/
theorem matchesName_ok (h : c.Good nodes fanout) (hkey : Hashed key) (hon : loc.On c l zbr r)
    (heq : zbr.key = key) (nm : Name) : ∃ is, matchesName nodes zbr nm = .ok is ∧
      match is with
      | .nameLess => entry nodes zbr < toLex (key, nm)
      | .nameMatches => entry nodes zbr = toLex (key, nm)
      | .nameGreater => toLex (key, nm) < entry nodes zbr := by
  subst heq
  have hmem : zbr ∈ c.leaves := by
    rw [← hon.split]
    exact List.mem_append_right _ List.mem_cons_self
  obtain ⟨name, hname⟩ := h.readable zbr hmem hkey
  have hentry : entry nodes zbr = toLex (zbr.key, name) := by
    rw [entry_hashed hkey, nameAt, hname]
  refine ⟨compareName name nm, ?_, ?_⟩
  · rw [matchesName, readName, hname]
    rfl
  · rw [hentry]
    have hright := compareName_right name nm
    cases hcmp : compareName name nm with
    | nameLess =>
      rw [hcmp] at hright
      exact Prod.Lex.toLex_lt_toLex.mpr (.inr ⟨rfl, hright⟩)
    | nameMatches =>
      rw [hcmp] at hright
      exact congrArg (fun nm => toLex (zbr.key, nm)) hright
    | nameGreater =>
      rw [hcmp] at hright
      exact Prod.Lex.toLex_lt_toLex.mpr (.inr ⟨rfl, hright⟩)

/-! ## The walks -/

/-- Next to an entry with the key there is a place for another one. -/
theorem place_of_near {znode : List Zbranch} {ups : Ups ε 0} {n : Int} {x : Zbranch}
    (h : c.Good nodes fanout) (hkey : Hashed key) (hat : @At ε c 0 znode ups) (hn : n = (m : Int) - 1)
    (hle : m ≤ znode.length) (hx : x ∈ znode) (heq : x.key = key)
    (hlow : ∀ x ∈ ups.left ++ znode.take m, entry nodes x < toLex (key, nm))
    (hhigh : ∀ x ∈ znode.drop m ++ ups.right, toLex (key, nm) < entry nodes x) :
    Place nodes c (toLex (key, nm)) ⟨znode, ups, n⟩ m := by
  have hfits : ups.Fits key := heq ▸ (hat.ok h.ordered).2 x.key (List.mem_map_of_mem hx)
  exact ⟨⟨hat, hn, hle, .inr hfits, fun y hy => ahead_of_le hkey (key_le_of_entry (hlow y hy)),
    fun y hy => ahead_of_le' hkey (le_key_of_entry (hhigh y hy))⟩, hlow, hhigh⟩

theorem Loc.On.mem (h : loc.On c l zbr r) : zbr ∈ loc.znode := by
  obtain ⟨-, m, -, hzbr, -, -⟩ := h
  exact List.mem_of_getElem? hzbr

/-- The place behind a branch. -/
theorem place_behind (h : c.Good nodes fanout) (hkey : Hashed key) (hon : loc.On c l zbr r)
    (hnear : ∃ x ∈ loc.znode, x.key = key) (hlow : entry nodes zbr < toLex (key, nm))
    (hhigh : ∀ x ∈ r, toLex (key, nm) < entry nodes x) :
    ∃ m, Place nodes c (toLex (key, nm)) loc m := by
  obtain ⟨x, hx, heq⟩ := hnear
  have hrow := h.row hon
  obtain ⟨hat, m, hn, hzbr, rfl, rfl⟩ := hon
  obtain ⟨hlt, -⟩ := List.getElem?_eq_some_iff.mp hzbr
  refine ⟨m + 1, place_of_near h hkey hat (by omega) hlt hx heq ?_ hhigh⟩
  rw [take_getElem? hzbr, ← List.append_assoc]
  exact hrow.low hlow

/-- The place before the first branch of a znode. -/
theorem place_before (h : c.Good nodes fanout) (hkey : Hashed key) (hon : loc.On c l zbr r)
    (heq : zbr.key = key) (hfirst : loc.n = 0) (hlow : ∀ x ∈ l, entry nodes x < toLex (key, nm))
    (hhigh : toLex (key, nm) < entry nodes zbr) :
    Place nodes c (toLex (key, nm)) { loc with n := -1 } 0 := by
  have hmem := hon.mem
  have hrow := h.row hon
  obtain ⟨hat, m, hn, hzbr, rfl, rfl⟩ := hon
  obtain rfl : m = 0 := by omega
  refine place_of_near h hkey hat rfl (Nat.zero_le _) hmem heq hlow ?_
  have hdrop : loc.znode.drop 0 = zbr :: loc.znode.drop 1 := by
    rw [List.drop_zero]
    exact (split_getElem? hzbr).trans rfl
  rw [hdrop]
  exact hrow.high hhigh

/-- The first leaf is the first of its znode. -/
theorem Loc.On.first (h : loc.On c [] zbr r) : loc.n = 0 := by
  obtain ⟨-, m, hn, hzbr, hl, -⟩ := h
  have hnil := (List.append_eq_nil_iff.mp hl.symm).2
  rcases List.take_eq_nil_iff.mp hnil with rfl | hznode
  · exact hn
  · rw [hznode] at hzbr
    cases hzbr

/-- Going down to the left ends at a first leaf. -/
theorem leftmost_first : ∀ (level : Nat) {znode : Znode ε level} {ups : Ups ε level},
    leftmost level znode ups = .ok loc → loc.n = 0
  | 0, _, _, h => by
    obtain rfl := Except.ok.inj h
    rfl
  | level + 1, znode, ups, h => by
    rw [leftmost] at h
    cases hz : getZnode znode 0 with
    | error e =>
      rw [hz] at h
      cases h
    | ok z =>
      rw [hz] at h
      exact leftmost_first level h

theorem nextUp_first {level : Nat} {ups : Ups ε level} (h : nextUp ups = .ok loc) : loc.n = 0 := by
  induction ups with
  | root => cases h
  | @child level zp iip ups ih =>
    rw [nextUp] at h
    split at h
    · cases hz : getZnode zp (iip + 1) with
      | error e =>
        rw [hz] at h
        cases h
      | ok z =>
        rw [hz] at h
        exact leftmost_first level h
    · exact ih h

/-- To the left, until the name is found or a smaller one is. -/
theorem collisionLeft_ok (h : c.Good nodes fanout) (hkey : Hashed key) {fuel : Nat}
    (hon : loc.On c l zbr r) (heq : zbr.key = key) (hgt : toLex (key, nm) < entry nodes zbr)
    (hfuel : l.length < fuel) :
    Resolved nodes c (toLex (key, nm)) (collisionLeft nodes key nm fuel loc) := by
  induction fuel generalizing loc l zbr r with
  | zero => omega
  | succ fuel ih =>
    rw [collisionLeft]
    have hhigh := (h.row hon).high hgt
    rcases (tncPrev_ends h.ordered hon).ok_or h.small with ⟨prev, hprev, l', zbr', r', rfl, hon'⟩ | ⟨hprev, rfl⟩
    swap
    · rw [hprev]
      exact .inr ⟨_, 0, rfl, place_before h hkey hon heq hon.first (List.forall_mem_nil _) hgt⟩
    obtain rfl : r' = zbr :: r := by
      have hsplit := hon'.split.trans hon.split.symm
      rw [List.append_assoc, List.append_cancel_left_eq] at hsplit
      exact (List.cons.inj hsplit).2
    have hle : zbr'.key ≤ key := by
      have hinorder := leaves_inOrder h.ordered
      rw [← hon'.split] at hinorder
      obtain ⟨-, htail, -⟩ := List.pairwise_append.mp hinorder
      exact heq ▸ ((List.pairwise_cons.mp htail).1 zbr List.mem_cons_self).le
    rw [hprev]
    dsimp only
    rw [hon'.zbranch]
    simp only [Bind.bind, Except.bind]
    by_cases heq' : zbr'.key = key
    swap
    · -- the key ends here
      have hcmp : (Key.keysCmp zbr'.key key != .eq) = true := by
        simpa using fun h => heq' (Key.keysCmp_eq_iff.mp h)
      rw [if_pos hcmp]
      have hlt : entry nodes zbr' < toLex (key, nm) := entry_lt_of_key (hle.lt_of_ne heq')
      by_cases hlast : prev.n = (prev.znode.length : Int) - 1
      · rw [if_pos hlast]
        have hup : tncNext prev = nextUp prev.ups := by
          rw [tncNext, if_neg (by omega)]
        rcases (tncNext_ends h.ordered hon').ok_or h.small with ⟨next, hnext, zbr'', r'', hcons, hon''⟩ | ⟨-, hnil⟩
        · obtain ⟨rfl, rfl⟩ := List.cons.inj hcons
          rw [hnext]
          refine .inr ⟨_, 0, rfl, place_before h hkey hon'' heq (nextUp_first (hup ▸ hnext)) ?_ hgt⟩
          exact (h.row hon').low hlt
        · cases hnil
      · rw [if_neg hlast]
        -- the next branch is in the same znode
        have hnear : ∃ x ∈ prev.znode, x.key = key := by
          obtain ⟨-, m, hn, hzbr, -, hr⟩ := hon'
          obtain ⟨hm, -⟩ := List.getElem?_eq_some_iff.mp hzbr
          have hnext := @List.getElem?_eq_getElem _ prev.znode (m + 1) (by omega)
          have hdrop : prev.znode.drop (m + 1) = prev.znode[m + 1] :: prev.znode.drop (m + 2) :=
            List.drop_eq_getElem_cons _
          rw [hdrop] at hr
          obtain ⟨hz, -⟩ := List.cons.inj hr
          exact ⟨zbr, hz ▸ List.getElem_mem _, heq⟩
        obtain ⟨m, hplace⟩ := place_behind h hkey hon' hnear hlt hhigh
        exact .inr ⟨_, m, rfl, hplace⟩
    · rw [if_neg (by simp [Key.keysCmp_eq_iff.mpr heq'])]
      obtain ⟨is, hrun, his⟩ := matchesName_ok h hkey hon' heq' nm
      rw [hrun]
      cases is with
      | nameLess =>
        obtain ⟨m, hplace⟩ := place_behind h hkey hon' ⟨zbr', hon'.mem, heq'⟩ his hhigh
        exact .inr ⟨_, m, rfl, hplace⟩
      | nameMatches => exact .inl ⟨_, _, _, _, rfl, hon', his⟩
      | nameGreater =>
        rw [List.length_append, List.length_singleton] at hfuel
        exact ih hon' heq' his (by omega)

/-- To the right, until the name is found or a larger one is. -/
theorem collisionRight_ok (h : c.Good nodes fanout) (hkey : Hashed key) {fuel : Nat}
    (hon : loc.On c l zbr r) (heq : zbr.key = key) (hlt : entry nodes zbr < toLex (key, nm))
    (hfuel : r.length < fuel) :
    Resolved nodes c (toLex (key, nm)) (collisionRight nodes key nm fuel loc) := by
  induction fuel generalizing loc l zbr r with
  | zero => omega
  | succ fuel ih =>
    rw [collisionRight]
    have hstay : (∀ x ∈ r, toLex (key, nm) < entry nodes x) →
        Resolved nodes c (toLex (key, nm)) (.ok (false, loc)) := by
      intro hhigh
      obtain ⟨m, hplace⟩ := place_behind h hkey hon ⟨zbr, hon.mem, heq⟩ hlt hhigh
      exact .inr ⟨_, m, rfl, hplace⟩
    rcases (tncNext_ends h.ordered hon).ok_or h.small with ⟨next, hnext, zbr', r', rfl, hon'⟩ | ⟨hnext, rfl⟩
    swap
    · rw [hnext]
      exact hstay (List.forall_mem_nil _)
    have hge : key ≤ zbr'.key := by
      have hinorder := leaves_inOrder h.ordered
      rw [← hon.split] at hinorder
      obtain ⟨-, htail, -⟩ := List.pairwise_append.mp hinorder
      exact heq ▸ ((List.pairwise_cons.mp htail).1 zbr' List.mem_cons_self).le
    rw [hnext]
    dsimp only
    rw [hon'.zbranch]
    simp only [Bind.bind, Except.bind]
    by_cases heq' : zbr'.key = key
    swap
    · have hcmp : (Key.keysCmp zbr'.key key != .eq) = true := by
        simpa using fun h => heq' (Key.keysCmp_eq_iff.mp h)
      rw [if_pos hcmp]
      exact hstay ((h.row hon').high (lt_entry_of_key (hge.lt_of_ne (Ne.symm heq'))))
    · rw [if_neg (by simp [Key.keysCmp_eq_iff.mpr heq'])]
      obtain ⟨is, hrun, his⟩ := matchesName_ok h hkey hon' heq' nm
      rw [hrun]
      cases is with
      | nameGreater => exact hstay ((h.row hon').high his)
      | nameMatches => exact .inl ⟨_, _, _, _, rfl, hon', his⟩
      | nameLess =>
        rw [List.length_cons] at hfuel
        exact ih hon' heq' his (by omega)

/-- **An entry is found by its key and its name, or a place for it is.** -/
theorem lookupNm_ok (h : c.Good nodes fanout) (hkey : Hashed key) (nm : Name) {fuel : Nat}
    (hfuel : c.leaves.length < fuel) :
    Resolved nodes c (toLex (key, nm)) (lookupNm nodes key nm c fuel) := by
  rcases lookup_ok h.ordered h.small key with ⟨loc, l, zbr, r, hrun, hon, heq⟩ | ⟨loc, m, hrun, hgap, habsent⟩
  · rw [lookupNm, hrun]
    change Resolved nodes c _ (resolveCollision nodes key nm fuel loc)
    have hlen := congrArg List.length hon.split
    rw [List.length_append, List.length_cons] at hlen
    obtain ⟨is, hmatch, his⟩ := matchesName_ok h hkey hon heq nm
    rw [resolveCollision, hon.zbranch]
    simp only [Bind.bind, Except.bind]
    rw [hmatch]
    cases is with
    | nameMatches => exact .inl ⟨_, _, _, _, rfl, hon, his⟩
    | nameGreater => exact collisionLeft_ok h hkey hon heq his (by omega)
    | nameLess => exact collisionRight_ok h hkey hon heq his (by omega)
  · refine .inr ⟨loc, m, ?_, hgap, ?_, ?_⟩
    · rw [lookupNm, hrun]
      rfl
    · exact fun x hx => entry_lt_of_key ((hgap.lt habsent).1 x hx)
    · exact fun x hx => lt_entry_of_key ((hgap.lt habsent).2 x hx)

/-- A key that does not collide needs no name. -/
theorem lookupLevel0_ok (h : c.Good nodes fanout) (hkey : ¬Hashed key) :
    Resolved nodes c (toLex (key, [])) (ubifsLookupLevel0 c key) := by
  rcases lookup_ok h.ordered h.small key with ⟨loc, l, zbr, r, hrun, hon, rfl⟩ | ⟨loc, m, hrun, hgap, habsent⟩
  · exact .inl ⟨loc, l, zbr, r, hrun, hon, entry_single hkey⟩
  · refine .inr ⟨loc, m, hrun, hgap, ?_, ?_⟩
    · exact fun x hx => entry_lt_of_key ((hgap.lt habsent).1 x hx)
    · exact fun x hx => lt_entry_of_key ((hgap.lt habsent).2 x hx)

end Ubifs.Tnc
