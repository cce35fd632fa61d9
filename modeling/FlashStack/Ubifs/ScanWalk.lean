/-
  What an LEB of arbitrary bytes is to the scanning loop.

  `ubifs_scan_a_node` has a handful of answers (`Seen`), each with what it says about the bytes.  The loop
  goes along a `Walk`: nodes and paddings one after the other, to the end of the LEB or to a place where
  there is neither.

  `Gives x P` says that the step `x` stays in the buffer and its result has the property `P`.  The
  lemmas named so go up from bytes to words, to the check of a node, and to one look; each needs
  the piece it reads to be in the LEB and nothing else.
-/
import FlashStack.Lib.Align
import FlashStack.Ubifs.ScanLeb

namespace Ubifs.Scan

/-! ## Integers -/

/-- Numbers that fit in an `int` stay what they are. -/
theorem int_eq {x : Int} (hl : -2 ^ 31 ≤ x) (hu : x < 2 ^ 31) : int x = x :=
  Int.bmod_eq_of_le (by omega) (by omega)

/-- One bit more, and they wrap around. -/
theorem int_over {x : Int} (hl : 2 ^ 31 ≤ x) (hu : x < 3 * 2 ^ 31) : int x = x - 2 ^ 32 := by
  unfold int
  rw [Int.bmod_def]
  split <;> omega

/-- The largest and the smallest `int`. -/
theorem int_lt (x : Int) : int x < 2 ^ 31 := by
  have := @Int.bmod_lt x (2 ^ 32) (by decide)
  unfold int
  omega

theorem le_int (x : Int) : -2 ^ 31 ≤ int x := by
  have := @Int.le_bmod x (2 ^ 32) (by decide)
  unfold int
  omega

/-- `ALIGN` of numbers that do not overflow. -/
theorem align_eq {x a : Nat} (ha : 0 < a) (h : x + a ≤ 2 ^ 31) : align x a = (Lib.align x a : Nat) := by
  unfold align Lib.align
  rw [int_eq (by omega) (by omega)]
  push_cast [Nat.cast_sub (show 1 ≤ x + a by omega)]
  rfl

/-! ## Reading -/

/-- The run comes to a value, with this property. -/
def Gives {α : Type} (x : Except Stop α) (P : α → Prop) : Prop := ∃ a, x = .ok a ∧ P a

theorem ok_bind {α β : Type} (a : α) (f : α → Except Stop β) : (Except.ok a >>= f) = f a := rfl

theorem ok_pure {α : Type} (a : α) : (pure a : Except Stop α) = .ok a := rfl

theorem bind_ok {α β : Type} {x : Except Stop α} {f : α → Except Stop β} {r : β}
    (h : (x >>= f) = .ok r) : ∃ a, x = .ok a ∧ f a = .ok r := by
  cases x with
  | error e => cases h
  | ok a => exact ⟨a, rfl, h⟩

namespace Gives

variable {α β : Type} {x : Except Stop α} {f : α → Except Stop β} {P : α → Prop} {Q : β → Prop}

theorem ok {a : α} (h : P a) : Gives (.ok a) P := ⟨a, rfl, h⟩

theorem bind (h : Gives x P) (hf : ∀ a, P a → Gives (f a) Q) : Gives (x >>= f) Q := by
  obtain ⟨a, rfl, ha⟩ := h
  exact hf a ha

theorem mono {P' : α → Prop} (h : Gives x P) (hP : ∀ a, P a → P' a) : Gives x P' := by
  obtain ⟨a, rfl, ha⟩ := h
  exact ⟨a, rfl, hP a ha⟩

end Gives

section Reading

variable {c : Info} {sbuf : Buf} {p : Int}

/-- Reading inside of the buffer. -/
theorem byte_gives (hp : 0 ≤ p) (h : p < c.lebSize) : Gives (c.byte sbuf p) fun b => b = sbuf p.toNat := by
  rw [Info.byte, if_pos ⟨hp, h⟩]
  exact .ok rfl

theorem bytes_gives {n : Nat} (hp : 0 ≤ p) (h : p + n ≤ c.lebSize) :
    Gives (c.bytes sbuf p n) fun bs => bs.length = n := by
  rw [Info.bytes, if_pos ⟨hp, h⟩]
  exact .ok (by simp)

theorem word_gives {n : Nat} (hp : 0 ≤ p) (h : p + n ≤ c.lebSize) :
    Gives (c.word sbuf p n) fun w => w < 256 ^ n := by
  refine (bytes_gives hp h).bind fun bs hlen => .ok ?_
  have hlt := @Nat.ofDigits_lt_base_pow_length 256 (bs.map UInt8.toNat) (by decide) (by
    intro x hx
    obtain ⟨b, -, rfl⟩ := List.mem_map.mp hx
    exact b.toNat_lt)
  rwa [List.length_map, hlen] at hlt

/-- Writing inside of the buffer. -/
theorem store_gives {bs : List UInt8} (hp : 0 ≤ p) (h : p + bs.length ≤ c.lebSize) :
    Gives (c.store sbuf p bs) fun _ => True := by
  rw [Info.store, if_pos ⟨hp, h⟩]
  exact .ok trivial

theorem memset_gives {b : UInt8} {n : Int} (hp : 0 ≤ p) (hn : 0 ≤ n) (h : p + n ≤ c.lebSize) :
    Gives (c.memset sbuf p b n) fun _ => True := by
  rw [Info.memset, if_neg (by omega)]
  exact store_gives hp (by rw [List.length_replicate]; omega)

end Reading

/-! ## One look -/

/-- LEBs are a multiple of eight bytes long. -/
theorem eight_dvd_leb (c : Info) : 8 ∣ c.lebSize :=
  (Nat.pow_dvd_pow 2 c.eight_le).trans c.minIo_dvd

section Look

variable {c : Info} {sbuf : Buf} {o : Nat}

/-- A common header with a length that its type may have. -/
structure Header (c : Info) (sbuf : Buf) (o : Nat) (type : UInt8) (len : Nat) : Prop where
  type_eq : c.nodeType sbuf o = .ok type
  len_eq : c.len sbuf o = .ok len
  pos : 28 ≤ len
  fit : o + len ≤ c.lebSize
  pad : NodeType.ofByte type = some .pad → len = 28
  keyed : NodeType.ofByte type ∈ [some .ino, some .dent, some .xent, some .data] → 48 ≤ len

/-- What `ubifs_scan_a_node` can answer at `o`. -/
inductive Seen (c : Info) (sbuf : Buf) (o : Nat) : Int → Prop
  | garbage : Seen c sbuf o scannedGarbage
  | empty : Seen c sbuf o scannedEmptySpace
  | node (type : UInt8) (len : Nat) (h : Header c sbuf o type len) : Seen c sbuf o scannedANode
  | corrupt (hmagic : c.magic sbuf o = .ok ubifsNodeMagic) (hfit : o + ubifsChSz ≤ c.lebSize) :
      Seen c sbuf o scannedACorruptNode
  | badPad : Seen c sbuf o scannedABadPadNode
  | padding (n : Nat) (hpos : 0 < n) (hdvd : 8 ∣ n) (hfit : o + n ≤ c.lebSize) : Seen c sbuf o n
  /-- the new offset is beyond the `int`s -/
  | overflow (n : Nat) (hlt : n < 2 ^ 31) (hover : 2 ^ 31 ≤ o + n) : Seen c sbuf o n
  /-- the sum of the two lengths is beyond the `int`s -/
  | unknown (ret : Int) (hlt : ret < scannedABadPadNode) : Seen c sbuf o ret

/-- No node is shorter than a padding node. -/
theorem ranges_minLen (type : NodeType) : 28 ≤ (c.ranges type).minLen := by
  cases type <;> simp [Info.ranges, ubifsPadNodeSz]

/-- No node of a permitted length is so long that its end is no `int`. -/
theorem ranges_maxLen (type : NodeType) : (c.ranges type).maxLen < 2 ^ 30 := by
  have := c.lebSize_lt
  have := c.idx_le
  cases type <;> simp [Info.ranges] <;> omega

/-- Nodes with a key are longer. -/
theorem ranges_keyed {type : NodeType}
    (h : some type ∈ [some NodeType.ino, some .dent, some .xent, some .data]) :
    48 ≤ (c.ranges type).minLen := by
  cases type <;> simp [Info.ranges] at h ⊢

/-- Types with one length only are not longer than a superblock node. -/
theorem ranges_len (type : NodeType) (h : (c.ranges type).maxLen = 0) :
    (c.ranges type).minLen ≤ 4096 := by
  have := c.lebSize_lt
  cases type <;> simp [Info.ranges, ubifsPadNodeSz] at h ⊢

/-- The check of the length keeps what is too short away. -/
theorem minLen_le {type : NodeType} {nodeLen offs : Int} (h : c.badLen type nodeLen offs = false) :
    (c.ranges type).minLen ≤ nodeLen := by
  simp only [Info.badLen, Bool.or_eq_false_iff] at h
  obtain ⟨-, hrange⟩ := h
  split at hrange
  · simp only [decide_eq_false_iff_not, not_not] at hrange
    omega
  · simp only [Bool.or_eq_false_iff, decide_eq_false_iff_not, not_lt] at hrange
    exact hrange.1

/-- So a node that passes its check has the length of a padding node at least. -/
theorem good_minLen {p offs : Int} {mustChkCrc : Bool} {len : Nat} (hlen : c.len sbuf p = .ok len)
    (h : c.ubifsCheckNode sbuf p offs mustChkCrc = .ok none) : 28 ≤ int len := by
  obtain ⟨magic, -, h⟩ := bind_ok h
  split at h
  · cases h
  obtain ⟨type, -, h⟩ := bind_ok h
  split at h
  · cases h
  rename_i t _
  rw [hlen, ok_bind] at h
  dsimp only at h
  split at h
  · cases h
  rename_i hbad
  have hmin := minLen_le (Bool.eq_false_iff.mpr hbad)
  have hpos := @ranges_minLen c t
  omega

/-- A length that passes is a length inside the LEB. -/
theorem badLen_eq_false {type : NodeType} {nodeLen : Int} (ho : o ≤ c.lebSize)
    (hl : -2 ^ 31 ≤ nodeLen) (hu : nodeLen < 2 ^ 31) (h : c.badLen type nodeLen o = false) :
    (c.ranges type).minLen ≤ nodeLen ∧ o + nodeLen ≤ c.lebSize ∧ (type = .pad → nodeLen = 28) := by
  have hleb := c.lebSize_lt
  have hmin := minLen_le h
  have hpos := @ranges_minLen c type
  have hmax := @ranges_maxLen c type
  simp only [Info.badLen, Bool.or_eq_false_iff, decide_eq_false_iff_not, not_lt] at h
  obtain ⟨hend, hrange⟩ := h
  have hlen : nodeLen < 2 ^ 30 ∧ (type = .pad → nodeLen = 28) := by
    split at hrange
    · rename_i hfixed
      have := ranges_len type hfixed
      simp only [decide_eq_false_iff_not, not_not] at hrange
      refine ⟨by omega, ?_⟩
      rintro rfl
      exact hrange
    · rename_i hvar
      simp only [Bool.or_eq_false_iff, decide_eq_false_iff_not, not_lt] at hrange
      refine ⟨by omega, ?_⟩
      rintro rfl
      exact absurd rfl hvar
  obtain ⟨hmax, hpad⟩ := hlen
  rw [int_eq (by omega) (by omega)] at hend
  exact ⟨hmin, by omega, hpad⟩

/-- A length that is an `int` as it is. -/
theorem int_of_pos {len : Nat} (hlt : len < 256 ^ 4) (hpos : 0 < int len) : int len = len := by
  by_cases h : (len : Int) < 2 ^ 31
  · exact int_eq (by omega) h
  · rw [int_over (by omega) (by omega)] at hpos
    omega

/-- An answer of `ubifs_check_node` says that the common header is good, if it finds the CRC bad at most. -/
theorem ubifsCheckNode_gives {mustChkCrc : Bool} (ho : o + ubifsChSz ≤ c.lebSize) :
    Gives (c.ubifsCheckNode sbuf o o mustChkCrc) fun res =>
      (res = none ∨ res = some .euclean ∧ c.magic sbuf o = .ok ubifsNodeMagic) →
        ∃ type len, Header c sbuf o type len := by
  have hsz : ubifsChSz = 24 := rfl
  obtain ⟨magic, hmagic, -⟩ : Gives (c.magic sbuf o) _ := word_gives (by omega) (by omega)
  obtain ⟨type, htype, -⟩ : Gives (c.nodeType sbuf o) _ := byte_gives (by omega) (by omega)
  obtain ⟨len, hlen, hlt⟩ : Gives (c.len sbuf o) _ := word_gives (by omega) (by omega)
  obtain ⟨crc, hcrc, -⟩ : Gives (c.crc sbuf o) _ := word_gives (by omega) (by omega)
  have hgood : Gives (c.ubifsCheckNode sbuf o o mustChkCrc) fun res =>
      (res = none ∨ res = some .euclean ∧ magic = ubifsNodeMagic) → Header c sbuf o type len := by
    rw [Info.ubifsCheckNode, hmagic, ok_bind]
    split
    · rename_i hne
      exact .ok fun h => absurd (h.resolve_left (by simp)).2 hne
    rw [htype, ok_bind]
    cases hof : NodeType.ofByte type with
    | none => exact .ok (by simp)
    | some t =>
      dsimp only
      rw [hlen, ok_bind]
      split
      · exact .ok (by simp)
      rename_i hbad
      obtain ⟨hpos, hfit, hpad⟩ :=
        badLen_eq_false (by omega) (le_int _) (int_lt _) (Bool.eq_false_iff.mpr hbad)
      have hmin := @ranges_minLen c t
      have hint := int_of_pos hlt (by omega)
      rw [hint] at hpos hfit hpad
      have hheader : Header c sbuf o type len := by
        refine ⟨htype, hlen, by omega, by omega, fun h => ?_, fun h => ?_⟩
        · have := hpad (Option.some.inj (hof.symm.trans h))
          omega
        · have := ranges_keyed (c := c) (hof ▸ h)
          omega
      split
      · exact .ok fun _ => hheader
      refine (bytes_gives (by omega) (by omega)).bind fun bs _ => ?_
      rw [hcrc, ok_bind]
      split <;> exact .ok fun _ => hheader
  refine hgood.mono fun res hres hor => ⟨type, len, hres (hor.imp_right fun h => ?_)⟩
  exact ⟨h.1, Except.ok.inj (hmagic.symm.trans h.2)⟩

/-- A run of padding bytes is not longer than it may be. -/
theorem padRun_gives {p : Int} (hp : 0 ≤ p) {max : Nat} (h : p + max ≤ c.lebSize) :
    Gives (c.padRun sbuf max p) fun n => n ≤ max := by
  induction max generalizing p with
  | zero => exact .ok (Nat.le_refl 0)
  | succ max ih =>
    rw [Info.padRun]
    refine (byte_gives hp (by omega)).bind fun b _ => ?_
    split
    · refine (ih (by omega) (by omega)).bind fun n hn => .ok ?_
      omega
    · exact .ok (Nat.zero_le _)

/-- What is known about the result of `ubifs_scan_a_node`. -/
theorem ubifsScanANode_seen (h8 : 8 ∣ o) (h : o + 8 ≤ c.lebSize) :
    Gives (c.ubifsScanANode sbuf o (c.lebSize - o) o) (Seen c sbuf o) := by
  have hleb := c.lebSize_lt
  obtain ⟨magic, hmagic, -⟩ : Gives (c.magic sbuf o) _ := word_gives (by omega) (by omega)
  rw [Info.ubifsScanANode, hmagic, ok_bind]
  split
  · exact .ok .empty
  split
  · -- not a node: padding bytes or garbage
    have hrun : ((min (ubifsPadNodeSz : Int) (c.lebSize - o)).toNat : Int) ≤ c.lebSize - o := by omega
    rw [Info.scanPaddingBytes]
    refine (padRun_gives (by omega) (by omega)).bind fun n hn => ?_
    split
    · exact .ok .garbage
    · exact .ok (.padding n (by omega) (by omega) (by omega))
  rename_i hmg
  split
  · exact .ok .garbage
  rename_i hch
  have hsz : ubifsChSz = 24 := rfl
  obtain ⟨res, hcheck, hres⟩ := @ubifsCheckNode_gives c sbuf o true
    (show o + ubifsChSz ≤ c.lebSize by omega)
  rw [hcheck, ok_bind]
  split
  · rw [not_not] at hmg
    exact .ok (.corrupt (hmg ▸ hmagic) (by omega))
  rename_i hnone
  obtain ⟨type, len, hheader⟩ := hres (.inl (not_not.mp hnone))
  rw [hheader.type_eq, ok_bind]
  split
  swap
  · exact .ok (.node type len hheader)
  rename_i htypad
  obtain rfl := hheader.pad htypad
  have hfit := hheader.fit
  obtain ⟨padLen, hpadLen, hlt⟩ : Gives (c.padLen sbuf o) _ := word_gives (by omega) (by omega)
  rw [hpadLen, hheader.len_eq, ok_bind, ok_bind]
  have hlen28 : int (28 : Nat) = 28 := int_eq (by omega) (by omega)
  dsimp only
  rw [hlen28]
  split
  · exact .ok .badPad
  rename_i hend
  rw [not_or, not_lt, not_lt] at hend
  have hint : int padLen = padLen := by
    by_cases hbig : (padLen : Int) < 2 ^ 31
    · exact int_eq (by omega) hbig
    · have := int_over (x := padLen) (by omega) (by omega)
      omega
  rw [hint] at hend ⊢
  split
  · exact .ok .badPad
  rename_i h8n
  have hbad : scannedABadPadNode = -4 := rfl
  have hpadlt := int_lt padLen
  by_cases hsum : (28 : Int) + padLen < 2 ^ 31
  swap
  · rw [int_over (by omega) (by omega)]
    exact .ok (.unknown _ (by omega))
  rw [int_eq (by omega) hsum] at h8n ⊢
  by_cases hover : (o : Int) + 28 + padLen < 2 ^ 31
  · rw [int_eq (by omega) hover] at hend
    exact .ok (.padding (28 + padLen) (by omega) (by omega) (by omega))
  · exact .ok (.overflow (28 + padLen) (by omega) (by omega))

/-- A node that passed its check goes on the list with its offset and its length. -/
theorem ubifsAddSnod_gives {type : UInt8} {len : Nat} (h : Header c sbuf o type len) :
    Gives (c.ubifsAddSnod sbuf o o) fun snod => snod.offs = o ∧ snod.len = len ∧ snod.node = o := by
  have hleb := c.lebSize_lt
  have hpos := h.pos
  have hfit := h.fit
  obtain ⟨sqnum, hsqnum, -⟩ : Gives (c.sqnum sbuf o) _ := word_gives (by omega) (by omega)
  have hint : int len = len := int_eq (by omega) (by omega)
  rw [Info.ubifsAddSnod, hsqnum, ok_bind, h.type_eq, ok_bind, h.len_eq, ok_bind, hint]
  dsimp only
  split
  · rename_i hkeyed
    have hlen := h.keyed hkeyed
    refine (word_gives (by omega) (by omega)).bind fun k0 _ => ?_
    refine (word_gives (by omega) (by omega)).bind fun k1 _ => ?_
    exact .ok ⟨rfl, rfl, rfl⟩
  · exact .ok ⟨rfl, rfl, rfl⟩

/-- What a code says about `o`. -/
theorem seen_of_eq {ret : Int} (h8 : 8 ∣ o) (h : o < c.lebSize)
    (hret : c.ubifsScanANode sbuf o (c.lebSize - o) o = .ok ret) : Seen c sbuf o ret := by
  have h8leb := eight_dvd_leb c
  obtain ⟨ret', hret', hseen⟩ := @ubifsScanANode_seen c sbuf o h8 (by omega)
  exact Except.ok.inj (hret'.symm.trans hret) ▸ hseen

/-- Padding ends inside the LEB, or it is so long that the offset overflows. -/
theorem Seen.of_pos {ret : Int} (h : Seen c sbuf o ret) (hpos : 0 < ret) :
    ∃ n : Nat, ret = n ∧ (8 ∣ n ∧ o + n ≤ c.lebSize ∨ n < 2 ^ 31 ∧ 2 ^ 31 ≤ o + n) := by
  cases h with
  | padding n hpos hdvd hfit => exact ⟨n, rfl, .inl ⟨hdvd, hfit⟩⟩
  | overflow n hlt hover => exact ⟨n, rfl, .inr ⟨hlt, hover⟩⟩
  | unknown _ hlt => exact absurd (hlt.trans (by decide)) hpos.le.not_gt
  | garbage | empty | node | corrupt | badPad => exact absurd hpos (by decide)

/-- A node has a header that was checked. -/
theorem Seen.of_node {ret : Int} (h : Seen c sbuf o ret) (hret : ret = scannedANode) :
    ∃ type len, Header c sbuf o type len := by
  cases h with
  | node type len h => exact ⟨type, len, h⟩
  | padding | overflow => exact absurd hret (by simp [scannedANode])
  | unknown _ hlt => exact absurd (hret ▸ hlt) (by decide)
  | garbage | empty | corrupt | badPad => exact absurd hret (by decide)

end Look

/-! ## The walk -/

section Walk

variable {c : Info} {sbuf : Buf} {start o : Nat} {nodes : List ScanNode}

/-- From `start` to `o` the LEB is these nodes and paddings; each says where the next one is. -/
inductive Walk (c : Info) (sbuf : Buf) (start : Nat) : Nat → List ScanNode → Prop
  | start : Walk c sbuf start start []
  | padding {o : Nat} {nodes : List ScanNode} {n : Nat} (h : Walk c sbuf start o nodes)
      (hlt : o < c.lebSize) (hret : c.ubifsScanANode sbuf o (c.lebSize - o) o = .ok (n : Int))
      (hpos : 0 < n) (hfit : o + n ≤ c.lebSize) : Walk c sbuf start (o + n) nodes
  | node {o : Nat} {nodes : List ScanNode} {snod : ScanNode} (h : Walk c sbuf start o nodes)
      (hlt : o < c.lebSize) (hret : c.ubifsScanANode sbuf o (c.lebSize - o) o = .ok scannedANode)
      (hsnod : c.ubifsAddSnod sbuf o o = .ok snod) :
      Walk c sbuf start (o + Lib.align snod.len.toNat 8) (nodes ++ [snod])

/-- The nodes are between `start` and `o`, one after the other. -/
structure Laid (c : Info) (start o : Nat) (nodes : List ScanNode) : Prop where
  le : start ≤ o
  dvd : 8 ∣ o
  le_leb : o ≤ c.lebSize
  mem : ∀ snod ∈ nodes, start ≤ snod.offs ∧ 28 ≤ snod.len ∧ snod.offs + snod.len ≤ o ∧
    8 ∣ snod.offs ∧ snod.node = snod.offs
  inOrder : nodes.Pairwise fun snod next => snod.offs + snod.len ≤ next.offs

/-- The nodes of a scan lie one behind the other. -/
theorem Walk.laid (h : Walk c sbuf start o nodes) (h8 : 8 ∣ start) (hle : start ≤ c.lebSize) :
    Laid c start o nodes := by
  have h8leb := eight_dvd_leb c
  induction h with
  | start => exact ⟨Nat.le_refl _, h8, hle, by simp, .nil⟩
  | @padding o nodes n h hlt hret hpos hfit ih =>
    obtain ⟨hso, hdvd, hleb, hmem, hord⟩ := ih
    have hn : 8 ∣ n := by
      obtain ⟨m, hm, hcases⟩ := (seen_of_eq hdvd hlt hret).of_pos (by omega)
      have := c.lebSize_lt
      omega
    refine ⟨by omega, Nat.dvd_add hdvd hn, hfit, fun snod hsnod => ?_, hord⟩
    have := hmem snod hsnod
    omega
  | @node o nodes snod h hlt hret hsnod ih =>
    obtain ⟨hso, hdvd, hleb, hmem, hord⟩ := ih
    obtain ⟨type, len, hheader⟩ := (seen_of_eq hdvd hlt hret).of_node rfl
    have hpos := hheader.pos
    have hfit := hheader.fit
    obtain ⟨snod', hsnod', hoffs, hlen, hnode⟩ := ubifsAddSnod_gives hheader
    obtain rfl : snod' = snod := Except.ok.inj (hsnod'.symm.trans hsnod)
    have hle := @Lib.le_align 8 len (by omega)
    have hend : o + Lib.align len 8 ≤ c.lebSize := by
      have := @Lib.align_le 8 (o + len) c.lebSize (by omega) hfit h8leb
      rwa [Lib.align_add (by omega) hdvd] at this
    have hmem' : ∀ x ∈ nodes ++ [snod'], start ≤ x.offs ∧ 28 ≤ x.len ∧
        x.offs + x.len ≤ (o + Lib.align len 8 : Nat) ∧ 8 ∣ x.offs ∧ x.node = x.offs := by
      intro x hx
      rcases List.mem_append.mp hx with hx | hx
      · have := hmem x hx
        omega
      · obtain rfl := List.mem_singleton.mp hx
        omega
    rw [hlen, Int.toNat_natCast]
    refine ⟨by omega, Nat.dvd_add hdvd Lib.dvd_align, hend, hmem', ?_⟩
    refine List.pairwise_append.mpr ⟨hord, List.pairwise_singleton _ _, fun x hx y hy => ?_⟩
    obtain rfl := List.mem_singleton.mp hy
    have := hmem x hx
    omega

/-- A cursor that goes on is where a scan from there would start. -/
theorem startCursor_skip {n : Nat} (h : o + n ≤ c.lebSize) :
    (c.startCursor o).skip n = c.startCursor (o + n : Nat) := by
  have hleb := c.lebSize_lt
  have hoffs : int ((o : Int) + n) = (o + n : Nat) := int_eq (by omega) (by omega)
  have hlen : int ((c.lebSize : Int) - o - n) = c.lebSize - (o + n : Nat) := by
    rw [int_eq (by omega) (by omega)]
    omega
  simp only [Cursor.skip, Info.startCursor, hoffs, hlen, Nat.cast_add]

/-- The last code that the loop has seen at `o`. -/
def Last (start o : Nat) (ret : Int) : Prop := o = start ∧ ret = 0 ∨ 0 < ret ∨ ret = scannedANode

/-- The loop gets to wherever the walk gets to. -/
theorem Walk.scanLoop (h : Walk c sbuf start o nodes) (h8 : 8 ∣ start) (hle : start ≤ c.lebSize) :
    ∃ k ret, k ≤ o - start ∧ Last start o ret ∧ ∀ fuel,
      c.scanLoop sbuf (fuel + k) 0 [] (c.startCursor start) =
        c.scanLoop sbuf fuel ret nodes (c.startCursor o) := by
  have h8leb := eight_dvd_leb c
  have hleb := c.lebSize_lt
  induction h with
  | start => exact ⟨0, 0, Nat.zero_le _, .inl ⟨rfl, rfl⟩, fun fuel => rfl⟩
  | @padding o nodes n h hlt hret hpos hfit ih =>
    obtain ⟨k, ret, hk, -, hloop⟩ := ih
    obtain ⟨hso, hdvd, -, -, -⟩ := h.laid h8 hle
    have hlen : ¬(c.startCursor o).len < 8 := by
      dsimp only [Info.startCursor]
      omega
    refine ⟨k + 1, n, by omega, .inr (.inl (by omega)), fun fuel => ?_⟩
    rw [← Nat.add_assoc, Nat.add_right_comm, hloop, Info.scanLoop, if_neg hlen]
    dsimp only [Info.startCursor]
    rw [hret, ok_bind, if_pos (by omega)]
    exact congrArg _ (startCursor_skip hfit)
  | @node o nodes snod h hlt hret hsnod ih =>
    obtain ⟨k, ret, hk, -, hloop⟩ := ih
    have hnext := (h.node hlt hret hsnod).laid h8 hle
    obtain ⟨hso, hdvd, -, -, -⟩ := h.laid h8 hle
    have hlen : ¬(c.startCursor o).len < 8 := by
      dsimp only [Info.startCursor]
      omega
    obtain ⟨-, hpos, -⟩ := hnext.mem snod (by simp)
    have hstep := @Lib.le_align 8 snod.len.toNat (by omega)
    refine ⟨k + 1, scannedANode, by omega, .inr (.inr rfl), fun fuel => ?_⟩
    rw [← Nat.add_assoc, Nat.add_right_comm, hloop, Info.scanLoop, if_neg hlen]
    dsimp only [Info.startCursor]
    rw [hret, ok_bind, if_neg (by decide), if_pos rfl, hsnod, ok_bind]
    have halign : align snod.len 8 = (Lib.align snod.len.toNat 8 : Nat) := by
      have hfit := hnext.le_leb
      have := align_eq (x := snod.len.toNat) (a := 8) (by omega) (by omega)
      rwa [Int.toNat_of_nonneg (by omega)] at this
    rw [halign]
    exact congrArg _ (startCursor_skip hnext.le_leb)

/-- The walk does not go on at `o`, where `ubifs_scan_a_node` says `ret`. -/
def Stops (c : Info) (sbuf : Buf) (o : Nat) (ret : Int) : Prop :=
  o < c.lebSize ∧ c.ubifsScanANode sbuf o (c.lebSize - o) o = .ok ret ∧
    (ret ≤ 0 ∧ ret ≠ scannedANode ∨ c.lebSize < o + ret)

/-- It goes on to the end of the LEB or to where it stops. -/
theorem Walk.ends (h : Walk c sbuf start o nodes) (h8 : 8 ∣ start) (hle : start ≤ c.lebSize) :
    ∃ o nodes, Walk c sbuf start o nodes ∧ (o = c.lebSize ∨ ∃ ret, Stops c sbuf o ret) := by
  have h8leb := eight_dvd_leb c
  induction hleft : c.lebSize - o using Nat.strong_induction_on generalizing o nodes with
  | _ left ih =>
    have hlaid := h.laid h8 hle
    have hole := hlaid.le_leb
    have hdvd := hlaid.dvd
    by_cases hlt : o < c.lebSize
    swap
    · exact ⟨o, nodes, h, .inl (by omega)⟩
    obtain ⟨ret, hret, hseen⟩ := @ubifsScanANode_seen c sbuf o hdvd (by omega)
    by_cases hstop : ret ≤ 0 ∧ ret ≠ scannedANode ∨ c.lebSize < o + ret
    · exact ⟨o, nodes, h, .inr ⟨ret, hlt, hret, hstop⟩⟩
    rw [not_or, not_and, not_not] at hstop
    obtain ⟨hgo, hfit⟩ := hstop
    by_cases hpos : 0 < ret
    · obtain ⟨n, rfl, -⟩ := hseen.of_pos hpos
      exact ih _ (by omega) (h.padding hlt hret (by omega) (by omega)) rfl
    · obtain rfl := hgo (by omega)
      obtain ⟨type, len, hheader⟩ := hseen.of_node rfl
      obtain ⟨snod, hsnod, -, hlen, -⟩ := ubifsAddSnod_gives hheader
      have hpos := hheader.pos
      have hstep := @Lib.le_align 8 len (by omega)
      have hnext := h.node hlt hret hsnod
      rw [hlen, Int.toNat_natCast] at hnext
      exact ih _ (by omega) hnext rfl

end Walk

end Ubifs.Scan
