/-
  When scanning and recovering an LEB end, whatever is in it.

  There are two ways to get lost: a padding node whose length takes the offset over the end of the `int`s,
  and, in the LEB of the GC head, a last write without a node that starts before it.

  `Returns` is a result or an error of the code; not to return is to leave the buffer or not to
  end.  The walk of `ScanWalk` brings the loop to where it is left, and the rest is one lemma for
  each function that is called there (`corrupted_eq`, `skipWords_gives`).
-/
import FlashStack.Ubifs.ScanWalk

namespace Ubifs.Scan

/-- The run returns, an error code or a value with this property. -/
def Returns {α : Type} (x : Except Stop α) (P : α → Prop) : Prop :=
  (∃ e, x = .error (.err e)) ∨ Gives x P

/-- What is returned is passed on. -/
theorem Returns.bind {α β : Type} {x : Except Stop α} {f : α → Except Stop β} {P : α → Prop}
    {Q : β → Prop} (h : Gives x P) (hf : ∀ a, P a → Returns (f a) Q) : Returns (x >>= f) Q := by
  obtain ⟨a, rfl, ha⟩ := h
  exact hf a ha

/-- What a scan promises of its result: nodes in order, apart, and in the part that it has scanned. -/
structure ScanLeb.InLeb (c : Info) (start : Nat) (sleb : ScanLeb) : Prop where
  mem : ∀ snod ∈ sleb.nodes, start ≤ snod.offs ∧ 0 < snod.len ∧ snod.offs + snod.len ≤ sleb.endpt
  inOrder : sleb.nodes.Pairwise fun snod next => snod.offs + snod.len ≤ next.offs
  dvd : (c.minIoSize : Int) ∣ sleb.endpt
  le_leb : sleb.endpt ≤ c.lebSize

section

variable {c : Info} {sbuf : Buf} {start o : Nat} {nodes : List ScanNode} {ret : Int}

/-- Write units are powers of two, so they are not zero. -/
theorem minIo_pos (c : Info) : 0 < c.minIoSize := Nat.two_pow_pos _

theorem maxWrite_pos (c : Info) : 0 < c.maxWriteSize := Nat.two_pow_pos _

/-- The larger one is far from what an `int` can hold. -/
theorem maxWrite_lt (c : Info) : c.maxWriteSize < 2 ^ 30 := Nat.pow_lt_pow_right (by decide) c.maxWrite_lt

theorem minIo_le (c : Info) : c.minIoSize ≤ c.maxWriteSize := Nat.pow_le_pow_right (by decide) c.shift_le

/-- Nodes that lie one behind the other, up to the end, are inside of the LEB. -/
theorem Laid.inLeb {endpt : Nat} (h : Laid c start o nodes) (hle : o ≤ endpt)
    (hdvd : c.minIoSize ∣ endpt) (hleb : endpt ≤ c.lebSize) :
    ScanLeb.InLeb c start ⟨nodes, endpt⟩ := by
  refine ⟨fun snod hsnod => ?_, h.inOrder, Int.natCast_dvd_natCast.mpr hdvd, Int.ofNat_le.mpr hleb⟩
  have := h.mem snod hsnod
  dsimp only
  omega

/-! ## Where the loop is left -/

/-- At the end of the LEB. -/
theorem Walk.scanLoop_end (h : Walk c sbuf start c.lebSize nodes) (h8 : 8 ∣ start)
    (hle : start ≤ c.lebSize) :
    ∃ ret, Last start c.lebSize ret ∧ c.scanLoop sbuf (c.lebSize + 1) 0 [] (c.startCursor start) =
      .ok (ret, nodes, c.startCursor c.lebSize) := by
  obtain ⟨k, ret, hk, hlast, hloop⟩ := h.scanLoop h8 hle
  refine ⟨ret, hlast, ?_⟩
  rw [show c.lebSize + 1 = (c.lebSize - k) + 1 + k by omega, hloop, Info.scanLoop, if_pos]
  simp [Info.startCursor]

/-- At a code that is no padding and no node. -/
theorem Walk.scanLoop_stop (h : Walk c sbuf start o nodes) (h8 : 8 ∣ start) (hle : start ≤ c.lebSize)
    (hlt : o < c.lebSize) (hret : c.ubifsScanANode sbuf o (c.lebSize - o) o = .ok ret) (hneg : ret ≤ 0)
    (hne : ret ≠ scannedANode) :
    c.scanLoop sbuf (c.lebSize + 1) 0 [] (c.startCursor start) = .ok (ret, nodes, c.startCursor o) := by
  obtain ⟨k, _, hk, -, hloop⟩ := h.scanLoop h8 hle
  have h8leb := eight_dvd_leb c
  have hdvd := (h.laid h8 hle).dvd
  have hlen : ¬(c.startCursor o).len < 8 := by
    dsimp only [Info.startCursor]
    omega
  rw [show c.lebSize + 1 = (c.lebSize - k) + 1 + k by omega, hloop, Info.scanLoop, if_neg hlen]
  dsimp only [Info.startCursor]
  rw [hret, ok_bind, if_neg (by omega), if_neg hne]
  rfl

/-- After a padding node that is longer than the LEB: the `int`s wrap around, the pointer does not. -/
theorem Walk.scanLoop_over (h : Walk c sbuf start o nodes) (h8 : 8 ∣ start) (hle : start ≤ c.lebSize)
    (hlt : o < c.lebSize) {n : Nat} (hret : c.ubifsScanANode sbuf o (c.lebSize - o) o = .ok (n : Int))
    (hn : n < 2 ^ 31) (hover : 2 ^ 31 ≤ o + n) :
    c.scanLoop sbuf (c.lebSize + 1) 0 [] (c.startCursor start) =
      .ok ((n : Int), nodes, ⟨o + n, o + n - 2 ^ 32, c.lebSize - o - n⟩) := by
  obtain ⟨k, _, hk, -, hloop⟩ := h.scanLoop h8 hle
  have h8leb := eight_dvd_leb c
  have hleb := c.lebSize_lt
  have hdvd := (h.laid h8 hle).dvd
  have hso := (h.laid h8 hle).le
  have hlen : ¬(c.startCursor o).len < 8 := by
    dsimp only [Info.startCursor]
    omega
  have hcur : (c.startCursor o).skip n = ⟨o + n, o + n - 2 ^ 32, c.lebSize - o - n⟩ := by
    dsimp only [Cursor.skip, Info.startCursor]
    rw [int_over (by omega) (by omega), int_eq (by omega) (by omega)]
  rw [show c.lebSize + 1 = (c.lebSize - 1 - k) + 1 + 1 + k by omega, hloop, Info.scanLoop, if_neg hlen]
  dsimp only [Info.startCursor]
  rw [hret, ok_bind, if_pos (by omega)]
  rw [show (Cursor.mk (o : Int) o (c.lebSize - o)) = c.startCursor o from rfl, hcur, Info.scanLoop]
  exact if_pos (by dsimp only; omega)

/-! ## `ubifs_scan` -/

/-- A padding node at `o` takes the offset over the end of the `int`s. -/
def Overflows (c : Info) (sbuf : Buf) (o : Nat) : Prop :=
  ∃ ret, c.ubifsScanANode sbuf o (c.lebSize - o) o = .ok ret ∧ 0 < ret ∧ c.lebSize < o + ret

/-- The dump of a corruption stays inside the buffer. -/
theorem dump_gives (hle : o ≤ c.lebSize) : Gives (c.ubifsScannedCorruption sbuf o o) fun _ => True := by
  have hleb := c.lebSize_lt
  have hint : int ((c.lebSize : Int) - o) = c.lebSize - o := int_eq (by omega) (by omega)
  rw [Info.ubifsScannedCorruption, hint]
  rw [if_neg (by omega)]
  exact (bytes_gives (by omega) (by omega)).bind fun _ _ => .ok trivial

/-- A corruption is an error, be it reported or not. -/
theorem corrupted_eq {α : Type} (quiet : Bool) (hle : o ≤ c.lebSize) :
    (c.corrupted sbuf quiet (c.startCursor o) : Except Stop α) = .error (.err .euclean) := by
  rw [Info.corrupted]
  split
  · rfl
  · obtain ⟨_, hdump, -⟩ := @dump_gives c sbuf o hle
    dsimp only [Info.startCursor]
    rw [hdump, ok_bind]

/-- The loop over the words of what should be empty ends inside of the LEB. -/
theorem skipWords_gives {fuel : Nat} (hle : o ≤ c.lebSize) (hfuel : c.lebSize - o < fuel) :
    Gives (c.skipWords sbuf fuel (c.startCursor o)) fun cur =>
      ∃ o' : Nat, cur = c.startCursor o' ∧ o' ≤ c.lebSize := by
  induction fuel generalizing o with
  | zero => omega
  | succ fuel ih =>
    rw [Info.skipWords]
    split
    · rename_i hlen
      dsimp only [Info.startCursor] at hlen
      refine (word_gives (by dsimp only [Info.startCursor]; omega) (by
        dsimp only [Info.startCursor]
        omega)).bind fun w _ => ?_
      split
      · exact .ok ⟨o, rfl, hle⟩
      · rw [show (4 : Int) = (4 : Nat) from rfl, startCursor_skip (by omega)]
        exact ih (by omega) (by omega)
    · exact .ok ⟨o, rfl, hle⟩

/-- So does the loop over bytes that is left of it. -/
theorem skipBytes_gives {fuel : Nat} (hle : o ≤ c.lebSize) (hfuel : c.lebSize - o < fuel) :
    Gives (c.skipBytes sbuf fuel (c.startCursor o)) fun res =>
      ∀ cur, res = some cur → ∃ o' : Nat, cur = c.startCursor o' ∧ o' ≤ c.lebSize := by
  induction fuel generalizing o with
  | zero => omega
  | succ fuel ih =>
    rw [Info.skipBytes]
    split
    · rename_i hlen
      dsimp only [Info.startCursor] at hlen
      refine (byte_gives (by dsimp only [Info.startCursor]; omega) (by
        dsimp only [Info.startCursor]
        omega)).bind fun b _ => ?_
      split
      · refine .ok fun cur hcur => ⟨o, (Option.some.inj hcur).symm, hle⟩
      · rw [show (1 : Int) = (1 : Nat) from rfl, startCursor_skip (by omega)]
        exact ih (by omega) (by omega)
    · exact .ok (by simp)

/-- What is left after the nodes is looked at to the end of the LEB. -/
theorem ubifsScan_tail (quiet : Bool) (hlaid : Laid c start o nodes)
    (hloop : c.scanLoop sbuf (c.lebSize + 1) 0 [] (c.startCursor start) = .ok (ret, nodes, c.startCursor o))
    (hret : ¬(8 ≤ (c.startCursor o).len ∧ ret ≠ scannedEmptySpace)) :
    Returns (c.ubifsScan sbuf start quiet) (ScanLeb.InLeb c start) := by
  have hle := hlaid.le_leb
  have hleb := c.lebSize_lt
  rw [Info.ubifsScan, hloop, ok_bind]
  dsimp only
  rw [if_neg hret]
  split
  · exact .inl ⟨_, corrupted_eq quiet hle⟩
  rename_i hmod
  obtain ⟨cur, hcur, o', rfl, hle'⟩ : Gives (c.skipWords sbuf (c.lebSize + 1) (c.startCursor o)) _ :=
    skipWords_gives hle (by omega)
  rw [hcur, ok_bind]
  obtain ⟨res, hres, hlast⟩ : Gives (c.skipBytes sbuf (c.lebSize + 1) (c.startCursor o')) _ :=
    skipBytes_gives hle' (by omega)
  rw [hres, ok_bind]
  cases res with
  | some cur =>
    obtain ⟨o'', rfl, hle''⟩ := hlast cur rfl
    exact .inl ⟨_, corrupted_eq quiet hle''⟩
  | none =>
    have hdvd : c.minIoSize ∣ o := by
      rw [not_not] at hmod
      exact Int.natCast_dvd_natCast.mp (Int.dvd_of_emod_eq_zero hmod)
    have hmin := minIo_le c
    have hmax := maxWrite_lt c
    refine .inr (.ok ?_)
    dsimp only [Info.startCursor]
    rw [align_eq (minIo_pos c) (by omega), Lib.align_of_dvd (minIo_pos c) hdvd]
    exact hlaid.inLeb (Nat.le_refl o) hdvd hle

/-- A scan that comes to the end of the LEB returns what it has found. -/
theorem scan_end (quiet : Bool) (h : Walk c sbuf start c.lebSize nodes) (h8 : 8 ∣ start)
    (hle : start ≤ c.lebSize) : Returns (c.ubifsScan sbuf start quiet) (ScanLeb.InLeb c start) := by
  obtain ⟨ret, -, hloop⟩ := h.scanLoop_end h8 hle
  refine ubifsScan_tail quiet (h.laid h8 hle) hloop ?_
  dsimp only [Info.startCursor]
  omega

/-- Any code but that of empty space is an error. -/
theorem scan_stop (quiet : Bool) (h : Walk c sbuf start o nodes) (h8 : 8 ∣ start)
    (hle : start ≤ c.lebSize) (hlt : o < c.lebSize)
    (hret : c.ubifsScanANode sbuf o (c.lebSize - o) o = .ok ret) (hneg : ret ≤ 0)
    (hne : ret ≠ scannedANode) : Returns (c.ubifsScan sbuf start quiet) (ScanLeb.InLeb c start) := by
  have hloop := h.scanLoop_stop h8 hle hlt hret hneg hne
  by_cases hempty : ret = scannedEmptySpace
  · exact ubifsScan_tail quiet (h.laid h8 hle) hloop (by simp [hempty])
  have hdvd := (h.laid h8 hle).dvd
  have h8leb := eight_dvd_leb c
  rw [Info.ubifsScan, hloop, ok_bind]
  dsimp only
  rw [if_pos ⟨by dsimp only [Info.startCursor]; omega, hempty⟩]
  split
  · exact .inl ⟨_, corrupted_eq quiet hlt.le⟩
  · exact .inl ⟨_, rfl⟩

/-- What is looked at after the overflow is not in the buffer. -/
theorem scan_over (h : Walk c sbuf start o nodes) (h8 : 8 ∣ start) (hle : start ≤ c.lebSize)
    (hlt : o < c.lebSize) {n : Nat} (hret : c.ubifsScanANode sbuf o (c.lebSize - o) o = .ok (n : Int))
    (hn : n < 2 ^ 31) (hover : 2 ^ 31 ≤ o + n) : c.ubifsScan sbuf start false = .error .wild := by
  have hleb := c.lebSize_lt
  have hloop := h.scanLoop_over h8 hle hlt hret hn hover
  rw [Info.ubifsScan, hloop, ok_bind]
  dsimp only
  rw [if_neg (by omega)]
  have hbytes : ∀ k, c.bytes sbuf ((o : Int) + n) k = .error .wild := fun k => if_neg (by omega)
  have hbyte : c.byte sbuf ((o : Int) + n) = .error .wild := if_neg (by omega)
  split
  · rw [Info.corrupted, if_neg (by decide), Info.ubifsScannedCorruption]
    dsimp only
    split
    · rfl
    · rw [hbytes]
      rfl
  · rw [Info.skipWords, if_neg (by dsimp only; omega), ok_bind, Info.skipBytes,
      if_pos (by dsimp only; omega), hbyte]
    rfl

/-- A scan ends, if it comes upon no overflow. -/
theorem ubifsScan_iff (h8 : 8 ∣ start) (hle : start ≤ c.lebSize) :
    (∀ quiet, Returns (c.ubifsScan sbuf start quiet) (ScanLeb.InLeb c start)) ↔
      ∀ o nodes, Walk c sbuf start o nodes → o < c.lebSize → ¬Overflows c sbuf o := by
  constructor
  · rintro hret o nodes hwalk hlt ⟨ret, hcode, hpos, hover⟩
    obtain ⟨n, rfl, hn⟩ := (seen_of_eq (hwalk.laid h8 hle).dvd hlt hcode).of_pos hpos
    rcases hn with ⟨-, hfit⟩ | ⟨hn, hbig⟩
    · omega
    have hscan := scan_over hwalk h8 hle hlt hcode hn hbig
    rcases hret false with ⟨e, he⟩ | ⟨sleb, hsleb, -⟩
    · rw [hscan] at he
      cases he
    · rw [hscan] at hsleb
      cases hsleb
  · intro hno quiet
    obtain ⟨o, nodes, hwalk, rfl | ⟨ret, hlt, hcode, hstop⟩⟩ := Walk.start.ends h8 hle
    · exact scan_end quiet hwalk h8 hle
    · rcases hstop with ⟨hneg, hne⟩ | hover
      · exact scan_stop quiet hwalk h8 hle hlt hcode hneg hne
      · exact absurd ⟨ret, hcode, by omega, hover⟩ (hno o nodes hwalk hlt)

end

end Ubifs.Scan
