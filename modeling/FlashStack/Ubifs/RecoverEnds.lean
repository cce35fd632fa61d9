/-
  Recovering an LEB ends, but for the two ways to get lost.

  The drop loop of the GC head goes back node by node to the beginning of the min. I/O unit where
  the scan was left.  When no node begins before it, then the list runs empty and the loop goes on
  (`Stuck`).

  A scan ends in one of four codes (`EndCode`).  Each of them is followed to its end: what is taken
  for the last write is cleaned, what is not is refused, with the search for the first byte that is
  not `0xFF`, and no look is outside the buffer (`recoverable_gives`, `refuse_eq`).

  Dropping works on the list from its end.  For the LEB of the GC head it is the loop of
  `drop_last_node` down to the start of an I/O unit; it ends if and only if the scan has ended
  there or a node starts at or before there (`dropLastNodes_gives`, `dropLastNodes_hang`).  So
  `recover_finish` is an equivalence, and with the scan of `ScanEnds` it gives the condition of
  `scan_recover_iff`.  The examples are two LEBs, one that gets lost and one that does not.
-/
import FlashStack.Ubifs.ScanEnds
import Mathlib

namespace Ubifs.Scan

section

variable {c : Info} {sbuf : Buf} {start o : Nat} {nodes : List ScanNode} {ret : Int}

/-! ## Whether it is the last write -/

/-- The loop of `is_empty` stays inside the buffer. -/
theorem isEmptyRun_gives {n : Nat} {p : Int} (hp : 0 ≤ p) (h : p + n ≤ c.lebSize) :
    Gives (c.isEmptyRun sbuf n p) fun _ => True := by
  induction n generalizing p with
  | zero => exact .ok trivial
  | succ n ih =>
    rw [Info.isEmptyRun]
    refine (byte_gives hp (by omega)).bind fun b _ => ?_
    split
    · exact .ok trivial
    · exact ih (by omega) (by omega)

/-- Nothing is looked at if the length is not positive, so that is empty. -/
theorem isEmpty_nonpos {p len : Int} (h : len ≤ 0) : c.isEmpty sbuf p len = .ok true := by
  rw [Info.isEmpty, Int.toNat_of_nonpos h]
  rfl

/-- `is_empty` returns, if what it is asked for is inside the buffer. -/
theorem isEmpty_gives {p len : Int} (hp : 0 ≤ p) (h : 0 < len → p + len ≤ c.lebSize) :
    Gives (c.isEmpty sbuf p len) fun _ => True := by
  by_cases hlen : 0 < len
  · exact isEmptyRun_gives hp (by have := h hlen; omega)
  · rw [isEmpty_nonpos (by omega)]
    exact .ok trivial

/-- So does `is_last_write`. -/
theorem isLastWrite_gives (hle : o ≤ c.lebSize) : Gives (c.isLastWrite sbuf o o) fun _ => True := by
  have hleb := c.lebSize_lt
  have hmax := maxWrite_lt c
  have hpos := maxWrite_pos c
  have halign := Lib.align_lt (x := o + 1) hpos
  have hle' := Lib.le_align (x := o + 1) hpos
  have heq := @align_eq (o + 1) c.maxWriteSize hpos (by omega)
  push_cast at heq
  rw [Info.isLastWrite, heq, int_eq (by omega) (by omega)]
  exact isEmpty_gives (by omega) (by omega)

/-- At the end of the LEB nothing is behind the last write. -/
theorem isLastWrite_end : c.isLastWrite sbuf c.lebSize c.lebSize = .ok true := by
  have hleb := c.lebSize_lt
  have hmax := maxWrite_lt c
  have hpos := maxWrite_pos c
  have halign := Lib.align_lt (x := c.lebSize + 1) hpos
  have hle := Lib.le_align (x := c.lebSize + 1) hpos
  have heq := @align_eq (c.lebSize + 1) c.maxWriteSize hpos (by omega)
  push_cast at heq
  rw [Info.isLastWrite, heq, int_eq (by omega) (by omega)]
  exact isEmpty_nonpos (by omega)

/-- The header of a corrupt node is all that is looked at, unless it says how long the node is. -/
theorem noMoreNodes_gives (hmagic : c.magic sbuf o = .ok ubifsNodeMagic)
    (hfit : o + ubifsChSz ≤ c.lebSize) :
    Gives (c.noMoreNodes sbuf o (c.lebSize - o) o) fun _ => True := by
  have hleb := c.lebSize_lt
  have hmax := maxWrite_lt c
  have hpos := maxWrite_pos c
  have hsz : ubifsChSz = 24 := rfl
  have hsz' : (ubifsChSz : Int) = 24 := rfl
  -- what is skipped ends at a multiple of `max_write_size`
  have hskip : ∀ m : Nat, m ≤ 2 ^ 30 → o ≤ m → Gives (c.isEmpty sbuf (o + (align m c.maxWriteSize - o))
      (c.lebSize - o - (align m c.maxWriteSize - o))) fun _ => True := by
    intro m hm hom
    have hle := Lib.le_align (x := m) hpos
    rw [align_eq hpos (by omega)]
    exact isEmpty_gives (by omega) (by omega)
  obtain ⟨len, hlen, -⟩ : Gives (c.len sbuf o) _ := word_gives (by omega) (by omega)
  rw [Info.noMoreNodes, hlen, ok_bind]
  obtain ⟨empty, hempty, -⟩ := hskip (o + 24) (by omega) (by omega)
  dsimp only
  push_cast at hempty
  rw [hsz', hempty, ok_bind]
  split
  · exact .ok trivial
  obtain ⟨res, hcheck, hres⟩ := @ubifsCheckNode_gives c sbuf o false hfit
  rw [hcheck, ok_bind]
  split
  · exact .ok trivial
  rename_i heuclean
  rw [not_not] at heuclean
  obtain ⟨type, len', hheader⟩ := hres (.inr ⟨heuclean, hmagic⟩)
  obtain rfl : len' = len := Except.ok.inj (hheader.len_eq.symm.trans hlen)
  have hend := hheader.fit
  rw [int_eq (by omega) (by omega)]
  have hlast := hskip (o + len') (by omega) (by omega)
  push_cast at hlast
  exact hlast

/-- A code that ends the loop, and is no error of its own. -/
inductive EndCode (c : Info) (sbuf : Buf) (o : Nat) : Int → Prop
  | garbage : EndCode c sbuf o scannedGarbage
  | empty : EndCode c sbuf o scannedEmptySpace
  | corrupt (hmagic : c.magic sbuf o = .ok ubifsNodeMagic) (hfit : o + ubifsChSz ≤ c.lebSize) :
      EndCode c sbuf o scannedACorruptNode
  | badPad : EndCode c sbuf o scannedABadPadNode

/-- The codes that a scan ends with, apart from those of a node. -/
theorem Seen.endCode (h : Seen c sbuf o ret) (hle : o ≤ c.lebSize) (hneg : ret ≤ 0) (hne : ret ≠ scannedANode)
    (hge : scannedABadPadNode ≤ ret) : EndCode c sbuf o ret := by
  cases h with
  | garbage => exact .garbage
  | empty => exact .empty
  | node => exact absurd rfl hne
  | corrupt hmagic hfit => exact .corrupt hmagic hfit
  | badPad => exact .badPad
  | padding n hpos => omega
  | overflow n hlt hover =>
    have hleb := c.lebSize_lt
    omega
  | unknown _ hlt => exact absurd hge (Int.not_le.mpr hlt)

/-- It can be decided whether the end of a scan is recoverable; free space with something behind it
    is not. -/
theorem recoverable_gives (h : EndCode c sbuf o ret) (hlt : o < c.lebSize) :
    Gives (c.recoverable sbuf ret (c.startCursor o)) fun b =>
      b = false → ret = scannedEmptySpace → c.isEmpty sbuf o (c.lebSize - o) = .ok false := by
  have hlast : Gives (c.isLastWrite sbuf o o) _ := isLastWrite_gives hlt.le
  cases h with
  | garbage =>
    rw [Info.recoverable, if_pos (.inl rfl)]
    exact hlast.mono fun b _ _ he => absurd he (by decide)
  | badPad =>
    rw [Info.recoverable, if_pos (.inr rfl)]
    exact hlast.mono fun b _ _ he => absurd he (by decide)
  | corrupt hmagic hfit =>
    rw [Info.recoverable, if_neg (by decide), if_pos rfl]
    exact (noMoreNodes_gives hmagic hfit).mono fun b _ _ he => absurd he (by decide)
  | empty =>
    obtain ⟨b, hempty, -⟩ : Gives (c.isEmpty sbuf o (c.lebSize - o)) _ :=
      isEmpty_gives (by omega) (by omega)
    rw [Info.recoverable, if_neg (by decide), if_neg (by decide)]
    dsimp only [Info.startCursor]
    rw [hempty, ok_bind]
    cases b with
    | true => exact .ok (by simp)
    | false => exact hlast.mono fun _ _ _ _ => rfl

/-- The codes of the `switch` in `ubifs_recover_leb`. -/
theorem EndCode.mem (h : EndCode c sbuf o ret) :
    ret ∈ [scannedGarbage, scannedEmptySpace, scannedACorruptNode, scannedABadPadNode] := by
  cases h <;> simp

/-! ## Refusing -/

/-- The search for a byte of damage finds one, if there is one. -/
theorem firstNonFf_gives {n : Nat} {p : Int} (hp : 0 ≤ p) (h : p + n ≤ c.lebSize)
    (hne : c.isEmptyRun sbuf n p = .ok false) :
    Gives (c.firstNonFf sbuf n p) fun r => ∃ k, r = some k ∧ k < n := by
  induction n generalizing p with
  | zero => cases hne
  | succ n ih =>
    obtain ⟨b, hb, -⟩ : Gives (c.byte sbuf p) _ := byte_gives hp (by omega)
    rw [Info.isEmptyRun, hb, ok_bind] at hne
    rw [Info.firstNonFf, hb, ok_bind]
    split at hne
    · rename_i hff
      rw [if_pos hff]
      exact .ok ⟨0, rfl, Nat.succ_pos n⟩
    · rename_i hff
      rw [if_neg hff]
      refine (ih (by omega) (by omega) hne).bind fun r hr => ?_
      obtain ⟨k, rfl, hk⟩ := hr
      exact .ok ⟨k + 1, rfl, Nat.succ_lt_succ hk⟩

/-- What cannot be recovered is refused, without a step out of the buffer. -/
theorem refuse_eq {α : Type} (h : EndCode c sbuf o ret) (hlt : o < c.lebSize)
    (hret : c.ubifsScanANode sbuf o (c.lebSize - o) o = .ok ret)
    (hne : ret = scannedEmptySpace → c.isEmpty sbuf o (c.lebSize - o) = .ok false) :
    (c.refuse sbuf ret (c.startCursor o) : Except Stop α) = .error (.err .euclean) := by
  have hleb := c.lebSize_lt
  rw [Info.refuse]
  dsimp only [Info.startCursor]
  by_cases hempty : ret = scannedEmptySpace
  · rw [if_neg (by rw [hempty]; decide)]
    obtain ⟨_, hfirst, k, rfl, hk⟩ := firstNonFf_gives (by omega) (by omega) (hne hempty)
    rw [hfirst, ok_bind]
    have hint : int ((o : Int) + k) = (o + k : Nat) := int_eq (by omega) (by omega)
    obtain ⟨_, hdump, -⟩ := @dump_gives c sbuf (o + k) (by omega)
    push_cast at hdump hint
    dsimp only [Option.map_some, Option.getD_some]
    rw [hint, hdump, ok_bind]
  · have hmem : ret ∈ [scannedGarbage, scannedABadPadNode, scannedACorruptNode] := by
      cases h with
      | garbage | badPad | corrupt => simp
      | empty => exact absurd rfl hempty
    obtain ⟨_, hdump, -⟩ := @dump_gives c sbuf o hlt.le
    rw [if_pos hmem, hret]
    change (c.ubifsScannedCorruption sbuf o o >>= _) = _
    rw [hdump, ok_bind]

/-! ## Dropping nodes -/

/-- The last node taken away. -/
theorem Laid.init {snod : ScanNode} (h : Laid c start o (nodes ++ [snod])) :
    ∃ o' : Nat, snod.offs = o' ∧ snod.node = o' ∧ o' + 28 ≤ o ∧ Laid c start o' nodes := by
  obtain ⟨-, -, hleb, hmem, hord⟩ := h
  obtain ⟨hpre, -, hlast⟩ := List.pairwise_append.mp hord
  obtain ⟨hstart, hlen, hend, hdvd, hnode⟩ := hmem snod (by simp)
  obtain ⟨o', ho'⟩ := Int.eq_ofNat_of_zero_le (show 0 ≤ snod.offs by omega)
  refine ⟨o', ho', by omega, by omega, by omega, by omega, by omega, fun x hx => ?_, hpre⟩
  have hx' := hmem x (List.mem_append_left _ hx)
  have hbefore := hlast x hx snod (by simp)
  omega

/-- The nodes that are kept, and where they end now. -/
def Kept (c : Info) (start : Nat) (r : List ScanNode × Int) : Prop :=
  ∃ o : Nat, r.2 = o ∧ Laid c start o r.1.reverse

/-- The nodes of a group that was not finished are dropped. -/
theorem dropLastGroup_gives (h : Laid c start o nodes) :
    Gives (c.dropLastGroup sbuf nodes.reverse o) (Kept c start) := by
  induction nodes using List.reverseRecOn generalizing o with
  | nil => exact .ok ⟨o, rfl, h⟩
  | append_singleton nodes snod ih =>
    obtain ⟨o', hoffs, hnode, hend, hlaid⟩ := h.init
    have hle := h.le_leb
    rw [List.reverse_append, List.reverse_singleton, List.singleton_append, Info.dropLastGroup]
    refine (byte_gives (by omega) (by omega)).bind fun b _ => ?_
    split
    · exact .ok ⟨o, rfl, by rw [List.reverse_cons, List.reverse_reverse]; exact h⟩
    · rw [hoffs]
      exact ih hlaid

/-- No node begins before the unit. -/
def NoneBefore (unit : Int) (nodes : List ScanNode) : Prop := ∀ snod ∈ nodes, unit < snod.offs

/-- The loop that drops nodes ends, if a node starts at or before the write unit. -/
theorem dropLastNodes_gives {unit : Int} (h : Laid c start o nodes)
    (hgo : o ≤ unit ∨ ¬NoneBefore unit nodes) :
    Gives (Info.dropLastNodes unit nodes.reverse o) (Kept c start) := by
  induction nodes using List.reverseRecOn generalizing o with
  | nil =>
    have hle := hgo.resolve_right (not_not.mpr (List.forall_mem_nil _))
    rw [List.reverse_nil, Info.dropLastNodes, if_neg (by omega)]
    exact .ok ⟨o, rfl, h⟩
  | append_singleton nodes snod ih =>
    obtain ⟨o', hoffs, hnode, hend, hlaid⟩ := h.init
    rw [List.reverse_append, List.reverse_singleton, List.singleton_append, Info.dropLastNodes]
    split
    · rename_i hlt
      rw [hoffs]
      refine ih hlaid ?_
      by_cases hunit : (o' : Int) ≤ unit
      · exact .inl hunit
      · refine .inr fun hnone => hgo.resolve_left (by omega) ?_
        intro x hx
        rcases List.mem_append.mp hx with hx | hx
        · exact hnone x hx
        · rw [List.mem_singleton.mp hx]
          omega
    · exact .ok ⟨o, rfl, by rw [List.reverse_cons, List.reverse_reverse]; exact h⟩

/-- Without such a node it goes on forever, with an empty list. -/
theorem dropLastNodes_hang {unit : Int} (h : Laid c start o nodes) (hlt : unit < o)
    (hnone : NoneBefore unit nodes) : Info.dropLastNodes unit nodes.reverse o = .error .hang := by
  induction nodes using List.reverseRecOn generalizing o with
  | nil => exact if_pos hlt
  | append_singleton nodes snod ih =>
    obtain ⟨o', hoffs, -, -, hlaid⟩ := h.init
    have hsnod := hnone snod (by simp)
    rw [List.reverse_append, List.reverse_singleton, List.singleton_append, Info.dropLastNodes,
      if_pos hlt, hoffs]
    exact ih hlaid (by omega) fun x hx => hnone x (List.mem_append_left _ hx)

/-- The loop of the GC head would drop a node that is not there. -/
def Stuck (c : Info) (o : Nat) (nodes : List ScanNode) : Prop :=
  ¬c.minIoSize ∣ o ∧ NoneBefore (roundDown o c.minIoSize) nodes

/-- Rounding down changes what is not a multiple. -/
theorem roundDown_lt {m : Nat} : roundDown o m < o ↔ ¬m ∣ o := by
  have hdiv := Nat.div_mul_le_self o m
  have heq : roundDown o m = (o / m * m : Nat) := rfl
  rw [heq, Int.ofNat_lt, Nat.dvd_iff_div_mul_eq]
  omega

/-- So recovery gets through the nodes, unless it is stuck. -/
theorem dropNodes_gives {jhead : Option Jhead} (h : Laid c start o nodes)
    (hgo : jhead = some .gchd → ¬Stuck c o nodes) :
    Gives (c.dropNodes sbuf jhead nodes o) fun r => ∃ o' : Nat, r.2 = o' ∧ Laid c start o' r.1 := by
  have hgroup : Gives (c.dropLastGroup sbuf nodes.reverse o) _ := dropLastGroup_gives h
  unfold Info.dropNodes
  rcases jhead with _ | _ | _ | _
  · exact .ok ⟨o, rfl, by rw [List.reverse_reverse]; exact h⟩
  · have hnodes : (o : Int) ≤ roundDown o c.minIoSize ∨
        ¬NoneBefore (roundDown o c.minIoSize) nodes := by
      by_cases hdvd : c.minIoSize ∣ o
      · exact .inl (Int.not_lt.mp (mt roundDown_lt.mp (not_not.mpr hdvd)))
      · exact .inr fun hnone => hgo rfl ⟨hdvd, hnone⟩
    exact (dropLastNodes_gives h hnodes).bind fun r hr => .ok hr
  · exact hgroup.bind fun r hr => .ok hr
  · exact hgroup.bind fun r hr => .ok hr

/-- And it does not if it is stuck. -/
theorem dropNodes_hang (h : Laid c start o nodes) (hstuck : Stuck c o nodes) :
    c.dropNodes sbuf (some .gchd) nodes o = .error .hang := by
  have hdrop := dropLastNodes_hang h (roundDown_lt.mpr hstuck.1) hstuck.2
  change (Info.dropLastNodes (roundDown o c.minIoSize) nodes.reverse o >>= _) = _
  rw [hdrop]
  rfl

/-! ## Cleaning -/

/-- A padding node has the length of its header. -/
theorem padNode_length (n : Nat) : (c.padNode n).length = ubifsPadNodeSz := by
  simp [Info.padNode, le, ubifsPadNodeSz]

/-- Padding stays inside the buffer. -/
theorem ubifsPad_gives {p pad : Int} (hp : 0 ≤ p) (h : p + pad ≤ c.lebSize) :
    Gives (c.ubifsPad sbuf p pad) fun _ => True := by
  have hsz : (ubifsPadNodeSz : Int) = 28 := rfl
  rw [Info.ubifsPad]
  split
  · refine (store_gives hp ?_).bind fun sbuf' _ => memset_gives (by omega) (by omega) (by omega)
    rw [padNode_length]
    omega
  · split
    · exact memset_gives hp (by omega) h
    · exact .ok trivial

/-- The next write unit is still in the LEB, whose size is a multiple. -/
theorem align_minIo_le (hle : o ≤ c.lebSize) : Lib.align o c.minIoSize ≤ c.lebSize :=
  Lib.align_le (minIo_pos c) hle c.minIo_dvd

/-- The rest of the write unit is padded, and the end moves behind it. -/
theorem cleanBuf_gives (hle : o ≤ c.lebSize) :
    Gives (c.cleanBuf sbuf ⟨o, o, int (c.lebSize - o)⟩) fun r =>
      r.2.offs = (Lib.align o c.minIoSize : Nat) := by
  have hleb := c.lebSize_lt
  have hmin := minIo_le c
  have hmax := maxWrite_lt c
  have hend := align_minIo_le hle
  have hge := Lib.le_align (x := o) (minIo_pos c)
  have halign := align_eq (x := o) (minIo_pos c) (by omega)
  rw [Info.cleanBuf]
  dsimp only
  rw [halign, int_eq (x := (Lib.align o c.minIoSize : Nat) - (o : Int)) (by omega) (by omega)]
  refine (ubifsPad_gives (by omega) (by omega)).bind fun sbuf' _ => ?_
  dsimp only [Cursor.skip]
  rw [int_eq (x := (c.lebSize : Int) - (Lib.align o c.minIoSize : Nat)) (by omega) (by omega)]
  refine (memset_gives (by omega) (by omega) (by omega)).bind fun sbuf'' _ => .ok ?_
  dsimp only
  rw [int_eq (by omega) (by omega)]
  omega

/-- A LEB can be repaired from what was scanned. -/
theorem fixUncleanLeb_gives (h : Laid c start o nodes) :
    Gives (c.fixUncleanLeb sbuf nodes start) fun _ => True := by
  have hleb := c.lebSize_lt
  have hmin := minIo_le c
  have hmax := maxWrite_lt c
  have hle := h.le_leb
  have hstart := h.le
  obtain ⟨e, he, hend⟩ : ∃ e : Nat,
      (nodes.getLast?.map fun snod => int (snod.offs + snod.len)).getD start = e ∧ e ≤ c.lebSize := by
    cases hlast : nodes.getLast? with
    | none => exact ⟨start, rfl, by omega⟩
    | some snod =>
      obtain ⟨hs, hlen, hfit, -, -⟩ := h.mem snod (List.mem_of_getLast? hlast)
      obtain ⟨e, he⟩ := Int.eq_ofNat_of_zero_le (show 0 ≤ snod.offs + snod.len by omega)
      refine ⟨e, ?_, by omega⟩
      rw [Option.map_some, Option.getD_some, int_eq (by omega) (by omega), he]
  have hlen := align_minIo_le hend
  have hge := Lib.le_align (x := e) (minIo_pos c)
  have hge8 := Lib.le_align (a := 8) (x := e) (by omega)
  have hle8 := @Lib.align_le 8 e c.lebSize (by omega) hend (eight_dvd_leb c)
  rw [Info.fixUncleanLeb, he]
  dsimp only
  split
  · exact .ok trivial
  split
  · exact .ok trivial
  rw [align_eq (minIo_pos c) (by omega), align_eq (a := 8) (by omega) (by omega),
    int_eq (by omega) (by omega)]
  have hchange : ∀ sbuf' : Buf, Gives (do
      discard (c.bytes sbuf' 0 ((Lib.align e c.minIoSize : Nat) : Int).toNat)
      return Info.Fix.changed sbuf' (Lib.align e c.minIoSize : Nat)) fun _ => True := by
    intro sbuf'
    obtain ⟨bs, hbytes, -⟩ := @bytes_gives c sbuf' 0
      ((Lib.align e c.minIoSize : Nat) : Int).toNat (by omega) (by omega)
    rw [hbytes]
    exact .ok trivial
  split
  · refine (ubifsPad_gives (by omega) (by omega)).bind fun sbuf' _ => ?_
    rw [if_neg (by omega)]
    exact hchange sbuf'
  · rw [ok_pure, ok_bind, if_neg (by omega)]
    exact hchange sbuf

/-- What recovery returns is in the LEB. -/
theorem cleanLeb_gives (h : Laid c start o nodes) :
    Gives (c.cleanLeb sbuf nodes o start) fun r => ScanLeb.InLeb c start r.1 := by
  have hleb := c.lebSize_lt
  have hmin := minIo_le c
  have hmax := maxWrite_lt c
  have hend := align_minIo_le h.le_leb
  have hge := Lib.le_align (x := o) (minIo_pos c)
  rw [Info.cleanLeb]
  refine (cleanBuf_gives h.le_leb).bind fun r hr => ?_
  dsimp only
  rw [hr, align_eq (minIo_pos c) (by omega), Lib.align_of_dvd (minIo_pos c) Lib.dvd_align]
  exact (fixUncleanLeb_gives h).bind fun fix _ => .ok (h.inLeb hge Lib.dvd_align hend)

/-! ## `ubifs_recover_leb` -/

/-- A scan that ends somewhere else than the end of the LEB: recovery returns exactly if it does
    not get stuck. -/
theorem recover_finish {jhead : Option Jhead} (hlaid : Laid c start o nodes)
    (hloop : c.scanLoop sbuf (c.lebSize + 1) 0 [] (c.startCursor start) = .ok (ret, nodes, c.startCursor o))
    (hge : ¬ret < scannedABadPadNode) (hrec : c.recoverable sbuf ret (c.startCursor o) = .ok true) :
    Returns (c.ubifsRecoverLeb sbuf start jhead) (fun r => ScanLeb.InLeb c start r.1) ↔
      (jhead = some .gchd → ¬Stuck c o nodes) := by
  have heq : c.ubifsRecoverLeb sbuf start jhead =
      c.dropNodes sbuf jhead nodes o >>= fun r => c.cleanLeb sbuf r.1 r.2 start := by
    rw [Info.ubifsRecoverLeb, hloop, ok_bind]
    dsimp only
    rw [if_neg hge, hrec, ok_bind]
    rfl
  rw [heq]
  constructor
  · rintro hret rfl hstuck
    rw [dropNodes_hang hlaid hstuck] at hret
    rcases hret with ⟨e, he⟩ | ⟨r, hr, -⟩
    · cases he
    · cases hr
  · intro hgo
    obtain ⟨⟨nodes', _⟩, hdrop, o', rfl, hlaid'⟩ := @dropNodes_gives c sbuf start o nodes jhead hlaid hgo
    rw [hdrop, ok_bind]
    exact .inr (cleanLeb_gives hlaid')

/-- A scan that comes to the end of the LEB leaves nothing to recover. -/
theorem recover_end {jhead : Option Jhead} (h : Walk c sbuf start c.lebSize nodes) (h8 : 8 ∣ start)
    (hle : start ≤ c.lebSize) :
    Returns (c.ubifsRecoverLeb sbuf start jhead) (fun r => ScanLeb.InLeb c start r.1) := by
  obtain ⟨ret, hlast, hloop⟩ := h.scanLoop_end h8 hle
  have hgar : scannedGarbage = 0 := rfl
  have hnode : scannedANode = -2 := rfl
  have hcorrupt : scannedACorruptNode = -3 := rfl
  have hbad : scannedABadPadNode = -4 := rfl
  have hrec : c.recoverable sbuf ret (c.startCursor c.lebSize) = .ok true := by
    rw [Info.recoverable]
    dsimp only [Info.startCursor]
    split
    · exact isLastWrite_end
    · rw [if_neg (by rcases hlast with ⟨-, hret⟩ | hret | hret <;> omega), isEmpty_nonpos (by omega)]
      rfl
  refine (recover_finish (h.laid h8 hle) hloop ?_ hrec).mpr fun _ hstuck => hstuck.1 c.minIo_dvd
  rcases hlast with ⟨-, hret⟩ | hret | hret <;> omega

/-- Scanning and recovering an LEB end, in the LEB, except after an overflow and where the GC head is
    stuck. -/
theorem scan_recover_iff (c : Info) (sbuf : Buf) (start : Nat) (jhead : Option Jhead) (h8 : 8 ∣ start)
    (hle : start ≤ c.lebSize) :
    ((∀ quiet, Returns (c.ubifsScan sbuf start quiet) (ScanLeb.InLeb c start)) ∧
      Returns (c.ubifsRecoverLeb sbuf start jhead) fun r => ScanLeb.InLeb c start r.1) ↔
    (∀ o nodes, Walk c sbuf start o nodes → o < c.lebSize → ¬Overflows c sbuf o) ∧
      (jhead = some .gchd → ∀ o nodes ret, Walk c sbuf start o nodes → o < c.lebSize →
        c.ubifsScanANode sbuf o (c.lebSize - o) o = .ok ret →
        ret ∈ [scannedGarbage, scannedEmptySpace, scannedACorruptNode, scannedABadPadNode] →
        c.recoverable sbuf ret (c.startCursor o) = .ok true → ¬Stuck c o nodes) := by
  rw [ubifsScan_iff h8 hle]
  refine and_congr_right fun hno => ?_
  constructor
  · intro hret hgc o nodes ret hwalk hlt hcode hmem hrec
    have hcodes : ret ≤ 0 ∧ ret ≠ scannedANode ∧ ¬ret < scannedABadPadNode := by
      simp only [List.mem_cons, List.not_mem_nil, or_false] at hmem
      rcases hmem with rfl | rfl | rfl | rfl <;> decide
    obtain ⟨hneg, hne, hge⟩ := hcodes
    have hloop := hwalk.scanLoop_stop h8 hle hlt hcode hneg hne
    exact (recover_finish (hwalk.laid h8 hle) hloop hge hrec).mp hret hgc
  · intro hgo
    obtain ⟨o, nodes, hwalk, rfl | ⟨ret, hlt, hcode, hstop⟩⟩ := Walk.start.ends h8 hle
    · exact recover_end hwalk h8 hle
    rcases hstop with ⟨hneg, hne⟩ | hover
    swap
    · exact absurd ⟨ret, hcode, by omega, hover⟩ (hno o nodes hwalk hlt)
    have hlaid := hwalk.laid h8 hle
    have hloop := hwalk.scanLoop_stop h8 hle hlt hcode hneg hne
    by_cases hge : ret < scannedABadPadNode
    · refine .inl ⟨.einval, ?_⟩
      rw [Info.ubifsRecoverLeb, hloop, ok_bind]
      exact if_pos hge
    have hend := (seen_of_eq hlaid.dvd hlt hcode).endCode hlt.le hneg hne (Int.not_lt.mp hge)
    obtain ⟨b, hrec, hb⟩ := recoverable_gives hend hlt
    cases b with
    | false =>
      refine .inl ⟨.euclean, ?_⟩
      rw [Info.ubifsRecoverLeb, hloop, ok_bind]
      dsimp only
      rw [if_neg hge, hrec, ok_bind]
      exact refuse_eq hend hlt hcode (hb rfl)
    | true =>
      refine (recover_finish hlaid hloop hge hrec).mpr fun hgc => ?_
      exact hgo hgc o nodes ret hwalk hlt hcode hend.mem hrec

end

/-! A LEB of the GC head with eight padding bytes and a torn write behind them. -/

namespace PaddingOnly

/-- Write units of 512 bytes. -/
def info : Info where
  lebSize := 15360
  minIoShift := 9
  maxWriteShift := 9
  fanout := 8
  crc32 _ := 0
  noChkDataCrc := false
  mounting := false
  remountingRw := false
  roMount := false
  lebSize_lt := by decide
  eight_le := Nat.le_add_left 3 6
  shift_le := by decide
  maxWrite_lt := by decide
  minIo_dvd := by decide
  idx_le := by decide

/-- A LEB that was padded up to the first write unit. -/
def leb : Buf := fun i => if i < 8 then 0xCE else if i < 512 then 0 else 0xFF

/-- Eight bytes of padding. -/
theorem code_zero :
    info.ubifsScanANode leb (0 : Nat) (info.lebSize - (0 : Nat)) (0 : Nat) = .ok (8 : Nat) := rfl

/-- What follows is not padding, nor a node. -/
theorem code_eight :
    info.ubifsScanANode leb (8 : Nat) (info.lebSize - (8 : Nat)) (8 : Nat) = .ok scannedGarbage := rfl

/-- So the scan ends at offset 8, without a node. -/
theorem walk_eight : Walk info leb 0 8 [] :=
  Walk.start.padding (by decide) code_zero (by decide) (by decide)

/-- The rest of the LEB is empty. -/
theorem empty_512 : ∀ n p : Nat, 512 ≤ p → p + n ≤ 15360 → info.isEmptyRun leb n p = .ok true := by
  intro n
  induction n with
  | zero => exact fun _ _ _ => rfl
  | succ n ih =>
    intro p hp hle
    have hbyte : info.byte leb p = .ok 0xFF := by
      rw [Info.byte, if_pos (by simp only [info]; omega), leb, if_neg (by omega), if_neg (by omega)]
    rw [Info.isEmptyRun, hbyte, ok_bind, if_neg (by decide)]
    exact ih (p + 1) (by omega) (by omega)

/-- Garbage in the last write unit is recoverable. -/
theorem last_write : info.recoverable leb scannedGarbage (info.startCursor (8 : Nat)) = .ok true := by
  have hoffs : align (((8 : Nat) : Int) + 1) info.maxWriteSize = 512 := by decide
  have hlen : int ((info.lebSize : Int) - 512) = (14848 : Nat) := by decide
  have hpos : ((8 : Nat) : Int) + 512 - (8 : Nat) = (512 : Nat) := by decide
  rw [Info.recoverable, if_pos (.inl rfl)]
  dsimp only [Info.startCursor]
  rw [Info.isLastWrite, hoffs, hlen, hpos, Info.isEmpty, Int.toNat_natCast]
  exact empty_512 14848 512 (by decide) (by decide)

/-- No node starts at or before the write unit that offset 8 is in. -/
theorem stuck : Stuck info 8 [] := ⟨by decide, List.forall_mem_nil _⟩

/-- The drop loop of the GC head does not end. -/
theorem recover_hangs : info.ubifsRecoverLeb leb 0 (some .gchd) = .error .hang := by
  have hlaid := walk_eight.laid (by decide) (by decide)
  have hloop := walk_eight.scanLoop_stop (by decide) (by decide) (by decide) code_eight (by decide)
    (by decide)
  have hdrop := @dropNodes_hang info leb 0 8 [] hlaid stuck
  change info.scanLoop leb (info.lebSize + 1) 0 [] (info.startCursor 0) = _ at hloop
  rw [Info.ubifsRecoverLeb, hloop, ok_bind]
  dsimp only
  rw [if_neg (by decide), last_write, ok_bind]
  change (info.dropNodes leb (some .gchd) [] (8 : Nat) >>= _) = _
  rw [hdrop]
  rfl

/-- Recovery of such a LEB for the head of the garbage collector does not end. -/
theorem recover_never_returns :
    ¬Returns (info.ubifsRecoverLeb leb 0 (some .gchd)) fun r => ScanLeb.InLeb info 0 r.1 := by
  rw [recover_hangs]
  rintro (⟨e, he⟩ | ⟨r, hr, -⟩)
  · cases he
  · cases hr

end PaddingOnly

/-! A LEB of the GC head with a data node and a padding node, and a write behind them that was torn after
    the common header of its node. -/

namespace TornEnd

/-- `crc32` of the kernel, with the seed of UBIFS. -/
def crc32 (bs : List UInt8) : UInt32 :=
  bs.foldl (fun crc b => (List.range 8).foldl
    (fun crc _ => (crc >>> 1) ^^^ (if crc &&& 1 = 1 then 0xEDB88320 else 0)) (crc ^^^ b.toUInt32))
    0xFFFFFFFF

/-- The same geometry, with some checksum. -/
def info : Info := { PaddingOnly.info with crc32 := crc32 }

/-- A data node for block `block` of inode 65, with eight bytes of data. -/
def dataNode (sqnum block : Nat) : List UInt8 :=
  let rest := le 8 sqnum ++ le 4 56 ++ [1, 0, 0, 0] ++ le 4 65 ++ le 4 (2 ^ 29 + block) ++ le 8 0 ++
    le 4 8 ++ le 4 0 ++ List.replicate 8 0x5A
  le 4 ubifsNodeMagic ++ le 4 (crc32 rest).toNat ++ rest

/-- Two nodes with padding between them; the second was not written to its end. -/
def leb : Buf := fun i =>
  if i < 512 then (dataNode 7 0 ++ info.padNode 428).getD i 0
  else if i < 1024 then ((dataNode 8 1).take ubifsChSz).getD (i - 512) 0
  else 0xFF

/-- First comes a data node. -/
theorem code_data :
    info.ubifsScanANode leb (0 : Nat) (info.lebSize - (0 : Nat)) (0 : Nat) = .ok scannedANode := by
  decide +kernel

/-- That is what is kept of it. -/
theorem snod_data :
    info.ubifsAddSnod leb (0 : Nat) (0 : Nat) = .ok ⟨7, 1, 0, 56, 0, (65, 2 ^ 29)⟩ := by
  decide +kernel

/-- Behind it the write unit is padded. -/
theorem code_padding :
    info.ubifsScanANode leb (56 : Nat) (info.lebSize - (56 : Nat)) (56 : Nat) = .ok (456 : Nat) := by
  decide +kernel

/-- The second node has no more than its header. -/
theorem code_torn :
    info.ubifsScanANode leb (512 : Nat) (info.lebSize - (512 : Nat)) (512 : Nat) =
      .ok scannedACorruptNode := by
  decide +kernel

/-- The scan comes to the two nodes and to the torn one, and no further. -/
theorem walk_leb {o : Nat} {nodes : List ScanNode} (h : Walk info leb 0 o nodes) :
    o = 0 ∨ o = 56 ∨ o = 512 := by
  induction h with
  | start => exact .inl rfl
  | @padding o nodes n h hlt hret hpos hfit ih =>
    rcases ih with rfl | rfl | rfl
    · have hcode := Except.ok.inj (code_data.symm.trans hret)
      have hneg : scannedANode = -2 := rfl
      omega
    · have hcode := Except.ok.inj (code_padding.symm.trans hret)
      omega
    · have hcode := Except.ok.inj (code_torn.symm.trans hret)
      have hneg : scannedACorruptNode = -3 := rfl
      omega
  | @node o nodes snod h hlt hret hsnod ih =>
    rcases ih with rfl | rfl | rfl
    · rw [← Except.ok.inj (snod_data.symm.trans hsnod)]
      exact .inr (.inl rfl)
    · have hcode := Except.ok.inj (code_padding.symm.trans hret)
      exact absurd hcode (by decide)
    · have hcode := Except.ok.inj (code_torn.symm.trans hret)
      exact absurd hcode (by decide)

/-- Scanning and recovering this LEB return. -/
theorem scan_recover_torn :
    (∀ quiet, Returns (info.ubifsScan leb (0 : Nat) quiet) (ScanLeb.InLeb info 0)) ∧
      Returns (info.ubifsRecoverLeb leb (0 : Nat) (some .gchd)) fun r =>
        ScanLeb.InLeb info (0 : Nat) r.1 := by
  refine (scan_recover_iff info leb 0 (some .gchd) (by decide) (by decide)).mpr ⟨?_, ?_⟩
  · rintro o nodes hwalk hlt ⟨ret, hcode, hpos, hover⟩
    rcases walk_leb hwalk with rfl | rfl | rfl
    · obtain rfl := Except.ok.inj (code_data.symm.trans hcode)
      exact absurd hpos (by decide)
    · obtain rfl := Except.ok.inj (code_padding.symm.trans hcode)
      exact absurd hover (by decide)
    · obtain rfl := Except.ok.inj (code_torn.symm.trans hcode)
      exact absurd hpos (by decide)
  · rintro - o nodes ret hwalk - hcode hmem - ⟨hndvd, -⟩
    rcases walk_leb hwalk with rfl | rfl | rfl
    · exact hndvd (Nat.dvd_zero _)
    · -- the padding node does not end the scan
      obtain rfl := Except.ok.inj (code_padding.symm.trans hcode)
      exact absurd hmem (by decide)
    · exact hndvd (by decide)

end TornEnd

end Ubifs.Scan
