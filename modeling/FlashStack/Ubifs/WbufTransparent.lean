/-
  The write-buffer is transparent.

  What is on the flash before `offs` and what is in the buffer after it are one sequence of bytes
  (`State.content`).  A write and a synchronization add to it at the end and change nothing of it, wherever
  the border comes to be (`Wrote`).  What a long node goes through on its way is said by `Ahead`: the flash
  has the old bytes and as much of the node as has been written.
-/
import FlashStack.Ubifs.ScanWalk
import FlashStack.Ubifs.WriteBuffer
import Mathlib

namespace Ubifs.Buffered

variable {c : Scan.Info} {s s' t : State} {n : Node} {w offs i : Nat}

/-! ## Sizes -/

theorem minIo_pos : 0 < c.minIoSize := Nat.two_pow_pos _

theorem maxWrite_pos : 0 < c.maxWriteSize := Nat.two_pow_pos _

/-- The larger write unit is a multiple of the smaller. -/
theorem minIo_dvd_maxWrite : c.minIoSize ∣ c.maxWriteSize := Nat.pow_dvd_pow 2 c.shift_le

theorem eight_dvd_minIo : 8 ∣ c.minIoSize := Nat.pow_dvd_pow 2 c.eight_le

/-- The mask is a remainder. -/
theorem and_maxWrite : offs &&& (c.maxWriteSize - 1) = offs % c.maxWriteSize :=
  Nat.and_two_pow_sub_one_eq_mod offs c.maxWriteShift

/-- Where a buffer may end. -/
def Ends (c : Scan.Info) (e : Nat) : Prop := e = c.lebSize ∨ c.maxWriteSize ∣ e ∧ e ≤ c.lebSize

/-- A buffer ends inside of its LEB, at a write unit. -/
theorem Ends.le {e : Nat} (h : Ends c e) : e ≤ c.lebSize := by
  rcases h with rfl | ⟨-, h⟩
  · exact Nat.le_refl _
  · exact h

theorem Ends.io {e : Nat} (h : Ends c e) : c.minIoSize ∣ e := by
  rcases h with rfl | ⟨h, -⟩
  · exact c.minIo_dvd
  · exact Nat.dvd_trans minIo_dvd_maxWrite h

/-- The first buffer of a LEB does. -/
theorem sizeAt_ends (h : offs ≤ c.lebSize) : Ends c (offs + sizeAt c offs) := by
  unfold sizeAt
  split
  · exact .inl (by omega)
  · rename_i hroom
    rw [and_maxWrite]
    split
    · have hle := @Lib.le_align c.maxWriteSize offs maxWrite_pos
      have hlt := @Lib.align_lt c.maxWriteSize offs maxWrite_pos
      refine .inr ⟨?_, by omega⟩
      rw [Nat.add_sub_cancel' hle]
      exact Lib.dvd_align
    · rename_i hmod
      have hdvd : c.maxWriteSize ∣ offs := Nat.dvd_of_mod_eq_zero (Decidable.not_not.mp hmod)
      exact .inr ⟨Nat.dvd_add hdvd (Nat.dvd_refl _), by omega⟩

/-- So does the next one. -/
theorem nextSize_ends (h : Ends c offs) : Ends c (offs + nextSize c offs) := by
  have hle := h.le
  have hpos := @maxWrite_pos c
  unfold nextSize
  split
  · rcases h with rfl | ⟨hdvd, -⟩
    · omega
    · exact .inr ⟨Nat.dvd_add hdvd (Nat.dvd_refl _), by omega⟩
  · exact .inl (by omega)

/-- The sizes of the write-buffer. -/
structure Inv (c : Scan.Info) (s : State) : Prop where
  io : c.minIoSize ∣ s.wbuf.offs
  ends : Ends c (s.wbuf.offs + s.wbuf.size)
  avail : s.wbuf.used + s.wbuf.avail = s.wbuf.size
  eight : 8 ∣ s.wbuf.used

namespace State

/-- Where the next node goes. -/
def pos (s : State) : Nat := s.wbuf.offs + s.wbuf.used

/-- What is on the flash and after that what is in the buffer. -/
def content (s : State) : Scan.Buf :=
  fun i => if i < s.wbuf.offs then s.flash s.wbuf.lnum i else s.wbuf.buf (i - s.wbuf.offs)

end State

namespace Inv

/-- The position of the buffer is in the LEB. -/
theorem pos_le (h : Inv c s) : s.pos ≤ c.lebSize := by
  have := h.ends.le
  have := h.avail
  unfold State.pos
  omega

theorem eight_size (h : Inv c s) : c.minIoSize ∣ s.wbuf.size :=
  (Nat.dvd_add_right h.io).mp h.ends.io

end Inv

/-! ## Flash writes -/

/-- Writes to a LEB one after the other, in whole units of `min_io_size`. -/
def Sequential (c : Scan.Info) (lnum : Nat) : Nat → List (Nat × Nat × Nat) → Nat → Prop
  | pos, [], e => pos = e
  | pos, (lnum', offs, len) :: ws, e => lnum' = lnum ∧ offs = pos ∧ 0 < len ∧ c.minIoSize ∣ len ∧
    pos + len ≤ c.lebSize ∧ Sequential c lnum (pos + len) ws e

/-- Writes in a row. -/
theorem Sequential.append {lnum pos mid e : Nat} {ws ws' : List (Nat × Nat × Nat)}
    (h : Sequential c lnum pos ws mid) (h' : Sequential c lnum mid ws' e) :
    Sequential c lnum pos (ws ++ ws') e := by
  induction ws generalizing pos with
  | nil =>
    rw [Sequential] at h
    rw [h]
    exact h'
  | cons w ws ih =>
    obtain ⟨lnum', offs, len⟩ := w
    obtain ⟨hl, ho, hpos, hio, hle, hrest⟩ := h
    exact ⟨hl, ho, hpos, hio, hle, ih hrest⟩

/-- The flash writes of a call. -/
def Adds (c : Scan.Info) (s s' : State) : Prop :=
  ∃ ws, s'.writes = s.writes ++ ws ∧ Sequential c s.wbuf.lnum s.wbuf.offs ws s'.wbuf.offs

/-- Nothing was written. -/
theorem Adds.none (hw : s'.writes = s.writes) (ho : s'.wbuf.offs = s.wbuf.offs) : Adds c s s' := by
  refine ⟨[], by rw [hw, List.append_nil], ?_⟩
  rw [Sequential, ho]

/-- One write was. -/
theorem Adds.one {len : Nat} (hw : s'.writes = s.writes ++ [(s.wbuf.lnum, s.wbuf.offs, len)])
    (ho : s'.wbuf.offs = s.wbuf.offs + len) (hpos : 0 < len) (hio : c.minIoSize ∣ len)
    (hle : s.wbuf.offs + len ≤ c.lebSize) : Adds c s s' := by
  refine ⟨[(s.wbuf.lnum, s.wbuf.offs, len)], hw, rfl, rfl, hpos, hio, hle, ?_⟩
  rw [Sequential, ho]

/-- Some were. -/
theorem Adds.trans (h : Adds c s s') (h' : Adds c s' t) (hl : s'.wbuf.lnum = s.wbuf.lnum) :
    Adds c s t := by
  obtain ⟨ws, hws, hseq⟩ := h
  obtain ⟨ws', hws', hseq'⟩ := h'
  rw [hl] at hseq'
  exact ⟨ws ++ ws', by rw [hws', hws, List.append_assoc], hseq.append hseq'⟩

/-! ## What a call adds to the content -/

/-- `n` bytes have been added, of which the first `len` are those of `buf`. -/
structure Wrote (c : Scan.Info) (buf : Scan.Buf) (len n : Nat) (s s' : State) : Prop where
  inv : Inv c s'
  lnum : s'.wbuf.lnum = s.wbuf.lnum
  pos : s'.pos = s.pos + n
  old : ∀ i < s.pos, s'.content i = s.content i
  new : ∀ j < len, s'.content (s.pos + j) = buf j
  other : ∀ l, l ≠ s.wbuf.lnum → s'.flash l = s.flash l
  adds : Adds c s s'

@[simp] theorem ubiLebWrite_wbuf {lnum : Nat} {buf : Scan.Buf} {len : Nat} :
    (s.ubiLebWrite lnum buf offs len).wbuf = s.wbuf := rfl

/-- Another LEB is not touched. -/
theorem flash_other {lnum l : Nat} {buf : Scan.Buf} {len : Nat} (h : l ≠ lnum) :
    (s.ubiLebWrite lnum buf offs len).flash l = s.flash l :=
  Function.update_of_ne h _ _

/-- This one has the data. -/
theorem flash_self {lnum : Nat} {buf : Scan.Buf} {len : Nat} :
    (s.ubiLebWrite lnum buf offs len).flash lnum = memcpy (s.flash lnum) offs buf 0 len :=
  Function.update_self _ _ _

/-- Inside of what is copied. -/
theorem memcpy_in {dst src : Scan.Buf} {d k m : Nat} (hd : d ≤ i) (hm : i < d + m) :
    memcpy dst d src k m i = src (k + (i - d)) := if_pos ⟨hd, hm⟩

/-- Outside of it. -/
theorem memcpy_out {dst src : Scan.Buf} {d k m : Nat} (h : i < d ∨ d + m ≤ i) :
    memcpy dst d src k m i = dst i := if_neg (by omega)

/-- What is on the flash before `offs`, and after that what is in the buffer. -/
theorem content_flash (h : i < s.wbuf.offs) : s.content i = s.flash s.wbuf.lnum i := if_pos h

/-- Behind what is on flash comes the buffer. -/
theorem content_buf (h : s.wbuf.offs ≤ i) : s.content i = s.wbuf.buf (i - s.wbuf.offs) :=
  if_neg (by omega)

/-- The node fits into the buffer. -/
theorem writeShort_wrote (h : Inv c s) (hfit : Lib.align n.len 8 ≤ s.wbuf.avail) :
    Wrote c n.buf n.len (Lib.align n.len 8) s (writeShort c s n) := by
  have havail := h.avail
  have hlen := @Lib.le_align 8 n.len (by omega)
  have hpos := n.pos
  have hsum : s.pos = s.wbuf.offs + s.wbuf.used := rfl
  unfold writeShort
  dsimp only
  split
  · -- the buffer is full now, and all of it goes to the flash
    constructor
    case inv => exact ⟨h.ends.io, nextSize_ends h.ends, Nat.zero_add _, Nat.dvd_zero 8⟩
    case lnum => rfl
    case pos =>
      change s.wbuf.offs + s.wbuf.size = s.pos + Lib.align n.len 8
      omega
    case old =>
      intro i hi
      rw [content_flash (show i < s.wbuf.offs + s.wbuf.size by omega)]
      change (s.ubiLebWrite s.wbuf.lnum _ _ _).flash s.wbuf.lnum i = _
      rw [flash_self]
      by_cases hi' : i < s.wbuf.offs
      · rw [memcpy_out (.inl hi'), content_flash hi']
      · rw [memcpy_in (by omega) (by omega), content_buf (by omega), memcpy_out (by omega),
          Nat.zero_add]
    case new =>
      intro j hj
      rw [content_flash (show s.pos + j < s.wbuf.offs + s.wbuf.size by omega)]
      change (s.ubiLebWrite s.wbuf.lnum _ _ _).flash s.wbuf.lnum (s.pos + j) = _
      rw [flash_self, memcpy_in (by omega) (by omega), memcpy_in (by omega) (by omega)]
      congr 1
      omega
    case other =>
      intro l hl
      exact flash_other hl
    case adds => exact .one rfl rfl (by omega) h.eight_size h.ends.le
  · constructor
    case inv =>
      refine ⟨h.io, h.ends, ?_, Nat.dvd_add h.eight Lib.dvd_align⟩
      change s.wbuf.used + Lib.align n.len 8 + (s.wbuf.avail - Lib.align n.len 8) = s.wbuf.size
      omega
    case lnum => rfl
    case pos => exact (Nat.add_assoc _ _ _).symm
    case old =>
      intro i hi
      by_cases hi' : i < s.wbuf.offs
      · refine (content_flash ?_).trans (content_flash hi').symm
        exact hi'
      · have hi'' : s.wbuf.offs ≤ i := Nat.le_of_not_lt hi'
        refine (content_buf ?_).trans ((memcpy_out ?_).trans (content_buf hi'').symm)
        · exact hi''
        · exact .inl (by dsimp only; omega)
    case new =>
      intro j hj
      refine (content_buf ?_).trans ?_
      · change s.wbuf.offs ≤ s.pos + j
        omega
      change memcpy s.wbuf.buf s.wbuf.used n.buf 0 n.len (s.pos + j - s.wbuf.offs) = _
      rw [memcpy_in (by omega) (by omega)]
      congr 1
      omega
    case other =>
      intro l _
      rfl
    case adds => exact .none rfl rfl

/-! ## A long node -/

/-- `w` bytes of the node are on the flash, behind what was there and in the buffer before; the buffer is
    not in use. -/
structure Ahead (c : Scan.Info) (s : State) (n : Node) (t : State) (w : Nat) : Prop where
  lnum : t.wbuf.lnum = s.wbuf.lnum
  offs : t.wbuf.offs = s.pos + w
  le : w ≤ Lib.align n.len 8
  eight : 8 ∣ w
  whole : c.maxWriteSize ∣ t.wbuf.offs
  old : ∀ i < s.pos, t.flash s.wbuf.lnum i = s.content i
  new : ∀ j < w, t.flash s.wbuf.lnum (s.pos + j) = n.buf j
  other : ∀ l, l ≠ s.wbuf.lnum → t.flash l = s.flash l
  adds : Adds c s t

/-- The buffer goes to the flash, `avail` bytes of the node filled in. -/
theorem flush_ahead {buf b : Scan.Buf} (h : Inv c s) (hbig : s.wbuf.avail < Lib.align n.len 8)
    (hfits : s.pos + Lib.align n.len 8 ≤ c.lebSize) (hne : 0 < s.wbuf.size)
    (hold : ∀ j < s.wbuf.used, buf j = s.wbuf.buf j)
    (hnew : ∀ j < s.wbuf.avail, buf (s.wbuf.used + j) = n.buf j) :
    Ahead c s n { s.ubiLebWrite s.wbuf.lnum buf s.wbuf.offs s.wbuf.size with
      wbuf := { s.wbuf with offs := s.wbuf.offs + s.wbuf.size, buf := b } } s.wbuf.avail := by
  have havail := h.avail
  have hsum : s.pos = s.wbuf.offs + s.wbuf.used := rfl
  have height : 8 ∣ s.wbuf.size := Nat.dvd_trans eight_dvd_minIo h.eight_size
  constructor
  case lnum => rfl
  case offs =>
    change s.wbuf.offs + s.wbuf.size = s.pos + s.wbuf.avail
    omega
  case le => omega
  case eight => exact (Nat.dvd_add_right h.eight).mp (havail ▸ height)
  case whole =>
    -- the node does not fit into the buffer, so that the buffer does not end with the LEB
    rcases h.ends with hend | ⟨hdvd, -⟩
    · omega
    · exact hdvd
  case old =>
    intro i hi
    change (s.ubiLebWrite s.wbuf.lnum _ _ _).flash s.wbuf.lnum i = _
    rw [flash_self]
    by_cases hi' : i < s.wbuf.offs
    · rw [memcpy_out (.inl hi'), content_flash hi']
    · rw [memcpy_in (by omega) (by omega), content_buf (by omega), Nat.zero_add]
      exact hold _ (by omega)
  case new =>
    intro j hj
    change (s.ubiLebWrite s.wbuf.lnum _ _ _).flash s.wbuf.lnum (s.pos + j) = _
    rw [flash_self, memcpy_in (by omega) (by omega), ← hnew j hj]
    congr 1
    omega
  case other =>
    intro l hl
    exact flash_other hl
  case adds => exact .one rfl rfl hne h.eight_size h.ends.le

/-- The buffer is filled and written. -/
theorem fill_ahead (h : Inv c s) (hbig : s.wbuf.avail < Lib.align n.len 8)
    (hfits : s.pos + Lib.align n.len 8 ≤ c.lebSize) : Ahead c s n (fill c s n).1 (fill c s n).2 := by
  have havail := h.avail
  unfold fill
  dsimp only
  split
  · rename_i hused
    apply flush_ahead h hbig hfits (by omega)
    · intro j hj
      exact memcpy_out (.inl hj)
    · intro j hj
      rw [memcpy_in (by omega) (by omega)]
      congr 1
      omega
  · rename_i hused
    have hempty : s.wbuf.used = 0 := Decidable.not_not.mp hused
    have hpos : s.pos = s.wbuf.offs := by rw [State.pos, hempty, Nat.add_zero]
    split
    · rename_i hmod
      rw [and_maxWrite] at hmod
      have hsize : s.wbuf.size = s.wbuf.avail := by omega
      have hne : 0 < s.wbuf.size := by
        rcases Nat.eq_zero_or_pos s.wbuf.size with hzero | hpos'
        · -- an empty buffer is at its end, which is the end of the LEB or of a unit
          rcases h.ends with hend | ⟨hdvd, -⟩
          · omega
          · rw [hzero, Nat.add_zero] at hdvd
            exact absurd (Nat.mod_eq_zero_of_dvd hdvd) hmod
        · exact hpos'
      have hahead := @flush_ahead c s n n.buf s.wbuf.buf h hbig hfits hne
        (by intro j hj; omega) (by intro j _; rw [hempty, Nat.zero_add])
      rw [hsize] at hahead ⊢
      exact hahead
    · rename_i hmod
      rw [and_maxWrite, Decidable.not_not] at hmod
      constructor
      case lnum => rfl
      case offs => exact hpos.symm
      case le => exact Nat.zero_le _
      case eight => exact Nat.dvd_zero 8
      case whole => exact Nat.dvd_of_mod_eq_zero hmod
      case old =>
        intro i hi
        have hi' : i < s.wbuf.offs := hpos ▸ hi
        exact (content_flash hi').symm
      case new =>
        intro j hj
        omega
      case other =>
        intro l _
        rfl
      case adds => exact .none rfl rfl

/-- So many whole units are left. -/
theorem units_spec {left : Nat} :
    c.maxWriteSize ∣ left >>> c.maxWriteShift <<< c.maxWriteShift ∧
      left >>> c.maxWriteShift <<< c.maxWriteShift ≤ left ∧
      left < left >>> c.maxWriteShift <<< c.maxWriteShift + c.maxWriteSize := by
  rw [Nat.shiftRight_eq_div_pow, Nat.shiftLeft_eq]
  have hmod := Nat.div_add_mod' left c.maxWriteSize
  have hlt := Nat.mod_lt left (@maxWrite_pos c)
  change c.maxWriteSize ∣ left / c.maxWriteSize * c.maxWriteSize ∧
    left / c.maxWriteSize * c.maxWriteSize ≤ left ∧
    left < left / c.maxWriteSize * c.maxWriteSize + c.maxWriteSize
  exact ⟨Nat.dvd_mul_left _ _, by omega, by omega⟩

/-- Whole units of what is left go to the flash, and less than one stays. -/
theorem Ahead.units (h : Ahead c s n t w) (hfits : s.pos + Lib.align n.len 8 ≤ c.lebSize) :
    Ahead c s n (writeUnits c t n w).1 (writeUnits c t n w).2 ∧
      Lib.align n.len 8 < (writeUnits c t n w).2 + c.maxWriteSize := by
  have hle := h.le
  have hoffs := h.offs
  obtain ⟨hdvd, hunits_le, hlt⟩ := @units_spec c (Lib.align n.len 8 - w)
  have hio := Nat.dvd_trans minIo_dvd_maxWrite hdvd
  unfold writeUnits
  dsimp only
  split
  · rename_i hunits
    have hne := Nat.pos_of_ne_zero (mt (@Nat.shiftLeft_eq_zero_iff _ c.maxWriteShift).mp hunits)
    generalize (Lib.align n.len 8 - w) >>> c.maxWriteShift <<< c.maxWriteShift = len at *
    refine ⟨?_, by dsimp only; omega⟩
    constructor
    case lnum => exact h.lnum
    case offs =>
      change t.wbuf.offs + len = s.pos + (w + len)
      omega
    case le => omega
    case eight => exact Nat.dvd_add h.eight (Nat.dvd_trans eight_dvd_minIo hio)
    case whole => exact Nat.dvd_add h.whole hdvd
    case old =>
      intro i hi
      change (t.ubiLebWrite t.wbuf.lnum _ _ _).flash s.wbuf.lnum i = _
      rw [← h.lnum, flash_self, memcpy_out (.inl (by omega)), h.lnum]
      exact h.old i hi
    case new =>
      intro j hj
      change (t.ubiLebWrite t.wbuf.lnum _ _ _).flash s.wbuf.lnum (s.pos + j) = _
      rw [← h.lnum, flash_self]
      by_cases hj' : j < w
      · rw [memcpy_out (.inl (by omega)), h.lnum]
        exact h.new j hj'
      · rw [memcpy_in (by omega) (by omega)]
        congr 1
        omega
    case other =>
      intro l hl
      exact (flash_other (h.lnum ▸ hl)).trans (h.other l hl)
    case adds => exact h.adds.trans (.one rfl rfl hne hio (by omega)) h.lnum
  · rename_i hunits
    rw [Decidable.not_not.mp hunits, Nat.zero_shiftLeft] at hlt
    exact ⟨h, by dsimp only; omega⟩

/-- What is left goes into the buffer, which it does not overflow. -/
theorem Ahead.keepRest (h : Ahead c s n t w) (hfits : s.pos + Lib.align n.len 8 ≤ c.lebSize)
    (hrest : Lib.align n.len 8 < w + c.maxWriteSize) :
    Wrote c n.buf n.len (Lib.align n.len 8) s (keepRest c t n w) := by
  have hle := h.le
  have hoffs := h.offs
  have hlen := @Lib.le_align 8 n.len (by omega)
  constructor
  case inv =>
    have hends : Ends c t.wbuf.offs := .inr ⟨h.whole, by omega⟩
    refine ⟨hends.io, nextSize_ends hends, ?_, Nat.dvd_sub Lib.dvd_align h.eight⟩
    have hroom : Lib.align n.len 8 - w ≤ nextSize c t.wbuf.offs := by
      unfold nextSize
      split <;> omega
    exact Nat.add_sub_cancel' hroom
  case lnum => exact h.lnum
  case pos =>
    change t.wbuf.offs + (Lib.align n.len 8 - w) = s.pos + Lib.align n.len 8
    omega
  case old =>
    intro i hi
    have hi' : i < t.wbuf.offs := by omega
    refine (content_flash ?_).trans ?_
    · exact hi'
    · change t.flash t.wbuf.lnum i = _
      rw [h.lnum]
      exact h.old i hi
  case new =>
    intro j hj
    by_cases hj' : j < w
    · refine (content_flash ?_).trans ?_
      · change s.pos + j < t.wbuf.offs
        omega
      change t.flash t.wbuf.lnum (s.pos + j) = _
      rw [h.lnum]
      exact h.new j hj'
    · refine (content_buf ?_).trans ?_
      · change t.wbuf.offs ≤ s.pos + j
        omega
      change (if Lib.align n.len 8 - w ≠ 0 then _ else _ : Scan.Buf) (s.pos + j - t.wbuf.offs) = _
      rw [if_pos (by omega), memcpy_in (by omega) (by omega)]
      congr 1
      omega
  case other => exact h.other
  case adds => exact h.adds

/-- A node that is longer than the buffer is written. -/
theorem writeLong_wrote (h : Inv c s) (hbig : s.wbuf.avail < Lib.align n.len 8)
    (hfits : s.pos + Lib.align n.len 8 ≤ c.lebSize) :
    Wrote c n.buf n.len (Lib.align n.len 8) s (writeLong c s n) := by
  obtain ⟨hahead, hrest⟩ := (fill_ahead h hbig hfits).units hfits
  exact hahead.keepRest hfits hrest

/-- A node that does not fit in the LEB is refused. -/
theorem write_enospc (h : Inv c s) : (ubifsWbufWriteNolock c s n).1 = .error .enospc ↔
    c.lebSize < s.pos + Lib.align n.len 8 := by
  have hle := h.pos_le
  have hlen := @Lib.le_align 8 n.len (by omega)
  have hpos := n.pos
  unfold State.pos at hle ⊢
  unfold ubifsWbufWriteNolock
  dsimp only
  split
  · exact ⟨fun _ => by omega, fun _ => rfl⟩
  · split
    · exact ⟨by simp, fun _ => by omega⟩
    · exact ⟨by simp, fun _ => by omega⟩

/-- And nothing changes. -/
theorem write_kept (he : (ubifsWbufWriteNolock c s n).1 = .error .enospc) :
    (ubifsWbufWriteNolock c s n).2 = s := by
  unfold ubifsWbufWriteNolock at he ⊢
  dsimp only at he ⊢
  split
  · rfl
  · rename_i hroom
    rw [if_neg hroom] at he
    split at he <;> cases he

/-- A node that fits is written. -/
theorem write_wrote (h : Inv c s) (hok : (ubifsWbufWriteNolock c s n).1 = .ok ()) :
    Wrote c n.buf n.len (Lib.align n.len 8) s (ubifsWbufWriteNolock c s n).2 := by
  have hfits : s.pos + Lib.align n.len 8 ≤ c.lebSize := by
    by_contra hbig
    have he := (write_enospc h).mpr (Nat.lt_of_not_le hbig)
    rw [hok] at he
    cases he
  unfold ubifsWbufWriteNolock at hok ⊢
  dsimp only at hok ⊢
  split at hok
  · cases hok
  · rename_i hroom
    rw [if_neg hroom]
    split
    · rename_i hfit
      exact writeShort_wrote h hfit
    · rename_i hbig
      exact writeLong_wrote h (Nat.lt_of_not_le hbig) hfits

/-! ## Synchronization -/

/-- A flush writes the buffer, with padding behind it. -/
theorem sync_wrote (h : Inv c s) (hne : s.wbuf.used ≠ 0) :
    Wrote c (fun j => (padding c (Lib.align s.wbuf.used c.minIoSize - s.wbuf.used)).getD j 0)
      (Lib.align s.wbuf.used c.minIoSize - s.wbuf.used) (Lib.align s.wbuf.used c.minIoSize - s.wbuf.used)
      s (ubifsWbufSyncNolock c s) := by
  have havail := h.avail
  have hpos : s.pos = s.wbuf.offs + s.wbuf.used := rfl
  have hle := @Lib.le_align c.minIoSize s.wbuf.used minIo_pos
  have hsize : Lib.align s.wbuf.used c.minIoSize ≤ s.wbuf.size :=
    Lib.align_le minIo_pos (by omega) h.eight_size
  have hend : s.wbuf.offs + Lib.align s.wbuf.used c.minIoSize ≤ c.lebSize := by
    have := h.ends.le
    omega
  have hio : c.minIoSize ∣ Lib.align s.wbuf.used c.minIoSize := Lib.dvd_align
  unfold ubifsWbufSyncNolock
  dsimp only
  rw [if_neg hne]
  generalize Lib.align s.wbuf.used c.minIoSize = syncLen at *
  constructor
  case inv =>
    exact ⟨Nat.dvd_add h.io hio, sizeAt_ends hend, Nat.zero_add _, Nat.dvd_zero 8⟩
  case lnum => rfl
  case pos =>
    change s.wbuf.offs + syncLen = s.pos + (syncLen - s.wbuf.used)
    omega
  case old =>
    intro i hi
    have hi' : i < s.wbuf.offs + syncLen := by omega
    refine (content_flash ?_).trans ?_
    · exact hi'
    change (s.ubiLebWrite s.wbuf.lnum _ _ _).flash s.wbuf.lnum i = _
    rw [flash_self]
    by_cases hi'' : i < s.wbuf.offs
    · rw [memcpy_out (.inl hi''), content_flash hi'']
    · rw [memcpy_in (by omega) (by omega), content_buf (by omega), Nat.zero_add]
      split
      · exact if_neg (by omega)
      · rfl
  case new =>
    intro j hj
    refine (content_flash ?_).trans ?_
    · change s.pos + j < s.wbuf.offs + syncLen
      omega
    change (s.ubiLebWrite s.wbuf.lnum _ _ _).flash s.wbuf.lnum (s.pos + j) = _
    rw [flash_self, memcpy_in (by omega) (by omega), if_pos (by omega)]
    have hat : 0 + (s.pos + j - s.wbuf.offs) = s.wbuf.used + j := by omega
    rw [hat, ubifsPad, if_pos (by omega), Nat.add_sub_cancel_left]
  case other =>
    intro l hl
    exact flash_other hl
  case adds => exact .one rfl rfl (by omega) hio hend

/-! ## Pieces -/

/-- What is put into a LEB. -/
inductive Piece
  | node (n : Node)
  | pad (k : Nat)

namespace Piece

/-- The bytes that a piece takes. -/
def size : Piece → Nat
  | node n => Lib.align n.len 8
  | pad k => k

/-- The bytes at `pos` are those of the piece.  What the bytes of the alignment are is not said. -/
def At (c : Scan.Info) (content : Scan.Buf) (pos : Nat) : Piece → Prop
  | node n => ∀ j < n.len, content (pos + j) = n.buf j
  | pad k => ∀ j < k, content (pos + j) = (padding c k).getD j 0

theorem len_le_size (n : Node) : n.len ≤ (node n).size := Lib.le_align (by omega)

/-- A piece depends on its own bytes. -/
theorem At.congr {content content' : Scan.Buf} {pos : Nat} {p : Piece}
    (h : ∀ i < pos + p.size, content' i = content i) (hat : p.At c content pos) :
    p.At c content' pos := by
  cases p with
  | node n =>
    intro j hj
    have hlen := len_le_size n
    rw [h _ (by omega)]
    exact hat j hj
  | pad k =>
    intro j hj
    rw [h _ (Nat.add_lt_add_left hj pos)]
    exact hat j hj

end Piece

/-- One piece after the other from `pos` to `e`. -/
def Laid (c : Scan.Info) (content : Scan.Buf) : Nat → List Piece → Nat → Prop
  | pos, [], e => pos = e
  | pos, p :: ps, e => p.At c content pos ∧ Laid c content (pos + p.size) ps e

/-- The nodes among the pieces, and where they begin. -/
def places : Nat → List Piece → List (Nat × Node)
  | _, [] => []
  | pos, .node n :: ps => (pos, n) :: places (pos + Lib.align n.len 8) ps
  | pos, .pad k :: ps => places (pos + k) ps

namespace Laid

variable {content content' : Scan.Buf} {pos mid e : Nat} {ps qs : List Piece}

/-- Pieces go on to the right. -/
theorem le (h : Laid c content pos ps e) : pos ≤ e := by
  induction ps generalizing pos with
  | nil => exact Nat.le_of_eq h
  | cons p ps ih => exact Nat.le_trans (Nat.le_add_right _ _) (ih h.2)

/-- They depend on the bytes in front of their end. -/
theorem congr (h : ∀ i < e, content' i = content i) (hlaid : Laid c content pos ps e) :
    Laid c content' pos ps e := by
  induction ps generalizing pos with
  | nil => exact hlaid
  | cons p ps ih =>
    obtain ⟨hat, hrest⟩ := hlaid
    have hle := hrest.le
    refine ⟨hat.congr ?_, ih hrest⟩
    intro i hi
    exact h i (by omega)

/-- More pieces. -/
theorem append (h : Laid c content pos ps mid) (h' : Laid c content mid qs e) :
    Laid c content pos (ps ++ qs) e := by
  induction ps generalizing pos with
  | nil =>
    rw [Laid] at h
    rw [h]
    exact h'
  | cons p ps ih => exact ⟨h.1, ih h.2⟩

theorem places_append (h : Laid c content pos ps mid) :
    places pos (ps ++ qs) = places pos ps ++ places mid qs := by
  induction ps generalizing pos with
  | nil =>
    rw [Laid] at h
    rw [h]
    rfl
  | cons p ps ih =>
    cases p with
    | node n => exact congrArg (List.cons (pos, n)) (ih h.2)
    | pad k => exact ih h.2

/-- Every node is in its place. -/
theorem node_at {off : Nat} (h : Laid c content pos ps e) (hmem : (off, n) ∈ places pos ps) :
    ∀ j < n.len, content (off + j) = n.buf j := by
  induction ps generalizing pos with
  | nil => cases hmem
  | cons p ps ih =>
    cases p with
    | node m =>
      rcases List.mem_cons.mp hmem with heq | hmem
      · obtain ⟨rfl, rfl⟩ := Prod.mk.inj heq
        exact h.1
      · exact ih h.2 hmem
    | pad k => exact ih h.2 hmem

end Laid

/-! ## A run -/

/-- Pieces have been added. -/
structure Grew (c : Scan.Info) (s : State) (ps : List Piece) (s' : State) : Prop where
  inv : Inv c s'
  lnum : s'.wbuf.lnum = s.wbuf.lnum
  old : ∀ i < s.pos, s'.content i = s.content i
  laid : Laid c s'.content s.pos ps s'.pos
  other : ∀ l, l ≠ s.wbuf.lnum → s'.flash l = s.flash l
  adds : Adds c s s'

namespace Grew

variable {ps qs : List Piece}

/-- Nothing has been added. -/
theorem refl (h : Inv c s) : Grew c s [] s :=
  ⟨h, rfl, fun _ _ => rfl, rfl, fun _ _ => rfl, .none rfl rfl⟩

/-- Pieces were added, and more pieces. -/
theorem trans (h : Grew c s ps s') (h' : Grew c s' qs t) : Grew c s (ps ++ qs) t := by
  have hle := h.laid.le
  constructor
  case inv => exact h'.inv
  case lnum => exact h'.lnum.trans h.lnum
  case old =>
    intro i hi
    exact (h'.old i (by omega)).trans (h.old i hi)
  case laid => exact (h.laid.congr h'.old).append h'.laid
  case other =>
    intro l hl
    exact (h'.other l (h.lnum ▸ hl)).trans (h.other l hl)
  case adds => exact h.adds.trans h'.adds h.lnum

end Grew

/-- One piece was added. -/
theorem Wrote.grew {p : Piece} {buf : Scan.Buf} {len : Nat} (h : Wrote c buf len p.size s s')
    (hat : (∀ j < len, s'.content (s.pos + j) = buf j) → p.At c s'.content s.pos) :
    Grew c s [p] s' :=
  ⟨h.inv, h.lnum, h.old, ⟨hat h.new, h.pos.symm⟩, h.other, h.adds⟩

/-- An operation adds a node or padding. -/
theorem Op.run_grew (h : Inv c s) (op : Op) :
    ∃ ps, Grew c s ps (op.run c s) ∧ places s.pos ps = op.written c s := by
  cases op with
  | write n =>
    cases hres : (ubifsWbufWriteNolock c s n).1 with
    | error e =>
      obtain ⟨⟩ := e
      refine ⟨[], ?_, by rw [Op.written, hres]; rfl⟩
      have hkept : Op.run c s (.write n) = s := write_kept hres
      rw [hkept]
      exact .refl h
    | ok u =>
      refine ⟨[.node n], (write_wrote h hres).grew id, ?_⟩
      rw [Op.written, hres]
      rfl
  | sync =>
    by_cases hused : s.wbuf.used = 0
    · refine ⟨[], ?_, rfl⟩
      have hkept : Op.run c s .sync = s := if_pos hused
      rw [hkept]
      exact .refl h
    · exact ⟨[.pad _], (sync_wrote h hused).grew id, rfl⟩

/-- Operations add theirs. -/
theorem runOps_grew (h : Inv c s) (ops : List Op) :
    ∃ ps, Grew c s ps (runOps c s ops) ∧ places s.pos ps = written c s ops := by
  induction ops generalizing s with
  | nil => exact ⟨[], .refl h, rfl⟩
  | cons op ops ih =>
    obtain ⟨ps, hgrew, hplaces⟩ := op.run_grew h
    obtain ⟨qs, hgrew', hplaces'⟩ := ih hgrew.inv
    refine ⟨ps ++ qs, hgrew.trans hgrew', ?_⟩
    rw [hgrew.laid.places_append, hplaces, hplaces', written]

/-- The buffer is put at a write unit. -/
theorem seek_inv {lnum start : Nat} (hio : c.minIoSize ∣ start) (hle : start ≤ c.lebSize) :
    Inv c (ubifsWbufSeekNolock c s lnum start) :=
  ⟨hio, sizeAt_ends hle, Nat.zero_add _, Nat.dvd_zero 8⟩

/-! ## Reading -/

variable {a b buf : Scan.Buf} {m k p off : Nat}

namespace Same

/-! Checks of two buffers that are the same up to `m`. -/

theorem bytes (h : ∀ i < m, a i = b i) (hm : p + k ≤ m) : c.bytes a p k = c.bytes b p k := by
  unfold Scan.Info.bytes
  split
  · congr 1
    apply List.map_congr_left
    intro i hi
    have hi' := List.mem_range.mp hi
    exact h _ (by omega)
  · rfl

theorem word (h : ∀ i < m, a i = b i) (hm : p + k ≤ m) : c.word a p k = c.word b p k := by
  unfold Scan.Info.word
  rw [bytes h hm]

theorem byte (h : ∀ i < m, a i = b i) (hm : p < m) : c.byte a p = c.byte b p := by
  unfold Scan.Info.byte
  rw [h (p : Int).toNat (by omega)]

/-- Checking a node looks at its bytes only. -/
theorem ubifsCheckNode (h : ∀ i < m, a i = b i) (hm : 28 ≤ m) {offs : Int} {mustChkCrc : Bool}
    {len : Nat} (hlen : c.len a 0 = .ok len) (hle : Scan.int len ≤ m) :
    c.ubifsCheckNode a 0 offs mustChkCrc = c.ubifsCheckNode b 0 offs mustChkCrc := by
  have hmagic : c.magic a 0 = c.magic b 0 := @word c a b m 4 0 h (by omega)
  have htype : c.nodeType a 0 = c.nodeType b 0 := @byte c a b m 20 h (by omega)
  have hlen' : c.len a 0 = c.len b 0 := @word c a b m 4 16 h (by omega)
  have hcrc : c.crc a 0 = c.crc b 0 := @word c a b m 4 4 h (by omega)
  unfold Scan.Info.ubifsCheckNode
  rw [hmagic]
  refine bind_congr fun magic => ?_
  split
  · rfl
  rw [htype]
  refine bind_congr fun type => ?_
  split
  · rfl
  rw [← hlen', hlen, Scan.ok_bind, Scan.ok_bind]
  dsimp only
  split
  · rfl
  split
  · rfl
  have hbytes : c.bytes a (0 + 8) (Scan.int len - 8).toNat = c.bytes b (0 + 8) (Scan.int len - 8).toNat :=
    @bytes c a b m (Scan.int len - 8).toNat 8 h (by omega)
  rw [hbytes, hcrc]

/-- A good node is as long as it is read, and nothing behind it is looked at. -/
theorem checkRead_ok {type : UInt8} (h : ∀ i < m, a i = b i)
    (hok : checkRead c a type m off = .ok none) : checkRead c b type m off = .ok none := by
  have hgood := hok
  obtain ⟨t, -, hok⟩ := Scan.bind_ok hok
  split at hok
  · cases hok
  obtain ⟨res, hcheck, hok⟩ := Scan.bind_ok hok
  cases res with
  | some err => cases hok
  | none =>
    obtain ⟨len, hlen, hok⟩ := Scan.bind_ok hok
    split at hok
    · cases hok
    rename_i hm
    rw [Decidable.not_not] at hm
    have hmin := Scan.good_minLen hlen hcheck
    have htype : c.nodeType a 0 = c.nodeType b 0 := @byte c a b m 20 h (by omega)
    have hlen' : c.len a 0 = c.len b 0 := @word c a b m 4 16 h (by omega)
    rw [← hgood]
    unfold checkRead
    rw [← htype, ← hlen', ubifsCheckNode h (by omega) hlen (by omega)]

end Same

/-- What is on the flash of a piece of the content and what is in the buffer of it, put together. -/
theorem splice_eq {len : Nat} (hover : s.wbuf.offs < off + len) :
    (if 0 < s.wbuf.offs - off then
      memcpy (memcpy buf (s.wbuf.offs - off) s.wbuf.buf (off + (s.wbuf.offs - off) - s.wbuf.offs)
        (len - (s.wbuf.offs - off))) 0 (s.flash s.wbuf.lnum) off (s.wbuf.offs - off)
    else memcpy buf (s.wbuf.offs - off) s.wbuf.buf (off + (s.wbuf.offs - off) - s.wbuf.offs)
        (len - (s.wbuf.offs - off))) = memcpy buf 0 s.content off len := by
  have htail : ∀ i, s.wbuf.offs - off ≤ i → memcpy buf (s.wbuf.offs - off) s.wbuf.buf
      (off + (s.wbuf.offs - off) - s.wbuf.offs) (len - (s.wbuf.offs - off)) i =
      memcpy buf 0 s.content off len i := by
    intro i hi
    by_cases hlen : i < len
    · rw [memcpy_in (by omega) (by omega), memcpy_in (by omega) (by omega), content_buf (by omega)]
      congr 1
      omega
    · rw [memcpy_out (by omega), memcpy_out (by omega)]
  funext i
  split
  · by_cases hi : i < s.wbuf.offs - off
    · rw [memcpy_in (by omega) (by omega), memcpy_in (by omega) (by omega), content_flash (by omega)]
    · rw [memcpy_out (by omega)]
      exact htail i (by omega)
  · exact htail i (by omega)

/-- A node is read from the buffer and the flash as if all was on flash. -/
theorem ubifsReadNodeWbuf_eq {type : UInt8} {len : Nat} :
    ubifsReadNodeWbuf c s buf type len s.wbuf.lnum off =
      (checkRead c (memcpy buf 0 s.content off len) type len off, memcpy buf 0 s.content off len) := by
  unfold ubifsReadNodeWbuf
  dsimp only
  split
  · rename_i hover
    rw [splice_eq hover.2]
  · rename_i hbefore
    rw [not_and, Nat.not_lt] at hbefore
    have hend := hbefore rfl
    have hsame : memcpy buf 0 (s.flash s.wbuf.lnum) off len = memcpy buf 0 s.content off len := by
      funext i
      by_cases hlen : i < len
      · rw [memcpy_in (by omega) (by omega), memcpy_in (by omega) (by omega), content_flash (by omega)]
      · rw [memcpy_out (by omega), memcpy_out (by omega)]
    rw [ubifsReadNode, hsame]

/-- The node comes back, and if it is a good one, then the checks say so. -/
theorem read_back {type : UInt8} (h : ∀ j < n.len, s.content (off + j) = n.buf j) :
    (ubifsReadNodeWbuf c s buf type n.len s.wbuf.lnum off).2 = memcpy buf 0 n.buf 0 n.len ∧
      (checkRead c n.buf type n.len off = .ok none →
        (ubifsReadNodeWbuf c s buf type n.len s.wbuf.lnum off).1 = .ok none) := by
  rw [ubifsReadNodeWbuf_eq]
  have hsame : memcpy buf 0 s.content off n.len = memcpy buf 0 n.buf 0 n.len := by
    funext i
    by_cases hi : i < n.len
    · rw [memcpy_in (by omega) (by omega), memcpy_in (by omega) (by omega), Nat.sub_zero, h i hi,
        Nat.zero_add]
    · rw [memcpy_out (by omega), memcpy_out (by omega)]
  rw [hsame]
  refine ⟨rfl, Same.checkRead_ok ?_⟩
  intro i hi
  rw [memcpy_in (by omega) (by omega), Nat.sub_zero, Nat.zero_add]

/-! ## The write-buffer -/

/-- From a seek on, whatever is written and synchronized: the content of the LEB is the nodes, each where
    the caller takes it to be, and paddings; the flash is written from the beginning to the end, in whole
    units; a write fails if and only if there is no room for the node, and then changes nothing; and every
    node is read as it was written. -/
theorem wbuf_transparent (c : Scan.Info) (s : State) (lnum start : Nat) (hio : c.minIoSize ∣ start)
    (hle : start ≤ c.lebSize) (ops : List Op) :
    let s₀ := ubifsWbufSeekNolock c s lnum start
    let t := runOps c s₀ ops
    (∃ ps, Laid c t.content start ps (t.wbuf.offs + t.wbuf.used) ∧
      places start ps = written c s₀ ops) ∧
    (∃ ws, t.writes = s.writes ++ ws ∧ Sequential c lnum start ws t.wbuf.offs) ∧
    (∀ l, l ≠ lnum → t.flash l = s.flash l) ∧
    (∀ n, (ubifsWbufWriteNolock c t n).1 = .error .enospc ↔
      c.lebSize < t.wbuf.offs + t.wbuf.used + Lib.align n.len 8) ∧
    (∀ n, (ubifsWbufWriteNolock c t n).1 = .error .enospc → (ubifsWbufWriteNolock c t n).2 = t) ∧
    ∀ off n, (off, n) ∈ written c s₀ ops → ∀ buf type,
      (ubifsReadNodeWbuf c t buf type n.len lnum off).2 = memcpy buf 0 n.buf 0 n.len ∧
        (checkRead c n.buf type n.len off = .ok none →
          (ubifsReadNodeWbuf c t buf type n.len lnum off).1 = .ok none) := by
  intro s₀ t
  have hinv : Inv c s₀ := seek_inv hio hle
  obtain ⟨ps, hgrew, hplaces⟩ := runOps_grew hinv ops
  have hlnum : t.wbuf.lnum = lnum := hgrew.lnum
  refine ⟨⟨ps, hgrew.laid, hplaces⟩, hgrew.adds, hgrew.other, fun n => write_enospc hgrew.inv,
    fun n => write_kept, ?_⟩
  intro off n hmem buf type
  have hat := hgrew.laid.node_at (hplaces ▸ hmem)
  rw [← hlnum]
  exact read_back hat

/-! A buffer of four units, beginning in the second one of them. -/

namespace TwoNodes

/-- Write units of 512 bytes, and writes of up to 2 KiB. -/
def info : Scan.Info where
  lebSize := 8192
  minIoShift := 9
  maxWriteShift := 11
  fanout := 8
  crc32 _ := 0
  noChkDataCrc := false
  mounting := false
  remountingRw := false
  roMount := false
  lebSize_lt := by decide
  eight_le := by decide
  shift_le := by decide
  maxWrite_lt := by decide
  minIo_dvd := by decide
  idx_le := by decide

/-- Nothing has been written. -/
def flash : State := ⟨⟨0, 0, 0, 0, 0, fun _ => 0⟩, fun _ _ => 0xFF, []⟩

/-- A node that stays in the buffer. -/
def short : Node := ⟨fun _ => 1, 100, by decide, by decide⟩

/-- A part of it comes to the flash. -/
def long : Node := ⟨fun i => UInt8.ofNat i, 3000, by decide, by decide⟩

/-- It is flushed, and a long one follows. -/
def ops : List Op := [.write short, .sync, .write long]

/-- The state after that. -/
def state : State := runOps info (ubifsWbufSeekNolock info flash 3 512) ops

theorem wbuf_transparent_long :
    (ubifsReadNodeWbuf info state (fun _ => 0) 1 3000 3 1024).2 =
      memcpy (fun _ => 0) 0 long.buf 0 3000 := by
  obtain ⟨-, -, -, -, -, hread⟩ := wbuf_transparent info flash 3 512 (by decide) (by decide) ops
  exact (hread 1024 long (.tail _ (.head _)) _ 1).1

end TwoNodes

end Ubifs.Buffered
