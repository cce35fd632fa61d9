/-
  Reading a volume through its character device (`vol_cdev_read` in `cdev.c`).

  The bytes go LEB by LEB through a buffer that is no larger than an LEB.  What is asked for beyond the
  end of the volume is cut off with a subtraction, and `count` is unsigned.

  `Reading.Placed` keeps `lnum` and `off` in step with the position.  A pass of the loop copies one
  piece (`pass_copied`), and the number of passes is bounded by what is left to copy, so that the
  loop returns (`readLoop_returns`).
-/
import FlashStack.Ubi.Volume
import Mathlib.Algebra.Group.Int.Defs

open Lib

namespace Ubi.Vol

/-- What reading uses of a volume. -/
structure Volume where
  sizes : Sizes
  usedEbs : Nat
  usedBytes : Nat
  updating : Bool
  updMarker : Bool
  /-- the bytes of an LEB, also of one that is not mapped -/
  leb : Nat → Nat → UInt8
  usedBytes_le : usedBytes ≤ usedEbs * sizes.usableLebSize

/-- The bytes of the volume one after the other. -/
def Volume.byte (vol : Volume) (i : Nat) : UInt8 := flat vol.sizes.usableLebSize vol.leb i

/-- What the functions that `vol_cdev_read` calls do: the `k`-th time, where there are several. -/
structure ReadEnv where
  vmalloc : Bool
  ubiEbaReadLeb : Nat → Option Errno
  /-- how many bytes `copy_to_user` does not copy -/
  uncopied : Nat → Nat

/-- A call of `ubi_eba_read_leb`. -/
structure EbaRead where
  lnum : Nat
  off : Nat
  len : Nat
deriving DecidableEq

/-- The variables of the function, with what it has read and copied so far. -/
structure Reading where
  lnum : Nat
  off : Nat
  len : Nat
  count : Nat
  offp : Nat
  reads : List EbaRead
  copied : List UInt8

/-- `len` is as much as the buffer takes. -/
def Reading.fill (tbufSize : Nat) (c : Reading) : Reading := { c with len := min c.count tbufSize }

/-- What a call comes to.  There is no result when the loop did not end. -/
structure ReadRun where
  reads : List EbaRead
  copied : List UInt8
  offp : Nat
  result : Option (Except Errno Nat)

/-- The call returns. -/
def Reading.finish (c : Reading) (result : Except Errno Nat) : ReadRun :=
  ⟨c.reads, c.copied, c.offp, some result⟩

namespace Volume

variable (vol : Volume)

/-- `len` is cut at the end of the LEB. -/
def cutLen (c : Reading) : Nat :=
  if vol.sizes.usableLebSize ≤ c.off + c.len then vol.sizes.usableLebSize - c.off else c.len

/-- The variables after a read of `len` bytes. -/
def advance (c : Reading) (len : Nat) : Reading :=
  { c with
    lnum := if c.off + len = vol.sizes.usableLebSize then c.lnum + 1 else c.lnum
    off := if c.off + len = vol.sizes.usableLebSize then c.off + len - vol.sizes.usableLebSize
      else c.off + len
    count := c.count - len
    offp := c.offp + len }

/-- The call that is made next. -/
def request (c : Reading) : EbaRead := ⟨c.lnum, c.off, vol.cutLen c⟩

/-- The variables after a read that succeeds, of which `uncopied` bytes are not copied. -/
def pass (uncopied : Nat) (c : Reading) : Reading :=
  let tbuf := span (vol.leb c.lnum) c.off (vol.cutLen c)
  { vol.advance c (vol.cutLen c) with
    reads := c.reads ++ [vol.request c]
    copied := c.copied ++ tbuf.take (vol.cutLen c - uncopied) }

/-- The loop.  `fuel` is for the iterations, `k` is the number of this one. -/
def readLoop (env : ReadEnv) (tbufSize countSave : Nat) : Nat → Nat → Reading → ReadRun
  | 0, _, c => ⟨c.reads, c.copied, c.offp, none⟩
  | fuel + 1, k, c =>
    match env.ubiEbaReadLeb k with
    | some err => { c with reads := c.reads ++ [vol.request c] }.finish (.error err)
    | none =>
      let c := vol.pass (env.uncopied k) c
      if env.uncopied k ≠ 0 then c.finish (.error .EFAULT)
      else if c.count = 0 then c.finish (.ok (countSave - c.count))
      else readLoop env tbufSize countSave fuel (k + 1) (c.fill tbufSize)

/-- `vol_cdev_read` -/
def volCdevRead (env : ReadEnv) (offp : Nat) (count : UInt32) : ReadRun :=
  if vol.updating then ⟨[], [], offp, some (.error .EBUSY)⟩
  else if vol.updMarker then ⟨[], [], offp, some (.error .EBADF)⟩
  else if offp = vol.usedBytes ∨ count = 0 then ⟨[], [], offp, some (.ok 0)⟩
  else
    let count : Nat :=
      if vol.usedBytes < offp + count.toNat then
        (((vol.usedBytes : Int) - offp) % 2 ^ 32).toNat
      else count.toNat
    let tbufSize :=
      if count < vol.sizes.usableLebSize then align count vol.sizes.minIoSize
      else vol.sizes.usableLebSize
    -- `vmalloc` gives nothing for no bytes
    if !env.vmalloc ∨ tbufSize = 0 then ⟨[], [], offp, some (.error .ENOMEM)⟩
    else
      vol.readLoop env tbufSize count (count + 1) 0
        (Reading.fill tbufSize
          { lnum := offp / vol.sizes.usableLebSize
            off := offp % vol.sizes.usableLebSize
            len := 0
            count := count
            offp := offp
            reads := []
            copied := [] })

end Volume

/-! ## One read of an LEB -/

/-- Everything that is asked for is done. -/
structure ReadEnv.Fine (env : ReadEnv) : Prop where
  vmalloc : env.vmalloc = true
  reads : ∀ k, env.ubiEbaReadLeb k = none
  copies : ∀ k, env.uncopied k = 0

/-- The LEB and the offset in it are those of the position in the volume. -/
structure Reading.Placed (vol : Volume) (c : Reading) : Prop where
  off_lt : c.off < vol.sizes.usableLebSize
  place : c.lnum * vol.sizes.usableLebSize + c.off = c.offp

/-- Filling the buffer does not move the reader. -/
theorem Reading.Placed.fill {vol : Volume} {c : Reading} (h : c.Placed vol) (tbufSize : Nat) :
    (c.fill tbufSize).Placed vol := ⟨h.off_lt, h.place⟩

/-- A read of the volume's own bytes. -/
def EbaRead.Inside (vol : Volume) (e : EbaRead) : Prop :=
  e.lnum < vol.usedEbs ∧ e.off + e.len ≤ vol.sizes.usableLebSize

namespace Volume

variable {vol : Volume} {c : Reading} {len : Nat}

/-- No more is read than what was asked for. -/
theorem cutLen_le : vol.cutLen c ≤ c.len := by
  unfold cutLen
  split <;> omega

/-- And something, as long as something is wanted. -/
theorem cutLen_pos (h : c.Placed vol) (hlen : 0 < c.len) : 0 < vol.cutLen c := by
  have := h.off_lt
  unfold cutLen
  split <;> omega

/-- A request stays in its LEB. -/
theorem off_add_cutLen (h : c.Placed vol) : c.off + vol.cutLen c ≤ vol.sizes.usableLebSize := by
  have := h.off_lt
  unfold cutLen
  split <;> omega

/-- The reader goes on, to the next LEB if this one is done. -/
theorem advance_placed (h : c.Placed vol) (hlen : c.off + len ≤ vol.sizes.usableLebSize) :
    (vol.advance c len).Placed vol := by
  have hoff := h.off_lt
  have hplace := h.place
  constructor
  · simp only [advance]
    split <;> omega
  · simp only [advance]
    split
    · rw [Nat.succ_mul]
      omega
    · omega

/-- What is read from the LEB are the bytes of the volume at the position. -/
theorem read_eq (h : c.Placed vol) (hlen : c.off + len ≤ vol.sizes.usableLebSize) :
    span (vol.leb c.lnum) c.off len = span vol.byte c.offp len := by
  rw [← h.place]
  exact (span_flat hlen).symm

/-- What is read is inside of the volume. -/
theorem request_inside (h : c.Placed vol) (hend : c.offp < vol.usedBytes) :
    (vol.request c).Inside vol := by
  refine ⟨Nat.lt_of_not_le fun hle => ?_, off_add_cutLen h⟩
  have hle : vol.usedEbs ≤ c.lnum := hle
  have hmul := Nat.mul_le_mul_right vol.sizes.usableLebSize hle
  have := vol.usedBytes_le
  have := h.place
  omega

section Pass

variable {u : Nat}

/-- One pass of the loop. -/
theorem pass_placed (h : c.Placed vol) : (vol.pass u c).Placed vol :=
  have hnext := advance_placed h (off_add_cutLen h)
  ⟨hnext.off_lt, hnext.place⟩

theorem pass_count : (vol.pass u c).count = c.count - vol.cutLen c := rfl

theorem pass_offp : (vol.pass u c).offp = c.offp + vol.cutLen c := rfl

/-- It copies what it has read, but for what did not get to the user. -/
theorem pass_copied (h : c.Placed vol) :
    (vol.pass u c).copied = c.copied ++ span vol.byte c.offp (vol.cutLen c - u) := by
  show c.copied ++ _ = _
  rw [read_eq h (off_add_cutLen h), take_span (Nat.sub_le _ _)]

end Pass

/-! ## The loop -/

section Loop

variable {env : ReadEnv} {tbufSize countSave fuel k : Nat}

/-- The loop ends. -/
theorem readLoop_returns (h : c.Placed vol) (htbuf : 0 < tbufSize) (hlen : c.len = min c.count tbufSize)
    (hcount : 0 < c.count) (hfuel : c.count ≤ fuel) :
    (vol.readLoop env tbufSize countSave fuel k c).result ≠ none := by
  induction fuel generalizing k c with
  | zero => omega
  | succ fuel ih =>
    have hpos := cutLen_pos h (by omega)
    rw [readLoop]
    split
    · simp [Reading.finish]
    · dsimp only
      split
      · simp [Reading.finish]
      · split
        · simp [Reading.finish]
        · rename_i hleft
          refine ih ((pass_placed h).fill tbufSize) rfl (Nat.pos_of_ne_zero hleft) ?_
          show c.count - vol.cutLen c ≤ fuel
          omega

/-- Up to the end of the volume only its own LEBs are read. -/
theorem readLoop_inside (h : c.Placed vol) (hlen : c.len = min c.count tbufSize)
    (hcount : 0 < c.count) (hend : c.offp + c.count ≤ vol.usedBytes)
    (hreads : ∀ e ∈ c.reads, e.Inside vol) :
    ∀ e ∈ (vol.readLoop env tbufSize countSave fuel k c).reads, e.Inside vol := by
  induction fuel generalizing k c with
  | zero => exact hreads
  | succ fuel ih =>
    have hcut := @cutLen_le vol c
    have hnew : ∀ e ∈ c.reads ++ [vol.request c], e.Inside vol := by
      intro e he
      rcases List.mem_append.mp he with he | he
      · exact hreads e he
      · rw [List.mem_singleton.mp he]
        exact request_inside h (by omega)
    rw [readLoop]
    split
    · exact hnew
    · dsimp only
      split
      · exact hnew
      · split
        · exact hnew
        · rename_i hleft
          refine ih ((pass_placed h).fill tbufSize) rfl (Nat.pos_of_ne_zero hleft) ?_ hnew
          show c.offp + vol.cutLen c + (c.count - vol.cutLen c) ≤ vol.usedBytes
          omega

/-- What was copied when the loop ends, early or not. -/
theorem readLoop_copied (h : c.Placed vol) (hlen : c.len = min c.count tbufSize) :
    ∃ n ≤ c.count, (vol.readLoop env tbufSize countSave fuel k c).copied =
      c.copied ++ span vol.byte c.offp n := by
  induction fuel generalizing k c with
  | zero => exact ⟨0, Nat.zero_le _, by simp [readLoop]⟩
  | succ fuel ih =>
    have hcut := @cutLen_le vol c
    rw [readLoop]
    split
    · exact ⟨0, Nat.zero_le _, by simp [Reading.finish]⟩
    · dsimp only
      split
      · exact ⟨_, by omega, pass_copied h⟩
      · rename_i hcopy
        have hcopied := pass_copied (u := env.uncopied k) h
        rw [Decidable.not_not.mp hcopy] at hcopied ⊢
        rw [Nat.sub_zero] at hcopied
        split
        · exact ⟨_, by omega, hcopied⟩
        · obtain ⟨n, hn, heq⟩ := ih (k := k + 1) ((pass_placed (u := 0) h).fill tbufSize) rfl
          have hn : n ≤ c.count - vol.cutLen c := hn
          refine ⟨vol.cutLen c + n, by omega, ?_⟩
          rw [heq, ← span_append, ← List.append_assoc, ← hcopied]
          rfl

/-- When nothing fails, all of it is copied. -/
theorem readLoop_fine (henv : env.Fine) (h : c.Placed vol) (htbuf : 0 < tbufSize)
    (hlen : c.len = min c.count tbufSize) (hcount : 0 < c.count) (hfuel : c.count ≤ fuel) :
    vol.readLoop env tbufSize countSave fuel k c =
      { reads := (vol.readLoop env tbufSize countSave fuel k c).reads
        copied := c.copied ++ span vol.byte c.offp c.count
        offp := c.offp + c.count
        result := some (.ok countSave) } := by
  induction fuel generalizing k c with
  | zero => omega
  | succ fuel ih =>
    have hpos := cutLen_pos h (by omega)
    have hcut := @cutLen_le vol c
    have hcopied := pass_copied (u := 0) h
    rw [Nat.sub_zero] at hcopied
    have hread := henv.reads k
    rw [readLoop]
    simp only [hread, henv.copies k, ne_eq, not_true_eq_false, if_false]
    split
    · rename_i hdone
      have hall : c.count = vol.cutLen c := by
        rw [pass_count] at hdone
        omega
      simp only [Reading.finish, hcopied, pass_offp, hdone, ← hall, Nat.sub_zero]
    · rename_i hleft
      have hcount' : vol.cutLen c + (vol.pass 0 c).count = c.count := by
        rw [pass_count]
        omega
      have hrest := ih (k := k + 1) ((pass_placed (u := 0) h).fill tbufSize) rfl
        (Nat.pos_of_ne_zero hleft) (show c.count - vol.cutLen c ≤ fuel by omega)
      have hspan : c.copied ++ span vol.byte c.offp c.count =
          (vol.pass 0 c).copied ++ span vol.byte (vol.pass 0 c).offp (vol.pass 0 c).count := by
        rw [hcopied, List.append_assoc, pass_offp, span_append, hcount']
      have hoffp : c.offp + c.count = (vol.pass 0 c).offp + (vol.pass 0 c).count := by
        rw [pass_offp, Nat.add_assoc, hcount']
      rw [hspan, hoffp]
      exact hrest

end Loop

/-! ## The call -/

/-- The bytes from `offp` on, as many as are asked for and there are. -/
def wanted (vol : Volume) (offp : Nat) (count : UInt32) : List UInt8 :=
  span vol.byte offp (min (offp + count.toNat) vol.usedBytes - offp)

/-- The call does what reading is to do: it stays in the volume, and either something failed or was
refused or it gives the bytes. -/
structure ReadsRight (vol : Volume) (env : ReadEnv) (offp : Nat) (count : UInt32) (r : ReadRun) :
    Prop where
  inside : ∀ e ∈ r.reads, e.Inside vol
  copied : r.copied <+: vol.wanted offp count
  returns : r.result ≠ none
  fine : env.Fine → vol.updating = false → vol.updMarker = false →
    r.copied = vol.wanted offp count ∧ r.offp = offp + r.copied.length ∧
      r.result = some (.ok r.copied.length)

section Call

variable {env : ReadEnv} {offp tbufSize : Nat} {count : UInt32}

/-- The variables before the loop. -/
theorem start_placed (vol : Volume) (count : Nat) :
    Reading.Placed vol (Reading.fill tbufSize
      { lnum := offp / vol.sizes.usableLebSize
        off := offp % vol.sizes.usableLebSize
        len := 0
        count := count
        offp := offp
        reads := []
        copied := [] }) :=
  ⟨Nat.mod_lt _ vol.sizes.usableLebSize_pos, Nat.div_add_mod' _ _⟩

/-- The buffer takes something, if something is to be read. -/
theorem tbufSize_pos {vol : Volume} {n : Nat} (hn : 0 < n) :
    0 < if n < vol.sizes.usableLebSize then align n vol.sizes.minIoSize
      else vol.sizes.usableLebSize := by
  split
  · exact Nat.lt_of_lt_of_le hn (le_align vol.sizes.minIo_pos)
  · exact vol.sizes.usableLebSize_pos

/-- What is left of `count` when the offset is in the volume. -/
theorem cutCount (h : offp ≤ vol.usedBytes) :
    (if vol.usedBytes < offp + count.toNat then (((vol.usedBytes : Int) - offp) % 2 ^ 32).toNat
      else count.toNat) = min (offp + count.toNat) vol.usedBytes - offp := by
  have hlt : count.toNat < 2 ^ 32 := count.toNat_lt
  split
  · rw [← Int.ofNat_sub h]
    omega
  · omega

/-- Without data to read, nothing is read. -/
theorem volCdevRead_right (h : vol.updating = true ∨ vol.updMarker = true ∨ count = 0 ∨
    offp ≤ vol.usedBytes) : vol.ReadsRight env offp count (vol.volCdevRead env offp count) := by
  unfold volCdevRead
  split
  · rename_i hupd
    -- a volume that is being updated
    exact ⟨by simp, List.nil_prefix, by simp, by simp [hupd]⟩
  · split
    · rename_i hmark
      -- one whose update was interrupted
      exact ⟨by simp, List.nil_prefix, by simp, by simp [hmark]⟩
    · rename_i hupd hmark
      split
      · rename_i hnone
        -- nothing is asked for, or there is nothing behind the position
        have hwanted : vol.wanted offp count = [] := by
          have hlen : min (offp + count.toNat) vol.usedBytes - offp = 0 := by
            rcases hnone with rfl | rfl
            · omega
            · have : (0 : UInt32).toNat = 0 := rfl
              omega
          rw [wanted, hlen, span_zero]
        refine ⟨by simp, List.nil_prefix, by simp, fun _ _ _ => ?_⟩
        rw [hwanted]
        exact ⟨rfl, rfl, rfl⟩
      · rename_i hsome
        rw [not_or] at hsome
        have hle : offp ≤ vol.usedBytes := by
          rcases h with h | h | h | h
          · exact absurd h hupd
          · exact absurd h hmark
          · exact absurd h hsome.2
          · exact h
        have hpos : 0 < count.toNat := by
          refine Nat.pos_of_ne_zero fun hz => hsome.2 ?_
          exact UInt32.toNat_inj.mp hz
        -- What is left to read ends at `used_bytes`, if it did not before.
        rw [cutCount hle]
        generalize hn : min (offp + count.toNat) vol.usedBytes - offp = n
        have hn0 : 0 < n := by
          have := Nat.lt_of_le_of_ne hle hsome.1
          omega
        have hwanted : vol.wanted offp count = span vol.byte offp n := by rw [wanted, hn]
        have htbuf := @tbufSize_pos vol _ hn0
        dsimp only
        generalize (if n < vol.sizes.usableLebSize then align n vol.sizes.minIoSize
          else vol.sizes.usableLebSize) = tbufSize at htbuf ⊢
        have hstart := @start_placed offp tbufSize vol n
        split
        · rename_i hmem
          -- no memory for the buffer
          refine ⟨by simp, List.nil_prefix, by simp, fun henv _ _ => ?_⟩
          rw [henv.vmalloc] at hmem
          simp only [Bool.not_true, Bool.false_eq_true, false_or] at hmem
          omega
        · -- The loop stays inside the data, copies a prefix of what is wanted, and ends.
          constructor
          · refine readLoop_inside hstart rfl hn0 ?_ (by simp [Reading.fill])
            show offp + n ≤ vol.usedBytes
            omega
          · obtain ⟨m, hm, hcopied⟩ := @readLoop_copied _ _ env _ n (n + 1) 0 hstart rfl
            have hm : m ≤ n := hm
            rw [hcopied, hwanted, ← Nat.add_sub_cancel' hm, ← span_append]
            exact ⟨_, rfl⟩
          · exact readLoop_returns hstart htbuf rfl hn0 (Nat.le_succ n)
          · intro henv _ _
            rw [readLoop_fine henv hstart htbuf rfl hn0 (Nat.le_succ n), hwanted]
            simp [Reading.fill]

/-- Beyond the end, a read of anything gives bytes or fails. -/
theorem volCdevRead_beyond (henv : env.Fine) (hupd : vol.updating = false)
    (hmark : vol.updMarker = false) (hcount : count ≠ 0) (h : vol.usedBytes < offp) :
    (vol.volCdevRead env offp count).copied ≠ [] ∨
      (vol.volCdevRead env offp count).result = some (.error .ENOMEM) := by
  have hcut : vol.usedBytes < offp + count.toNat := by omega
  have hsome : ¬ (offp = vol.usedBytes ∨ count = 0) := by
    rintro (h' | h')
    · omega
    · exact hcount h'
  unfold volCdevRead
  rw [if_neg (by simp [hupd]), if_neg (by simp [hmark]), if_neg hsome, if_pos hcut]
  generalize (((vol.usedBytes : Int) - offp) % 2 ^ 32).toNat = n
  dsimp only
  rcases Nat.eq_zero_or_pos n with rfl | hn0
  · right
    have hzero : align 0 vol.sizes.minIoSize = 0 :=
      align_of_dvd vol.sizes.minIo_pos (Nat.dvd_zero _)
    rw [if_pos vol.sizes.usableLebSize_pos, hzero, if_pos (Or.inr rfl)]
  · left
    have htbuf := @tbufSize_pos vol _ hn0
    generalize (if n < vol.sizes.usableLebSize then align n vol.sizes.minIoSize
      else vol.sizes.usableLebSize) = tbufSize at htbuf ⊢
    have hmem : ¬ ((!env.vmalloc) = true ∨ tbufSize = 0) := by
      rw [henv.vmalloc]
      simp only [Bool.not_true, Bool.false_eq_true, false_or]
      omega
    rw [if_neg hmem, readLoop_fine henv (start_placed vol n) htbuf rfl hn0 (Nat.le_succ n)]
    intro hnil
    have hlen := congrArg List.length hnil
    simp [Reading.fill] at hlen
    omega

end Call

/-- Reading is right up to the end of the volume, and of nothing. -/
theorem volCdevRead_right_iff {vol : Volume} {offp : Nat} {count : UInt32} :
    (∀ env, vol.ReadsRight env offp count (vol.volCdevRead env offp count)) ↔
      (vol.updating = true ∨ vol.updMarker = true ∨ count = 0 ∨ offp ≤ vol.usedBytes) := by
  constructor
  · intro h
    by_contra hnot
    simp only [not_or, Bool.not_eq_true] at hnot
    obtain ⟨hupd, hmark, hcount, hbeyond⟩ := hnot
    have henv : ReadEnv.Fine ⟨true, fun _ => none, fun _ => 0⟩ :=
      ⟨rfl, fun _ => rfl, fun _ => rfl⟩
    obtain ⟨hcopied, -, hresult⟩ := (h _).fine henv hupd hmark
    have hwanted : vol.wanted offp count = [] := by
      have hlen : min (offp + count.toNat) vol.usedBytes - offp = 0 := by omega
      rw [wanted, hlen, span_zero]
    rcases volCdevRead_beyond henv hupd hmark hcount (Nat.lt_of_not_le hbeyond) with hb | hb
    · exact hb (hcopied.trans hwanted)
    · rw [hresult] at hb
      cases hb
  · exact fun h env => volCdevRead_right h

/-- A volume of one LEB. -/
def one : Volume where
  sizes := .nand 1 (by decide) (by decide) (by decide)
  usedEbs := 1
  usedBytes := 126976
  updating := false
  updMarker := false
  leb := fun _ _ => 0
  usedBytes_le := by decide

/-- Asked for a byte behind the end, the call goes to an LEB that the volume does not have. -/
theorem volCdevRead_outside :
    ⟨1, 1, 126975⟩ ∈ (one.volCdevRead ⟨true, fun _ => some (.other 5), fun _ => 0⟩ 126977 1).reads ∧
      ¬ ∀ env, one.ReadsRight env 126977 1 (one.volCdevRead env 126977 1) := by
  have hread : ⟨1, 1, 126975⟩ ∈
      (one.volCdevRead ⟨true, fun _ => some (.other 5), fun _ => 0⟩ 126977 1).reads := by
    decide +kernel
  refine ⟨hread, fun h => ?_⟩
  exact absurd ((h _).inside _ hread).1 (by decide)

end Volume

end Ubi.Vol
