/-
  Physical eraseblocks and their erase counter headers (`io.c`).

  A PEB is a function from offsets to bytes.  A header is the 64 bytes of `struct ubi_ec_hdr`,
  big-endian and with a CRC, in a whole number of I/O units.
-/
import FlashStack.Lib.BigEndian
import Mathlib.Algebra.Order.Group.Nat

open Lib

namespace Ubi.Wl

/-- The sizes and constants of `ubi-media.h`. -/
def ubiEcHdrSize : Nat := 64
def ubiEcHdrSizeCrc : Nat := 60
def ubiVidHdrSize : Nat := 64
def ubiEcHdrMagic : Nat := 0x55424923
def ubiVersion : Nat := 1
def ubiMaxErasecounter : Nat := 0x7FFFFFFF

/-- Where things are in a PEB, as `io_init` accepts it. -/
structure Geometry where
  pebSize : Nat
  hdrsMinIoSize : Nat
  vidHdrOffset : Nat
  lebStart : Nat
  imageSeq : UInt32
  norFlash : Bool
  crc32 : List UInt8 → UInt32
  io : ∃ k, hdrsMinIoSize = 2 ^ k
  ecHdr_le : ubiEcHdrSize ≤ vidHdrOffset
  vidHdr_le : vidHdrOffset + ubiVidHdrSize ≤ lebStart
  lebStart_le : lebStart + ubiVidHdrSize ≤ pebSize
  pebSize_lt : pebSize < 2 ^ 31

namespace Geometry

variable (g : Geometry)

/-- `ALIGN(UBI_EC_HDR_SIZE, hdrs_min_io_size)` -/
def ecHdrAlsize : Nat := (ubiEcHdrSize + g.hdrsMinIoSize - 1) / g.hdrsMinIoSize * g.hdrsMinIoSize

/-- `vid_hdr_offset & ~(hdrs_min_io_size - 1)` -/
def vidHdrAloffset : Nat := g.vidHdrOffset / g.hdrsMinIoSize * g.hdrsMinIoSize

end Geometry

/-! ## Bytes -/

/-- The bytes of a PEB. -/
abbrev Peb := Nat → UInt8

namespace Peb

/-- What erasing leaves. -/
def erased : Peb := fun _ => 0xFF

/-- `len` bytes from `offs` on. -/
def read (p : Peb) (offs len : Nat) : List UInt8 := (List.range len).map fun i => p (offs + i)

/-- A write that succeeds: of zeroes, or to where the PEB is erased. -/
def put (p : Peb) (offs : Nat) (data : List UInt8) : Peb := fun i =>
  if offs ≤ i ∧ i < offs + data.length then data.getD (i - offs) 0 else p i

/-- A write that fails: anything may be where it was to write. -/
def spoil (p : Peb) (offs len : Nat) (left : Peb) : Peb := fun i =>
  if offs ≤ i ∧ i < offs + len then left i else p i

end Peb

/-! ## Headers -/

/-- `struct ubi_ec_hdr`, in the order of its fields on flash. -/
structure EcHdr where
  magic : Nat
  version : Nat
  ec : Nat
  vidHdrOffset : Nat
  dataOffset : Nat
  imageSeq : Nat
deriving DecidableEq

namespace EcHdr

/-- Bytes that nothing is in. -/
def padding (n : Nat) : List UInt8 := List.replicate n 0

/-- The bytes that the CRC is over. -/
def body (h : EcHdr) : List UInt8 :=
  BigEndian.encode 4 h.magic ++ BigEndian.encode 1 h.version ++ padding 3 ++
    BigEndian.encode 8 h.ec ++ BigEndian.encode 4 h.vidHdrOffset ++
    BigEndian.encode 4 h.dataOffset ++ BigEndian.encode 4 h.imageSeq ++ padding 32

/-- The header as it is written, with its CRC. -/
def bytes (crc32 : List UInt8 → UInt32) (h : EcHdr) : List UInt8 :=
  h.body ++ BigEndian.encode 4 (crc32 h.body).toNat

/-- The number in the bytes from `offs` on. -/
def field (buf : List UInt8) (offs len : Nat) : Nat := BigEndian.decode ((buf.drop offs).take len)

/-- The header that is read from the first bytes of a PEB. -/
def parse (buf : List UInt8) : EcHdr where
  magic := field buf 0 4
  version := field buf 4 1
  ec := field buf 8 8
  vidHdrOffset := field buf 16 4
  dataOffset := field buf 20 4
  imageSeq := field buf 24 4

end EcHdr

/-- `validate_ec_hdr`: what is wrong is the result. -/
def validateEcHdr (g : Geometry) (h : EcHdr) : Bool :=
  h.version != ubiVersion || h.vidHdrOffset != g.vidHdrOffset || h.dataOffset != g.lebStart ||
    h.ec > ubiMaxErasecounter

/-- `ubi_io_read_ec_hdr` where it returns 0; the flash makes no error. -/
def ubiIoReadEcHdr (g : Geometry) (p : Peb) : Option EcHdr :=
  let buf := p.read 0 ubiEcHdrSize
  let h := EcHdr.parse buf
  if h.magic ≠ ubiEcHdrMagic then none
  else if EcHdr.field buf ubiEcHdrSizeCrc 4 ≠ (g.crc32 (buf.take ubiEcHdrSizeCrc)).toNat then none
  else if validateEcHdr g h then none
  else some h

/-- The header that `ubi_io_write_ec_hdr` makes. -/
def newEcHdr (g : Geometry) (ec : Nat) : EcHdr where
  magic := ubiEcHdrMagic
  version := ubiVersion
  ec := ec
  vidHdrOffset := g.vidHdrOffset
  dataOffset := g.lebStart
  imageSeq := g.imageSeq.toNat

/-- What it writes: the header, in a buffer of whole I/O units. -/
def ecHdrBuf (g : Geometry) (ec : Nat) : List UInt8 :=
  let hdr := (newEcHdr g ec).bytes g.crc32
  hdr ++ EcHdr.padding (g.ecHdrAlsize - hdr.length)

/-- A PEB that can be handed out: a header with this counter, and nothing from the place of the VID
    header on. -/
structure Peb.Clean (g : Geometry) (p : Peb) (ec : Nat) : Prop where
  header : ∃ h, ubiIoReadEcHdr g p = some h ∧ h.ec = ec
  empty {i : Nat} : g.vidHdrAloffset ≤ i → i < g.pebSize → p i = 0xFF

/-! ## What is written can be read -/

namespace EcHdr

/-- A field behind the first bytes. -/
theorem field_skip {bs : List UInt8} {offs : Nat} (h : bs.length ≤ offs) (rest : List UInt8)
    (len : Nat) : field (bs ++ rest) offs len = field rest (offs - bs.length) len := by
  rw [field, field, List.drop_append, List.drop_eq_nil_of_le h, List.nil_append]

/-- A field that comes first is read as it was written. -/
theorem field_first {x len : Nat} (h : x < 256 ^ len) (rest : List UInt8) :
    field (BigEndian.encode len x ++ rest) 0 len = x := by
  rw [field, List.drop_zero, List.take_left' (BigEndian.length_encode ..),
    BigEndian.decode_encode h]

@[simp] theorem length_padding (n : Nat) : (padding n).length = n := List.length_replicate

@[simp] theorem length_body (h : EcHdr) : h.body.length = ubiEcHdrSizeCrc := by
  simp [body, ubiEcHdrSizeCrc]

/-- The header has the size of the format. -/
@[simp] theorem length_bytes (crc32 : List UInt8 → UInt32) (h : EcHdr) :
    (h.bytes crc32).length = ubiEcHdrSize := by
  simp [bytes, ubiEcHdrSizeCrc, ubiEcHdrSize]

/-- The numbers of a header fit into their fields. -/
structure Fits (h : EcHdr) : Prop where
  magic : h.magic < 256 ^ 4
  version : h.version < 256 ^ 1
  ec : h.ec < 256 ^ 8
  vidHdrOffset : h.vidHdrOffset < 256 ^ 4
  dataOffset : h.dataOffset < 256 ^ 4
  imageSeq : h.imageSeq < 256 ^ 4

/-- A header whose fields fit is read as it was written. -/
theorem parse_bytes {h : EcHdr} (hf : h.Fits) (crc32 : List UInt8 → UInt32) :
    parse (h.bytes crc32) = h := by
  simp [parse, bytes, body, field_skip, field_first hf.magic, field_first hf.version,
    field_first hf.ec, field_first hf.vidHdrOffset, field_first hf.dataOffset,
    field_first hf.imageSeq]

/-- The checksum stands at the end. -/
theorem crc_bytes (crc32 : List UInt8 → UInt32) (h : EcHdr) :
    field (h.bytes crc32) ubiEcHdrSizeCrc 4 =
      (crc32 ((h.bytes crc32).take ubiEcHdrSizeCrc)).toNat := by
  have hbody : (h.bytes crc32).take ubiEcHdrSizeCrc = h.body := List.take_left' h.length_body
  have hcrc : (crc32 h.body).toNat < 256 ^ 4 := (crc32 h.body).toNat_lt
  rw [hbody, bytes, field_skip (Nat.le_of_eq h.length_body), h.length_body, Nat.sub_self]
  have := field_first hcrc []
  rwa [List.append_nil] at this

end EcHdr

namespace Geometry

variable (g : Geometry)

/-- The unit of headers is not zero. -/
theorem hdrsMinIoSize_pos : 0 < g.hdrsMinIoSize := by
  obtain ⟨k, hk⟩ := g.io
  rw [hk]
  exact Nat.two_pow_pos k

/-- An erase counter header fits in what is read for it. -/
theorem ecHdrSize_le : ubiEcHdrSize ≤ g.ecHdrAlsize := by
  have hpos := g.hdrsMinIoSize_pos
  have hlt := Nat.lt_div_mul_add (a := ubiEcHdrSize + g.hdrsMinIoSize - 1) hpos
  unfold ecHdrAlsize
  omega

/-- The headers share an I/O unit only if it is the first one. -/
theorem vidHdrAloffset_cases : g.vidHdrAloffset = 0 ∨ g.ecHdrAlsize ≤ g.vidHdrAloffset := by
  have hpos := g.hdrsMinIoSize_pos
  obtain ⟨k, hk⟩ := g.io
  unfold vidHdrAloffset ecHdrAlsize
  by_cases hlarge : ubiEcHdrSize ≤ g.hdrsMinIoSize
  · -- the header is padded to one unit
    have hone : (ubiEcHdrSize + g.hdrsMinIoSize - 1) / g.hdrsMinIoSize = 1 := by
      have : 0 < ubiEcHdrSize := by decide
      refine Nat.div_eq_of_lt_le ?_ ?_
      · omega
      · omega
    rw [hone, Nat.one_mul]
    cases hq : g.vidHdrOffset / g.hdrsMinIoSize with
    | zero => exact .inl (Nat.zero_mul _)
    | succ q => exact .inr (Nat.le_mul_of_pos_left _ (Nat.succ_pos q))
  · -- units fill the header
    have hsmall : k < 6 := by
      by_contra hge
      have hpow : 2 ^ 6 ≤ 2 ^ k := Nat.pow_le_pow_right Nat.two_pos (Nat.le_of_not_lt hge)
      exact hlarge (hk ▸ hpow)
    obtain ⟨m, hm⟩ : g.hdrsMinIoSize ∣ ubiEcHdrSize :=
      hk ▸ Nat.pow_dvd_pow 2 (Nat.le_of_lt hsmall)
    have hround : (ubiEcHdrSize + g.hdrsMinIoSize - 1) / g.hdrsMinIoSize = m := by
      refine Nat.div_eq_of_lt_le ?_ ?_
      · rw [hm, Nat.mul_comm]
        omega
      · rw [hm, Nat.succ_mul, Nat.mul_comm m]
        omega
    refine .inr ?_
    rw [hround]
    refine Nat.mul_le_mul_right _ ((Nat.le_div_iff_mul_le hpos).mpr ?_)
    rw [Nat.mul_comm, ← hm]
    exact g.ecHdr_le

end Geometry

/-- The fields of a new header fit. -/
theorem newEcHdr_fits (g : Geometry) {ec : Nat} (h : ec ≤ ubiMaxErasecounter) :
    (newEcHdr g ec).Fits := by
  have hvid := g.vidHdr_le
  have hleb := g.lebStart_le
  have hpeb := g.pebSize_lt
  constructor
  case magic => exact (by decide : ubiEcHdrMagic < 256 ^ 4)
  case version => exact (by decide : ubiVersion < 256 ^ 1)
  case ec => exact Nat.lt_of_le_of_lt h (by decide)
  case vidHdrOffset =>
    show g.vidHdrOffset < 256 ^ 4
    omega
  case dataOffset =>
    show g.lebStart < 256 ^ 4
    omega
  case imageSeq => exact g.imageSeq.toNat_lt

namespace Peb

/-- What was written at the beginning of a PEB is read there. -/
theorem read_put (p : Peb) {data : List UInt8} {n : Nat} (h : n ≤ data.length) :
    (p.put 0 data).read 0 n = data.take n := by
  refine List.ext_getElem (by simp [read, h]) fun i hi hi' => ?_
  have hlt : i < data.length := by simp [read] at hi; omega
  simp [read, put, hlt]

/-- What is behind it is left alone. -/
theorem put_behind (p : Peb) {data : List UInt8} {i : Nat} (h : data.length ≤ i) :
    p.put 0 data i = p i := if_neg (by omega)

/-- A new header on an erased PEB can be read. -/
theorem readEcHdr_put (g : Geometry) {ec : Nat} (h : ec ≤ ubiMaxErasecounter) :
    ubiIoReadEcHdr g (erased.put 0 (ecHdrBuf g ec)) = some (newEcHdr g ec) := by
  have hbuf : (erased.put 0 (ecHdrBuf g ec)).read 0 ubiEcHdrSize =
      (newEcHdr g ec).bytes g.crc32 := by
    rw [read_put _ (by simp [ecHdrBuf]), ecHdrBuf]
    exact List.take_left' (EcHdr.length_bytes ..)
  have hparse := EcHdr.parse_bytes (newEcHdr_fits g h) g.crc32
  have hcrc := EcHdr.crc_bytes g.crc32 (newEcHdr g ec)
  have hval : validateEcHdr g (newEcHdr g ec) = false := by
    simp [validateEcHdr, newEcHdr, h]
  have hmagic : (newEcHdr g ec).magic = ubiEcHdrMagic := rfl
  simp only [ubiIoReadEcHdr, hbuf, hparse, ← hcrc, hval, hmagic, ne_eq, not_true_eq_false,
    if_false, Bool.false_eq_true]

end Peb

end Ubi.Wl
