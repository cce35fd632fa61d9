/-
  The volume table (`ubi-media.h`, `vtbl.c`).

  A record carries a CRC of its other fields; which function that is does not matter, except that the
  record of an empty slot has the CRC that the source has for it.  `vtblCheck` tells a table with a
  bad CRC from one that makes no sense: the first may be left by a power cut, the second not.

  `recordCheck` goes through a record in the order of `vtbl_check`, down to the padding and the
  name; the sums are 32-bit `int`s, with their overflow.
-/
import Mathlib

namespace Ubi

/-- The constants of `ubi-media.h`. -/
def ubiVidDynamic : Nat := 1
def ubiVidStatic : Nat := 2
def ubiVolNameMax : Nat := 127
abbrev ubiLayoutVolumeEbs : Nat := 2
/-- A 32-bit word as a C `int`. -/
def toInt (x : UInt32) : Int := if x.toNat < 2 ^ 31 then x.toNat else x.toNat - 2 ^ 32

/-- Addition of `int`s. -/
def addInt (x y : Int) : Int := Int.bmod (x + y) (2 ^ 32)

/-- A name up to its end marker. -/
def cstr (name : List UInt8) : List UInt8 := name.takeWhile (· ≠ 0)

/-- The fields of a record that the CRC is over, as they are on flash. -/
structure VtblFields where
  reservedPebs : UInt32
  alignment : UInt32
  dataPad : UInt32
  volType : Nat
  updMarker : Nat
  nameLen : Nat
  name : List UInt8
  flags : Nat
deriving DecidableEq

/-- `struct ubi_vtbl_record` -/
structure VtblRecord extends VtblFields where
  crc : Nat
deriving DecidableEq

/-- The fields of `empty_vtbl_record`: all of them are zero. -/
def emptyFields : VtblFields := ⟨0, 0, 0, 0, 0, 0, List.replicate (ubiVolNameMax + 1) 0, 0⟩

/-- `empty_vtbl_record` -/
def emptyVtblRecord : VtblRecord := { emptyFields with crc := 0xf116c36b }

/-- What does not change while the device is attached. -/
structure UbiInfo where
  lebSize : Nat
  minIoSize : Nat
  vtblSlots : Nat
  crc32 : VtblFields → Nat
  crc32_empty : crc32 emptyFields = emptyVtblRecord.crc

/-- A device of 2 KiB pages, where the CRC is always the one of the empty record. -/
def plainUbiInfo : UbiInfo := ⟨126976, 2048, 1, fun _ => 0xf116c36b, rfl⟩

/-- The volume table. -/
abbrev Vtbl := List VtblRecord

/-- What `vtbl_check` returns: 0, 1 or `-EINVAL`. -/
inductive Check
  | ok
  | badCrc
  | inval
deriving DecidableEq

/-- The checks of the fields of a record that is not empty. -/
def fieldsCheck (c : UbiInfo) (goodPebCount reservedPebs alignment dataPad : Int)
    (r : VtblFields) : Check :=
  if reservedPebs < 0 ∨ alignment < 0 ∨ dataPad < 0 then .inval
  else if alignment > c.lebSize ∨ alignment = 0 then .inval
  else if alignment ≠ 1 ∧ alignment.toNat &&& (c.minIoSize - 1) ≠ 0 then .inval
  else if dataPad ≠ c.lebSize % alignment then .inval
  else if r.volType ≠ ubiVidDynamic ∧ r.volType ≠ ubiVidStatic then .inval
  else if r.updMarker ≠ 0 ∧ r.updMarker ≠ 1 then .inval
  else if reservedPebs > goodPebCount then .inval
  else if r.nameLen > ubiVolNameMax then .inval
  else if r.name.head? = some 0 then .inval
  else if r.nameLen ≠ (cstr (r.name.take (r.nameLen + 1))).length then .inval
  else .ok

/-- The checks of one record. -/
def recordCheck (c : UbiInfo) (goodPebCount : Int) (r : VtblRecord) : Check :=
  if r.crc ≠ c.crc32 r.toVtblFields then .badCrc
  else if toInt r.reservedPebs = 0 then
    if r ≠ emptyVtblRecord then .inval else .ok
  else
    fieldsCheck c goodPebCount (toInt r.reservedPebs) (toInt r.alignment) (toInt r.dataPad)
      r.toVtblFields

/-- `strncmp` of the names finds no difference. -/
def sameName (r r' : VtblRecord) : Bool :=
  r.nameLen > 0 && r.nameLen == r'.nameLen &&
    cstr (r.name.take r.nameLen) == cstr (r'.name.take r.nameLen)

/-- The records are checked in turn, and then that all names are different. -/
def vtblCheck (c : UbiInfo) (goodPebCount : Int) (vtbl : Vtbl) : Check :=
  match (vtbl.map (recordCheck c goodPebCount)).find? (· ≠ .ok) with
  | some err => err
  | none => if vtbl.Pairwise (fun r r' => sameName r r' = false) then .ok else .inval

/-- In a table that passed the check every record does. -/
theorem vtblCheck_eq_ok {c : UbiInfo} {goodPebCount : Int} {vtbl : Vtbl}
    (h : vtblCheck c goodPebCount vtbl = .ok) {r : VtblRecord} (hr : r ∈ vtbl) :
    recordCheck c goodPebCount r = .ok := by
  unfold vtblCheck at h
  cases hf : (vtbl.map (recordCheck c goodPebCount)).find? (· ≠ .ok) with
  | some err =>
    rw [hf] at h
    have hne := List.find?_some hf
    exact absurd h (by simpa using hne)
  | none => simpa using List.find?_eq_none.mp hf _ (List.mem_map_of_mem hr)

end Ubi
