/-
  What scanning makes of the used PEBs (`scan.c`).

  A LEB can be on several PEBs.  `ubi_scan_add_used` is fed with them one after the other, keeps one
  PEB for each LEB and puts the others on the list of those that are to be erased.  The trees are
  functions, memory does not run out, and the flash is read without errors.

  The decision between two PEBs is `compare_lebs`: the greater sequence number wins, unless it is a
  copy whose data are not there completely.
-/
import FlashStack.Lib.Newest
import Mathlib.Data.Finset.Card
import Mathlib.Data.Finset.Dedup
import Mathlib.Data.List.Perm.Basic
import Mathlib.Logic.Function.Basic

namespace Ubi.Scan

/-- The types of a volume. -/
inductive VolType
  | dynamic
  | static
deriving DecidableEq

/-- What scanning uses of `struct ubi_vid_hdr`. -/
structure VidHdr where
  volType : VolType
  volId : Nat
  lnum : Nat
  usedEbs : Nat
  dataPad : Nat
  compat : Nat
  copyFlag : Bool
  sqnum : Nat
  dataSize : Nat
  dataCrc : UInt32

/-- What is on the PEBs; a read of the data may need correction. -/
structure Flash where
  ec : Nat → Nat
  vidHdr : Nat → VidHdr
  data : Nat → List UInt8
  dataBitflips : Nat → Bool
  crc32 : List UInt8 → UInt32

/-- `struct ubi_scan_leb` -/
structure ScanLeb where
  ec : Nat
  pnum : Nat
  lnum : Nat
  scrub : Bool
  copyFlag : Bool
  sqnum : Nat

/-- `struct ubi_scan_volume`, with its LEBs as a function. -/
structure ScanVolume where
  volId : Nat
  highestLnum : Nat
  lebCount : Nat
  volType : VolType
  usedEbs : Nat
  dataPad : Nat
  compat : Nat
  lastDataSize : Nat
  leb : Nat → Option ScanLeb

/-- What adding used PEBs uses of `struct ubi_scan_info`. -/
structure ScanInfo where
  volumes : Nat → Option ScanVolume
  erase : List (Nat × Nat)
  maxSqnum : Nat
  highestVolId : Nat
  volsFound : Nat

/-- `validate_vid_hdr`: what is wrong is the result. -/
def validateVidHdr (vidHdr : VidHdr) (sv : ScanVolume) : Bool :=
  sv.lebCount != 0 &&
    (vidHdr.volId != sv.volId || vidHdr.volType != sv.volType || vidHdr.usedEbs != sv.usedEbs ||
      vidHdr.dataPad != sv.dataPad)

/-- A volume that no PEB has been added to. -/
def newVolume (vidHdr : VidHdr) : ScanVolume where
  volId := vidHdr.volId
  highestLnum := 0
  lebCount := 0
  volType := vidHdr.volType
  usedEbs := vidHdr.usedEbs
  dataPad := vidHdr.dataPad
  compat := vidHdr.compat
  lastDataSize := 0
  leb _ := none

/-- `add_volume` -/
def addVolume (si : ScanInfo) (vidHdr : VidHdr) : ScanInfo × ScanVolume :=
  match si.volumes vidHdr.volId with
  | some sv => (si, sv)
  | none =>
    let sv := newVolume vidHdr
    ({ si with
        volumes := Function.update si.volumes vidHdr.volId (some sv)
        highestVolId := max si.highestVolId vidHdr.volId
        volsFound := si.volsFound + 1 }, sv)

/-- The bits of the result of `compare_lebs`. -/
structure CmpRes where
  secondIsNewer : Bool
  bitflips : Bool
  corrupted : Bool

/-- The CRC of the data that was copied is right. -/
def crcOk (fl : Flash) (pnum : Nat) : Bool :=
  fl.crc32 ((fl.data pnum).take (fl.vidHdr pnum).dataSize) == (fl.vidHdr pnum).dataCrc

/-- The data of the newer PEB, a copy, is read. -/
def checkCopy (fl : Flash) (pnum : Nat) (secondIsNewer : Bool) : CmpRes :=
  if crcOk fl pnum then ⟨secondIsNewer, fl.dataBitflips pnum, false⟩
  else ⟨!secondIsNewer, false, true⟩

/-- `compare_lebs` -/
def compareLebs (fl : Flash) (seb : ScanLeb) (pnum : Nat) : Option CmpRes :=
  let vidHdr := fl.vidHdr pnum
  if vidHdr.sqnum = seb.sqnum then none
  else if vidHdr.sqnum > seb.sqnum then
    if !vidHdr.copyFlag then some ⟨true, false, false⟩ else some (checkCopy fl pnum true)
  else if !seb.copyFlag then some ⟨false, false, false⟩
  else some (checkCopy fl seb.pnum false)

namespace ScanInfo

/-- `add_to_list`, for the list of PEBs to erase. -/
def addToErase (si : ScanInfo) (pnum ec : Nat) (toHead : Bool) : ScanInfo :=
  { si with erase := if toHead then (pnum, ec) :: si.erase else si.erase ++ [(pnum, ec)] }

/-- What is known of a volume changes. -/
def setVolume (si : ScanInfo) (sv : ScanVolume) : ScanInfo :=
  { si with volumes := Function.update si.volumes sv.volId (some sv) }

end ScanInfo

/-- `ubi_scan_add_used` -/
def ubiScanAddUsed (fl : Flash) (si : ScanInfo) (pnum : Nat) (bitflips : Bool) :
    Option ScanInfo :=
  let vidHdr := fl.vidHdr pnum
  let ec := fl.ec pnum
  match addVolume si vidHdr with
  | (si, sv) =>
    let si := { si with maxSqnum := max si.maxSqnum vidHdr.sqnum }
    match sv.leb vidHdr.lnum with
    | some seb =>
      if seb.sqnum = vidHdr.sqnum ∧ vidHdr.sqnum ≠ 0 then none
      else
        match compareLebs fl seb pnum with
        | none => none
        | some cmp =>
          if cmp.secondIsNewer then
            if validateVidHdr vidHdr sv then none
            else
              let seb' : ScanLeb :=
                { seb with
                  ec
                  pnum
                  scrub := cmp.bitflips || bitflips
                  copyFlag := vidHdr.copyFlag
                  sqnum := vidHdr.sqnum }
              some ((si.addToErase seb.pnum seb.ec cmp.corrupted).setVolume
                { sv with
                  leb := Function.update sv.leb vidHdr.lnum (some seb')
                  lastDataSize :=
                    if sv.highestLnum = vidHdr.lnum then vidHdr.dataSize else sv.lastDataSize })
          else some (si.addToErase pnum ec cmp.corrupted)
    | none =>
      if validateVidHdr vidHdr sv then none
      else
        let seb : ScanLeb :=
          { ec, pnum, lnum := vidHdr.lnum, scrub := bitflips, copyFlag := vidHdr.copyFlag,
            sqnum := vidHdr.sqnum }
        some (si.setVolume
          { sv with
            highestLnum := if sv.highestLnum ≤ vidHdr.lnum then vidHdr.lnum else sv.highestLnum
            lastDataSize :=
              if sv.highestLnum ≤ vidHdr.lnum then vidHdr.dataSize else sv.lastDataSize
            lebCount := sv.lebCount + 1
            leb := Function.update sv.leb vidHdr.lnum (some seb) })

/-- PEBs are added in turn. -/
def scan (fl : Flash) (bitflips : Nat → Bool) (si : ScanInfo) : List Nat → Option ScanInfo
  | [] => some si
  | pnum :: ps =>
    match ubiScanAddUsed fl si pnum (bitflips pnum) with
    | none => none
    | some si => scan fl bitflips si ps

end Ubi.Scan
