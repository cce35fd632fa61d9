/-
  The write-buffer (`io.c`).

  Nodes are put into a LEB one after the other.  What has not filled a unit of `max_write_size` yet is in
  the buffer, the rest is on the flash.  The flash takes every write, no I/O error has made the file
  system read-only, and the callback of the write-buffer does not fail.

  A node goes one of two ways: it fits in what is left of the buffer, or the buffer is filled up
  and written, then as many whole units as the node has, and the rest is kept.
-/
import FlashStack.Lib.Align
import FlashStack.Ubifs.ScanLeb
import Mathlib

namespace Ubifs.Buffered

/-- A node in memory; what is behind its `len` bytes is not part of it.  Its length, rounded up, is an
    `int`. -/
structure Node where
  buf : Scan.Buf
  len : Nat
  pos : 0 < len
  lt : len + 7 < 2 ^ 31

/-- `struct ubifs_wbuf`, once it has been seeked: before that there is no LEB. -/
structure Wbuf where
  lnum : Nat
  offs : Nat
  size : Nat
  avail : Nat
  used : Nat
  buf : Scan.Buf

/-- The write-buffer and the flash, and the calls of `ubi_leb_write`: LEB, offset and length. -/
structure State where
  wbuf : Wbuf
  flash : Nat → Scan.Buf
  writes : List (Nat × Nat × Nat)

/-- A write fails if the node does not fit in the LEB. -/
inductive Errno
  | enospc
deriving DecidableEq

/-! ## Bytes -/

/-- `memcpy(dst + d, src + s, n)` -/
def memcpy (dst : Scan.Buf) (d : Nat) (src : Scan.Buf) (s n : Nat) : Scan.Buf :=
  fun i => if d ≤ i ∧ i < d + n then src (s + (i - d)) else dst i

/-- The bytes that `ubifs_pad` makes: a padding node and zeros, or padding bytes where it does not fit. -/
def padding (c : Scan.Info) (pad : Nat) : List UInt8 :=
  if Scan.ubifsPadNodeSz ≤ pad then
    c.padNode (pad - Scan.ubifsPadNodeSz) ++ List.replicate (pad - Scan.ubifsPadNodeSz) 0
  else List.replicate pad Scan.ubifsPaddingByte

/-- `ubifs_pad(c, buf + p, pad)` -/
def ubifsPad (c : Scan.Info) (buf : Scan.Buf) (p pad : Nat) : Scan.Buf :=
  fun i => if p ≤ i ∧ i < p + pad then (padding c pad).getD (i - p) 0 else buf i

namespace State

/-- `ubi_leb_write` -/
def ubiLebWrite (s : State) (lnum : Nat) (buf : Scan.Buf) (offs len : Nat) : State :=
  { s with
    flash := Function.update s.flash lnum (memcpy (s.flash lnum) offs buf 0 len)
    writes := s.writes ++ [(lnum, offs, len)] }

end State

section

variable (c : Scan.Info) (s : State)

/-- The size of the buffer where it may be at any offset: it ends at a multiple of `max_write_size`. -/
def sizeAt (offs : Nat) : Nat :=
  if c.lebSize - offs < c.maxWriteSize then c.lebSize - offs
  else if offs &&& (c.maxWriteSize - 1) ≠ 0 then Lib.align offs c.maxWriteSize - offs
  else c.maxWriteSize

/-- The size of the buffer where it has just been filled. -/
def nextSize (offs : Nat) : Nat :=
  if c.maxWriteSize ≤ c.lebSize - offs then c.maxWriteSize else c.lebSize - offs

/-- `ubifs_wbuf_seek_nolock` -/
def ubifsWbufSeekNolock (lnum offs : Nat) : State :=
  { s with
    wbuf.lnum := lnum
    wbuf.offs := offs
    wbuf.size := sizeAt c offs
    wbuf.avail := sizeAt c offs
    wbuf.used := 0 }

/-- `ubifs_wbuf_sync_nolock` -/
def ubifsWbufSyncNolock : State :=
  let w := s.wbuf
  if w.used = 0 then s
  else
    let syncLen := Lib.align w.used c.minIoSize
    let dirt := syncLen - w.used
    let buf := if dirt ≠ 0 then ubifsPad c w.buf w.used dirt else w.buf
    let s := s.ubiLebWrite w.lnum buf w.offs syncLen
    let offs := w.offs + syncLen
    { s with
      wbuf.buf := buf
      wbuf.offs := offs
      wbuf.size := sizeAt c offs
      wbuf.avail := sizeAt c offs
      wbuf.used := 0 }

/-! ## `ubifs_wbuf_write_nolock` -/

/-- The node fits into the buffer. -/
def writeShort (n : Node) : State :=
  let w := s.wbuf
  let alignedLen := Lib.align n.len 8
  let buf := memcpy w.buf w.used n.buf 0 n.len
  if alignedLen = w.avail then
    let s := s.ubiLebWrite w.lnum buf w.offs w.size
    let offs := w.offs + w.size
    { s with
      wbuf.buf := buf
      wbuf.offs := offs
      wbuf.size := nextSize c offs
      wbuf.avail := nextSize c offs
      wbuf.used := 0 }
  else
    { s with
      wbuf.buf := buf
      wbuf.avail := w.avail - alignedLen
      wbuf.used := w.used + alignedLen }

/-- The buffer is filled and flushed, or the unit that it begins in is, if it is empty.  The second part of
    the result is `written`. -/
def fill (n : Node) : State × Nat :=
  let w := s.wbuf
  if w.used ≠ 0 then
    let buf := memcpy w.buf w.used n.buf 0 w.avail
    let s := s.ubiLebWrite w.lnum buf w.offs w.size
    ({ s with wbuf.buf := buf, wbuf.offs := w.offs + w.size }, w.avail)
  else if w.offs &&& (c.maxWriteSize - 1) ≠ 0 then
    let s := s.ubiLebWrite w.lnum n.buf w.offs w.size
    ({ s with wbuf.offs := w.offs + w.size }, w.size)
  else (s, 0)

/-- Whole units are written to the flash at once. -/
def writeUnits (n : Node) (written : Nat) : State × Nat :=
  let w := s.wbuf
  let units := (Lib.align n.len 8 - written) >>> c.maxWriteShift
  if units ≠ 0 then
    let len := units <<< c.maxWriteShift
    let s := s.ubiLebWrite w.lnum (fun i => n.buf (written + i)) w.offs len
    ({ s with wbuf.offs := w.offs + len }, written + len)
  else (s, written)

/-- What is left goes into the buffer. -/
def keepRest (n : Node) (written : Nat) : State :=
  let w := s.wbuf
  let alignedLen := Lib.align n.len 8 - written
  { s with
    wbuf.buf := if alignedLen ≠ 0 then memcpy w.buf 0 n.buf written (n.len - written) else w.buf
    wbuf.size := nextSize c w.offs
    wbuf.avail := nextSize c w.offs - alignedLen
    wbuf.used := alignedLen }

/-- The node does not fit in what is left of the buffer: whole units are written, the rest is kept.
    -/
def writeLong (n : Node) : State :=
  let (s, written) := fill c s n
  let (s, written) := writeUnits c s n written
  keepRest c s n written

/-- `ubifs_wbuf_write_nolock` -/
def ubifsWbufWriteNolock (n : Node) : Except Errno Unit × State :=
  let w := s.wbuf
  if c.lebSize - w.offs - w.used < Lib.align n.len 8 then (.error .enospc, s)
  else if Lib.align n.len 8 ≤ w.avail then (.ok (), writeShort c s n)
  else (.ok (), writeLong c s n)

/-! ## Reading -/

/-- The checks of a node that has been read, which is wanted to be of a type and a length. -/
def checkRead (buf : Scan.Buf) (type : UInt8) (len offs : Nat) : Except Scan.Stop (Option Scan.Errno) := do
  if (← c.nodeType buf 0) ≠ type then return some .einval
  else
    match ← c.ubifsCheckNode buf 0 offs false with
    | some err => return some err
    | none => if Scan.int (← c.len buf 0) ≠ len then return some .einval else return none

/-- `ubifs_read_node` -/
def ubifsReadNode (buf : Scan.Buf) (type : UInt8) (len lnum offs : Nat) :
    Except Scan.Stop (Option Scan.Errno) × Scan.Buf :=
  let buf := memcpy buf 0 (s.flash lnum) offs len
  (checkRead c buf type len offs, buf)

/-- `ubifs_read_node_wbuf` -/
def ubifsReadNodeWbuf (buf : Scan.Buf) (type : UInt8) (len lnum offs : Nat) :
    Except Scan.Stop (Option Scan.Errno) × Scan.Buf :=
  let w := s.wbuf
  if lnum = w.lnum ∧ w.offs < offs + len then
    let rlen := w.offs - offs
    let buf := memcpy buf rlen w.buf (offs + rlen - w.offs) (len - rlen)
    let buf := if 0 < rlen then memcpy buf 0 (s.flash lnum) offs rlen else buf
    (checkRead c buf type len offs, buf)
  else ubifsReadNode c s buf type len lnum offs

end

/-! ## A sequence of calls -/

/-- What is asked of a write-buffer. -/
inductive Op
  | write (n : Node)
  | sync

namespace Op

variable (c : Scan.Info)

/-- One of these. -/
def run (s : State) : Op → State
  | write n => (ubifsWbufWriteNolock c s n).2
  | sync => ubifsWbufSyncNolock c s

/-- The node that is written, where the caller takes it to be: at `offs + used` before the call. -/
def written (s : State) : Op → List (Nat × Node)
  | write n =>
    if (ubifsWbufWriteNolock c s n).1.isOk then [(s.wbuf.offs + s.wbuf.used, n)] else []
  | sync => []

end Op

variable (c : Scan.Info)

/-- Some of them, in order. -/
def runOps (s : State) : List Op → State
  | [] => s
  | op :: ops => runOps (op.run c s) ops

/-- The nodes that they wrote, each with its offset. -/
def written (s : State) : List Op → List (Nat × Node)
  | [] => []
  | op :: ops => op.written c s ++ written (op.run c s) ops

end Ubifs.Buffered
