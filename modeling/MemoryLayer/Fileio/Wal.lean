import MemoryLayer.Meta.Tables

namespace MemoryLayer.Fileio

open Meta

/-! # The write-ahead log

The segmented log of `wal/wal.go`, record by record: a record is durable when `Append` returns, so a
crash loses at most the record being written.

- `Record`, `Segment`, `Wal`: the log; `cur` is the last segment, the one appended to.
- `Wal.append`: append a record, rolling to a new segment first when the current one is full.
- `Wal.replay`: the records in order.
- `Wal.checkpoint`: drop the segments whose records have all landed.
- `Wal.reopen`: the log after a restart.
-/

/-- The logged operations. -/
inductive OpType where
  | write | truncate
  deriving DecidableEq, Repr

/-- One logged operation.  A truncation carries the high half of the new length in `indx` and the
    low half in `off`. -/
structure Record where
  seq : Nat
  op : OpType
  ino : Ino
  indx : Nat
  off : Nat
  sliceId : Nat
  size : Nat
  sliceOff : Nat
  sliceLen : Nat
  deriving DecidableEq, Repr

/-- A segment file. -/
structure Segment where
  startSeq : Nat
  maxSeq : Nat
  records : List Record
  deriving DecidableEq, Repr

/-- The log: the older segments, oldest first, and the current one. -/
structure Wal where
  seq : Nat
  old : List Segment
  cur : Segment
  deriving DecidableEq, Repr

namespace Wal

/-- The bytes of a framed record: length, checksum and payload. -/
def frameLen : Nat := 8 + 45

/-- The size at which a segment rolls (64 MiB). -/
def segmentBytes : Nat := 2 ^ 26

/-- A new log. -/
def empty : Wal := ⟨0, [], ⟨1, 0, []⟩⟩

variable (w : Wal)

/-- The size of the current segment. -/
def curBytes : Nat := w.cur.records.length * frameLen

/-- Start a new segment. -/
def roll : Wal := { w with old := w.old ++ [w.cur], cur := ⟨w.seq + 1, 0, []⟩ }

/-- Append a record under the next sequence number. -/
def append (rec : Record) : Wal :=
  let w := if w.curBytes ≥ segmentBytes then w.roll else w
  let seq := w.seq + 1
  { w with
    seq := seq
    cur := { w.cur with maxSeq := seq, records := w.cur.records ++ [{ rec with seq := seq }] } }

/-- The records of all segments, in order. -/
def replay : List Record := (w.old ++ [w.cur]).flatMap Segment.records

/-- The highest sequence number given out. -/
def lastSeq : Nat := w.seq

/-- Drop the segments before the current one whose highest sequence number is covered. -/
def checkpoint (upToSeq : Nat) : Wal :=
  { w with old := w.old.filter fun s => !(s.maxSeq ≠ 0 ∧ s.maxSeq ≤ upToSeq) }

/-- A segment as it is scanned on opening. -/
def scan (s : Segment) : Segment :=
  { s with maxSeq := s.records.foldl (fun m r => if r.seq > m then r.seq else m) 0 }

/-- The log as it is opened again. -/
def reopen : Wal :=
  let segs := (w.old ++ [w.cur]).map scan
  { seq := segs.foldl (fun m s => if s.maxSeq > m then s.maxSeq else m) 0
    old := w.old.map scan
    cur := scan w.cur }

end Wal

end MemoryLayer.Fileio
