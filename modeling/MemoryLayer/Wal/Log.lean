import MemoryLayer.Wal.Frame

namespace MemoryLayer.Wal

/-! # The segmented log

The log of `wal/wal.go` on a directory of segment files.  A step may fail where the source's system
calls can fail, and a crash may tear the bytes of the last segment that were not synced.

- `File`, `Dir`: segment files by the number in their names, in name order.
- `Log`: a running log; `Handle` is its open file.
- `rollLocked`, `append`, `checkpoint`, `load`, `close`, `replay`: the source's functions.
- `World`, `Event`, `World.step`: a directory with the process that uses it, event by event.
-/

/-! ### The directory -/

/-- A segment file, and how many of its bytes are synced. -/
structure File where
  bytes : List UInt8
  synced : Nat
  deriving DecidableEq, Repr

/-- Write at the end of a file. -/
def File.write (f : File) (bytes : List UInt8) : File := { f with bytes := f.bytes ++ bytes }

/-- Sync a file. -/
def File.sync (f : File) : File := { f with synced := f.bytes.length }

/-- Cut a file at a size. -/
def File.truncate (f : File) (size : Nat) : File := ⟨f.bytes.take size, min f.synced size⟩

/-- The segment files of a directory, by the number in their names and in its order. -/
abbrev Dir := List (UInt64 × File)

namespace Dir

/-- The file of a name. -/
def file? (d : Dir) (name : UInt64) : Option File := (d.find? fun p => p.1 = name).map Prod.snd

/-- Change a file. -/
def update (d : Dir) (name : UInt64) (g : File → File) : Dir :=
  d.map fun p => if p.1 = name then (p.1, g p.2) else p

/-- Open a file for appending, creating it when it is missing. -/
def create (d : Dir) (name : UInt64) : Dir :=
  if (d.file? name).isSome then d
  else d.takeWhile (fun p => p.1 < name) ++ (name, ⟨[], 0⟩) :: d.dropWhile (fun p => p.1 < name)

/-- Remove files. -/
def remove (d : Dir) (names : List UInt64) : Dir := d.filter fun p => p.1 ∉ names

end Dir

/-! ### The log -/

/-- A segment as the log keeps it in memory. -/
structure Segment where
  startSeq : UInt64
  maxSeq : UInt64
  deriving DecidableEq, Repr

/-- The log's file: open on a segment, closed, or none. -/
inductive Handle where
  | opened (name : UInt64)
  | closed
  | none
  deriving DecidableEq, Repr

/-- A running log. -/
structure Log where
  seq : UInt64
  segs : List Segment
  cur : Handle
  curBytes : Nat
  deriving DecidableEq, Repr

/-- The size at which a segment rolls (64 MiB). -/
def segmentSize : Nat := 64 * 2 ^ 20

/-- What fails in a call of `Append`: creating a new segment, syncing the directory after that, the
    write after `n` bytes reached the file, or syncing the file. -/
inductive Fault where
  | none
  | create
  | syncDir
  | write (n : Nat)
  | sync
  deriving DecidableEq, Repr

/-- Sync the file of a handle. -/
def syncHandle (d : Dir) : Handle → Dir
  | .opened name => d.update name File.sync
  | _ => d

/-- Close the current segment and start a new one; `false` is an error, after which the log still
    has the handle that was closed. -/
def rollLocked (d : Dir) (w : Log) (startSeq : UInt64) (fault : Fault) : Bool × Dir × Log :=
  let d := syncHandle d w.cur
  let failed : Log := { w with cur := if w.cur = .none then .none else .closed }
  match fault with
  | .create => (false, d, failed)
  | .syncDir => (false, d.create startSeq, failed)
  | _ => (true, d.create startSeq,
      { w with cur := .opened startSeq, curBytes := 0, segs := w.segs ++ [⟨startSeq, 0⟩] })

/-- The current segment is full. -/
def Log.full (w : Log) : Prop := w.cur ≠ .none ∧ w.curBytes ≥ segmentSize

instance (w : Log) : Decidable w.full := inferInstanceAs (Decidable (_ ∧ _))

/-- Set the highest number of the last segment. -/
def setMaxSeq (segs : List Segment) (seq : UInt64) : List Segment :=
  match segs.getLast? with
  | some s => segs.dropLast ++ [{ s with maxSeq := seq }]
  | none => segs

section

variable (crc : List UInt8 → UInt32)

/-- Write a record to the current segment. -/
def writeRecord (d : Dir) (w : Log) (rec : Record) (fault : Fault) : Option UInt64 × Dir × Log :=
  let seq := w.seq + 1
  let bytes := frame crc { rec with seq := seq }
  match w.cur with
  | .opened name =>
    match fault with
    | .write n => (none, d.update name (File.write · (bytes.take n)), { w with seq := seq })
    | .sync => (none, d.update name (File.write · bytes), { w with seq := seq })
    | _ => (some seq, d.update name fun f => (f.write bytes).sync,
        { w with
          seq := seq, curBytes := w.curBytes + bytes.length, segs := setMaxSeq w.segs seq })
  | _ => (none, d, { w with seq := seq })

/-- Append a record: its number, or none for an error. -/
def append (d : Dir) (w : Log) (rec : Record) (fault : Fault) : Option UInt64 × Dir × Log :=
  if w.full then
    match rollLocked d w (w.seq + 1) fault with
    | (true, d, w) => writeRecord crc d w rec fault
    | (false, d, w) => (none, d, w)
  else writeRecord crc d w rec fault

/-- The segment is fully covered by a checkpoint. -/
def Segment.covered (upToSeq : UInt64) (s : Segment) : Bool := s.maxSeq ≠ 0 ∧ s.maxSeq ≤ upToSeq

/-- The segments before the current one that a checkpoint drops. -/
def Log.dropped (w : Log) (upToSeq : UInt64) : List Segment :=
  w.segs.dropLast.filter (Segment.covered upToSeq)

/-- The segments that a checkpoint keeps. -/
def Log.kept (w : Log) (upToSeq : UInt64) : List Segment :=
  (w.segs.dropLast.filter fun s => !s.covered upToSeq) ++ w.segs.getLast?.toList

/-- Drop the covered segments with their files. -/
def checkpoint (d : Dir) (w : Log) (upToSeq : UInt64) : Dir × Log :=
  (d.remove ((w.dropped upToSeq).map Segment.startSeq), { w with segs := w.kept upToSeq })

/-- The highest number among records. -/
def maxSeqOf (rs : List Record) : UInt64 := rs.foldl (fun m r => if r.seq > m then r.seq else m) 0

/-- Open the log of a directory: scan the segments, and cut the torn tail of the last one. -/
def load (d : Dir) : Dir × Log :=
  let segs := d.map fun p => (⟨p.1, maxSeqOf (records crc p.2.bytes)⟩ : Segment)
  let seq := segs.foldl (fun m s => if s.maxSeq > m then s.maxSeq else m) 0
  match d.getLast? with
  | none => (rollLocked d ⟨seq, [], .none, 0⟩ 1 .none).2
  | some (name, f) =>
    let valid := validEnd crc f.bytes
    (d.update name (File.truncate · valid), ⟨seq, segs, .opened name, valid⟩)

/-- Close the log. -/
def close (d : Dir) (w : Log) : Dir × Log :=
  match w.cur with
  | .opened name => (d.update name File.sync, { w with cur := .none })
  | _ => (d, w)

/-- The records of the log's segments in order; none when a segment's file is missing. -/
def replaySegs (d : Dir) : List Segment → Option (List Record)
  | [] => some []
  | s :: segs =>
    match d.file? s.startSeq, replaySegs d segs with
    | some f, some rest => some (records crc f.bytes ++ rest)
    | _, _ => none

/-- The records that `Replay` hands out. -/
def replay (d : Dir) (w : Log) : Option (List Record) := replaySegs crc d w.segs

/-! ### Histories -/

/-- A directory, and the log that is running on it. -/
structure World where
  dir : Dir
  wal : Option Log
  deriving DecidableEq, Repr

/-- What can happen to a log: its calls, and a crash after which at least `keep` bytes of the last
    segment are left. -/
inductive Event where
  | append (rec : Record) (fault : Fault)
  | checkpoint (upToSeq : UInt64)
  | close
  | open
  | crash (keep : Nat)
  deriving DecidableEq, Repr

/-- What a crash leaves of a file. -/
def File.tear (f : File) (keep : Nat) : File := (⟨f.bytes.take (max f.synced keep), 0⟩ : File).sync

/-- What a crash leaves of a directory: unsynced bytes at the end of the last segment may be lost. -/
def tear (d : Dir) (w : Log) (keep : Nat) : Dir :=
  match w.segs.getLast? with
  | some s => d.update s.startSeq (File.tear · keep)
  | none => d

/-- The world after an event. -/
def World.step (w : World) : Event → World
  | .append rec fault =>
    match w.wal with
    | some p => ⟨(append crc w.dir p rec fault).2.1, some (append crc w.dir p rec fault).2.2⟩
    | none => w
  | .checkpoint upToSeq =>
    match w.wal with
    | some p => ⟨(checkpoint w.dir p upToSeq).1, some (checkpoint w.dir p upToSeq).2⟩
    | none => w
  | .close =>
    match w.wal with
    | some p => ⟨(close w.dir p).1, some (close w.dir p).2⟩
    | none => w
  | .open => ⟨(load crc w.dir).1, some (load crc w.dir).2⟩
  | .crash keep =>
    match w.wal with
    | some p => ⟨tear w.dir p keep, none⟩
    | none => w

/-- What `Append` answers with. -/
def World.answer (w : World) (rec : Record) (fault : Fault) : Option UInt64 :=
  w.wal.bind fun p => (append crc w.dir p rec fault).1

/-- The records that `Replay` hands out; none when it fails or no log is open. -/
def World.replay (w : World) : Option (List Record) := w.wal.bind (Wal.replay crc w.dir)

end

end MemoryLayer.Wal
