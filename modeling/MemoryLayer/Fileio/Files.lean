import MemoryLayer.Meta.Slices
import MemoryLayer.Fileio.Resolve
import MemoryLayer.Fileio.Wal

namespace MemoryLayer.Fileio

open Meta

/-! # The file data path

Reads and writes at byte offsets (`fileio/fileio.go`) over the metadata engine, a store of slices
and the write-ahead log.  Loops take fuel that their callers choose large enough.

- `Files`: the data path's state.
- `Files.write`, `Files.read`, `Files.truncate`: the operations.
-/

/-- The errors of the data path; `outOfRange` is the run-time panic of a slice expression. -/
inductive FileErr where
  | getAttr (st : Errno)
  | readSlices (st : Errno)
  | chunkRead (id : Nat)
  | metaWrite (st : Errno)
  | truncate (st : Errno)
  | clone (st : Errno)
  | copyGetAttrSrc (st : Errno)
  | copyClone (st : Errno)
  | copyExtendDst (st : Errno)
  | walReplay (ino : Ino) (seq : Nat) (st : Errno)
  | outOfRange
  | outOfFuel
  deriving DecidableEq, Repr

/-- The metadata engine, the slices by id, and the log when there is one. -/
structure Files where
  engine : Engine
  chunks : Nat → Option (List UInt8)
  wal : Option Wal

namespace Files

/-! ### Writing -/

/-- Store the bytes of a slice. -/
def chunkWrite (f : Files) (id : Nat) (data : List UInt8) : Files :=
  { f with chunks := Function.update f.chunks id (some data) }

/-- Log a record, when there is a log. -/
def log (f : Files) (rec : Record) : Files := { f with wal := f.wal.map (Wal.append · rec) }

/-- The record of a written slice. -/
def writeRecord (r : SliceRef) : Record :=
  ⟨0, .write, r.inode, r.indx, r.pos, r.sliceId, r.size, r.soff, r.slen⟩

/-- The record of a truncation. -/
def truncateRecord (ino : Ino) (size : Nat) : Record :=
  ⟨0, .truncate, ino, size / 2 ^ 32 % 2 ^ 32, size % 2 ^ 32, 0, 0, 0, 0⟩

/-- The part of `Write` for one chunk up to the metadata commit: allocate a slice, store its bytes
    and log it. -/
def stage (f : Files) (ino : Ino) (offset : Nat) (data : List UInt8) : SliceRef × Files :=
  let indx := offset / chunkSize % 2 ^ 32
  let pos := offset % chunkSize
  let n := if data.length > chunkSize - pos then chunkSize - pos else data.length
  let (id, e) := f.engine.newSlice
  let r : SliceRef := ⟨ino, indx, pos, id, n, 0, n⟩
  (r, (({ f with engine := e } : Files).chunkWrite id (data.take n)).log (writeRecord r))

/-- The loop of `Write`, one chunk at a time. -/
def writeLoop (now : Time) (ino : Ino) :
    Nat → Files → Nat → List UInt8 → Nat → (Nat × Option FileErr) × Files
  | 0, f, _, _, written => ((written, none), f)
  | fuel + 1, f, offset, data, written =>
    if data.isEmpty then ((written, none), f)
    else
      let (r, f) := f.stage ino offset data
      match f.engine.write now r with
      | (.error st, e) => ((written, some (.metaWrite st)), { f with engine := e })
      | (.ok (), e) =>
        writeLoop now ino fuel { f with engine := e } (offset + r.slen) (data.drop r.slen)
          (written + r.slen)

/-- Write `data` at a byte offset, answering with the number of bytes written. -/
def write (f : Files) (now : Time) (ino : Ino) (offset : Nat) (data : List UInt8) :
    (Nat × Option FileErr) × Files :=
  writeLoop now ino data.length f offset data 0

/-- Set a file's length. -/
def truncate (f : Files) (now : Time) (ino : Ino) (size : Nat) : Option FileErr × Files :=
  let f := f.log (truncateRecord ino size)
  match f.engine.truncate now ino size with
  | (.error st, e) => (some (.truncate st), { f with engine := e })
  | (.ok (), e) => (none, { f with engine := e })

/-! ### Reading -/

/-- Copy bytes into a buffer at a position. -/
def blit (buf : List UInt8) (dst : Nat) (bytes : List UInt8) : List UInt8 :=
  buf.take dst ++ bytes ++ buf.drop (dst + bytes.length)

/-- Fill the part of the buffer that a segment is for. -/
def readSeg (f : Files) (offset chunkBase : Nat) (buf : List UInt8) (sg : Seg) :
    Except FileErr (List UInt8) :=
  if sg.id = 0 then .ok buf
  else
    let length := sg.stop - sg.start
    if chunkBase + sg.start < offset ∨ chunkBase + sg.start - offset + length > buf.length then
      .error .outOfRange
    else match f.chunks sg.id with
      | none => .error (.chunkRead sg.id)
      | some data =>
        .ok (blit buf (chunkBase + sg.start - offset) ((data.drop sg.srcOff).take length))

/-- Fill the part of the buffer that the window from `lo` up to `hi` of a chunk is for. -/
def readWindow (f : Files) (ino : Ino) (offset indx chunkBase lo hi : Nat) (buf : List UInt8) :
    Except FileErr (List UInt8) :=
  match f.engine.readSlices ino indx with
  | .error st => .error (.readSlices st)
  | .ok slices => (resolve slices lo hi).foldlM (f.readSeg offset chunkBase) buf

/-- Where a pass of the loop of `Read` from the chunk at `chunkBase` ends. -/
def hiByte (chunkBase stop : Nat) : Nat :=
  if chunkBase + chunkSize > stop then stop else chunkBase + chunkSize

/-- One pass of the loop of `Read`, from the chunk of `cur`. -/
def readChunk (f : Files) (ino : Ino) (offset stop cur : Nat) (buf : List UInt8) :
    Except FileErr (Nat × List UInt8) :=
  let indx := cur / chunkSize % 2 ^ 32
  let chunkBase := indx * chunkSize
  let hiByte := hiByte chunkBase stop
  let lo := (cur - chunkBase) % 2 ^ 32
  let hi := (hiByte - chunkBase) % 2 ^ 32
  (f.readWindow ino offset indx chunkBase lo hi buf).map fun buf => (hiByte, buf)

/-- The loop of `Read`. -/
def readLoop (f : Files) (ino : Ino) (offset stop : Nat) :
    Nat → Nat → List UInt8 → Except FileErr (List UInt8)
  | 0, cur, buf => if cur < stop then .error .outOfFuel else .ok buf
  | fuel + 1, cur, buf =>
    if cur < stop then
      match f.readChunk ino offset stop cur buf with
      | .error err => .error err
      | .ok (cur, buf) => readLoop f ino offset stop fuel cur buf
    else .ok buf

/-- Read up to `len` bytes at a byte offset.  A chunk index that wraps around moves the cursor back,
    by at most `2 ^ 31` chunks before a read of slices fails. -/
def read (f : Files) (ino : Ino) (offset len : Nat) : Except FileErr (List UInt8) :=
  match f.engine.getAttr ino with
  | .error st => .error (.getAttr st)
  | .ok attr =>
    if offset ≥ attr.length ∨ len = 0 then .ok []
    else
      let stop := if offset + len > attr.length then attr.length else offset + len
      f.readLoop ino offset stop (stop - offset + 2 ^ 32) offset
        (List.replicate (stop - offset) 0)

end Files

end MemoryLayer.Fileio
