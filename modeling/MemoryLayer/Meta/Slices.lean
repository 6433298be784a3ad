import MemoryLayer.Meta.Ops

namespace MemoryLayer.Meta

open Sql Sql.Tx

/-! # Slices of a file

The transaction bodies of `meta/slices.go`: truncation, and the two forms of copy-on-write.

- `truncateTx`: a shrink deletes the rows past the new size and trims the row across it.
- `cloneRangeTx`, `cloneTx`: `INSERT ... SELECT`; without `ORDER BY` the database may yield the
  selected rows in any order, which the parameter `order` stands for.
- `readSlices`: the rows of one chunk, in the order of their ids.
-/

/-- Set a file's length; a shrink destroys the data beyond it. -/
def truncateTx (now : Time) (inode : Ino) (size : Nat) : MetaTx Unit := do
  let cur ← getAttr inode
  require (cur.type ≠ .directory) .eisdir
  onlyIf (size < cur.length) do
    let _ ← deleteRows Table.sliceRef fun r => r.inode = inode ∧ r.start ≥ size
    let _ ← updateRows Table.sliceRef
      (fun r => r.inode = inode ∧ r.start < size ∧ r.stop > size)
      fun r => { r with slen := size - r.start }
  updateNode inode fun a => Attr.touch now { a with length := size }
  appendChangelog inode .setattr

/-- Replace the rows of `dst`'s chunks `[dstIdx, dstIdx + nChunks)` by copies of the rows of
    `src`'s chunks `[srcIdx, srcIdx + nChunks)`, on the same slices. -/
def cloneRangeTx (order : List SliceRef → List SliceRef) (srcIno dstIno : Ino)
    (srcIdx dstIdx nChunks : Nat) : MetaTx Unit := do
  let _ ← getAttr srcIno
  let dst ← getAttr dstIno
  require (dst.type = .file) .einval
  -- the bounds are computed in uint32 and passed as INTEGER
  let dstEnd := (dstIdx + nChunks) % 2 ^ 32
  let srcEnd := (srcIdx + nChunks) % 2 ^ 32
  require (dstIdx < int4Max ∧ dstEnd < int4Max) .eio
  let _ ← deleteRows Table.sliceRef fun r => r.inode = dstIno ∧ r.indx ≥ dstIdx ∧ r.indx < dstEnd
  require (srcIdx < int4Max ∧ srcEnd < int4Max) .eio
  let found ← selectRows Table.sliceRef fun r =>
    r.inode = srcIno ∧ r.indx ≥ srcIdx ∧ r.indx < srcEnd
  require (∀ r ∈ found, r.indx + dstIdx < srcIdx + int4Max) .eio
  insertRows Table.sliceRef
    ((order found).map fun r => { r with inode := dstIno, indx := r.indx + dstIdx - srcIdx })
  appendChangelog dstIno .write

/-- Copy every slice row of `src` onto `dst`, and its length. -/
def cloneTx (order : List SliceRef → List SliceRef) (now : Time) (srcIno dstIno : Ino) :
    MetaTx Unit := do
  let src ← getAttr srcIno
  let _ ← getAttr dstIno
  require (src.type = .file) .einval
  let found ← selectRows Table.sliceRef fun r => r.inode = srcIno
  insertRows Table.sliceRef ((order found).map fun r => { r with inode := dstIno })
  updateNode dstIno fun a => Attr.touch now { a with length := src.length }
  appendChangelog dstIno .write

namespace Engine

/-- The attributes of an inode. -/
def getAttr (e : Engine) (inode : Ino) : Except Errno Attr :=
  match (e.db .node).find? (isNode inode) with
  | some n => .ok n.attr
  | none => .error .enoent

/-- The slice rows of a chunk in write order. -/
def readSlices (e : Engine) (inode : Ino) (indx : Nat) : Except Errno (List SliceRef) :=
  if indx < int4Max then
    .ok ((e.db .sliceRef).filter fun r => r.inode = inode ∧ r.indx = indx)
  else .error .eio

/-- Set a file's length. -/
def truncate (e : Engine) (now : Time) (inode : Ino) (size : Nat) : Except Errno Unit × Engine :=
  e.withTx (truncateTx now inode size)

end Engine

end MemoryLayer.Meta
