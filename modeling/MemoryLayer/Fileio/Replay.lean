import MemoryLayer.Fileio.Ops

namespace MemoryLayer.Fileio

open Meta Sql Sql.Tx

/-! # The records of a file

`ReplayWAL` applies the retained records of all files in order.  A slice that the file has is passed over.

- `Entry`, `FileRows.apply`: what one record does to a file.
- `fileAt`: the type, rows and length of a file.
- `entriesOf`: the retained records of one file.
- `fileAt_written`, `fileAt_truncated`: the transactions do what the record says.
-/

/-- What a retained record says about its file. -/
inductive Entry where
  | write (r : SliceRef)
  | truncate (size : Nat)
  deriving DecidableEq, Repr

/-- The rows and the length of a file. -/
structure FileRows where
  rows : List SliceRef
  length : Nat
  deriving DecidableEq, Repr

/-- What replaying an entry does to its file. -/
def FileRows.apply (s : FileRows) : Entry → FileRows
  | .write r =>
    if ∃ t ∈ s.rows, t.sliceId = r.sliceId then s else ⟨s.rows ++ [r], max s.length r.stop⟩
  | .truncate n => ⟨if n < s.length then trimRows n s.rows else s.rows, n⟩

/-! ### Files and their records -/

/-- The type, rows and length of a file. -/
def fileAt (db : Db) (i : Ino) : Option (FileType × FileRows) :=
  (nodeAt db i).map fun a => (a.type, ⟨rowsOf db i, a.length⟩)

theorem fileAt_of_node {db : Db} {i : Ino} {a : Attr} (h : nodeAt db i = some a) :
    fileAt db i = some (a.type, ⟨rowsOf db i, a.length⟩) := by
  rw [fileAt, h]
  rfl

theorem exists_node_of_fileAt {db : Db} {i : Ino} {p : FileType × FileRows}
    (h : fileAt db i = some p) :
    ∃ a, nodeAt db i = some a ∧ p = (a.type, ⟨rowsOf db i, a.length⟩) := by
  obtain ⟨a, ha, rfl⟩ := Option.map_eq_some_iff.mp h
  exact ⟨a, ha, rfl⟩

/-- The row that a record of a write is about. -/
def Record.row (rec : Record) : SliceRef :=
  ⟨rec.ino, rec.indx, rec.off, rec.sliceId, rec.size, rec.sliceOff, rec.sliceLen⟩

/-- What a record says about its file. -/
def Record.entry (rec : Record) : Entry :=
  match rec.op with
  | .write => .write rec.row
  | .truncate => .truncate (rec.indx * 2 ^ 32 + rec.off)

/-- The retained entries of a file. -/
def entriesOf (recs : List Record) (i : Ino) : List Entry :=
  (recs.filter fun rec => rec.ino = i).map Record.entry

/-! ### Replaying -/

section Replay

variable {now : Time} {db : Db} {e : Engine} {rec : Record} {a : Attr}

theorem fileAt_written {r : SliceRef} (ha : nodeAt db r.inode = some a) (i : Ino) :
    fileAt (if HasSlice db r.inode r.sliceId then db
        else written now r (max a.length r.stop) db) i
      = (fileAt db i).map fun p => (p.1, if i = r.inode then p.2.apply (.write r) else p.2) := by
  by_cases hi : i = r.inode
  · subst hi
    rw [fileAt_of_node ha]
    simp only [Option.map_some, if_true, FileRows.apply]
    by_cases hhas : HasSlice db r.inode r.sliceId
    · have hthere : ∃ t ∈ rowsOf db r.inode, t.sliceId = r.sliceId := hhas
      rw [if_pos hhas, if_pos hthere, fileAt_of_node ha]
    · have hnode : nodeAt (written now r (max a.length r.stop) db) r.inode
          = some (Attr.touch now { a with length := max a.length r.stop }) := by
        rw [nodeAt_written, if_pos rfl, ha]
        rfl
      have hgone : ¬ ∃ t ∈ rowsOf db r.inode, t.sliceId = r.sliceId := hhas
      rw [if_neg hhas, if_neg hgone, fileAt_of_node hnode, rowsOf_written _ _ hhas, if_pos rfl]
      rfl
  · simp only [if_neg hi]
    by_cases hhas : HasSlice db r.inode r.sliceId
    · rw [if_pos hhas]
      simp
    · have hsame : fileAt (written now r (max a.length r.stop) db) i = fileAt db i := by
        rw [fileAt, nodeAt_written, rowsOf_written _ _ hhas, if_neg hi, if_neg hi, fileAt]
      rw [if_neg hhas, hsame]
      simp

theorem fileAt_truncated {inode : Ino} {size : Nat} (ha : nodeAt db inode = some a)
    (i : Ino) :
    fileAt (truncated now inode size (size < a.length) db) i
      = (fileAt db i).map fun p => (p.1, if i = inode then p.2.apply (.truncate size) else p.2) := by
  by_cases hi : i = inode
  · subst hi
    have hnode : nodeAt (truncated now i size (size < a.length) db) i
        = some (Attr.touch now { a with length := size }) := by
      rw [nodeAt_truncated, if_pos rfl, ha]
      rfl
    rw [fileAt_of_node hnode, fileAt_of_node ha, rowsOf_truncated]
    simp only [Option.map_some, if_true, FileRows.apply, true_and]
    rfl
  · simp only [if_neg hi]
    have hsame : fileAt (truncated now inode size (size < a.length) db) i = fileAt db i := by
      rw [fileAt, nodeAt_truncated, rowsOf_truncated, if_neg hi, if_neg fun h => hi h.1, fileAt]
    rw [hsame]
    simp

theorem entry_write (h : rec.op = .write) : rec.entry = .write rec.row := by
  rw [Record.entry, h]

theorem entry_truncate (h : rec.op = .truncate) :
    rec.entry = .truncate (rec.indx * 2 ^ 32 + rec.off) := by
  rw [Record.entry, h]

end Replay

theorem Wal.replay_reopen (w : Wal) : w.reopen.replay = w.replay := by
  simp [Wal.replay, Wal.reopen, Wal.scan, List.flatMap_map]

end MemoryLayer.Fileio
