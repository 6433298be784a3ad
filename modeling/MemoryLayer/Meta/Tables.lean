import Mathlib.Algebra.Group.Nat.Defs
import MemoryLayer.Sql.Session

namespace MemoryLayer.Meta

/-! # The metadata tables

The rows of the metadata schema (`meta/schema.go`, `meta/types.go`) and the state of one metadata
engine.  Only the columns that some operation reads or writes are kept.

- `Attr`, `Node`, `Edge`, `Symlink`, `SliceRef`, `Flock`, `Plock`, `Xattr`, `Ownership`, `Change`:
  the rows.
- `Table`, `Row`: the tables, as a schema for `Sql.Tx`; `rowKey`: how their rows are locked.
- `Engine`: the tables together with the engine's memory: id allocation, open handles and the
  inodes kept alive by them.
- `withTx`: a transaction executed alone.
-/

/-- Inode numbers. -/
abbrev Ino := Nat

/-- The root directory's inode. -/
def rootInode : Ino := 1

/-- A file's bytes are cut into chunks of this size (64 MiB). -/
def chunkSize : Nat := 2 ^ 26

/-- The kinds of node. -/
inductive FileType where
  | file | directory | symlink | fifo | blockDev | charDev | socket
  deriving DecidableEq, Repr

/-- The error numbers the engine answers with. -/
inductive Errno where
  | enoent | eexist | enotdir | eisdir | enotempty | einval | eperm | enodata | enosys | estale
  | eagain | eio
  deriving DecidableEq, Repr

/-- The operation codes of the change log. -/
inductive ChangeOp where
  | mknod | mkdir | unlink | rmdir | rename | setattr | write | symlink | link
  deriving DecidableEq, Repr

/-- A point in time: seconds and nanoseconds. -/
structure Time where
  sec : Int
  nsec : Nat
  deriving DecidableEq, Repr

/-- The calling user. -/
structure Context where
  uid : Nat
  gid : Nat
  deriving DecidableEq, Repr

/-- The attributes of an inode. -/
structure Attr where
  type : FileType
  mode : Nat
  uid : Nat
  gid : Nat
  atime : Time
  mtime : Time
  ctime : Time
  nlink : Int
  length : Nat
  rdev : Nat
  parent : Ino
  deriving DecidableEq, Repr

/-- A row of `node`. -/
structure Node where
  inode : Ino
  attr : Attr
  deriving DecidableEq, Repr

/-- A row of `edge`: a directory entry. -/
structure Edge where
  parent : Ino
  name : String
  inode : Ino
  type : FileType
  deriving DecidableEq, Repr

/-- The primary key of an entry. -/
def Edge.key (d : Edge) : Ino × String := (d.parent, d.name)

/-- A row of `symlink`: the target of a symbolic link. -/
structure Symlink where
  inode : Ino
  target : String
  deriving DecidableEq, Repr

/-- A row of `slice_ref`: `slen` bytes of chunk `indx` from position `pos` on come from the slice
    `sliceId`, read from its offset `soff` on. -/
structure SliceRef where
  inode : Ino
  indx : Nat
  pos : Nat
  sliceId : Nat
  size : Nat
  soff : Nat
  slen : Nat
  deriving DecidableEq, Repr

/-- The file offset of a slice row's first byte. -/
def SliceRef.start (r : SliceRef) : Nat := r.indx * chunkSize + r.pos

/-- The file offset after a slice row's last byte. -/
def SliceRef.stop (r : SliceRef) : Nat := r.start + r.slen

/-- The types of a whole-file lock. -/
inductive FlockType where
  | shared | exclusive | unlock
  deriving DecidableEq, Repr

/-- A row of `flock`: the whole-file lock of an owner, which is a session and the owner's number in
    it. -/
structure Flock where
  inode : Ino
  sid : Nat
  owner : Nat
  ltype : FlockType
  deriving DecidableEq, Repr

/-- The types of a byte-range lock (`F_RDLCK`, `F_WRLCK`, `F_UNLCK`). -/
inductive PlockType where
  | rdlck | wrlck | unlck
  deriving DecidableEq, Repr

/-- One locked byte range, its last byte included. -/
structure PlockRec where
  typ : PlockType
  start : Nat
  last : Nat
  pid : Nat
  deriving DecidableEq, Repr

/-- A row of `plock`: the byte ranges of an owner. -/
structure Plock where
  inode : Ino
  sid : Nat
  owner : Nat
  records : List PlockRec
  deriving DecidableEq, Repr

/-- A row of `xattr`: an extended attribute. -/
structure Xattr where
  inode : Ino
  name : String
  value : List UInt8
  deriving DecidableEq, Repr

/-- A row of `ownership`: which node writes in a scope, until when, and the fencing token. -/
structure Ownership where
  scopeKey : String
  ownerNode : String
  expiresUnixMs : Int
  generation : Int
  deriving DecidableEq, Repr

/-- A row of `fs_changelog`. -/
structure Change where
  ino : Ino
  op : ChangeOp
  deriving DecidableEq, Repr

/-- The tables. -/
inductive Table where
  | node | edge | symlink | sliceRef | flock | plock | xattr | ownership | changelog
  deriving DecidableEq, Repr

/-- The row type of each table. -/
abbrev Row : Table → Type
  | .node => Node
  | .edge => Edge
  | .symlink => Symlink
  | .sliceRef => SliceRef
  | .flock => Flock
  | .plock => Plock
  | .xattr => Xattr
  | .ownership => Ownership
  | .changelog => Change

instance : ∀ t, DecidableEq (Row t)
  | .node => inferInstanceAs (DecidableEq Node)
  | .edge => inferInstanceAs (DecidableEq Edge)
  | .symlink => inferInstanceAs (DecidableEq Symlink)
  | .sliceRef => inferInstanceAs (DecidableEq SliceRef)
  | .flock => inferInstanceAs (DecidableEq Flock)
  | .plock => inferInstanceAs (DecidableEq Plock)
  | .xattr => inferInstanceAs (DecidableEq Xattr)
  | .ownership => inferInstanceAs (DecidableEq Ownership)
  | .changelog => inferInstanceAs (DecidableEq Change)

/-- The primary keys, `UNIQUE (inode, slice_id)` on `slice_ref` and `UNIQUE (inode, sid, owner)` on
    the lock tables. -/
def rowClash : (t : Table) → Row t → Row t → Bool
  | .node => fun r s => s.inode == r.inode
  | .edge => fun r s => s.parent == r.parent && s.name == r.name
  | .symlink => fun r s => s.inode == r.inode
  | .sliceRef => fun r s => s.inode == r.inode && s.sliceId == r.sliceId
  | .flock => fun r s => s.inode == r.inode && s.sid == r.sid && s.owner == r.owner
  | .plock => fun r s => s.inode == r.inode && s.sid == r.sid && s.owner == r.owner
  | .xattr => fun r s => s.inode == r.inode && s.name == r.name
  | .ownership => fun r s => s.scopeKey == r.scopeKey
  | .changelog => fun _ _ => false

instance : Sql.Constraints Row := ⟨rowClash⟩

theorem clash_eq (t : Table) : Sql.clash (ρ := Row) t = rowClash t := rfl

/-- The keys of rows, by table. -/
inductive RowKey where
  | node (inode : Ino)
  | edge (parent : Ino) (name : String)
  | symlink (inode : Ino)
  | sliceRef (inode : Ino) (sliceId : Nat)
  | flock (inode : Ino) (sid owner : Nat)
  | plock (inode : Ino) (sid owner : Nat)
  | xattr (inode : Ino) (name : String)
  | ownership (scopeKey : String)
  deriving DecidableEq, Repr

/-- The key under which a row is locked.  Rows of the change log are only ever added. -/
def rowKey : (t : Table) → Row t → Option RowKey
  | .node => fun r => some (.node r.inode)
  | .edge => fun r => some (.edge r.parent r.name)
  | .symlink => fun r => some (.symlink r.inode)
  | .sliceRef => fun r => some (.sliceRef r.inode r.sliceId)
  | .flock => fun r => some (.flock r.inode r.sid r.owner)
  | .plock => fun r => some (.plock r.inode r.sid r.owner)
  | .xattr => fun r => some (.xattr r.inode r.name)
  | .ownership => fun r => some (.ownership r.scopeKey)
  | .changelog => fun _ => none

instance : Sql.Keys Row RowKey := ⟨rowKey⟩

/-- The committed tables. -/
abbrev Db := Sql.Db Row

/-- What a transaction reads of the engine's memory: which inodes have open handles. -/
structure Memory where
  openRefs : Ino → Nat

/-- The memory of an engine without open handles. -/
def Memory.idle : Memory := ⟨fun _ => 0⟩

/-- Transactions of the metadata engine. -/
abbrev MetaTx := Sql.Tx Row Errno Memory

/-- One metadata engine: the shared tables and counters, and its own memory. -/
structure Engine where
  db : Db
  nextinode : Nat
  nextslice : Nat
  inodePrefix : Nat
  inoNext : Nat
  inoEnd : Nat
  sliceNext : Nat
  sliceEnd : Nat
  openRefs : Ino → Nat
  sustained : Ino → Bool

namespace Engine

/-- How many ids are taken from a counter at once. -/
def inodeBatch : Nat := 1024

/-- The part of an inode number that the counter fills. -/
def inoLowMask : Nat := 2 ^ 48

/-- The root directory as `bootstrap` seeds it. -/
def rootNode (now : Time) : Node :=
  let now := { now with nsec := 0 }
  { inode := rootInode
    attr := { type := .directory, mode := 0o777, uid := 0, gid := 0, atime := now, mtime := now,
              ctime := now, nlink := 2, length := 0, rdev := 0, parent := rootInode } }

/-- The tables as `bootstrap` seeds them. -/
def bootstrapDb (now : Time) : Db
  | .node => [rootNode now]
  | .edge => []
  | .symlink => []
  | .sliceRef => []
  | .flock => []
  | .plock => []
  | .xattr => []
  | .ownership => []
  | .changelog => []

/-- A new engine on freshly bootstrapped tables. -/
def bootstrap (now : Time) (inodePrefix : Nat) : Engine where
  db := bootstrapDb now
  nextinode := rootInode + 1
  nextslice := 1
  inodePrefix := inodePrefix
  inoNext := 0
  inoEnd := 0
  sliceNext := 0
  sliceEnd := 0
  openRefs := fun _ => 0
  sustained := fun _ => false

/-- Allocate an inode number, from the engine's batch or a new one. -/
def nextInode (e : Engine) : Ino × Engine :=
  let e := if e.inoNext ≥ e.inoEnd then
      let last := e.nextinode + inodeBatch
      { e with nextinode := last, inoEnd := last, inoNext := last - inodeBatch }
    else e
  let c := e.inoNext
  (e.inodePrefix * 2 ^ 48 + c % inoLowMask, { e with inoNext := e.inoNext + 1 })

/-- Allocate a slice id, from the engine's batch or a new one. -/
def newSlice (e : Engine) : Nat × Engine :=
  let e := if e.sliceNext ≥ e.sliceEnd then
      let last := e.nextslice + inodeBatch
      { e with nextslice := last, sliceEnd := last, sliceNext := last - inodeBatch }
    else e
  (e.sliceNext, { e with sliceNext := e.sliceNext + 1 })

/-- What transactions see of the engine's memory. -/
def memory (e : Engine) : Memory := ⟨e.openRefs⟩

/-- Run a transaction alone: commit its changes, or roll them all back on an error. -/
def withTx {α : Type} (e : Engine) (tx : MetaTx α) : Except Errno α × Engine :=
  match tx.exec e.memory e.db with
  | .ok (a, db) => (.ok a, { e with db := db })
  | .error err => (.error err, e)

/-- A failed transaction leaves the engine as it was; a successful one changes its tables only. -/
theorem withTx_eq {α : Type} (e : Engine) (tx : MetaTx α) :
    (∃ err, tx.exec e.memory e.db = .error err ∧ e.withTx tx = (.error err, e)) ∨
      ∃ a db, tx.exec e.memory e.db = .ok (a, db) ∧ e.withTx tx = (.ok a, { e with db := db }) := by
  unfold withTx
  cases h : tx.exec e.memory e.db with
  | error err => exact .inl ⟨err, rfl, rfl⟩
  | ok r => exact .inr ⟨r.1, r.2, rfl, rfl⟩

end Engine

/-! ### A small file system -/

/-- An empty file. -/
def emptyFile (inode : Ino) : Node where
  inode := inode
  attr := { type := .file, mode := 0o644, uid := 0, gid := 0, atime := ⟨0, 0⟩, mtime := ⟨0, 0⟩,
            ctime := ⟨0, 0⟩, nlink := 1, length := 0, rdev := 0, parent := rootInode }

/-- Bootstrapped tables with one empty file. -/
def oneFileDb : Db := Sql.Tx.edit .node (Sql.Tx.inserted (emptyFile 2)) (Engine.bootstrapDb ⟨0, 0⟩)

end MemoryLayer.Meta
