import MemoryLayer.Meta.Tables

namespace MemoryLayer.Meta

open Sql Sql.Tx

/-! # The namespace operations

The transaction bodies of `meta/ops.go`, `meta/open.go` and `meta/xattr.go`, statement by
statement, and the engine operations that run them.  A single node owns every scope, so the
ownership checks in front of each body have nothing to refuse and are left out.

- `createTx`, `unlinkTx`, `rmdirTx`, `linkTx`, `writeTx`, `setXAttrTx`: the bodies.
- `deleteInodeRows`: the rows that go with a node.
- `Engine.create`, `Engine.unlink`, ...: the operations, executed one at a time.
-/

/-! ### Statements shared by several operations -/

/-- A new `mtime` and `ctime`. -/
def Attr.touch (now : Time) (a : Attr) : Attr := { a with mtime := now, ctime := now }

/-- A new `ctime`. -/
def Attr.touchCtime (now : Time) (a : Attr) : Attr := { a with ctime := now }

/-- `nlink` changed by `d`. -/
def Attr.addLinks (d : Int) (a : Attr) : Attr := { a with nlink := a.nlink + d }

/-- New attributes in a row of `node`. -/
def Node.mapAttr (f : Attr → Attr) (n : Node) : Node := { n with attr := f n.attr }

/-- The row of `node` with this inode. -/
def isNode (inode : Ino) (n : Node) : Bool := n.inode = inode

/-- The row of `edge` with this parent and name. -/
def isEntry (parent : Ino) (name : String) (d : Edge) : Bool := d.key = (parent, name)

theorem isNode_eq (inode : Ino) : isNode inode = fun n => decide (n.inode = inode) := rfl

theorem isEntry_eq (parent : Ino) (name : String) :
    isEntry parent name = fun d => decide (d.key = (parent, name)) := rfl

/-- The attributes of an inode. -/
def getAttr (inode : Ino) : MetaTx Attr := do
  let n ← rowOrFail Table.node (isNode inode) .enoent
  pure n.attr

/-- The directory entry of a name. -/
def lookupEntry (parent : Ino) (name : String) : MetaTx Edge :=
  rowOrFail Table.edge (isEntry parent name) .enoent

/-- `UPDATE node SET ... WHERE inode = inode`, whether or not there is such a row. -/
def updateNode (inode : Ino) (f : Attr → Attr) : MetaTx Unit := do
  let _ ← updateRows Table.node (isNode inode) (Node.mapAttr f)

/-- `UPDATE node SET nlink = nlink + d, ctime = now WHERE inode = inode RETURNING nlink`, which
    needs the row. -/
def changeLinks (now : Time) (inode : Ino) (d : Int) : MetaTx Int := do
  let n ← setOrFail Table.node (isNode inode)
    (Node.mapAttr fun a => (a.addLinks d).touchCtime now) .eio
  pure n.attr.nlink

/-- `DELETE FROM node WHERE inode = inode`. -/
def deleteNode (inode : Ino) : MetaTx Unit := do
  let _ ← deleteRows Table.node (isNode inode)

/-- `DELETE FROM edge WHERE parent = parent AND name = name`. -/
def deleteEntry (parent : Ino) (name : String) : MetaTx Unit := do
  let _ ← deleteRows Table.edge (isEntry parent name)

/-- `SELECT count(*) FROM edge WHERE parent = inode`, which has to be zero. -/
def requireEmpty (inode : Ino) : MetaTx Unit := do
  let entries ← selectRows Table.edge fun d => d.parent = inode
  require (¬ entries.length > 0) .enotempty

/-- Append a row to the change log. -/
def appendChangelog (ino : Ino) (op : ChangeOp) : MetaTx Unit :=
  insertOrFail Table.changelog ⟨ino, op⟩ .eio

/-- Delete a node and all of its data rows. -/
def deleteInodeRows (inode : Ino) : MetaTx Unit := do
  deleteNode inode
  let _ ← deleteRows Table.symlink fun r => r.inode = inode
  let _ ← deleteRows Table.sliceRef fun r => r.inode = inode
  let _ ← deleteRows Table.xattr fun r => r.inode = inode

/-! ### Transaction bodies -/

/-- The attributes of the node that `create` inserts. -/
def newAttr (now : Time) (parent : Ino) (typ : FileType) (mode rdev : Nat) (target : String)
    (c : Context) : Attr where
  type := typ
  mode := mode
  uid := c.uid
  gid := c.gid
  atime := now
  mtime := now
  ctime := now
  nlink := if typ = .directory then 2 else 1
  length := if typ = .symlink then target.utf8ByteSize else 0
  rdev := rdev
  parent := parent

/-- The shared creation path of `Mknod`, `Mkdir`, `Create` and `Symlink`. -/
def createTx (now : Time) (inode parent : Ino) (name : String) (typ : FileType) (mode rdev : Nat)
    (target : String) (op : ChangeOp) (c : Context) : MetaTx Attr := do
  let pa ← getAttr parent
  require (pa.type = .directory) .enotdir
  let ok ← insertRow Table.edge ⟨parent, name, inode, typ⟩
  require (ok = true) .eexist
  let attr := newAttr now parent typ mode rdev target c
  insertOrFail Table.node ⟨inode, attr⟩ .eio
  onlyIf (typ = .symlink) (insertOrFail Table.symlink ⟨inode, target⟩ .eio)
  -- a new subdirectory's ".." entry is a link to its parent
  updateNode parent fun a => Attr.touch now (if typ = .directory then a.addLinks 1 else a)
  appendChangelog inode op
  pure attr

/-- What `Unlink` does with an inode that lost a link and now has `nlink` left: an inode without
    links goes with its rows, unless it is open. -/
def releaseInode (inode : Ino) (nlink : Int) : MetaTx (Option Ino) := do
  let m ← memory
  if nlink ≤ 0 then
    if m.openRefs inode > 0 then pure (some inode)
    else do
      deleteInodeRows inode
      pure none
  else pure none

/-- Remove a directory entry that is not a directory.  Answers with the inode when its last link
    is gone while it is open, so that it has to be kept until the last close. -/
def unlinkTx (now : Time) (parent : Ino) (name : String) : MetaTx (Option Ino) := do
  let d ← lookupEntry parent name
  require (d.type ≠ .directory) .eisdir
  deleteEntry parent name
  let nlink ← changeLinks now d.inode (-1)
  let sustain ← releaseInode d.inode nlink
  updateNode parent (Attr.touch now)
  appendChangelog d.inode .unlink
  pure sustain

/-- Remove an empty subdirectory. -/
def rmdirTx (now : Time) (parent : Ino) (name : String) : MetaTx Unit := do
  let d ← lookupEntry parent name
  require (d.type = .directory) .enotdir
  requireEmpty d.inode
  deleteEntry parent name
  deleteNode d.inode
  let _ ← deleteRows Table.xattr fun r => r.inode = d.inode
  updateNode parent fun a => (a.addLinks (-1)).touch now
  appendChangelog d.inode .rmdir

/-- A hard link to an existing inode that is not a directory. -/
def linkTx (now : Time) (inode newParent : Ino) (newName : String) : MetaTx Attr := do
  let cur ← getAttr inode
  require (cur.type ≠ .directory) .eperm
  let pa ← getAttr newParent
  require (pa.type = .directory) .enotdir
  let ok ← insertRow Table.edge ⟨newParent, newName, inode, cur.type⟩
  require (ok = true) .eexist
  let nlink ← changeLinks now inode 1
  updateNode newParent (Attr.touch now)
  appendChangelog inode .link
  pure { cur with nlink := nlink, ctime := now }

/-- Create or replace an extended attribute. -/
def setXAttrTx (inode : Ino) (name : String) (value : List UInt8) (create replace : Bool) :
    MetaTx Unit := do
  let _ ← getAttr inode
  let found ← selectRows Table.xattr fun r => r.inode = inode ∧ r.name = name
  let isThere := found.length > 0
  require (¬ (create = true ∧ isThere)) .eexist
  require (¬ (replace = true ∧ ¬ isThere)) .enodata
  -- ON CONFLICT (inode, name) DO UPDATE SET value
  let ok ← insertRow Table.xattr ⟨inode, name, value⟩
  onlyIf (ok = false) do
    let _ ← updateRows Table.xattr (fun r => r.inode = inode ∧ r.name = name) fun r =>
      { r with value := value }

/-- The values that fit the `INTEGER` columns of `slice_ref`. -/
def int4Max : Nat := 2 ^ 31

/-- Record the slice `r` over its chunk, and extend the file if needed.  A slice that is already
    recorded for the file is left as it is. -/
def writeTx (now : Time) (r : SliceRef) : MetaTx Unit := do
  let cur ← getAttr r.inode
  require (cur.type = .file) .einval
  require (r.indx < int4Max ∧ r.pos < int4Max ∧ r.size < int4Max ∧ r.soff < int4Max
    ∧ r.slen < int4Max) .eio
  let ok ← insertRow Table.sliceRef r
  onlyIf (ok = true) do
    let newLen := r.indx * chunkSize + r.pos + r.slen
    let length := if newLen > cur.length then newLen else cur.length
    updateNode r.inode fun a => Attr.touch now { a with length := length }
    appendChangelog r.inode .write

/-! ### Operations -/

namespace Engine

/-- Allocate an inode and create a node of any type. -/
def create (e : Engine) (now : Time) (parent : Ino) (name : String) (typ : FileType)
    (mode rdev : Nat) (target : String) (op : ChangeOp) (c : Context) :
    Except Errno (Ino × Attr) × Engine :=
  let (inode, e) := e.nextInode
  let (r, e) := e.withTx (createTx now inode parent name typ mode rdev target op c)
  (r.map fun attr => (inode, attr), e)

/-- Create a subdirectory. -/
def mkdir (e : Engine) (now : Time) (parent : Ino) (name : String) (mode : Nat) (c : Context) :
    Except Errno (Ino × Attr) × Engine :=
  e.create now parent name .directory mode 0 "" .mkdir c

/-- Create a node of a given type. -/
def mknod (e : Engine) (now : Time) (parent : Ino) (name : String) (typ : FileType)
    (mode rdev : Nat) (c : Context) : Except Errno (Ino × Attr) × Engine :=
  e.create now parent name typ mode rdev "" .mknod c

/-- Create a regular file. -/
def createFile (e : Engine) (now : Time) (parent : Ino) (name : String) (mode : Nat)
    (c : Context) : Except Errno (Ino × Attr) × Engine :=
  e.create now parent name .file mode 0 "" .mknod c

/-- Create a symbolic link. -/
def symlink (e : Engine) (now : Time) (parent : Ino) (name target : String) (c : Context) :
    Except Errno (Ino × Attr) × Engine :=
  e.create now parent name .symlink 0o777 0 target .symlink c

/-- Keep the rows of an unlinked inode until its last close. -/
def markSustained (e : Engine) (inode : Ino) : Engine :=
  { e with sustained := Function.update e.sustained inode true }

/-- Remove a directory entry that is not a directory. -/
def unlink (e : Engine) (now : Time) (parent : Ino) (name : String) : Except Errno Unit × Engine :=
  match e.withTx (unlinkTx now parent name) with
  | (.ok (some inode), e) => (.ok (), e.markSustained inode)
  | (.ok none, e) => (.ok (), e)
  | (.error err, e) => (.error err, e)

/-- Remove an empty subdirectory. -/
def rmdir (e : Engine) (now : Time) (parent : Ino) (name : String) : Except Errno Unit × Engine :=
  e.withTx (rmdirTx now parent name)

/-- A hard link. -/
def link (e : Engine) (now : Time) (inode newParent : Ino) (newName : String) :
    Except Errno Attr × Engine :=
  e.withTx (linkTx now inode newParent newName)

/-- Create or replace an extended attribute. -/
def setXAttr (e : Engine) (inode : Ino) (name : String) (value : List UInt8)
    (create replace : Bool) : Except Errno Unit × Engine :=
  e.withTx (setXAttrTx inode name value create replace)

/-- Record a slice of a file. -/
def write (e : Engine) (now : Time) (r : SliceRef) : Except Errno Unit × Engine :=
  e.withTx (writeTx now r)

end Engine

end MemoryLayer.Meta
