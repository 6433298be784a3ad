import MemoryLayer.Meta.Ops

namespace MemoryLayer.Meta

open Sql Sql.Tx

/-! # Rename

The transaction bodies of `meta/rename.go`: moving an entry, possibly over an existing one, and
swapping two entries.

- `LinkDelta`: the link count changes that a rename collects per parent, a Go map whose iteration
  order is unspecified; `reversed` picks one of the two orders of its at most two keys.
- `replaceTx`: what becomes of an existing destination.
- `moveTx`: the move itself.
- `renameTx`, `renameExchangeTx`: the two bodies; `Engine.rename` dispatches on the flags.
-/

/-- `RENAME_NOREPLACE`: fail when the destination exists. -/
def renameNoReplace : UInt32 := 0x1

/-- `RENAME_EXCHANGE`: swap source and destination. -/
def renameExchangeFlag : UInt32 := 0x2

/-- Link count changes per parent. -/
abbrev LinkDelta := List (Ino × Int)

/-- Add `d` to the change of parent `p`. -/
def LinkDelta.bump (p : Ino) (d : Int) : LinkDelta → LinkDelta
  | [] => [(p, d)]
  | (q, x) :: rest => if q = p then (q, x + d) :: rest else (q, x) :: LinkDelta.bump p d rest

/-- The parents of a rename, each once. -/
def distinctParents (a b : Ino) : List Ino := if a = b then [a] else [a, b]

/-- Write the collected link count changes. -/
def applyDelta (reversed : Bool) (delta : LinkDelta) : MetaTx Unit :=
  each (fun pd => updateNode pd.1 fun a => a.addLinks pd.2)
    (if reversed then delta.reverse else delta)

/-- New times on the parents of a rename. -/
def touchParents (now : Time) (parentSrc parentDst : Ino) : MetaTx Unit :=
  each (fun p => updateNode p (Attr.touch now)) (distinctParents parentSrc parentDst)

/-- Remove an existing destination directory, which has to be empty. -/
def replaceDirTx (dst : Edge) (parentDst : Ino) : MetaTx LinkDelta := do
  requireEmpty dst.inode
  deleteNode dst.inode
  pure (LinkDelta.bump parentDst (-1) [])

/-- Take a link from an existing destination that is not a directory; without links left, its node
    and its symlink target go. -/
def replaceFileTx (now : Time) (dst : Edge) : MetaTx LinkDelta := do
  let nlink ← changeLinks now dst.inode (-1)
  onlyIf (nlink ≤ 0) do
    deleteNode dst.inode
    let _ ← deleteRows Table.symlink fun r => r.inode = dst.inode
  pure []

/-- Remove an existing destination `dst`. -/
def replaceTx (now : Time) (src dst : Edge) (parentDst : Ino) (nameDst : String) :
    MetaTx LinkDelta := do
  require (¬ (dst.type = .directory ∧ src.type ≠ .directory)) .eisdir
  require (¬ (dst.type ≠ .directory ∧ src.type = .directory)) .enotdir
  let delta ← if dst.type = .directory then replaceDirTx dst parentDst else replaceFileTx now dst
  deleteEntry parentDst nameDst
  pure delta

/-- Move the entry `src` to its new parent and name. -/
def moveTx (now : Time) (src : Edge) (parentSrc : Ino) (nameSrc : String) (parentDst : Ino)
    (nameDst : String) (reversed : Bool) (delta : LinkDelta) : MetaTx Ino := do
  deleteEntry parentSrc nameSrc
  insertOrFail Table.edge ⟨parentDst, nameDst, src.inode, src.type⟩ .eio
  updateNode src.inode fun a => { a with parent := parentDst, ctime := now }
  applyDelta reversed
    (if src.type = .directory ∧ parentSrc ≠ parentDst then
      (delta.bump parentSrc (-1)).bump parentDst 1
    else delta)
  touchParents now parentSrc parentDst
  appendChangelog src.inode .rename
  pure src.inode

/-- Move an entry, replacing an existing destination unless `noReplace`. -/
def renameTx (now : Time) (parentSrc : Ino) (nameSrc : String) (parentDst : Ino)
    (nameDst : String) (noReplace reversed : Bool) : MetaTx Ino := do
  let src ← lookupEntry parentSrc nameSrc
  let found ← selectRows Table.edge (isEntry parentDst nameDst)
  match found.head? with
  | none => moveTx now src parentSrc nameSrc parentDst nameDst reversed []
  | some dst => do
    require (noReplace = false) .eexist
    if dst.inode = src.inode then pure src.inode
    else do
      let delta ← replaceTx now src dst parentDst nameDst
      moveTx now src parentSrc nameSrc parentDst nameDst reversed delta

/-- The link count changes when two entries of different parents are swapped. -/
def exchangeDelta (src dst : Edge) (parentSrc parentDst : Ino) : LinkDelta :=
  let delta : LinkDelta := []
  let delta := if src.type = .directory then
      (delta.bump parentSrc (-1)).bump parentDst 1 else delta
  if dst.type = .directory then (delta.bump parentDst (-1)).bump parentSrc 1 else delta

/-- Swap two entries: each name keeps its place and points at the other's inode. -/
def renameExchangeTx (now : Time) (parentSrc : Ino) (nameSrc : String) (parentDst : Ino)
    (nameDst : String) (reversed : Bool) : MetaTx Ino := do
  let src ← lookupEntry parentSrc nameSrc
  let dst ← lookupEntry parentDst nameDst
  if src.inode = dst.inode then pure src.inode
  else do
    let _ ← updateRows Table.edge (isEntry parentSrc nameSrc) fun d =>
      { d with inode := dst.inode, type := dst.type }
    let _ ← updateRows Table.edge (isEntry parentDst nameDst) fun d =>
      { d with inode := src.inode, type := src.type }
    updateNode src.inode fun a => { a with parent := parentDst, ctime := now }
    updateNode dst.inode fun a => { a with parent := parentSrc, ctime := now }
    onlyIf (parentSrc ≠ parentDst) do
      applyDelta reversed ((exchangeDelta src dst parentSrc parentDst).filter fun pd => pd.2 ≠ 0)
    touchParents now parentSrc parentDst
    appendChangelog src.inode .rename
    pure src.inode

namespace Engine

/-- Move or swap entries, by the `RENAME_*` flags. -/
def rename (e : Engine) (now : Time) (parentSrc : Ino) (nameSrc : String) (parentDst : Ino)
    (nameDst : String) (flags : UInt32) (reversed : Bool) : Except Errno Ino × Engine :=
  if flags &&& renameExchangeFlag ≠ 0 then
    if flags &&& ~~~renameExchangeFlag ≠ 0 then (.error .einval, e)
    else e.withTx (renameExchangeTx now parentSrc nameSrc parentDst nameDst reversed)
  else if flags &&& ~~~renameNoReplace ≠ 0 then (.error .enosys, e)
  else e.withTx (renameTx now parentSrc nameSrc parentDst nameDst
    (flags &&& renameNoReplace ≠ 0) reversed)

end Engine

end MemoryLayer.Meta
