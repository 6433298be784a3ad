import MemoryLayer.Meta.RenameSerial

namespace MemoryLayer.Meta

open Sql Sql.Tx

/-! # Calls of the metadata engine, one after another

The operations on the namespace and on the data rows as calls, so that a history is a list of
calls and the engine after it is `Runs.run Engine.step`.

- `Call`: the calls with their arguments.
- `Engine.step`: the engine after one call; a call that fails leaves the tables alone.
- `Engine.step_db`: the tables after a call are those of the engine, or of a transaction body
  executed on them.
-/

/-- The calls, with the time each of them sees. -/
inductive Call where
  | create (now : Time) (parent : Ino) (name : String) (mode : Nat) (c : Context)
  | mkdir (now : Time) (parent : Ino) (name : String) (mode : Nat) (c : Context)
  | mknod (now : Time) (parent : Ino) (name : String) (typ : FileType) (mode rdev : Nat)
      (c : Context)
  | symlink (now : Time) (parent : Ino) (name target : String) (c : Context)
  | link (now : Time) (inode newParent : Ino) (newName : String)
  | unlink (now : Time) (parent : Ino) (name : String)
  | rmdir (now : Time) (parent : Ino) (name : String)
  | rename (now : Time) (parentSrc : Ino) (nameSrc : String) (parentDst : Ino) (nameDst : String)
      (flags : UInt32) (reversed : Bool)
  | write (now : Time) (r : SliceRef)
  | setXAttr (inode : Ino) (name : String) (value : List UInt8) (create replace : Bool)

namespace Engine

variable (e : Engine) {α : Type}

/-- The engine after a call. -/
def step : Call → Engine
  | .create now parent name mode c => (e.createFile now parent name mode c).2
  | .mkdir now parent name mode c => (e.mkdir now parent name mode c).2
  | .mknod now parent name typ mode rdev c => (e.mknod now parent name typ mode rdev c).2
  | .symlink now parent name target c => (e.symlink now parent name target c).2
  | .link now inode newParent newName => (e.link now inode newParent newName).2
  | .unlink now parent name => (e.unlink now parent name).2
  | .rmdir now parent name => (e.rmdir now parent name).2
  | .rename now parentSrc nameSrc parentDst nameDst flags reversed =>
    (e.rename now parentSrc nameSrc parentDst nameDst flags reversed).2
  | .write now r => (e.write now r).2
  | .setXAttr inode name value create replace => (e.setXAttr inode name value create replace).2

/-- The tables after a transaction: as before on an error, else what the body left. -/
theorem withTx_db (tx : MetaTx α) :
    (e.withTx tx).2.db = e.db ∨
      ∃ a, tx.exec e.memory e.db = .ok (a, (e.withTx tx).2.db) := by
  rcases withTx_eq e tx with ⟨err, _, h⟩ | ⟨a, db, hx, h⟩
  · exact .inl (by rw [h])
  · exact .inr ⟨a, by rw [h]; exact hx⟩

theorem withTx_db_of_ok {e : Engine} {tx : MetaTx α} {a : α} {db : Db}
    (h : tx.exec e.memory e.db = .ok (a, db)) : (e.withTx tx).2.db = db := by
  unfold withTx
  rw [h]

@[simp] theorem nextInode_db : e.nextInode.2.db = e.db := by
  unfold nextInode
  split <;> rfl

/-- What a creation does to the tables. -/
theorem create_db (now : Time) (parent : Ino) (name : String) (typ : FileType)
    (mode rdev : Nat) (target : String) (op : ChangeOp) (c : Context) :
    (e.create now parent name typ mode rdev target op c).2.db = e.db ∨
      ∃ m a, (createTx now e.nextInode.1 parent name typ mode rdev target op c).exec m e.db
        = .ok (a, (e.create now parent name typ mode rdev target op c).2.db) := by
  have h := withTx_db e.nextInode.2
    (createTx now e.nextInode.1 parent name typ mode rdev target op c)
  rw [nextInode_db] at h
  rcases h with h | ⟨a, h⟩
  · exact .inl h
  · exact .inr ⟨_, a, h⟩

/-- What an unlink does to the tables. -/
theorem unlink_db (now : Time) (parent : Ino) (name : String) :
    (e.unlink now parent name).2.db = e.db ∨
      ∃ s, (unlinkTx now parent name).exec e.memory e.db
        = .ok (s, (e.unlink now parent name).2.db) := by
  have hdb : (e.unlink now parent name).2.db = (e.withTx (unlinkTx now parent name)).2.db := by
    unfold unlink markSustained
    split <;> simp_all
  rw [hdb]
  exact withTx_db e _

/-- What a rename does to the tables: nothing, a move, or an exchange, as the flags say. -/
theorem rename_db (now : Time) (parentSrc : Ino) (nameSrc : String) (parentDst : Ino)
    (nameDst : String) (flags : UInt32) (reversed : Bool) :
    (e.rename now parentSrc nameSrc parentDst nameDst flags reversed).2.db = e.db ∨
      (flags &&& ~~~renameNoReplace = 0 ∧ ∃ i,
        (renameTx now parentSrc nameSrc parentDst nameDst (flags &&& renameNoReplace ≠ 0)
          reversed).exec e.memory e.db
          = .ok (i, (e.rename now parentSrc nameSrc parentDst nameDst flags reversed).2.db)) ∨
      (flags &&& renameExchangeFlag ≠ 0 ∧ ∃ i,
        (renameExchangeTx now parentSrc nameSrc parentDst nameDst reversed).exec e.memory e.db
          = .ok (i, (e.rename now parentSrc nameSrc parentDst nameDst flags reversed).2.db)) := by
  unfold rename
  split
  case isTrue hx =>
    split
    · exact .inl rfl
    · rcases withTx_db e (renameExchangeTx now parentSrc nameSrc parentDst nameDst reversed)
        with h | h
      · exact .inl h
      · exact .inr (.inr ⟨hx, h⟩)
  case isFalse =>
    split
    case isTrue => exact .inl rfl
    case isFalse hx =>
      rcases withTx_db e (renameTx now parentSrc nameSrc parentDst nameDst
        (flags &&& renameNoReplace ≠ 0) reversed) with h | h
      · exact .inl h
      · exact .inr (.inl ⟨not_not.mp hx, h⟩)

/-- A rename without flags is a plain move. -/
theorem rename_zero (now : Time) (parentSrc : Ino) (nameSrc : String)
    (parentDst : Ino) (nameDst : String) (reversed : Bool) :
    e.rename now parentSrc nameSrc parentDst nameDst 0 reversed
      = e.withTx (renameTx now parentSrc nameSrc parentDst nameDst false reversed) := rfl

/-- The only flags of a move that may replace its destination are none. -/
theorem flags_eq_zero {flags : UInt32} (h : flags &&& ~~~renameNoReplace = 0)
    (h' : flags &&& renameNoReplace = 0) : flags = 0 := by
  have hsplit : (flags &&& ~~~renameNoReplace) ||| (flags &&& renameNoReplace) = flags := by
    apply UInt32.eq_of_toBitVec_eq
    ext i hi
    simp only [UInt32.toBitVec_or, UInt32.toBitVec_and, UInt32.toBitVec_not, BitVec.getElem_or,
      BitVec.getElem_and, BitVec.getElem_not]
    cases flags.toBitVec[i] <;> simp
  rw [← hsplit, h, h']
  rfl

end Engine

end MemoryLayer.Meta
