import MemoryLayer.Meta.Reach
import MemoryLayer.Sql.Outline

namespace MemoryLayer.Meta

open Sql Sql.Tx Server Runs Namespace

/-! # Directory entries under concurrency

Creations, links, renames and removals of directories whose statements interleave.  They check with
plain reads that a parent exists or that a directory is empty, and change rows that depend on it
later; nothing keeps the rows that were read as they were.

- `EntryCall`: the calls.
- `entryTables`: what the namespace of the tables depends on.
- `parentAtCommit`: a rename, which does not look at its new parent, has an existing one.
- `entries_owned`: when every commit is as if its transaction had run alone at that moment, every
  entry leads from an existing directory to an existing inode.
- `entry_without_parent`: a file that is created while its parent is removed.
-/

/-! ### Calls -/

/-- The calls, with the inode number that was allocated for a creation. -/
inductive EntryCall where
  | create (now : Time) (inode parent : Ino) (name : String) (typ : FileType) (mode rdev : Nat)
      (target : String) (op : ChangeOp) (c : Context)
  | link (now : Time) (inode newParent : Ino) (newName : String)
  | rename (now : Time) (parentSrc : Ino) (nameSrc : String) (parentDst : Ino) (nameDst : String)
      (noReplace reversed : Bool)
  | exchange (now : Time) (parentSrc : Ino) (nameSrc : String) (parentDst : Ino) (nameDst : String)
      (reversed : Bool)
  | rmdir (now : Time) (parent : Ino) (name : String)

/-- The transaction of a call. -/
def EntryCall.body : EntryCall → MetaTx Unit
  | .create now inode parent name typ mode rdev target op c => do
    let _ ← createTx now inode parent name typ mode rdev target op c
  | .link now inode newParent newName => do
    let _ ← linkTx now inode newParent newName
  | .rename now parentSrc nameSrc parentDst nameDst noReplace reversed => do
    let _ ← renameTx now parentSrc nameSrc parentDst nameDst noReplace reversed
  | .exchange now parentSrc nameSrc parentDst nameDst reversed => do
    let _ ← renameExchangeTx now parentSrc nameSrc parentDst nameDst reversed
  | .rmdir now parent name => rmdirTx now parent name

/-- The database with any number of sessions. -/
abbrev EntryServer := Server Row Errno Memory Unit Nat EntryCall RowKey

/-- One step of a session on the database. -/
abbrev EntryServer.step (σ : EntryServer) (ev : Nat × SessionEvent Memory EntryCall) : EntryServer :=
  Server.step EntryCall.body σ ev

/-! ### What the namespace depends on -/

/-- The inodes with their types, parents and link counts, and the entries. -/
def entryTables (db : Db) : List (Ino × Shape) × List Edge :=
  ((db .node).map fun n => (n.inode, n.attr.shape), db .edge)

theorem nsOf_eq_of_entryTables {db db' : Db} (h : entryTables db = entryTables db') :
    nsOf db = nsOf db' := by
  obtain ⟨hnodes, hedges⟩ := Prod.mk.inj h
  have hnode : ∀ (db : Db) i, (nodeAt db i).map Attr.shape
      = (((db .node).map fun n => (n.inode, n.attr.shape)).find? fun p => p.1 = i).map Prod.snd := by
    intro db i
    rw [List.find?_map, nodeAt, Option.map_map, Option.map_map]
    rfl
  ext1
  · funext i
    show (nodeAt db i).map Attr.shape = (nodeAt db' i).map Attr.shape
    rw [hnode, hnode, hnodes]
  · exact hedges

/-! ### One call alone -/

/-- The new parent of a rename is an existing directory when the rename commits. -/
def parentAtCommit (σ : EntryServer) (ev : Nat × SessionEvent Memory EntryCall) : Bool :=
  match σ.txs ev.1 with
  | some ⟨.rename _ _ _ parentDst _ _ _, body, _⟩ =>
    body.ended = true → IsDirectory σ.rows parentDst
  | _ => true

/-- A call that runs alone keeps the namespace consistent. -/
theorem EntryCall.consistent {call : EntryCall} {m : Memory} {db db' : Db} {u : Unit}
    (h : (nsOf db).Consistent) (hx : call.body.exec m db = .ok (u, db'))
    (hparent : ∀ now parentSrc nameSrc parentDst nameDst noReplace reversed,
      call = .rename now parentSrc nameSrc parentDst nameDst noReplace reversed →
        IsDirectory db parentDst) : (nsOf db').Consistent := by
  have hsim : ∃ safe, Simulated db db' safe := by
    -- the answer of the transaction is dropped
    have hdrop : ∀ {α : Type} {tx : MetaTx α}, (tx >>= fun _ => pure ()).exec m db = .ok (u, db') →
        ∃ a, tx.exec m db = .ok (a, db') := by
      intro α tx hx
      rw [exec_bind, andThen_eq_ok] at hx
      obtain ⟨a, db₁, ha, hpure⟩ := hx
      obtain ⟨-, rfl⟩ := Prod.mk.inj (Except.ok.inj hpure)
      exact ⟨a, ha⟩
    cases call with
    | create now inode parent name typ mode rdev target op c =>
      obtain ⟨a, hx⟩ := hdrop hx
      exact ⟨_, simulated_createTx hx⟩
    | link now inode newParent newName =>
      obtain ⟨a, hx⟩ := hdrop hx
      exact ⟨_, simulated_linkTx hx⟩
    | rename now parentSrc nameSrc parentDst nameDst noReplace reversed =>
      obtain ⟨i, hx⟩ := hdrop hx
      exact ⟨_, simulated_renameTx h (isDir_nsOf.mpr (hparent _ _ _ _ _ _ _ rfl)) hx⟩
    | exchange now parentSrc nameSrc parentDst nameDst reversed =>
      obtain ⟨i, hx⟩ := hdrop hx
      exact ⟨_, simulated_renameExchangeTx h hx⟩
    | rmdir now parent name => exact ⟨_, simulated_rmdirTx h hx⟩
  obtain ⟨safe, op, hop, hns, -⟩ := hsim
  rw [hns]
  exact h.apply hop

/-! ### Interleavings -/

/-- Every entry leads from an existing directory to an existing inode. -/
def EntriesOwned (db : Db) : Prop :=
  ∀ d ∈ db .edge, IsDirectory db d.parent ∧ (nodeAt db d.inode).isSome = true

instance (db : Db) : Decidable (EntriesOwned db) :=
  inferInstanceAs (Decidable (∀ d ∈ db .edge, IsDirectory db d.parent ∧ _))

theorem entriesOwned_of_consistent {db : Db} (h : (nsOf db).Consistent) : EntriesOwned db := by
  intro d hd
  refine ⟨isDir_nsOf.mp (h.parents d hd), ?_⟩
  obtain ⟨s, hs, -⟩ := h.typed d hd
  obtain ⟨a, ha, -⟩ := Option.map_eq_some_iff.mp hs
  rw [ha]
  rfl

/-- The condition on a commit: it changes inodes and entries as its transaction alone, run at that
    moment, would; and a rename has an existing directory as its new parent. -/
def EntriesChecked (σ : EntryServer) (ev : Nat × SessionEvent Memory EntryCall) : Prop :=
  Server.validated EntryCall.body entryTables σ ev = true ∧ parentAtCommit σ ev = true

instance (σ : EntryServer) (ev : Nat × SessionEvent Memory EntryCall) :
    Decidable (EntriesChecked σ ev) := inferInstanceAs (Decidable (_ ∧ _))

/-- **Entries and interleavings.**  In every run of these calls, by any number of sessions, whose
    commits all meet the condition, every entry of every committed state leads from an existing
    directory to an existing inode. -/
theorem entries_owned (rows : Db) (hrows : (nsOf rows).Consistent)
    (evs : List (Nat × SessionEvent Memory EntryCall))
    (hok : Guarded EntryServer.step EntriesChecked (Server.start rows) evs) :
    EntriesOwned (run EntryServer.step (Server.start rows) evs).rows := by
  refine entriesOwned_of_consistent ?_
  refine Server.serial_of_validated (fun _ _ h => h.1) (fun db _ => (nsOf db).Consistent) ?_ hrows hok
  intro σ s m tx a a' db' hok htx hret hcons hexec hobs
  rw [← nsOf_eq_of_entryTables hobs]
  refine EntryCall.consistent hcons hexec ?_
  intro now parentSrc nameSrc parentDst nameDst noReplace reversed hcall
  obtain ⟨call, body, pending⟩ := tx
  subst hcall
  have hparent := hok.2
  simp only [parentAtCommit, htx, decide_eq_true_eq] at hparent
  apply hparent
  rw [show body = .ret a from hret]
  rfl

/-- Create an entry of the given type. -/
def newEntry (inode parent : Ino) (name : String) (typ : FileType) : EntryCall :=
  .create ⟨1, 0⟩ inode parent name typ 0o755 0 "" .mknod ⟨0, 0⟩

/-- A session makes the directory `d`, and begins to create the file `d/f` with `n` statements. -/
def fileBegun (n : Nat) : List (Nat × SessionEvent Memory EntryCall) :=
  (0, .begin (newEntry 2 1 "d" .directory)) :: statements .idle 0 6 ++
    (0, .begin (newEntry 3 2 "f" .file)) :: statements .idle 0 n

/-- Another session removes `d`, with `n` statements. -/
def dirRemoved (n : Nat) : List (Nat × SessionEvent Memory EntryCall) :=
  (1, .begin (.rmdir ⟨1, 0⟩ 1 "d")) :: statements .idle 1 n

/-- The file is created before the removal begins, which then finds the directory not empty. -/
theorem entries_owned_inSequence :
    EntriesOwned (run EntryServer.step (Server.start (Engine.bootstrapDb ⟨0, 0⟩))
      (fileBegun 6 ++ dirRemoved 3)).rows :=
  entries_owned _ (tree_bootstrap ⟨0, 0⟩ 0).consistent (fileBegun 6 ++ dirRemoved 3) (by decide)

/-- **An entry without a parent.**  The directory is found empty and removed while the entry of the
    new file is not committed yet.  All three transactions commit; the entry and its inode are there,
    and their directory is not. -/
theorem entry_without_parent :
    let σ := run EntryServer.step (Server.start (Engine.bootstrapDb ⟨0, 0⟩))
      (fileBegun 2 ++ dirRemoved 8 ++ statements .idle 0 4)
    σ.log.length = 3 ∧ (⟨2, "f", 3, .file⟩ : Edge) ∈ σ.rows .edge ∧ nodeAt σ.rows 2 = none ∧
      ¬ EntriesOwned σ.rows := by
  decide

end MemoryLayer.Meta
