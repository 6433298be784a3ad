import MemoryLayer.Sql.Keyed
import MemoryLayer.Meta.Rename
import MemoryLayer.Meta.Slices

namespace MemoryLayer.Meta

open Sql Sql.Tx

/-! # The operations executed one at a time

What each transaction body does to the tables when it runs alone.  Nodes and directory entries
are looked up by key (`nodeAt`, `entryAt`); the lemmas on these say what each change of a table
does to the rows found, and the later modules reason about the rows found only.

- `nodeAt`, `entryAt`: the rows under a key.
- `setNode`, `addNode`, `dropNode`, `setEntry`, `addEntry`, `dropEntry`: the changes of the two
  tables, with their simp set.
- `createTx_ok`, `unlinkTx_ok`, `rmdirTx_ok`, `linkTx_ok`, `writeTx_ok`, `setXAttrTx_ok`:
  everything a body that succeeds can have done.
-/

/-- The attributes of an inode. -/
def nodeAt (db : Db) (i : Ino) : Option Attr := ((db .node).find? (isNode i)).map Node.attr

/-- The directory entry under a parent and a name. -/
def entryAt (db : Db) (p : Ino) (n : String) : Option Edge := (db .edge).find? (isEntry p n)

/-- A directory without entries. -/
def Childless (db : Db) (i : Ino) : Prop := ∀ n, entryAt db i n = none

/-! ### Changes of the tables -/

/-- `UPDATE node`. -/
def setNode (i : Ino) (f : Attr → Attr) (db : Db) : Db :=
  edit .node (updated (isNode i) (Node.mapAttr f)) db

/-- `INSERT INTO node`. -/
def addNode (i : Ino) (a : Attr) (db : Db) : Db := edit .node (inserted ⟨i, a⟩) db

/-- `DELETE FROM node`. -/
def dropNode (i : Ino) (db : Db) : Db := edit .node (deleted (isNode i)) db

/-- `UPDATE edge SET inode, type`. -/
def setEntry (p : Ino) (n : String) (i : Ino) (k : FileType) (db : Db) : Db :=
  edit .edge (updated (isEntry p n) fun d => { d with inode := i, type := k }) db

/-- `INSERT INTO edge`. -/
def addEntry (d : Edge) (db : Db) : Db := edit .edge (inserted d) db

/-- `DELETE FROM edge`. -/
def dropEntry (p : Ino) (n : String) (db : Db) : Db := edit .edge (deleted (isEntry p n)) db

section Changes

variable (db : Db) (i j p q : Ino) (n n' : String) (f : Attr → Attr) (a : Attr) (d : Edge)
  (k : FileType) {t : Table}

@[simp] theorem setNode_of_ne (h : t ≠ .node) : setNode i f db t = db t := edit_of_ne h ..
@[simp] theorem addNode_of_ne (h : t ≠ .node) : addNode i a db t = db t := edit_of_ne h ..
@[simp] theorem dropNode_of_ne (h : t ≠ .node) : dropNode i db t = db t := edit_of_ne h ..
@[simp] theorem setEntry_of_ne (h : t ≠ .edge) : setEntry p n i k db t = db t := edit_of_ne h ..
@[simp] theorem addEntry_of_ne (h : t ≠ .edge) : addEntry d db t = db t := edit_of_ne h ..
@[simp] theorem dropEntry_of_ne (h : t ≠ .edge) : dropEntry p n db t = db t := edit_of_ne h ..

theorem nodeAt_congr {db db' : Db} (h : db' .node = db .node) : nodeAt db' i = nodeAt db i := by
  unfold nodeAt
  rw [h]

@[simp] theorem nodeAt_edit_of_ne (h : t ≠ .node) (g : List (Row t) → List (Row t)) :
    nodeAt (edit t g db) i = nodeAt db i := nodeAt_congr i (edit_of_ne h.symm ..)
@[simp] theorem nodeAt_setEntry : nodeAt (setEntry p n i k db) j = nodeAt db j :=
  nodeAt_congr j (setEntry_of_ne _ _ _ _ _ (by decide))
@[simp] theorem nodeAt_addEntry : nodeAt (addEntry d db) j = nodeAt db j :=
  nodeAt_congr j (addEntry_of_ne _ _ (by decide))
@[simp] theorem nodeAt_dropEntry : nodeAt (dropEntry p n db) j = nodeAt db j :=
  nodeAt_congr j (dropEntry_of_ne _ _ _ (by decide))

theorem entryAt_key {db : Db} {p : Ino} {n : String} {d : Edge} (h : entryAt db p n = some d) :
    d.key = (p, n) := by
  have := List.find?_some h
  simpa [isEntry] using this

theorem nodeAt_setNode :
    nodeAt (setNode i f db) j = if j = i then (nodeAt db i).map f else nodeAt db j := by
  have h := find?_map_key Node.inode (f := Node.mapAttr f) (fun _ => rfl) (db .node) i j
  simp only [nodeAt, setNode, edit_self, updated, isNode_eq, decide_eq_true_eq]
  rw [h]
  split
  · cases (db .node).find? fun r => r.inode = i <;> rfl
  · rfl

/-- An update keeps the inodes present. -/
@[simp] theorem nodeAt_setNode_isSome : (nodeAt (setNode i f db) j).isSome = (nodeAt db j).isSome := by
  rw [nodeAt_setNode]
  split
  case isTrue h => simp [h]
  case isFalse => rfl

@[simp] theorem nodeAt_dropNode :
    nodeAt (dropNode i db) j = if j = i then none else nodeAt db j := by
  have h := find?_filter_key Node.inode (db .node) i j
  simp only [nodeAt, dropNode, edit_self, deleted, isNode_eq]
  rw [h]
  split <;> rfl

@[simp] theorem entryAt_dropEntry :
    entryAt (dropEntry p n db) q n' = if (q, n') = (p, n) then none else entryAt db q n' :=
  find?_filter_key Edge.key (db .edge) (p, n) (q, n')

/-- A row of `node` conflicts exactly with the row of its inode. -/
@[simp] theorem any_clash_node (r : Node) :
    List.any (α := Node) (db .node) (clash (ρ := Row) Table.node r) = (nodeAt db r.inode).isSome := by
  rw [Bool.eq_iff_iff, nodeAt, Option.isSome_map, List.find?_isSome, List.any_eq_true]
  simp only [clash_eq, rowClash, isNode, beq_iff_eq, decide_eq_true_eq]

/-- A row of `edge` conflicts exactly with the entry under its parent and name. -/
@[simp] theorem any_clash_edge (d : Edge) :
    List.any (α := Edge) (db .edge) (clash (ρ := Row) Table.edge d)
      = (entryAt db d.parent d.name).isSome := by
  rw [Bool.eq_iff_iff, entryAt, List.find?_isSome, List.any_eq_true]
  simp only [clash_eq, rowClash, isEntry, Edge.key, Bool.and_eq_true, beq_iff_eq,
    decide_eq_true_eq, Prod.mk.injEq]

/-- A new node, when its inode was free. -/
@[simp] theorem nodeAt_addNode :
    nodeAt (addNode i a db) j = (nodeAt db j).or (if i = j then some a else none) := by
  have hany := any_clash_node db ⟨i, a⟩
  by_cases hc : (nodeAt db i).isSome
  · -- the inode was taken: nothing is inserted
    have hsame : addNode i a db .node = db .node := by
      simp only [addNode, edit_self, inserted, hany, hc, if_true]
    rw [nodeAt_congr j hsame]
    obtain ⟨b, hb⟩ := Option.isSome_iff_exists.mp hc
    split
    case isTrue h => simp [← h, hb]
    case isFalse => simp
  · have happ := find?_append_key Node.inode (db .node) ⟨i, a⟩ j
    have hadd : addNode i a db .node = db .node ++ [⟨i, a⟩] := by
      simp only [addNode, edit_self, inserted, hany]
      rw [if_neg hc]
    rw [nodeAt, hadd, isNode_eq, happ, nodeAt, isNode_eq]
    cases (db .node).find? fun r => r.inode = j <;> simp

/-- The emptiness check of `Rmdir` and `Rename`. -/
theorem childless_iff : ((db .edge).filter fun d => decide (d.parent = i)) = [] ↔ Childless db i := by
  simp only [List.filter_eq_nil_iff, Childless, entryAt, List.find?_eq_none, isEntry, Edge.key,
    decide_eq_true_eq, Prod.mk.injEq, not_and]
  constructor
  · intro h n d hd hp
    exact absurd hp (h d hd)
  · intro h d hd hp
    exact h d.name d hd hp rfl

instance : Decidable (Childless db i) := decidable_of_iff _ (childless_iff db i)

end Changes

/-! ### Statements executed alone -/

section Statements

variable (m : Memory) (db : Db) (i p : Ino) (n : String)

@[simp] theorem exec_getAttr :
    (getAttr i).exec m db = match nodeAt db i with
      | some a => .ok (a, db)
      | none => .error .enoent := by
  simp only [getAttr, exec_bind, exec_rowOrFail, nodeAt]
  cases (db .node).find? (isNode i) <;> rfl

@[simp] theorem exec_lookupEntry :
    (lookupEntry p n).exec m db = match entryAt db p n with
      | some d => .ok (d, db)
      | none => .error .enoent := by
  simp only [lookupEntry, exec_rowOrFail, entryAt]
  cases (db .edge).find? (isEntry p n) <;> rfl

@[simp] theorem exec_updateNode (f : Attr → Attr) :
    (updateNode i f).exec m db = .ok ((), setNode i f db) := rfl

@[simp] theorem exec_deleteNode :
    (deleteNode i).exec m db = .ok ((), dropNode i db) := rfl

@[simp] theorem exec_deleteEntry :
    (deleteEntry p n).exec m db = .ok ((), dropEntry p n db) := rfl

@[simp] theorem exec_appendChangelog (op : ChangeOp) :
    (appendChangelog i op).exec m db = .ok ((), edit .changelog (inserted ⟨i, op⟩) db) := by
  simp [appendChangelog, clash_eq, rowClash]

@[simp] theorem exec_changeLinks (now : Time) (d : Int) :
    (changeLinks now i d).exec m db = match nodeAt db i with
      | some a => .ok (a.nlink + d, setNode i (fun a => (a.addLinks d).touchCtime now) db)
      | none => .error .eio := by
  simp only [changeLinks, exec_bind, exec_setOrFail, nodeAt]
  cases (db .node).find? (isNode i) <;> rfl

@[simp] theorem exec_insertEntry (d : Edge) :
    (insertRow Table.edge d : MetaTx Bool).exec m db
      = .ok (!(entryAt db d.parent d.name).isSome, addEntry d db) := by
  rw [← any_clash_edge]
  rfl

@[simp] theorem exec_insertEntryOrFail (d : Edge) (e : Errno) :
    (insertOrFail Table.edge d e : MetaTx Unit).exec m db
      = if (entryAt db d.parent d.name).isSome then .error e else .ok ((), addEntry d db) := by
  rw [← any_clash_edge]
  exact exec_insertOrFail ..

@[simp] theorem exec_insertNode (a : Attr) (e : Errno) :
    (insertOrFail Table.node ⟨i, a⟩ e : MetaTx Unit).exec m db
      = if (nodeAt db i).isSome then .error e else .ok ((), addNode i a db) := by
  have h := any_clash_node db ⟨i, a⟩
  rw [← h]
  exact exec_insertOrFail ..

/-- The tables without the node `i` and all of its data rows. -/
def purged (i : Ino) (db : Db) : Db :=
  edit .xattr (deleted fun r => r.inode = i) <| edit .sliceRef (deleted fun r => r.inode = i) <|
    edit .symlink (deleted fun r => r.inode = i) <| dropNode i db

@[simp] theorem exec_deleteInodeRows : (deleteInodeRows i).exec m db = .ok ((), purged i db) := rfl

/-- The emptiness check lets the rest run exactly on a directory without entries. -/
@[simp] theorem andThen_requireEmpty {β : Type} {f : Unit → Db → Except Errno (β × Db)}
    {r : β × Db} :
    andThen ((requireEmpty i).exec m db) f = .ok r ↔ Childless db i ∧ f () db = .ok r := by
  rw [← childless_iff]
  simp only [requireEmpty, exec_bind, exec_selectRows, andThen_ok, exec_require, gt_iff_lt,
    List.length_pos_iff, not_not, andThen_ite_error]

end Statements

/-! ### Bodies executed alone -/

section Bodies

variable {now : Time} {m : Memory} {db db' : Db} {inode parent : Ino} {name : String}

/-- The tables after `createTx` inserted its rows. -/
def created (now : Time) (inode parent : Ino) (name : String) (typ : FileType) (mode rdev : Nat)
    (target : String) (op : ChangeOp) (c : Context) (db : Db) : Db :=
  edit .changelog (inserted ⟨inode, op⟩) <|
    setNode parent (fun a => Attr.touch now (if typ = .directory then a.addLinks 1 else a)) <|
      (if typ = .symlink then edit .symlink (inserted ⟨inode, target⟩) else id) <|
        addNode inode (newAttr now parent typ mode rdev target c) <|
          addEntry ⟨parent, name, inode, typ⟩ db

theorem createTx_ok {typ : FileType} {mode rdev : Nat} {target : String} {op : ChangeOp}
    {c : Context} {a : Attr}
    (h : (createTx now inode parent name typ mode rdev target op c).exec m db = .ok (a, db')) :
    (∃ pa, nodeAt db parent = some pa ∧ pa.type = .directory) ∧ entryAt db parent name = none ∧
      nodeAt db inode = none ∧ db' = created now inode parent name typ mode rdev target op c db := by
  simp only [createTx, exec_bind, exec_getAttr] at h
  cases hp : nodeAt db parent with
  | none => simp [hp] at h
  | some pa =>
    simp only [hp, andThen_ok, exec_require, andThen_ite_error, exec_insertEntry,
      exec_insertNode, andThen_error_ite, exec_onlyIf, exec_updateNode, exec_appendChangelog,
      exec_pure] at h
    obtain ⟨hdir, hentry, hnode, hrest⟩ := h
    refine ⟨⟨pa, rfl, hdir⟩, by simpa using hentry, by simpa using hnode, ?_⟩
    unfold created
    split at hrest
    case isTrue hs =>
      rw [exec_insertOrFail, andThen_error_ite] at hrest
      simp only [Except.ok.injEq, Prod.mk.injEq] at hrest
      rw [← hrest.2.2, if_pos hs]
    case isFalse hs =>
      simp only [andThen_ok, Except.ok.injEq, Prod.mk.injEq] at hrest
      rw [← hrest.2, if_neg hs]
      rfl

/-- The tables after an entry of `inode` was deleted and its link count lowered. -/
def detached (now : Time) (parent : Ino) (name : String) (inode : Ino) (db : Db) : Db :=
  setNode inode (fun a => (a.addLinks (-1)).touchCtime now) <| dropEntry parent name db

/-- The tables after the last statements of `unlinkTx`. -/
def unlinked (now : Time) (parent inode : Ino) (db : Db) : Db :=
  edit .changelog (inserted ⟨inode, .unlink⟩) <| setNode parent (Attr.touch now) db

theorem unlinkTx_ok {s : Option Ino} (h : (unlinkTx now parent name).exec m db = .ok (s, db')) :
    ∃ d n, entryAt db parent name = some d ∧ d.type ≠ .directory ∧ nodeAt db d.inode = some n ∧
      s = (if n.nlink ≤ 1 ∧ m.openRefs d.inode > 0 then some d.inode else none) ∧
      db' = unlinked now parent d.inode
        (if n.nlink ≤ 1 ∧ ¬ m.openRefs d.inode > 0
          then purged d.inode (detached now parent name d.inode db)
          else detached now parent name d.inode db) := by
  simp only [unlinkTx, exec_bind, exec_lookupEntry] at h
  cases hd : entryAt db parent name with
  | none => simp [hd] at h
  | some d =>
    simp only [hd, andThen_ok, exec_require, andThen_ite_error, exec_deleteEntry,
      exec_changeLinks] at h
    obtain ⟨hdir, h⟩ := h
    rw [nodeAt_dropEntry] at h
    cases hn : nodeAt db d.inode with
    | none => simp [hn] at h
    | some n =>
      refine ⟨d, n, rfl, hdir, hn, ?_⟩
      -- the three ways an inode can be left by a lost link
      have hlast : n.nlink + -1 ≤ 0 ↔ n.nlink ≤ 1 := by omega
      simp only [hn, andThen_ok, releaseInode, exec_bind, exec_memory, hlast] at h
      by_cases hl : n.nlink ≤ 1
      · by_cases ho : m.openRefs d.inode > 0
        all_goals
          simp [hl, ho] at h ⊢
          exact ⟨h.1.symm, h.2.symm⟩
      · simp [hl] at h ⊢
        exact ⟨h.1.symm, h.2.symm⟩

/-- The tables after `rmdirTx` removed the directory `inode`. -/
def removedDir (now : Time) (parent : Ino) (name : String) (inode : Ino) (db : Db) : Db :=
  edit .changelog (inserted ⟨inode, .rmdir⟩) <|
    setNode parent (fun a => (a.addLinks (-1)).touch now) <|
      edit .xattr (deleted fun r => r.inode = inode) <| dropNode inode <| dropEntry parent name db

/-- `Rmdir` succeeds exactly on an empty directory. -/
theorem rmdirTx_ok {u : Unit} : (rmdirTx now parent name).exec m db = .ok (u, db') ↔
    ∃ d, entryAt db parent name = some d ∧ d.type = .directory ∧ Childless db d.inode ∧
      db' = removedDir now parent name d.inode db := by
  simp only [rmdirTx, exec_bind, exec_lookupEntry]
  cases hd : entryAt db parent name with
  | none => simp
  | some d =>
    simp only [andThen_ok, exec_require, andThen_ite_error, andThen_requireEmpty,
      exec_deleteEntry, exec_deleteNode, exec_deleteRows, exec_updateNode, exec_appendChangelog,
      Except.ok.injEq, Prod.mk.injEq, true_and, Option.some.injEq, exists_eq_left']
    exact ⟨fun h => ⟨h.1, h.2.1, h.2.2.symm⟩, fun h => ⟨h.1, h.2.1, h.2.2.symm⟩⟩

/-- The tables after `linkTx` inserted its entry. -/
def linked (now : Time) (inode newParent : Ino) (newName : String) (typ : FileType) (db : Db) :
    Db :=
  edit .changelog (inserted ⟨inode, .link⟩) <|
    setNode newParent (Attr.touch now) <|
      setNode inode (fun a => (a.addLinks 1).touchCtime now) <|
        addEntry ⟨newParent, newName, inode, typ⟩ db

theorem linkTx_ok {a : Attr} (h : (linkTx now inode parent name).exec m db = .ok (a, db')) :
    ∃ cur pa, nodeAt db inode = some cur ∧ cur.type ≠ .directory ∧ nodeAt db parent = some pa ∧
      pa.type = .directory ∧ entryAt db parent name = none ∧
      db' = linked now inode parent name cur.type db := by
  simp only [linkTx, exec_bind, exec_getAttr] at h
  cases hc : nodeAt db inode with
  | none => simp [hc] at h
  | some cur =>
    simp only [hc, andThen_ok, exec_require, andThen_ite_error] at h
    obtain ⟨hfile, h⟩ := h
    cases hp : nodeAt db parent with
    | none => simp [hp] at h
    | some pa =>
      simp only [hp, andThen_ok, andThen_ite_error, exec_insertEntry,
        exec_changeLinks] at h
      obtain ⟨hdir, hentry, h⟩ := h
      rw [nodeAt_addEntry, hc] at h
      simp only [andThen_ok, exec_updateNode, exec_appendChangelog, exec_pure, Except.ok.injEq,
        Prod.mk.injEq] at h
      exact ⟨cur, pa, rfl, hfile, rfl, hdir, by simpa using hentry, h.2.symm⟩

/-- The tables after `writeTx` recorded a slice. -/
def written (now : Time) (r : SliceRef) (length : Nat) (db : Db) : Db :=
  edit .changelog (inserted ⟨r.inode, .write⟩) <|
    setNode r.inode (fun a => Attr.touch now { a with length := length }) <|
      edit .sliceRef (inserted r) db

theorem writeTx_ok {u : Unit} {r : SliceRef} (h : (writeTx now r).exec m db = .ok (u, db')) :
    ∃ cur, nodeAt db r.inode = some cur ∧ cur.type = .file ∧ r.indx < int4Max ∧
      db' = if (db .sliceRef).any (clash Table.sliceRef r) then db
        else written now r (max cur.length r.stop) db := by
  simp only [writeTx, exec_bind, exec_getAttr] at h
  cases hc : nodeAt db r.inode with
  | none => simp [hc] at h
  | some cur =>
    simp only [hc, andThen_ok, exec_require, andThen_ite_error, exec_insertRow, exec_onlyIf] at h
    obtain ⟨hfile, hfit, h⟩ := h
    refine ⟨cur, rfl, hfile, hfit.1, ?_⟩
    have hlen : (if r.indx * chunkSize + r.pos + r.slen > cur.length
        then r.indx * chunkSize + r.pos + r.slen else cur.length) = max cur.length r.stop := by
      unfold SliceRef.stop SliceRef.start
      split <;> omega
    cases hany : (db .sliceRef).any (clash Table.sliceRef r) with
    | true =>
      -- the slice is already recorded: the insert changed nothing
      simp only [hany, Bool.not_true, Bool.false_eq_true, if_false, Except.ok.injEq,
        Prod.mk.injEq, true_and] at h
      rw [← h, if_pos rfl]
      simp [edit, inserted, hany]
    | false =>
      simp only [hany, Bool.not_false, if_true, exec_bind, exec_updateNode, andThen_ok,
        exec_appendChangelog, Except.ok.injEq, Prod.mk.injEq, true_and, hlen] at h
      rw [← h, if_neg (by decide)]
      rfl

/-- An extended attribute is written to an existing inode, and no other inode gets one. -/
theorem setXAttrTx_ok {u : Unit} {value : List UInt8} {create replace : Bool}
    (h : (setXAttrTx inode name value create replace).exec m db = .ok (u, db')) :
    (∃ cur, nodeAt db inode = some cur) ∧ ∃ f, db' = edit .xattr f db ∧
      ∀ rs : List Xattr, ∀ r ∈ f rs, r.inode = inode ∨ ∃ r' ∈ rs, r'.inode = r.inode := by
  simp only [setXAttrTx, exec_bind, exec_getAttr] at h
  cases hc : nodeAt db inode with
  | none => simp [hc] at h
  | some cur =>
    simp only [hc, andThen_ok, exec_selectRows, exec_require, andThen_ite_error, exec_insertRow,
      exec_onlyIf, exec_bind, exec_updateRows, exec_pure] at h
    refine ⟨⟨cur, rfl⟩, ?_⟩
    obtain ⟨-, -, h⟩ := h
    split at h
    all_goals
      simp only [Except.ok.injEq, Prod.mk.injEq, true_and] at h
    case isTrue =>
      -- the attribute is there: its value is replaced
      refine ⟨_, by rw [← h, edit_edit], ?_⟩
      intro rs r hr
      obtain ⟨x, hx, rfl⟩ := mem_updated.mp hr
      have hsame : (if decide (x.inode = inode ∧ x.name = name) = true
          then { x with value := value } else x).inode = x.inode := by
        split <;> rfl
      rcases mem_of_mem_inserted hx with hx | rfl
      · exact .inr ⟨x, hx, hsame.symm⟩
      · exact .inl hsame
    case isFalse =>
      refine ⟨_, h.symm, ?_⟩
      intro rs r hr
      rcases mem_of_mem_inserted hr with hr | rfl
      · exact .inr ⟨r, hr, rfl⟩
      · exact .inl rfl

end Bodies

end MemoryLayer.Meta
