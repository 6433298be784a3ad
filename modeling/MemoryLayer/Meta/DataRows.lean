import MemoryLayer.Meta.Calls

namespace MemoryLayer.Meta

open Sql Sql.Tx

/-! # Data rows and their inodes

The garbage collector keeps every slice that some `slice_ref` row names, so a row that outlives
its inode keeps data alive for good.  Three paths delete a node (`Unlink`, `Rmdir` and `Rename`
over an existing entry), each with its own list of tables to clean.

- `RowsOwned`: every `slice_ref`, `xattr` and `symlink` row belongs to an inode in `node`.
- `SameData`: the changes that do not matter here.
- `CleansUp`: when a call leaves no row behind.  A rename that takes the last link of a file
  deletes its node and its symlink target, and leaves its slices and attributes.
- `rowsOwned_step_iff`, `rowsOwned_run`: the invariant of one call, and of a history.
-/

/-- Every data row belongs to an inode that is present. -/
structure RowsOwned (db : Db) : Prop where
  slices : ∀ r ∈ db .sliceRef, (nodeAt db r.inode).isSome
  xattrs : ∀ r ∈ db .xattr, (nodeAt db r.inode).isSome
  targets : ∀ r ∈ db .symlink, (nodeAt db r.inode).isSome

/-- Some `slice_ref` row belongs to the inode. -/
def HasSlices (db : Db) (i : Ino) : Prop := ∃ r ∈ db .sliceRef, r.inode = i

/-- Some `xattr` row belongs to the inode. -/
def HasXattrs (db : Db) (i : Ino) : Prop := ∃ r ∈ db .xattr, r.inode = i

/-- Some `symlink` row belongs to the inode. -/
def HasTarget (db : Db) (i : Ino) : Prop := ∃ r ∈ db .symlink, r.inode = i

instance (db : Db) (i : Ino) : Decidable (HasSlices db i) :=
  inferInstanceAs (Decidable (∃ r ∈ db .sliceRef, r.inode = i))

instance (db : Db) (i : Ino) : Decidable (HasXattrs db i) :=
  inferInstanceAs (Decidable (∃ r ∈ db .xattr, r.inode = i))

instance (db : Db) (i : Ino) : Decidable (HasTarget db i) :=
  inferInstanceAs (Decidable (∃ r ∈ db .symlink, r.inode = i))

variable {db db' : Db}

theorem rowsOwned_iff : RowsOwned db ↔
    ∀ i, (HasSlices db i ∨ HasXattrs db i ∨ HasTarget db i) → (nodeAt db i).isSome := by
  constructor
  · rintro h i (⟨r, hr, rfl⟩ | ⟨r, hr, rfl⟩ | ⟨r, hr, rfl⟩)
    · exact h.slices r hr
    · exact h.xattrs r hr
    · exact h.targets r hr
  · intro h
    exact ⟨fun r hr => h _ (.inl ⟨r, hr, rfl⟩), fun r hr => h _ (.inr (.inl ⟨r, hr, rfl⟩)),
      fun r hr => h _ (.inr (.inr ⟨r, hr, rfl⟩))⟩

/-! ### Changes without effect on the data rows -/

/-- The same inodes are present, with the same data rows. -/
structure SameData (db db' : Db) : Prop where
  nodes : ∀ i, (nodeAt db' i).isSome = (nodeAt db i).isSome
  slices : db' .sliceRef = db .sliceRef
  xattrs : db' .xattr = db .xattr
  targets : db' .symlink = db .symlink

namespace SameData

theorem refl (db : Db) : SameData db db := ⟨fun _ => rfl, rfl, rfl, rfl⟩

variable (h : SameData db db')

include h

theorem trans {db'' : Db} (h' : SameData db' db'') : SameData db db'' :=
  ⟨fun i => (h'.nodes i).trans (h.nodes i), h'.slices.trans h.slices, h'.xattrs.trans h.xattrs,
    h'.targets.trans h.targets⟩

theorem editChangelog {f : List Change → List Change} : SameData db (edit .changelog f db') :=
  h.trans ⟨by simp, by simp, by simp, by simp⟩

theorem addEntry (d : Edge) : SameData db (addEntry d db') :=
  h.trans ⟨by simp, by simp, by simp, by simp⟩

theorem dropEntry (p : Ino) (n : String) : SameData db (dropEntry p n db') :=
  h.trans ⟨by simp, by simp, by simp, by simp⟩

theorem setEntry (p : Ino) (n : String) (i : Ino) (k : FileType) :
    SameData db (setEntry p n i k db') := h.trans ⟨by simp, by simp, by simp, by simp⟩

theorem setNode (i : Ino) (f : Attr → Attr) : SameData db (setNode i f db') :=
  h.trans ⟨by simp, by simp, by simp, by simp⟩

theorem linksApplied (delta : LinkDelta) : SameData db (linksApplied delta db') := by
  induction delta generalizing db' with
  | nil => exact h
  | cons pd delta ih => exact ih (h.setNode ..)

theorem parentsTouched (now : Time) (p q : Ino) : SameData db (parentsTouched now p q db') := by
  unfold Meta.parentsTouched
  induction distinctParents p q generalizing db' with
  | nil => exact h
  | cons x xs ih => exact ih (h.setNode ..)

theorem moved (now : Time) (src : Edge) (parentSrc : Ino) (nameSrc : String) (parentDst : Ino)
    (nameDst : String) (delta : LinkDelta) :
    SameData db (moved now src parentSrc nameSrc parentDst nameDst delta db') :=
  ((((h.dropEntry ..).addEntry _).setNode ..).linksApplied delta |>.parentsTouched ..).editChangelog

theorem exchanged (now : Time) (src dst : Edge) (delta : LinkDelta) :
    SameData db (exchanged now src dst delta db') :=
  (((((h.setEntry ..).setEntry ..).setNode ..).setNode ..).linksApplied delta
    |>.parentsTouched ..).editChangelog

/-- The property only depends on the data rows and the inodes present. -/
theorem rowsOwned_iff : RowsOwned db' ↔ RowsOwned db := by
  constructor
  · intro ⟨hs, hx, ht⟩
    refine ⟨fun r hr => ?_, fun r hr => ?_, fun r hr => ?_⟩
    · rw [← h.nodes]
      exact hs r (h.slices ▸ hr)
    · rw [← h.nodes]
      exact hx r (h.xattrs ▸ hr)
    · rw [← h.nodes]
      exact ht r (h.targets ▸ hr)
  · intro ⟨hs, hx, ht⟩
    refine ⟨fun r hr => ?_, fun r hr => ?_, fun r hr => ?_⟩
    · rw [h.nodes]
      exact hs r (h.slices ▸ hr)
    · rw [h.nodes]
      exact hx r (h.xattrs ▸ hr)
    · rw [h.nodes]
      exact ht r (h.targets ▸ hr)

end SameData

/-! ### Deleting a node -/

/-- The node `i` is deleted; `cs`, `cx` and `ct` say whether its slice, attribute and target rows
    are deleted with it. -/
structure Drops (i : Ino) (cs cx ct : Prop) (db db' : Db) : Prop where
  nodes : ∀ j, (nodeAt db' j).isSome ↔ j ≠ i ∧ (nodeAt db j).isSome
  slices : ∀ j, HasSlices db' j ↔ HasSlices db j ∧ (cs → j ≠ i)
  xattrs : ∀ j, HasXattrs db' j ↔ HasXattrs db j ∧ (cx → j ≠ i)
  targets : ∀ j, HasTarget db' j ↔ HasTarget db j ∧ (ct → j ≠ i)

/-- A deletion leaves no row behind exactly when the tables it does not clean have none. -/
theorem Drops.rowsOwned_iff {i : Ino} {cs cx ct : Prop}
    (h : Drops i cs cx ct db db') (hdb : RowsOwned db) :
    RowsOwned db' ↔
      (HasSlices db i → cs) ∧ (HasXattrs db i → cx) ∧ (HasTarget db i → ct) := by
  rw [Meta.rowsOwned_iff] at hdb ⊢
  simp only [h.nodes, h.slices, h.xattrs, h.targets]
  constructor
  · intro hall
    refine ⟨fun hi => ?_, fun hi => ?_, fun hi => ?_⟩
    all_goals
      by_contra hc
      refine (hall i ?_).1 rfl
      simp [hi, hc]
  · rintro ⟨hs, hx, ht⟩ j hj
    -- a row of another inode was owned before; a row of `i` would have been cleaned
    rcases hj with ⟨hj, hc⟩ | ⟨hj, hc⟩ | ⟨hj, hc⟩
    · exact ⟨fun hji => hc (hs (hji ▸ hj)) hji, hdb j (.inl hj)⟩
    · exact ⟨fun hji => hc (hx (hji ▸ hj)) hji, hdb j (.inr (.inl hj))⟩
    · exact ⟨fun hji => hc (ht (hji ▸ hj)) hji, hdb j (.inr (.inr hj))⟩

theorem nodeAt_dropNode_isSome (db : Db) (i j : Ino) :
    (nodeAt (dropNode i db) j).isSome ↔ j ≠ i ∧ (nodeAt db j).isSome := by
  rw [nodeAt_dropNode]
  split <;> simp_all

theorem Drops.purged (i : Ino) (db : Db) : Drops i True True True db (purged i db) := by
  refine ⟨fun j => ?_, fun j => ?_, fun j => ?_, fun j => ?_⟩
  · simpa [Meta.purged] using nodeAt_dropNode_isSome db i j
  all_goals
    simp only [HasSlices, HasXattrs, HasTarget, Meta.purged, edit_self, ne_eq, reduceCtorEq,
      not_false_eq_true, edit_of_ne, dropNode_of_ne, mem_deleted, decide_eq_false_iff_not]
    grind

theorem Drops.removedDir (now : Time) (parent : Ino) (name : String) (i : Ino) (db : Db) :
    Drops i False True False db (removedDir now parent name i db) := by
  refine ⟨fun j => ?_, fun j => ?_, fun j => ?_, fun j => ?_⟩
  · simpa [Meta.removedDir] using nodeAt_dropNode_isSome db i j
  all_goals
    simp only [HasSlices, HasXattrs, HasTarget, Meta.removedDir, edit_self, ne_eq, reduceCtorEq,
      not_false_eq_true, edit_of_ne, setNode_of_ne, dropNode_of_ne, dropEntry_of_ne, mem_deleted,
      decide_eq_false_iff_not]
    grind

variable {now : Time} {dst : Edge} {inode parent : Ino} {name target : String} {e : Engine} {typ : FileType}
  {op : ChangeOp}

theorem Drops.replaced {gone : Bool}
    (hgone : dst.type = .directory ∨ gone = true) :
    Drops dst.inode False False (dst.type ≠ .directory) db (replaced now dst gone db) := by
  by_cases hd : dst.type = .directory
  · rw [Meta.replaced, if_pos hd]
    refine ⟨fun j => ?_, fun j => ?_, fun j => ?_, fun j => ?_⟩
    · simpa using nodeAt_dropNode_isSome db dst.inode j
    all_goals simp [hd, HasSlices, HasXattrs, HasTarget]
  · rw [Meta.replaced, if_neg hd, if_pos (hgone.resolve_left hd)]
    refine ⟨fun j => ?_, fun j => ?_, fun j => ?_, fun j => ?_⟩
    · rw [nodeAt_dropEntry, nodeAt_edit_of_ne _ _ (by decide), nodeAt_dropNode_isSome,
        nodeAt_setNode_isSome]
    all_goals
      simp only [HasSlices, HasXattrs, HasTarget, edit_self, ne_eq, reduceCtorEq,
        not_false_eq_true, edit_of_ne, setNode_of_ne, dropNode_of_ne, dropEntry_of_ne,
        mem_deleted, decide_eq_false_iff_not]
      grind

/-- A destination that keeps a link keeps its node. -/
theorem SameData.replaced (hdst : dst.type ≠ .directory) :
    SameData db (replaced now dst false db) := by
  rw [Meta.replaced, if_neg hdst, if_neg (by decide)]
  exact ((SameData.refl db).setNode ..).dropEntry ..

/-! ### Adding rows -/

/-- No inode disappears, and rows appear for inodes present only. -/
theorem RowsOwned.grow (hdb : RowsOwned db)
    (hnodes : ∀ i, (nodeAt db i).isSome → (nodeAt db' i).isSome)
    (hslices : ∀ i, HasSlices db' i → HasSlices db i ∨ (nodeAt db' i).isSome)
    (hxattrs : ∀ i, HasXattrs db' i → HasXattrs db i ∨ (nodeAt db' i).isSome)
    (htargets : ∀ i, HasTarget db' i → HasTarget db i ∨ (nodeAt db' i).isSome) :
    RowsOwned db' := by
  rw [rowsOwned_iff] at hdb ⊢
  rintro i (hi | hi | hi)
  · exact (hslices i hi).elim (fun h => hnodes i (hdb i (.inl h))) id
  · exact (hxattrs i hi).elim (fun h => hnodes i (hdb i (.inr (.inl h)))) id
  · exact (htargets i hi).elim (fun h => hnodes i (hdb i (.inr (.inr h)))) id

theorem rowsOwned_created {mode rdev : Nat} {c : Context}
    (hdb : RowsOwned db) :
    RowsOwned (created now inode parent name typ mode rdev target op c db) := by
  refine hdb.grow (fun i hi => ?_) (fun i hi => ?_) (fun i hi => ?_) fun i hi => ?_
  · by_cases hs : typ = .symlink <;> simp [created, hs, hi]
  · refine .inl ?_
    by_cases hs : typ = .symlink <;> simpa [created, hs, HasSlices] using hi
  · refine .inl ?_
    by_cases hs : typ = .symlink <;> simpa [created, hs, HasXattrs] using hi
  · by_cases hs : typ = .symlink
    · -- the only new target belongs to the new inode
      simp only [created, hs, HasTarget, if_true, ne_eq, reduceCtorEq, not_false_eq_true,
        edit_of_ne, setNode_of_ne, edit_self, addNode_of_ne, addEntry_of_ne] at hi
      obtain ⟨r, hr, rfl⟩ := hi
      rcases mem_of_mem_inserted hr with hr | rfl
      · exact .inl ⟨r, hr, rfl⟩
      · exact .inr (by simp [created, hs])
    · exact .inl (by simpa [created, hs, HasTarget] using hi)

theorem rowsOwned_written {r : SliceRef} {length : Nat}
    (hr : (nodeAt db r.inode).isSome) (hdb : RowsOwned db) : RowsOwned (written now r length db) := by
  refine hdb.grow (fun i hi => ?_) (fun i hi => ?_) (fun i hi => ?_) fun i hi => ?_
  · simp [written, hi]
  · simp only [written, HasSlices, ne_eq, reduceCtorEq, not_false_eq_true, edit_of_ne,
      setNode_of_ne, edit_self] at hi
    obtain ⟨r', hr', rfl⟩ := hi
    rcases mem_of_mem_inserted hr' with hr' | rfl
    · exact .inl ⟨r', hr', rfl⟩
    · exact .inr (by simp [written, hr])
  · exact .inl (by simpa [written, HasXattrs] using hi)
  · exact .inl (by simpa [written, HasTarget] using hi)

/-! ### Histories -/

/-- The call leaves no data row behind.  `Rmdir` deletes a node with its attributes, so the inode
    must have no slices and no target.  `Rename` over an existing entry deletes the node of a
    directory alone, and that of a last link with its target, so the inode must have no slices
    and no attributes. -/
def CleansUp (e : Engine) : Call → Prop
  | .rmdir _ parent name =>
    ∀ d ∈ entryAt e.db parent name, d.type = .directory → Childless e.db d.inode →
      ¬ HasSlices e.db d.inode ∧ ¬ HasTarget e.db d.inode
  | .rename _ parentSrc nameSrc parentDst nameDst flags _ =>
    flags = 0 → ∀ src ∈ entryAt e.db parentSrc nameSrc, ∀ dst ∈ entryAt e.db parentDst nameDst,
      dst.inode ≠ src.inode → Replaceable e.db src dst → lastLink e.db dst = true →
        ¬ HasSlices e.db dst.inode ∧ ¬ HasXattrs e.db dst.inode ∧
          (dst.type = .directory → ¬ HasTarget e.db dst.inode)
  | _ => True

instance (e : Engine) : ∀ call, Decidable (CleansUp e call)
  | .rmdir .. => by unfold CleansUp; infer_instance
  | .rename .. => by unfold CleansUp; exact instDecidableForall
  | .create .. | .mkdir .. | .mknod .. | .symlink .. | .link .. | .unlink .. | .write ..
  | .setXAttr .. => .isTrue trivial

section

variable (hdb : RowsOwned e.db)

include hdb

theorem rowsOwned_create {mode rdev : Nat} {c : Context}
    :
    RowsOwned (e.create now parent name typ mode rdev target op c).2.db := by
  rcases e.create_db now parent name typ mode rdev target op c with h | ⟨m, a, h⟩
  · rwa [h]
  · obtain ⟨-, -, -, hdb'⟩ := createTx_ok h
    rw [hdb']
    exact rowsOwned_created hdb

theorem rowsOwned_unlink : RowsOwned (e.unlink now parent name).2.db := by
  rcases e.unlink_db now parent name with h | ⟨s, h⟩
  · rwa [h]
  · obtain ⟨d, a, -, -, -, -, hdb'⟩ := unlinkTx_ok h
    have hsame : RowsOwned (detached now parent name d.inode e.db) :=
      (((SameData.refl e.db).dropEntry ..).setNode ..).rowsOwned_iff.mpr hdb
    rw [hdb']
    refine (((SameData.refl _).setNode ..).editChangelog).rowsOwned_iff.mpr ?_
    split
    · exact ((Drops.purged _ _).rowsOwned_iff hsame).mpr (by simp)
    · exact hsame

theorem rowsOwned_link : RowsOwned (e.link now inode parent name).2.db := by
  rcases e.withTx_db (linkTx now inode parent name) with h | ⟨a, h⟩
  · rwa [Engine.link, h]
  · obtain ⟨cur, pa, -, -, -, -, -, hdb'⟩ := linkTx_ok h
    rw [Engine.link, hdb']
    exact ((((SameData.refl e.db).addEntry _).setNode ..).setNode ..).editChangelog.rowsOwned_iff.mpr
      hdb

theorem rowsOwned_write {r : SliceRef} :
    RowsOwned (e.write now r).2.db := by
  rcases e.withTx_db (writeTx now r) with h | ⟨a, h⟩
  · rwa [Engine.write, h]
  · obtain ⟨cur, hcur, -, -, hdb'⟩ := writeTx_ok h
    rw [Engine.write, hdb']
    split
    · exact hdb
    · exact rowsOwned_written (by simp [hcur]) hdb

theorem rowsOwned_setXAttr {value : List UInt8}
    {create replace : Bool} :
    RowsOwned (e.setXAttr inode name value create replace).2.db := by
  rcases e.withTx_db (setXAttrTx inode name value create replace) with h | ⟨a, h⟩
  · rwa [Engine.setXAttr, h]
  · obtain ⟨⟨cur, hcur⟩, f, hdb', hf⟩ := setXAttrTx_ok h
    rw [Engine.setXAttr, hdb']
    refine hdb.grow (fun i hi => ?_) (fun i hi => ?_) (fun i hi => ?_) fun i hi => ?_
    · simpa using hi
    · exact .inl (by simpa [HasSlices] using hi)
    · obtain ⟨r, hr, rfl⟩ := hi
      rw [edit_self] at hr
      rcases hf _ r hr with hi | ⟨r', hr', hi⟩
      · exact .inr (by simp [hi, hcur])
      · exact .inl ⟨r', hr', hi⟩
    · exact .inl (by simpa [HasTarget] using hi)

theorem rowsOwned_rmdir_iff :
    RowsOwned (e.rmdir now parent name).2.db ↔ CleansUp e (.rmdir now parent name) := by
  unfold CleansUp Engine.rmdir
  by_cases hd : ∃ d, entryAt e.db parent name = some d ∧ d.type = .directory ∧
      Childless e.db d.inode
  · obtain ⟨d, hd, hdir, hchild⟩ := hd
    have hok : (rmdirTx now parent name).exec e.memory e.db
        = .ok ((), removedDir now parent name d.inode e.db) :=
      rmdirTx_ok.mpr ⟨d, hd, hdir, hchild, rfl⟩
    rw [Engine.withTx_db_of_ok hok, (Drops.removedDir ..).rowsOwned_iff hdb]
    simp [hd, hdir, hchild]
  · -- the call fails, and its condition has nothing to say
    rcases e.withTx_db (rmdirTx now parent name) with h | ⟨u, h⟩
    · rw [h]
      refine ⟨fun _ d hmem hdir hchild => ?_, fun _ => hdb⟩
      exact absurd ⟨d, hmem, hdir, hchild⟩ hd
    · obtain ⟨d, hd', hdir, hchild, -⟩ := rmdirTx_ok.mp h
      exact absurd ⟨d, hd', hdir, hchild⟩ hd

end

/-- Replacing an entry leaves no row behind exactly under the condition. -/
theorem rowsOwned_replaced_iff (hdb : RowsOwned db) :
    RowsOwned (replaced now dst (lastLink db dst) db) ↔ (lastLink db dst = true →
      ¬ HasSlices db dst.inode ∧ ¬ HasXattrs db dst.inode ∧
        (dst.type = .directory → ¬ HasTarget db dst.inode)) := by
  cases hl : lastLink db dst with
  | true =>
    rw [(Drops.replaced (.inr rfl)).rowsOwned_iff hdb]
    simp only [imp_false, ne_eq, true_implies]
    tauto
  | false =>
    have hdst : dst.type ≠ .directory := by
      intro hd
      simp [lastLink, hd] at hl
    simpa using (SameData.replaced hdst).rowsOwned_iff.mpr hdb

theorem rowsOwned_rename_iff {parentSrc : Ino} {nameSrc : String}
    {parentDst : Ino} {nameDst : String} {flags : UInt32} {reversed : Bool}
    (hdb : RowsOwned e.db) :
    RowsOwned (e.rename now parentSrc nameSrc parentDst nameDst flags reversed).2.db ↔
      CleansUp e (.rename now parentSrc nameSrc parentDst nameDst flags reversed) := by
  constructor
  · -- a rename that replaces its destination has to have met the condition
    rintro h rfl src hs dst hd hne hok
    obtain ⟨i, delta, hx⟩ := renameTx_replaces now e.memory reversed hs hd hne hok
    rw [Engine.rename_zero, Engine.withTx_db_of_ok hx, ((SameData.refl _).moved ..).rowsOwned_iff]
      at h
    exact (rowsOwned_replaced_iff hdb).mp h
  · intro hclean
    rcases e.rename_db now parentSrc nameSrc parentDst nameDst flags reversed
      with h | ⟨hflags, i, h⟩ | ⟨-, i, h⟩
    · rwa [h]
    · obtain ⟨src, delta, hs, -, ⟨hd, hdb'⟩ | ⟨dst, hd, hrep, ⟨-, hdb'⟩ | ⟨hne, hok, hdb'⟩⟩⟩ :=
        renameTx_ok h
      · rw [hdb']
        exact ((SameData.refl _).moved ..).rowsOwned_iff.mpr hdb
      · rwa [hdb']
      · rw [hdb', ((SameData.refl _).moved ..).rowsOwned_iff, rowsOwned_replaced_iff hdb]
        exact hclean (Engine.flags_eq_zero hflags (by simpa using hrep)) src hs dst hd hne hok
    · obtain ⟨src, dst, delta, -, -, -, ⟨-, hdb'⟩ | ⟨-, hdb'⟩⟩ := renameExchangeTx_ok h
      · rwa [hdb']
      · rw [hdb']
        exact ((SameData.refl _).exchanged ..).rowsOwned_iff.mpr hdb

/-- **One call.**  From tables in which every data row is owned, a call leaves such tables exactly
    when it cleans up after itself. -/
theorem rowsOwned_step_iff (call : Call) (hdb : RowsOwned e.db) :
    RowsOwned (e.step call).db ↔ CleansUp e call := by
  cases call with
  | create => exact iff_of_true (rowsOwned_create hdb) trivial
  | mkdir => exact iff_of_true (rowsOwned_create hdb) trivial
  | mknod => exact iff_of_true (rowsOwned_create hdb) trivial
  | symlink => exact iff_of_true (rowsOwned_create hdb) trivial
  | link => exact iff_of_true (rowsOwned_link hdb) trivial
  | unlink => exact iff_of_true (rowsOwned_unlink hdb) trivial
  | write => exact iff_of_true (rowsOwned_write hdb) trivial
  | setXAttr => exact iff_of_true (rowsOwned_setXAttr hdb) trivial
  | rmdir => exact rowsOwned_rmdir_iff hdb
  | rename => exact rowsOwned_rename_iff hdb

theorem rowsOwned_bootstrap (now : Time) (inodePrefix : Nat) :
    RowsOwned (Engine.bootstrap now inodePrefix).db :=
  ⟨fun _ h => absurd h List.not_mem_nil, fun _ h => absurd h List.not_mem_nil,
    fun _ h => absurd h List.not_mem_nil⟩

/-- **Every history.**  After every history whose calls all clean up after themselves, every data
    row belongs to an inode that is present; and the condition is exact, since the next call keeps
    this exactly when it meets the condition. -/
theorem rowsOwned_run (now : Time) (inodePrefix : Nat) (calls : List Call)
    (hclean : Runs.Guarded Engine.step CleansUp (Engine.bootstrap now inodePrefix) calls) :
    RowsOwned (Runs.run Engine.step (Engine.bootstrap now inodePrefix) calls).db ∧
      ∀ call, RowsOwned (Runs.run Engine.step (Engine.bootstrap now inodePrefix)
          (calls ++ [call])).db ↔
        CleansUp (Runs.run Engine.step (Engine.bootstrap now inodePrefix) calls) call := by
  have hrun : RowsOwned (Runs.run Engine.step (Engine.bootstrap now inodePrefix) calls).db :=
    Runs.invariant_of_guarded (fun e => RowsOwned e.db)
      (fun e call he hok => (rowsOwned_step_iff call he).mpr hok)
      (rowsOwned_bootstrap now inodePrefix) hclean
  refine ⟨hrun, fun call => ?_⟩
  rw [Runs.run_append, Runs.run_cons, Runs.run_nil]
  exact rowsOwned_step_iff call hrun

/-- A file is replaced by a rename before anything was written to it. -/
theorem rowsOwned_replace_empty :
    RowsOwned (Runs.run Engine.step (Engine.bootstrap ⟨0, 0⟩ 0)
      [.create ⟨0, 0⟩ 1 "a" 0 ⟨0, 0⟩, .create ⟨0, 0⟩ 1 "b" 0 ⟨0, 0⟩,
        .rename ⟨0, 0⟩ 1 "b" 1 "a" 0 false]).db :=
  (rowsOwned_run ⟨0, 0⟩ 0 _ (by decide)).1

/-- A file with one slice is replaced by a rename: its slice row stays. -/
theorem rename_leaves_slice :
    ¬ RowsOwned (Runs.run Engine.step (Engine.bootstrap ⟨0, 0⟩ 0)
      [.create ⟨0, 0⟩ 1 "a" 0 ⟨0, 0⟩, .write ⟨0, 0⟩ ⟨2, 0, 0, 1, 4, 0, 4⟩,
        .create ⟨0, 0⟩ 1 "b" 0 ⟨0, 0⟩, .rename ⟨0, 0⟩ 1 "b" 1 "a" 0 false]).db := by
  intro h
  have horphan := h.slices ⟨2, 0, 0, 1, 4, 0, 4⟩ (by decide)
  revert horphan
  decide

end MemoryLayer.Meta
