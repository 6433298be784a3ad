import MemoryLayer.Meta.Serial

namespace MemoryLayer.Meta

open Sql Sql.Tx LinkDelta

/-! # Renames executed one at a time

What `renameTx` and `renameExchangeTx` do to the tables when they run alone.

- `linksApplied`, `parentsTouched`: the updates of the parents, which keep every node's type and
  parent.
- `replaced`, `moved`, `exchanged`: the tables after the parts of a rename.
- `renameTx_ok`, `renameExchangeTx_ok`: everything a rename that succeeds can have done.
-/

/-- The tables after `applyDelta`. -/
def linksApplied (delta : LinkDelta) (db : Db) : Db :=
  delta.foldl (fun db pd => setNode pd.1 (fun a => a.addLinks pd.2) db) db

/-- The tables after `touchParents`. -/
def parentsTouched (now : Time) (parentSrc parentDst : Ino) (db : Db) : Db :=
  (distinctParents parentSrc parentDst).foldl (fun db p => setNode p (Attr.touch now) db) db

@[simp] theorem exec_applyDelta (m : Memory) (reversed : Bool) (delta : LinkDelta) (db : Db) :
    (applyDelta reversed delta).exec m db
      = .ok ((), linksApplied (if reversed then delta.reverse else delta) db) :=
  exec_each (fun pd db => exec_updateNode m db pd.1 fun a => a.addLinks pd.2) _ db

@[simp] theorem exec_touchParents (m : Memory) (now : Time) (parentSrc parentDst : Ino) (db : Db) :
    (touchParents now parentSrc parentDst).exec m db
      = .ok ((), parentsTouched now parentSrc parentDst db) :=
  exec_each (fun p db => exec_updateNode m db p (Attr.touch now)) _ db

/-- The parents that a change of link counts is about. -/
def LinkDelta.within (ps : List Ino) (delta : LinkDelta) : Prop := ∀ x ∈ delta, x.1 ∈ ps

@[grind .] theorem within_bump {ps : List Ino} {delta : LinkDelta} (h : delta.within ps)
    {p : Ino} (hp : p ∈ ps) (d : Int) : (delta.bump p d).within ps := by
  unfold within at *
  induction delta with
  | nil => simpa [bump] using hp
  | cons x rest ih =>
    unfold bump
    split <;> grind

@[grind .] theorem within_nil (ps : List Ino) : LinkDelta.within ps [] :=
  fun _ h => absurd h List.not_mem_nil

section Rename

variable {now : Time} {m : Memory} {db db' : Db} {parentSrc parentDst i : Ino}
  {nameSrc nameDst : String} {reversed : Bool} {src dst : Edge}

/-- The tables after an existing destination `dst` was removed; `gone` says whether its node went
    with it. -/
def replaced (now : Time) (dst : Edge) (gone : Bool) (db : Db) : Db :=
  dropEntry dst.parent dst.name <|
    if dst.type = .directory then dropNode dst.inode db
    else if gone then
      edit .symlink (deleted fun r => r.inode = dst.inode) <| dropNode dst.inode <|
        setNode dst.inode (fun a => (a.addLinks (-1)).touchCtime now) db
    else setNode dst.inode (fun a => (a.addLinks (-1)).touchCtime now) db

/-- When an existing destination `dst` may be replaced by `src`: an empty directory by a
    directory, anything else by anything that is not a directory. -/
def Replaceable (db : Db) (src dst : Edge) : Prop :=
  if dst.type = .directory then src.type = .directory ∧ Childless db dst.inode
  else src.type ≠ .directory ∧ (nodeAt db dst.inode).isSome

instance (db : Db) (src dst : Edge) : Decidable (Replaceable db src dst) := by
  unfold Replaceable
  infer_instance

/-- Whether removing the entry `dst` takes its node along: a directory always goes, anything else
    with its last link. -/
def lastLink (db : Db) (dst : Edge) : Bool :=
  dst.type = .directory ∨ ∃ n ∈ nodeAt db dst.inode, n.nlink ≤ 1

theorem replaceTx_ok (parentSrc : Ino) {delta : LinkDelta}
    (hkey : dst.key = (parentDst, nameDst))
    (h : (replaceTx now src dst parentDst nameDst).exec m db = .ok (delta, db')) :
    Replaceable db src dst ∧ delta.within [parentSrc, parentDst] ∧
      db' = replaced now dst (lastLink db dst) db := by
  obtain ⟨rfl, rfl⟩ := Prod.mk.inj hkey
  simp only [replaceTx, exec_bind, exec_require, andThen_ite_error] at h
  obtain ⟨hdir, hfile, h⟩ := h
  unfold Replaceable replaced lastLink
  by_cases hd : dst.type = .directory
  · simp only [hd, if_true, replaceDirTx, exec_bind, andThen_assoc, andThen_requireEmpty,
      exec_deleteNode, andThen_ok, exec_pure, exec_deleteEntry, Except.ok.injEq,
      Prod.mk.injEq] at h ⊢
    have hsrc : src.type = .directory := by
      by_contra hne
      exact hdir ⟨hd, hne⟩
    refine ⟨⟨hsrc, h.1⟩, ?_, h.2.2.symm⟩
    rw [← h.2.1]
    exact within_bump (within_nil _) (by simp) _
  · have hsrc : src.type ≠ .directory := fun hs => hfile ⟨hd, hs⟩
    simp only [hd, if_false, replaceFileTx, exec_bind, exec_changeLinks, andThen_assoc] at h ⊢
    cases hn : nodeAt db dst.inode with
    | none => simp [hn] at h
    | some n =>
      have hlast : n.nlink + -1 ≤ 0 ↔ n.nlink ≤ 1 := by omega
      simp only [hn, andThen_ok, exec_onlyIf, hlast] at h
      refine ⟨⟨hsrc, rfl⟩, ?_⟩
      split at h
      all_goals
        rename_i hl
        simp only [exec_bind, exec_deleteNode, exec_deleteRows, andThen_ok, exec_pure,
          exec_deleteEntry, Except.ok.injEq, Prod.mk.injEq] at h
        rw [← h.1, ← h.2]
        exact ⟨within_nil _, by simp [hl]⟩

/-- A destination that may be replaced is removed. -/
theorem exec_replaceTx (hok : Replaceable db src dst) :
    ∃ delta, (replaceTx now src dst dst.parent dst.name).exec m db
      = .ok (delta, replaced now dst (lastLink db dst) db) := by
  unfold Replaceable at hok
  by_cases hd : dst.type = .directory
  · rw [if_pos hd] at hok
    refine ⟨LinkDelta.bump dst.parent (-1) [], ?_⟩
    simp [replaceTx, replaceDirTx, replaced, hd, hok.1, hok.2, andThen_assoc]
  · rw [if_neg hd] at hok
    obtain ⟨a, ha⟩ := Option.isSome_iff_exists.mp hok.2
    have hlast : a.nlink + -1 ≤ 0 ↔ a.nlink ≤ 1 := by omega
    refine ⟨[], ?_⟩
    by_cases hl : a.nlink ≤ 1
    · simp [replaceTx, replaceFileTx, replaced, lastLink, hd, hok.1, ha, hlast, hl]
    · simp [replaceTx, replaceFileTx, replaced, lastLink, hd, hok.1, ha, hlast, hl]

/-- The tables after `moveTx` moved the entry `src`. -/
def moved (now : Time) (src : Edge) (parentSrc : Ino) (nameSrc : String) (parentDst : Ino)
    (nameDst : String) (delta : LinkDelta) (db : Db) : Db :=
  edit .changelog (inserted ⟨src.inode, .rename⟩) <|
    parentsTouched now parentSrc parentDst <| linksApplied delta <|
      setNode src.inode (fun a => { a with parent := parentDst, ctime := now }) <|
        addEntry ⟨parentDst, nameDst, src.inode, src.type⟩ <| dropEntry parentSrc nameSrc db

theorem moveTx_ok {delta : LinkDelta}
    (hdelta : delta.within [parentSrc, parentDst])
    (h : (moveTx now src parentSrc nameSrc parentDst nameDst reversed delta).exec m db
      = .ok (i, db')) :
    ∃ delta', LinkDelta.within [parentSrc, parentDst] delta' ∧
      db' = moved now src parentSrc nameSrc parentDst nameDst delta' db := by
  simp only [moveTx, exec_bind, exec_deleteEntry, andThen_ok, exec_insertEntryOrFail,
    andThen_error_ite, exec_updateNode, exec_applyDelta, exec_touchParents, exec_appendChangelog,
    exec_pure, Except.ok.injEq, Prod.mk.injEq] at h
  refine ⟨_, ?_, h.2.2.symm⟩
  have hin : LinkDelta.within [parentSrc, parentDst]
      (if src.type = .directory ∧ parentSrc ≠ parentDst then
        (delta.bump parentSrc (-1)).bump parentDst 1 else delta) := by
    grind
  intro x hx
  split at hx
  · exact hin x (List.mem_reverse.mp hx)
  · exact hin x hx

/-- A move to a free name goes through. -/
theorem exec_moveTx {delta : LinkDelta}
    (hfree : entryAt (dropEntry parentSrc nameSrc db) parentDst nameDst = none) :
    ∃ i delta', (moveTx now src parentSrc nameSrc parentDst nameDst reversed delta).exec m db
      = .ok (i, moved now src parentSrc nameSrc parentDst nameDst delta' db) := by
  simp only [moveTx, exec_bind, exec_deleteEntry, andThen_ok, exec_insertEntryOrFail, hfree,
    Option.isSome_none, Bool.false_eq_true, if_false, exec_updateNode, exec_applyDelta,
    exec_touchParents, exec_appendChangelog, exec_pure]
  exact ⟨_, _, rfl⟩

theorem head?_isEntry (p : Ino) (n : String) :
    ((db .edge).filter (isEntry p n)).head? = entryAt db p n := List.head?_filter

/-- **Rename, executed alone.**  The source is there; a destination that is another inode is
    replaced first; then the entry moves. -/
theorem renameTx_ok {noReplace : Bool}
    (h : (renameTx now parentSrc nameSrc parentDst nameDst noReplace reversed).exec m db
      = .ok (i, db')) :
    ∃ src delta, entryAt db parentSrc nameSrc = some src ∧
      LinkDelta.within [parentSrc, parentDst] delta ∧
      ((entryAt db parentDst nameDst = none ∧
          db' = moved now src parentSrc nameSrc parentDst nameDst delta db) ∨
        ∃ dst, entryAt db parentDst nameDst = some dst ∧ noReplace = false ∧
          ((dst.inode = src.inode ∧ db' = db) ∨
            (dst.inode ≠ src.inode ∧ Replaceable db src dst ∧
              db' = moved now src parentSrc nameSrc parentDst nameDst delta
                (replaced now dst (lastLink db dst) db)))) := by
  simp only [renameTx, exec_bind, exec_lookupEntry] at h
  cases hs : entryAt db parentSrc nameSrc with
  | none => simp [hs] at h
  | some src =>
    simp only [hs, andThen_ok, exec_selectRows, head?_isEntry] at h
    cases hd : entryAt db parentDst nameDst with
    | none =>
      rw [hd] at h
      obtain ⟨delta, hin, h⟩ := moveTx_ok (within_nil _) h
      exact ⟨src, delta, rfl, hin, .inl ⟨rfl, h⟩⟩
    | some dst =>
      simp only [hd, exec_bind, exec_require, andThen_ite_error] at h
      obtain ⟨hrep, h⟩ := h
      split at h
      case isTrue hsame =>
        simp only [exec_pure, Except.ok.injEq, Prod.mk.injEq] at h
        exact ⟨src, [], rfl, within_nil _,
          .inr ⟨dst, rfl, hrep, .inl ⟨hsame, h.2.symm⟩⟩⟩
      case isFalse hother =>
        rw [exec_bind, andThen_eq_ok] at h
        obtain ⟨delta, db₁, hreplace, hmove⟩ := h
        obtain ⟨hok, hin, rfl⟩ := replaceTx_ok parentSrc (entryAt_key hd) hreplace
        obtain ⟨delta', hin', rfl⟩ := moveTx_ok hin hmove
        exact ⟨src, delta', rfl, hin', .inr ⟨dst, rfl, hrep, .inr ⟨hother, hok, rfl⟩⟩⟩

/-- A rename over an entry of another inode that may be replaced goes through. -/
theorem renameTx_replaces (now : Time) (m : Memory) (reversed : Bool)
    (hs : entryAt db parentSrc nameSrc = some src)
    (hd : entryAt db parentDst nameDst = some dst) (hne : dst.inode ≠ src.inode)
    (hok : Replaceable db src dst) :
    ∃ i delta, (renameTx now parentSrc nameSrc parentDst nameDst false reversed).exec m db
      = .ok (i, moved now src parentSrc nameSrc parentDst nameDst delta
          (replaced now dst (lastLink db dst) db)) := by
  obtain ⟨rfl, rfl⟩ := Prod.mk.inj (entryAt_key hd)
  obtain ⟨delta, hreplace⟩ : ∃ delta, (replaceTx now src dst dst.parent dst.name).exec m db
      = .ok (delta, replaced now dst (lastLink db dst) db) := exec_replaceTx hok
  simp only [renameTx, exec_bind, exec_lookupEntry, hs, andThen_ok, exec_selectRows, head?_isEntry,
    hd, exec_require, if_true, if_neg hne, hreplace]
  -- the destination's name is free once it was replaced
  apply exec_moveTx
  rw [entryAt_dropEntry, replaced, entryAt_dropEntry]
  simp

/-- A rename to a free name goes through. -/
theorem renameTx_moves (now : Time) (m : Memory) (noReplace reversed : Bool)
    (hs : entryAt db parentSrc nameSrc = some src) (hd : entryAt db parentDst nameDst = none) :
    ∃ i db', (renameTx now parentSrc nameSrc parentDst nameDst noReplace reversed).exec m db
      = .ok (i, db') := by
  simp only [renameTx, exec_bind, exec_lookupEntry, hs, andThen_ok, exec_selectRows, head?_isEntry,
    hd]
  obtain ⟨i, delta, hmove⟩ : ∃ i delta, (moveTx now src parentSrc nameSrc parentDst nameDst reversed
      []).exec m db = .ok (i, moved now src parentSrc nameSrc parentDst nameDst delta db) :=
    exec_moveTx (by rw [entryAt_dropEntry, hd, ite_self])
  exact ⟨i, _, hmove⟩

/-- The tables after two entries were swapped. -/
def exchanged (now : Time) (src dst : Edge) (delta : LinkDelta) (db : Db) : Db :=
  edit .changelog (inserted ⟨src.inode, .rename⟩) <|
    parentsTouched now src.parent dst.parent <| linksApplied delta <|
      setNode dst.inode (fun a => { a with parent := src.parent, ctime := now }) <|
        setNode src.inode (fun a => { a with parent := dst.parent, ctime := now }) <|
          setEntry dst.parent dst.name src.inode src.type <|
            setEntry src.parent src.name dst.inode dst.type db

theorem exchangeDelta_within (src dst : Edge) :
    LinkDelta.within [src.parent, dst.parent] (exchangeDelta src dst src.parent dst.parent) := by
  unfold exchangeDelta
  grind

/-- **Exchange, executed alone.**  Both entries are there; two entries of one inode stay as they
    are, others are swapped. -/
theorem renameExchangeTx_ok (h : (renameExchangeTx now parentSrc nameSrc parentDst nameDst reversed).exec m db
      = .ok (i, db')) :
    ∃ src dst delta, entryAt db parentSrc nameSrc = some src ∧
      entryAt db parentDst nameDst = some dst ∧ LinkDelta.within [parentSrc, parentDst] delta ∧
      ((src.inode = dst.inode ∧ db' = db) ∨
        (src.inode ≠ dst.inode ∧ db' = exchanged now src dst delta db)) := by
  simp only [renameExchangeTx, exec_bind, exec_lookupEntry] at h
  cases hs : entryAt db parentSrc nameSrc with
  | none => simp [hs] at h
  | some src =>
    simp only [hs, andThen_ok] at h
    cases hd : entryAt db parentDst nameDst with
    | none => simp [hd] at h
    | some dst =>
      simp only [hd, andThen_ok] at h
      obtain ⟨rfl, rfl⟩ := Prod.mk.inj (entryAt_key hs)
      obtain ⟨rfl, rfl⟩ := Prod.mk.inj (entryAt_key hd)
      split at h
      case isTrue hsame =>
        simp only [exec_pure, Except.ok.injEq, Prod.mk.injEq] at h
        exact ⟨src, dst, [], rfl, rfl, within_nil _, .inl ⟨hsame, h.2.symm⟩⟩
      case isFalse hother =>
        simp only [exec_bind, exec_updateRows, andThen_ok, exec_updateNode, exec_onlyIf,
          exec_applyDelta] at h
        split at h
        all_goals
          simp only [andThen_ok, exec_touchParents, exec_appendChangelog, exec_pure,
            Except.ok.injEq, Prod.mk.injEq] at h
        · refine ⟨src, dst, _, rfl, rfl, ?_, .inr ⟨hother, h.2.symm⟩⟩
          intro x hx
          have hx' : x ∈ exchangeDelta src dst src.parent dst.parent := by
            split at hx
            · exact (List.mem_filter.mp (List.mem_reverse.mp hx)).1
            · exact (List.mem_filter.mp hx).1
          exact exchangeDelta_within src dst x hx'
        · exact ⟨src, dst, [], rfl, rfl, within_nil _, .inr ⟨hother, h.2.symm⟩⟩

/-- An exchange of two entries goes through. -/
theorem renameExchangeTx_swaps (now : Time) (m : Memory) (reversed : Bool)
    (hs : entryAt db parentSrc nameSrc = some src)
    (hd : entryAt db parentDst nameDst = some dst) :
    ∃ i db', (renameExchangeTx now parentSrc nameSrc parentDst nameDst reversed).exec m db
      = .ok (i, db') := by
  by_cases hsame : src.inode = dst.inode
  · simp only [renameExchangeTx, exec_bind, exec_lookupEntry, hs, hd, andThen_ok, if_pos hsame,
      exec_pure]
    exact ⟨_, _, rfl⟩
  · simp only [renameExchangeTx, exec_bind, exec_lookupEntry, hs, hd, andThen_ok, if_neg hsame,
      exec_updateRows, exec_updateNode, exec_onlyIf, exec_applyDelta]
    split
    all_goals
      simp only [andThen_ok, exec_touchParents, exec_appendChangelog, exec_pure]
      exact ⟨_, _, rfl⟩

end Rename

end MemoryLayer.Meta
