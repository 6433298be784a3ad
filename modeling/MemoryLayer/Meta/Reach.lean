import MemoryLayer.Meta.Refine

namespace MemoryLayer.Meta

open Sql Sql.Tx Namespace Forest

/-! # Following parents

Every directory has a parent in `node`, and following the parents leads to the root, as long as no
rename moves a directory to a place at or below itself; `Rename` does not check that.  The walk of
`scopeOf` (`meta/scope.go`) follows the same pointers without a bound.

- `ParentsExist`: the parents that a rename is given are directories.
- `NotBelowItself`: a rename moves no directory to a place at or below itself.
- `step_refines`: every call does one operation of the namespace.
- `scopeOf`: the walk, with fuel.
- `directories_reach_root`: what holds after every history, and that the condition is exact.
- `entries_counted`: entries and link counts after every history.
-/

/-- The inode is an existing directory. -/
def IsDirectory (db : Db) (i : Ino) : Prop := ∃ a ∈ nodeAt db i, a.type = .directory

instance (db : Db) (i : Ino) : Decidable (IsDirectory db i) :=
  inferInstanceAs (Decidable (∃ a ∈ nodeAt db i, a.type = .directory))

/-- `SELECT parent FROM node WHERE inode = i`. -/
def parentAt (db : Db) (i : Ino) : Option Ino := (nodeAt db i).map Attr.parent

variable {db db' : Db} {i : Ino}

theorem isDir_nsOf : (nsOf db).IsDir i ↔ IsDirectory db i := by
  unfold IsDir IsDirectory nsOf
  dsimp only
  cases hn : nodeAt db i with
  | none => simp
  | some a => simp [Attr.shape]

theorem up_nsOf (db : Db) : (nsOf db).up = parentAt db := by
  funext i
  simp only [up, nsOf, parentAt, Option.map_map]
  rfl

/-! ### Conditions of a call -/

/-- The parents that a rename is given are existing directories.  The other calls check this
    themselves. -/
def ParentsExist (e : Engine) : Call → Prop
  | .rename _ parentSrc _ parentDst _ _ _ =>
    IsDirectory e.db parentSrc ∧ IsDirectory e.db parentDst
  | _ => True

instance (e : Engine) : ∀ call, Decidable (ParentsExist e call)
  | .rename .. => by unfold ParentsExist; infer_instance
  | .create .. | .mkdir .. | .mknod .. | .symlink .. | .link .. | .unlink .. | .rmdir ..
  | .write .. | .setXAttr .. => .isTrue trivial

/-- The entry `src` can be moved: its new name is free, or its entry may be replaced. -/
def Moves (db : Db) (src : Edge) (parentDst : Ino) (nameDst : String) (noReplace : Bool) : Prop :=
  match entryAt db parentDst nameDst with
  | none => True
  | some dst => noReplace = false ∧ dst.inode ≠ src.inode ∧ Replaceable db src dst

/-- A rename moves no directory to a place at or below itself. -/
def NotBelowItself (e : Engine) : Call → Prop
  | .rename _ parentSrc nameSrc parentDst nameDst flags _ =>
    (flags &&& ~~~renameNoReplace = 0 → ∀ src ∈ entryAt e.db parentSrc nameSrc,
      src.type = .directory →
      Moves e.db src parentDst nameDst (flags &&& renameNoReplace ≠ 0) →
        ¬ Above (parentAt e.db) parentDst src.inode) ∧
    (flags &&& renameExchangeFlag ≠ 0 → flags &&& ~~~renameExchangeFlag = 0 →
      ∀ src ∈ entryAt e.db parentSrc nameSrc, ∀ dst ∈ entryAt e.db parentDst nameDst,
        src.inode ≠ dst.inode →
        (src.type = .directory → ¬ Above (parentAt e.db) parentDst src.inode) ∧
        (dst.type = .directory → ¬ Above (parentAt e.db) parentSrc dst.inode))
  | _ => True

/-! ### Every call does one operation of the namespace -/

/-- The tables change by an operation that applies, which is upward exactly when `safe`. -/
def Simulated (db db' : Db) (safe : Prop) : Prop :=
  ∃ op : Op, op.Ok (nsOf db) ∧ nsOf db' = op.apply (nsOf db) ∧ (safe ↔ op.Upward (nsOf db))

theorem Simulated.idle (h : nsOf db' = nsOf db) : Simulated db db' True :=
  ⟨.idle, trivial, h, Iff.rfl⟩

theorem Simulated.of_iff {p q : Prop} (h : Simulated db db' p) (hq : q ↔ p) :
    Simulated db db' q := by
  obtain ⟨op, hop, hns, hp⟩ := h
  exact ⟨op, hop, hns, hq.trans hp⟩

section Calls

variable {m : Memory} {now : Time} {parent inode parentSrc parentDst : Ino} {name nameSrc nameDst : String}
  {d : Edge} {reversed : Bool}
  (h : (nsOf db).Consistent) {a : Attr}

theorem Childless.parent_ne (hi : Childless db i) :
    ∀ d ∈ (nsOf db).entries, d.parent ≠ i := by
  rintro d hd rfl
  have hnone := List.find?_eq_none.mp (hi d.name) d hd
  simp [isEntry, Edge.key] at hnone

include h

/-- The link count of anything that is not a directory is the number of its entries. -/
theorem links_of_nlink (hd : d ∈ (nsOf db).entries) (hfile : d.type ≠ .directory)
    (ha : nodeAt db d.inode = some a) : ((nsOf db).links d.inode : Int) = a.nlink := by
  obtain ⟨s, hs, ht⟩ := h.typed d hd
  have hnode : (nsOf db).node d.inode = some a.shape := by simp [nsOf, ha]
  obtain rfl := Option.some.inj (hs.symm.trans hnode)
  have hfile' : a.type ≠ .directory := fun hdir => hfile (ht.symm.trans hdir)
  have hcount := h.count _ _ hnode
  simpa [expectedLinks, Attr.shape, hfile'] using hcount

/-- An entry can be removed, with its inode exactly when that is its last. -/
theorem removable_of_nlink (hd : entryAt db parent name = some d)
    (hfile : d.type ≠ .directory) (ha : nodeAt db d.inode = some a) {gone : Bool}
    (hgone : gone = true → a.nlink ≤ 1) : (nsOf db).Removable d gone := by
  have hentry : (nsOf db).entry d.key = some d := by rw [entryAt_key hd, nsOf_entry, hd]
  have hmem := entry_mem hentry
  refine ⟨hentry, ?_⟩
  cases gone with
  | true =>
    have hlinks := links_of_nlink h hmem hfile ha
    have hpos := links_pos hmem
    have hle := hgone rfl
    exact ⟨by omega, fun d' hd' => h.parent_ne_of_file hmem hfile hd'⟩
  | false => exact hfile

theorem removable_of_childless (hd : entryAt db parent name = some d)
    (hdir : d.type = .directory) (hempty : Childless db d.inode) :
    (nsOf db).Removable d true := by
  have hentry : (nsOf db).entry d.key = some d := by rw [entryAt_key hd, nsOf_entry, hd]
  exact ⟨hentry, h.links_dir (entry_mem hentry) hdir, hempty.parent_ne⟩

omit h in
theorem simulated_createTx {typ : FileType} {mode rdev : Nat} {target : String} {op : ChangeOp}
    {c : Context}
    (hx : (createTx now inode parent name typ mode rdev target op c).exec m db = .ok (a, db')) :
    Simulated db db' True := by
  obtain ⟨⟨pa, hpa, hdir⟩, hfree, hi, rfl⟩ := createTx_ok hx
  have hp : (nsOf db).IsDir parent := isDir_nsOf.mpr ⟨pa, hpa, hdir⟩
  exact ⟨.create inode parent name typ, ⟨hp, hfree, by simp [nsOf, hi]⟩, nsOf_created hp hfree hi,
    Iff.rfl⟩

omit h in
theorem simulated_linkTx
    (hx : (linkTx now inode parent name).exec m db = .ok (a, db')) : Simulated db db' True := by
  obtain ⟨cur, pa, hcur, hfile, hpa, hdir, hfree, rfl⟩ := linkTx_ok hx
  refine ⟨.link inode parent name cur.type, ⟨isDir_nsOf.mpr ⟨pa, hpa, hdir⟩, hfree, hfile,
    cur.shape, ?_, rfl⟩, nsOf_linked hfree, Iff.rfl⟩
  simp [nsOf, hcur]

theorem simulated_unlinkTx {s : Option Ino}
    (hx : (unlinkTx now parent name).exec m db = .ok (s, db')) : Simulated db db' True := by
  obtain ⟨d, a, hd, hfile, ha, -, rfl⟩ := unlinkTx_ok hx
  unfold unlinked
  by_cases hgone : a.nlink ≤ 1 ∧ ¬ m.openRefs d.inode > 0
  · refine ⟨.unlink d true, removable_of_nlink h hd hfile ha fun _ => hgone.1, ?_, Iff.rfl⟩
    rw [if_pos hgone, nsOf_edit (by decide) (by decide), nsOf_touch]
    exact nsOf_purged_detached hd
  · refine ⟨.unlink d false, removable_of_nlink h hd hfile ha (by simp), ?_, Iff.rfl⟩
    rw [if_neg hgone, nsOf_edit (by decide) (by decide), nsOf_touch]
    exact nsOf_detached hd

theorem simulated_rmdirTx {u : Unit} (hx : (rmdirTx now parent name).exec m db = .ok (u, db')) :
    Simulated db db' True := by
  obtain ⟨d, hd, hdir, hempty, rfl⟩ := rmdirTx_ok.mp hx
  have hrem := removable_of_childless h hd hdir hempty
  have hp := isDir_unlink h hrem
  rw [show d.parent = parent from congrArg Prod.fst (entryAt_key hd)] at hp
  exact ⟨.unlink d true, hrem, nsOf_removedDir hd hp, Iff.rfl⟩

theorem simulated_renameTx {noReplace : Bool} (hp : (nsOf db).IsDir parentDst)
    (hx : (renameTx now parentSrc nameSrc parentDst nameDst noReplace reversed).exec m db
      = .ok (i, db')) :
    Simulated db db' (∀ src ∈ entryAt db parentSrc nameSrc, src.type = .directory →
      Moves db src parentDst nameDst noReplace → ¬ Above (parentAt db) parentDst src.inode) := by
  obtain ⟨src, delta, hs, hdelta, hcases⟩ := renameTx_ok hx
  have hsrc : (nsOf db).entry src.key = some src := by rw [entryAt_key hs, nsOf_entry, hs]
  have hsp := h.parents src (entry_mem hsrc)
  obtain ⟨rfl, rfl⟩ := Prod.mk.inj (entryAt_key hs)
  unfold Moves
  rw [← up_nsOf, hs]
  rcases hcases with ⟨hd, rfl⟩ | ⟨dst, hd, hrep, ⟨hsame, rfl⟩ | ⟨hne, hok, rfl⟩⟩
  · refine ⟨.move src parentDst nameDst, ⟨hsrc, hd, hp⟩, nsOf_moved hdelta hsp hp hd, ?_⟩
    simp [hd, Op.Upward]
  · refine ⟨.idle, trivial, rfl, iff_of_true ?_ trivial⟩
    simp [hd, hsame]
  · have hdst : (nsOf db).entry dst.key = some dst := by rw [entryAt_key hd, nsOf_entry, hd]
    obtain ⟨rfl, rfl⟩ := Prod.mk.inj (entryAt_key hd)
    -- the destination can go as far as `replaced` takes it
    have hrem : (nsOf db).Removable dst (lastLink db dst) := by
      unfold Replaceable at hok
      split at hok
      case isTrue hdir =>
        rw [show lastLink db dst = true by simp [lastLink, hdir]]
        exact removable_of_childless h hd hdir hok.2
      case isFalse hfile =>
        obtain ⟨a, ha⟩ := Option.isSome_iff_exists.mp hok.2
        refine removable_of_nlink h hd hfile ha fun hlast => ?_
        simpa [lastLink, hfile, ha] using hlast
    have hgone : dst.type = .directory → lastLink db dst = true := fun hdir => by
      simp [lastLink, hdir]
    have hns := nsOf_replaced now db hgone
    have hkey := key_ne hsrc hdst hne.symm
    have hcons := unlink_consistent h hrem
    have hsrc' : ((nsOf db).unlink dst (lastLink db dst)).entry src.key = some src := by
      rw [entry_unlink, if_neg hkey]
      exact hsrc
    have hfree : entryAt (replaced now dst (lastLink db dst) db) dst.parent dst.name = none := by
      rw [← nsOf_entry, hns, entry_unlink]
      exact if_pos rfl
    refine ⟨.replace src dst (lastLink db dst), ⟨hsrc, hrem, hne.symm⟩, ?_, ?_⟩
    · rw [nsOf_moved hdelta ?_ ?_ hfree, hns]
      · rfl
      · rw [hns]
        exact hcons.parents src (entry_mem hsrc')
      · rw [hns]
        exact isDir_unlink h hrem
    · simp [hd, hrep, hne, hok, Op.Upward]

theorem simulated_renameExchangeTx
   
    (hx : (renameExchangeTx now parentSrc nameSrc parentDst nameDst reversed).exec m db
      = .ok (i, db')) :
    Simulated db db' (∀ src ∈ entryAt db parentSrc nameSrc, ∀ dst ∈ entryAt db parentDst nameDst,
      src.inode ≠ dst.inode →
        (src.type = .directory → ¬ Above (parentAt db) parentDst src.inode) ∧
        (dst.type = .directory → ¬ Above (parentAt db) parentSrc dst.inode)) := by
  obtain ⟨src, dst, delta, hs, hd, hdelta, hcases⟩ := renameExchangeTx_ok hx
  have hsrc : (nsOf db).entry src.key = some src := by rw [entryAt_key hs, nsOf_entry, hs]
  have hdst : (nsOf db).entry dst.key = some dst := by rw [entryAt_key hd, nsOf_entry, hd]
  obtain ⟨rfl, rfl⟩ := Prod.mk.inj (entryAt_key hs)
  obtain ⟨rfl, rfl⟩ := Prod.mk.inj (entryAt_key hd)
  rw [← up_nsOf, hs, hd]
  rcases hcases with ⟨hsame, rfl⟩ | ⟨hne, rfl⟩
  · refine ⟨.idle, trivial, rfl, iff_of_true ?_ trivial⟩
    simp [hsame]
  · refine ⟨.exchange src dst, ⟨hsrc, hdst, hne⟩, ?_, ?_⟩
    · exact nsOf_exchanged hdelta (h.parents src (entry_mem hsrc)) (h.parents dst (entry_mem hdst))
    · simp [hne, Op.Upward]

end Calls

/-! ### The conditions and the flags -/

theorem no_exchange_flag {flags : UInt32} (h : flags &&& ~~~renameNoReplace = 0) :
    flags &&& renameExchangeFlag = 0 := by
  have hmask : renameExchangeFlag = ~~~renameNoReplace &&& renameExchangeFlag := by decide
  rw [hmask, ← UInt32.and_assoc, h, UInt32.zero_and]

theorem simulated_rename {e : Engine} (h : (nsOf e.db).Consistent) {now : Time} {parentSrc : Ino}
    {nameSrc : String} {parentDst : Ino} {nameDst : String} {flags : UInt32} {reversed : Bool}
    (hp : (nsOf e.db).IsDir parentDst) :
    Simulated e.db (e.rename now parentSrc nameSrc parentDst nameDst flags reversed).2.db
      (NotBelowItself e (.rename now parentSrc nameSrc parentDst nameDst flags reversed)) := by
  unfold Engine.rename NotBelowItself
  by_cases hx : flags &&& renameExchangeFlag ≠ 0
  · have hmove : ¬ flags &&& ~~~renameNoReplace = 0 := fun hm => hx (no_exchange_flag hm)
    rw [if_pos hx]
    by_cases hbad : flags &&& ~~~renameExchangeFlag ≠ 0
    · rw [if_pos hbad]
      refine (Simulated.idle rfl).of_iff (iff_of_true ⟨?_, ?_⟩ trivial)
      · exact fun hm => absurd hm hmove
      · exact fun _ hm => absurd hm hbad
    · rw [if_neg hbad]
      refine Simulated.of_iff ?_ ⟨fun hall => hall.2 hx (not_not.mp hbad),
        fun hall => ⟨fun hm => absurd hm hmove, fun _ _ => hall⟩⟩
      rcases e.withTx_eq (renameExchangeTx now parentSrc nameSrc parentDst nameDst reversed)
        with ⟨err, hexec, heq⟩ | ⟨i, db', hexec, heq⟩
      · -- an exchange fails only without one of its entries
        rw [heq]
        refine (Simulated.idle rfl).of_iff (iff_of_true (fun src hs dst hd => ?_) trivial)
        obtain ⟨i, db', hok⟩ := renameExchangeTx_swaps now e.memory reversed hs hd
        rw [hok] at hexec
        cases hexec
      · rw [heq]
        exact simulated_renameExchangeTx h hexec
  · rw [if_neg hx]
    by_cases hbad : flags &&& ~~~renameNoReplace ≠ 0
    · rw [if_pos hbad]
      refine (Simulated.idle rfl).of_iff (iff_of_true ⟨?_, ?_⟩ trivial)
      · exact fun hm => absurd hm hbad
      · exact fun hm => absurd hm hx
    · rw [if_neg hbad]
      refine Simulated.of_iff ?_ ⟨fun hall => hall.1 (not_not.mp hbad),
        fun hall => ⟨fun _ => hall, fun hm => absurd hm hx⟩⟩
      rcases e.withTx_eq (renameTx now parentSrc nameSrc parentDst nameDst
        (flags &&& renameNoReplace ≠ 0) reversed) with ⟨err, hexec, heq⟩ | ⟨i, db', hexec, heq⟩
      · -- a rename fails only without its source, or when it may not replace its destination
        rw [heq]
        refine (Simulated.idle rfl).of_iff (iff_of_true (fun src hs _ hmoves => ?_) trivial)
        unfold Moves at hmoves
        cases hd : entryAt e.db parentDst nameDst with
        | none =>
          obtain ⟨i, db', hok⟩ := renameTx_moves now e.memory
            (flags &&& renameNoReplace ≠ 0) reversed hs hd
          rw [hok] at hexec
          cases hexec
        | some dst =>
          rw [hd] at hmoves
          obtain ⟨i, delta, hok⟩ :=
            renameTx_replaces now e.memory reversed hs hd hmoves.2.1 hmoves.2.2
          rw [hmoves.1, hok] at hexec
          cases hexec
      · rw [heq]
        exact simulated_renameTx h hp hexec

variable {e : Engine}

/-- A transaction whose successful executions are simulated is simulated. -/
theorem simulated_withTx {α : Type} {tx : MetaTx α}
    (htx : ∀ a db', tx.exec e.memory e.db = .ok (a, db') → Simulated e.db db' True) :
    Simulated e.db (e.withTx tx).2.db True := by
  rcases e.withTx_eq tx with ⟨err, -, heq⟩ | ⟨a, db', hexec, heq⟩
  · rw [heq]
    exact Simulated.idle rfl
  · rw [heq]
    exact htx a db' hexec

theorem simulated_create {now : Time} {parent : Ino} {name : String} {typ : FileType}
    {mode rdev : Nat} {target : String} {op : ChangeOp} {c : Context} :
    Simulated e.db (e.create now parent name typ mode rdev target op c).2.db True := by
  rcases e.create_db now parent name typ mode rdev target op c with hx | ⟨m, a, hx⟩
  · exact Simulated.idle (by rw [hx])
  · exact simulated_createTx hx

/-- **Every call does one operation of the namespace**, which moves a directory below itself
    exactly when the call does. -/
theorem step_refines (h : (nsOf e.db).Consistent) (call : Call)
    (hp : ParentsExist e call) : Simulated e.db (e.step call).db (NotBelowItself e call) := by
  cases call with
  | create => exact simulated_create
  | mkdir => exact simulated_create
  | mknod => exact simulated_create
  | symlink => exact simulated_create
  | link => exact simulated_withTx fun _ _ hx => simulated_linkTx hx
  | unlink now parent name =>
    rcases e.unlink_db now parent name with hx | ⟨s, hx⟩
    · exact Simulated.idle (by rw [Engine.step, hx])
    · exact simulated_unlinkTx h hx
  | rmdir => exact simulated_withTx fun _ _ hx => simulated_rmdirTx h hx
  | rename => exact simulated_rename h (isDir_nsOf.mpr hp.2)
  | write now r =>
    refine simulated_withTx fun _ _ hx => ?_
    obtain ⟨cur, -, -, -, rfl⟩ := writeTx_ok hx
    refine Simulated.idle ?_
    split
    · rfl
    · rw [written, nsOf_edit (by decide) (by decide), nsOf_setNode_same,
        nsOf_edit (by decide) (by decide)]
      exact fun _ => rfl
  | setXAttr inode name value create replace =>
    refine simulated_withTx fun _ _ hx => ?_
    obtain ⟨-, f, rfl, -⟩ := setXAttrTx_ok hx
    exact Simulated.idle (nsOf_edit (by decide) (by decide) f)

/-! ### The scope of an inode -/

/-- The memoized scope keys. -/
abbrev ScopeCache := Ino → Option String

/-- The scope key of the root. -/
def rootScopeKey : String := "root"

/-- The scope key of everything below a first-level directory. -/
def scopeKeyForInode (first : Ino) : String := "ino:" ++ toString first

/-- The walk to the first-level directory above `inode`.  Answers with the key, and whether it is
    to be memoized. -/
def scopeWalk (db : Db) (inode : Ino) : Nat → Ino → Option (String × Bool)
  | 0, _ => none
  | fuel + 1, cur =>
    match parentAt db cur with
    | none => some (scopeKeyForInode inode, false)
    | some parent =>
      if parent = rootInode ∨ parent = cur then some (scopeKeyForInode cur, true)
      else scopeWalk db inode fuel parent

/-- The scope key of an inode. -/
def scopeOf (cache : ScopeCache) (db : Db) (fuel : Nat) (inode : Ino) :
    Option (String × ScopeCache) :=
  if inode = rootInode then some (rootScopeKey, cache)
  else match cache inode with
    | some v => some (v, cache)
    | none => (scopeWalk db inode fuel inode).map fun r =>
        (r.1, if r.2 then Function.update cache inode (some r.1) else cache)

/-- The walk ends where following parents ends. -/
theorem scopeWalk_ends (hroot : parentAt db rootInode = some rootInode) (inode : Ino)
    {cur : Ino} (h : Grounded (parentAt db) rootInode cur) :
    ∃ enough r, ∀ fuel ≥ enough, scopeWalk db inode fuel cur = some r := by
  induction h with
  | root =>
    refine ⟨1, (scopeKeyForInode rootInode, true), fun fuel hfuel => ?_⟩
    obtain ⟨f, rfl⟩ := Nat.exists_eq_add_of_le' hfuel
    simp [scopeWalk, hroot]
  | @missing x hx =>
    refine ⟨1, (scopeKeyForInode inode, false), fun fuel hfuel => ?_⟩
    obtain ⟨f, rfl⟩ := Nat.exists_eq_add_of_le' hfuel
    simp [scopeWalk, hx]
  | @step x p hx _ ih =>
    obtain ⟨enough, r, hr⟩ := ih
    by_cases hstop : p = rootInode ∨ p = x
    · refine ⟨1, (scopeKeyForInode x, true), fun fuel hfuel => ?_⟩
      obtain ⟨f, rfl⟩ := Nat.exists_eq_add_of_le' hfuel
      simp [scopeWalk, hx, hstop]
    · refine ⟨enough + 1, r, fun fuel hfuel => ?_⟩
      obtain ⟨f, rfl⟩ := Nat.exists_eq_add_of_le' hfuel
      rw [show f + (enough + 1) = (f + enough) + 1 by omega, scopeWalk, hx]
      simp only [hstop, if_false]
      exact hr _ (by omega)

theorem scopeOf_ends (h : (nsOf db).Tree) (cache : ScopeCache) (inode : Ino) :
    ∃ enough r, ∀ fuel ≥ enough, scopeOf cache db fuel inode = some r := by
  have hroot : parentAt db rootInode = some rootInode := up_nsOf db ▸ h.consistent.up_root
  obtain ⟨enough, r, hr⟩ := scopeWalk_ends hroot inode (up_nsOf db ▸ h.grounded inode)
  unfold scopeOf
  by_cases hi : inode = rootInode
  · exact ⟨0, (rootScopeKey, cache), fun _ _ => if_pos hi⟩
  · simp only [if_neg hi]
    cases hc : cache inode with
    | some v => exact ⟨0, (v, cache), fun _ _ => rfl⟩
    | none => exact ⟨enough, _, fun fuel hfuel => by rw [hr fuel hfuel]; rfl⟩

/-! ### Histories -/

theorem tree_bootstrap (now : Time) (inodePrefix : Nat) :
    (nsOf (Engine.bootstrap now inodePrefix).db).Tree := by
  have hnode : ∀ i, nodeAt (Engine.bootstrap now inodePrefix).db i
      = if i = rootInode then some (Engine.rootNode now).attr else none := by
    intro i
    by_cases hi : i = rootInode
    · subst hi
      rfl
    · simp [nodeAt, Engine.bootstrap, Engine.bootstrapDb, isNode, Engine.rootNode, hi, Ne.symm hi]
  have hedges : (nsOf (Engine.bootstrap now inodePrefix).db).entries = [] := rfl
  refine ⟨⟨?_, ?_, ?_, ?_, ?_, ?_⟩, fun i => ?_⟩
  · rw [hedges]
    exact List.nodup_nil
  · exact ⟨(Engine.rootNode now).attr.shape, by simp [nsOf, hnode], rfl, rfl⟩
  · simp [hedges]
  · simp [hedges]
  · intro i s hs
    have hlinks : (nsOf (Engine.bootstrap now inodePrefix).db).links i = 0 := rfl
    obtain ⟨a, ha, rfl⟩ := Option.map_eq_some_iff.mp hs
    rw [hnode] at ha
    split at ha
    case isTrue hi =>
      obtain rfl := Option.some.inj ha
      rw [hlinks]
      simp [hi, expectedLinks, Attr.shape, Engine.rootNode]
    case isFalse => cases ha
  · simp [hedges]
  · by_cases hi : i = rootInode
    · rw [hi]
      exact .root
    · exact .missing (by simp [up, nsOf, hnode, hi])

/-- Following parents leads from every existing directory to the root, in finitely many steps. -/
def ReachRoot (db : Db) : Prop :=
  ∀ i, IsDirectory db i → ∃ k, follow (parentAt db) k i = some rootInode

theorem reachRoot_iff : ReachRoot db ↔ (nsOf db).Reaches := by
  unfold ReachRoot Reaches
  rw [up_nsOf]
  exact forall_congr' fun i => by rw [isDir_nsOf, above_iff_follow]

/-- **One call.**  From a tree, a call leaves one exactly when it moves no directory below
    itself; otherwise it cuts a directory off. -/
theorem tree_step (h : (nsOf e.db).Tree) {call : Call} (hp : ParentsExist e call) :
    (NotBelowItself e call → (nsOf (e.step call).db).Tree) ∧
      (ReachRoot (e.step call).db → NotBelowItself e call) := by
  obtain ⟨op, hop, hns, hup⟩ := step_refines h.consistent call hp
  refine ⟨fun hsafe => ?_, fun hreach => ?_⟩
  · rw [hns]
    exact h.apply hop (hup.mp hsafe)
  · by_contra hsafe
    rw [reachRoot_iff, hns] at hreach
    exact h.not_reaches hop (fun hop' => hsafe (hup.mpr hop')) hreach

/-- **Every history.**  After every history of calls whose parents exist and which move no
    directory below itself, every directory leads to the root and the walk of `scopeOf` ends.  The
    condition is exact: the next call keeps every directory attached exactly when it meets it. -/
theorem directories_reach_root (now : Time) (inodePrefix : Nat) (calls : List Call)
    (hcalls : Runs.Guarded Engine.step (fun e call => ParentsExist e call ∧ NotBelowItself e call)
      (Engine.bootstrap now inodePrefix) calls) :
    ReachRoot (Runs.run Engine.step (Engine.bootstrap now inodePrefix) calls).db ∧
      (∀ cache inode, ∃ enough r, ∀ fuel ≥ enough, scopeOf cache
        (Runs.run Engine.step (Engine.bootstrap now inodePrefix) calls).db fuel inode = some r) ∧
      ∀ call, ParentsExist (Runs.run Engine.step (Engine.bootstrap now inodePrefix) calls) call →
        (ReachRoot (Runs.run Engine.step (Engine.bootstrap now inodePrefix) (calls ++ [call])).db ↔
          NotBelowItself (Runs.run Engine.step (Engine.bootstrap now inodePrefix) calls) call) := by
  have htree : (nsOf (Runs.run Engine.step (Engine.bootstrap now inodePrefix) calls).db).Tree :=
    Runs.invariant_of_guarded (fun e => (nsOf e.db).Tree)
      (fun e call he hok => (tree_step he hok.1).1 hok.2) (tree_bootstrap now inodePrefix) hcalls
  refine ⟨reachRoot_iff.mpr htree.reaches, scopeOf_ends htree, fun call hp => ?_⟩
  rw [Runs.run_append, Runs.run_cons, Runs.run_nil]
  refine ⟨(tree_step htree hp).2, fun hsafe => ?_⟩
  exact reachRoot_iff.mpr ((tree_step htree hp).1 hsafe).reaches

/-- A directory is moved into its sibling. -/
theorem reach_root_move_sibling :
    ReachRoot (Runs.run Engine.step (Engine.bootstrap ⟨0, 0⟩ 0)
      [.mkdir ⟨0, 0⟩ 1 "a" 0 ⟨0, 0⟩, .mkdir ⟨0, 0⟩ 1 "b" 0 ⟨0, 0⟩,
        .rename ⟨0, 0⟩ 1 "b" 2 "b" 0 false]).db := by
  refine (directories_reach_root ⟨0, 0⟩ 0 [.mkdir ⟨0, 0⟩ 1 "a" 0 ⟨0, 0⟩,
    .mkdir ⟨0, 0⟩ 1 "b" 0 ⟨0, 0⟩, .rename ⟨0, 0⟩ 1 "b" 2 "b" 0 false] ⟨⟨trivial, trivial⟩,
    ⟨trivial, trivial⟩, ⟨by decide, ?_, fun hx => absurd rfl hx⟩, trivial⟩).1
  intro _ src hs _ _ habove
  have hsrc : entryAt (Runs.run Engine.step (Engine.bootstrap ⟨0, 0⟩ 0)
      [.mkdir ⟨0, 0⟩ 1 "a" 0 ⟨0, 0⟩, .mkdir ⟨0, 0⟩ 1 "b" 0 ⟨0, 0⟩]).db 1 "b"
      = some ⟨1, "b", 3, .directory⟩ := by decide
  obtain rfl := Option.some.inj (hsrc.symm.trans hs)
  -- above directory 2 there are only itself and the root
  have hup : ∀ z ∈ [1, 2], ∀ w ∈ parentAt (Runs.run Engine.step (Engine.bootstrap ⟨0, 0⟩ 0)
      [.mkdir ⟨0, 0⟩ 1 "a" 0 ⟨0, 0⟩, .mkdir ⟨0, 0⟩ 1 "b" 0 ⟨0, 0⟩]).db z, w ∈ [1, 2] := by
    decide
  have hclosed := habove.closed (C := (· ∈ [1, 2])) (fun z w hz hw => hup z hz w hw) (by decide)
  revert hclosed
  decide

/-- A directory is moved into its own subdirectory: the two become each other's parent. -/
theorem rename_below_itself :
    ParentsExist (Runs.run Engine.step (Engine.bootstrap ⟨0, 0⟩ 0)
        [.mkdir ⟨0, 0⟩ 1 "a" 0 ⟨0, 0⟩, .mkdir ⟨0, 0⟩ 2 "b" 0 ⟨0, 0⟩])
        (.rename ⟨0, 0⟩ 1 "a" 3 "a" 0 false) ∧
      ¬ ReachRoot (Runs.run Engine.step (Engine.bootstrap ⟨0, 0⟩ 0)
        [.mkdir ⟨0, 0⟩ 1 "a" 0 ⟨0, 0⟩, .mkdir ⟨0, 0⟩ 2 "b" 0 ⟨0, 0⟩,
          .rename ⟨0, 0⟩ 1 "a" 3 "a" 0 false]).db := by
  refine ⟨by decide, fun h => ?_⟩
  obtain ⟨k, hk⟩ := h 2 (by decide)
  -- directory 2 and its subdirectory 3 are each other's parent
  have habove := above_iff_follow.mpr ⟨k, hk⟩
  have hup : ∀ z ∈ [2, 3], ∀ w ∈ parentAt (Runs.run Engine.step (Engine.bootstrap ⟨0, 0⟩ 0)
      [.mkdir ⟨0, 0⟩ 1 "a" 0 ⟨0, 0⟩, .mkdir ⟨0, 0⟩ 2 "b" 0 ⟨0, 0⟩,
        .rename ⟨0, 0⟩ 1 "a" 3 "a" 0 false]).db z, w ∈ [2, 3] := by
    decide
  have hclosed := habove.closed (C := (· ∈ [2, 3])) (fun z w hz hw => hup z hz w hw) (by decide)
  revert hclosed
  decide

/-- **Entries and link counts.**  After every history of calls whose parents exist, no two entries
    share parent and name, and each leads from a directory to an inode of its type, for a directory
    from its parent.  A directory other than the root has one entry, and every other inode has as
    many as its link count says. -/
theorem entries_counted (now : Time) (inodePrefix : Nat) (calls : List Call)
    (hcalls : Runs.Guarded Engine.step ParentsExist (Engine.bootstrap now inodePrefix) calls) :
    let db := (Runs.run Engine.step (Engine.bootstrap now inodePrefix) calls).db
    ((db .edge).map Edge.key).Nodup ∧
      (∀ d ∈ db .edge, IsDirectory db d.parent ∧ ∃ a ∈ nodeAt db d.inode,
        a.type = d.type ∧ (d.type = .directory → a.parent = d.parent)) ∧
      ∀ i, ∀ a ∈ nodeAt db i, ((db .edge).countP fun d => d.inode = i : Nat)
        = if a.type = .directory then (if i = rootInode then 0 else 1) else a.nlink := by
  intro db
  have h : (nsOf db).Consistent := by
    refine Runs.invariant_of_guarded (fun e => (nsOf e.db).Consistent) (fun e call he hp => ?_)
      (tree_bootstrap now inodePrefix).consistent hcalls
    obtain ⟨op, hop, hns, -⟩ := step_refines he call hp
    rw [hns]
    exact he.apply hop
  refine ⟨h.keys, fun d hd => ⟨isDir_nsOf.mp (h.parents d hd), ?_⟩, fun i a ha => ?_⟩
  · obtain ⟨s, hs, htype⟩ := h.typed d hd
    obtain ⟨a, ha, rfl⟩ := Option.map_eq_some_iff.mp hs
    refine ⟨a, ha, htype, fun hdir => ?_⟩
    have hup := h.home d hd hdir
    rw [up_nsOf, parentAt, ha] at hup
    exact Option.some.inj hup
  · have hcount := h.count i a.shape (congrArg (Option.map Attr.shape) ha)
    simp only [expectedLinks, Attr.shape] at hcount
    refine hcount.trans ?_
    split
    · rfl
    · rfl

/-- A file gets a second name, and a directory is moved over another. -/
theorem entries_counted_link :
    ((Runs.run Engine.step (Engine.bootstrap ⟨0, 0⟩ 0) [.create ⟨0, 0⟩ 1 "a" 0 ⟨0, 0⟩,
      .mkdir ⟨0, 0⟩ 1 "d" 0 ⟨0, 0⟩, .link ⟨0, 0⟩ 2 3 "b", .mkdir ⟨0, 0⟩ 1 "e" 0 ⟨0, 0⟩,
      .rename ⟨0, 0⟩ 1 "d" 1 "e" 0 false]).db .edge |>.map Edge.key).Nodup :=
  (entries_counted ⟨0, 0⟩ 0 _ (by decide)).1

end MemoryLayer.Meta
