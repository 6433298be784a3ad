import MemoryLayer.Meta.Ops

namespace MemoryLayer.Meta

open Sql Sql.Tx Server Runs

/-! # File locks

The advisory locks of `meta/locks.go`: whole-file locks in the table `flock`, byte ranges in the
table `plock`.  An owner is a session and a number in it.  A lock is taken by reading the rows of the
other owners and then writing one's own row.

- `flockTx`, `setlkTx`: the transaction bodies; `plockConflict`, `splitRange`: the range rules.
- `LockCall`: the calls on locks.
- `LocksExclude`: no two owners have locks of which one excludes the other.
- `locks_exclude`: it holds over every run whose commits are validated.
- `two_exclusive_locks`: two owners that read before either one writes both get an exclusive lock.
-/

/-! ### The transaction bodies -/

/-- The row of an owner in `flock`. -/
def isFlockOf (inode : Ino) (sid owner : Nat) (r : Flock) : Bool :=
  r.inode = inode ∧ r.sid = sid ∧ r.owner = owner

/-- A whole-file lock that is in the way of a request. -/
def flockConflict (sid owner : Nat) (typ : FlockType) (r : Flock) : Bool :=
  ¬ (r.sid = sid ∧ r.owner = owner) ∧ (typ = .exclusive ∨ r.ltype = .exclusive)

/-- Take or release a whole-file lock.  An owner's own lock is replaced freely. -/
def flockTx (inode : Ino) (sid owner : Nat) (typ : FlockType) : MetaTx Unit :=
  if typ = .unlock then do
    let _ ← deleteRows Table.flock (isFlockOf inode sid owner)
  else do
    let rows ← selectRows Table.flock fun r => r.inode = inode
    require (rows.any (flockConflict sid owner typ) = false) .eagain
    upsertRow Table.flock ⟨inode, sid, owner, typ⟩ fun r => { r with ltype := typ }

/-- The row of an owner in `plock`. -/
def isPlockOf (inode : Ino) (sid owner : Nat) (r : Plock) : Bool :=
  r.inode = inode ∧ r.sid = sid ∧ r.owner = owner

/-- The byte ranges of every other owner. -/
def loadOtherPlocks (inode : Ino) (sid owner : Nat) : MetaTx (List PlockRec) := do
  let rows ← selectRows Table.plock fun r => r.inode = inode
  pure ((rows.filter fun r => ¬ (r.sid = sid ∧ r.owner = owner)).flatMap Plock.records)

/-- The byte ranges of an owner. -/
def loadMyPlock (inode : Ino) (sid owner : Nat) : MetaTx (List PlockRec) := do
  let rows ← selectRows Table.plock (isPlockOf inode sid owner)
  match rows.head? with
  | none => pure []
  | some r => pure r.records

/-- A range ends before `[start, last]` or starts after it. -/
def PlockRec.disjoint (r : PlockRec) (start last : Nat) : Bool := r.last < start ∨ r.start > last

/-- The first range of others that is in the way of a request: a write request conflicts with every
    overlap, a read request with an overlapping write. -/
def plockConflict (others : List PlockRec) (typ : PlockType) (start last : Nat) : Option PlockRec :=
  others.find? fun r => !r.disjoint start last && (typ = .wrlck || r.typ = .wrlck)

/-- What is left of a range when `[start, last]` is cut out. -/
def PlockRec.cut (start last : Nat) (r : PlockRec) : List PlockRec :=
  if r.disjoint start last then [r]
  else
    (if r.start < start then [{ r with last := start - 1 }] else []) ++
      (if r.last > last then [{ r with start := last + 1 }] else [])

/-- Apply a request to the ranges of its owner: overlaps are trimmed, and a lock is added. -/
def splitRange (recs : List PlockRec) (typ : PlockType) (start last pid : Nat) : List PlockRec :=
  recs.flatMap (PlockRec.cut start last) ++ (if typ = .unlck then [] else [⟨typ, start, last, pid⟩])

/-- Take or release a byte range. -/
def setlkTx (inode : Ino) (sid owner : Nat) (typ : PlockType) (start last pid : Nat) :
    MetaTx Unit := do
  onlyIf (typ ≠ .unlck) do
    let others ← loadOtherPlocks inode sid owner
    require (plockConflict others typ start last = none) .eagain
  let mine ← loadMyPlock inode sid owner
  let mine := splitRange mine typ start last pid
  if mine = [] then do
    let _ ← deleteRows Table.plock (isPlockOf inode sid owner)
  else upsertRow Table.plock ⟨inode, sid, owner, mine⟩ fun r => { r with records := mine }

/-- Drop every lock of the sessions in `p`. -/
def clearLocksWhere (p : Nat → Bool) : MetaTx Unit := do
  let _ ← deleteRows Table.flock fun r => p r.sid
  let _ ← deleteRows Table.plock fun r => p r.sid

/-- Drop every lock. -/
def clearAllLocksTx : MetaTx Unit := clearLocksWhere fun _ => true

/-- Drop every lock of a session. -/
def clearLocksForSidTx (sid : Nat) : MetaTx Unit := clearLocksWhere fun s => s = sid

/-- Drop the byte ranges of an owner; owner 0 has none. -/
def clearPlocksTx (inode : Ino) (sid owner : Nat) : MetaTx Unit :=
  onlyIf (owner ≠ 0) do
    let _ ← deleteRows Table.plock (isPlockOf inode sid owner)

/-! ### Calls -/

/-- The calls on locks. -/
inductive LockCall where
  | flock (inode : Ino) (sid owner : Nat) (typ : FlockType)
  | setlk (inode : Ino) (sid owner : Nat) (typ : PlockType) (start last pid : Nat)
  | clearAllLocks
  | clearLocksForSid (sid : Nat)
  | clearPlocks (inode : Ino) (sid owner : Nat)
  deriving DecidableEq, Repr

/-- The transaction of a call. -/
def LockCall.body : LockCall → MetaTx Unit
  | .flock inode sid owner typ => flockTx inode sid owner typ
  | .setlk inode sid owner typ start last pid => setlkTx inode sid owner typ start last pid
  | .clearAllLocks => clearAllLocksTx
  | .clearLocksForSid sid => clearLocksForSidTx sid
  | .clearPlocks inode sid owner => clearPlocksTx inode sid owner

/-- The database with the sessions of all mounts. -/
abbrev LockServer := Server Row Errno Memory Unit Nat LockCall RowKey

/-- One step of a session on the database. -/
abbrev LockServer.step (σ : LockServer) (ev : Nat × SessionEvent Memory LockCall) : LockServer :=
  Server.step LockCall.body σ ev

/-- The lock tables. -/
def lockTables (db : Db) : List Flock × List Plock := (db .flock, db .plock)

/-! ### Exclusion -/

/-- Two whole-file locks of different owners of which one excludes the other. -/
def Flock.clashes (f f' : Flock) : Bool :=
  f.inode = f'.inode ∧ ¬ (f.sid = f'.sid ∧ f.owner = f'.owner) ∧
    (f.ltype = .exclusive ∨ f'.ltype = .exclusive)

/-- Two overlapping byte ranges of which one is a write lock. -/
def PlockRec.clashes (r r' : PlockRec) : Bool :=
  (r.start ≤ r'.last ∧ r'.start ≤ r.last) ∧ (r.typ = .wrlck ∨ r'.typ = .wrlck)

/-- Two rows of different owners with ranges of which one excludes the other. -/
def Plock.clashes (p p' : Plock) : Bool :=
  p.inode = p'.inode ∧ ¬ (p.sid = p'.sid ∧ p.owner = p'.owner) ∧
    ∃ r ∈ p.records, ∃ r' ∈ p'.records, r.clashes r'

/-- No two rows clash. -/
def Excludes {R : Type} (clashes : R → R → Bool) (rows : List R) : Prop :=
  ∀ r ∈ rows, ∀ r' ∈ rows, clashes r r' = false

/-- No two owners have locks of which one excludes the other. -/
def LocksExclude (db : Db) : Prop :=
  Excludes Flock.clashes (db .flock) ∧ Excludes Plock.clashes (db .plock)

instance (db : Db) : Decidable (LocksExclude db) :=
  inferInstanceAs (Decidable ((∀ f ∈ db .flock, ∀ f' ∈ db .flock, f.clashes f' = false) ∧
    ∀ p ∈ db .plock, ∀ p' ∈ db .plock, p.clashes p' = false))

section

variable {R : Type} {clashes : R → R → Bool} {rows rows' : List R}

theorem Excludes.subset (h : Excludes clashes rows) (hsub : ∀ r ∈ rows', r ∈ rows) :
    Excludes clashes rows' := fun r hr r' hr' => h r (hsub r hr) r' (hsub r' hr')

/-- New rows that clash neither with the old ones nor with each other. -/
theorem Excludes.change (hsymm : ∀ r r', clashes r r' = clashes r' r) (h : Excludes clashes rows)
    (new : R → Prop) (hmem : ∀ r ∈ rows', r ∈ rows ∨ new r)
    (hold : ∀ r, new r → ∀ r' ∈ rows, clashes r r' = false)
    (hnew : ∀ r r', new r → new r' → clashes r r' = false) : Excludes clashes rows' := by
  intro r hr r' hr'
  rcases hmem r hr with hr | hr <;> rcases hmem r' hr' with hr' | hr'
  · exact h r hr r' hr'
  · rw [hsymm]
    exact hold r' hr' r hr
  · exact hold r hr r' hr'
  · exact hnew r r' hr hr'

end

theorem Flock.clashes_comm (f f' : Flock) : f.clashes f' = f'.clashes f := by
  simp only [Flock.clashes, decide_eq_decide]
  grind

theorem PlockRec.clashes_comm (r r' : PlockRec) : r.clashes r' = r'.clashes r := by
  simp only [PlockRec.clashes, decide_eq_decide]
  grind

theorem Plock.clashes_comm (p p' : Plock) : p.clashes p' = p'.clashes p := by
  have hrec : ∀ r r' : PlockRec, r.clashes r' = true ↔ r'.clashes r = true := fun r r' => by
    rw [PlockRec.clashes_comm]
  simp only [Plock.clashes, decide_eq_decide]
  grind

/-- What is left of a range clashes with nothing that the range did not clash with. -/
theorem PlockRec.clashes_of_cut {start last : Nat} {m r r' : PlockRec} (hr : r ∈ m.cut start last)
    (h : r.clashes r' = true) : m.clashes r' = true := by
  unfold PlockRec.cut at hr
  split at hr
  · rw [List.mem_singleton] at hr
    exact hr ▸ h
  · rename_i hd
    simp only [PlockRec.disjoint, decide_eq_true_eq, not_or, gt_iff_lt, Nat.not_lt] at hd
    simp only [PlockRec.clashes, decide_eq_true_eq] at h ⊢
    rcases List.mem_append.mp hr with hr | hr <;> split at hr
    · cases List.mem_singleton.mp hr
      exact ⟨by simp only at h; omega, h.2⟩
    · cases hr
    · cases List.mem_singleton.mp hr
      exact ⟨by simp only at h; omega, h.2⟩
    · cases hr

/-- Rows after `INSERT ... ON CONFLICT DO UPDATE`. -/
theorem mem_upserted {t : Table} {r : Row t} {g : Row t → Row t} {rs : List (Row t)} {x : Row t}
    (h : x ∈ upserted r g rs) : x ∈ rs ∨ x = r ∨ ∃ y, clash t r y = true ∧ x = g y := by
  unfold upserted at h
  split at h
  · obtain ⟨y, hy, rfl⟩ := mem_updated.mp h
    split
    · rename_i hc
      exact .inr (.inr ⟨y, hc, rfl⟩)
    · exact .inl hy
  · rcases List.mem_append.mp h with h | h
    · exact .inl h
    · exact .inr (.inl (List.mem_singleton.mp h))

/-! ### One call alone -/

section

variable {m : Memory} {db db' : Db} {u : Unit}

variable {inode : Ino} {sid owner start last pid : Nat} {typ : PlockType}

/-- A whole-file lock is granted when no other owner's lock is in the way. -/
theorem flockTx_ok {typ : FlockType}
    (h : (flockTx inode sid owner typ).exec m db = .ok (u, db')) :
    (∀ r ∈ db' .flock, r ∈ db .flock) ∧ db' .plock = db .plock ∨
      ((db .flock).filter fun r => r.inode = inode).any (flockConflict sid owner typ) = false ∧
        db' = edit .flock (upserted ⟨inode, sid, owner, typ⟩ fun r => { r with ltype := typ }) db := by
  unfold flockTx at h
  split at h
  · simp only [exec_bind, exec_deleteRows, andThen_ok, exec_pure, Except.ok.injEq, Prod.mk.injEq] at h
    obtain ⟨-, rfl⟩ := h
    refine .inl ⟨fun r hr => ?_, edit_of_ne (by decide) _ _⟩
    rw [edit_self] at hr
    exact (mem_deleted.mp hr).1
  · simp only [exec_bind, exec_selectRows, andThen_ok, exec_require, andThen_ite_error,
      exec_upsertRow, Except.ok.injEq, Prod.mk.injEq] at h
    obtain ⟨hconflict, -, rfl⟩ := h
    exact .inr ⟨hconflict, rfl⟩

/-- Granted whole-file locks exclude each other. -/
theorem flock_excludes {typ : FlockType}
    (hconflict : ((db .flock).filter fun r => r.inode = inode).any (flockConflict sid owner typ)
      = false) (h : Excludes Flock.clashes (db .flock)) :
    Excludes Flock.clashes
      (upserted (t := Table.flock) ⟨inode, sid, owner, typ⟩ (fun r => { r with ltype := typ })
        (db .flock)) := by
  rw [List.any_eq_false] at hconflict
  refine h.change Flock.clashes_comm (fun r : Flock =>
    r.inode = inode ∧ r.sid = sid ∧ r.owner = owner ∧ r.ltype = typ) ?_ ?_ ?_
  · intro r hr
    rcases mem_upserted hr with hr | rfl | ⟨y, hy, rfl⟩
    · exact .inl hr
    · exact .inr ⟨rfl, rfl, rfl, rfl⟩
    · simp only [clash_eq, rowClash, Bool.and_eq_true, beq_iff_eq] at hy
      exact .inr ⟨hy.1.1, hy.1.2, hy.2, rfl⟩
  · rintro r ⟨rfl, rfl, rfl, rfl⟩ r' hr'
    apply decide_eq_false
    rintro ⟨hinode, howner, htype⟩
    -- the other row is one that was read, and it was not in the way
    refine hconflict r' (List.mem_filter.mpr ⟨hr', decide_eq_true hinode.symm⟩) ?_
    exact decide_eq_true ⟨fun h => howner ⟨h.1.symm, h.2.symm⟩, htype⟩
  · rintro r r' ⟨-, hs, ho, -⟩ ⟨-, hs', ho', -⟩
    apply decide_eq_false
    rintro ⟨-, howner, -⟩
    exact howner ⟨hs.trans hs'.symm, ho.trans ho'.symm⟩

/-- The byte ranges of every other owner, in the tables. -/
def otherPlocks (db : Db) (inode : Ino) (sid owner : Nat) : List PlockRec :=
  (((db .plock).filter fun r => r.inode = inode).filter fun r =>
    ¬ (r.sid = sid ∧ r.owner = owner)).flatMap Plock.records

/-- The byte ranges of an owner, in the tables. -/
def myPlock (db : Db) (inode : Ino) (sid owner : Nat) : List PlockRec :=
  match ((db .plock).filter (isPlockOf inode sid owner)).head? with
  | none => []
  | some r => r.records

theorem exec_loadOtherPlocks (m : Memory) (db : Db) (inode : Ino) (sid owner : Nat) :
    (loadOtherPlocks inode sid owner).exec m db = .ok (otherPlocks db inode sid owner, db) := by
  simp [loadOtherPlocks, otherPlocks]

theorem exec_loadMyPlock (m : Memory) (db : Db) (inode : Ino) (sid owner : Nat) :
    (loadMyPlock inode sid owner).exec m db = .ok (myPlock db inode sid owner, db) := by
  simp only [loadMyPlock, myPlock, exec_bind, exec_selectRows, andThen_ok]
  cases ((db .plock).filter (isPlockOf inode sid owner)).head? <;> rfl

/-- A byte range is granted when no range of another owner is in the way. -/
theorem setlkTx_ok (h : (setlkTx inode sid owner typ start last pid).exec m db = .ok (u, db')) :
    splitRange (myPlock db inode sid owner) typ start last pid = [] ∧
        db' = edit .plock (deleted (isPlockOf inode sid owner)) db ∨
      ∃ mine, mine = splitRange (myPlock db inode sid owner) typ start last pid ∧
        (typ ≠ .unlck → plockConflict (otherPlocks db inode sid owner) typ start last = none) ∧
        db' = edit .plock (upserted ⟨inode, sid, owner, mine⟩ fun r => { r with records := mine })
          db := by
  unfold setlkTx at h
  simp only [exec_bind, exec_onlyIf, exec_loadOtherPlocks, andThen_ok, exec_require,
    exec_loadMyPlock] at h
  obtain ⟨_, db₁, hcheck, h⟩ := andThen_eq_ok.mp h
  obtain ⟨hconflict, rfl⟩ : (typ ≠ .unlck →
      plockConflict (otherPlocks db inode sid owner) typ start last = none) ∧ db = db₁ := by
    split at hcheck
    · split at hcheck
      · rename_i hnone
        obtain ⟨-, rfl⟩ := Prod.mk.inj (Except.ok.inj hcheck)
        exact ⟨fun _ => hnone, rfl⟩
      · cases hcheck
    · rename_i htyp
      obtain ⟨-, rfl⟩ := Prod.mk.inj (Except.ok.inj hcheck)
      exact ⟨fun h => absurd h htyp, rfl⟩
  split at h
  · rename_i hnil
    simp only [exec_bind, exec_deleteRows, andThen_ok, exec_pure, Except.ok.injEq, Prod.mk.injEq] at h
    exact .inl ⟨hnil, h.2.symm⟩
  · simp only [exec_upsertRow, Except.ok.injEq, Prod.mk.injEq] at h
    obtain ⟨-, rfl⟩ := h
    exact .inr ⟨_, rfl, hconflict, rfl⟩

section

variable (hconflict : typ ≠ .unlck →
      plockConflict (otherPlocks db inode sid owner) typ start last = none)

include hconflict

/-- The new ranges of an owner clash with no range of another one: what is left of the old ranges did
    not, and the requested range was checked. -/
theorem splitRange_clear (h : Excludes Plock.clashes (db .plock)) {p' : Plock} (hp' : p' ∈ db .plock)
    (hinode : p'.inode = inode) (howner : ¬ (sid = p'.sid ∧ owner = p'.owner)) {r r' : PlockRec}
    (hr : r ∈ splitRange (myPlock db inode sid owner) typ start last pid) (hr' : r' ∈ p'.records) :
    r.clashes r' = false := by
  rw [Bool.eq_false_iff]
  intro hclash
  rcases List.mem_append.mp hr with hr | hr
  · obtain ⟨old, hold, hcut⟩ := List.mem_flatMap.mp hr
    have hold' := PlockRec.clashes_of_cut hcut hclash
    unfold myPlock at hold
    split at hold
    · cases hold
    · rename_i p hp
      have hmem := List.mem_filter.mp (List.mem_of_mem_head? hp)
      obtain ⟨hi, hs, ho⟩ := of_decide_eq_true hmem.2
      have hp : p.clashes p' = true := decide_eq_true
        ⟨hi.trans hinode.symm, by rw [hs, ho]; exact howner, old, hold, r', hr', hold'⟩
      rw [h p hmem.1 p' hp'] at hp
      cases hp
  · split at hr
    · cases hr
    · rename_i htyp
      cases List.mem_singleton.mp hr
      have hnone := hconflict htyp
      rw [plockConflict, List.find?_eq_none] at hnone
      have hother : r' ∈ otherPlocks db inode sid owner := by
        refine List.mem_flatMap.mpr ⟨p', List.mem_filter.mpr ⟨List.mem_filter.mpr
          ⟨hp', decide_eq_true hinode⟩, ?_⟩, hr'⟩
        exact decide_eq_true fun h => howner ⟨h.1.symm, h.2.symm⟩
      obtain ⟨hoverlap, hwrite⟩ := of_decide_eq_true hclash
      apply hnone r' hother
      simp only [PlockRec.disjoint, Bool.and_eq_true, Bool.not_eq_true', decide_eq_false_iff_not,
        Bool.or_eq_true, decide_eq_true_eq]
      exact ⟨by simp only at hoverlap; omega, hwrite⟩

/-- Granted byte ranges exclude each other. -/
theorem plock_excludes (h : Excludes Plock.clashes (db .plock)) {mine : List PlockRec}
    (hmine : mine = splitRange (myPlock db inode sid owner) typ start last pid) :
    Excludes Plock.clashes
      (upserted (t := Table.plock) ⟨inode, sid, owner, mine⟩ (fun r => { r with records := mine })
        (db .plock)) := by
  refine h.change Plock.clashes_comm (fun r : Plock =>
    r.inode = inode ∧ r.sid = sid ∧ r.owner = owner ∧ r.records = mine) ?_ ?_ ?_
  · intro r hr
    rcases mem_upserted hr with hr | rfl | ⟨y, hy, rfl⟩
    · exact .inl hr
    · exact .inr ⟨rfl, rfl, rfl, rfl⟩
    · simp only [clash_eq, rowClash, Bool.and_eq_true, beq_iff_eq] at hy
      exact .inr ⟨hy.1.1, hy.1.2, hy.2, rfl⟩
  · rintro p ⟨rfl, rfl, rfl, hrecords⟩ p' hp'
    apply decide_eq_false
    rintro ⟨hinode, howner, r, hr, r', hr', hclash⟩
    rw [hrecords, hmine] at hr
    rw [splitRange_clear hconflict h hp' hinode.symm howner hr hr'] at hclash
    cases hclash
  · rintro p p' ⟨-, hs, ho, -⟩ ⟨-, hs', ho', -⟩
    apply decide_eq_false
    rintro ⟨-, howner, -⟩
    exact howner ⟨hs.trans hs'.symm, ho.trans ho'.symm⟩

end

theorem LocksExclude.clearLocksWhere {p : Nat → Bool} (hdb : LocksExclude db)
    (h : (clearLocksWhere p).exec m db = .ok (u, db')) : LocksExclude db' := by
  simp only [Meta.clearLocksWhere, exec_bind, exec_deleteRows, andThen_ok, exec_pure,
    Except.ok.injEq, Prod.mk.injEq] at h
  obtain ⟨-, rfl⟩ := h
  refine ⟨?_, ?_⟩
  · rw [edit_of_ne (by decide), edit_self]
    exact hdb.1.subset fun r hr => (mem_deleted.mp hr).1
  · rw [edit_self, edit_of_ne (by decide)]
    exact hdb.2.subset fun r hr => (mem_deleted.mp hr).1

theorem LocksExclude.clearPlock (hdb : LocksExclude db) (inode : Ino) (sid owner : Nat) :
    LocksExclude (edit .plock (deleted (isPlockOf inode sid owner)) db) := by
  refine ⟨?_, ?_⟩
  · rw [edit_of_ne (by decide)]
    exact hdb.1
  · rw [edit_self]
    exact hdb.2.subset fun r hr => (mem_deleted.mp hr).1

/-- **One call alone.**  Every call on locks keeps exclusion. -/
theorem LocksExclude.call (call : LockCall) (hdb : LocksExclude db)
    (h : call.body.exec m db = .ok (u, db')) : LocksExclude db' := by
  cases call with
  | flock inode sid owner typ =>
    rcases flockTx_ok h with ⟨hsub, hplock⟩ | ⟨hconflict, rfl⟩
    · exact ⟨hdb.1.subset hsub, hplock ▸ hdb.2⟩
    · refine ⟨?_, ?_⟩
      · rw [edit_self]
        exact flock_excludes hconflict hdb.1
      · rw [edit_of_ne (by decide)]
        exact hdb.2
  | setlk inode sid owner typ start last pid =>
    rcases setlkTx_ok h with ⟨-, rfl⟩ | ⟨mine, hmine, hconflict, rfl⟩
    · exact hdb.clearPlock inode sid owner
    · refine ⟨?_, ?_⟩
      · rw [edit_of_ne (by decide)]
        exact hdb.1
      · rw [edit_self]
        exact plock_excludes hconflict hdb.2 hmine
  | clearAllLocks => exact hdb.clearLocksWhere (p := fun _ => true) h
  | clearLocksForSid sid => exact hdb.clearLocksWhere (p := fun s => s = sid) h
  | clearPlocks inode sid owner =>
    simp only [LockCall.body, clearPlocksTx, exec_onlyIf, exec_bind, exec_deleteRows, andThen_ok,
      exec_pure] at h
    split at h <;> obtain ⟨-, rfl⟩ := Prod.mk.inj (Except.ok.inj h)
    · exact hdb.clearPlock inode sid owner
    · exact hdb

end

/-! ### Whole runs -/

/-- **Exclusion.**  For any interleaving of the statements of lock calls, by any owners and sessions,
    no two owners hold locks of which one excludes the other, in every run in which each transaction
    commits what it would commit if it ran alone at that moment. -/
theorem locks_exclude (rows : Db) (hrows : LocksExclude rows)
    (evs : List (Nat × SessionEvent Memory LockCall))
    (hok : Guarded LockServer.step
      (fun σ ev => Server.validated LockCall.body lockTables σ ev = true) (Server.start rows) evs) :
    LocksExclude (run LockServer.step (Server.start rows) evs).rows := by
  refine Server.serial_of_validated (fun _ _ h => h) (fun db _ => LocksExclude db) ?_ hrows hok
  intro σ s m tx a a' db' _ _ _ hdb hexec hobs
  have hdb' : LocksExclude db' := hdb.call tx.call hexec
  obtain ⟨hflock, hplock⟩ := Prod.mk.inj hobs
  exact ⟨hflock ▸ hdb'.1, hplock ▸ hdb'.2⟩

/-- Two owners ask for an exclusive lock one after the other. -/
def inTurn : List (Nat × SessionEvent Memory LockCall) :=
  (0, .begin (.flock 2 1 10 .exclusive)) :: statements .idle 0 3 ++
    (1, .begin (.flock 2 1 20 .exclusive)) :: statements .idle 1 3

theorem locks_exclude_inTurn :
    LocksExclude (run LockServer.step (Server.start (Engine.bootstrapDb ⟨0, 0⟩)) inTurn).rows :=
  locks_exclude _ (by decide) inTurn (by decide)

/-- Two sessions begin a call each and read the rows of the other owners; then each one writes its own
    row and commits, in `n` steps. -/
def atOnce (call call' : LockCall) (n : Nat) : List (Nat × SessionEvent Memory LockCall) :=
  (0, .begin call) :: (1, .begin call') :: (0, .next .idle) :: (1, .next .idle) ::
    (statements .idle 0 n ++ statements .idle 1 n)

/-- Two owners ask for an exclusive whole-file lock, and then for overlapping write ranges. -/
def lockedAtOnce : LockServer :=
  run LockServer.step (Server.start (Engine.bootstrapDb ⟨0, 0⟩))
    (atOnce (.flock 2 1 10 .exclusive) (.flock 2 1 20 .exclusive) 2 ++
      atOnce (.setlk 2 1 10 .wrlck 0 9 0) (.setlk 2 1 20 .wrlck 5 14 0) 3)

/-- **Two exclusive locks.**  All four transactions commit, the file has two exclusive whole-file
    locks, and bytes 5 to 9 have two write locks. -/
theorem two_exclusive_locks :
    lockTables lockedAtOnce.rows = ([⟨2, 1, 10, .exclusive⟩, ⟨2, 1, 20, .exclusive⟩],
        [⟨2, 1, 10, [⟨.wrlck, 0, 9, 0⟩]⟩, ⟨2, 1, 20, [⟨.wrlck, 5, 14, 0⟩]⟩]) ∧
      ¬ LocksExclude lockedAtOnce.rows := by
  decide

end MemoryLayer.Meta
