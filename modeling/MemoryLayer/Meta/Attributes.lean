import MemoryLayer.Meta.Serial

namespace MemoryLayer.Meta

open Sql Sql.Tx Server Runs

/-! # Attributes under concurrent writes

`SetAttr` (`meta/ops.go`, with the ownership rules of `meta/perms.go`) next to `Write`.  Both read
the node, compute new values and write them back: `Write` the length, `SetAttr` the whole row.

- `authorizeSetAttr`, `setAttrTx`: who may set what, and the transaction body.
- `AttrCall`: writes, and attribute changes that leave the size alone.
- `AttrCall.alone`: what one call does to the length and the owner fields of a file.
- `attributes_kept`: over every run whose commits are validated, the length covers every committed
  write and the last value set of each owner field stays.
- `attributes_lost`: between its read and its update, a `SetAttr` takes back a committed write.
-/

/-! ### Setting attributes -/

/-- The bits of a `SetAttr` mask. -/
def setMode : UInt16 := 1
@[inherit_doc setMode] def setUid : UInt16 := 2
@[inherit_doc setMode] def setGid : UInt16 := 4
@[inherit_doc setMode] def setSize : UInt16 := 8
@[inherit_doc setMode] def setAtime : UInt16 := 16
@[inherit_doc setMode] def setMtime : UInt16 := 32

/-- The set-id bits of a mode, which the kernel strips on a write by another user. -/
def setidBits : Nat := 0o6000

/-- The bits of `a` that are not in `b`. -/
def andNot (a b : Nat) : Nat := a ^^^ (a &&& b)

/-- Who may set what: root everything; only the owner changes mode and group, where dropping set-id
    bits alone is always allowed; nobody else gives a file away. -/
def authorizeSetAttr (c : Option Context) (cur : Attr) (set : UInt16) (attr : Attr) : Bool :=
  match c with
  | none => true
  | some c =>
    if c.uid = 0 then true
    else
      let owner := c.uid = cur.uid
      let privDropOnly :=
        andNot attr.mode cur.mode = 0 ∧ andNot (andNot cur.mode attr.mode) setidBits = 0
      if set &&& setMode ≠ 0 ∧ ¬ owner ∧ ¬ privDropOnly then false
      else if set &&& setUid ≠ 0 ∧ attr.uid ≠ cur.uid then false
      else if set &&& setGid ≠ 0 ∧ ¬ owner then false
      else true

/-- The attributes with the selected fields replaced. -/
def Attr.select (cur : Attr) (set : UInt16) (attr : Attr) (now : Time) : Attr :=
  { cur with
    mode := if set &&& setMode ≠ 0 then attr.mode else cur.mode
    uid := if set &&& setUid ≠ 0 then attr.uid else cur.uid
    gid := if set &&& setGid ≠ 0 then attr.gid else cur.gid
    length := if set &&& setSize ≠ 0 then attr.length else cur.length
    atime := if set &&& setAtime ≠ 0 then attr.atime else cur.atime
    mtime := if set &&& setMtime ≠ 0 then attr.mtime else cur.mtime
    ctime := now }

/-- The columns that `SetAttr` writes, all from `cur`. -/
def Attr.overwrite (cur a : Attr) : Attr :=
  { a with mode := cur.mode, uid := cur.uid, gid := cur.gid, length := cur.length,
           atime := cur.atime, mtime := cur.mtime, ctime := cur.ctime }

/-- Set the selected attributes.  The update writes all of mode, owner, length and times, from the row
    that was read before. -/
def setAttrTx (now : Time) (inode : Ino) (set : UInt16) (attr : Attr) (c : Option Context) :
    MetaTx Unit := do
  let cur ← getAttr inode
  require (authorizeSetAttr c cur set attr = true) .eperm
  updateNode inode (cur.select set attr now).overwrite
  appendChangelog inode .setattr

/-! ### Calls -/

/-- Writes of slices, and attribute changes that do not set the size. -/
inductive AttrCall where
  | write (now : Time) (r : SliceRef)
  | setAttr (now : Time) (inode : Ino) (set : UInt16) (attr : Attr) (c : Option Context)
      (hsize : set &&& setSize = 0)

/-- The transaction of a call. -/
def AttrCall.body : AttrCall → MetaTx Unit
  | .write now r => writeTx now r
  | .setAttr now inode set attr c _ => setAttrTx now inode set attr c

/-- The database with its sessions. -/
abbrev AttrServer := Server Row Errno Memory Unit Nat AttrCall RowKey

/-- One step of a session on the database. -/
abbrev AttrServer.step (σ : AttrServer) (ev : Nat × SessionEvent Memory AttrCall) : AttrServer :=
  Server.step AttrCall.body σ ev

/-- The fields that `chmod` and `chown` set. -/
inductive OwnerField where
  | mode | uid | gid
  deriving DecidableEq, Repr

/-- The bit of a field in the mask. -/
def OwnerField.bit : OwnerField → UInt16
  | .mode => setMode
  | .uid => setUid
  | .gid => setGid

/-- The value of a field. -/
def OwnerField.get : OwnerField → Attr → Nat
  | .mode => Attr.mode
  | .uid => Attr.uid
  | .gid => Attr.gid

/-- The value that a call sets for a field of a file. -/
def AttrCall.sets (i : Ino) (f : OwnerField) : AttrCall → Option Nat
  | .write _ _ => none
  | .setAttr _ inode set attr _ _ => if inode = i ∧ set &&& f.bit ≠ 0 then some (f.get attr) else none

/-! ### One call alone -/

section

variable {m : Memory} {db db' : Db} {u : Unit} {now : Time} {c : Option Context} {set : UInt16}
  {inode : Ino} {attr : Attr}

theorem setAttrTx_ok (h : (setAttrTx now inode set attr c).exec m db = .ok (u, db')) :
    ∃ cur, nodeAt db inode = some cur ∧ authorizeSetAttr c cur set attr = true ∧
      db' = edit .changelog (inserted ⟨inode, .setattr⟩)
        (setNode inode (cur.select set attr now).overwrite db) := by
  simp only [setAttrTx, exec_bind, exec_getAttr] at h
  cases hc : nodeAt db inode with
  | none => simp [hc] at h
  | some cur =>
    simp only [hc, andThen_ok, exec_require, andThen_ite_error, exec_updateNode,
      exec_appendChangelog, Except.ok.injEq, Prod.mk.injEq] at h
    obtain ⟨hauth, -, rfl⟩ := h
    exact ⟨cur, rfl, hauth, rfl⟩

/-- A call keeps a file, does not shorten it, and changes no owner field but those it sets. -/
theorem AttrCall.alone {call : AttrCall} (h : call.body.exec m db = .ok (u, db')) {i : Ino} {a : Attr}
    (ha : nodeAt db i = some a) :
    ∃ a', nodeAt db' i = some a' ∧ a.length ≤ a'.length ∧
      ∀ f : OwnerField, f.get a' = (call.sets i f).getD (f.get a) := by
  cases call with
  | write now r =>
    obtain ⟨cur, hcur, -, -, rfl⟩ := writeTx_ok h
    split
    · exact ⟨a, ha, Nat.le_refl _, fun f => rfl⟩
    · rw [written, nodeAt_edit_of_ne _ _ (by decide), nodeAt_setNode,
        nodeAt_edit_of_ne _ _ (by decide), nodeAt_edit_of_ne _ _ (by decide)]
      by_cases hi : i = r.inode
      · subst hi
        rw [if_pos rfl, ha]
        rw [ha] at hcur
        cases hcur
        refine ⟨_, rfl, Nat.le_max_left _ _, fun f => ?_⟩
        cases f <;> rfl
      · rw [if_neg hi]
        exact ⟨a, ha, Nat.le_refl _, fun f => rfl⟩
  | setAttr now inode set attr c hsize =>
    obtain ⟨cur, hcur, -, rfl⟩ := setAttrTx_ok h
    rw [nodeAt_edit_of_ne _ _ (by decide), nodeAt_setNode]
    by_cases hi : i = inode
    · subst hi
      rw [if_pos rfl, ha]
      rw [ha] at hcur
      cases hcur
      refine ⟨_, rfl, ?_, fun f => ?_⟩
      · simp [Attr.overwrite, Attr.select, hsize]
      · cases f <;> simp only [OwnerField.get, Attr.overwrite, Attr.select, AttrCall.sets,
          OwnerField.bit, true_and] <;> split <;> simp
    · rw [if_neg hi]
      refine ⟨a, ha, Nat.le_refl _, fun f => ?_⟩
      rw [AttrCall.sets, if_neg (fun h => hi h.1.symm)]
      rfl

/-- A write adds its slice and covers it, unless its slice id is recorded already. -/
theorem write_alone {r : SliceRef} (h : (writeTx now r).exec m db = .ok (u, db')) :
    (∃ s ∈ db .sliceRef, s.inode = r.inode ∧ s.sliceId = r.sliceId) ∧ db' .sliceRef = db .sliceRef ∨
      db' .sliceRef = db .sliceRef ++ [r] ∧
        ∃ a', nodeAt db' r.inode = some a' ∧ r.stop ≤ a'.length := by
  obtain ⟨cur, hcur, -, -, rfl⟩ := writeTx_ok h
  split
  · rename_i hany
    obtain ⟨s, hs, hclash⟩ := List.any_eq_true.mp hany
    simp only [clash_eq, rowClash, Bool.and_eq_true, beq_iff_eq] at hclash
    exact .inl ⟨⟨s, hs, hclash⟩, rfl⟩
  · rename_i hany
    refine .inr ⟨?_, ?_⟩
    · rw [written, edit_of_ne (by decide), setNode_of_ne _ _ _ (by decide), edit_self, inserted,
        if_neg hany]
    · rw [written, nodeAt_edit_of_ne _ _ (by decide), nodeAt_setNode, if_pos rfl,
        nodeAt_edit_of_ne _ _ (by decide), hcur]
      exact ⟨_, rfl, Nat.le_max_right _ _⟩

theorem setAttr_sliceRef (h : (setAttrTx now inode set attr c).exec m db = .ok (u, db')) :
    db' .sliceRef = db .sliceRef := by
  obtain ⟨cur, -, -, rfl⟩ := setAttrTx_ok h
  rw [edit_of_ne (by decide), setNode_of_ne _ _ _ (by decide)]

end

/-! ### What commits keep -/

/-- What the property is about: length and owner fields of a file, and its slices. -/
def attrTables (i : Ino) (db : Db) : Option (Nat × Nat × Nat × Nat) × List SliceRef :=
  ((nodeAt db i).map fun a => (a.length, a.mode, a.uid, a.gid),
    (db .sliceRef).filter fun r => r.inode = i)

/-- The value that was set last for a field of a file, in the order of commits. -/
def lastSet (i : Ino) (f : OwnerField) (log : List (AttrCall × Unit)) : Option Nat :=
  log.foldl (fun v e => (e.1.sets i f).or v) none

/-- The file covers its slices, has the slice of every committed write, and the values that were set
    last. -/
structure AttrsKept (i : Ino) (db : Db) (log : List (AttrCall × Unit)) : Prop where
  covered : ∀ r ∈ db .sliceRef, r.inode = i → ∃ a, nodeAt db i = some a ∧ r.stop ≤ a.length
  recorded : ∀ e ∈ log, ∀ now r, e.1 = .write now r → r.inode = i → r ∈ db .sliceRef
  last : ∀ f v, lastSet i f log = some v → ∃ a, nodeAt db i = some a ∧ f.get a = v

section

variable {i : Ino} {db db' : Db} {log : List (AttrCall × Unit)} {m : Memory} {u : Unit}

/-- Only `attrTables` matters. -/
theorem AttrsKept.congr (h : AttrsKept i db log) (htables : attrTables i db = attrTables i db') :
    AttrsKept i db' log := by
  obtain ⟨hnode, hslices⟩ := Prod.mk.inj htables
  have hmem : ∀ r : SliceRef, r.inode = i → (r ∈ db .sliceRef ↔ r ∈ db' .sliceRef) := by
    intro r hr
    have := congrArg (r ∈ ·) hslices
    simpa [hr] using this
  have hattr : ∀ a, nodeAt db i = some a →
      ∃ a', nodeAt db' i = some a' ∧ a'.length = a.length ∧ ∀ f : OwnerField, f.get a' = f.get a := by
    intro a ha
    rw [ha, Option.map_some] at hnode
    obtain ⟨a', ha', hfields⟩ := Option.map_eq_some_iff.mp hnode.symm
    simp only [Prod.mk.injEq] at hfields
    obtain ⟨hlength, hmode, huid, hgid⟩ := hfields
    refine ⟨a', ha', hlength, fun f => ?_⟩
    cases f <;> assumption
  constructor
  · intro r hr hi
    obtain ⟨a, ha, hle⟩ := h.covered r ((hmem r hi).mpr hr) hi
    obtain ⟨a', ha', hlength, -⟩ := hattr a ha
    exact ⟨a', ha', hlength ▸ hle⟩
  · intro e he now r hcall hi
    exact (hmem r hi).mp (h.recorded e he now r hcall hi)
  · intro f v hlast
    obtain ⟨a, ha, hget⟩ := h.last f v hlast
    obtain ⟨a', ha', -, hfields⟩ := hattr a ha
    exact ⟨a', ha', (hfields f).trans hget⟩

/-- The slices after a call alone: those that were there, and the slice of a write, which is covered. -/
theorem AttrCall.slices {call : AttrCall}
    (h : call.body.exec m db = .ok (u, db')) :
    (∀ r ∈ db .sliceRef, r ∈ db' .sliceRef) ∧ ∀ r ∈ db' .sliceRef, r ∈ db .sliceRef ∨
      ∃ a', nodeAt db' r.inode = some a' ∧ r.stop ≤ a'.length := by
  cases call with
  | write now r =>
    rcases write_alone h with ⟨-, hslices⟩ | ⟨hslices, hcovered⟩ <;> rw [hslices]
    · exact ⟨fun _ h => h, fun _ h => .inl h⟩
    · refine ⟨fun _ h => List.mem_append_left _ h, fun s hs => ?_⟩
      rcases List.mem_append.mp hs with hs | hs
      · exact .inl hs
      · exact .inr (List.mem_singleton.mp hs ▸ hcovered)
  | setAttr now inode set attr c hsize =>
    rw [setAttr_sliceRef h]
    exact ⟨fun _ h => h, fun _ h => .inl h⟩

/-- A call that sets a field of a file finds the file. -/
theorem AttrCall.exists_of_sets {call : AttrCall} {f : OwnerField} {v : Nat}
    (h : call.body.exec m db = .ok (u, db')) (hsets : call.sets i f = some v) :
    ∃ a, nodeAt db i = some a := by
  cases call with
  | write now r => cases hsets
  | setAttr now inode set attr c hsize =>
    obtain ⟨cur, hcur, -⟩ := setAttrTx_ok h
    simp only [AttrCall.sets] at hsets
    split at hsets
    · rename_i hset
      exact ⟨cur, hset.1 ▸ hcur⟩
    · cases hsets

theorem lastSet_append (f : OwnerField) (log : List (AttrCall × Unit)) (call : AttrCall) (u : Unit) :
    lastSet i f (log ++ [(call, u)]) = (call.sets i f).or (lastSet i f log) := by
  simp [lastSet]

/-- A call alone keeps it, if its slice id is not recorded for another slice. -/
theorem AttrsKept.call {u' : Unit} {call : AttrCall} (h : AttrsKept i db log)
    (hexec : call.body.exec m db = .ok (u', db'))
    (hid : ∀ now r, call = .write now r → ∀ s ∈ db .sliceRef, s.inode = r.inode →
      s.sliceId = r.sliceId → s = r) : AttrsKept i db' (log ++ [(call, u)]) := by
  obtain ⟨hkept, hslices⟩ := AttrCall.slices hexec
  constructor
  · intro r hr hi
    rcases hslices r hr with hold | hnew
    · obtain ⟨a, ha, hle⟩ := h.covered r hold hi
      obtain ⟨a', ha', hlength, -⟩ := AttrCall.alone hexec ha
      exact ⟨a', ha', Nat.le_trans hle hlength⟩
    · exact hi ▸ hnew
  · intro e he now r hcall hi
    rcases List.mem_append.mp he with he | he
    · exact hkept r (h.recorded e he now r hcall hi)
    · obtain rfl : call = .write now r := by
        rw [List.mem_singleton.mp he] at hcall
        exact hcall
      rcases write_alone hexec with ⟨⟨s, hs, hinode, hslice⟩, -⟩ | ⟨hadd, -⟩
      · exact hkept r (hid now r rfl s hs hinode hslice ▸ hs)
      · rw [hadd]
        exact List.mem_append_right _ List.mem_cons_self
  · intro f v hlast
    rw [lastSet_append] at hlast
    cases hsets : call.sets i f with
    | some w =>
      obtain ⟨a, ha⟩ := AttrCall.exists_of_sets hexec hsets
      obtain ⟨a', ha', -, hfields⟩ := AttrCall.alone hexec ha
      refine ⟨a', ha', ?_⟩
      rw [hfields f, hsets]
      rw [hsets] at hlast
      exact Option.some.inj hlast
    | none =>
      rw [hsets, Option.none_or] at hlast
      obtain ⟨a, ha, hget⟩ := h.last f v hlast
      obtain ⟨a', ha', -, hfields⟩ := AttrCall.alone hexec ha
      refine ⟨a', ha', ?_⟩
      rw [hfields f, hsets]
      exact hget

end

/-! ### Whole runs -/

/-- A slice id that is recorded for a file belongs to the slice that is being written: the transaction
    is a write of a new slice, or the same write again. -/
def sliceIdKnown (σ : AttrServer) (ev : Nat × SessionEvent Memory AttrCall) : Bool :=
  match σ.txs ev.1 with
  | some ⟨.write _ r, _, _⟩ => (σ.rows .sliceRef).all fun s : SliceRef =>
      ¬ (s.inode = r.inode ∧ s.sliceId = r.sliceId) ∨ s = r
  | _ => true

/-- **No lost update.**  For any interleaving of the statements of writes and of attribute changes
    that leave the size alone, in every run in which each transaction commits what it would commit if
    it ran alone at that moment: the length of a file is at least the end of every committed write,
    and an owner field that one committed `SetAttr` has set and no other has that value. -/
theorem attributes_kept (i : Ino) (rows : Db)
    (hrows : ∀ r ∈ rows .sliceRef, r.inode = i → ∃ a, nodeAt rows i = some a ∧ r.stop ≤ a.length)
    (evs : List (Nat × SessionEvent Memory AttrCall))
    (hok : Guarded AttrServer.step (fun σ ev =>
      Server.validated AttrCall.body (attrTables i) σ ev = true ∧ sliceIdKnown σ ev = true)
      (Server.start rows) evs) :
    (∀ now r, (.write now r, ()) ∈ (run AttrServer.step (Server.start rows) evs).log → r.inode = i →
      ∃ a, nodeAt (run AttrServer.step (Server.start rows) evs).rows i = some a ∧
        r.stop ≤ a.length) ∧
      ∀ (f : OwnerField) l₁ l₂ call v,
        (run AttrServer.step (Server.start rows) evs).log = l₁ ++ (call, ()) :: l₂ →
        call.sets i f = some v → (∀ e ∈ l₁ ++ l₂, e.1.sets i f = none) →
        ∃ a, nodeAt (run AttrServer.step (Server.start rows) evs).rows i = some a ∧ f.get a = v := by
  have hkept : AttrsKept i (run AttrServer.step (Server.start rows) evs).rows
      (run AttrServer.step (Server.start rows) evs).log := by
    refine Server.serial_of_validated (fun _ _ h => h.1) (AttrsKept i) ?_ ?_ hok
    · intro σ s m tx a a' db' hok htx ha hinv hexec htables
      refine (hinv.call hexec ?_).congr htables
      intro now r hcall t ht hinode hslice
      have hknown := hok.2
      obtain ⟨call, body, pending⟩ := tx
      obtain rfl : call = .write now r := hcall
      simp only [sliceIdKnown, htx, List.all_eq_true, decide_eq_true_eq] at hknown
      exact (hknown t ht).resolve_left fun h => h ⟨hinode, hslice⟩
    · exact ⟨hrows, by simp [Server.start], by simp [Server.start, lastSet]⟩
  refine ⟨fun now r hmem hi => hkept.covered r (hkept.recorded _ hmem now r rfl hi) hi, ?_⟩
  intro f l₁ l₂ call v hlog hsets hothers
  apply hkept.last f v
  -- no later commit sets the field
  rw [hlog, lastSet, List.foldl_append, List.foldl_cons, hsets, Option.some_or]
  have hlater : ∀ l : List (AttrCall × Unit), (∀ e ∈ l, e.1.sets i f = none) → ∀ w : Option Nat,
      l.foldl (fun v e => (e.1.sets i f).or v) w = w := by
    intro l
    induction l with
    | nil => exact fun _ _ => rfl
    | cons e l ih =>
      intro h w
      rw [List.foldl_cons, h e List.mem_cons_self, Option.none_or]
      exact ih (fun e he => h e (List.mem_cons_of_mem _ he)) w
  exact hlater l₂ (fun e he => hothers e (List.mem_append_right _ he)) _

/-! ### A lost update -/

/-- A write of four bytes at the start of file 2. -/
def writeFour : AttrCall := .write ⟨1, 0⟩ ⟨2, 0, 0, 7, 4, 0, 4⟩

/-- `chmod 0600` on file 2, by root. -/
def chmod : AttrCall :=
  .setAttr ⟨2, 0⟩ 2 setMode { (emptyFile 2).attr with mode := 0o600 } none (by decide)

/-- `chown 7` on file 2, by root. -/
def chown : AttrCall :=
  .setAttr ⟨3, 0⟩ 2 setUid { (emptyFile 2).attr with uid := 7 } none (by decide)

/-- The three calls one after another. -/
def inSequence : List (Nat × SessionEvent Memory AttrCall) :=
  (0, .begin writeFour) :: statements .idle 0 5 ++ (0, .begin chmod) :: statements .idle 0 4 ++
    (0, .begin chown) :: statements .idle 0 4

theorem attributes_kept_inSequence :
    ∃ a, nodeAt (run AttrServer.step (Server.start oneFileDb) inSequence).rows 2 = some a ∧
      4 ≤ a.length := by
  have hkept := attributes_kept 2 oneFileDb (by decide) inSequence (by decide)
  have hwrite : (writeFour, ()) ∈ (run AttrServer.step (Server.start oneFileDb) inSequence).log :=
    List.mem_cons_self
  exact hkept.1 _ _ hwrite rfl

/-- `chown` reads the file; then the write and `chmod` run and commit; then `chown` goes on. -/
def overtaken : List (Nat × SessionEvent Memory AttrCall) :=
  (0, .begin chown) :: statements .idle 0 1 ++ (1, .begin writeFour) :: statements .idle 1 5 ++
    (2, .begin chmod) :: statements .idle 2 4 ++ statements .idle 0 3

/-- **Lost updates.**  All three calls are committed, and the file is empty again and has its old
    mode. -/
theorem attributes_lost :
    (run AttrServer.step (Server.start oneFileDb) overtaken).log
        = [(writeFour, ()), (chmod, ()), (chown, ())] ∧
      attrTables 2 (run AttrServer.step (Server.start oneFileDb) overtaken).rows
        = (some (0, 0o644, 7, 0), [⟨2, 0, 0, 7, 4, 0, 4⟩]) :=
  ⟨rfl, by decide⟩

end MemoryLayer.Meta
