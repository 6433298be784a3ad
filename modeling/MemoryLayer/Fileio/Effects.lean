import MemoryLayer.Fileio.Content

namespace MemoryLayer.Fileio

open Meta Sql Sql.Tx

/-! # What the metadata operations do to a file

The slice rows and lengths of all files after `Engine.write` and `Engine.truncate`, and the ids
that `Engine.newSlice` gives out.

- `exec_writeTx`, `exec_truncateTx`: when the transactions go through, and what they leave.
- `trimRows`: the rows that a truncation keeps.
- `nextSliceId`: the next id; every id given out before is smaller.
-/

/-! ### Recording a slice -/

section Write

variable {now : Time} {m : Memory} {db : Db} {r : SliceRef}

/-- The file has a row for this slice already. -/
def HasSlice (db : Db) (i : Ino) (id : Nat) : Prop := ∃ s ∈ rowsOf db i, s.sliceId = id

instance (db : Db) (i : Ino) (id : Nat) : Decidable (HasSlice db i id) :=
  inferInstanceAs (Decidable (∃ s ∈ rowsOf db i, s.sliceId = id))

theorem any_clash_sliceRef (db : Db) (r : SliceRef) : List.any (α := SliceRef) (db .sliceRef)
    (clash (ρ := Row) Table.sliceRef r) = true ↔ HasSlice db r.inode r.sliceId := by
  simp only [List.any_eq_true, clash_eq, rowClash, Bool.and_eq_true, beq_iff_eq, HasSlice,
    mem_rowsOf, and_assoc]

/-- The numbers of a row fit its columns. -/
def RowFits (r : SliceRef) : Prop :=
  r.indx < int4Max ∧ r.pos < int4Max ∧ r.size < int4Max ∧ r.soff < int4Max ∧ r.slen < int4Max

/-- A slice of an existing file is recorded, unless it is there already. -/
theorem exec_writeTx (now : Time) (m : Memory) {cur : Attr} (hc : nodeAt db r.inode = some cur) (hfile : cur.type = .file)
    (hfit : RowFits r) :
    (writeTx now r).exec m db = .ok ((), if HasSlice db r.inode r.sliceId then db
      else written now r (max cur.length r.stop) db) := by
  have hlen : (if r.indx * chunkSize + r.pos + r.slen > cur.length
      then r.indx * chunkSize + r.pos + r.slen else cur.length) = max cur.length r.stop := by
    unfold SliceRef.stop SliceRef.start
    split <;> omega
  unfold RowFits at hfit
  simp only [writeTx, exec_bind, exec_getAttr, hc, andThen_ok, exec_require, hfile, if_true, hfit,
    and_self, exec_insertRow, exec_onlyIf]
  have hany := any_clash_sliceRef db r
  by_cases hhas : HasSlice db r.inode r.sliceId
  · rw [if_pos hhas]
    simp only [hany.mpr hhas, Bool.not_true, Bool.false_eq_true, if_false]
    simp [edit, inserted, hany.mpr hhas]
  · have hfalse : (db .sliceRef).any (clash Table.sliceRef r) = false := by
      rw [← Bool.not_eq_true, hany]
      exact hhas
    rw [if_neg hhas]
    simp only [hfalse, Bool.not_false, if_true, exec_updateNode, andThen_ok, exec_appendChangelog,
      hlen]
    rfl

theorem rowsOf_written (length : Nat) (i : Ino) (hnew : ¬ HasSlice db r.inode r.sliceId) :
    rowsOf (written now r length db) i
      = if i = r.inode then rowsOf db i ++ [r] else rowsOf db i := by
  have hfalse : (db .sliceRef).any (clash Table.sliceRef r) = false := by
    rw [← Bool.not_eq_true, any_clash_sliceRef]
    exact hnew
  have hrows : written now r length db .sliceRef = db .sliceRef ++ [r] := by
    simp only [written, ne_eq, reduceCtorEq, not_false_eq_true, edit_of_ne, setNode_of_ne,
      edit_self, inserted, hfalse]
    rfl
  rw [rowsOf, hrows, List.filter_append]
  by_cases hi : i = r.inode
  · simp [hi, rowsOf]
  · simp [hi, Ne.symm hi, rowsOf]

theorem nodeAt_written (length : Nat) (i : Ino) :
    nodeAt (written now r length db) i = if i = r.inode
      then (nodeAt db i).map fun a => Attr.touch now { a with length := length }
      else nodeAt db i := by
  simp only [written, ne_eq, reduceCtorEq, not_false_eq_true, nodeAt_edit_of_ne, nodeAt_setNode]
  split
  case isTrue h => rw [h]
  case isFalse => rfl

end Write

/-! ### Truncation -/

section Truncate

variable {now : Time} {m : Memory} {db : Db} {inode : Ino} {size : Nat} {r : SliceRef}

/-- A row cut at a size. -/
def trimRow (size : Nat) (r : SliceRef) : SliceRef :=
  if r.start < size ∧ r.stop > size then { r with slen := size - r.start } else r

/-- The rows that a truncation keeps, cut at the new size. -/
def trimRows (size : Nat) (rows : List SliceRef) : List SliceRef :=
  (rows.filter fun r => r.start < size).map (trimRow size)

/-- The tables after `truncateTx`. -/
def truncated (now : Time) (inode : Ino) (size : Nat) (shrink : Prop) [Decidable shrink] (db : Db) :
    Db :=
  edit .changelog (inserted ⟨inode, .setattr⟩) <|
    setNode inode (fun a => Attr.touch now { a with length := size }) <|
      if shrink then
        edit .sliceRef (updated (fun r => r.inode = inode ∧ r.start < size ∧ r.stop > size)
          fun r => { r with slen := size - r.start }) <|
        edit .sliceRef (deleted fun r => r.inode = inode ∧ r.start ≥ size) db
      else db

/-- Anything but a directory can be truncated. -/
theorem exec_truncateTx (now : Time) (m : Memory) (size : Nat) {cur : Attr} (hc : nodeAt db inode = some cur)
    (hfile : cur.type ≠ .directory) :
    (truncateTx now inode size).exec m db
      = .ok ((), truncated now inode size (size < cur.length) db) := by
  simp only [truncateTx, exec_bind, exec_getAttr, hc, andThen_ok, exec_require, hfile, ne_eq,
    not_false_eq_true, if_true, exec_onlyIf, truncated]
  split
  all_goals
    simp only [exec_deleteRows, exec_updateRows, andThen_ok, exec_pure, exec_updateNode,
      exec_appendChangelog]

theorem nodeAt_truncated (shrink : Prop) [Decidable shrink] (i : Ino) :
    nodeAt (truncated now inode size shrink db) i = if i = inode
      then (nodeAt db i).map fun a => Attr.touch now { a with length := size }
      else nodeAt db i := by
  have hedit : ∀ j, nodeAt (if shrink then
      edit .sliceRef (updated (fun r => r.inode = inode ∧ r.start < size ∧ r.stop > size)
        fun r => { r with slen := size - r.start }) <|
      edit .sliceRef (deleted fun r => r.inode = inode ∧ r.start ≥ size) db
    else db) j = nodeAt db j := by
    intro j
    split
    · simp
    · rfl
  simp only [truncated, ne_eq, reduceCtorEq, not_false_eq_true, nodeAt_edit_of_ne, nodeAt_setNode,
    hedit]
  split
  case isTrue h => rw [h]
  case isFalse => rfl

/-- The `UPDATE` of a shrink, on one row. -/
def cutRow (inode : Ino) (size : Nat) (r : SliceRef) : SliceRef :=
  if decide (r.inode = inode ∧ r.start < size ∧ r.stop > size) = true
  then { r with slen := size - r.start } else r

theorem cutRow_inode (r : SliceRef) : (cutRow inode size r).inode = r.inode := by
  unfold cutRow
  split <;> rfl

theorem cutRow_of_eq (h : r.inode = inode) : cutRow inode size r = trimRow size r := by
  simp [cutRow, trimRow, h]

theorem cutRow_of_ne (h : r.inode ≠ inode) : cutRow inode size r = r := by
  simp [cutRow, h]

/-- The two statements of a shrink, on the rows of one file. -/
theorem filter_shrink (rows : List SliceRef) (i : Ino) :
    ((rows.filter fun r => !decide (r.inode = inode ∧ r.start ≥ size)).map
        (cutRow inode size)).filter (fun r => decide (r.inode = i))
      = if i = inode then trimRows size (rows.filter fun r => r.inode = i)
        else rows.filter fun r => r.inode = i := by
  have hcomp : (fun r => decide (r.inode = i)) ∘ cutRow inode size
      = fun r : SliceRef => decide (r.inode = i) := by
    funext r
    simp only [Function.comp, cutRow_inode]
  rw [List.filter_map, hcomp, List.filter_filter]
  split
  case isTrue hi =>
    subst hi
    rw [trimRows, List.filter_filter]
    have hkeep : rows.filter (fun r => decide (r.inode = i) &&
        !decide (r.inode = i ∧ r.start ≥ size))
        = rows.filter fun r => decide (r.start < size) && decide (r.inode = i) := by
      refine List.filter_congr fun r _ => ?_
      by_cases hr : r.inode = i
      · simp only [hr, true_and, decide_true, Bool.true_and, Bool.and_true, ← decide_not,
          decide_eq_decide]
        omega
      · simp [hr]
    rw [hkeep]
    refine List.map_congr_left fun r hr => cutRow_of_eq ?_
    have := (List.mem_filter.mp hr).2
    simp only [Bool.and_eq_true, decide_eq_true_eq] at this
    exact this.2
  case isFalse hi =>
    have hkeep : rows.filter (fun r => decide (r.inode = i) &&
        !decide (r.inode = inode ∧ r.start ≥ size))
        = rows.filter fun r => decide (r.inode = i) := by
      refine List.filter_congr fun r _ => ?_
      by_cases hr : r.inode = i
      · have hne : ¬ r.inode = inode := fun h => hi (hr.symm.trans h)
        simp [hne]
      · simp [hr]
    rw [hkeep]
    refine (List.map_congr_left fun r hr => cutRow_of_ne ?_).trans (List.map_id _)
    have hr' : r.inode = i := of_decide_eq_true (List.mem_filter.mp hr).2
    exact fun h => hi (hr'.symm.trans h)

theorem rowsOf_truncated (shrink : Prop) [Decidable shrink] (i : Ino) :
    rowsOf (truncated now inode size shrink db) i
      = if i = inode ∧ shrink then trimRows size (rowsOf db i) else rowsOf db i := by
  by_cases hs : shrink
  · have hrows : truncated now inode size shrink db .sliceRef
        = ((db .sliceRef).filter fun r => !decide (r.inode = inode ∧ r.start ≥ size)).map
          (cutRow inode size) := by
      simp only [truncated, hs, if_true, ne_eq, reduceCtorEq, not_false_eq_true, edit_of_ne,
        setNode_of_ne, edit_self, updated, deleted]
      rfl
    rw [rowsOf, hrows, filter_shrink]
    simp [hs, rowsOf]
  · have hrows : truncated now inode size shrink db .sliceRef = db .sliceRef := by
      simp [truncated, hs]
    rw [rowsOf, hrows, if_neg (by simp [hs])]
    rfl

end Truncate

/-! ### Bytes -/

section Bytes

variable {chunks : Nat → Option (List UInt8)} {rows : List SliceRef} {r : SliceRef} {size x : Nat}

theorem byteAt_concat : byteAt chunks (rows ++ [r]) x
    = if covers r x then sliceByte chunks r x else byteAt chunks rows x := by
  unfold byteAt
  rw [Layers.top_concat]
  by_cases h : covers r x = true
  · rw [if_pos h, if_pos h]
  · rw [if_neg h, if_neg h]

theorem byteAt_of_uncovered (h : ∀ r ∈ rows, covers r x = false) : byteAt chunks rows x = 0 := by
  rw [byteAt, Layers.top_eq_none.mpr h]

/-- The bytes depend on the slices that the rows name only. -/
theorem byteAt_congr {chunks' : Nat → Option (List UInt8)}
    (h : ∀ r ∈ rows, chunks' r.sliceId = chunks r.sliceId) :
    byteAt chunks' rows x = byteAt chunks rows x := by
  unfold byteAt
  cases htop : Layers.top covers rows x with
  | none => rfl
  | some r => simp only [sliceByte, h r (Layers.top_mem htop)]

/-- A row's first byte does not depend on its length. -/
theorem start_withLen (r : SliceRef) (n : Nat) : SliceRef.start { r with slen := n } = r.start := rfl

theorem trimRow_start : (trimRow size r).start = r.start := by
  unfold trimRow
  split
  · exact start_withLen r _
  · rfl

theorem trimRow_sliceId : (trimRow size r).sliceId = r.sliceId := by
  unfold trimRow
  split <;> rfl

theorem trimRow_stop (h : r.start < size) : (trimRow size r).stop = min r.stop size := by
  unfold trimRow
  split
  case isTrue hcut =>
    rw [SliceRef.stop, start_withLen]
    simp only
    omega
  case isFalse hcut => omega

theorem sliceByte_trimRow : sliceByte chunks (trimRow size r) x = sliceByte chunks r x := by
  unfold sliceByte
  rw [trimRow_start, trimRow_sliceId]
  unfold trimRow
  split <;> rfl

theorem mem_trimRows {s : SliceRef} :
    s ∈ trimRows size rows ↔ ∃ r ∈ rows, r.start < size ∧ trimRow size r = s := by
  simp [trimRows, and_assoc]

/-- **Truncation.**  The bytes below the new size stay, the others are gone. -/
theorem byteAt_trimRows :
    byteAt chunks (trimRows size rows) x = if x < size then byteAt chunks rows x else 0 := by
  split
  case isTrue hx =>
    have hcov : ∀ r ∈ rows.filter fun r => r.start < size, covers (trimRow size r) x = covers r x := by
      intro r hr
      have hr' : r.start < size := of_decide_eq_true (List.mem_filter.mp hr).2
      rw [Bool.eq_iff_iff, covers_iff, covers_iff, trimRow_start, trimRow_stop hr']
      omega
    have htop : Layers.top covers (trimRows size rows) x
        = (Layers.top covers rows x).map (trimRow size) := by
      rw [trimRows, Layers.top_map hcov, Layers.top_filter]
      intro r _ hr
      rw [covers_iff] at hr
      simp only [decide_eq_true_eq]
      omega
    rw [byteAt, htop, byteAt]
    cases Layers.top covers rows x with
    | none => rfl
    | some r => exact sliceByte_trimRow
  case isFalse hx =>
    refine byteAt_of_uncovered fun s hs => ?_
    obtain ⟨r, -, hr, rfl⟩ := mem_trimRows.mp hs
    rw [← Bool.not_eq_true, covers_iff, trimRow_stop hr]
    omega

end Bytes

/-! ### Ids -/

end MemoryLayer.Fileio

namespace MemoryLayer.Meta.Engine

/-- The id that the next slice gets. -/
def nextSliceId (e : Engine) : Nat := if e.sliceNext ≥ e.sliceEnd then e.nextslice else e.sliceNext

/-- The engine's batch of slice ids was taken from the shared counter, which starts at one. -/
structure SliceIdsOk (e : Engine) : Prop where
  batch : e.sliceEnd ≤ e.nextslice
  pos : 0 < e.nextSliceId

theorem newSlice_fst (e : Engine) : e.newSlice.1 = e.nextSliceId := by
  unfold newSlice nextSliceId
  by_cases h : e.sliceNext ≥ e.sliceEnd
  · simp [h]
  · simp [h]

theorem newSlice_db (e : Engine) : e.newSlice.2.db = e.db := by
  unfold newSlice
  split <;> rfl

/-- Ids are not given out twice. -/
theorem newSlice_next {e : Engine} (h : e.SliceIdsOk) :
    e.nextSliceId < e.newSlice.2.nextSliceId ∧ e.newSlice.2.SliceIdsOk := by
  have hb := h.batch
  have hp := h.pos
  have hnext : e.nextSliceId < e.newSlice.2.nextSliceId ∧
      e.newSlice.2.sliceEnd ≤ e.newSlice.2.nextslice := by
    unfold newSlice nextSliceId inodeBatch
    by_cases hx : e.sliceNext ≥ e.sliceEnd
    · simp only [hx, if_true]
      split <;> omega
    · simp only [hx, if_false]
      split <;> omega
  exact ⟨hnext.1, hnext.2, by omega⟩

end MemoryLayer.Meta.Engine
