import MemoryLayer.Fileio.Effects

namespace MemoryLayer.Fileio

open Meta Sql Sql.Tx

/-! # Writing and truncating a file

What `Files.write` and `Files.truncate` do to the bytes and the length of a file, and that they
leave every other file alone.

- `FileOk`: a regular file whose rows lie in it and whose slices are stored.
- `Frame`: the files other than one keep their nodes, rows and slices.
- `write_effect`, `truncate_effect`: the two operations succeed, and what they leave.
-/

/-- The byte of a file at an offset. -/
def contents (f : Files) (ino : Ino) : Nat → UInt8 := byteAt f.chunks (rowsOf f.engine.db ino)

/-- A regular file with attributes `a`: its rows lie in it, their slices are stored, and their ids
    were given out before. -/
structure FileOk (f : Files) (ino : Ino) (a : Attr) : Prop where
  node : nodeAt f.engine.db ino = some a
  file : a.type = .file
  rows : ∀ r ∈ rowsOf f.engine.db ino, RowOk f.chunks r
  ends : ∀ r ∈ rowsOf f.engine.db ino, 0 < r.slen ∧ r.stop ≤ a.length
  given : ∀ r ∈ rowsOf f.engine.db ino, r.sliceId < f.engine.nextSliceId

/-- Files other than `ino` keep their nodes and rows, and stored slices keep their bytes. -/
structure Frame (f f' : Files) (ino : Ino) : Prop where
  nodes : ∀ i, i ≠ ino → nodeAt f'.engine.db i = nodeAt f.engine.db i
  rows : ∀ i, i ≠ ino → rowsOf f'.engine.db i = rowsOf f.engine.db i
  chunks : ∀ id < f.engine.nextSliceId, f'.chunks id = f.chunks id
  next : f.engine.nextSliceId ≤ f'.engine.nextSliceId

theorem Frame.refl (f : Files) (ino : Ino) : Frame f f ino :=
  ⟨fun _ _ => rfl, fun _ _ => rfl, fun _ _ => rfl, Nat.le_refl _⟩

theorem Frame.trans {f f' f'' : Files} {ino : Ino} (h : Frame f f' ino) (h' : Frame f' f'' ino) :
    Frame f f'' ino where
  nodes i hi := (h'.nodes i hi).trans (h.nodes i hi)
  rows i hi := (h'.rows i hi).trans (h.rows i hi)
  chunks id hid := (h'.chunks id (Nat.lt_of_lt_of_le hid h.next)).trans (h.chunks id hid)
  next := Nat.le_trans h.next h'.next

/-- A row whose slice keeps its bytes stays in order. -/
theorem RowOk.congr {chunks chunks' : Nat → Option (List UInt8)} {r : SliceRef}
    (h : RowOk chunks r) (hc : chunks' r.sliceId = chunks r.sliceId) : RowOk chunks' r :=
  ⟨h.chunk, h.slice, h.index, h.id, by rw [hc]; exact h.data⟩

section Frame

variable {f f' : Files} {ino i : Ino} {a : Attr}

/-- There is nothing beyond the end of a file. -/
theorem FileOk.contents_eq_zero (h : FileOk f i a) {x : Nat} (hx : a.length ≤ x) :
    contents f i x = 0 := by
  refine byteAt_of_uncovered fun r hr => ?_
  have := h.ends r hr
  rw [← Bool.not_eq_true, covers_iff]
  omega

/-- A read returns the contents up to the end of the file. -/
theorem FileOk.read_eq (h : FileOk f i a) (hlen : a.length ≤ 2 ^ 57) (offset len : Nat) :
    f.read i offset len
      = .ok (tabulate (min len (a.length - offset)) fun k => contents f i (offset + k)) :=
  Fileio.read_eq h.rows h.node fun _ _ => Nat.le_trans (Nat.min_le_right _ _) hlen

end Frame

/-! ### One chunk of a write -/

section Write

variable {f : Files} {ino : Ino} {a : Attr} {offset : Nat} {data : List UInt8}

/-- The part of the data that goes to the first chunk. -/
def chunkLen (offset : Nat) (data : List UInt8) : Nat :=
  min data.length (chunkSize - offset % chunkSize)

theorem chunkLen_pos (offset : Nat) (h : data ≠ []) : 0 < chunkLen offset data := by
  have hlen := List.length_pos_iff.mpr h
  have := (chunk_split offset).2
  unfold chunkLen
  omega

/-- The row of the first chunk of a write. -/
theorem stage_row (f : Files) (ino : Ino) (h : offset < 2 ^ 57) : (f.stage ino offset data).1
    = ⟨ino, offset / chunkSize, offset % chunkSize, f.engine.nextSliceId, chunkLen offset data, 0,
      chunkLen offset data⟩ := by
  have hn : (if data.length > chunkSize - offset % chunkSize then chunkSize - offset % chunkSize
      else data.length) = chunkLen offset data := by
    unfold chunkLen
    split <;> omega
  simp only [Files.stage, hn, (chunk_index h).1, ← Engine.newSlice_fst]

theorem stage_engine (f : Files) (ino : Ino) (offset : Nat) (data : List UInt8) :
    (f.stage ino offset data).2.engine = f.engine.newSlice.2 := rfl

theorem stage_chunks (f : Files) (ino : Ino) (offset : Nat) (data : List UInt8) :
    (f.stage ino offset data).2.chunks
      = Function.update f.chunks f.engine.nextSliceId (some (data.take (chunkLen offset data))) := by
  have hn : (if data.length > chunkSize - offset % chunkSize then chunkSize - offset % chunkSize
      else data.length) = chunkLen offset data := by
    unfold chunkLen
    split <;> omega
  rw [← Engine.newSlice_fst, ← hn]
  rfl

/-- The state after a write to a file: the file is longer by what was written beyond its end, the
    range has the new bytes, and nothing else changed. -/
structure Wrote (f f' : Files) (ino : Ino) (a : Attr) (offset : Nat) (data : List UInt8) :
    Prop where
  frame : Frame f f' ino
  ids : f'.engine.SliceIdsOk
  file : ∃ a', FileOk f' ino a' ∧
    a'.length = if data = [] then a.length else max a.length (offset + data.length)
  bytes : ∀ x, contents f' ino x = if offset ≤ x ∧ x < offset + data.length
    then data.getD (x - offset) 0 else contents f ino x

/-- A file with one more row. -/
theorem FileOk.concat {f' : Files} {a' : Attr} {r : SliceRef} (h : FileOk f ino a)
    (hnode : nodeAt f'.engine.db ino = some a') (hfile : a'.type = .file)
    (hrows : rowsOf f'.engine.db ino = rowsOf f.engine.db ino ++ [r])
    (hold : ∀ s ∈ rowsOf f.engine.db ino, f'.chunks s.sliceId = f.chunks s.sliceId)
    (hlen : a.length ≤ a'.length) (hnext : f.engine.nextSliceId ≤ f'.engine.nextSliceId)
    (hr : RowOk f'.chunks r ∧ (0 < r.slen ∧ r.stop ≤ a'.length) ∧
      r.sliceId < f'.engine.nextSliceId) : FileOk f' ino a' := by
  have hall : ∀ s ∈ rowsOf f'.engine.db ino, RowOk f'.chunks s ∧
      (0 < s.slen ∧ s.stop ≤ a'.length) ∧ s.sliceId < f'.engine.nextSliceId := by
    intro s hs
    rw [hrows, List.mem_append, List.mem_singleton] at hs
    rcases hs with hs | rfl
    · have hends := h.ends s hs
      have hgiven := h.given s hs
      exact ⟨(h.rows s hs).congr (hold s hs), by omega, by omega⟩
    · exact hr
  exact ⟨hnode, hfile, fun s hs => (hall s hs).1, fun s hs => (hall s hs).2.1,
    fun s hs => (hall s hs).2.2⟩

/-- The first chunk of a write: its row is recorded. -/
theorem write_chunk (now : Time) (h : FileOk f ino a) (hids : f.engine.SliceIdsOk)
    (hdata : data ≠ []) (hend : offset + data.length ≤ 2 ^ 57) :
    ∃ e', (f.stage ino offset data).2.engine.write now (f.stage ino offset data).1 = (.ok (), e') ∧
      Wrote f { (f.stage ino offset data).2 with engine := e' } ino a offset
        (data.take (chunkLen offset data)) := by
  have hlen := List.length_pos_iff.mpr hdata
  have hpos := chunkLen_pos offset hdata
  have hle : chunkLen offset data ≤ data.length := Nat.min_le_left _ _
  have hle' : chunkLen offset data ≤ chunkSize - offset % chunkSize := Nat.min_le_right _ _
  obtain ⟨hsplit, hmod⟩ := chunk_split offset
  have hidx := (chunk_index (x := offset) (by omega)).2
  have hcs : chunkSize < int4Max := by decide
  obtain ⟨hnext, hids'⟩ := Engine.newSlice_next hids
  rw [stage_row f ino (by omega), stage_engine]
  generalize hr : (⟨ino, offset / chunkSize, offset % chunkSize, f.engine.nextSliceId,
    chunkLen offset data, 0, chunkLen offset data⟩ : SliceRef) = r
  have hri : r.inode = ino := by rw [← hr]
  have hrid : r.sliceId = f.engine.nextSliceId := by rw [← hr]
  have hstart : r.start = offset := by rw [← hr]; exact hsplit
  have hstop : r.stop = offset + chunkLen offset data := by rw [SliceRef.stop, hstart, ← hr]
  have hfit : RowFits r := by
    rw [← hr]
    unfold RowFits
    simp only
    omega
  have hnew : ¬ HasSlice f.engine.db r.inode r.sliceId := by
    rintro ⟨s, hs, hsid⟩
    rw [hri] at hs
    have := h.given s hs
    omega
  have hexec := exec_writeTx now f.engine.newSlice.2.memory (by rw [hri]; exact h.node) h.file hfit
  rw [if_neg hnew] at hexec
  refine ⟨{ f.engine.newSlice.2 with db := written now r (max a.length r.stop) f.engine.db }, ?_, ?_⟩
  · rw [Engine.write, Engine.withTx, Engine.newSlice_db, hexec]
  have hlen' : (data.take (chunkLen offset data)).length = chunkLen offset data := by
    rw [List.length_take]
    omega
  have hne : data.take (chunkLen offset data) ≠ [] := by
    rw [← List.length_pos_iff, hlen']
    exact hpos
  have hchunks := stage_chunks f ino offset data
  -- the old rows keep their slices
  have hold : ∀ s ∈ rowsOf f.engine.db ino,
      (f.stage ino offset data).2.chunks s.sliceId = f.chunks s.sliceId := by
    intro s hs
    rw [hchunks, Function.update_of_ne]
    have := h.given s hs
    omega
  have hslice : (f.stage ino offset data).2.chunks r.sliceId
      = some (data.take (chunkLen offset data)) := by
    rw [hchunks, hrid, Function.update_self]
  have hrows : ∀ i, rowsOf (written now r (max a.length r.stop) f.engine.db) i
      = if i = ino then rowsOf f.engine.db i ++ [r] else rowsOf f.engine.db i := by
    intro i
    rw [rowsOf_written _ _ hnew, hri]
  have hrow : RowOk (f.stage ino offset data).2.chunks r := by
    have hid := hids.pos
    refine ⟨?_, ?_, ?_, by omega, _, hslice, ?_⟩
    · rw [← hr]
      simp only
      omega
    · rw [← hr]
      simp only
      omega
    · rw [← hr]
      exact hidx
    · rw [hlen', ← hr]
      simp only
      omega
  have hslen : 0 < r.slen := by rwa [← hr]
  refine ⟨⟨fun i hi => ?_, fun i hi => ?_, fun id hid => ?_, Nat.le_of_lt hnext⟩, ⟨hids'.1, hids'.2⟩,
    ⟨Attr.touch now { a with length := max a.length r.stop }, h.concat ?_ h.file ?_ hold
      (Nat.le_max_left ..) (Nat.le_of_lt hnext)
      ⟨hrow, ⟨hslen, Nat.le_max_right ..⟩, hrid ▸ hnext⟩, ?_⟩, ?_⟩
  · rw [nodeAt_written, hri, if_neg hi]
  · rw [hrows, if_neg hi]
  · rw [hchunks, Function.update_of_ne (by omega)]
  · rw [nodeAt_written, hri, if_pos rfl, h.node]
    rfl
  · rw [hrows, if_pos rfl]
  · rw [if_neg hne, hlen', ← hstop]
    rfl
  · intro x
    rw [hlen', contents, hrows, if_pos rfl, byteAt_concat]
    have hcov : covers r x = true ↔ offset ≤ x ∧ x < offset + chunkLen offset data := by
      rw [covers_iff, hstart, hstop]
    by_cases hx : offset ≤ x ∧ x < offset + chunkLen offset data
    · rw [if_pos (hcov.mpr hx), if_pos hx, sliceByte, hslice, hstart]
      rw [show r.soff = 0 by rw [← hr], Nat.zero_add]
      rfl
    · rw [if_neg fun hc => hx (hcov.mp hc), if_neg hx]
      exact byteAt_congr hold

/-- Nothing is written. -/
theorem Wrote.nil (h : FileOk f ino a) (hids : f.engine.SliceIdsOk) (offset : Nat) :
    Wrote f f ino a offset [] :=
  ⟨Frame.refl f ino, hids, ⟨a, h, by simp⟩, fun x => by
    rw [if_neg (by simp only [List.length_nil]; omega)]⟩

/-- One write after another, where the first ends. -/
theorem Wrote.append {f₁ f₂ : Files} {a₁ : Attr} {data₁ data₂ : List UInt8}
    (h₁ : Wrote f f₁ ino a offset data₁) (hne : data₁ ≠ []) (ha₁ : FileOk f₁ ino a₁)
    (h₂ : Wrote f₁ f₂ ino a₁ (offset + data₁.length) data₂) :
    Wrote f f₂ ino a offset (data₁ ++ data₂) := by
  obtain ⟨a₁', ha₁', hlen₁⟩ := h₁.file
  obtain rfl := Option.some.inj (ha₁.node.symm.trans ha₁'.node)
  obtain ⟨a₂, ha₂, hlen₂⟩ := h₂.file
  refine ⟨h₁.frame.trans h₂.frame, h₂.ids, ⟨a₂, ha₂, ?_⟩, fun x => ?_⟩
  · rw [if_neg hne] at hlen₁
    rw [if_neg (by simp [hne]), List.length_append, hlen₂]
    split
    case isTrue hnil =>
      rw [hnil, List.length_nil, hlen₁]
      omega
    case isFalse => omega
  · simp only [h₂.bytes, h₁.bytes, List.length_append, List.getD_eq_getElem?_getD,
      List.getElem?_append]
    grind

theorem writeLoop_effect (now : Time) {fuel : Nat} (written : Nat) (h : FileOk f ino a)
    (hids : f.engine.SliceIdsOk) (hend : offset + data.length ≤ 2 ^ 57) (hfuel : data.length ≤ fuel) :
    ∃ f', Files.writeLoop now ino fuel f offset data written = ((written + data.length, none), f') ∧
      Wrote f f' ino a offset data := by
  induction fuel generalizing f a offset data written with
  | zero =>
    obtain rfl : data = [] := List.length_eq_zero_iff.mp (by omega)
    exact ⟨f, rfl, Wrote.nil h hids offset⟩
  | succ fuel ih =>
    rw [Files.writeLoop]
    by_cases hdata : data = []
    · subst hdata
      exact ⟨f, rfl, Wrote.nil h hids offset⟩
    · have hpos := chunkLen_pos offset hdata
      have hle : chunkLen offset data ≤ data.length := Nat.min_le_left _ _
      have hlen := List.length_pos_iff.mpr hdata
      obtain ⟨e', hwrite, hwrote⟩ := write_chunk now h hids hdata hend
      have hslen : (f.stage ino offset data).1.slen = chunkLen offset data := by
        rw [stage_row f ino (by omega)]
      have hlen' : (data.take (chunkLen offset data)).length = chunkLen offset data := by
        rw [List.length_take]
        omega
      have hne : data.take (chunkLen offset data) ≠ [] := by
        rw [← List.length_pos_iff, hlen']
        exact hpos
      -- the rest of the data goes to the next chunk
      obtain ⟨a₁, ha₁, -⟩ := hwrote.file
      have hend' : offset + chunkLen offset data + (data.drop (chunkLen offset data)).length
          ≤ 2 ^ 57 := by
        rw [List.length_drop]
        omega
      obtain ⟨f', hloop, hwrote'⟩ := ih (written + chunkLen offset data) ha₁ hwrote.ids hend'
        (by rw [List.length_drop]; omega)
      refine ⟨f', ?_, ?_⟩
      · rw [if_neg (by simp [hdata])]
        simp only [hwrite, hslen]
        rw [hloop, List.length_drop]
        congr 2
        omega
      · rw [← List.take_append_drop (chunkLen offset data) data]
        exact hwrote.append hne ha₁ (by rw [hlen']; exact hwrote')

/-- **Writing.**  A write below `2 ^ 57` succeeds; the range has the new bytes, and nothing else
    changed. -/
theorem write_effect (now : Time) (h : FileOk f ino a) (hids : f.engine.SliceIdsOk)
    (hend : offset + data.length ≤ 2 ^ 57) :
    ∃ f', f.write now ino offset data = ((data.length, none), f') ∧
      Wrote f f' ino a offset data := by
  obtain ⟨f', hloop, hwrote⟩ := writeLoop_effect now 0 h hids hend (Nat.le_refl _)
  exact ⟨f', by rw [Files.write, hloop, Nat.zero_add], hwrote⟩

end Write

/-! ### Truncation -/

/-- The state after a file was given a size. -/
structure Resized (f f' : Files) (ino : Ino) (size : Nat) : Prop where
  frame : Frame f f' ino
  ids : f'.engine.SliceIdsOk
  file : ∃ a', FileOk f' ino a' ∧ a'.length = size
  bytes : ∀ x, contents f' ino x = if x < size then contents f ino x else 0

section Truncate

variable {f : Files} {ino : Ino} {a : Attr}

/-- A row in order stays so when it is cut. -/
theorem RowOk.trim {chunks : Nat → Option (List UInt8)} {r : SliceRef} (h : RowOk chunks r)
    {size : Nat} (hlt : r.start < size) : RowOk chunks (trimRow size r) := by
  have hstop := trimRow_stop hlt
  have hslen : (trimRow size r).slen ≤ r.slen := by
    rw [SliceRef.stop, SliceRef.stop, trimRow_start] at hstop
    omega
  have hfields : (trimRow size r).pos = r.pos ∧ (trimRow size r).soff = r.soff ∧
      (trimRow size r).indx = r.indx := by
    unfold trimRow
    split
    · exact ⟨rfl, rfl, rfl⟩
    · exact ⟨rfl, rfl, rfl⟩
  obtain ⟨hpos, hsoff, hindx⟩ := hfields
  obtain ⟨d, hd, hlen⟩ := h.data
  have hc := h.chunk
  have hs := h.slice
  refine ⟨by omega, by omega, ?_, ?_, d, ?_, by omega⟩
  · rw [hindx]
    exact h.index
  · rw [trimRow_sliceId]
    exact h.id
  · rw [trimRow_sliceId]
    exact hd

/-- The metadata part of a truncation: on a file in order, the rows are cut whether or not the file
    shrinks. -/
theorem truncate_engine (now : Time) (h : FileOk f ino a) (hids : f.engine.SliceIdsOk) (size : Nat) :
    ∃ e', f.engine.truncate now ino size = (.ok (), e') ∧
      Resized f { f with engine := e' } ino size := by
  have hnotdir : a.type ≠ .directory := by
    rw [h.file]
    decide
  have hexec := exec_truncateTx now f.engine.memory size h.node hnotdir
  refine ⟨{ f.engine with db := truncated now ino size (size < a.length) f.engine.db }, ?_, ?_⟩
  · rw [Engine.truncate, Engine.withTx, hexec]
  have hrows : ∀ i, rowsOf (truncated now ino size (size < a.length) f.engine.db) i
      = if i = ino ∧ size < a.length then trimRows size (rowsOf f.engine.db i)
        else rowsOf f.engine.db i := fun i => rowsOf_truncated _ i
  -- a grow finds nothing to cut
  have hmem : ∀ s ∈ rowsOf (truncated now ino size (size < a.length) f.engine.db) ino,
      ∃ r ∈ rowsOf f.engine.db ino, r.start < size ∧ s = trimRow size r := by
    intro s hs
    rw [hrows] at hs
    split at hs
    · obtain ⟨r, hr, hlt, rfl⟩ := mem_trimRows.mp hs
      exact ⟨r, hr, hlt, rfl⟩
    case isFalse hgrow =>
      have hends := h.ends s hs
      have hle : s.stop ≤ size := by
        have : ¬ size < a.length := fun hlt => hgrow ⟨rfl, hlt⟩
        omega
      have hlt : s.start < size := by
        rw [SliceRef.stop] at hle
        omega
      exact ⟨s, hs, hlt, by rw [trimRow, if_neg (by omega)]⟩
  refine ⟨⟨fun i hi => ?_, fun i hi => ?_, fun _ _ => rfl, Nat.le_refl _⟩, ⟨hids.1, hids.2⟩,
    ⟨Attr.touch now { a with length := size }, ⟨?_, h.file, ?_, ?_, ?_⟩, rfl⟩, fun x => ?_⟩
  · rw [nodeAt_truncated, if_neg hi]
  · rw [hrows, if_neg fun hc => hi hc.1]
  · rw [nodeAt_truncated, if_pos rfl, h.node]
    rfl
  · intro s hs
    obtain ⟨r, hr, hlt, rfl⟩ := hmem s hs
    exact (h.rows r hr).trim hlt
  · intro s hs
    obtain ⟨r, hr, hlt, rfl⟩ := hmem s hs
    have hstop := trimRow_stop hlt
    have hpos := (h.ends r hr).1
    refine ⟨?_, by rw [hstop]; exact Nat.min_le_right _ _⟩
    rw [SliceRef.stop, SliceRef.stop, trimRow_start] at hstop
    omega
  · intro s hs
    obtain ⟨r, hr, -, rfl⟩ := hmem s hs
    rw [trimRow_sliceId]
    exact h.given r hr
  · rw [contents, hrows]
    by_cases hshrink : size < a.length
    · rw [if_pos ⟨rfl, hshrink⟩]
      exact byteAt_trimRows
    · rw [if_neg fun hc => hshrink hc.2]
      split
      · rfl
      · exact h.contents_eq_zero (by omega)

/-- **Truncation.**  The bytes below the new size stay, and beyond it there is nothing. -/
theorem truncate_effect (now : Time) (h : FileOk f ino a) (hids : f.engine.SliceIdsOk) (size : Nat) :
    ∃ f', f.truncate now ino size = (none, f') ∧ Resized f f' ino size := by
  have hlog : FileOk (f.log (Files.truncateRecord ino size)) ino a :=
    ⟨h.node, h.file, h.rows, h.ends, h.given⟩
  obtain ⟨e', htrunc, hres⟩ := truncate_engine now hlog hids size
  refine ⟨{ f.log (Files.truncateRecord ino size) with engine := e' }, ?_, ?_⟩
  · rw [Files.truncate]
    simp only [htrunc]
  · exact ⟨⟨hres.frame.nodes, hres.frame.rows, hres.frame.chunks, hres.frame.next⟩, hres.ids,
      hres.file, hres.bytes⟩

end Truncate

end MemoryLayer.Fileio
