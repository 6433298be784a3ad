import MemoryLayer.Fileio.Ops

namespace MemoryLayer.Fileio

open Meta

/-! # A file is a byte array

The data path refines the obvious file: an array of bytes that writes overwrite and extend, and
truncations cut or pad with zeros.

* `FileOp` — the operations on one file, and how `Files` executes them;
* `refWrite`, `refTruncate` — the same on an array of bytes;
* `Represents` — the array has the length and the bytes of the file;
* `represents_step` — one operation keeps this;
* `read_run` — after every history, a read of any range returns the array's bytes;
* `read_run_several` — the same for histories of several files.
-/

/-- The operations on one file. -/
inductive FileOp where
  | write (now : Time) (offset : Nat) (data : List UInt8)
  | truncate (now : Time) (size : Nat)

namespace FileOp

/-- The data path executes an operation. -/
def exec (ino : Ino) (f : Files) : FileOp → (Nat × Option FileErr) × Files
  | .write now offset data => f.write now ino offset data
  | .truncate now size => ((0, (f.truncate now ino size).1), (f.truncate now ino size).2)

/-- The state after an operation. -/
def step (ino : Ino) (f : Files) (op : FileOp) : Files := (op.exec ino f).2

/-- The number of bytes an operation writes. -/
def count : FileOp → Nat
  | .write _ _ data => data.length
  | .truncate .. => 0

/-- The operation ends at most at `2 ^ 57`. -/
def Bounded : FileOp → Prop
  | .write _ offset data => offset + data.length ≤ 2 ^ 57
  | .truncate _ size => size ≤ 2 ^ 57

instance : ∀ op, Decidable (Bounded op)
  | .write _ offset data => inferInstanceAs (Decidable (offset + data.length ≤ 2 ^ 57))
  | .truncate _ size => inferInstanceAs (Decidable (size ≤ 2 ^ 57))

end FileOp

/-! ### The array of bytes -/

/-- Overwrite a range, filling a gap in front of it with zeros.  Writing nothing changes nothing. -/
def refWrite (bytes : List UInt8) (offset : Nat) (data : List UInt8) : List UInt8 :=
  if data = [] then bytes
  else bytes.take offset ++ List.replicate (offset - bytes.length) 0 ++ data ++
    bytes.drop (offset + data.length)

/-- Cut the array, or pad it with zeros. -/
def refTruncate (bytes : List UInt8) (size : Nat) : List UInt8 :=
  bytes.take size ++ List.replicate (size - bytes.length) 0

/-- An operation on the array. -/
def FileOp.ref (bytes : List UInt8) : FileOp → List UInt8
  | .write _ offset data => refWrite bytes offset data
  | .truncate _ size => refTruncate bytes size

section Array

variable {n : Nat} {g : Nat → UInt8} (hzero : ∀ k, n ≤ k → g k = 0)

include hzero

theorem refWrite_tabulate (offset : Nat) {data : List UInt8} (hdata : data ≠ []) :
    refWrite (tabulate n g) offset data = tabulate (max n (offset + data.length)) fun k =>
      if offset ≤ k ∧ k < offset + data.length then data.getD (k - offset) 0 else g k := by
  have hpos := List.length_pos_iff.mpr hdata
  refine List.ext_getElem? fun k => ?_
  -- in front of the range: old bytes, then the gap; behind it: what was there
  simp only [refWrite, if_neg hdata, List.getElem?_append, List.length_append, List.length_take,
    List.getElem?_take, List.getElem?_drop, List.getElem?_replicate, List.length_replicate,
    getElem?_tabulate, length_tabulate]
  grind

theorem refTruncate_tabulate (size : Nat) :
    refTruncate (tabulate n g) size = tabulate size fun k => if k < size then g k else 0 := by
  refine List.ext_getElem? fun k => ?_
  simp only [refTruncate, List.getElem?_append, List.length_take, List.getElem?_take,
    List.getElem?_replicate, getElem?_tabulate, length_tabulate]
  grind

end Array

theorem drop_take_tabulate (n : Nat) (g : Nat → UInt8) (offset len : Nat) :
    ((tabulate n g).drop offset).take len
      = tabulate (min len (n - offset)) fun k => g (offset + k) := by
  refine List.ext_getElem? fun k => ?_
  rw [List.getElem?_take, getElem?_tabulate, List.getElem?_drop, getElem?_tabulate]
  grind

/-! ### Refinement -/

/-- The array has the length and the bytes of the file. -/
structure Represents (f : Files) (ino : Ino) (bytes : List UInt8) : Prop where
  ids : f.engine.SliceIdsOk
  file : ∃ a, FileOk f ino a ∧ a.length ≤ 2 ^ 57 ∧ bytes = tabulate a.length (contents f ino)

variable {ino : Ino} {bytes : List UInt8} {f f' : Files} {a : Attr}

/-- The array after a write. -/
theorem represents_wrote (ha : FileOk f ino a)
    (hlen : a.length ≤ 2 ^ 57) {offset : Nat} {data : List UInt8}
    (hend : offset + data.length ≤ 2 ^ 57) (hwrote : Wrote f f' ino a offset data) :
    Represents f' ino (refWrite (tabulate a.length (contents f ino)) offset data) := by
  refine ⟨hwrote.ids, ?_⟩
  obtain ⟨a', ha', hlen'⟩ := hwrote.file
  refine ⟨a', ha', ?_, ?_⟩
  · rw [hlen']
    split <;> omega
  · rw [hlen', funext hwrote.bytes]
    by_cases hdata : data = []
    · subst hdata
      rw [refWrite, if_pos rfl, if_pos rfl]
      refine tabulate_congr fun k _ => (if_neg ?_).symm
      simp only [List.length_nil]
      omega
    · rw [if_neg hdata, refWrite_tabulate (fun k hk => ha.contents_eq_zero hk) offset hdata]

/-- The array after a truncation. -/
theorem represents_resized (ha : FileOk f ino a) {size : Nat}
    (hsize : size ≤ 2 ^ 57) (hres : Resized f f' ino size) :
    Represents f' ino (refTruncate (tabulate a.length (contents f ino)) size) := by
  refine ⟨hres.ids, ?_⟩
  obtain ⟨a', ha', hlen'⟩ := hres.file
  refine ⟨a', ha', hlen' ▸ hsize, ?_⟩
  rw [hlen', funext hres.bytes, refTruncate_tabulate (fun k hk => ha.contents_eq_zero hk)]

/-- **One operation.**  A bounded operation succeeds, and the array after it represents the file
    after it. -/
theorem represents_step (h : Represents f ino bytes)
    {op : FileOp} (hop : op.Bounded) :
    (op.exec ino f).1 = (op.count, none) ∧ Represents (op.step ino f) ino (op.ref bytes) := by
  obtain ⟨hids, a, ha, hlen, rfl⟩ := h
  cases op with
  | write now offset data =>
    obtain ⟨f', hwrite, hwrote⟩ := write_effect now ha hids hop
    have hstep : (FileOp.write now offset data).step ino f = f' := by
      rw [FileOp.step, FileOp.exec, hwrite]
    rw [FileOp.exec, hwrite, hstep]
    exact ⟨rfl, represents_wrote ha hlen hop hwrote⟩
  | truncate now size =>
    obtain ⟨f', htrunc, hres⟩ := truncate_effect now ha hids size
    have hstep : (FileOp.truncate now size).step ino f = f' := by
      rw [FileOp.step, FileOp.exec, htrunc]
    rw [FileOp.exec, htrunc, hstep]
    exact ⟨rfl, represents_resized ha hop hres⟩

theorem represents_run (h : Represents f ino bytes)
    {ops : List FileOp} (hops : ∀ op ∈ ops, op.Bounded) :
    Represents (Runs.run (FileOp.step ino) f ops) ino (ops.foldl FileOp.ref bytes) := by
  induction ops generalizing f bytes with
  | nil => exact h
  | cons op ops ih =>
    exact ih (represents_step h (hops op List.mem_cons_self)).2
      fun op' hop' => hops op' (List.mem_cons_of_mem _ hop')

theorem Represents.read (h : Represents f ino bytes)
    (offset len : Nat) : f.read ino offset len = .ok ((bytes.drop offset).take len) := by
  obtain ⟨-, a, ha, hlen, rfl⟩ := h
  rw [ha.read_eq hlen, drop_take_tabulate]

/-- A regular file as it was created: empty and without slices. -/
structure EmptyFile (f : Files) (ino : Ino) : Prop where
  ids : f.engine.SliceIdsOk
  node : ∃ a ∈ nodeAt f.engine.db ino, a.type = .file ∧ a.length = 0
  rows : rowsOf f.engine.db ino = []

theorem EmptyFile.represents (h : EmptyFile f ino) :
    Represents f ino [] := by
  obtain ⟨a, ha, hfile, hlen⟩ := h.node
  refine ⟨h.ids, a, ⟨ha, hfile, ?_, ?_, ?_⟩, by omega, ?_⟩
  · simp [h.rows]
  · simp [h.rows]
  · simp [h.rows]
  · rw [hlen]
    rfl

/-- **Every history.**  After every history of bounded writes and truncations of a file that was
    empty, a read of any range returns exactly the bytes of the array; and the next bounded
    operation succeeds. -/
theorem read_run (f : Files) (ino : Ino) (hf : EmptyFile f ino) (ops : List FileOp)
    (hops : ∀ op ∈ ops, op.Bounded) :
    (∀ offset len, (Runs.run (FileOp.step ino) f ops).read ino offset len
      = .ok (((ops.foldl FileOp.ref []).drop offset).take len)) ∧
    ∀ op : FileOp, op.Bounded →
      (op.exec ino (Runs.run (FileOp.step ino) f ops)).1 = (op.count, none) := by
  have hrun := represents_run hf.represents hops
  exact ⟨hrun.read, fun op hop => (represents_step hrun hop).1⟩

/-- A shrink discards the tail for good, and a write past the end leaves a gap of zeros. -/
theorem read_run_sparse :
    (Runs.run (FileOp.step 2)
      ⟨((Engine.bootstrap ⟨0, 0⟩ 0).createFile ⟨0, 0⟩ 1 "a" 0 ⟨0, 0⟩).2, fun _ => none,
        some Wal.empty⟩
      [.write ⟨0, 0⟩ 0 [1, 2, 3], .truncate ⟨0, 0⟩ 2, .write ⟨0, 0⟩ 5 [9]]).read 2 0 10
      = .ok [1, 2, 0, 0, 0, 9] :=
  (read_run _ 2 ⟨⟨by decide, by decide⟩, by decide, by decide⟩ _ (by decide)).1 0 10

/-! ### Several files -/

/-- A file keeps its bytes when another one changes. -/
theorem Represents.frame {i : Ino} (h : Represents f i bytes) (hids : f'.engine.SliceIdsOk)
    (hframe : Frame f f' ino) (hi : i ≠ ino) : Represents f' i bytes := by
  obtain ⟨-, a, ha, hlen, rfl⟩ := h
  have hrows := hframe.rows i hi
  -- the slices of the file were stored before, and stored slices are never written again
  have hslices : ∀ r ∈ rowsOf f.engine.db i, f'.chunks r.sliceId = f.chunks r.sliceId :=
    fun r hr => hframe.chunks _ (ha.given r hr)
  refine ⟨hids, a, ⟨(hframe.nodes i hi).trans ha.node, ha.file, ?_, ?_, ?_⟩, hlen, ?_⟩
  · rw [hrows]
    exact fun r hr => (ha.rows r hr).congr (hslices r hr)
  · rw [hrows]
    exact ha.ends
  · rw [hrows]
    exact fun r hr => Nat.lt_of_lt_of_le (ha.given r hr) hframe.next
  · unfold contents
    rw [hrows]
    exact tabulate_congr fun k _ => (byteAt_congr hslices).symm

theorem frame_step (h : Represents f ino bytes) {op : FileOp} (hop : op.Bounded) :
    Frame f (op.step ino f) ino := by
  obtain ⟨hids, a, ha, -, -⟩ := h
  cases op with
  | write now offset data =>
    obtain ⟨f', hwrite, hwrote⟩ := write_effect now ha hids hop
    rw [FileOp.step, FileOp.exec, hwrite]
    exact hwrote.frame
  | truncate now size =>
    obtain ⟨f', htrunc, hres⟩ := truncate_effect now ha hids size
    rw [FileOp.step, FileOp.exec, htrunc]
    exact hres.frame

/-- An operation on one of several arrays. -/
def refAt (arrays : Ino → List UInt8) (op : Ino × FileOp) : Ino → List UInt8 :=
  Function.update arrays op.1 (op.2.ref (arrays op.1))

theorem represents_run_several {inos : List Ino} {ops : List (Ino × FileOp)}
    (hops : ∀ op ∈ ops, op.1 ∈ inos ∧ op.2.Bounded) {arrays : Ino → List UInt8}
    (h : ∀ i ∈ inos, Represents f i (arrays i)) : ∀ i ∈ inos,
      Represents (Runs.run (fun f op => op.2.step op.1 f) f ops) i (Runs.run refAt arrays ops i) := by
  induction ops generalizing f arrays with
  | nil => exact h
  | cons op ops ih =>
    obtain ⟨hino, hop⟩ := hops op List.mem_cons_self
    have hself := (represents_step (h op.1 hino) hop).2
    refine ih (fun op' hop' => hops op' (List.mem_cons_of_mem _ hop')) fun i hi => ?_
    by_cases heq : i = op.1
    · rw [heq, refAt, Function.update_self]
      exact hself
    · rw [refAt, Function.update_of_ne heq]
      exact (h i hi).frame hself.ids (frame_step (h op.1 hino) hop) heq

/-- **Every history of several files.**  After every interleaving of bounded writes and truncations
    of files that were empty, a read of any range of any of them returns the bytes of its own array. -/
theorem read_run_several (f : Files) (inos : List Ino) (hf : ∀ i ∈ inos, EmptyFile f i)
    (ops : List (Ino × FileOp)) (hops : ∀ op ∈ ops, op.1 ∈ inos ∧ op.2.Bounded) :
    ∀ i ∈ inos, ∀ offset len, (Runs.run (fun f op => op.2.step op.1 f) f ops).read i offset len
      = .ok (((Runs.run refAt (fun _ => []) ops i).drop offset).take len) :=
  fun i hi => (represents_run_several hops (fun j hj => (hf j hj).represents) i hi).read

/-- Two files are written in turns. -/
theorem read_run_several_two :
    (Runs.run (fun f (op : Ino × FileOp) => op.2.step op.1 f)
      ⟨(((Engine.bootstrap ⟨0, 0⟩ 0).createFile ⟨0, 0⟩ 1 "a" 0 ⟨0, 0⟩).2.createFile ⟨0, 0⟩ 1 "b" 0
        ⟨0, 0⟩).2, fun _ => none, some Wal.empty⟩
      [(2, .write ⟨0, 0⟩ 0 [1, 2]), (3, .write ⟨0, 0⟩ 1 [3]), (2, .truncate ⟨0, 0⟩ 1)]).read 3 0 9
      = .ok [0, 3] := by
  refine read_run_several _ [2, 3] (fun i hi => ⟨⟨by decide, by decide⟩, ?_, ?_⟩) _ (by decide) 3
    (by decide) 0 9
  · revert i
    decide
  · revert i
    decide

end MemoryLayer.Fileio
