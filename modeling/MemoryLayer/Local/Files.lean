import MemoryLayer.Local.Path
import MemoryLayer.Sql.Keyed

namespace MemoryLayer.Local

/-! # A file system

The directories and files that a local store works on.

- `Fs`: a tree of directories and files, no two at one path.
- `write`, `removeWhere`, `mkdirAll`, `removeAll`, `removeEmpty`: what changes it.
- `readDir`: the directories in a directory.
- `node_write`, `node_removeWhere`, `node_mkdirAll`, `mem_readDir`: what they do, path by path.
-/

/-- What the metadata of a snapshot says about it; times are in nanoseconds, and zero is no time. -/
structure SnapshotMetadata where
  key : SnapshotKey
  version : GoString
  sizeBytes : Nat
  createdAt : Int
  deriving DecidableEq, Repr

/-- A directory, the blob of a snapshot, or its metadata. -/
inductive Node where
  | dir
  | blob (bytes : List UInt8)
  | metadata (md : SnapshotMetadata)
  deriving DecidableEq, Repr

/-! ### Paths in a tree -/

namespace FilePath

/-- The directories on the way to a path, and the path itself. -/
def upTo (p : FilePath) : List FilePath :=
  (List.range p.names.length).map fun i => { p with names := p.names.take (i + 1) }

/-- The other path is this one, or below it. -/
def covers (p q : FilePath) : Bool :=
  p.rooted = q.rooted ∧ p.names <+: q.names ∧ text ".." ∉ q.names.drop p.names.length

variable {p q : FilePath} {name : GoString}

theorem covers_iff : p.covers q = true ↔
    ∃ rest, text ".." ∉ rest ∧ q = { p with names := p.names ++ rest } := by
  obtain ⟨rooted, names⟩ := p
  obtain ⟨rooted', names'⟩ := q
  simp only [covers, decide_eq_true_eq, FilePath.mk.injEq]
  constructor
  · rintro ⟨rfl, ⟨rest, rfl⟩, hdots⟩
    rw [List.drop_left] at hdots
    exact ⟨rest, hdots, rfl, rfl⟩
  · rintro ⟨rest, hdots, rfl, rfl⟩
    exact ⟨rfl, List.prefix_append .., by rwa [List.drop_left]⟩

theorem covers_refl (p : FilePath) : p.covers p = true :=
  covers_iff.mpr ⟨[], by simp, by simp⟩

theorem covers_trans {r : FilePath} (h : p.covers q = true) (h' : q.covers r = true) :
    p.covers r = true := by
  obtain ⟨rest, hdots, rfl⟩ := covers_iff.mp h
  obtain ⟨rest', hdots', rfl⟩ := covers_iff.mp h'
  exact covers_iff.mpr ⟨rest ++ rest', by simp [hdots, hdots'], by simp⟩

theorem covers_child (h : name ≠ text "..") :
    p.covers (p.child name) = true :=
  covers_iff.mpr ⟨[name], by simpa using h.symm, rfl⟩

theorem mem_upTo : q ∈ p.upTo ↔
    ∃ front back, front ≠ [] ∧ p.names = front ++ back ∧ q = { p with names := front } := by
  simp only [upTo, List.mem_map, List.mem_range]
  constructor
  · rintro ⟨i, hi, rfl⟩
    refine ⟨p.names.take (i + 1), p.names.drop (i + 1), fun h => ?_, by simp, rfl⟩
    have := congrArg List.length h
    rw [List.length_take, List.length_nil] at this
    omega
  · rintro ⟨front, back, hne, hsplit, rfl⟩
    have hpos := List.length_pos_iff.mpr hne
    refine ⟨front.length - 1, by rw [hsplit, List.length_append]; omega, ?_⟩
    rw [Nat.sub_add_cancel hpos, hsplit, List.take_left]

theorem mem_upTo_child :
    q ∈ (p.child name).upTo ↔ q ∈ p.upTo ∨ q = p.child name := by
  simp only [mem_upTo, child]
  constructor
  · rintro ⟨front, back, hne, hsplit, rfl⟩
    rcases List.eq_nil_or_concat back with rfl | ⟨back, last, rfl⟩
    · rw [List.append_nil] at hsplit
      exact .inr (by rw [hsplit])
    · rw [List.concat_eq_append, ← List.append_assoc] at hsplit
      obtain ⟨hsplit, -⟩ := List.append_inj' hsplit rfl
      exact .inl ⟨front, back, hne, hsplit, rfl⟩
  · rintro (⟨front, back, hne, hsplit, rfl⟩ | rfl)
    · exact ⟨front, back ++ [name], hne, by rw [hsplit, List.append_assoc], rfl⟩
    · exact ⟨p.names ++ [name], [], by simp, by simp, rfl⟩

/-- The name under which the path is listed in the directory. -/
def nameIn (p dir : FilePath) : Option GoString :=
  if p.rooted = dir.rooted ∧ p.names.dropLast = dir.names ∧ p.names.getLast? ≠ some (text "..") then
    p.names.getLast?
  else none

theorem nameIn_eq_some {dir : FilePath} :
    p.nameIn dir = some name ↔ p = dir.child name ∧ name ≠ text ".." := by
  unfold nameIn child
  constructor
  · intro h
    split at h
    · rename_i hdir
      obtain ⟨rooted, names⟩ := p
      obtain ⟨hrooted, hnames, hdots⟩ := hdir
      dsimp only at hrooted hnames hdots h
      rw [h, ne_eq, Option.some.injEq] at hdots
      rw [FilePath.mk.injEq]
      exact ⟨⟨hrooted, by rw [← hnames, List.dropLast_append_getLast? name h]⟩, hdots⟩
    · cases h
  · rintro ⟨rfl, hdots⟩
    simp [hdots]

end FilePath

/-! ### The file system -/

/-- A file system: what is at which path. -/
structure Fs where
  nodes : List (FilePath × Node)
  distinct : (nodes.map Prod.fst).Nodup

namespace Fs

def empty : Fs := ⟨[], List.nodup_nil⟩

variable (fs : Fs) {p : FilePath}

/-- What is at a path. -/
def node (p : FilePath) : Option Node := (fs.nodes.find? fun x => x.1 = p).map Prod.snd

/-- Remove what is at some paths. -/
def removeWhere (gone : FilePath → Bool) : Fs where
  nodes := fs.nodes.filter fun x => !gone x.1
  distinct := (List.filter_sublist.map _).nodup fs.distinct

/-- Put a node at a path. -/
def write (p : FilePath) (n : Node) : Fs where
  nodes := (fs.removeWhere fun q => q = p).nodes ++ [(p, n)]
  distinct := by
    rw [List.map_append, List.nodup_append]
    refine ⟨(fs.removeWhere _).distinct, List.nodup_singleton p, ?_⟩
    rintro q hq _ hp rfl
    cases List.mem_singleton.mp hp
    obtain ⟨x, hx, rfl⟩ := List.mem_map.mp hq
    simpa using (List.mem_filter.mp hx).2

@[simp] theorem node_removeWhere (gone : FilePath → Bool) (p : FilePath) :
    (fs.removeWhere gone).node p = if gone p then none else fs.node p := by
  rw [node, removeWhere, Sql.find?_filter_keys Prod.fst gone, node]
  split <;> rfl

@[simp] theorem node_write (p : FilePath) (n : Node) (q : FilePath) :
    (fs.write p n).node q = if q = p then some n else fs.node q := by
  have hremoved := fs.node_removeWhere (fun q => q = p) q
  unfold node at hremoved ⊢
  rw [write, Sql.find?_append_key Prod.fst, Option.map_or, hremoved]
  by_cases hq : q = p
  · simp [hq]
  · simp [hq, Ne.symm hq]

/-- The entries are the nodes. -/
theorem mem_nodes {fs : Fs} {n : Node} : (p, n) ∈ fs.nodes ↔ fs.node p = some n := by
  unfold node
  constructor
  · intro h
    rw [Sql.find?_key_eq_some fs.distinct h]
    rfl
  · intro h
    obtain ⟨x, hx, rfl⟩ := Option.map_eq_some_iff.mp h
    have hp : x.1 = p := by simpa using List.find?_some hx
    rw [← hp]
    exact List.mem_of_find?_eq_some hx

/-! ### Directories -/

/-- Make one directory on the way, unless an earlier one could not be made. -/
def mkdirStep (s : Fs × Bool) (p : FilePath) : Fs × Bool :=
  if s.2 then
    match s.1.node p with
    | none => (s.1.write p .dir, true)
    | some .dir => s
    | some _ => (s.1, false)
  else s

/-- `os.MkdirAll`: make the directories on the way to a path; a file on the way is an error. -/
def mkdirAll (p : FilePath) : Fs × Bool := p.upTo.foldl mkdirStep (fs, true)

/-- `os.RemoveAll`: remove a path and all that is below. -/
def removeAll (p : FilePath) : Fs := fs.removeWhere p.covers

/-- `os.Remove` of a directory, which fails unless it is empty. -/
def removeEmpty (p : FilePath) : Fs :=
  if fs.nodes.any fun x => p.covers x.1 && x.1 ≠ p then fs else fs.removeWhere fun q => q = p

/-- The directories in a directory (`os.ReadDir`). -/
def readDir (dir : FilePath) : List GoString :=
  fs.nodes.filterMap fun x => if x.2 = .dir then x.1.nameIn dir else none

theorem mem_readDir {fs : Fs} {dir : FilePath} {name : GoString} :
    name ∈ fs.readDir dir ↔ fs.node (dir.child name) = some .dir ∧ name ≠ text ".." := by
  rw [readDir, List.mem_filterMap, ← mem_nodes]
  constructor
  · rintro ⟨⟨p, n⟩, hmem, hname⟩
    dsimp only at hname
    split at hname
    · rename_i hdir
      obtain ⟨rfl, hdots⟩ := FilePath.nameIn_eq_some.mp hname
      rw [← hdir]
      exact ⟨hmem, hdots⟩
    · cases hname
  · rintro ⟨hmem, hdots⟩
    exact ⟨_, hmem, by rw [if_pos rfl]; exact FilePath.nameIn_eq_some.mpr ⟨rfl, hdots⟩⟩

theorem nodup_readDir (dir : FilePath) : (fs.readDir dir).Nodup := by
  refine List.Nodup.filterMap ?_ (List.Nodup.of_map _ fs.distinct)
  rintro ⟨p, n⟩ ⟨p', n'⟩ name hname hname'
  have hcases : ∀ {q : FilePath} {m : Node}, name ∈ (if m = .dir then q.nameIn dir else none) →
      (q, m) = (dir.child name, .dir) := by
    intro q m h
    split at h
    · rename_i hdir
      rw [(FilePath.nameIn_eq_some.mp h).1, hdir]
    · cases h
  exact (hcases hname).trans (hcases hname').symm

theorem mkdirStep_fst (s : Fs × Bool) (p : FilePath) :
    (mkdirStep s p).1 = s.1 ∨ s.1.node p = none ∧ (mkdirStep s p).1 = s.1.write p .dir := by
  unfold mkdirStep
  split
  · split
    · rename_i hnone
      exact .inr ⟨hnone, rfl⟩
    · exact .inl rfl
    · exact .inl rfl
  · exact .inl rfl

/-- What making directories changes: where nothing was, there may be one of them. -/
theorem node_foldl_mkdirStep (s : Fs × Bool) (ps : List FilePath) (q : FilePath) :
    (ps.foldl mkdirStep s).1.node q = s.1.node q
      ∨ q ∈ ps ∧ s.1.node q = none ∧ (ps.foldl mkdirStep s).1.node q = some .dir := by
  induction ps generalizing s with
  | nil => exact .inl rfl
  | cons p ps ih =>
    rw [List.foldl_cons]
    have hnode : (mkdirStep s p).1.node q = s.1.node q
        ∨ q = p ∧ s.1.node q = none ∧ (mkdirStep s p).1.node q = some .dir := by
      rcases mkdirStep_fst s p with hsame | ⟨hnone, hmade⟩
      · rw [hsame]
        exact .inl rfl
      · rw [hmade, node_write]
        by_cases hq : q = p
        · subst hq
          exact .inr ⟨rfl, hnone, if_pos rfl⟩
        · exact .inl (if_neg hq)
    rcases ih (mkdirStep s p) with hrest | ⟨hmem, hnone, hdir⟩
    · rcases hnode with hsame | ⟨rfl, hnone, hdir⟩
      · exact .inl (hrest.trans hsame)
      · exact .inr ⟨List.mem_cons_self .., hnone, hrest.trans hdir⟩
    · rcases hnode with hsame | ⟨rfl, hnone', hdir'⟩
      · exact .inr ⟨List.mem_cons_of_mem _ hmem, hsame.symm.trans hnone, hdir⟩
      · exact .inr ⟨List.mem_cons_self .., hnone', hdir⟩

theorem node_mkdirAll (p q : FilePath) :
    (fs.mkdirAll p).1.node q = fs.node q
      ∨ q ∈ p.upTo ∧ fs.node q = none ∧ (fs.mkdirAll p).1.node q = some .dir :=
  node_foldl_mkdirStep (fs, true) p.upTo q

/-- Where there are no files on the way, all the directories are made. -/
theorem mkdirAll_ok {fs : Fs}
    (h : ∀ q ∈ p.upTo, fs.node q = none ∨ fs.node q = some .dir) :
    (fs.mkdirAll p).2 = true ∧ ∀ q ∈ p.upTo, (fs.mkdirAll p).1.node q = some .dir := by
  have hfold : ∀ (ps : List FilePath) (fs : Fs), (∀ q ∈ ps, fs.node q = none ∨ fs.node q = some .dir) →
      (ps.foldl mkdirStep (fs, true)).2 = true
        ∧ ∀ q ∈ ps, (ps.foldl mkdirStep (fs, true)).1.node q = some .dir := by
    intro ps
    induction ps with
    | nil =>
      intro fs _
      exact ⟨rfl, nofun⟩
    | cons p ps ih =>
      intro fs hps
      obtain ⟨fs', hstep, hp, hrest⟩ : ∃ fs' : Fs, mkdirStep (fs, true) p = (fs', true)
          ∧ fs'.node p = some .dir ∧ ∀ q ∈ ps, fs'.node q = none ∨ fs'.node q = some .dir := by
        rcases hps p (List.mem_cons_self ..) with hnone | hdir
        · refine ⟨fs.write p .dir, by simp [mkdirStep, hnone], by simp, fun q hq => ?_⟩
          rw [node_write]
          split
          · exact .inr rfl
          · exact hps q (List.mem_cons_of_mem _ hq)
        · exact ⟨fs, by simp [mkdirStep, hdir], hdir, fun q hq => hps q (List.mem_cons_of_mem _ hq)⟩
      rw [List.foldl_cons, hstep]
      obtain ⟨hok, hdirs⟩ := ih fs' hrest
      refine ⟨hok, fun q hq => ?_⟩
      rcases List.mem_cons.mp hq with rfl | hq
      · -- made first, and later steps leave it
        rcases node_foldl_mkdirStep (fs', true) ps q with hsame | ⟨-, hnone, -⟩
        · exact hsame.trans hp
        · rw [hp] at hnone
          cases hnone
      · exact hdirs q hq
  exact hfold p.upTo fs h

end Fs

end MemoryLayer.Local
