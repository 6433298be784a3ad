import MemoryLayer.Lib.Base64

namespace MemoryLayer.Local

/-! # Paths of a local store

How a snapshot key becomes a directory: each part of the key is made safe for a file name, and the
parts are joined to the root.  Joining cleans the path.

- `sanitize`, `keyPath`: the functions of `store_local.go`.
- `FilePath`, `clean`, `join`: cleaned paths.
- `sanitize_eq_iff`: **which parts of keys get one name.**
- `keyPath_eq`, `keyPath_version`: the directory of a key, name by name.
- `fourBelow_iff`: **which directories are four levels below the root.**
-/

/-- A Go string: any bytes. -/
abbrev GoString := List UInt8

/-- The bytes of a text. -/
def text (s : String) : GoString := s.toList.map fun c => UInt8.ofNat c.toNat

/-- What a snapshot belongs to. -/
structure SnapshotKey where
  tenant : GoString
  workspace : GoString
  user : GoString
  ownerKey : GoString
  deriving DecidableEq, Repr

/-- The parts of a key. -/
def SnapshotKey.parts (key : SnapshotKey) : List GoString :=
  [key.tenant, key.workspace, key.user, key.ownerKey]

/-! ### Names -/

/-- The characters that would break a path. -/
def breaksPath (s : GoString) : Bool := s.any (text "/\\:*?\"<>|\x00").contains

/-- A file name for a part of a key. -/
def sanitize (s : GoString) : GoString :=
  if s = [] then text "_" else if breaksPath s then Base64.encode s else s

/-- One of these two parts of keys is the other's name. -/
def Shadows (s s' : GoString) : Prop := s = [] ∧ s' = text "_" ∨ breaksPath s ∧ s' = Base64.encode s

instance (s s' : GoString) : Decidable (Shadows s s') := inferInstanceAs (Decidable (_ ∨ _))

/-- The parts of keys are the same, or one is the other's name. -/
def Collides (s s' : GoString) : Prop := s = s' ∨ Shadows s s' ∨ Shadows s' s

instance (s s' : GoString) : Decidable (Collides s s') := inferInstanceAs (Decidable (_ ∨ _))

/-- What an encoding consists of breaks no path. -/
theorem digit_safe {n : Nat} (h : n < 64) :
    Base64.digit n ∉ text "/\\:*?\"<>|\x00" ∧ Base64.digit n ≠ 46 := by
  have hall : ∀ n : Fin 64, Base64.digit n ∉ text "/\\:*?\"<>|\x00" ∧ Base64.digit n ≠ 46 := by decide
  exact hall ⟨n, h⟩

theorem breaksPath_iff {s : GoString} : breaksPath s = true ↔ ∃ c ∈ s, c ∈ text "/\\:*?\"<>|\x00" := by
  simp [breaksPath]

theorem not_breaksPath_encode (s : GoString) : ¬ breaksPath (Base64.encode s) = true := by
  rw [breaksPath_iff]
  rintro ⟨c, hc, hbad⟩
  obtain ⟨n, hn, rfl⟩ := Base64.mem_encode hc
  exact (digit_safe hn).1 hbad

theorem encode_ne_underscore (s : GoString) : Base64.encode s ≠ text "_" := by
  intro h
  by_cases hs : s = []
  · subst hs
    cases h
  · have := Base64.two_le_length_encode hs
    rw [h] at this
    exact absurd this (by decide)

theorem encode_ne_nil {s : GoString} (h : s ≠ []) : Base64.encode s ≠ [] := by
  intro hnil
  have := Base64.two_le_length_encode h
  rw [hnil] at this
  exact absurd this (by decide)

theorem sanitize_of_shadows {s s' : GoString} (h : Shadows s s') : sanitize s = sanitize s' := by
  rcases h with ⟨rfl, rfl⟩ | ⟨hbreaks, rfl⟩
  · decide
  · have hne : s ≠ [] := by
      rintro rfl
      cases hbreaks
    rw [sanitize, if_neg hne, if_pos hbreaks, sanitize, if_neg (encode_ne_nil hne),
      if_neg (not_breaksPath_encode s)]

/-- **Two parts of keys get one name when they collide.** -/
theorem sanitize_eq_iff {s s' : GoString} : sanitize s = sanitize s' ↔ Collides s s' := by
  constructor
  · intro h
    -- each of the two is empty, encoded, or taken as it is
    have hcases : ∀ t, (t = [] ∧ sanitize t = text "_") ∨ (breaksPath t = true ∧ sanitize t = Base64.encode t)
        ∨ sanitize t = t := by
      intro t
      unfold sanitize
      by_cases hnil : t = []
      · exact .inl ⟨hnil, if_pos hnil⟩
      · rw [if_neg hnil]
        by_cases hbreaks : breaksPath t = true
        · exact .inr (.inl ⟨hbreaks, if_pos hbreaks⟩)
        · exact .inr (.inr (if_neg hbreaks))
    rcases hcases s with ⟨rfl, hs⟩ | ⟨hbreaks, hs⟩ | hs <;>
      rcases hcases s' with ⟨rfl, hs'⟩ | ⟨hbreaks', hs'⟩ | hs' <;>
      replace h := hs.symm.trans (h.trans hs')
    · exact .inl rfl
    · exact absurd h.symm (encode_ne_underscore s')
    · exact .inr (.inl (.inl ⟨rfl, h.symm⟩))
    · exact absurd h (encode_ne_underscore s)
    · exact .inl (Base64.encode_injective h)
    · exact .inr (.inl (.inr ⟨hbreaks, h.symm⟩))
    · exact .inr (.inr (.inl ⟨rfl, h⟩))
    · exact .inr (.inr (.inr ⟨hbreaks', h⟩))
    · exact .inl h
  · rintro (rfl | h | h)
    · rfl
    · exact sanitize_of_shadows h
    · exact (sanitize_of_shadows h).symm

/-- The directory itself, or the one above it. -/
def isDots (name : GoString) : Bool := name = text "." ∨ name = text ".."

/-- A name that a directory can have: not empty, no slash in it, and neither of the two with dots. -/
def PlainName (name : GoString) : Prop := name ≠ [] ∧ (47 : UInt8) ∉ name ∧ isDots name = false

theorem sanitize_ne_nil (s : GoString) : sanitize s ≠ [] := by
  unfold sanitize
  split
  · decide
  · split
    · exact encode_ne_nil (by assumption)
    · assumption

theorem slash_not_mem_sanitize (s : GoString) : (47 : UInt8) ∉ sanitize s := by
  have hnot : ∀ t, ¬ breaksPath t = true → (47 : UInt8) ∉ t := by
    intro t hbreaks hmem
    exact hbreaks (breaksPath_iff.mpr ⟨47, hmem, by decide⟩)
  unfold sanitize
  split
  · decide
  · split
    · exact hnot _ (not_breaksPath_encode s)
    · rename_i hbreaks
      exact hnot s hbreaks

/-- Dots stay dots, and nothing else becomes dots. -/
theorem isDots_sanitize (s : GoString) : isDots (sanitize s) = isDots s := by
  unfold sanitize
  split
  · rename_i hs
    rw [hs]
    decide
  · rename_i hne
    split
    · rename_i hbreaks
      have hencoded : isDots (Base64.encode s) = false := by
        have hno : (46 : UInt8) ∉ Base64.encode s := by
          intro hmem
          obtain ⟨n, hn, hdigit⟩ := Base64.mem_encode hmem
          exact (digit_safe hn).2 hdigit.symm
        simp only [isDots, decide_eq_false_iff_not, not_or]
        exact ⟨fun h => hno (by rw [h]; decide), fun h => hno (by rw [h]; decide)⟩
      have hraw : isDots s = false := by
        simp only [isDots, decide_eq_false_iff_not, not_or]
        exact ⟨fun h => by rw [h] at hbreaks; revert hbreaks; decide,
          fun h => by rw [h] at hbreaks; revert hbreaks; decide⟩
      rw [hencoded, hraw]
    · rfl

/-! ### Cleaned paths -/

/-- A cleaned path: whether it begins at the root of the file system, and its names. -/
@[ext] structure FilePath where
  rooted : Bool
  names : List GoString
  deriving DecidableEq, Repr

variable (rooted : Bool) {key : SnapshotKey} {name : GoString}

/-- One more name in `Clean`: a dot changes nothing, and two dots take the last name away. -/
def push (names : List GoString) (name : GoString) : List GoString :=
  if name = [] ∨ name = text "." then names
  else if name = text ".." then
    match names.getLast? with
    | some last => if last = text ".." then names ++ [name] else names.dropLast
    | none => if rooted then [] else [name]
  else names ++ [name]

/-- `filepath.Clean`. -/
def clean (path : GoString) : FilePath :=
  let rooted := path.head? = some 47
  ⟨rooted, (path.splitOn 47).foldl (push rooted) []⟩

/-- `filepath.Join`. -/
def join (parts : List GoString) : FilePath :=
  clean ([47].intercalate (parts.dropWhile (· = [])))

/-- A name in a directory. -/
def FilePath.child (dir : FilePath) (name : GoString) : FilePath :=
  { dir with names := dir.names ++ [name] }

variable (rootDir : GoString)

/-- The directory of a key, or of one version of it. -/
def keyPath (key : SnapshotKey) (version : GoString) : FilePath :=
  join ([rootDir, sanitize key.tenant, sanitize key.workspace, sanitize key.user, sanitize key.ownerKey]
    ++ if version ≠ [] then [version] else [])

def blobPath (versionDir : FilePath) : FilePath := versionDir.child (text "blob")

def metaPath (versionDir : FilePath) : FilePath := versionDir.child (text "metadata.json")

/-- A name that is not dots is appended. -/
theorem push_plain (names : List GoString) (hne : name ≠ [])
    (hdots : isDots name = false) : push rooted names name = names ++ [name] := by
  simp only [isDots, decide_eq_false_iff_not, not_or] at hdots
  rw [push, if_neg (by simp [hne, hdots.1]), if_neg hdots.2]

theorem foldl_push_plain (names : List GoString) {more : List GoString}
    (h : ∀ name ∈ more, name ≠ [] ∧ isDots name = false) :
    more.foldl (push rooted) names = names ++ more := by
  induction more generalizing names with
  | nil => simp
  | cons name more ih =>
    obtain ⟨hne, hdots⟩ := h name (List.mem_cons_self ..)
    rw [List.foldl_cons, push_plain rooted names hne hdots,
      ih _ fun other hother => h other (List.mem_cons_of_mem _ hother), List.append_assoc]
    rfl

/-- Names without slashes are joined one by one. -/
theorem join_cons {names : List GoString} (hnil : names ≠ [])
    (hnames : ∀ name ∈ names, name ≠ [] ∧ (47 : UInt8) ∉ name) :
    join (rootDir :: names)
      = ⟨(clean rootDir).rooted, names.foldl (push (clean rootDir).rooted) (clean rootDir).names⟩ := by
  obtain ⟨first, rest, rfl⟩ := List.exists_cons_of_ne_nil hnil
  have hfirst := hnames first (List.mem_cons_self ..)
  have hsplit : List.splitOn 47 ([47].intercalate (first :: rest)) = first :: rest :=
    List.splitOn_intercalate 47 (fun name hname => (hnames name hname).2) (by simp)
  by_cases hroot : rootDir = []
  · subst hroot
    have hrooted : ([47].intercalate (first :: rest)).head? ≠ some (47 : UInt8) := by
      obtain ⟨c, cs, rfl⟩ := List.exists_cons_of_ne_nil hfirst.1
      have hc : c ≠ 47 := fun h => hfirst.2 (by rw [h]; exact List.mem_cons_self ..)
      cases rest with
      | nil => simpa [List.intercalate] using hc
      | cons second rest => simpa [List.intercalate] using hc
    unfold join
    rw [List.dropWhile_cons_of_pos (by simp), List.dropWhile_cons_of_neg (by simpa using hfirst.1)]
    unfold clean
    rw [hsplit]
    simp only [hrooted, decide_false]
    rfl
  · have hjoin : [47].intercalate (rootDir :: first :: rest)
        = rootDir ++ (47 : UInt8) :: [47].intercalate (first :: rest) := by
      simp [List.intercalate]
    have hhead : (rootDir ++ (47 : UInt8) :: [47].intercalate (first :: rest)).head? = rootDir.head? :=
      List.head?_append_of_ne_nil _ hroot
    unfold join
    rw [List.dropWhile_cons_of_neg (by simpa using hroot), hjoin]
    unfold clean
    rw [hhead]
    have happend : List.splitOn 47 (rootDir ++ (47 : UInt8) :: [47].intercalate (first :: rest))
        = List.splitOn 47 rootDir ++ (first :: rest) := by
      have hpieces := List.splitOnP_append_cons (p := (· == 47)) rootDir
        ([47].intercalate (first :: rest)) (beq_self_eq_true (47 : UInt8))
      exact hpieces.trans (congrArg _ hsplit)
    rw [happend]
    simp only [List.foldl_append]

/-! ### The directory of a key -/

/-- The names of the directories of a key. -/
def SnapshotKey.names (key : SnapshotKey) : List GoString := key.parts.map sanitize

theorem mem_names (h : name ∈ key.names) :
    name ≠ [] ∧ (47 : UInt8) ∉ name := by
  obtain ⟨s, -, rfl⟩ := List.mem_map.mp h
  exact ⟨sanitize_ne_nil s, slash_not_mem_sanitize s⟩

/-- The directory of a key, name by name. -/
theorem keyPath_eq (key : SnapshotKey) :
    keyPath rootDir key []
      = ⟨(clean rootDir).rooted, key.names.foldl (push (clean rootDir).rooted) (clean rootDir).names⟩ :=
  join_cons rootDir (by simp) fun _ h => mem_names h

/-- The directory of a version is in that of the key. -/
theorem keyPath_version (key : SnapshotKey) {version : GoString}
    (h : PlainName version) : keyPath rootDir key version = (keyPath rootDir key []).child version := by
  have hjoin : keyPath rootDir key version = join (rootDir :: (key.names ++ [version])) := by
    rw [keyPath, if_pos h.1]
    rfl
  rw [hjoin, join_cons rootDir (by simp) fun name hname => ?_, keyPath_eq, FilePath.child]
  · rw [List.foldl_append]
    dsimp only [List.foldl]
    rw [push_plain _ _ h.1 h.2.2]
  · rcases List.mem_append.mp hname with hname | hname
    · exact mem_names hname
    · cases List.mem_singleton.mp hname
      exact ⟨h.1, h.2.1⟩

/-- No part of the key is dots. -/
def SnapshotKey.Plain (key : SnapshotKey) : Prop := ∀ s ∈ key.parts, isDots s = false

instance (key : SnapshotKey) : Decidable key.Plain :=
  inferInstanceAs (Decidable (∀ s ∈ key.parts, isDots s = false))

theorem keyPath_plain (h : key.Plain) :
    keyPath rootDir key [] = ⟨(clean rootDir).rooted, (clean rootDir).names ++ key.names⟩ := by
  rw [keyPath_eq, foldl_push_plain]
  intro name hname
  obtain ⟨s, hs, rfl⟩ := List.mem_map.mp hname
  exact ⟨sanitize_ne_nil s, by rw [isDots_sanitize, h s hs]⟩

/-- The path is that many levels below the directory. -/
def Below (depth : Nat) (dir path : FilePath) : Prop :=
  ∃ names : List GoString, names.length = depth ∧ (∀ name ∈ names, isDots name = false)
    ∧ path = { dir with names := dir.names ++ names }

/-- A name adds at most one that is not dots, and dots add none. -/
theorem countP_push (names : List GoString) (name : GoString) :
    (push rooted names name).countP (fun n => !isDots n)
      ≤ names.countP (fun n => !isDots n) + if isDots name then 0 else 1 := by
  unfold push
  split
  · exact Nat.le_add_right _ _
  · split
    · rename_i hdots
      split
      · split
        · rw [List.countP_append, hdots]
          exact Nat.le_refl _
        · exact Nat.le_trans (List.Sublist.countP_le (List.dropLast_sublist names)) (Nat.le_add_right _ _)
      · split
        · exact Nat.zero_le _
        · rw [hdots]
          exact Nat.zero_le _
    · rw [List.countP_append]
      refine Nat.add_le_add_left ?_ _
      cases hdots : isDots name <;> simp [hdots]

theorem countP_foldl_push (names more : List GoString) :
    (more.foldl (push rooted) names).countP (fun n => !isDots n)
      ≤ names.countP (fun n => !isDots n) + more.countP (fun n => !isDots n) := by
  induction more generalizing names with
  | nil => exact Nat.le_refl _
  | cons name more ih =>
    have hpush := countP_push rooted names name
    rw [List.foldl_cons, List.countP_cons]
    refine Nat.le_trans (ih _) ?_
    cases hdots : isDots name <;> simp [hdots] at hpush ⊢ <;> omega

/-- **The directory of a key is four levels below the root exactly when no part of it is dots.** -/
theorem fourBelow_iff (key : SnapshotKey) :
    Below 4 (clean rootDir) (keyPath rootDir key []) ↔ key.Plain := by
  constructor
  · rintro ⟨names, hlen, hplain, hpath⟩
    have hcount := countP_foldl_push (clean rootDir).rooted (clean rootDir).names key.names
    rw [keyPath_eq, FilePath.mk.injEq] at hpath
    have hall : names.countP (fun n => !isDots n) = 4 := by
      rw [← hlen, List.countP_eq_length]
      intro name hname
      rw [hplain name hname]
      rfl
    rw [hpath.2, List.countP_append, hall] at hcount
    have hparts : key.names.countP (fun n => !isDots n) = key.names.length := by
      have hle := List.countP_le_length (p := fun n => !isDots n) (l := key.names)
      have hfour : key.names.length = 4 := rfl
      omega
    intro s hs
    have hname := List.countP_eq_length.mp hparts (sanitize s) (List.mem_map_of_mem hs)
    rw [isDots_sanitize] at hname
    simpa using hname
  · intro h
    refine ⟨key.names, rfl, fun name hname => ?_, keyPath_plain rootDir h⟩
    obtain ⟨s, hs, rfl⟩ := List.mem_map.mp hname
    rw [isDots_sanitize, h s hs]

/-- All parts of the keys collide. -/
def SnapshotKey.Collides (key key' : SnapshotKey) : Prop :=
  Local.Collides key.tenant key'.tenant ∧ Local.Collides key.workspace key'.workspace
    ∧ Local.Collides key.user key'.user ∧ Local.Collides key.ownerKey key'.ownerKey

theorem names_eq_iff {key' : SnapshotKey} : key.names = key'.names ↔ key.Collides key' := by
  simp only [SnapshotKey.names, SnapshotKey.parts, List.map_cons, List.map_nil, List.cons.injEq,
    and_true, sanitize_eq_iff, SnapshotKey.Collides]

end MemoryLayer.Local
