import MemoryLayer.Lib.Runs
import MemoryLayer.Local.Store

namespace MemoryLayer.Local

open Runs FilePath

/-! # Keys in a local store

Each key should have a directory of its own, four levels below the root.  It is so unless a part of the
key is dots, or all parts of two keys collide.

- `LocalOp`, `LocalOp.step`: what is done under one key.
- `Touches`, `touches_step`: **an operation changes nothing outside the directory of its key.**
- `SameAnswers`, `same_answers`: what is read under a key depends on its directory only.
- `keys_separate`: **keys have directories of their own, and nothing in common, unless they collide.**
-/

/-! ### Operations -/

/-- What can be done under a key. -/
inductive LocalAction where
  | put (md : SnapshotMetadata) (t : Instant) (suffix : Suffix) (data : Option (List UInt8)) (now : Int)
  | putWithMeta (md : SnapshotMetadata) (data : Option (List UInt8)) (now : Int)
  | delete (version : GoString)
  | pruneByAge (maxAge now : Int)
  | pruneOldVersions (keepLatest : Int)

/-- An operation under a key. -/
structure LocalOp where
  key : SnapshotKey
  action : LocalAction

def LocalOp.step (rootDir : GoString) (fs : Fs) (op : LocalOp) : Fs :=
  match op.action with
  | .put md t suffix data now => (put rootDir op.key md t suffix data now fs).2
  | .putWithMeta md data now => (putWithMeta rootDir { md with key := op.key } data now fs).2
  | .delete version => delete rootDir op.key version fs
  | .pruneByAge maxAge now => (pruneByAge rootDir fs op.key maxAge now).2
  | .pruneOldVersions keepLatest => (pruneOldVersions rootDir fs op.key keepLatest).2

/-- The version is a name, or none is given. -/
def VersionName (version : GoString) : Prop := version = [] ∨ PlainName version

/-- The version that the caller gives is a name. -/
def LocalAction.Plain : LocalAction → Prop
  | .putWithMeta md _ _ => VersionName md.version
  | .delete version => VersionName version
  | _ => True

/-- No part of the key is dots, and the version that the caller gives is a name. -/
def LocalOp.Plain (op : LocalOp) : Prop := op.key.Plain ∧ op.action.Plain

/-! ### New versions are names -/

theorem hexDigit_ne_slash {n : Nat} (h : n < 16) : hexDigit n ≠ 47 := by
  have hall : ∀ n : Fin 16, hexDigit n ≠ 47 := by decide
  exact hall ⟨n, h⟩

theorem slash_not_mem_digits (w n : Nat) : (47 : UInt8) ∉ Decimal.digits w n := by
  intro h
  have := (Decimal.mem_digits h).1
  exact absurd this (by decide)

theorem slash_not_mem_appendInt (x : Int) (w : Nat) : (47 : UInt8) ∉ appendInt x w := by
  unfold appendInt
  rw [List.mem_append, not_or]
  refine ⟨?_, slash_not_mem_digits _ _⟩
  split <;> decide

theorem slash_not_mem_newVersion (t : Instant) (suffix : Suffix) : (47 : UInt8) ∉ newVersion t suffix := by
  have hnano : (47 : UInt8) ∉ appendNano t.nanosecond := by
    unfold appendNano
    split
    · simp
    · rw [List.mem_cons, not_or]
      exact ⟨by decide, fun h =>
        slash_not_mem_appendInt _ _ ((List.rdropWhile_prefix _ _).subset h)⟩
  have hhex : ∀ bytes, (47 : UInt8) ∉ hex bytes := by
    intro bytes h
    obtain ⟨b, -, hb⟩ := List.mem_flatMap.mp h
    have := b.toNat_lt
    simp only [List.mem_cons, List.not_mem_nil, or_false] at hb
    rcases hb with hb | hb
    · exact hexDigit_ne_slash (by omega) hb.symm
    · exact hexDigit_ne_slash (by omega) hb.symm
  simp [newVersion, formatRFC3339Nano, slash_not_mem_appendInt, hnano, hhex]

theorem plainName_newVersion (t : Instant) (suffix : Suffix) : PlainName (newVersion t suffix) := by
  have hletter : (90 : UInt8) ∈ newVersion t suffix := by
    simp [newVersion, formatRFC3339Nano]
  refine ⟨List.ne_nil_of_mem hletter, slash_not_mem_newVersion t suffix, ?_⟩
  simp only [isDots, decide_eq_false_iff_not, not_or]
  constructor
  · intro h
    rw [h] at hletter
    exact absurd hletter (by decide)
  · intro h
    rw [h] at hletter
    exact absurd hletter (by decide)

/-! ### What an operation changes -/

/-- Nothing is changed outside the directory, but directories on the way to it are made. -/
def Touches (dir : FilePath) (fs fs' : Fs) : Prop :=
  ∀ p, fs'.node p = fs.node p ∨ (p ∈ dir.upTo ∧ fs.node p = none ∧ fs'.node p = some .dir)
    ∨ dir.covers p = true

theorem covers_blobPath (dir : FilePath) : dir.covers (blobPath dir) = true :=
  covers_child (by decide)

theorem covers_metaPath (dir : FilePath) : dir.covers (metaPath dir) = true :=
  covers_child (by decide)

variable {rootDir : GoString} {md : SnapshotMetadata} {op : LocalOp}

variable {p : FilePath} {version : GoString} {key key' : SnapshotKey} {fs fs' : Fs}

/-- Outside the directory of the version, a snapshot that is written leaves what `MkdirAll` leaves. -/
theorem node_writeSnapshot (md : SnapshotMetadata) (data : Option (List UInt8)) (now : Int) (fs : Fs)
    (hp : (keyPath rootDir md.key md.version).covers p = false) :
    (writeSnapshot rootDir md data now fs).2.node p
      = (fs.mkdirAll (keyPath rootDir md.key md.version)).1.node p := by
  have hne : ∀ q, (keyPath rootDir md.key md.version).covers q = true → p ≠ q := by
    rintro q hq rfl
    rw [hq] at hp
    cases hp
  have hdir := hne _ (covers_refl _)
  have hblob := hne _ (covers_blobPath _)
  have hmeta := hne _ (covers_metaPath _)
  unfold writeSnapshot
  dsimp only
  cases fs.mkdirAll (keyPath rootDir md.key md.version) with
  | mk made ok =>
    cases ok with
    | false => rfl
    | true =>
      cases data with
      | none =>
        dsimp only
        unfold Fs.removeEmpty
        split
        · rfl
        · rw [Fs.node_removeWhere, if_neg (by simpa using hdir)]
      | some bytes =>
        dsimp only
        split
        · rfl
        · split
          · rw [Fs.node_removeWhere, if_neg (by simpa using hblob), Fs.node_write, if_neg hblob]
          · rw [Fs.node_write, if_neg hmeta, Fs.node_write, if_neg hblob]

theorem touches_writeSnapshot (md : SnapshotMetadata) (data : Option (List UInt8)) (now : Int) (fs : Fs) :
    Touches (keyPath rootDir md.key md.version) fs (writeSnapshot rootDir md data now fs).2 := by
  intro p
  by_cases hp : (keyPath rootDir md.key md.version).covers p = true
  · exact .inr (.inr hp)
  · rw [node_writeSnapshot md data now fs (by simpa using hp)]
    rcases Fs.node_mkdirAll fs (keyPath rootDir md.key md.version) p with h | h
    · exact .inl h
    · exact .inr (.inl h)

/-- The directory of a version is that of the key, or one in it. -/
theorem keyPath_of_versionName (key : SnapshotKey) (h : VersionName version) :
    keyPath rootDir key version = keyPath rootDir key []
      ∨ PlainName version ∧ keyPath rootDir key version = (keyPath rootDir key []).child version := by
  rcases h with rfl | h
  · exact .inl rfl
  · exact .inr ⟨h, keyPath_version rootDir key h⟩

theorem PlainName.ne_up {name : GoString} (h : PlainName name) : name ≠ text ".." := by
  rintro rfl
  exact absurd h.2.2 (by decide)

theorem covers_keyPath (key : SnapshotKey) (h : VersionName version) :
    (keyPath rootDir key []).covers (keyPath rootDir key version) = true := by
  rcases keyPath_of_versionName key h with heq | ⟨hname, heq⟩
  · rw [heq]
    exact covers_refl _
  · rw [heq]
    exact covers_child hname.ne_up

theorem Touches.of_version (h : VersionName version)
    (ht : Touches (keyPath rootDir key version) fs fs') : Touches (keyPath rootDir key []) fs fs' := by
  intro p
  rcases ht p with hsame | ⟨hmem, hmade⟩ | hcovers
  · exact .inl hsame
  · rcases keyPath_of_versionName key h with heq | ⟨hname, heq⟩
    · rw [heq] at hmem
      exact .inr (.inl ⟨hmem, hmade⟩)
    · rw [heq, mem_upTo_child] at hmem
      rcases hmem with hmem | rfl
      · exact .inr (.inl ⟨hmem, hmade⟩)
      · exact .inr (.inr (covers_child hname.ne_up))
  · exact .inr (.inr (covers_trans (covers_keyPath key h) hcovers))

theorem node_deleteAll (key : SnapshotKey) (mds : List SnapshotMetadata) (fs : Fs) (p : FilePath) :
    (deleteAll rootDir fs key mds).node p
      = if mds.any fun md => (keyPath rootDir key md.version).covers p then none else fs.node p := by
  unfold deleteAll
  induction mds generalizing fs with
  | nil => rfl
  | cons md mds ih =>
    rw [List.foldl_cons, ih, List.any_cons, delete, Fs.removeAll, Fs.node_removeWhere]
    cases (keyPath rootDir key md.version).covers p <;> simp

theorem touches_deleteAll (key : SnapshotKey) {mds : List SnapshotMetadata} (fs : Fs)
    (h : ∀ md ∈ mds, VersionName md.version) :
    Touches (keyPath rootDir key []) fs (deleteAll rootDir fs key mds) := by
  intro p
  rw [node_deleteAll]
  split
  · rename_i hany
    obtain ⟨md, hmd, hcovers⟩ := List.any_eq_true.mp hany
    exact .inr (.inr (covers_trans (covers_keyPath key (h md hmd)) hcovers))
  · exact .inl rfl

/-- The versions in the metadata are names, and so are the directories in that of a key. -/
structure Tidy (rootDir : GoString) (fs : Fs) : Prop where
  versions : ∀ p md, fs.node p = some (.metadata md) → VersionName md.version
  names : ∀ key : SnapshotKey, key.Plain → ∀ name ∈ fs.readDir (keyPath rootDir key []), PlainName name

theorem versionName_of_mem_list (h : Tidy rootDir fs)
    (hmd : md ∈ list rootDir fs key) : VersionName md.version := by
  obtain ⟨version, -, hread⟩ := List.mem_filterMap.mp hmd
  unfold readMetadata at hread
  split at hread
  · cases hread
  · rename_i md' hnode
    cases hread
    exact h.versions _ md hnode
  · cases hread

/-- What pruning does is a number of deletions, but never of the first version. -/
theorem prune_eq (rootDir : GoString) (key : SnapshotKey) (fs : Fs) {action : LocalAction}
    (h : (∃ maxAge now, action = .pruneByAge maxAge now) ∨ ∃ keepLatest, action = .pruneOldVersions keepLatest) :
    ∃ mds, (∀ md ∈ mds, md ∈ (list rootDir fs key).tail)
      ∧ LocalOp.step rootDir fs ⟨key, action⟩ = deleteAll rootDir fs key mds := by
  have hnone : ∀ fs' : Fs, fs' = fs → ∃ mds : List SnapshotMetadata,
      (∀ md ∈ mds, md ∈ (list rootDir fs key).tail) ∧ fs' = deleteAll rootDir fs key mds := by
    rintro _ rfl
    exact ⟨[], by simp, rfl⟩
  rcases h with ⟨maxAge, now, rfl⟩ | ⟨keepLatest, rfl⟩
  · unfold LocalOp.step pruneByAge
    dsimp only
    split
    · exact hnone _ rfl
    · split
      · exact hnone _ rfl
      · exact ⟨_, fun md hmd => List.mem_of_mem_filter hmd, rfl⟩
  · unfold LocalOp.step pruneOldVersions
    dsimp only
    split
    · exact hnone _ rfl
    · split
      · exact hnone _ rfl
      · refine ⟨_, fun md hmd => ?_, rfl⟩
        rw [show keepLatest.toNat = 1 + (keepLatest.toNat - 1) by omega, ← List.drop_drop,
          List.drop_one] at hmd
        exact List.mem_of_mem_drop hmd

/-- **An operation changes nothing outside the directory of its key.** -/
theorem touches_step (h : Tidy rootDir fs) (hop : op.Plain) :
    Touches (keyPath rootDir op.key []) fs (op.step rootDir fs) := by
  obtain ⟨key, action⟩ := op
  have hprune : ∀ {mds}, (∀ md ∈ mds, md ∈ (list rootDir fs key).tail) →
      Touches (keyPath rootDir key []) fs (deleteAll rootDir fs key mds) := fun hmds =>
    touches_deleteAll key fs fun md hmd => versionName_of_mem_list h (List.mem_of_mem_tail (hmds md hmd))
  cases action with
  | put md t suffix data now =>
    exact (touches_writeSnapshot { md with key := key, version := newVersion t suffix } data now fs).of_version
      (.inr (plainName_newVersion t suffix))
  | putWithMeta md data now =>
    exact (touches_writeSnapshot { md with key := key } data now fs).of_version hop.2
  | delete version =>
    have hversion : ∀ md ∈ [(⟨key, version, 0, 0⟩ : SnapshotMetadata)], VersionName md.version :=
      List.forall_mem_singleton.mpr hop.2
    exact touches_deleteAll key fs hversion
  | pruneByAge maxAge now =>
    obtain ⟨mds, hmds, heq⟩ := prune_eq rootDir key fs (.inl ⟨maxAge, now, rfl⟩)
    rw [heq]
    exact hprune hmds
  | pruneOldVersions keepLatest =>
    obtain ⟨mds, hmds, heq⟩ := prune_eq rootDir key fs (.inr ⟨keepLatest, rfl⟩)
    rw [heq]
    exact hprune hmds

/-! ### Stores stay tidy -/

/-- What is there after a snapshot was written. -/
theorem node_writeSnapshot_cases {data : Option (List UInt8)} {now : Int}
    {n : Node} (h : (writeSnapshot rootDir md data now fs).2.node p = some n) :
    fs.node p = some n ∨ (n = .dir ∧ p ∈ (keyPath rootDir md.key md.version).upTo)
      ∨ (∃ bytes, n = .blob bytes) ∨ ∃ md', n = .metadata md' ∧ md'.version = md.version := by
  have hmade := Fs.node_mkdirAll fs (keyPath rootDir md.key md.version) p
  have hdirs : (fs.mkdirAll (keyPath rootDir md.key md.version)).1.node p = some n →
      fs.node p = some n ∨ (n = .dir ∧ p ∈ (keyPath rootDir md.key md.version).upTo) := by
    intro hnode
    rcases hmade with hsame | ⟨hmem, -, hdir⟩
    · exact .inl (hsame.symm.trans hnode)
    · rw [hdir] at hnode
      cases hnode
      exact .inr ⟨rfl, hmem⟩
  rw [← or_assoc]
  unfold writeSnapshot at h
  dsimp only at h
  cases hall : fs.mkdirAll (keyPath rootDir md.key md.version) with
  | mk made ok =>
    rw [hall] at h hdirs
    cases ok with
    | false => exact .inl (hdirs h)
    | true =>
      cases data with
      | none =>
        dsimp only at h
        unfold Fs.removeEmpty at h
        split at h
        · exact .inl (hdirs h)
        · rw [Fs.node_removeWhere] at h
          split at h
          · cases h
          · exact .inl (hdirs h)
      | some bytes =>
        dsimp only at h
        split at h
        · exact .inl (hdirs h)
        · split at h
          · rw [Fs.node_removeWhere, Fs.node_write] at h
            split at h
            · cases h
            · rename_i hp
              rw [if_neg (by simpa using hp)] at h
              exact .inl (hdirs h)
          · rw [Fs.node_write, Fs.node_write] at h
            split at h
            · cases h
              exact .inr (.inr ⟨_, rfl, rfl⟩)
            · split at h
              · cases h
                exact .inr (.inl ⟨bytes, rfl⟩)
              · exact .inl (hdirs h)

/-- All directories of keys have the same depth. -/
theorem length_keyPath (h : key.Plain) :
    (keyPath rootDir key []).names.length = (clean rootDir).names.length + 4 := by
  rw [keyPath_plain rootDir h, List.length_append]
  rfl

theorem length_le_of_mem_upTo {q : FilePath} (h : q ∈ p.upTo) : q.names.length ≤ p.names.length := by
  obtain ⟨front, back, -, hsplit, rfl⟩ := mem_upTo.mp h
  rw [hsplit, List.length_append]
  exact Nat.le_add_right _ _

theorem tidy_writeSnapshot (h : Tidy rootDir fs) (md : SnapshotMetadata)
    (hkey : md.key.Plain) (hversion : VersionName md.version) (data : Option (List UInt8)) (now : Int) :
    Tidy rootDir (writeSnapshot rootDir md data now fs).2 := by
  constructor
  · intro p md' hnode
    rcases node_writeSnapshot_cases hnode with hold | ⟨hdir, -⟩ | ⟨bytes, hblob⟩ | ⟨md'', hmeta, hsame⟩
    · exact h.versions p md' hold
    · cases hdir
    · cases hblob
    · cases hmeta
      rw [hsame]
      exact hversion
  · intro key hplain name hname
    obtain ⟨hnode, hdots⟩ := Fs.mem_readDir.mp hname
    rcases node_writeSnapshot_cases hnode with hold | ⟨-, hmem⟩ | ⟨bytes, hblob⟩ | ⟨md'', hmeta, -⟩
    · exact h.names key hplain name (Fs.mem_readDir.mpr ⟨hold, hdots⟩)
    · -- of the directories made, only that of the version is so deep
      have hdepth : ((keyPath rootDir key []).child name).names.length
          = (keyPath rootDir md.key []).names.length + 1 := by
        rw [FilePath.child, List.length_append, length_keyPath hplain, length_keyPath hkey]
        rfl
      rcases keyPath_of_versionName md.key hversion with heq | ⟨hplainName, heq⟩
      · rw [heq] at hmem
        have := length_le_of_mem_upTo hmem
        omega
      · rw [heq, mem_upTo_child] at hmem
        rcases hmem with hmem | hsame
        · have := length_le_of_mem_upTo hmem
          omega
        · rw [FilePath.child, FilePath.child, FilePath.mk.injEq] at hsame
          have hlast := (List.append_inj' hsame.2 rfl).2
          rw [List.singleton_inj.mp hlast]
          exact hplainName
    · cases hblob
    · cases hmeta

theorem tidy_deleteAll (h : Tidy rootDir fs) (key : SnapshotKey) (mds : List SnapshotMetadata) :
    Tidy rootDir (deleteAll rootDir fs key mds) := by
  have hold : ∀ {p n}, (deleteAll rootDir fs key mds).node p = some n → fs.node p = some n := by
    intro p n hnode
    rw [node_deleteAll] at hnode
    split at hnode
    · cases hnode
    · exact hnode
  refine ⟨fun p md hnode => h.versions p md (hold hnode), fun key hplain name hname => ?_⟩
  obtain ⟨hnode, hdots⟩ := Fs.mem_readDir.mp hname
  exact h.names key hplain name (Fs.mem_readDir.mpr ⟨hold hnode, hdots⟩)

theorem tidy_step (h : Tidy rootDir fs) (hop : op.Plain) :
    Tidy rootDir (op.step rootDir fs) := by
  obtain ⟨key, action⟩ := op
  cases action with
  | put md t suffix data now =>
    exact tidy_writeSnapshot h { md with key := key, version := newVersion t suffix } hop.1
      (.inr (plainName_newVersion t suffix)) data now
  | putWithMeta md data now => exact tidy_writeSnapshot h { md with key := key } hop.1 hop.2 data now
  | delete version => exact tidy_deleteAll h key [⟨key, version, 0, 0⟩]
  | pruneByAge maxAge now =>
    obtain ⟨mds, -, heq⟩ := prune_eq rootDir key fs (.inl ⟨maxAge, now, rfl⟩)
    rw [heq]
    exact tidy_deleteAll h key mds
  | pruneOldVersions keepLatest =>
    obtain ⟨mds, -, heq⟩ := prune_eq rootDir key fs (.inr ⟨keepLatest, rfl⟩)
    rw [heq]
    exact tidy_deleteAll h key mds

theorem tidy_empty (rootDir : GoString) : Tidy rootDir .empty where
  versions p md h := by cases h
  names key _ name h := by cases h

theorem tidy_run {history : List LocalOp} (hall : ∀ op ∈ history, op.Plain)
    (h : Tidy rootDir fs) : Tidy rootDir (run (LocalOp.step rootDir) fs history) := by
  induction history generalizing fs with
  | nil => exact h
  | cons op rest ih =>
    exact ih (fun other hmem => hall other (List.mem_cons_of_mem _ hmem))
      (tidy_step h (hall op (List.mem_cons_self ..)))

/-! ### What is read under a key -/

/-- What is read under the key is the same. -/
structure SameAnswers (rootDir : GoString) (key : SnapshotKey) (fs fs' : Fs) : Prop where
  get : ∀ version, VersionName version → get rootDir fs' key version = get rootDir fs key version
  getLatest : getLatest rootDir fs' key = getLatest rootDir fs key
  getLatestMetadata : getLatestMetadata rootDir fs' key = getLatestMetadata rootDir fs key
  list : list rootDir fs' key = list rootDir fs key

/-- The order in which directories are read makes no difference. -/
theorem insertionSort_perm {names names' : List GoString} (h : names.Perm names') :
    names.insertionSort (· ≥ ·) = names'.insertionSort (· ≥ ·) := by
  refine List.Perm.eq_of_pairwise (fun a b _ _ hab hba => List.le_antisymm hba hab)
    (List.pairwise_insertionSort _ _) (List.pairwise_insertionSort _ _) ?_
  exact ((List.perm_insertionSort _ _).trans h).trans (List.perm_insertionSort _ _).symm

/-- **What is read under a key depends on its directory only.** -/
theorem same_answers (hkey : key.Plain) (h : Tidy rootDir fs)
    (hsame : ∀ p, (keyPath rootDir key []).covers p = true → fs'.node p = fs.node p) :
    SameAnswers rootDir key fs fs' := by
  have hmeta : ∀ version, VersionName version →
      readMetadata fs' (keyPath rootDir key version) = readMetadata fs (keyPath rootDir key version) := by
    intro version hversion
    unfold readMetadata
    rw [hsame _ (covers_trans (covers_keyPath key hversion) (covers_metaPath _))]
  have hget : ∀ version, VersionName version → get rootDir fs' key version = get rootDir fs key version := by
    intro version hversion
    unfold Local.get
    dsimp only
    rw [hmeta version hversion,
      hsame _ (covers_trans (covers_keyPath key hversion) (covers_blobPath _))]
  have hdirs : listVersionDirs rootDir fs' key = listVersionDirs rootDir fs key := by
    refine insertionSort_perm ((List.perm_ext_iff_of_nodup (Fs.nodup_readDir ..) (Fs.nodup_readDir ..)).mpr
      fun name => ?_)
    rw [Fs.mem_readDir, Fs.mem_readDir]
    refine and_congr_left fun hdots => ?_
    rw [hsame _ (covers_child hdots)]
  have hnames : ∀ version ∈ listVersionDirs rootDir fs key, VersionName version := by
    intro version hversion
    exact .inr (h.names key hkey version ((List.mem_insertionSort _).mp hversion))
  refine ⟨hget, ?_, ?_, ?_⟩
  · unfold Local.getLatest
    rw [hdirs]
    cases hlist : listVersionDirs rootDir fs key with
    | nil => rfl
    | cons version rest => exact hget version (hnames version (by simp [hlist]))
  · unfold Local.getLatestMetadata
    rw [hdirs]
    cases hlist : listVersionDirs rootDir fs key with
    | nil => rfl
    | cons version rest => exact hmeta version (hnames version (by simp [hlist]))
  · unfold Local.list
    rw [hdirs]
    refine List.filterMap_congr fun version hversion => ?_
    rw [hmeta version (hnames version hversion)]

/-! ### Keys that do not collide -/

/-- Keys that do not collide have different directories. -/
theorem keyPath_eq_iff (h : key.Plain) (h' : key'.Plain) :
    keyPath rootDir key [] = keyPath rootDir key' [] ↔ key.Collides key' := by
  rw [keyPath_plain rootDir h, keyPath_plain rootDir h', FilePath.mk.injEq, ← names_eq_iff]
  simp

theorem keyPath_of_collides (h : key.Collides key') :
    keyPath rootDir key [] = keyPath rootDir key' [] := by
  rw [keyPath_eq, keyPath_eq, names_eq_iff.mpr h]

/-- Nothing that is not below the root is changed, but directories on the way to it are made. -/
def StaysBelow (rootDir : GoString) (fs fs' : Fs) : Prop :=
  ∀ p, fs'.node p ≠ fs.node p → (clean rootDir).covers p = true ∨ p ∈ (clean rootDir).upTo

theorem staysBelow_of_touches (hkey : key.Plain)
    (h : Touches (keyPath rootDir key []) fs fs') : StaysBelow rootDir fs fs' := by
  have hup : text ".." ∉ key.names := by
    intro hmem
    obtain ⟨s, hs, hdots⟩ := List.mem_map.mp hmem
    have hplain := hkey s hs
    rw [← isDots_sanitize, hdots] at hplain
    exact absurd hplain (by decide)
  intro p hne
  rcases h p with hsame | ⟨hmem, -⟩ | hcovers
  · exact absurd hsame hne
  · obtain ⟨front, back, hfront, hsplit, rfl⟩ := mem_upTo.mp hmem
    rw [keyPath_plain rootDir hkey] at hsplit ⊢
    dsimp only at hsplit ⊢
    rcases List.append_eq_append_iff.mp hsplit with ⟨more, rfl, hnames⟩ | ⟨more, hroot, -⟩
    · refine .inl (covers_iff.mpr ⟨more, fun hmore => hup ?_, rfl⟩)
      rw [hnames]
      exact List.mem_append_left _ hmore
    · exact .inr (mem_upTo.mpr ⟨front, more, hfront, hroot, rfl⟩)
  · refine .inl (covers_trans (covers_iff.mpr ⟨key.names, hup, ?_⟩) hcovers)
    rw [keyPath_plain rootDir hkey]

/-- What is done under one key does not change the directory of another. -/
theorem Touches.other (hkey : key.Plain) (hkey' : key'.Plain)
    (hne : ¬ key.Collides key') (h : Touches (keyPath rootDir key []) fs fs') :
    ∀ p, (keyPath rootDir key' []).covers p = true → fs'.node p = fs.node p := by
  intro p hp
  have hdiff : keyPath rootDir key [] ≠ keyPath rootDir key' [] := mt (keyPath_eq_iff hkey hkey').mp hne
  have hdepth : (keyPath rootDir key []).names.length = (keyPath rootDir key' []).names.length := by
    rw [length_keyPath hkey, length_keyPath hkey']
  obtain ⟨rest', -, rfl⟩ := covers_iff.mp hp
  rcases h _ with hsame | ⟨hmem, -⟩ | hcovers
  · exact hsame
  · -- a directory on the way that is as deep as the key's is the key's
    obtain ⟨front, back, -, hsplit, heq⟩ := mem_upTo.mp hmem
    rw [FilePath.mk.injEq] at heq
    have hlen := congrArg List.length hsplit
    rw [← heq.2, List.length_append, List.length_append] at hlen
    have hrest : rest' = [] := List.length_eq_zero_iff.mp (by omega)
    have hback : back = [] := List.length_eq_zero_iff.mp (by omega)
    rw [← heq.2, hrest, hback, List.append_nil, List.append_nil] at hsplit
    exact absurd (FilePath.ext heq.1.symm hsplit) hdiff
  · obtain ⟨rest, -, heq⟩ := covers_iff.mp hcovers
    rw [FilePath.mk.injEq] at heq
    exact absurd (FilePath.ext heq.1.symm (List.append_inj heq.2.symm hdepth).1) hdiff

/-- **Keys are separate.**  Two keys have different directories, each four levels below the root, exactly
    when no part of them is dots and they do not collide.  And after any history of operations under keys
    and versions without dots and slashes, an operation under one key changes nothing that is read under
    a key that does not collide with it, and nothing outside the root. -/
theorem keys_separate (rootDir : GoString) :
    (∀ key key' : SnapshotKey, key ≠ key' →
      ((keyPath rootDir key [] ≠ keyPath rootDir key' [] ∧ Below 4 (clean rootDir) (keyPath rootDir key [])
          ∧ Below 4 (clean rootDir) (keyPath rootDir key' []))
        ↔ ¬ key.Collides key' ∧ key.Plain ∧ key'.Plain))
      ∧ ∀ (history : List LocalOp) (op : LocalOp), (∀ earlier ∈ history, earlier.Plain) → op.Plain →
        StaysBelow rootDir (run (LocalOp.step rootDir) .empty history)
            (op.step rootDir (run (LocalOp.step rootDir) .empty history))
          ∧ ∀ key' : SnapshotKey, key'.Plain → ¬ op.key.Collides key' →
            SameAnswers rootDir key' (run (LocalOp.step rootDir) .empty history)
              (op.step rootDir (run (LocalOp.step rootDir) .empty history)) := by
  constructor
  · intro key key' _
    rw [fourBelow_iff, fourBelow_iff]
    constructor
    · rintro ⟨hne, hkey, hkey'⟩
      exact ⟨fun h => hne (keyPath_of_collides h), hkey, hkey'⟩
    · rintro ⟨hne, hkey, hkey'⟩
      exact ⟨mt (keyPath_eq_iff hkey hkey').mp hne, hkey, hkey'⟩
  · intro history op hhistory hop
    have htidy := tidy_run hhistory (tidy_empty rootDir)
    have htouches := touches_step htidy hop
    exact ⟨staysBelow_of_touches hop.1 htouches, fun key' hkey' hne =>
      same_answers hkey' htidy (htouches.other hop.1 hkey' hne)⟩

/-- An encoded part of a key collides with the text of its encoding, the empty part with an underscore, and
    dots lead out of the root; so do dots in a version. -/
theorem keys_collide :
    keyPath (text "/data") ⟨text "a/b", text "w", text "u", text "o"⟩ []
        = keyPath (text "/data") ⟨text "YS9i", text "w", text "u", text "o"⟩ []
      ∧ keyPath (text "/data") ⟨[], text "w", text "u", text "o"⟩ []
        = keyPath (text "/data") ⟨text "_", text "w", text "u", text "o"⟩ []
      ∧ keyPath (text "/data") ⟨text "..", text "..", text "etc", text "o"⟩ []
        = ⟨true, [text "etc", text "o"]⟩
      ∧ keyPath (text "/data") ⟨text "t", text "w", text "u", text "o"⟩ (text "../p/v")
        = keyPath (text "/data") ⟨text "t", text "w", text "u", text "p"⟩ (text "v") := by
  decide

end MemoryLayer.Local
