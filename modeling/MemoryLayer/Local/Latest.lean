import MemoryLayer.Local.Isolation

namespace MemoryLayer.Local

open Runs FilePath

/-! # The latest snapshot

Snapshots of one key that are put at later and later times, and pruned in between.  Where the instants are
sortable, what was put last is what is read, and it is never pruned.

- `LocalAction.snap`, `LocalAction.instant`: what a put stores, and when.
- `Kept`: the directory of a key holds these snapshots.
- `kept_put`, `kept_failed_put`, `kept_deleteAll`: **what the actions do to the snapshots.**
- `kept_run`: after a history, some of the snapshots are kept, and the last one is.
- `latest_in_order`: **versions and snapshots are in the order of time for sortable instants.**
-/

/-- The snapshot that a put stores. -/
def LocalAction.snap (key : SnapshotKey) : LocalAction → Option (List UInt8 × SnapshotMetadata)
  | .put md t suffix (some bytes) now =>
    some (bytes, ⟨key, newVersion t suffix, bytes.length, if md.createdAt = 0 then now else md.createdAt⟩)
  | _ => none

/-- The instant of a put. -/
def LocalAction.instant : LocalAction → Option Instant
  | .put _ t _ _ _ => some t
  | _ => none

/-- The action is a put under a new version, or it prunes. -/
def LocalAction.PutsOrPrunes : LocalAction → Prop
  | .putWithMeta .. | .delete .. => False
  | _ => True

/-- Actions under one key, one after another. -/
def LocalAction.step (rootDir : GoString) (key : SnapshotKey) (fs : Fs) (action : LocalAction) : Fs :=
  LocalOp.step rootDir fs ⟨key, action⟩

/-! ### The snapshots in a directory -/

/-- The directory holds these snapshots and nothing else, in the order of their versions. -/
structure Kept (dir : FilePath) (fs : Fs) (snaps : List (List UInt8 × SnapshotMetadata)) : Prop where
  ascending : snaps.Pairwise fun s s' => s.2.version < s'.2.version
  plain : ∀ s ∈ snaps, PlainName s.2.version
  up : ∀ p ∈ dir.upTo, fs.node p = none ∨ fs.node p = some .dir
  dirs : ∀ s ∈ snaps, fs.node (dir.child s.2.version) = some .dir
  blobs : ∀ s ∈ snaps, fs.node (blobPath (dir.child s.2.version)) = some (.blob s.1)
  metas : ∀ s ∈ snaps, fs.node (metaPath (dir.child s.2.version)) = some (.metadata s.2)
  rest : ∀ name, (∀ s ∈ snaps, s.2.version ≠ name) → ∀ p, (dir.child name).covers p = true →
    fs.node p = none

theorem kept_empty (dir : FilePath) : Kept dir .empty [] where
  ascending := .nil
  plain s hs := by cases hs
  up p _ := .inl rfl
  dirs s hs := by cases hs
  blobs s hs := by cases hs
  metas s hs := by cases hs
  rest name _ p _ := rfl

/-- Directories with different names have nothing in common. -/
theorem eq_of_covers_child {dir p : FilePath} {name name' : GoString}
    (h : (dir.child name).covers p = true) (h' : (dir.child name').covers p = true) : name = name' := by
  obtain ⟨rest, -, rfl⟩ := covers_iff.mp h
  obtain ⟨rest', -, heq⟩ := covers_iff.mp h'
  rw [FilePath.mk.injEq, FilePath.child, FilePath.child] at heq
  have hnames := heq.2
  simp only [List.append_assoc, List.append_cancel_left_eq, List.singleton_append,
    List.cons.injEq] at hnames
  exact hnames.1

theorem not_mem_upTo_of_covers {dir p : FilePath} {name : GoString}
    (h : (dir.child name).covers p = true) : p ∉ dir.upTo := by
  intro hmem
  have hle := length_le_of_mem_upTo hmem
  obtain ⟨rest, -, rfl⟩ := covers_iff.mp h
  simp only [FilePath.child, List.length_append, List.length_singleton] at hle
  omega

/-! ### Reading -/

variable {rootDir : GoString} {key : SnapshotKey} {fs : Fs} {snaps : List (List UInt8 × SnapshotMetadata)}
  {action : LocalAction}

section

variable (h : Kept (keyPath rootDir key []) fs snaps)

include h

theorem Kept.listVersionDirs :
    listVersionDirs rootDir fs key = (snaps.map fun s => s.2.version).reverse := by
  have hnodup : (snaps.map fun s => s.2.version).Nodup := by
    rw [List.Nodup, List.pairwise_map]
    exact h.ascending.imp fun hlt heq => by
      rw [heq] at hlt
      exact List.lt_irrefl _ hlt
  have hperm : (fs.readDir (keyPath rootDir key [])).Perm (snaps.map fun s => s.2.version) := by
    refine (List.perm_ext_iff_of_nodup (Fs.nodup_readDir ..) hnodup).mpr fun name => ?_
    rw [Fs.mem_readDir, List.mem_map]
    constructor
    · rintro ⟨hnode, -⟩
      by_contra hnot
      have hnone := h.rest name (fun s hs heq => hnot ⟨s, hs, heq⟩) _ (covers_refl _)
      rw [hnode] at hnone
      cases hnone
    · rintro ⟨s, hs, rfl⟩
      exact ⟨h.dirs s hs, (h.plain s hs).ne_up⟩
  refine List.Perm.eq_of_pairwise (fun a b _ _ hab hba => List.le_antisymm hba hab)
    (List.pairwise_insertionSort _ _) ?_ (((List.perm_insertionSort _ _).trans hperm).trans
      (List.reverse_perm _).symm)
  rw [List.pairwise_reverse, List.pairwise_map]
  exact h.ascending.imp fun hlt => List.le_of_lt hlt

variable {s : List UInt8 × SnapshotMetadata}

theorem Kept.readMetadata (hs : s ∈ snaps) : readMetadata fs (keyPath rootDir key s.2.version) = .ok s.2 := by
  rw [keyPath_version rootDir key (h.plain s hs), Local.readMetadata, h.metas s hs]

theorem Kept.get (hs : s ∈ snaps) : get rootDir fs key s.2.version = .ok s := by
  unfold Local.get
  dsimp only
  rw [h.readMetadata hs, keyPath_version rootDir key (h.plain s hs), h.blobs s hs]

theorem Kept.list :
    list rootDir fs key = (snaps.map Prod.snd).reverse := by
  unfold Local.list
  rw [h.listVersionDirs, List.filterMap_reverse, List.filterMap_map]
  congr 1
  rw [← List.filterMap_eq_map]
  refine List.filterMap_congr fun s hs => ?_
  simp only [Function.comp, h.readMetadata hs]
  rfl

/-- **What is read is the last of the snapshots.** -/
theorem Kept.getLatest :
    getLatest rootDir fs key
      = match snaps.getLast? with
        | none => .error .noSnapshot
        | some s => .ok s := by
  unfold Local.getLatest
  rw [h.listVersionDirs]
  rcases List.eq_nil_or_concat snaps with rfl | ⟨front, last, rfl⟩
  · rfl
  · simp only [List.concat_eq_append, List.map_append, List.map_cons, List.map_nil, List.reverse_append,
      List.reverse_cons, List.reverse_nil, List.nil_append, List.cons_append, List.getLast?_append_cons,
      List.getLast?_singleton]
    exact h.get (by simp)

/-! ### Puts -/

/-- What is made on the way to a new version, when there are no files on it. -/
theorem Kept.node_mkdirAll {version : GoString}
    (hplain : PlainName version) (hnew : ∀ s ∈ snaps, s.2.version ≠ version) :
    (fs.mkdirAll (keyPath rootDir key version)).2 = true
      ∧ ∀ p, (fs.mkdirAll (keyPath rootDir key version)).1.node p
        = if p ∈ (keyPath rootDir key []).upTo ∨ p = (keyPath rootDir key []).child version then some .dir
          else fs.node p := by
  rw [keyPath_version rootDir key hplain]
  have hway : ∀ q ∈ ((keyPath rootDir key []).child version).upTo,
      fs.node q = none ∨ fs.node q = some .dir := by
    intro q hq
    rcases mem_upTo_child.mp hq with hq | rfl
    · exact h.up q hq
    · exact .inl (h.rest version hnew _ (covers_refl _))
  obtain ⟨hok, hmade⟩ := Fs.mkdirAll_ok hway
  refine ⟨hok, fun p => ?_⟩
  by_cases hp : p ∈ ((keyPath rootDir key []).child version).upTo
  · rw [if_pos (mem_upTo_child.mp hp)]
    exact hmade p hp
  · rw [if_neg (mt mem_upTo_child.mpr hp)]
    rcases Fs.node_mkdirAll fs ((keyPath rootDir key []).child version) p with hsame | ⟨hmem, -⟩
    · exact hsame
    · exact absurd hmem hp

end

theorem child_ne_self (dir : FilePath) (name : GoString) : dir.child name ≠ dir := by
  intro h
  have := congrArg (fun p => p.names.length) h
  simp [FilePath.child] at this

theorem child_inj {dir : FilePath} {name name' : GoString} : dir.child name = dir.child name' ↔ name = name' := by
  simp [FilePath.child]

/-- The stored metadata. -/
def stamp (md : SnapshotMetadata) (bytes : List UInt8) (now : Int) : SnapshotMetadata :=
  { md with
    sizeBytes := bytes.length
    createdAt := if md.createdAt = 0 then now else md.createdAt }

section

variable (h : Kept (keyPath rootDir key []) fs snaps)

include h

/-- A new version, path by path. -/
theorem Kept.node_writeSnapshot {md : SnapshotMetadata}
    (hkey : md.key = key) (hplain : PlainName md.version) (hnew : ∀ s ∈ snaps, s.2.version ≠ md.version)
    (bytes : List UInt8) (now : Int) (p : FilePath) :
    (writeSnapshot rootDir md (some bytes) now fs).2.node p
      = if p = metaPath ((keyPath rootDir key []).child md.version) then some (.metadata (stamp md bytes now))
        else if p = blobPath ((keyPath rootDir key []).child md.version) then some (.blob bytes)
        else if p ∈ (keyPath rootDir key []).upTo ∨ p = (keyPath rootDir key []).child md.version then
          some .dir
        else fs.node p := by
  subst hkey
  obtain ⟨hok, hmade⟩ := h.node_mkdirAll hplain hnew
  have hfile : ∀ name, name ≠ text ".." → (fs.mkdirAll (keyPath rootDir md.key md.version)).1.node
      (((keyPath rootDir md.key []).child md.version).child name) = none := by
    intro name hname
    have hcovers := covers_child (p := (keyPath rootDir md.key []).child md.version) hname
    rw [hmade, if_neg, h.rest md.version hnew _ hcovers]
    rw [not_or]
    exact ⟨not_mem_upTo_of_covers hcovers, child_ne_self _ _⟩
  have hblob := hfile (text "blob") (by decide)
  have hmeta := hfile (text "metadata.json") (by decide)
  unfold writeSnapshot
  dsimp only
  cases hall : fs.mkdirAll (keyPath rootDir md.key md.version) with
  | mk made ok =>
    rw [hall] at hok hmade hblob hmeta
    cases hok
    dsimp only at hmade hblob hmeta ⊢
    rw [keyPath_version rootDir md.key hplain]
    have hdistinct : metaPath ((keyPath rootDir md.key []).child md.version)
        ≠ blobPath ((keyPath rootDir md.key []).child md.version) := by
      rw [ne_eq, metaPath, blobPath, child_inj]
      decide
    rw [if_neg (by rw [blobPath, hblob]; simp), if_neg, Fs.node_write, Fs.node_write, hmade]
    · rfl
    · rw [Fs.node_write, if_neg hdistinct, metaPath, hmeta]
      simp

/-- **A snapshot with a version above the others is kept after them.** -/
theorem kept_put (md : SnapshotMetadata) (hkey : md.key = key)
    (hplain : PlainName md.version) (hnew : ∀ s ∈ snaps, s.2.version < md.version) (bytes : List UInt8)
    (now : Int) :
    Kept (keyPath rootDir key []) (writeSnapshot rootDir md (some bytes) now fs).2
      (snaps ++ [(bytes, stamp md bytes now)]) := by
  have hdiff : ∀ s ∈ snaps, s.2.version ≠ md.version := fun s hs heq =>
    List.lt_irrefl _ (heq ▸ hnew s hs)
  have hnodes := h.node_writeSnapshot hkey hplain hdiff bytes now
  generalize (writeSnapshot rootDir md (some bytes) now fs).2 = fs' at hnodes
  generalize keyPath rootDir key [] = dir at h hnodes
  -- what is not in the directory of the new version, nor on the way to it, is as before
  have hother : ∀ p, (dir.child md.version).covers p = false → p ∉ dir.upTo → fs'.node p = fs.node p := by
    intro p hp hup
    have hne : ∀ q, (dir.child md.version).covers q = true → p ≠ q := by
      rintro q hq rfl
      rw [hq] at hp
      cases hp
    rw [hnodes, if_neg (hne _ (covers_metaPath _)), if_neg (hne _ (covers_blobPath _)), if_neg]
    rw [not_or]
    exact ⟨hup, hne _ (covers_refl _)⟩
  have hold : ∀ name, name ≠ md.version → ∀ p, (dir.child name).covers p = true →
      fs'.node p = fs.node p := by
    intro name hname p hp
    refine hother p ?_ (not_mem_upTo_of_covers hp)
    by_contra hcovers
    exact hname (eq_of_covers_child hp (by simpa using hcovers))
  have hmeta : fs'.node (metaPath (dir.child md.version)) = some (.metadata (stamp md bytes now)) :=
    (hnodes _).trans (if_pos rfl)
  have hblob : fs'.node (blobPath (dir.child md.version)) = some (.blob bytes) := by
    rw [hnodes, if_neg, if_pos rfl]
    rw [blobPath, metaPath, child_inj]
    decide
  have hdir : ∀ p, p ∈ dir.upTo ∨ p = dir.child md.version → fs'.node p = some .dir := by
    intro p hp
    have hne : ∀ q, (dir.child md.version).covers q = true → q ≠ dir.child md.version → p ≠ q := by
      rintro q hq hself rfl
      rcases hp with hp | hp
      · exact not_mem_upTo_of_covers hq hp
      · exact hself hp
    rw [hnodes, if_neg (hne _ (covers_metaPath _) (child_ne_self _ _)),
      if_neg (hne _ (covers_blobPath _) (child_ne_self _ _)), if_pos hp]
  refine ⟨?_, ?_, fun p hp => .inr (hdir p (.inl hp)), ?_, ?_, ?_, ?_⟩
  · rw [List.pairwise_append]
    exact ⟨h.ascending, List.pairwise_singleton .., fun s hs => List.forall_mem_singleton.mpr (hnew s hs)⟩
  · exact List.forall_mem_append.mpr ⟨h.plain, List.forall_mem_singleton.mpr hplain⟩
  · refine List.forall_mem_append.mpr ⟨fun s hs => ?_, List.forall_mem_singleton.mpr (hdir _ (.inr rfl))⟩
    rw [hold _ (hdiff s hs) _ (covers_refl _)]
    exact h.dirs s hs
  · refine List.forall_mem_append.mpr ⟨fun s hs => ?_, List.forall_mem_singleton.mpr hblob⟩
    rw [hold _ (hdiff s hs) _ (covers_blobPath _)]
    exact h.blobs s hs
  · refine List.forall_mem_append.mpr ⟨fun s hs => ?_, List.forall_mem_singleton.mpr hmeta⟩
    rw [hold _ (hdiff s hs) _ (covers_metaPath _)]
    exact h.metas s hs
  · intro name hname p hp
    have hne : name ≠ md.version := fun heq => hname (bytes, stamp md bytes now) (by simp) heq.symm
    rw [hold name hne p hp]
    exact h.rest name (fun s hs => hname s (List.mem_append_left _ hs)) p hp

/-- **A put whose reader fails keeps what is there.** -/
theorem kept_failed_put (md : SnapshotMetadata)
    (hkey : md.key = key) (hplain : PlainName md.version)
    (hnew : ∀ s ∈ snaps, s.2.version ≠ md.version) (now : Int) :
    Kept (keyPath rootDir key []) (writeSnapshot rootDir md none now fs).2 snaps := by
  subst hkey
  obtain ⟨hok, hmade⟩ := h.node_mkdirAll hplain hnew
  have hnodes : ∀ p, (writeSnapshot rootDir md none now fs).2.node p
      = if p ∈ (keyPath rootDir md.key []).upTo then some .dir else fs.node p := by
    intro p
    unfold writeSnapshot
    dsimp only
    cases hall : fs.mkdirAll (keyPath rootDir md.key md.version) with
    | mk made ok =>
      rw [hall] at hok hmade
      cases hok
      dsimp only at hmade ⊢
      rw [keyPath_version rootDir md.key hplain]
      -- the directory of the version was made, and has nothing in it
      have hempty : ¬ (made.nodes.any fun x => ((keyPath rootDir md.key []).child md.version).covers x.1
          && x.1 ≠ (keyPath rootDir md.key []).child md.version) = true := by
        rw [List.any_eq_true]
        rintro ⟨⟨q, n⟩, hmem, hinside⟩
        simp only [ne_eq, Bool.and_eq_true, decide_eq_true_eq] at hinside
        have hnode := hmade q
        rw [Fs.mem_nodes.mp hmem, if_neg, h.rest md.version hnew q hinside.1] at hnode
        · cases hnode
        · rw [not_or]
          exact ⟨not_mem_upTo_of_covers hinside.1, hinside.2⟩
      rw [Fs.removeEmpty, if_neg hempty, Fs.node_removeWhere, hmade]
      by_cases hp : p = (keyPath rootDir md.key []).child md.version
      · subst hp
        rw [if_pos (by simp), if_neg (not_mem_upTo_of_covers (covers_refl _)),
          h.rest md.version hnew _ (covers_refl _)]
      · rw [if_neg (by simpa using hp)]
        exact if_congr (or_iff_left hp) rfl rfl
  generalize (writeSnapshot rootDir md none now fs).2 = fs' at hnodes
  generalize keyPath rootDir md.key [] = dir at h hnodes
  have hsame : ∀ name p, (dir.child name).covers p = true → fs'.node p = fs.node p := by
    intro name p hp
    rw [hnodes, if_neg (not_mem_upTo_of_covers hp)]
  refine ⟨h.ascending, h.plain, fun p hp => .inr (by rw [hnodes, if_pos hp]), fun s hs => ?_,
    fun s hs => ?_, fun s hs => ?_, fun name hname p hp => ?_⟩
  · rw [hsame _ _ (covers_refl _)]
    exact h.dirs s hs
  · rw [hsame _ _ (covers_blobPath _)]
    exact h.blobs s hs
  · rw [hsame _ _ (covers_metaPath _)]
    exact h.metas s hs
  · rw [hsame name p hp]
    exact h.rest name hname p hp

/-! ### Deletions -/

/-- **Deleting some versions keeps the others.** -/
theorem kept_deleteAll {mds : List SnapshotMetadata}
    (hmds : ∀ md ∈ mds, ∃ s ∈ snaps, s.2 = md) :
    Kept (keyPath rootDir key []) (deleteAll rootDir fs key mds)
      (snaps.filter fun s => ¬ mds.any fun md => md.version = s.2.version) := by
  have hpath : ∀ md ∈ mds, keyPath rootDir key md.version = (keyPath rootDir key []).child md.version := by
    intro md hmd
    obtain ⟨s, hs, rfl⟩ := hmds md hmd
    exact keyPath_version rootDir key (h.plain s hs)
  have hgone : ∀ p, (deleteAll rootDir fs key mds).node p = fs.node p
      ∨ (deleteAll rootDir fs key mds).node p = none := by
    intro p
    rw [node_deleteAll]
    split
    · exact .inr rfl
    · exact .inl rfl
  have hsame : ∀ name p, ((keyPath rootDir key []).child name).covers p = true →
      (∀ md ∈ mds, md.version ≠ name) → (deleteAll rootDir fs key mds).node p = fs.node p := by
    intro name p hp hname
    rw [node_deleteAll, if_neg]
    rw [List.any_eq_true]
    rintro ⟨md, hmd, hcovers⟩
    rw [hpath md hmd] at hcovers
    exact hname md hmd (eq_of_covers_child hcovers hp)
  have hmem : ∀ s, s ∈ snaps.filter (fun s => ¬ mds.any fun md => md.version = s.2.version) →
      s ∈ snaps ∧ ∀ md ∈ mds, md.version ≠ s.2.version := by
    intro s hs
    rw [List.mem_filter] at hs
    exact ⟨hs.1, by simpa using hs.2⟩
  refine ⟨h.ascending.filter _, fun s hs => h.plain s (hmem s hs).1, fun p hp => ?_, fun s hs => ?_,
    fun s hs => ?_, fun s hs => ?_, fun name hname p hp => ?_⟩
  · rcases hgone p with hp' | hp'
    · rw [hp']
      exact h.up p hp
    · exact .inl hp'
  · rw [hsame _ _ (covers_refl _) (hmem s hs).2]
    exact h.dirs s (hmem s hs).1
  · rw [hsame _ _ (covers_blobPath _) (hmem s hs).2]
    exact h.blobs s (hmem s hs).1
  · rw [hsame _ _ (covers_metaPath _) (hmem s hs).2]
    exact h.metas s (hmem s hs).1
  · by_cases hdeleted : ∃ md ∈ mds, md.version = name
    · obtain ⟨md, hmd, rfl⟩ := hdeleted
      rw [node_deleteAll, if_pos]
      rw [List.any_eq_true]
      exact ⟨md, hmd, by rw [hpath md hmd]; exact hp⟩
    · have hnone := h.rest name (fun s hs heq => ?_) p hp
      · rcases hgone p with hp' | hp'
        · rw [hp', hnone]
        · exact hp'
      · refine hname s (List.mem_filter.mpr ⟨hs, ?_⟩) heq
        simp only [decide_not, Bool.not_eq_true', decide_eq_false_iff_not, List.any_eq_true,
          decide_eq_true_eq]
        rintro ⟨md, hmd, hv⟩
        exact hdeleted ⟨md, hmd, hv.trans heq⟩

/-- Pruning keeps the last snapshot. -/
theorem kept_prune (hprune : (∃ maxAge now, action = .pruneByAge maxAge now)
      ∨ ∃ keepLatest, action = .pruneOldVersions keepLatest) :
    ∃ kept, Kept (keyPath rootDir key []) (action.step rootDir key fs) kept ∧ kept.Sublist snaps
      ∧ kept.getLast? = snaps.getLast? := by
  obtain ⟨mds, hmds, heq⟩ := prune_eq rootDir key fs hprune
  rw [h.list] at hmds
  have hall : ∀ md ∈ mds, ∃ s ∈ snaps, s.2 = md := by
    intro md hmd
    have hmem := List.mem_of_mem_tail (hmds md hmd)
    rwa [List.mem_reverse, List.mem_map] at hmem
  refine ⟨_, heq ▸ kept_deleteAll h hall, List.filter_sublist, ?_⟩
  rcases List.eq_nil_or_concat snaps with rfl | ⟨front, last, rfl⟩
  · rfl
  · rw [List.concat_eq_append] at h hmds ⊢
    have hsurvives : ¬ (mds.any fun md => md.version = last.2.version) = true := by
      rw [List.any_eq_true]
      rintro ⟨md, hmd, hversion⟩
      have hfront := hmds md hmd
      simp only [List.map_append, List.map_cons, List.map_nil, List.reverse_append, List.reverse_cons,
        List.reverse_nil, List.nil_append, List.cons_append, List.tail_cons, List.mem_reverse,
        List.mem_map] at hfront
      obtain ⟨s, hs, rfl⟩ := hfront
      have hlt := (List.pairwise_append.mp h.ascending).2.2 s hs last (by simp)
      rw [decide_eq_true_eq] at hversion
      rw [hversion] at hlt
      exact List.lt_irrefl _ hlt
    rw [List.filter_append, List.filter_cons_of_pos (by simpa using hsurvives), List.filter_nil,
      List.getLast?_concat, List.getLast?_concat]

/-- A put above the others adds its snapshot. -/
theorem kept_new_put (md : SnapshotMetadata) {t : Instant}
    {suffix : Suffix} (hnew : ∀ s ∈ snaps, s.2.version < newVersion t suffix) (data : Option (List UInt8))
    (now : Int) :
    Kept (keyPath rootDir key []) (LocalAction.step rootDir key fs (.put md t suffix data now))
      (snaps ++ ((LocalAction.put md t suffix data now).snap key).toList) := by
  cases data with
  | some bytes =>
    exact kept_put h { md with key := key, version := newVersion t suffix } rfl
      (plainName_newVersion t suffix) hnew bytes now
  | none =>
    have hnone : (LocalAction.put md t suffix none now).snap key = none := rfl
    rw [hnone, Option.toList_none, List.append_nil]
    exact kept_failed_put h { md with key := key, version := newVersion t suffix } rfl
      (plainName_newVersion t suffix) (fun s hs heq => List.lt_irrefl _ (heq ▸ hnew s hs)) now

end

/-! ### Histories -/

/-- The snapshot of a put has the version for its instant. -/
theorem version_of_snap (h : action.snap key = some s) :
    ∃ t suffix, action.instant = some t ∧ s.2.version = newVersion t suffix := by
  cases action with
  | put md t suffix data now =>
    cases data with
    | some bytes =>
      cases h
      exact ⟨t, suffix, rfl, rfl⟩
    | none => cases h
  | _ => cases h

/-- **What a history keeps.**  Where the instants of the puts are sortable, some of the snapshots are kept,
    in the order they were put, and the last one is among them. -/
theorem kept_run (rootDir : GoString) (key : SnapshotKey) {history : List LocalAction}
    (hactions : ∀ action ∈ history, action.PutsOrPrunes)
    (hinstants : (history.filterMap LocalAction.instant).Pairwise fun t t' => t.Before t' ∧ Sortable t t') :
    ∃ snaps, Kept (keyPath rootDir key []) (run (LocalAction.step rootDir key) .empty history) snaps
      ∧ snaps.Sublist (history.filterMap (LocalAction.snap key))
      ∧ snaps.getLast? = (history.filterMap (LocalAction.snap key)).getLast? := by
  induction history using List.reverseRecOn with
  | nil => exact ⟨[], kept_empty _, .slnil, rfl⟩
  | append_singleton history action ih =>
    rw [List.filterMap_append, List.pairwise_append] at hinstants
    obtain ⟨snaps, hkept, hsub, hlast⟩ := ih
      (fun other hother => hactions other (List.mem_append_left _ hother)) hinstants.1
    have haction := hactions action (by simp)
    have hone : [action].filterMap (LocalAction.snap key) = (action.snap key).toList := by
      cases hsnap : action.snap key <;> simp [hsnap]
    rw [run_append, List.filterMap_append, hone]
    cases action with
    | putWithMeta => exact absurd haction id
    | delete => exact absurd haction id
    | put md t suffix data now =>
      -- the new version is above those before
      have hnew : ∀ s ∈ snaps, s.2.version < newVersion t suffix := by
        intro s hs
        obtain ⟨other, hother, hsnap⟩ := List.mem_filterMap.mp (hsub.subset hs)
        obtain ⟨t', suffix', hinstant, hversion⟩ := version_of_snap hsnap
        obtain ⟨hbefore, hsortable⟩ := hinstants.2.2 t' (List.mem_filterMap.mpr ⟨other, hother, hinstant⟩)
          t (by simp [LocalAction.instant])
        rw [hversion]
        exact (newVersion_lt_iff hbefore suffix' suffix).mpr hsortable
      refine ⟨_, kept_new_put hkept md hnew data now, hsub.append (.refl _), ?_⟩
      rw [List.getLast?_append, List.getLast?_append, hlast]
    | pruneByAge maxAge now =>
      obtain ⟨kept, hkept', hsub', hlast'⟩ := kept_prune hkept (.inl ⟨maxAge, now, rfl⟩)
      simp only [LocalAction.snap, Option.toList_none, List.append_nil]
      exact ⟨kept, hkept', hsub'.trans hsub, hlast'.trans hlast⟩
    | pruneOldVersions keepLatest =>
      obtain ⟨kept, hkept', hsub', hlast'⟩ := kept_prune hkept (.inr ⟨keepLatest, rfl⟩)
      simp only [LocalAction.snap, Option.toList_none, List.append_nil]
      exact ⟨kept, hkept', hsub'.trans hsub, hlast'.trans hlast⟩

/-- What is read under the key is in the order of the puts: the latest is the last one, and the list has
    the newest first. -/
structure InOrder (rootDir : GoString) (key : SnapshotKey) (puts : List (List UInt8 × SnapshotMetadata))
    (fs : Fs) : Prop where
  latest : getLatest rootDir fs key
    = match puts.getLast? with
      | none => .error .noSnapshot
      | some s => .ok s
  newestFirst : (list rootDir fs key).reverse.Sublist (puts.map Prod.snd)
  head : (list rootDir fs key).head? = (puts.map Prod.snd).getLast?

/-- **Versions are in the order of time exactly for sortable instants**; and after any history of puts and
    prunings under a key, at instants each of which is before the next ones and sortable with them, the
    snapshot that was put last is the latest, and the list has the newest first. -/
theorem latest_in_order (rootDir : GoString) (key : SnapshotKey) :
    (∀ (t t' : Instant) (suffix suffix' : Suffix), t.Before t' →
      (newVersion t suffix < newVersion t' suffix' ↔ Sortable t t'))
      ∧ ∀ history : List LocalAction,
        (∀ action ∈ history, action.PutsOrPrunes) →
        ((history.filterMap LocalAction.instant).Pairwise fun t t' => t.Before t' ∧ Sortable t t') →
        InOrder rootDir key (history.filterMap (LocalAction.snap key))
          (run (LocalAction.step rootDir key) .empty history) := by
  refine ⟨fun t t' suffix suffix' h => newVersion_lt_iff h suffix suffix', fun history hactions
    hinstants => ?_⟩
  obtain ⟨snaps, hkept, hsub, hlast⟩ := kept_run rootDir key hactions hinstants
  refine ⟨by rw [hkept.getLatest, hlast], ?_, ?_⟩
  · rw [hkept.list, List.reverse_reverse]
    exact hsub.map _
  · rw [hkept.list, List.head?_reverse, List.getLast?_map, List.getLast?_map, hlast]

/-- An instant in the second of January 2026. -/
def moment (nanosecond : Nat) (h : nanosecond < 10 ^ 9) : Instant where
  year := 2026
  month := 1
  day := 2
  hour := 3
  minute := 4
  second := 5
  nanosecond := nanosecond
  month_le := by decide
  day_le := by decide
  hour_lt := by decide
  minute_lt := by decide
  second_lt := by decide
  nanosecond_lt := h

/-- Two puts, a tenth of a second into the second and twenty milliseconds later. -/
def twoPuts : List LocalAction :=
  [.put ⟨⟨[], [], [], []⟩, [], 0, 0⟩ (moment 100000000 (by decide)) (0, 0, 0) (some [1]) 1,
    .put ⟨⟨[], [], [], []⟩, [], 0, 0⟩ (moment 120000000 (by decide)) (0, 0, 0) (some [2]) 2]

/-- The later version is the lower one: the first snapshot is read, and pruning deletes the second. -/
theorem later_put_is_pruned :
    (moment 100000000 (by decide)).Before (moment 120000000 (by decide))
      ∧ newVersion (moment 120000000 (by decide)) (0, 0, 0) < newVersion (moment 100000000 (by decide)) (0, 0, 0)
      ∧ ((getLatest (text "/data") (run (LocalAction.step (text "/data") ⟨[], [], [], []⟩) .empty twoPuts)
          ⟨[], [], [], []⟩).toOption.map Prod.fst) = some [1]
      ∧ (list (text "/data") (run (LocalAction.step (text "/data") ⟨[], [], [], []⟩) .empty
          (twoPuts ++ [.pruneOldVersions 1])) ⟨[], [], [], []⟩).map (fun md => md.createdAt) = [1] := by
  decide

end MemoryLayer.Local
