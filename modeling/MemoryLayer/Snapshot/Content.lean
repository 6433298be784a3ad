import MemoryLayer.Snapshot.Gc

namespace MemoryLayer.Snapshot

open Calls Prog

/-! # What hashes stand for

Blobs are named by the hash of what they hold, and a location is valid when the pack with that hash
has the chunk there.  The hash function is taken to be injective, so that a hash stands for the bytes.

- `Located`: a valid location; it does not depend on what is stored.
- `Valid`: every blob has its hash, every reference and every entry of the dedup store is to a valid
  location, and the packs that the dedup store names are there.
- `Putting`, `serves_put`: the stores stay valid while a put runs.
-/

variable {sha : Bytes → String} {s : SnapshotVersion} {raw : Bytes}

/-- The pack with this hash has the chunk at this place. -/
def Located (sha : Bytes → String) (h : String) (ref : PackRef) : Prop :=
  ∃ raw, sha raw = ref.packHash ∧ 0 ≤ ref.offset ∧ 0 < ref.size
    ∧ ref.offset + ref.size ≤ raw.length
    ∧ sha (window raw ref.offset (ref.offset + ref.size)) = h

/-- A chunk of a pack is located where it was placed. -/
theorem located_place (sha : Bytes → String) {chunks : List Bytes}
    (hne : ∀ chunk ∈ chunks, chunk ≠ []) {x : Int × Bytes} (hx : x ∈ place 0 chunks) :
    Located sha (sha x.2) ⟨sha chunks.flatten, x.1, x.2.length⟩ := by
  obtain ⟨hoff, hend, hwin⟩ := window_of_mem_place hx
  have hpos := List.length_pos_of_ne_nil (hne x.2 (snd_mem_of_mem_place hx))
  exact ⟨chunks.flatten, rfl, hoff, by dsimp only; omega, hend, by dsimp only; rw [hwin]⟩

variable {ref : PackRef} {w w' : World} {key : SnapshotKey} {e : Env} {id : BlobId} {content : PackBlob}
  {d h : String} {log : Log} {c : ChunkedStore} {P : ChunkSpec}

/-- Whoever holds the pack finds the chunk. -/
theorem Located.window (hinj : Function.Injective sha)
    (hloc : Located sha h ref) (hraw : sha raw = ref.packHash) :
    0 ≤ ref.offset ∧ 0 < ref.size ∧ ref.offset + ref.size ≤ raw.length
      ∧ sha (window raw ref.offset (ref.offset + ref.size)) = h := by
  obtain ⟨raw', hraw', hwin⟩ := hloc
  cases hinj (hraw.trans hraw'.symm)
  exact hwin

/-- A located chunk has the size of what its hash stands for. -/
theorem Located.size_eq (hinj : Function.Injective sha) {chunk : Bytes}
    (hloc : Located sha (sha chunk) ref) : ref.size = chunk.length := by
  obtain ⟨raw, -, hoff, hsize, hend, hwin⟩ := hloc
  have hlen := length_window hoff (by omega) hend
  rw [hinj hwin] at hlen
  omega

/-! ### Valid stores -/

/-- The references of a manifest are to valid locations. -/
def ValidRefs (sha : Bytes → String) (m : ChunkManifest) : Prop :=
  m.format = .v2 → ∀ r ∈ m.chunks, r.packHash ≠ "" →
    Located sha r.hash ⟨r.packHash, r.offset, r.size⟩

/-- A pack is stored. -/
def World.Has (w : World) (domain packHash : String) : Prop :=
  (w.stored (packBlobID domain packHash)).isSome = true

/-- Hashes stand for what is stored. -/
structure Valid (sha : Bytes → String) (w : World) : Prop where
  blobs : ∀ id b, w.stored id = some b → sha b.content.raw = id.hash
  refs : ∀ s ∈ w.snaps, ValidRefs sha s.manifest
  index : ∀ domain h ref, w.dedup.byDom domain h = some ref →
    w.Has domain ref.packHash ∧ Located sha h ref

theorem valid_empty (sha : Bytes → String) : Valid sha .empty where
  blobs _ _ h := by cases h
  refs _ h := by cases h
  index _ _ _ h := by cases h

theorem foldl_later_mem (s : SnapshotVersion) (l : List SnapshotVersion) :
    l.foldl World.later s ∈ s :: l := by
  induction l generalizing s with
  | nil => exact List.mem_cons_self ..
  | cons x l ih =>
    rw [List.foldl_cons]
    rcases List.mem_cons.mp (ih (World.later s x)) with h | h
    · rw [h, World.later]
      split <;> simp
    · exact List.mem_cons_of_mem _ (List.mem_cons_of_mem _ h)

/-- The latest version of a key is one of its versions. -/
theorem World.mem_of_latest (h : w.latest key = some s) : s ∈ w.versionsOf key := by
  unfold World.latest at h
  split at h
  · cases h
  · rename_i first rest hversions
    cases h
    rw [hversions]
    exact foldl_later_mem first rest

theorem World.mem_snaps_of_latest
    (h : w.latest key = some s) : s ∈ w.snaps := (List.mem_filter.mp (World.mem_of_latest h)).1

/-- Uploading keeps what is there. -/
theorem World.stored_upload {id' : BlobId} {b : Blob}
    (h : w.stored id' = some b) : (serve e w (.putIfAbsent id content)).2.stored id' = some b := by
  rw [stored_putIfAbsent]
  split
  · rename_i heq
    rw [← heq, h]
    rfl
  · exact h

theorem World.Has.upload {p : String}
    (h : w.Has d p) : (serve e w (.putIfAbsent id content)).2.Has d p := by
  obtain ⟨b, hb⟩ := Option.isSome_iff_exists.mp h
  rw [World.Has, World.stored_upload hb]
  rfl

theorem World.has_upload (e : Env) (w : World) (d p : String) (content : PackBlob) :
    (serve e w (.putIfAbsent (packBlobID d p) content)).2.Has d p := by
  rw [World.Has, stored_putIfAbsent, if_pos rfl]
  cases w.stored (packBlobID d p) <;> rfl

/-- Uploading a blob under its hash. -/
theorem Valid.upload (h : Valid sha w)
    (hid : sha content.raw = id.hash) : Valid sha (serve e w (.putIfAbsent id content)).2 where
  blobs id' b hb := by
    rw [stored_putIfAbsent] at hb
    split at hb
    · rename_i heq
      subst heq
      cases hold : w.stored id' with
      | some b' =>
        rw [hold] at hb
        cases hb
        exact h.blobs id' _ hold
      | none =>
        rw [hold] at hb
        cases hb
        exact hid
    · exact h.blobs id' b hb
  refs := by
    obtain ⟨blobs, hblobs⟩ := serve_putIfAbsent e w id content
    rw [hblobs]
    exact h.refs
  index d x ref hx := by
    obtain ⟨blobs, hblobs⟩ := serve_putIfAbsent e w id content
    refine (h.index d x ref ?_).imp_left World.Has.upload
    rw [hblobs] at hx
    exact hx

/-- Recording valid locations in packs that are there. -/
theorem Valid.record (h : Valid sha w) {locs : List ChunkLocation}
    (hlocs : ∀ loc ∈ locs, Located sha loc.chunkHash loc.ref ∧ w.Has d loc.ref.packHash) :
    Valid sha (serve e w (.record d locs)).2 where
  blobs := h.blobs
  refs := h.refs
  index d' x ref hx := by
    rcases MemoryDedupStore.byDom_record hx with hx | ⟨rfl, loc, hmem, rfl, rfl⟩
    · exact h.index d' x ref hx
    · exact (hlocs loc hmem).symm

/-- Writing a manifest whose references are valid. -/
theorem Valid.putSnapshot (h : Valid sha w) (key : SnapshotKey)
    (md : SnapshotMetadata) {m : ChunkManifest} (hm : ValidRefs sha m) :
    Valid sha (serve e w (.putSnapshot key md m)).2 where
  blobs := h.blobs
  refs := forall_putSnapshot h.refs hm
  index := h.index

/-- Deleting a manifest. -/
theorem Valid.deleteSnapshot (h : Valid sha w) (key : SnapshotKey)
    (version : String) : Valid sha (serve e w (.deleteSnapshot key version)).2 :=
  ⟨h.blobs, fun s hs => h.refs s (List.mem_filter.mp hs).1, h.index⟩

/-- Calls on the associations leave the locations alone. -/
theorem Valid.of_byDom (h : Valid sha w) (hblobs : w'.blobs = w.blobs)
    (hsnaps : w'.snaps = w.snaps) (hdom : w'.dedup.byDom = w.dedup.byDom) : Valid sha w' := by
  have hstored : ∀ id, w'.stored id = w.stored id := fun id => by
    rw [World.stored, hblobs, World.stored]
  refine ⟨fun id b hb => h.blobs id b (by rw [← hstored]; exact hb), fun s hs => h.refs s (by rw [← hsnaps]; exact hs),
    fun d x ref hx => ?_⟩
  rw [hdom] at hx
  refine (h.index d x ref hx).imp_left fun hhas => ?_
  rw [World.Has, hstored]
  exact hhas

theorem byDom_associate (m : MemoryDedupStore) (d : String) (assocs : List PackAssociation) :
    (m.associate d assocs).2.byDom = m.byDom := by
  unfold MemoryDedupStore.associate
  split
  · rfl
  · split <;> rfl

/-! ### Puts -/

/-- A put under way: the packs that it has uploaded are there, and what it was told is valid. -/
structure Putting (sha : Bytes → String) (log : Log) (w : World) : Prop extends Valid sha w where
  uploaded : ∀ d p, log.Uploaded d p → w.Has d p
  found : ∀ d h ref, log.Found d h ref → Located sha h ref
  read : ∀ key s, (⟨.getLatest key, some s⟩ : Event) ∈ log → ValidRefs sha s.manifest

theorem putting_start (h : Valid sha w) : Putting sha [] w where
  toValid := h
  uploaded _ _ := by simp [Log.Uploaded]
  found _ _ _ := by simp [Log.Found]
  read _ _ := by simp

/-- A call that uploads nothing, and what it tells is valid. -/
def Told (sha : Bytes → String) : Event → Prop
  | ⟨.putIfAbsent .., _⟩ => False
  | ⟨.lookup _ h, a⟩ => ∀ ref, a = some ref → Located sha h ref
  | ⟨.getLatest _, a⟩ => ∀ s, a = some s → ValidRefs sha s.manifest
  | _ => True

theorem Putting.next (h : Putting sha log w) (hvalid : Valid sha w')
    (hblobs : w'.blobs = w.blobs) {event : Event} (htold : Told sha event) :
    Putting sha (log ++ [event]) w' := by
  refine ⟨hvalid, fun d p hup => ?_, fun d x ref hmem => ?_, fun key s hmem => ?_⟩
  · obtain ⟨content, hup⟩ := hup
    rcases List.mem_append.mp hup with hup | hup
    · have hhas := h.uploaded d p ⟨content, hup⟩
      rw [World.Has, World.stored, hblobs]
      exact hhas
    · rw [← List.mem_singleton.mp hup] at htold
      exact absurd htold id
  · rcases List.mem_append.mp hmem with hmem | hmem
    · exact h.found d x ref hmem
    · rw [← List.mem_singleton.mp hmem] at htold
      exact htold ref rfl
  · rcases List.mem_append.mp hmem with hmem | hmem
    · exact h.read key s hmem
    · rw [← List.mem_singleton.mp hmem] at htold
      exact htold s rfl

/-- An upload. -/
theorem Putting.upload (h : Putting sha log w)
    (hid : sha content.raw = id.hash) :
    Putting sha (log ++ [⟨.putIfAbsent id content, ()⟩]) (serve e w (.putIfAbsent id content)).2 := by
  refine ⟨h.toValid.upload hid, fun d p hup => ?_, fun d x ref hmem => ?_, fun key s hmem => ?_⟩
  · obtain ⟨content', hup⟩ := hup
    rcases List.mem_append.mp hup with hup | hup
    · exact (h.uploaded d p ⟨content', hup⟩).upload
    · cases List.mem_singleton.mp hup
      exact World.has_upload e w d p content
  · exact h.found d x ref (by simpa [Log.Found] using hmem)
  · exact h.read key s (by simpa using hmem)

theorem raw_of_storePackBlob {mode : PackCompressionMode} {spans : List PackSpan}
    {codec : CompressionAlgo}
    (h : storePackBlob mode raw spans codec = some content) : content.raw = raw := by
  unfold storePackBlob at h
  split at h
  · cases h
    rfl
  · split at h
    · cases h
      rfl
    · cases h

theorem Packed.located (hat : Packed c P log d h ref) : Located c.sha h ref := by
  obtain ⟨chunks, ⟨hpack, -⟩, x, hx, rfl, rfl⟩ := hat
  exact located_place c.sha hpack.chunk_ne_nil hx

/-- What a put writes is valid. -/
theorem Putting.located (h : Putting c.sha log w) {r : ChunkRef} (hr : Resolved c P log key r) :
    Located c.sha r.hash ⟨r.packHash, r.offset, r.size⟩ := by
  rcases hr.source with hat | hfound | ⟨s, hs, hformat, hmem, -⟩
  · exact hat.located
  · exact h.found _ _ _ hfound
  · exact h.read key s hs hformat _ hmem hr.packHash_ne

/-- **The stores stay valid while a put runs.** -/
theorem serves_put (e : Env) {items : List BatchPutItem} :
    Serves (putRules c P items) (serve e) (Putting c.sha) := by
  intro log w k h hok
  refine ⟨trivial, ?_⟩
  cases k with
  | lookup d x =>
    refine h.next h.toValid rfl fun ref href => ?_
    exact (h.index d x ref (Option.filter_eq_some_iff.mp href).1).2
  | getLatest key =>
    exact h.next h.toValid rfl fun s hs => h.refs s (World.mem_snaps_of_latest hs)
  | putIfAbsent id content =>
    refine h.upload ?_
    rcases hok with ⟨d, chunks, codec, -, rfl, -, hstored⟩ | ⟨-, item, -, chunk, codec, rfl, rfl⟩
    · rw [raw_of_storePackBlob hstored]
      rfl
    · rfl
  | record d locs =>
    refine h.next (h.toValid.record fun loc hloc => ?_) rfl trivial
    exact ⟨(hok.2 loc hloc).located, h.uploaded d _ (hok.2 loc hloc).uploaded⟩
  | associate d assocs =>
    have hvalid : Valid c.sha (serve e w (.associate d assocs)).2 :=
      h.toValid.of_byDom rfl rfl (byDom_associate ..)
    exact h.next hvalid rfl trivial
  | putSnapshot key md m =>
    refine h.next (h.toValid.putSnapshot key md ?_) rfl trivial
    obtain ⟨item, -, -, -, hwritten | hwritten⟩ := hok
    · exact fun _ r hr _ => h.located (hwritten.refs r hr)
    · intro hformat
      rw [hwritten.format] at hformat
      cases hformat
  | _ => exact absurd hok id

/-- **A put keeps the stores valid.** -/
theorem valid_putBatch (e : Env) (hsha : ∀ b, c.sha b ≠ "")
    (items : List BatchPutItem) (h : Valid c.sha w) :
    Valid c.sha ((c.putBatch items).exec (serve e) w).2 := by
  have hmeets : (c.putBatch items).Meets (putRules c .any items) [] _ :=
    meets_putBatch hsha (fits_any _)
  obtain ⟨log, hlog, -⟩ := hmeets.exec (serves_put e) (putting_start h)
  exact hlog.toValid

end MemoryLayer.Snapshot
