import MemoryLayer.Lib.Prog
import MemoryLayer.Snapshot.BlobId
import MemoryLayer.Snapshot.Dedup
import MemoryLayer.Snapshot.Frame
import MemoryLayer.Sql.Keyed

namespace MemoryLayer.Snapshot

open Calls

/-! # The stores below a chunked store

A `ChunkedStore` keeps packs in a blob store, manifests in a snapshot store, and chunk locations in a
dedup store.  Its operations are programs that call these three, so that they can be executed alone
or interleaved.

- `SnapshotKey`, `SnapshotMetadata`, `ChunkManifest`, `SnapshotVersion`: what the snapshot store holds.
- `World`: the three stores and the clock.
- `Call`, `Answer`, `serve`: the calls, each of which is one atomic step.
- `World.blob`, `World.get`, `World.getLatest`: what a reader finds.
- `stored_putIfAbsent`, `stored_deleteBlob`: what the calls do to blobs.
-/

/-- What a snapshot belongs to. -/
structure SnapshotKey where
  tenant : String
  workspace : String
  user : String
  ownerKey : String
  deriving DecidableEq, Repr

/-- The parts of the metadata that a chunked store reads: the content type and the tags. -/
structure SnapshotMetadata where
  format : String
  tags : String → Option String

/-- A tag, where an absent one reads as the empty string. -/
def SnapshotMetadata.tag (md : SnapshotMetadata) (name : String) : String :=
  (md.tags name).getD ""

/-- One blob per chunk, or packs. -/
inductive ManifestFormat where
  | v1
  | v2
  deriving DecidableEq, Repr

/-- The name of a format, in manifests and in the tag `chunked_format`. -/
def ManifestFormat.name : ManifestFormat → String
  | .v1 => "sandbox-chunked-v1"
  | .v2 => "sandbox-chunked-v2"

/-- What is stored for an object: the chunks in stream order. -/
structure ChunkManifest where
  format : ManifestFormat
  totalSize : Int
  tenant : String
  chunks : List ChunkRef
  deriving DecidableEq, Repr

/-- One version of one key. -/
structure SnapshotVersion where
  key : SnapshotKey
  version : String
  md : SnapshotMetadata
  manifest : ChunkManifest

/-- The snapshot carries the tag of a chunked manifest. -/
def SnapshotVersion.isChunkedManifest (s : SnapshotVersion) : Bool :=
  s.md.tag "chunked_format" = ManifestFormat.v1.name
    ∨ s.md.tag "chunked_format" = ManifestFormat.v2.name

/-- A stored blob, with the time of its upload. -/
structure Blob where
  id : BlobId
  content : PackBlob
  timestamp : Int
  deriving DecidableEq, Repr

/-- The stores, with the number of snapshots written so far and the clock. -/
structure World where
  blobs : List Blob
  snaps : List SnapshotVersion
  dedup : MemoryDedupStore
  puts : Nat
  now : Int

/-- What the stores are given from outside: the version string of the n-th snapshot, and the size that
    a blob has on disk. -/
structure Env where
  versions : Nat → String
  physical : PackBlob → Int

/-- Nothing stored. -/
def World.empty : World := ⟨[], [], .empty, 0, 0⟩

/-- What a listing says of a blob. -/
structure BlobMetadata where
  id : BlobId
  length : Int
  timestamp : Int
  deriving DecidableEq, Repr

/-- The calls. -/
inductive Call where
  | lookup (domain chunkHash : String)
  | record (domain : String) (locs : List ChunkLocation)
  | purgePacks (domain : String) (packHashes : List String)
  | associate (domain : String) (assocs : List PackAssociation)
  | dropContext (domain packContext : String)
  | markObliterating (domain packHash : String)
  | releaseMark (domain packHash : String)
  | commitObliterated (domain packHash : String)
  | isBackfilled (domain : String)
  | walkLivePacks (domain : String)
  | putIfAbsent (id : BlobId) (content : PackBlob)
  | getBlob (id : BlobId)
  | getMetadata (id : BlobId)
  | deleteBlob (id : BlobId)
  | listBlobs (listing : Listing)
  | putSnapshot (key : SnapshotKey) (md : SnapshotMetadata) (manifest : ChunkManifest)
  | getLatest (key : SnapshotKey)
  | listVersions (key : SnapshotKey)
  | deleteSnapshot (key : SnapshotKey) (version : String)
  | walk
  | clock

/-- The answers.  `associate` is answered `false` when a pack is being reclaimed, and a walk of the
    live packs with the predicate they fulfil. -/
@[reducible] def Answer : Call → Type
  | .lookup .. => Option PackRef
  | .associate .. | .markObliterating .. | .commitObliterated .. | .isBackfilled .. => Bool
  | .dropContext .. => List String
  | .walkLivePacks .. => String → Bool
  | .getBlob .. => Option PackBlob
  | .getMetadata .. => Option BlobMetadata
  | .listBlobs .. => List BlobMetadata
  | .putSnapshot .. => String
  | .getLatest .. => Option SnapshotVersion
  | .listVersions .. => List SnapshotVersion
  | .walk => List SnapshotVersion
  | .clock => Int
  | .record .. | .purgePacks .. | .releaseMark .. | .putIfAbsent .. | .deleteBlob ..
  | .deleteSnapshot .. => Unit

/-- A program over the stores. -/
abbrev StoreProg := Prog Answer

/-- One call of a program. -/
abbrev issue (c : Call) : StoreProg (Answer c) := Prog.perform c

/-! ### Finding things -/

namespace World

/-- What is stored under an ID. -/
def stored (w : World) (id : BlobId) : Option Blob := w.blobs.find? fun b => b.id = id

/-- The blob under an ID. -/
def blob (w : World) (id : BlobId) : Option PackBlob := (w.stored id).map Blob.content

/-- The versions of a key. -/
def versionsOf (w : World) (key : SnapshotKey) : List SnapshotVersion :=
  w.snaps.filter fun s => s.key = key

/-- The later of two versions; the order is that of the version strings. -/
def later (best s : SnapshotVersion) : SnapshotVersion :=
  if best.version < s.version then s else best

/-- The snapshot with the highest version. -/
def latest (w : World) (key : SnapshotKey) : Option SnapshotVersion :=
  match w.versionsOf key with
  | [] => none
  | s :: rest => some (rest.foldl later s)

/-- The metadata of a blob. -/
def metadata (e : Env) (w : World) (id : BlobId) : Option BlobMetadata :=
  (w.stored id).map fun b => ⟨b.id, e.physical b.content, b.timestamp⟩

/-- Read an object: a manifest of the old format has only chunks with blobs of their own. -/
def readManifest (sha : Bytes → String) (w : World) (m : ChunkManifest) : Except ReadErr Bytes :=
  (readChunks sha (fun h => w.blob (packBlobID m.tenant h)) (fun h => w.blob (chunkBlobID m.tenant h))
    m.chunks).map List.flatten

/-- `Get` of a version, read to the end. -/
def get (sha : Bytes → String) (w : World) (key : SnapshotKey) (version : String) :
    Option (Except ReadErr Bytes) :=
  (w.snaps.find? fun s => s.key = key ∧ s.version = version).map fun s => w.readManifest sha s.manifest

/-- `GetLatest`, read to the end. -/
def getLatest (sha : Bytes → String) (w : World) (key : SnapshotKey) : Option (Except ReadErr Bytes) :=
  (w.latest key).map fun s => w.readManifest sha s.manifest

end World

/-! ### Serving a call -/

/-- Serve a call, as one atomic step. -/
def serve (e : Env) (w : World) : (c : Call) → Answer c × World
  | .lookup d h => (w.dedup.lookup d h, w)
  | .record d locs => ((), { w with dedup := w.dedup.record d locs })
  | .purgePacks d ps => ((), { w with dedup := w.dedup.purgePacks d ps })
  | .associate d assocs =>
    ((w.dedup.associate d assocs).1, { w with dedup := (w.dedup.associate d assocs).2 })
  | .dropContext d c => ((w.dedup.dropContext d c).1, { w with dedup := (w.dedup.dropContext d c).2 })
  | .markObliterating d p =>
    ((w.dedup.markObliterating d p).1, { w with dedup := (w.dedup.markObliterating d p).2 })
  | .releaseMark d p => ((), { w with dedup := w.dedup.releaseMark d p })
  | .commitObliterated d p =>
    ((w.dedup.commitObliterated d p).1, { w with dedup := (w.dedup.commitObliterated d p).2 })
  | .isBackfilled d => (w.dedup.isBackfilled d, w)
  | .walkLivePacks d => (w.dedup.livePack d, w)
  | .putIfAbsent id content =>
    ((), if (w.blob id).isSome then w else { w with blobs := w.blobs ++ [⟨id, content, w.now⟩] })
  | .getBlob id => (w.blob id, w)
  | .getMetadata id => (w.metadata e id, w)
  | .deleteBlob id => ((), { w with blobs := w.blobs.filter fun b => b.id ≠ id })
  | .listBlobs listing =>
    ((w.blobs.filter fun b => listing.covers b.id).map fun b =>
      ⟨b.id, e.physical b.content, b.timestamp⟩, w)
  | .putSnapshot key md manifest =>
    let version := e.versions w.puts
    (version,
      { w with
        snaps := w.snaps.filter (fun s => ¬ (s.key = key ∧ s.version = version))
          ++ [⟨key, version, md, manifest⟩]
        puts := w.puts + 1 })
  | .getLatest key => (w.latest key, w)
  | .listVersions key => (w.versionsOf key, w)
  | .deleteSnapshot key version =>
    ((), { w with snaps := w.snaps.filter fun s => ¬ (s.key = key ∧ s.version = version) })
  | .walk => (w.snaps, w)
  | .clock => (w.now, w)

/-! ### What the calls do to blobs -/

/-- An upload changes only the blobs. -/
theorem serve_putIfAbsent (e : Env) (w : World) (id : BlobId) (content : PackBlob) :
    ∃ blobs, (serve e w (.putIfAbsent id content)).2 = { w with blobs := blobs } := by
  simp only [serve]
  split
  · exact ⟨w.blobs, rfl⟩
  · exact ⟨_, rfl⟩

/-- The manifests after one more is written. -/
theorem forall_putSnapshot {P : SnapshotVersion → Prop} {e : Env} {w : World} {key : SnapshotKey}
    {md : SnapshotMetadata} {m : ChunkManifest} (h : ∀ s ∈ w.snaps, P s)
    (hnew : P ⟨key, e.versions w.puts, md, m⟩) :
    ∀ s ∈ (serve e w (.putSnapshot key md m)).2.snaps, P s :=
  List.forall_mem_append.mpr
    ⟨fun s hs => h s (List.mem_filter.mp hs).1, List.forall_mem_singleton.mpr hnew⟩

/-- Uploading keeps what is there. -/
theorem stored_putIfAbsent (e : Env) (w : World) (id id' : BlobId) (content : PackBlob) :
    (serve e w (.putIfAbsent id content)).2.stored id'
      = if id' = id then (w.stored id).or (some ⟨id, content, w.now⟩) else w.stored id' := by
  simp only [serve, World.blob, Option.isSome_map]
  by_cases hsome : (w.stored id).isSome = true
  · rw [if_pos hsome]
    by_cases hid : id' = id
    · rw [if_pos hid, hid, Option.or_of_isSome hsome]
    · rw [if_neg hid]
  · rw [if_neg hsome]
    have hnone : w.stored id = none := by simpa using hsome
    refine (Sql.find?_append_key Blob.id w.blobs _ id').trans ?_
    by_cases hid : id' = id
    · subst hid
      simp [World.stored]
    · simp [World.stored, hid, Ne.symm hid]

/-- Deleting removes one blob. -/
theorem stored_deleteBlob (e : Env) (w : World) (id id' : BlobId) :
    (serve e w (.deleteBlob id)).2.stored id' = if id' = id then none else w.stored id' := by
  simpa [serve, World.stored] using Sql.find?_filter_key Blob.id w.blobs id id'

end MemoryLayer.Snapshot
