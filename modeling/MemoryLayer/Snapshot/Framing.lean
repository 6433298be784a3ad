import MemoryLayer.Snapshot.Content

namespace MemoryLayer.Snapshot

open Calls Prog Runs

/-! # Stores in which every object can be read

A pack is named by the bytes it holds, and not by where its chunks begin.  An upload that finds the
pack there leaves it as it is, so a pack can be stored with the index of other chunks than those that
were uploaded last.  When no upload finds an index other than its own, every reference that a put
writes can be read.

- `KeepsFraming`: uploads that find no other index.
- `World.Reads`, `World.Grows`: references that can be read stay so while blobs are added.
- `World.readManifest_of_reads`: objects whose references can be read are read.
- `World.Cut`, `Tiled`: packs whose index is that of given chunks, and of some chunks.
- `Sound`: the references of manifests, and the locations in the dedup store, can be read.
- `Heard`, `Writing`, `serves_writing`: puts keep the stores sound, as long as what they upload is cut
  as they expect.
- `PutOp`, `sound_of_guarded`: histories of puts keep the stores sound.
-/

/-- An upload that finds its blob there finds it without an index, or with its own. -/
def KeepsFraming (w : World) : Call → Bool
  | .putIfAbsent id content => (w.blob id).all fun b => b.index = none ∨ b.index = content.index
  | _ => true

variable {chunks : List Bytes} {d : String} {m : ChunkManifest} {r : ChunkRef} {key : SnapshotKey}
  {event : Event}

namespace World

/-- What was uploaded is there, without an index or with its own. -/
def Keeps (w : World) (id : BlobId) (content : PackBlob) : Prop :=
  ∃ b, w.blob id = some b ∧ (b.index = none ∨ b.index = content.index)

/-- A pack is there, and its index, if it has one, is that of the chunks. -/
def Cut (w : World) (id : BlobId) (chunks : List Bytes) : Prop :=
  ∃ b, w.blob id = some b ∧ ∀ entries, b.index = some entries → entries = spansOf chunks

/-- A reference of a manifest of the domain can be read. -/
def Reads (sha : Bytes → String) (w : World) (domain : String) (r : ChunkRef) : Prop :=
  Readable sha (fun h => w.blob (packBlobID domain h)) (fun h => w.blob (chunkBlobID domain h)) r

/-- Blobs have only been added. -/
def Grows (w w' : World) : Prop := ∀ id b, w.blob id = some b → w'.blob id = some b

variable {sha : Bytes → String} {w w' : World}

theorem Grows.of_blobs (h : w'.blobs = w.blobs) : w.Grows w' := by
  intro id b hb
  rw [World.blob, World.stored, h]
  exact hb

theorem Keeps.grows (hgrows : w.Grows w') {id : BlobId} {content : PackBlob}
    (h : w.Keeps id content) : w'.Keeps id content := by
  obtain ⟨b, hb, hindex⟩ := h
  exact ⟨b, hgrows id b hb, hindex⟩

theorem Cut.grows (hgrows : w.Grows w') {id : BlobId} (h : w.Cut id chunks) :
    w'.Cut id chunks := by
  obtain ⟨b, hb, hindex⟩ := h
  exact ⟨b, hgrows id b hb, hindex⟩

theorem Reads.grows (hgrows : w.Grows w') (h : w.Reads sha d r) :
    w'.Reads sha d r := by
  unfold Reads Readable at h ⊢
  split
  · rename_i hv1
    rw [if_pos hv1] at h
    obtain ⟨b, hb, hsize⟩ := h
    exact ⟨b, hgrows _ b hb, hsize⟩
  · rename_i hv2
    rw [if_neg hv2] at h
    obtain ⟨b, hb, hin⟩ := h
    exact ⟨b, hgrows _ b hb, hin⟩

/-- What a reference names. -/
def chunk (w : World) (domain : String) (r : ChunkRef) : Bytes :=
  chunkAt (fun h => w.blob (packBlobID domain h)) (fun h => w.blob (chunkBlobID domain h)) r

theorem chunk_grows (hgrows : w.Grows w') (h : w.Reads sha d r) :
    w'.chunk d r = w.chunk d r := by
  unfold Reads Readable at h
  unfold chunk chunkAt
  split
  · rename_i hv1
    rw [if_pos hv1] at h
    obtain ⟨b, hb, -⟩ := h
    dsimp only at hb ⊢
    rw [hb, hgrows _ b hb]
  · rename_i hv2
    rw [if_neg hv2] at h
    obtain ⟨b, hb, -⟩ := h
    dsimp only at hb ⊢
    rw [hb, hgrows _ b hb]

/-- **An object is read** when its references can be. -/
theorem readManifest_of_reads (h : ∀ r ∈ m.chunks, w.Reads sha m.tenant r) :
    w.readManifest sha m = .ok (m.chunks.map (w.chunk m.tenant)).flatten := by
  rw [readManifest, readChunks_ok h]
  rfl

/-- A blob after an upload. -/
theorem blob_putIfAbsent (e : Env) (w : World) (id id' : BlobId) (content : PackBlob) :
    (serve e w (.putIfAbsent id content)).2.blob id'
      = if id' = id then (w.blob id).or (some content) else w.blob id' := by
  rw [World.blob, stored_putIfAbsent]
  split
  · rw [Option.map_or]
    rfl
  · rfl

theorem grows_upload (e : Env) (w : World) (id : BlobId) (content : PackBlob) :
    w.Grows (serve e w (.putIfAbsent id content)).2 := by
  intro id' b hb
  rw [blob_putIfAbsent]
  split
  · rename_i heq
    rw [← heq, hb]
    rfl
  · exact hb

/-- An upload that finds no other index. -/
theorem keeps_upload {e : Env} {id : BlobId} {content : PackBlob}
    (h : KeepsFraming w (.putIfAbsent id content)) :
    (serve e w (.putIfAbsent id content)).2.Keeps id content := by
  rw [Keeps, blob_putIfAbsent, if_pos rfl]
  cases hblob : w.blob id with
  | none => exact ⟨content, rfl, .inr rfl⟩
  | some b =>
    refine ⟨b, rfl, ?_⟩
    rw [KeepsFraming, hblob] at h
    simpa using h

end World

/-! ### Packs -/

variable {mode : PackCompressionMode} {codec : CompressionAlgo} {content : PackBlob} {id : BlobId}

theorem index_of_storePackBlob {raw : Bytes} {spans entries : List PackSpan}
    (h : storePackBlob mode raw spans codec = some content) (hentries : content.index = some entries) :
    entries = spans := by
  unfold storePackBlob at h
  split at h
  · cases h
    cases hentries
  · split at h
    · cases h
      exact (Option.some_inj.mp hentries).symm
    · cases h

/-- The index of a pack, if it has one, is that of chunks that follow each other in it. -/
def Tiled (P : ChunkSpec) (b : PackBlob) : Prop :=
  ∀ entries, b.index = some entries →
    ∃ chunks, IsPack P chunks ∧ chunks.flatten = b.raw ∧ entries = spansOf chunks

theorem Tiled.framed {P : ChunkSpec} {b : PackBlob} (h : Tiled P b) : b.Framed := by
  intro entries hentries
  obtain ⟨chunks, hpack, hraw, rfl⟩ := h entries hentries
  have htiles := tiles_place 0 hpack.chunk_ne_nil
  rw [Int.zero_add] at htiles
  rw [← hraw]
  exact htiles

theorem tiled_of_storePackBlob {P : ChunkSpec}
    (hpack : IsPack P chunks)
    (h : storePackBlob mode chunks.flatten (spansOf chunks) codec = some content) :
    Tiled P content := by
  intro entries hentries
  exact ⟨chunks, hpack, (raw_of_storePackBlob h).symm, index_of_storePackBlob h hentries⟩

/-- What is there without an index, or with its own, is cut as it was uploaded. -/
theorem World.Keeps.cut {w : World}
    (h : w.Keeps id content)
    (hstored : storePackBlob mode chunks.flatten (spansOf chunks) codec = some content) :
    w.Cut id chunks := by
  obtain ⟨b, hb, hindex⟩ := h
  refine ⟨b, hb, fun entries hentries => ?_⟩
  rcases hindex with hnone | hsame
  · rw [hnone] at hentries
    cases hentries
  · exact index_of_storePackBlob hstored (hsame.symm.trans hentries)

/-! ### Sound stores -/

/-- Blobs are stored under their hash, and with an index of their chunks. -/
def BlobsOk (c : ChunkedStore) (P : ChunkSpec) (w : World) : Prop :=
  ∀ id b, w.blob id = some b → c.sha b.raw = id.hash ∧ Tiled P b

/-- The locations of packs that have not been obliterated can be read, and the references of manifests
    if they are `kept`; version strings are those that were given. -/
structure Sound (c : ChunkedStore) (P : ChunkSpec) (kept : Prop) (e : Env) (w : World) : Prop where
  blobs : BlobsOk c P w
  refs : kept → ∀ s ∈ w.snaps, s.manifest.tenant = c.domainFor s.key
    ∧ ∀ r ∈ s.manifest.chunks, w.Reads c.sha s.manifest.tenant r
  index : ∀ d h ref, w.dedup.byDom d h = some ref →
    (w.dedup.assoc d).stateOf ref.packHash ≠ .obliterated →
    w.Reads c.sha d ⟨h, ref.packHash, ref.offset, ref.size⟩
  versions : ∀ s ∈ w.snaps, ∃ n < w.puts, s.version = e.versions n

variable {c : ChunkedStore} {P : ChunkSpec} {kept : Prop} {e : Env} {w w' : World}

theorem sound_empty (c : ChunkedStore) (P : ChunkSpec) (kept : Prop) (e : Env) :
    Sound c P kept e .empty where
  blobs _ _ h := by cases h
  refs _ _ h := by cases h
  index _ _ _ h := by cases h
  versions _ h := by cases h

/-- What holds of all blobs and of what is uploaded, holds after the upload. -/
theorem forall_blob_upload {Q : BlobId → PackBlob → Prop} (h : ∀ id b, w.blob id = some b → Q id b)
    (e : Env) (hnew : Q id content) :
    ∀ id' b, (serve e w (.putIfAbsent id content)).2.blob id' = some b → Q id' b := by
  intro id' b hb
  rw [World.blob_putIfAbsent] at hb
  split at hb
  · rename_i heq
    subst heq
    rcases Option.or_eq_some_iff.mp hb with hold | ⟨-, hnew⟩
    · exact h id' b hold
    · cases hnew
      assumption
  · exact h id' b hb

theorem Sound.upload (h : Sound c P kept e w)
    (hid : c.sha content.raw = id.hash) (htiled : Tiled P content) :
    Sound c P kept e (serve e w (.putIfAbsent id content)).2 := by
  have hgrows := World.grows_upload e w id content
  have hblobs := forall_blob_upload h.blobs e ⟨hid, htiled⟩
  obtain ⟨blobs, hafter⟩ := serve_putIfAbsent e w id content
  rw [hafter] at hgrows hblobs ⊢
  exact ⟨hblobs, fun hkept s hs => (h.refs hkept s hs).imp_right fun hrefs r hr => (hrefs r hr).grows hgrows,
    fun d x ref hx hstate => (h.index d x ref hx hstate).grows hgrows, h.versions⟩

theorem Sound.record (h : Sound c P kept e w) {locs : List ChunkLocation}
    (hlocs : ∀ loc ∈ locs,
      w.Reads c.sha d ⟨loc.chunkHash, loc.ref.packHash, loc.ref.offset, loc.ref.size⟩) :
    Sound c P kept e (serve e w (.record d locs)).2 where
  blobs := h.blobs
  refs := h.refs
  index d' x ref hx hstate := by
    rcases MemoryDedupStore.byDom_record hx with hx | ⟨rfl, loc, hmem, rfl, rfl⟩
    · exact h.index d' x ref hx hstate
    · exact hlocs loc hmem
  versions := h.versions

/-- Version strings are given one after another. -/
theorem versions_putSnapshot {md : SnapshotMetadata}
    (h : ∀ s ∈ w.snaps, ∃ n < w.puts, s.version = e.versions n) :
    ∀ s ∈ (serve e w (.putSnapshot key md m)).2.snaps, ∃ n < w.puts + 1, s.version = e.versions n := by
  refine forall_putSnapshot (fun s hs => ?_) ⟨w.puts, Nat.lt_succ_self _, rfl⟩
  obtain ⟨n, hn, hv⟩ := h s hs
  exact ⟨n, Nat.lt_succ_of_lt hn, hv⟩

theorem Sound.putSnapshot (h : Sound c P kept e w) (key : SnapshotKey) (md : SnapshotMetadata)
    (htenant : m.tenant = c.domainFor key)
    (hm : ∀ r ∈ m.chunks, w.Reads c.sha m.tenant r) :
    Sound c P kept e (serve e w (.putSnapshot key md m)).2 where
  blobs := h.blobs
  refs hkept := forall_putSnapshot (h.refs hkept) ⟨htenant, hm⟩
  index := h.index
  versions := versions_putSnapshot h.versions

/-- Calls on the dedup store leave the rest alone; they may forget locations, but no pack that was
    obliterated comes back. -/
theorem Sound.of_dedup (h : Sound c P kept e w) (hblobs : w'.blobs = w.blobs)
    (hsnaps : w'.snaps = w.snaps) (hputs : w'.puts = w.puts)
    (hdom : ∀ d x ref, w'.dedup.byDom d x = some ref → w.dedup.byDom d x = some ref)
    (hstate : ∀ d p, (w.dedup.assoc d).stateOf p = .obliterated →
      (w'.dedup.assoc d).stateOf p = .obliterated) : Sound c P kept e w' := by
  have hgrows := World.Grows.of_blobs hblobs
  refine ⟨fun id b hb => h.blobs id b ?_, ?_, fun d x ref hx hne => ?_, ?_⟩
  · exact World.Grows.of_blobs hblobs.symm id b hb
  · rw [hsnaps]
    exact fun hkept s hs => (h.refs hkept s hs).imp_right fun hrefs r hr => (hrefs r hr).grows hgrows
  · exact (h.index d x ref (hdom d x ref hx) fun hold => hne (hstate d _ hold)).grows hgrows
  · rw [hsnaps, hputs]
    exact h.versions

/-! ### Puts -/

/-- What a put has been told is so. -/
def Heard (c : ChunkedStore) (P : ChunkSpec) (w : World) : Event → Prop
  | ⟨.putIfAbsent id content, _⟩ => (w.blob id).isSome ∧ ∀ chunks codec, IsPack P chunks →
    storePackBlob c.packCompression chunks.flatten (spansOf chunks) codec = some content →
    w.Cut id chunks
  | ⟨.lookup d h, a⟩ => ∀ ref, a = some ref →
    w.Reads c.sha d ⟨h, ref.packHash, ref.offset, ref.size⟩
  | ⟨.getLatest key, a⟩ => ∀ s, a = some s → s.manifest.tenant = c.domainFor key
    ∧ ∀ r ∈ s.manifest.chunks, w.Reads c.sha s.manifest.tenant r
  | _ => True

theorem Heard.grows (hgrows : w.Grows w') (h : Heard c P w event) :
    Heard c P w' event := by
  obtain ⟨k, a⟩ := event
  cases k with
  | putIfAbsent id content =>
    obtain ⟨hsome, hcut⟩ := h
    obtain ⟨b, hb⟩ := Option.isSome_iff_exists.mp hsome
    exact ⟨by rw [hgrows id b hb]; rfl, fun chunks codec hpack hstored =>
      (hcut chunks codec hpack hstored).grows hgrows⟩
  | lookup d x => exact fun ref href => (h ref href).grows hgrows
  | getLatest key => exact fun s hs => (h s hs).imp_right fun hrefs r hr => (hrefs r hr).grows hgrows
  | _ => trivial

/-- A put under way. -/
structure Writing (c : ChunkedStore) (P : ChunkSpec) (kept : Prop) (e : Env) (log : Log)
    (w : World) : Prop extends Sound c P kept e w where
  heard : ∀ event ∈ log, Heard c P w event

theorem Writing.next {log : Log} (h : Writing c P kept e log w) (hsound : Sound c P kept e w')
    (hgrows : w.Grows w') (hevent : Heard c P w' event) :
    Writing c P kept e (log ++ [event]) w' := by
  exact ⟨hsound, List.forall_mem_append.mpr
    ⟨fun event' hmem => (h.heard event' hmem).grows hgrows, List.forall_mem_singleton.mpr hevent⟩⟩

/-- An upload leaves its pack cut as the put expects. -/
def CutsAs (c : ChunkedStore) (P : ChunkSpec) (e : Env) (w : World) : Call → Prop
  | .putIfAbsent id content => ∀ chunks codec, IsPack P chunks → id.hash = c.sha chunks.flatten →
    storePackBlob c.packCompression chunks.flatten (spansOf chunks) codec = some content →
    (serve e w (.putIfAbsent id content)).2.Cut id chunks
  | _ => True

/-- An upload that finds no other index than its own. -/
theorem cutsAs_of_keepsFraming {k : Call} (h : KeepsFraming w k) : CutsAs c P e w k := by
  cases k with
  | putIfAbsent id content =>
    exact fun chunks codec _ _ hstored => (World.keeps_upload (e := e) h).cut hstored
  | _ => trivial

section Injective

variable (hinj : Function.Injective c.sha) (hsha : ∀ b, c.sha b ≠ "")

include hinj hsha

/-- **A chunk of an uploaded pack can be read**, and it is what was uploaded. -/
theorem reads_place (hne : ∀ chunk ∈ chunks, chunk ≠ [])
    (hblobs : ∀ id b, w.blob id = some b → c.sha b.raw = id.hash ∧ b.Framed)
    (hcut : w.Cut (packBlobID d (c.sha chunks.flatten)) chunks) {x : Int × Bytes}
    (hx : x ∈ place 0 chunks) :
    w.Reads c.sha d ⟨c.sha x.2, c.sha chunks.flatten, x.1, x.2.length⟩
      ∧ w.chunk d ⟨c.sha x.2, c.sha chunks.flatten, x.1, x.2.length⟩ = x.2 := by
  obtain ⟨b, hb, hindex⟩ := hcut
  obtain ⟨hhash, hframed⟩ := hblobs _ b hb
  have hraw : b.raw = chunks.flatten := hinj hhash
  obtain ⟨hoff, hend, hwin⟩ := window_of_mem_place hx
  have hpos := List.length_pos_of_ne_nil (hne x.2 (snd_mem_of_mem_place hx))
  have hspan : (⟨x.1, x.2.length⟩ : PackSpan) ∈ spansOf chunks := List.mem_map_of_mem hx
  have hchunk : w.chunk d ⟨c.sha x.2, c.sha chunks.flatten, x.1, x.2.length⟩ = x.2 := by
    rw [World.chunk, chunkAt, if_neg (hsha _)]
    dsimp only
    rw [hb]
    change window b.raw x.1 (x.1 + x.2.length) = x.2
    rw [hraw, hwin]
  refine ⟨?_, hchunk⟩
  rw [World.Reads, Readable, if_neg (hsha _)]
  refine ⟨b, hb, hframed, fun entries hentries => ?_, hoff, by dsimp only; omega,
    by rw [hraw]; exact hend, by dsimp only; rw [hraw, hwin]⟩
  rw [hindex entries hentries]
  exact ⟨⟨_, hspan, rfl⟩, _, hspan, rfl⟩

variable {log : Log}

section

variable (h : Writing c P kept e log w)

include h

theorem Writing.reads_packed {x : String} {ref : PackRef}
    (hat : Packed c P log d x ref) :
    w.Reads c.sha d ⟨x, ref.packHash, ref.offset, ref.size⟩ := by
  obtain ⟨chunks, ⟨hpack, codec, content, hstored, hup⟩, x, hx, rfl, rfl⟩ := hat
  exact (reads_place hinj hsha hpack.chunk_ne_nil (fun id b hb => (h.blobs id b hb).imp_right Tiled.framed)
    ((h.heard _ hup).2 chunks codec hpack hstored) hx).1

/-- What a put writes can be read. -/
theorem Writing.reads_resolved (hr : Resolved c P log key r) : w.Reads c.sha (c.domainFor key) r := by
  rcases hr.source with hat | hfound | ⟨s, hs, -, hmem, -⟩
  · exact h.reads_packed hinj hsha hat
  · exact h.heard _ hfound _ rfl
  · obtain ⟨htenant, hrefs⟩ := h.heard _ hs s rfl
    rw [← htenant]
    exact hrefs _ hmem

omit hsha in
/-- A chunk with a blob of its own can be read. -/
theorem Writing.reads_standalone {chunk : Bytes}
    (hup : (⟨.putIfAbsent (chunkBlobID d (c.sha chunk)) content, ()⟩ : Event) ∈ log) :
    w.Reads c.sha d ⟨c.sha chunk, "", 0, chunk.length⟩ := by
  obtain ⟨b, hb⟩ := Option.isSome_iff_exists.mp (h.heard _ hup).1
  have hraw : b.raw = chunk := hinj (h.blobs _ b hb).1
  rw [World.Reads, Readable, if_pos rfl]
  exact ⟨b, hb, by rw [hraw]⟩

end

/-- **The stores stay sound while a put runs** whose uploads leave packs that are cut as it expects. -/
theorem serves_writing {items : List BatchPutItem} {good : World → Call → Prop}
    (hkept : c.index = .priorManifest → kept)
    (hcut : ∀ w k, BlobsOk c P w → good w k → CutsAs c P e w k) :
    ServesWhile good (putRules c P items) (serve e) (Writing c P kept e) := by
  intro log w k h hok hgood
  refine ⟨trivial, ?_⟩
  cases k with
  | lookup d x =>
    refine h.next h.toSound (.of_blobs rfl) fun ref href => ?_
    obtain ⟨hdom, havailable⟩ := Option.filter_eq_some_iff.mp href
    have hstored : (w.dedup.assoc d).stateOf ref.packHash = .stored := by
      simpa [MemoryDedupStore.packUnavailable] using havailable
    exact h.index d x ref hdom (by rw [hstored]; decide)
  | getLatest key =>
    refine h.next h.toSound (.of_blobs rfl) fun s hs => ?_
    have hkey : s.key = key := by simpa using (List.mem_filter.mp (World.mem_of_latest hs)).2
    rw [← hkey]
    exact h.refs (hkept hok.1) s (World.mem_snaps_of_latest hs)
  | putIfAbsent id content =>
    have hcontent : c.sha content.raw = id.hash ∧ Tiled P content := by
      rcases hok with ⟨d, chunks, codec, hpack, rfl, -, hstored⟩ | ⟨-, item, -, chunk, codec, rfl, rfl⟩
      · rw [raw_of_storePackBlob hstored]
        exact ⟨rfl, tiled_of_storePackBlob hpack hstored⟩
      · exact ⟨rfl, nofun⟩
    refine h.next (h.toSound.upload hcontent.1 hcontent.2) (World.grows_upload e w id content)
      ⟨?_, fun chunks codec hpack hstored => ?_⟩
    · rw [World.blob_putIfAbsent, if_pos rfl]
      cases w.blob id <;> rfl
    · refine hcut w _ h.blobs hgood chunks codec hpack ?_ hstored
      rw [← hcontent.1, raw_of_storePackBlob hstored]
  | record d locs =>
    refine h.next (h.toSound.record fun loc hloc => ?_) (.of_blobs rfl) trivial
    exact h.reads_packed hinj hsha (hok.2 loc hloc)
  | associate d assocs =>
    have hsound : Sound c P kept e (serve e w (.associate d assocs)).2 := by
      refine h.toSound.of_dedup rfl rfl rfl (fun d' x ref hx => ?_) fun d' p hp => ?_
      · rw [← byDom_associate w.dedup d assocs]
        exact hx
      · rw [← hp]
        exact MemoryDedupStore.stateOf_associate w.dedup d assocs d' p
    exact h.next hsound (.of_blobs rfl) trivial
  | putSnapshot key md m =>
    obtain ⟨item, -, rfl, -, hwritten | hwritten⟩ := hok
    · refine h.next (h.toSound.putSnapshot _ md hwritten.tenant fun r hr => ?_) (.of_blobs rfl) trivial
      rw [hwritten.tenant]
      exact h.reads_resolved hinj hsha (hwritten.refs r hr)
    · refine h.next (h.toSound.putSnapshot _ md hwritten.tenant fun r hr => ?_) (.of_blobs rfl) trivial
      rw [hwritten.chunks] at hr
      obtain ⟨chunk, hchunk, rfl⟩ := List.mem_map.mp hr
      obtain ⟨codec, hup⟩ := hwritten.uploaded chunk hchunk
      rw [hwritten.tenant]
      exact h.reads_standalone hinj hup
  | _ => exact absurd hok id

/-- **A put keeps the stores sound**, when it finds no other index than its own. -/
theorem sound_putBatch (e : Env) (items : List BatchPutItem) (h : Sound c .any True e w)
    (hgood : (c.putBatch items).Along (serve e) (fun w k => KeepsFraming w k) w) :
    Sound c .any True e ((c.putBatch items).exec (serve e) w).2 := by
  have hmeets : (c.putBatch items).Meets (putRules c .any items) [] _ :=
    meets_putBatch hsha (fits_any _)
  obtain ⟨log, hlog, -⟩ := hmeets.exec_along
    (serves_writing hinj hsha (fun _ => trivial) fun _ _ _ => cutsAs_of_keepsFraming) hgood
    ⟨h, by simp⟩
  exact hlog.toSound

end Injective

/-! ### Histories of puts -/

/-- What can happen to the stores while nothing is deleted. -/
inductive PutOp where
  | put (key : SnapshotKey) (md : SnapshotMetadata) (data : Bytes)
  | putBatch (items : List BatchPutItem)
  | tick (duration : Nat)

/-- Carry out an operation, with nobody else calling. -/
def PutOp.step (c : ChunkedStore) (e : Env) (w : World) : PutOp → World
  | .put key md data => ((c.put key md data).exec (serve e) w).2
  | .putBatch items => ((c.putBatch items).exec (serve e) w).2
  | .tick duration => { w with now := w.now + duration }

/-- The uploads of an operation find no other index than their own. -/
def PutOp.KeepsFraming (c : ChunkedStore) (e : Env) (w : World) : PutOp → Prop
  | .put key md data => (c.put key md data).Along (serve e) (fun w k => Snapshot.KeepsFraming w k) w
  | .putBatch items => (c.putBatch items).Along (serve e) (fun w k => Snapshot.KeepsFraming w k) w
  | .tick _ => True

instance (c : ChunkedStore) (e : Env) (w : World) : (op : PutOp) → Decidable (op.KeepsFraming c e w)
  | .put key md data => decidableAlong _ (c.put key md data) w
  | .putBatch items => decidableAlong _ (c.putBatch items) w
  | .tick _ => isTrue trivial

theorem sound_step (hinj : Function.Injective c.sha) (hsha : ∀ b, c.sha b ≠ "") (e : Env) (w : World)
    (op : PutOp) (h : Sound c .any True e w) (hok : op.KeepsFraming c e w) :
    Sound c .any True e (op.step c e w) := by
  cases op with
  | put key md data => exact sound_putBatch hinj hsha e [⟨key, md, data⟩] h hok
  | putBatch items => exact sound_putBatch hinj hsha e items h hok
  | tick duration => exact h.of_dedup rfl rfl rfl (fun _ _ _ => id) fun _ _ => id

/-- **Puts keep the stores sound.** -/
theorem sound_of_guarded (hinj : Function.Injective c.sha) (hsha : ∀ b, c.sha b ≠ "") (e : Env)
    {ops : List PutOp} (hok : Guarded (PutOp.step c e) (PutOp.KeepsFraming c e) .empty ops) :
    Sound c .any True e (run (PutOp.step c e) .empty ops) :=
  invariant_of_guarded (Sound c .any True e) (fun w op => sound_step hinj hsha e w op)
    (sound_empty c .any True e) hok

end MemoryLayer.Snapshot
