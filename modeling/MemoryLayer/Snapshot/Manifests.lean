import MemoryLayer.Snapshot.IndexValid

namespace MemoryLayer.Snapshot

open Calls Prog

/-! # What a manifest says

A put reads each object from a stream, cuts it into chunks, and writes a manifest of where they are.  The chunks that
are new wait for their pack, and the hash of the pack is filled in when it is sealed, perhaps for another object
of the batch; the others are where a dedup index says.

- `Stream`, `putStreamsV2`: objects that are read in fragments.
- `Exact`: a manifest stands for an object, chunk by chunk.
- `exactRules`: the dedup index answers with valid locations, at any time with others.
- `manifests_exact`: **every manifest that is written stands for its object.**
-/

/-- An object that is read from a stream. -/
structure Stream where
  key : SnapshotKey
  md : SnapshotMetadata
  fragments : List Bytes

/-- The same object, read at once. -/
def Stream.item (s : Stream) : BatchPutItem := ⟨s.key, s.md, s.fragments.flatten⟩

namespace ChunkedStore

variable (c : ChunkedStore)

/-- All chunks of one object, as they are read. -/
def processStream (b : BatchState) (stream : Nat × List Bytes) : StoreProg (Except PutErr BatchState) :=
  foldOrFail (c.emitChunk stream.1) (readLoop c.complete [] [] stream.2) b

def putStreamsV2 (streams : List Stream) : StoreProg (Except PutErr (List String)) := do
  let states ← c.openItems (streams.map Stream.item)
  orFail (foldOrFail c.processStream ((List.range streams.length).zip (streams.map Stream.fragments))
      ⟨states, [], [], "", .none⟩) fun b =>
    orFail (c.flushPack b) fun b =>
      foldOrFail c.finishItem ((streams.map Stream.item).zip b.items) []

/-- It does not matter how the streams are read. -/
theorem putStreamsV2_eq (streams : List Stream) :
    c.putStreamsV2 streams = c.putBatchV2 (streams.map Stream.item) := by
  have hdata : (List.range (streams.map Stream.item).length).zip ((streams.map Stream.item).map BatchPutItem.data)
      = ((List.range streams.length).zip (streams.map Stream.fragments)).map
        fun stream => (stream.1, stream.2.flatten) := by
    rw [List.length_map, List.map_map, List.zip_map_right, List.zip_map_right, List.map_map]
    rfl
  have hprocess : c.processStream = fun b stream => c.processItem b (stream.1, stream.2.flatten) := by
    funext b stream
    rw [processStream, processItem, readLoop_eq]
    rfl
  rw [putStreamsV2, putBatchV2, hdata, hprocess]
  simp only [foldOrFail_map]

/-- A target that turns packing off would seal a pack after every chunk. -/
theorem putBatchV2_of_disabled (h : c.packTargetBytes = packingDisabled) (items : List BatchPutItem) :
    c.putBatchV2 items = { c with packTargetBytes := 0 }.putBatchV2 items := by
  have hemit : c.emitChunk = { c with packTargetBytes := 0 }.emitChunk := by
    funext i b chunk
    unfold emitChunk
    have hflush : ∀ b : BatchState, (b.packBuf.length : Int) ≥ c.packTargetBytes ∧ (b.packBuf.length : Int) ≥ 0 := by
      intro b
      rw [h, packingDisabled]
      omega
    simp only [if_pos (hflush _).1, if_pos (hflush _).2]
    rfl
  have hprocess : c.processItem = { c with packTargetBytes := 0 }.processItem := by
    funext b item
    rw [processItem, hemit]
    rfl
  have hopen : c.openItems items = { c with packTargetBytes := 0 }.openItems items := by
    induction items with
    | nil => rfl
    | cons item items ih =>
      rw [openItems, openItems, ih]
      rfl
  rw [putBatchV2, putBatchV2, hprocess, hopen]
  rfl

end ChunkedStore

/-- The raw content of the pack of a reference has the chunk at its place. -/
def Holds (sha : Bytes → String) (ref : ChunkRef) (chunk : Bytes) : Prop :=
  ref.packHash ≠ "" ∧ ∃ raw, sha raw = ref.packHash ∧ 0 ≤ ref.offset ∧ ref.offset + ref.size ≤ raw.length
    ∧ window raw ref.offset (ref.offset + ref.size) = chunk

/-- A manifest stands for an object. -/
structure Exact (sha : Bytes → String) (data : Bytes) (m : ChunkManifest) : Prop where
  chunks : ∃ chunks : List Bytes, chunks.flatten = data ∧ List.Forall₂ (Holds sha) m.chunks chunks
  total : m.totalSize = (m.chunks.map ChunkRef.size).sum
  length : m.totalSize = data.length

/-- The places that a dedup index tells are valid. -/
def Truthful (sha : Bytes → String) : Event → Prop
  | ⟨.lookup _ h, a⟩ => ∀ ref, a = some ref → Located sha h ref
  | ⟨.getLatest _, a⟩ => ∀ s, a = some s → ValidRefs sha s.manifest
  | _ => True

/-- Answers are truthful, and every manifest that is written stands for its object. -/
def exactRules (sha : Bytes → String) (streams : List Stream) : Rules Answer Log where
  allows _ k a := Truthful sha ⟨k, a⟩
  ok _ k := match k with
    | .putSnapshot key md m => ∃ s ∈ streams, key = s.key ∧ md = manifestMeta s.md m
      ∧ Exact sha s.fragments.flatten m
    | _ => True
  next log k a := log ++ [⟨k, a⟩]

/-- The manifest of an object has been written. -/
def WrittenExactly (sha : Bytes → String) (log : Log) (s : Stream) (version : String) : Prop :=
  ∃ m, (⟨.putSnapshot s.key (manifestMeta s.md m) m, version⟩ : Event) ∈ log ∧ Exact sha s.fragments.flatten m

section Exact

variable {c : ChunkedStore} {P : ChunkSpec} {log : Log} {key : SnapshotKey} {ref : ChunkRef} {chunk : Bytes}

theorem Resolved.located (hlog : ∀ event ∈ log, Truthful c.sha event) (h : Resolved c P log key ref) :
    Located c.sha ref.hash ⟨ref.packHash, ref.offset, ref.size⟩ := by
  rcases h.source with hpacked | hfound | ⟨s, hs, hformat, hmem, -⟩
  · exact hpacked.located
  · exact hlog _ hfound _ rfl
  · exact hlog _ hs s rfl hformat _ hmem h.packHash_ne

/-- The references of a manifest and the chunks with their hashes. -/
theorem forall₂_holds (hinj : Function.Injective c.sha) {refs : List ChunkRef} {chunks : List Bytes}
    (hhashes : refs.map ChunkRef.hash = chunks.map c.sha)
    (hrefs : ∀ r ∈ refs, r.packHash ≠ "" ∧ Located c.sha r.hash ⟨r.packHash, r.offset, r.size⟩) :
    List.Forall₂ (Holds c.sha) refs chunks ∧ (refs.map ChunkRef.size).sum = chunks.flatten.length := by
  induction refs generalizing chunks with
  | nil =>
    cases List.map_eq_nil_iff.mp hhashes.symm
    exact ⟨.nil, rfl⟩
  | cons r refs ih =>
    obtain ⟨chunk, chunks', rfl, hhash, hrest⟩ := List.map_eq_cons_iff.mp hhashes.symm
    obtain ⟨hne, hloc⟩ := hrefs r (List.mem_cons_self ..)
    obtain ⟨hholds, hsum⟩ := ih hrest.symm fun r' hr' => hrefs r' (List.mem_cons_of_mem _ hr')
    rw [← hhash] at hloc
    have hsize : r.size = chunk.length := hloc.size_eq hinj
    obtain ⟨raw, hraw, hoff, -, hend, hwin⟩ := hloc
    refine ⟨.cons ⟨hne, raw, hraw, hoff, hend, hinj hwin⟩ hholds, ?_⟩
    rw [List.map_cons, List.sum_cons, hsum, hsize, List.flatten_cons, List.length_append]
    exact (Int.natCast_add ..).symm

/-- **One manifest.** -/
theorem Written.exact (hinj : Function.Injective c.sha) (hlog : ∀ event ∈ log, Truthful c.sha event)
    {item : BatchPutItem} {m : ChunkManifest} (h : Written c P log item m) : Exact c.sha item.data m := by
  obtain ⟨hholds, hsum⟩ := forall₂_holds hinj h.hashes fun r hr =>
    ⟨(h.refs r hr).packHash_ne, (h.refs r hr).located hlog⟩
  have hdata : (c.split item.data).flatten = item.data := flatten_splitFrom ..
  exact ⟨⟨_, hdata, hholds⟩, h.total, by rw [h.total, hsum, hdata]⟩

end Exact

/-- A put whose target does not turn packing off. -/
theorem meets_exact {c : ChunkedStore} (hinj : Function.Injective c.sha) (hsha : ∀ b, c.sha b ≠ "")
    (hpacks : c.packTargetBytes ≠ packingDisabled) (streams : List Stream) :
    (c.putBatchV2 (streams.map Stream.item)).Meets (exactRules c.sha streams) [] fun log result =>
      ∀ versions, result = .ok versions → List.Forall₂ (WrittenExactly c.sha log) streams versions := by
  have hmeets := meets_putBatchV2 hsha (fits_any ((streams.map Stream.item).flatMap fun item => c.split item.data))
  refine Meets.mono (hmeets.refine (fun log => ∀ event ∈ log, Truthful c.sha event) ?_ ?_ ?_
    fun event h => nomatch h) ?_
  · rfl
  · intro log k a hlog ha
    refine ⟨trivial, fun event hevent => ?_⟩
    rcases List.mem_append.mp hevent with hevent | hevent
    · exact hlog event hevent
    · rw [List.mem_singleton.mp hevent]
      exact ha
  · intro log k hlog hok
    cases k with
    | putSnapshot key md m =>
      obtain ⟨item, hitem, rfl, rfl, hwritten | hwritten⟩ := hok
      · obtain ⟨s, hs, rfl⟩ := List.mem_map.mp hitem
        exact ⟨s, hs, rfl, rfl, hwritten.exact hinj hlog⟩
      · exact absurd hwritten.disabled hpacks
    | _ => trivial
  · rintro log result ⟨hlog, hend⟩ versions rfl
    refine (List.forall₂_map_left_iff.mp hend).imp fun s version hwritten => ?_
    obtain ⟨m, hm, hwritten | hwritten⟩ := hwritten
    · exact ⟨m, hm, hwritten.exact hinj hlog⟩
    · exact absurd hwritten.disabled hpacks

/-- **Manifests.**  Whatever valid places the dedup index tells, and however the streams are read and cut, every
    manifest that a put writes stands for its object, and a put that succeeds has written one for each. -/
theorem manifests_exact (c : ChunkedStore) (hinj : Function.Injective c.sha) (hsha : ∀ b, c.sha b ≠ "")
    (streams : List Stream) :
    (c.putStreamsV2 streams).Meets (exactRules c.sha streams) [] fun log result =>
      ∀ versions, result = .ok versions → List.Forall₂ (WrittenExactly c.sha log) streams versions := by
  rw [c.putStreamsV2_eq]
  by_cases hpacks : c.packTargetBytes = packingDisabled
  · rw [c.putBatchV2_of_disabled hpacks]
    exact meets_exact (c := { c with packTargetBytes := 0 }) hinj hsha (show (0 : Int) ≠ -1 by decide) streams
  · exact meets_exact hinj hsha hpacks streams

/-- Two objects, in fragments that are no chunks. -/
def twoStreams : List Stream :=
  [⟨⟨"acme", "", "", "a"⟩, plainMeta, [[1], [2, 3]]⟩, ⟨⟨"acme", "", "", "b"⟩, plainMeta, [[1, 2], []]⟩]

theorem twoStreams_exact :
    (byteStore.putStreamsV2 twoStreams).Meets (exactRules spell twoStreams) [] fun log result =>
      ∀ versions, result = .ok versions → List.Forall₂ (WrittenExactly spell log) twoStreams versions :=
  manifests_exact byteStore spell_injective spell_ne_empty twoStreams

end MemoryLayer.Snapshot
