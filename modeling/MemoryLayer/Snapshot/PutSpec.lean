import MemoryLayer.Snapshot.Put

namespace MemoryLayer.Snapshot

open Calls Prog

/-! # What a put does to the stores

The calls of a put, whatever the stores answer: it uploads packs that are tiled by their chunks,
records only locations in packs that it has uploaded, and writes a manifest only when every reference
is to a place in such a pack or to one that it was told of, and the owner is associated with the pack.

- `Log`, `Log.Uploaded`, `Log.Found`, `Log.Inherited`, `Log.Associated`: what has been called so far.
- `place`, `spansOf`: where the chunks of a pack lie.
- `Sealed`, `Packed`, `Source`: where a put knows the place of a chunk from.
- `putRules`: what a put may count on, and what it owes.
- `ItemInv`, `BufferInv`: what holds between two chunks.
- `meets_putBatchV2`, `meets_putV1`, `meets_putBatch`: puts meet their obligations.
-/

/-- A call and its answer. -/
abbrev Event := (k : Call) × Answer k

/-- The calls of a program so far. -/
abbrev Log := List Event

namespace Log

/-- A pack has been uploaded, or was found to be there. -/
def Uploaded (log : Log) (domain packHash : String) : Prop :=
  ∃ content, (⟨.putIfAbsent (packBlobID domain packHash) content, ()⟩ : Event) ∈ log

/-- The dedup store has said where a chunk is. -/
def Found (log : Log) (domain h : String) (ref : PackRef) : Prop :=
  (⟨.lookup domain h, some ref⟩ : Event) ∈ log

/-- The last manifest of a key says where a chunk is, in a pack with others. -/
def Inherited (log : Log) (key : SnapshotKey) (h : String) (ref : PackRef) : Prop :=
  ∃ s, (⟨.getLatest key, some s⟩ : Event) ∈ log ∧ s.manifest.format = .v2
    ∧ ⟨h, ref.packHash, ref.offset, ref.size⟩ ∈ s.manifest.chunks ∧ ref.packHash ≠ h

/-- The association of a pack has been recorded. -/
def Associated (log : Log) (domain packHash packContext : String) : Prop :=
  ∃ assocs, (⟨.associate domain assocs, true⟩ : Event) ∈ log ∧ ⟨packHash, packContext⟩ ∈ assocs

variable {log log' : Log}

theorem Inherited.mono (hsub : log ⊆ log') {key : SnapshotKey} {x : String} {ref : PackRef}
    (h : log.Inherited key x ref) : log'.Inherited key x ref := by
  obtain ⟨s, h, hr⟩ := h
  exact ⟨s, hsub h, hr⟩

theorem Associated.mono (hsub : log ⊆ log') {d p x : String} (h : log.Associated d p x) :
    log'.Associated d p x := by
  obtain ⟨assocs, h, hmem⟩ := h
  exact ⟨assocs, hsub h, hmem⟩

end Log

/-! ### Where chunks lie in a pack -/

/-- The chunks, each with the offset at which it begins. -/
def place (offset : Int) : List Bytes → List (Int × Bytes)
  | [] => []
  | chunk :: chunks => (offset, chunk) :: place (offset + chunk.length) chunks

/-- The extents of the chunks. -/
def spansOf (chunks : List Bytes) : List PackSpan :=
  (place 0 chunks).map fun x => ⟨x.1, x.2.length⟩

theorem place_append (offset : Int) (xs ys : List Bytes) :
    place offset (xs ++ ys) = place offset xs ++ place (offset + xs.flatten.length) ys := by
  induction xs generalizing offset with
  | nil => simp [place]
  | cons x xs ih => simp [place, ih, Int.add_assoc]

variable {chunks : List Bytes} {chunk : Bytes} {h : String} {ref : ChunkRef} {done : List (Nat × Bytes)}
  {f : ItemState → ItemState} {b : BatchState} {m : ChunkManifest} {offset : Int} {s : Session}

theorem snd_mem_of_mem_place {x : Int × Bytes}
    (h : x ∈ place offset chunks) : x.2 ∈ chunks := by
  induction chunks generalizing offset with
  | nil => cases h
  | cons chunk chunks ih =>
    rcases List.mem_cons.mp h with rfl | h
    · exact List.mem_cons_self ..
    · exact List.mem_cons_of_mem _ (ih h)

/-- A chunk lies where it was placed. -/
theorem drop_take_of_mem_place {x : Int × Bytes}
    (h : x ∈ place offset chunks) :
    ∃ before after, chunks.flatten = before ++ x.2 ++ after ∧ x.1 = offset + before.length := by
  induction chunks generalizing offset with
  | nil => cases h
  | cons chunk chunks ih =>
    rcases List.mem_cons.mp h with rfl | h
    · exact ⟨[], chunks.flatten, by simp, by simp⟩
    · obtain ⟨before, after, hflat, hoff⟩ := ih h
      refine ⟨chunk ++ before, after, ?_, ?_⟩
      · simp [hflat]
      · rw [hoff, List.length_append]
        omega

/-- A chunk of a pack is what its extent shows. -/
theorem window_of_mem_place {x : Int × Bytes} (h : x ∈ place 0 chunks) :
    0 ≤ x.1 ∧ x.1 + x.2.length ≤ chunks.flatten.length
      ∧ window chunks.flatten x.1 (x.1 + x.2.length) = x.2 := by
  obtain ⟨before, after, hflat, hoff⟩ := drop_take_of_mem_place h
  rw [Int.zero_add] at hoff
  refine ⟨by omega, ?_, ?_⟩
  · rw [hflat, hoff]
    simp only [List.length_append]
    omega
  · have hdrop : x.1.toNat = before.length := by omega
    have htake : (x.1 + x.2.length - x.1).toNat = x.2.length := by omega
    rw [window, hdrop, htake, hflat, List.append_assoc, List.drop_left, List.take_left]

/-- **Chunks tile their pack.** -/
theorem tiles_place (offset : Int) (h : ∀ chunk ∈ chunks, chunk ≠ []) :
    Tiles offset ((place offset chunks).map fun x => ⟨x.1, x.2.length⟩)
      (offset + chunks.flatten.length) := by
  induction chunks generalizing offset with
  | nil => simp [place, Tiles]
  | cons chunk chunks ih =>
    have hpos := List.length_pos_of_ne_nil (h chunk (List.mem_cons_self ..))
    have hrest := ih (offset + chunk.length) fun x hx => h x (List.mem_cons_of_mem _ hx)
    refine ⟨rfl, by dsimp only; omega, ?_⟩
    have hend : offset + ((chunk :: chunks).flatten.length : Int)
        = offset + chunk.length + chunks.flatten.length := by
      rw [List.flatten_cons, List.length_append]
      omega
    rw [hend]
    exact hrest

/-! ### Splitting -/

variable {complete : Bytes → Bool}

theorem ne_nil_of_mem_splitFrom {seen current data : Bytes}
    (h : chunk ∈ splitFrom complete seen current data) : chunk ≠ [] := by
  induction data generalizing seen current with
  | nil =>
    rw [splitFrom] at h
    split at h
    · cases h
    · rw [List.mem_singleton.mp h]
      assumption
  | cons b data ih =>
    rw [splitFrom] at h
    split at h
    · rcases List.mem_cons.mp h with rfl | h
      · simp
      · exact ih h
    · exact ih h

/-- Nothing of a stream is lost. -/
theorem flatten_splitFrom (complete : Bytes → Bool) (seen current data : Bytes) :
    (splitFrom complete seen current data).flatten = current ++ data := by
  induction data generalizing seen current with
  | nil =>
    rw [splitFrom]
    split
    · rename_i hnil
      rw [hnil]
      rfl
    · simp
  | cons b data ih =>
    rw [splitFrom]
    split
    · rw [List.flatten_cons, ih]
      simp
    · rw [ih]
      simp

/-- A fragment in which no chunk ends. -/
theorem splitFrom_of_none {seen data : Bytes}
    (h : nextSplitPoint complete seen data = none) (current rest : Bytes) :
    splitFrom complete seen current (data ++ rest)
      = splitFrom complete (seen ++ data) (current ++ data) rest := by
  induction data generalizing seen current with
  | nil => rw [List.nil_append, List.append_nil, List.append_nil]
  | cons b data ih =>
    rw [nextSplitPoint] at h
    split at h
    · cases h
    · rename_i hcut
      rw [List.cons_append, splitFrom, if_neg hcut, ih (Option.map_eq_none_iff.mp h)]
      simp

/-- A fragment in which a chunk ends. -/
theorem splitFrom_of_some {seen data : Bytes} {cut : Nat}
    (h : nextSplitPoint complete seen data = some cut) (current rest : Bytes) :
    splitFrom complete seen current (data ++ rest)
      = (current ++ data.take cut) :: splitFrom complete (seen ++ data.take cut) [] (data.drop cut ++ rest) := by
  induction data generalizing seen current cut with
  | nil => cases h
  | cons b data ih =>
    rw [nextSplitPoint] at h
    split at h
    · rename_i hcut
      cases h
      rw [List.cons_append, splitFrom, if_pos hcut]
      rfl
    · rename_i hcut
      obtain ⟨n, hn, rfl⟩ := Option.map_eq_some_iff.mp h
      rw [List.cons_append, splitFrom, if_neg hcut, ih hn]
      simp

/-- The rest of a stream is cut as if it came together with the fragment. -/
theorem scan_splitFrom (complete : Bytes → Bool) (seen current data rest : Bytes) :
    (scan complete seen current data).1
        ++ splitFrom complete (seen ++ data) (scan complete seen current data).2 rest
      = splitFrom complete seen current (data ++ rest) := by
  fun_induction scan complete seen current data with
  | case1 seen current data h => exact (splitFrom_of_none h current rest).symm
  | case2 seen current data cut h hpos tail ih =>
    rw [List.append_assoc, List.take_append_drop] at ih
    rw [List.cons_append, ih, splitFrom_of_some h]

/-- **Fragments.**  The chunks do not depend on how a stream is read. -/
theorem readLoop_eq (complete : Bytes → Bool) (seen current : Bytes) (fragments : List Bytes) :
    readLoop complete seen current fragments = splitFrom complete seen current fragments.flatten := by
  induction fragments generalizing seen current with
  | nil => rfl
  | cons data fragments ih =>
    rw [readLoop, List.flatten_cons, ← scan_splitFrom]
    rw [ih]

/-! ### Obligations -/

section Obligations

/-- What is known of chunks that follow each other: of every one, and of all but the last. -/
structure ChunkSpec where
  every : Bytes → Prop
  inner : Bytes → Prop

/-- Nothing is known. -/
def ChunkSpec.any : ChunkSpec := ⟨fun _ => True, fun _ => True⟩

/-- The chunks are as the spec says. -/
structure Fits (P : ChunkSpec) (chunks : List Bytes) : Prop where
  every : ∀ chunk ∈ chunks, P.every chunk
  inner : ∀ chunk ∈ chunks.dropLast, P.inner chunk

theorem fits_any (chunks : List Bytes) : Fits .any chunks := ⟨fun _ _ => trivial, fun _ _ => trivial⟩

variable (c : ChunkedStore) (P : ChunkSpec) (items : List BatchPutItem)

/-- The chunks of a pack. -/
structure IsPack (chunks : List Bytes) : Prop where
  ne_nil : chunks ≠ []
  chunk_ne_nil : ∀ chunk ∈ chunks, chunk ≠ []
  fits : Fits P chunks

/-- What a put uploads: a pack of chunks, framed by their extents. -/
def Packs (id : BlobId) (content : PackBlob) : Prop :=
  ∃ domain chunks codec, IsPack P chunks ∧ id = packBlobID domain (c.sha chunks.flatten)
    ∧ (∃ item ∈ items, domain = c.domainFor item.key)
    ∧ storePackBlob c.packCompression chunks.flatten (spansOf chunks) codec = some content

/-- A pack of these chunks has been uploaded, or was found to be there. -/
def Sealed (log : Log) (domain : String) (chunks : List Bytes) : Prop :=
  IsPack P chunks ∧ ∃ codec content,
    storePackBlob c.packCompression chunks.flatten (spansOf chunks) codec = some content
      ∧ (⟨.putIfAbsent (packBlobID domain (c.sha chunks.flatten)) content, ()⟩ : Event) ∈ log

/-- A chunk lies in a pack that the put has uploaded. -/
def Packed (log : Log) (domain h : String) (ref : PackRef) : Prop :=
  ∃ chunks, Sealed c P log domain chunks ∧ ∃ x ∈ place 0 chunks,
    h = c.sha x.2 ∧ ref = ⟨c.sha chunks.flatten, x.1, x.2.length⟩

/-- Where a put of a key knows the place of a chunk from. -/
def Source (log : Log) (key : SnapshotKey) (h : String) (ref : PackRef) : Prop :=
  Packed c P log (c.domainFor key) h ref ∨ log.Found (c.domainFor key) h ref
    ∨ log.Inherited key h ref

/-- A reference that a put may write. -/
structure Resolved (log : Log) (key : SnapshotKey) (ref : ChunkRef) : Prop where
  packHash_ne : ref.packHash ≠ ""
  source : Source c P log key ref.hash ⟨ref.packHash, ref.offset, ref.size⟩

/-- A manifest that a put may write for an object. -/
structure Written (log : Log) (item : BatchPutItem) (m : ChunkManifest) : Prop where
  format : m.format = .v2
  tenant : m.tenant = c.domainFor item.key
  hashes : m.chunks.map ChunkRef.hash = (c.split item.data).map c.sha
  refs : ∀ ref ∈ m.chunks, Resolved c P log item.key ref
  held : c.index = .global → contextFor item.key item.md ≠ "" → ∀ ref ∈ m.chunks,
    log.Associated (c.domainFor item.key) ref.packHash (contextFor item.key item.md)
  total : m.totalSize = (m.chunks.map ChunkRef.size).sum

/-- What a put uploads when it does not pack: a chunk with a blob of its own. -/
def Chunks (id : BlobId) (content : PackBlob) : Prop :=
  c.packTargetBytes = packingDisabled ∧ ∃ item ∈ items, ∃ chunk codec,
    id = chunkBlobID (c.domainFor item.key) (c.sha chunk) ∧ content = compressPackBlob chunk codec

/-- A manifest that a put may write when it does not pack. -/
structure WrittenV1 (log : Log) (item : BatchPutItem) (m : ChunkManifest) : Prop where
  disabled : c.packTargetBytes = packingDisabled
  format : m.format = .v1
  tenant : m.tenant = c.domainFor item.key
  chunks : m.chunks = (c.split item.data).map fun chunk => ⟨c.sha chunk, "", 0, chunk.length⟩
  uploaded : ∀ chunk ∈ c.split item.data, ∃ codec,
    (⟨.putIfAbsent (chunkBlobID (c.domainFor item.key) (c.sha chunk)) (compressPackBlob chunk codec),
      ()⟩ : Event) ∈ log

/-- The associations that a put may ask for. -/
def Claims (log : Log) (domain : String) (assocs : List PackAssociation) : Prop :=
  ∃ item ∈ items, domain = c.domainFor item.key ∧ contextFor item.key item.md ≠ ""
    ∧ ∀ a ∈ assocs, a.context = contextFor item.key item.md
      ∧ ∃ h ref, Source c P log item.key h ref ∧ ref.packHash = a.packHash

/-- **The calls of a put**, whatever it is answered: what it uploads, records, claims and writes is as
    described above, and it makes no other calls. -/
def putRules : Rules Answer Log where
  allows _ _ _ := True
  ok log k := match k with
    | .lookup .. => c.index = .global
    | .getLatest key => c.index = .priorManifest ∧ ∃ item ∈ items, key = item.key
    | .putIfAbsent id content => Packs c P items id content ∨ Chunks c items id content
    | .record domain locs => (∃ item ∈ items, domain = c.domainFor item.key)
      ∧ ∀ loc ∈ locs, Packed c P log domain loc.chunkHash loc.ref
    | .associate domain assocs => Claims c P items log domain assocs
    | .putSnapshot key md m => ∃ item ∈ items, key = item.key ∧ md = manifestMeta item.md m
      ∧ (Written c P log item m ∨ WrittenV1 c log item m)
    | _ => False
  next log k a := log ++ [⟨k, a⟩]

/-- Why a put fails: a pack that it needs is being reclaimed. -/
def Refused (log : Log) (e : PutErr) : Prop :=
  e = .packObliterating ∧ ∃ domain assocs,
    (⟨.associate domain assocs, false⟩ : Event) ∈ log ∧ Claims c P items log domain assocs

/-! ### Between two chunks -/

/-- The dedup index of an object is the one that is configured. -/
def SessionOk (log : Log) (key : SnapshotKey) : Session → Prop
  | .prior index => c.index = .priorManifest ∧ ∀ h ref, index h = some ref → log.Inherited key h ref
  | .global => c.index = .global

/-- An object after some chunks: every reference is resolved or waits for an entry of the buffer. -/
structure ItemInv (log : Log) (item : BatchPutItem) (i : Nat) (entries : List PackEntry)
    (chunks : List Bytes) (st : ItemState) : Prop where
  format : st.manifest.format = .v2
  tenant : st.manifest.tenant = c.domainFor item.key
  domain : st.domain = c.domainFor item.key
  session : SessionOk c log item.key st.session
  hashes : st.manifest.chunks.map ChunkRef.hash = chunks.map c.sha
  refs : ∀ j ref, st.manifest.chunks[j]? = some ref →
    Resolved c P log item.key ref ∨ ∃ e ∈ entries, e.item = i ∧ e.manifestIdx = j
  pending : ∀ loc ∈ st.pending, Packed c P log (c.domainFor item.key) loc.chunkHash loc.ref
  total : st.manifest.totalSize = (st.manifest.chunks.map ChunkRef.size).sum

/-- The chunks of one object, out of those of a batch. -/
def chunksOf (i : Nat) (work : List (Nat × Bytes)) : List Bytes :=
  (work.filter fun x => x.1 = i).map Prod.snd

/-- All objects after some chunks. -/
structure ItemsInv (log : Log) (entries : List PackEntry) (done : List (Nat × Bytes))
    (states : List ItemState) : Prop where
  length : states.length = items.length
  each : ∀ (i : Nat) item st, items[i]? = some item → states[i]? = some st →
    ItemInv c P log item i entries (chunksOf i done) st

/-- A buffered chunk and the reference that waits for it. -/
def EntryFor (states : List ItemState) (domain : String) (e : PackEntry) (x : Int × Bytes) : Prop :=
  e.offset = x.1 ∧ e.size = x.2.length
    ∧ ∃ st ref, states[e.item]? = some st ∧ st.domain = domain
      ∧ st.manifest.chunks[e.manifestIdx]? = some ref
      ∧ ref.hash = c.sha x.2 ∧ ref.offset = x.1 ∧ ref.size = x.2.length

/-- The buffer holds the chunks that its entries describe. -/
structure BufferInv (b : BatchState) (chunks : List Bytes) : Prop where
  buf : b.packBuf = chunks.flatten
  ne_nil : ∀ chunk ∈ chunks, chunk ≠ []
  entries : List.Forall₂ (EntryFor c b.items b.packDomain) b.packEntries (place 0 chunks)

/-- A batch after some chunks; as long as there are more, all chunks of the buffer are complete. -/
structure BatchInv (work done todo : List (Nat × Bytes)) (log : Log) (b : BatchState) : Prop where
  progress : done ++ todo = work
  states : ItemsInv c P items log b.packEntries done b.items
  buffer : ∃ chunks, BufferInv c b chunks ∧ Fits P chunks
    ∧ (todo ≠ [] → ∀ chunk ∈ chunks, P.inner chunk)

end Obligations

variable {c : ChunkedStore} {P : ChunkSpec}
  {items : List BatchPutItem} {log log' : Log} {key : SnapshotKey} {item : BatchPutItem} {i : Nat}
  {e : PackEntry} {entries entries' : List PackEntry} {st : ItemState} {states : List ItemState}
  {domain packHash : String} {x : Int × Bytes}

theorem Packed.mono (hsub : log ⊆ log') {ref : PackRef}
    (hat : Packed c P log domain h ref) : Packed c P log' domain h ref := by
  obtain ⟨chunks, ⟨hpack, codec, content, hstored, hup⟩, hx⟩ := hat
  exact ⟨chunks, ⟨hpack, codec, content, hstored, hsub hup⟩, hx⟩

/-- Whoever knows the place of a chunk in its own pack has uploaded the pack. -/
theorem Packed.uploaded {ref : PackRef} (hat : Packed c P log domain h ref) :
    log.Uploaded domain ref.packHash := by
  obtain ⟨chunks, ⟨-, -, content, -, hup⟩, -, -, -, rfl⟩ := hat
  exact ⟨content, hup⟩

theorem Source.mono (hsub : log ⊆ log') {ref : PackRef}
    (hsource : Source c P log key h ref) : Source c P log' key h ref :=
  hsource.imp (Packed.mono hsub) (Or.imp (fun hfound => hsub hfound) (Log.Inherited.mono hsub))

theorem Resolved.mono (hsub : log ⊆ log') (h : Resolved c P log key ref) :
    Resolved c P log' key ref := ⟨h.packHash_ne, h.source.mono hsub⟩

theorem SessionOk.mono (hsub : log ⊆ log') (h : SessionOk c log key s) :
    SessionOk c log' key s := by
  cases s with
  | global => exact h
  | prior index =>
    exact ⟨h.1, fun x ref hx => (h.2 x ref hx).mono hsub⟩

theorem ItemInv.mono (hlog : log ⊆ log') (hentries : entries ⊆ entries')
    (h : ItemInv c P log item i entries chunks st) : ItemInv c P log' item i entries' chunks st where
  format := h.format
  tenant := h.tenant
  domain := h.domain
  session := h.session.mono hlog
  hashes := h.hashes
  refs j ref hj := (h.refs j ref hj).imp (Resolved.mono hlog) fun ⟨e, he, heq⟩ =>
    ⟨e, hentries he, heq⟩
  pending loc hloc := (h.pending loc hloc).mono hlog
  total := h.total

theorem ItemsInv.mono (hlog : log ⊆ log')
    (hentries : entries ⊆ entries') (h : ItemsInv c P items log entries done states) :
    ItemsInv c P items log' entries' done states :=
  ⟨h.length, fun i item st hitem hst => (h.each i item st hitem hst).mono hlog hentries⟩

/-- There is an object for every state. -/
theorem ItemsInv.item_of_state (h : ItemsInv c P items log entries done states) (hst : states[i]? = some st) :
    ∃ item, items[i]? = some item := by
  have hlt : i < items.length := by
    rw [← h.length]
    exact (List.getElem?_eq_some_iff.mp hst).1
  exact ⟨items[i], List.getElem?_eq_getElem hlt⟩

/-- The state of one object changes. -/
theorem ItemsInv.modify {done' : List (Nat × Bytes)}
    (h : ItemsInv c P items log entries done states)
    (hself : ∀ item st, items[i]? = some item → states[i]? = some st →
      ItemInv c P log' item i entries' (chunksOf i done') (f st))
    (hother : ∀ j item st, j ≠ i → ItemInv c P log item j entries (chunksOf j done) st →
      ItemInv c P log' item j entries' (chunksOf j done') st) :
    ItemsInv c P items log' entries' done' (states.modify i f) where
  length := by rw [List.length_modify, h.length]
  each j item st hitem hst := by
    rw [List.getElem?_modify] at hst
    by_cases hij : i = j
    · subst hij
      obtain ⟨st, hold, rfl⟩ : ∃ st', states[i]? = some st' ∧ f st' = st := by simpa using hst
      exact hself item st hitem hold
    · have hold : states[j]? = some st := by simpa [hij] using hst
      exact hother j item st (Ne.symm hij) (h.each j item st hitem hold)

/-- The references of an object stay in place, but for their packs. -/
def KeepsRefs (st st' : ItemState) : Prop :=
  st'.domain = st.domain ∧ ∀ (j : Nat) ref, st.manifest.chunks[j]? = some ref →
    ∃ ref', st'.manifest.chunks[j]? = some ref'
      ∧ ref'.hash = ref.hash ∧ ref'.offset = ref.offset ∧ ref'.size = ref.size

/-- What an entry describes is still there after a change that keeps references in place. -/
theorem EntryFor.modify (hf : ∀ st, KeepsRefs st (f st))
    (h : EntryFor c states domain e x) : EntryFor c (states.modify i f) domain e x := by
  obtain ⟨hoff, hsize, st, ref, hst, hdom, href, hhash, hroff, hrsize⟩ := h
  refine ⟨hoff, hsize, ?_⟩
  by_cases hi : i = e.item
  · subst hi
    obtain ⟨hfdom, hfref⟩ := hf st
    obtain ⟨ref', href', hhash', hoff', hsize'⟩ := hfref _ ref href
    exact ⟨f st, ref', by simp [hst], hfdom.trans hdom, href', hhash'.trans hhash,
      hoff'.trans hroff, hsize'.trans hrsize⟩
  · exact ⟨st, ref, by simp [hi, hst], hdom, href, hhash, hroff, hrsize⟩

/-! ### Sealing a pack -/

/-- Resolving a reference changes only its pack. -/
theorem resolve_keeps (packHash : String) (e : PackEntry) (st : ItemState) :
    KeepsRefs st (st.resolve packHash e) := by
  unfold ItemState.resolve
  split
  · exact ⟨rfl, fun j ref href => ⟨ref, href, rfl, rfl, rfl⟩⟩
  · rename_i old hold
    refine ⟨rfl, fun j ref href => ?_⟩
    dsimp only
    rw [List.getElem?_set]
    by_cases hj : e.manifestIdx = j
    · subst hj
      rw [hold] at href
      cases href
      have hlt := (List.getElem?_eq_some_iff.mp hold).1
      exact ⟨{ old with packHash }, by simp [hlt], rfl, rfl, rfl⟩
    · exact ⟨ref, by simp [hj, href], rfl, rfl, rfl⟩

/-- The reference that an entry describes is resolved. -/
theorem ItemInv.resolve (h : ItemInv c P log item e.item (e :: entries) chunks st)
    (hne : packHash ≠ "")
    (href : st.manifest.chunks[e.manifestIdx]? = some ref)
    (hoff : ref.offset = e.offset) (hsize : ref.size = e.size)
    (hat : Packed c P log (c.domainFor item.key) ref.hash ⟨packHash, e.offset, e.size⟩) :
    ItemInv c P log item e.item entries chunks (st.resolve packHash e) := by
  obtain ⟨hlt, hget⟩ := List.getElem?_eq_some_iff.mp href
  unfold ItemState.resolve
  rw [href]
  -- the hash of the pack is the only thing that changes
  have hmap : ∀ {β : Type} (f : ChunkRef → β), f { ref with packHash } = f ref →
      (st.manifest.chunks.set e.manifestIdx { ref with packHash }).map f = st.manifest.chunks.map f := by
    intro β f hf
    rw [List.map_set, hf, ← hget, ← List.map_set, List.set_getElem_self]
  refine ⟨h.format, h.tenant, h.domain, h.session, ?_, ?_, ?_, ?_⟩
  · rw [← h.hashes]
    exact hmap ChunkRef.hash rfl
  · intro j ref' hj
    dsimp only at hj
    rw [List.getElem?_set] at hj
    by_cases heq : e.manifestIdx = j
    · subst heq
      left
      obtain rfl : { ref with packHash } = ref' := by simpa [hlt] using hj
      rw [← hoff, ← hsize] at hat
      exact ⟨hne, .inl hat⟩
    · rw [if_neg heq] at hj
      refine (h.refs j ref' hj).imp_right ?_
      rintro ⟨e', he', hitem, hidx⟩
      rcases List.mem_cons.mp he' with rfl | he'
      · exact absurd hidx heq
      · exact ⟨e', he', hitem, hidx⟩
  · intro loc hloc
    dsimp only at hloc
    cases hsession : st.session with
    | prior index =>
      rw [hsession] at hloc
      exact h.pending loc hloc
    | global =>
      rw [hsession] at hloc
      exact List.forall_mem_append.mpr ⟨h.pending, List.forall_mem_singleton.mpr hat⟩ loc hloc
  · exact h.total.trans (congrArg List.sum (hmap ChunkRef.size rfl).symm)

/-- All references that wait for a pack are resolved. -/
theorem ItemsInv.resolveEntries {xs : List (Int × Bytes)}
    (hne : packHash ≠ "")
    (hat : ∀ x ∈ xs, Packed c P log domain (c.sha x.2) ⟨packHash, x.1, x.2.length⟩)
    (hentries : List.Forall₂ (EntryFor c states domain) entries xs)
    (h : ItemsInv c P items log entries done states) :
    ItemsInv c P items log [] done (resolveEntries packHash entries states) := by
  induction entries generalizing xs states with
  | nil => exact h
  | cons e entries ih =>
    obtain ⟨x, xs, he, hrest, rfl⟩ := List.forall₂_cons_left_iff.mp hentries
    rw [Snapshot.resolveEntries, List.foldl_cons]
    refine ih (fun y hy => hat y (List.mem_cons_of_mem _ hy))
      (hrest.imp fun e' x' he' => he'.modify (resolve_keeps packHash e)) ?_
    obtain ⟨hoff, hsize, st, ref, hst, hdom, href, hhash, hroff, hrsize⟩ := he
    refine h.modify (fun item st' hitem hst' => ?_) fun j item st' hj hinv => ?_
    · rw [hst] at hst'
      cases hst'
      have hinv := h.each e.item item st hitem hst
      refine hinv.resolve hne href (hroff.trans hoff.symm) (hrsize.trans hsize.symm) ?_
      rw [← hinv.domain, hdom, hhash, hoff, hsize]
      exact hat x (List.mem_cons_self ..)
    · -- the entry is of another object
      refine { hinv with refs := fun k ref' hk => (hinv.refs k ref' hk).imp_right ?_ }
      rintro ⟨e', he', hitem, hidx⟩
      rcases List.mem_cons.mp he' with rfl | he'
      · exact absurd hitem.symm hj
      · exact ⟨e', he', hitem, hidx⟩

/-- The extents of the entries are those of the chunks. -/
theorem BufferInv.spans (h : BufferInv c b chunks) :
    b.packEntries.map PackEntry.span = spansOf chunks := by
  refine (congrFun₂ List.forall₂_eq_eq_eq _ _).mp ?_
  rw [spansOf, List.forall₂_map_left_iff, List.forall₂_map_right_iff]
  refine h.entries.imp fun e x he => ?_
  rw [PackEntry.span, he.1, he.2.1]

/-- An empty buffer has no entries. -/
theorem BufferInv.nil (hbuf : b.packBuf = []) (hentries : b.packEntries = []) :
    BufferInv c b [] := ⟨hbuf, by simp, by rw [hentries]; exact .nil⟩

theorem BufferInv.chunks_eq_nil (h : BufferInv c b chunks)
    (hbuf : b.packBuf = []) : chunks = [] := by
  rw [h.buf, List.flatten_eq_nil_iff] at hbuf
  refine List.eq_nil_iff_forall_not_mem.mpr fun chunk hchunk => ?_
  exact h.ne_nil chunk hchunk (hbuf chunk hchunk)

/-- Framing a pack does not fail. -/
theorem storePackBlob_isSome (mode : PackCompressionMode) (codec : CompressionAlgo)
    (h : ∀ chunk ∈ chunks, chunk ≠ []) :
    (storePackBlob mode chunks.flatten (spansOf chunks) codec).isSome := by
  have htiles := (tiles_place 0 h).validate
  rw [Int.zero_add] at htiles
  unfold storePackBlob
  split
  · rfl
  · rw [spansOf, if_pos htiles]
    rfl

/-! ### One more chunk -/

theorem chunksOf_append_self (i : Nat) (done : List (Nat × Bytes)) (chunk : Bytes) :
    chunksOf i (done ++ [(i, chunk)]) = chunksOf i done ++ [chunk] := by
  simp [chunksOf]

theorem chunksOf_append_of_ne {i j : Nat} (h : j ≠ i) (done : List (Nat × Bytes)) (chunk : Bytes) :
    chunksOf j (done ++ [(i, chunk)]) = chunksOf j done := by
  simp [chunksOf, Ne.symm h]

/-- A reference is added, which is resolved or waits for an entry. -/
theorem ItemInv.append (h : ItemInv c P log item i entries chunks st) (hlog : log ⊆ log')
    (hentries : entries ⊆ entries') (hhash : ref.hash = c.sha chunk)
    (href : Resolved c P log' item.key ref
      ∨ ∃ e ∈ entries', e.item = i ∧ e.manifestIdx = st.manifest.chunks.length) :
    ItemInv c P log' item i entries' (chunks ++ [chunk]) (st.append ref) := by
  have h' := h.mono hlog hentries
  refine { h' with hashes := ?_, refs := fun j r hj => ?_, total := ?_ }
  · simp [ItemState.append, h'.hashes, hhash]
  · dsimp only [ItemState.append] at hj
    rw [List.getElem?_append] at hj
    split at hj
    · exact h'.refs j r hj
    · rename_i hge
      obtain ⟨hlt, rfl⟩ := List.getElem?_eq_some_iff.mp hj
      have hlast : j = st.manifest.chunks.length := by
        rw [List.length_singleton] at hlt
        omega
      simp only [List.getElem_singleton, hlast]
      exact href
  · simp [ItemState.append, h'.total]

/-- The references that were there stay in place. -/
theorem append_keeps (new : ChunkRef) (st : ItemState) : KeepsRefs st (st.append new) := by
  refine ⟨rfl, fun j ref href => ⟨ref, ?_, rfl, rfl, rfl⟩⟩
  dsimp only [ItemState.append]
  rw [List.getElem?_append_left (List.getElem?_eq_some_iff.mp href).1, href]

/-- The objects after one more chunk of the object `i`. -/
theorem ItemsInv.append (h : ItemsInv c P items log entries done states) (hlog : log ⊆ log')
    (hentries : entries ⊆ entries') (hhash : ref.hash = c.sha chunk)
    (href : ∀ item st, items[i]? = some item → states[i]? = some st →
      Resolved c P log' item.key ref
        ∨ ∃ e ∈ entries', e.item = i ∧ e.manifestIdx = st.manifest.chunks.length) :
    ItemsInv c P items log' entries' (done ++ [(i, chunk)])
      (states.modify i fun st => st.append ref) := by
  refine h.modify (fun item st hitem hst => ?_) fun j item st hj hinv => ?_
  · rw [chunksOf_append_self]
    exact (h.each i item st hitem hst).append hlog hentries hhash (href item st hitem hst)
  · rw [chunksOf_append_of_ne hj]
    exact hinv.mono hlog hentries

theorem BufferInv.modify {b' : BatchState}
    (h : BufferInv c b chunks) (hf : ∀ st, KeepsRefs st (f st))
    (hitems : b'.items = b.items.modify i f) (hbuf : b'.packBuf = b.packBuf)
    (hentries : b'.packEntries = b.packEntries) (hdom : b'.packDomain = b.packDomain) :
    BufferInv c b' chunks := by
  refine ⟨hbuf.trans h.buf, h.ne_nil, ?_⟩
  rw [hentries, hitems, hdom]
  exact h.entries.imp fun e x he => he.modify hf

/-- The buffer after one more chunk. -/
theorem bufferChunk_eq (c : ChunkedStore) (i : Nat) (st : ItemState) (b : BatchState) (chunk : Bytes) :
    c.bufferChunk i st b chunk =
      ⟨b.items.modify i fun st => st.append ⟨c.sha chunk, "", b.packBuf.length, chunk.length⟩,
        b.packBuf ++ chunk,
        b.packEntries ++ [⟨i, st.manifest.chunks.length, b.packBuf.length, chunk.length⟩],
        if b.packBuf = [] then st.domain else b.packDomain,
        if b.packBuf = [] then st.codec else b.packCodec⟩ := by
  unfold ChunkedStore.bufferChunk
  by_cases h : b.packBuf = [] <;> simp [h]

/-- **Buffering a chunk.**  The reference that was added waits for the new entry. -/
theorem bufferChunk_inv (h : ItemsInv c P items log b.packEntries done b.items)
    (hb : BufferInv c b chunks) (hchunk : chunk ≠ []) {now : ItemState}
    (hnow : b.items[i]? = some now) (hdom : now.domain = st.domain)
    (hlen : now.manifest.chunks.length = st.manifest.chunks.length)
    (hsame : b.packBuf ≠ [] → st.domain = b.packDomain) :
    ItemsInv c P items log (c.bufferChunk i st b chunk).packEntries (done ++ [(i, chunk)])
        (c.bufferChunk i st b chunk).items
      ∧ BufferInv c (c.bufferChunk i st b chunk) (chunks ++ [chunk]) := by
  have hdomain : (if b.packBuf = [] then st.domain else b.packDomain) = st.domain := by
    split
    · rfl
    · rename_i hne
      exact (hsame hne).symm
  rw [bufferChunk_eq]
  constructor
  · refine h.append (List.Subset.refl _) (List.subset_append_left ..) rfl ?_
    intro item st' hitem hst'
    rw [hnow] at hst'
    cases hst'
    exact .inr ⟨_, List.mem_concat_self, rfl, hlen.symm⟩
  · refine ⟨?_, List.forall_mem_append.mpr ⟨hb.ne_nil, List.forall_mem_singleton.mpr hchunk⟩, ?_⟩
    · dsimp only
      rw [hb.buf, List.flatten_append, List.flatten_singleton]
    · dsimp only
      rw [place_append, hdomain]
      refine List.rel_append ?_ (.cons ?_ .nil)
      · -- an earlier entry is of the same domain
        by_cases hbuf : b.packBuf = []
        · have hentries := hb.entries
          rw [hb.chunks_eq_nil hbuf] at hentries ⊢
          rw [List.forall₂_nil_right_iff.mp hentries]
          exact .nil
        · rw [hsame hbuf]
          exact hb.entries.imp fun e x he => he.modify (append_keeps _)
      · refine ⟨by simp [hb.buf], rfl, now.append ⟨c.sha chunk, "", b.packBuf.length, chunk.length⟩,
          ⟨c.sha chunk, "", b.packBuf.length, chunk.length⟩, ?_, hdom, ?_, rfl, ?_, rfl⟩
        · simp [hnow]
        · simp [ItemState.append, ← hlen]
        · simp [hb.buf]

/-- **Looking a chunk up.** -/
theorem meets_lookup (hs : SessionOk c log key s)
    (hdom : domain = c.domainFor key) :
    (s.lookup domain h).Meets (putRules c P items) log fun log' found => log ⊆ log' ∧
      ∀ ref, found = some ref → Source c P log' key h ref := by
  cases s with
  | prior index => exact ⟨List.Subset.refl _, fun ref href => .inr (.inr (hs.2 h ref href))⟩
  | global =>
    refine ⟨hs, fun found _ => ⟨List.subset_append_left .., fun ref href => ?_⟩⟩
    subst href hdom
    exact .inr (.inl List.mem_concat_self)

section Spec

variable (hsha : ∀ b, c.sha b ≠ "")

include hsha

/-- **Sealing a pack.**  The pack is uploaded, and nothing waits for it any more. -/
theorem meets_flushPack (h : ItemsInv c P items log b.packEntries done b.items) (hb : BufferInv c b chunks)
    (hP : Fits P chunks) :
    (c.flushPack b).Meets (putRules c P items) log
      (Ends (fun log b => ItemsInv c P items log b.packEntries done b.items ∧ BufferInv c b [])
        (Refused c P items)) := by
  unfold ChunkedStore.flushPack
  by_cases hbuf : b.packBuf = []
  · rw [if_pos hbuf]
    rw [hb.chunks_eq_nil hbuf] at hb
    exact ⟨h, hb⟩
  · rw [if_neg hbuf]
    have hpack : IsPack P chunks := by
      refine ⟨?_, hb.ne_nil, hP⟩
      rintro rfl
      exact hbuf hb.buf
    obtain ⟨stored, hstored⟩ := Option.isSome_iff_exists.mp
      (storePackBlob_isSome c.packCompression b.packCodec hb.ne_nil)
    rw [hb.spans, hb.buf]
    simp only [hstored]
    rw [meets_bind, meets_perform]
    refine ⟨.inl ⟨b.packDomain, chunks, b.packCodec, hpack, rfl, ?_, hstored⟩, fun _ _ => ?_⟩
    · -- the pack has the domain of the objects whose chunks it holds
      obtain ⟨x, xs, hplace⟩ := List.exists_cons_of_ne_nil (l := place 0 chunks) (by
        obtain ⟨y, ys, rfl⟩ := List.exists_cons_of_ne_nil hpack.ne_nil
        simp [place])
      have hentries := hb.entries
      rw [hplace] at hentries
      obtain ⟨e, -, ⟨-, -, st, -, hst, hdom, -⟩, -, -⟩ := List.forall₂_cons_right_iff.mp hentries
      obtain ⟨item, hitem⟩ := h.item_of_state hst
      exact ⟨item, List.mem_of_getElem? hitem,
        hdom.symm.trans (h.each e.item item st hitem hst).domain⟩
    · refine ⟨?_, .nil rfl rfl⟩
      refine ItemsInv.resolveEntries (hsha _) (fun x hx => ?_) hb.entries ?_
      · exact ⟨chunks, ⟨hpack, _, stored, hstored, List.mem_concat_self⟩, x, hx, rfl, rfl⟩
      · exact h.mono (List.subset_append_left ..) (List.Subset.refl _)

/-- A chunk is buffered, and the pack is sealed when it is large enough. -/
theorem meets_buffer_flush {work done todo : List (Nat × Bytes)}
    (hwork : done ++ (i, chunk) :: todo = work)
    (hbi : ItemsInv c P items log (c.bufferChunk i st b chunk).packEntries (done ++ [(i, chunk)])
      (c.bufferChunk i st b chunk).items)
    (hbb : BufferInv c (c.bufferChunk i st b chunk) (chunks ++ [chunk]))
    (hevery : ∀ x ∈ chunks, P.every x) (hinner : ∀ x ∈ chunks, P.inner x)
    (hP : Fits P (work.map Prod.snd)) :
    (if ((c.bufferChunk i st b chunk).packBuf.length : Int) ≥ c.packTargetBytes
        then c.flushPack (c.bufferChunk i st b chunk)
        else pure (.ok (c.bufferChunk i st b chunk))).Meets (putRules c P items) log
      (Ends (BatchInv c P items work (done ++ [(i, chunk)]) todo) (Refused c P items)) := by
  have hwork' : (done ++ [(i, chunk)]) ++ todo = work := by rw [List.append_assoc]; exact hwork
  have hfits : Fits P (chunks ++ [chunk]) := by
    refine ⟨List.forall_mem_append.mpr ⟨hevery, List.forall_mem_singleton.mpr ?_⟩, by simpa using hinner⟩
    exact hP.every chunk (by simp [← hwork])
  split
  · exact (meets_flushPack hsha hbi hbb hfits).ends fun log b' hr =>
      ⟨hwork', hr.1, [], hr.2, ⟨by simp, by simp⟩, by simp⟩
  · refine ⟨hwork', hbi, chunks ++ [chunk], hbb, hfits, fun htodo =>
      List.forall_mem_append.mpr ⟨hinner, List.forall_mem_singleton.mpr (hP.inner chunk ?_)⟩⟩
    -- the chunk is not the last one of the batch
    rw [← List.map_dropLast, ← hwork', List.dropLast_append_of_ne_nil htodo]
    simp

/-- **One chunk.** -/
theorem meets_emitChunk {work done todo : List (Nat × Bytes)}
    (hwork : ∀ x ∈ work, x.1 < items.length ∧ x.2 ≠ []) (hP : Fits P (work.map Prod.snd))
    (h : BatchInv c P items work done ((i, chunk) :: todo) log b) :
    (c.emitChunk i b chunk).Meets (putRules c P items) log
      (Ends (BatchInv c P items work (done ++ [(i, chunk)]) todo) (Refused c P items)) := by
  obtain ⟨hprogress, hstates, chunks, hb, hfits, hinner⟩ := h
  have hinner := hinner (by simp)
  obtain ⟨hi, hchunk⟩ := hwork (i, chunk) (by rw [← hprogress]; simp)
  have hlt : i < b.items.length := by rw [hstates.length]; exact hi
  have hst : b.items[i]? = some b.items[i] := List.getElem?_eq_getElem hlt
  have hitem : items[i]? = some items[i] := List.getElem?_eq_getElem hi
  have hinv := hstates.each i items[i] b.items[i] hitem hst
  unfold ChunkedStore.emitChunk
  rw [hst]
  dsimp only
  rw [if_neg hchunk, meets_bind]
  refine (meets_lookup hinv.session hinv.domain).mono ?_
  rintro log' found ⟨hlog, hfound⟩
  split
  · -- the chunk is stored already
    rename_i ref hsome
    obtain ⟨hsome, hne⟩ := Option.filter_eq_some_iff.mp hsome
    have hsource := hfound ref hsome
    have hne := (of_decide_eq_true hne).1
    refine ⟨by rw [List.append_assoc]; exact hprogress, ?_, chunks, ?_, hfits, fun _ => hinner⟩
    · refine hstates.append hlog (List.Subset.refl _) rfl fun item st hitem' _ => ?_
      rw [hitem] at hitem'
      cases hitem'
      exact .inl ⟨hne, hsource⟩
    · exact hb.modify (append_keeps _) rfl rfl rfl rfl
  · have hstates := hstates.mono hlog (List.Subset.refl _)
    split
    · -- the pack has another domain or codec, and is sealed first
      refine (meets_flushPack hsha hstates hb hfits).orFail ?_
      rintro log b' ⟨hstates', hb'⟩
      have hlt' : i < b'.items.length := by rw [hstates'.length]; exact hi
      have hst' : b'.items[i]? = some b'.items[i] := List.getElem?_eq_getElem hlt'
      have hinv' := hstates'.each i items[i] b'.items[i] hitem hst'
      have hlen := congrArg List.length (hinv'.hashes.trans hinv.hashes.symm)
      rw [List.length_map, List.length_map] at hlen
      obtain ⟨hbi, hbb⟩ := bufferChunk_inv hstates' hb' hchunk hst'
        (hinv'.domain.trans hinv.domain.symm) hlen fun hne => absurd hb'.buf hne
      exact meets_buffer_flush hsha hprogress hbi hbb (by simp) (by simp) hP
    · rename_i hsame
      obtain ⟨hbi, hbb⟩ := bufferChunk_inv hstates hb hchunk hst rfl rfl fun hne => by
        by_contra hdom
        exact hsame ⟨hne, .inl hdom⟩
      exact meets_buffer_flush hsha hprogress hbi hbb hfits.every hinner hP

end Spec

/-! ### The chunks of a batch -/

/-- The chunks of a batch, each with the number of its object. -/
def batchWork (c : ChunkedStore) (items : List BatchPutItem) : List (Nat × Bytes) :=
  ((List.range items.length).zip (items.map BatchPutItem.data)).flatMap fun it =>
    (c.split it.2).map fun chunk => (it.1, chunk)

/-- The chunks in order are those of the objects in order. -/
theorem map_snd_batchWork (c : ChunkedStore) (items : List BatchPutItem) :
    (batchWork c items).map Prod.snd = items.flatMap fun item => c.split item.data := by
  have hsnd : ((List.range items.length).zip (items.map BatchPutItem.data)).map Prod.snd
      = items.map BatchPutItem.data := List.map_snd_zip (by simp)
  calc (batchWork c items).map Prod.snd
      = ((List.range items.length).zip (items.map BatchPutItem.data)).flatMap
          fun it => c.split it.2 := by simp [batchWork, List.map_flatMap, Function.comp_def]
    _ = (((List.range items.length).zip (items.map BatchPutItem.data)).map Prod.snd).flatMap
          c.split := by rw [List.flatMap_map]
    _ = (items.map BatchPutItem.data).flatMap c.split := by rw [hsnd]
    _ = items.flatMap fun item => c.split item.data := by rw [List.flatMap_map]

theorem mem_batchWork {x : Nat × Bytes}
    (h : x ∈ batchWork c items) : x.1 < items.length ∧ x.2 ≠ [] := by
  obtain ⟨it, hit, hx⟩ := List.mem_flatMap.mp h
  obtain ⟨chunk, hchunk, rfl⟩ := List.mem_map.mp hx
  exact ⟨List.mem_range.mp (List.of_mem_zip hit).1, ne_nil_of_mem_splitFrom hchunk⟩

/-- One number of a list of numbered data. -/
theorem flatMap_zip_range' {α β : Type} (f : α → List β) (s i : Nat) (xs : List α) :
    ((List.range' s xs.length).zip xs).flatMap (fun it => if it.1 = i then f it.2 else [])
      = if s ≤ i then ((xs[i - s]?).map f).getD [] else [] := by
  induction xs generalizing s with
  | nil => simp
  | cons x xs ih =>
    rw [List.length_cons, List.range'_succ, List.zip_cons_cons, List.flatMap_cons, ih]
    dsimp only
    by_cases hs : s = i
    · subst hs
      simp
    · rw [if_neg hs, List.nil_append]
      by_cases hle : s ≤ i
      · have hsub : i - s = (i - (s + 1)) + 1 := by omega
        rw [if_pos hle, if_pos (by omega), hsub, List.getElem?_cons_succ]
      · rw [if_neg hle, if_neg (by omega)]

theorem chunksOf_batchWork (hitem : items[i]? = some item) :
    chunksOf i (batchWork c items) = c.split item.data := by
  have hone : ∀ it : Nat × Bytes,
      ((((c.split it.2).map fun chunk => (it.1, chunk)).filter fun x => x.1 = i).map Prod.snd)
        = if it.1 = i then c.split it.2 else [] := by
    intro it
    by_cases h : it.1 = i <;> simp [h, List.filter_map, Function.comp_def]
  have hrange : (List.range items.length) = List.range' 0 (items.map BatchPutItem.data).length := by
    rw [List.length_map, List.range_eq_range']
  rw [chunksOf, batchWork, List.filter_flatMap, List.map_flatMap]
  simp only [hone]
  rw [hrange, flatMap_zip_range' c.split 0 i (items.map BatchPutItem.data)]
  simp [hitem]

/-! ### A whole put -/

/-- An object that has just been opened. -/
structure Opened (c : ChunkedStore) (P : ChunkSpec) (log : Log) (item : BatchPutItem)
    (st : ItemState) : Prop where
  manifest : st.manifest = ⟨.v2, 0, c.domainFor item.key, []⟩
  domain : st.domain = c.domainFor item.key
  pending : st.pending = []
  session : SessionOk c log item.key st.session

theorem meets_newSession (hitem : item ∈ items) :
    (newSession c.index item.key).Meets (putRules c P items) log fun log' s =>
      log ⊆ log' ∧ SessionOk c log' item.key s := by
  cases hindex : c.index with
  | global => exact ⟨List.Subset.refl _, hindex⟩
  | priorManifest =>
    refine ⟨⟨hindex, item, hitem, rfl⟩, fun latest _ => ?_⟩
    refine ⟨List.subset_append_left .., hindex, fun h ref href => ?_⟩
    cases latest with
    | none => cases href
    | some s =>
      rw [loadPriorIndex] at href
      split at href
      · cases href
      · rename_i hformat
        obtain ⟨r, hr, rfl⟩ := Option.map_eq_some_iff.mp href
        have hmem := List.mem_of_find?_eq_some hr
        rw [List.mem_reverse, List.mem_filter] at hmem
        have hhash : r.hash = h := by simpa using List.find?_some hr
        have hformat : s.manifest.format = .v2 := not_not.mp hformat
        subst hhash
        exact ⟨s, List.mem_concat_self, hformat, hmem.1, (of_decide_eq_true hmem.2).2⟩

/-- **Opening the objects.** -/
theorem meets_openItems {opened : List BatchPutItem} (hsub : opened ⊆ items) :
    (c.openItems opened).Meets (putRules c P items) log fun log' states => log ⊆ log' ∧
      List.Forall₂ (Opened c P log') opened states := by
  induction opened generalizing log with
  | nil => exact ⟨List.Subset.refl _, .nil⟩
  | cons item opened ih =>
    obtain ⟨hitem, hsub⟩ := List.cons_subset.mp hsub
    rw [ChunkedStore.openItems, meets_bind]
    refine (meets_newSession hitem).mono ?_
    rintro log' session ⟨hlog, hsession⟩
    rw [meets_bind]
    refine (ih hsub).mono ?_
    rintro log'' states ⟨hlog', hstates⟩
    exact ⟨fun x hx => hlog' (hlog hx), .cons ⟨rfl, rfl, rfl, hsession.mono hlog'⟩ hstates⟩

theorem mem_packsOf {chunks : List ChunkRef} {p : String} :
    p ∈ ChunkedStore.packsOf chunks ↔ p ≠ "" ∧ ∃ r ∈ chunks, r.packHash = p := by
  simp [ChunkedStore.packsOf, List.mem_eraseDups, and_comm]

/-- **Claiming the packs of an object.** -/
theorem meets_associatePacks {chunks : List ChunkRef} (hitem : item ∈ items)
    (hdom : domain = c.domainFor item.key)
    (h : ∀ ref ∈ chunks, Resolved c P log item.key ref) :
    (c.associatePacks domain (contextFor item.key item.md) chunks).Meets (putRules c P items) log
      (Ends (fun log' _ => log ⊆ log' ∧ (c.index = .global → contextFor item.key item.md ≠ "" →
          ∀ ref ∈ chunks, log'.Associated domain ref.packHash (contextFor item.key item.md)))
        (Refused c P items)) := by
  subst hdom
  unfold ChunkedStore.associatePacks
  split
  · rename_i hskip
    refine ⟨List.Subset.refl _, fun hindex hcontext ref href => ?_⟩
    rcases hskip with hprior | hempty | hnone
    · rw [hindex] at hprior
      cases hprior
    · exact absurd hempty hcontext
    · have hmem := mem_packsOf.mpr ⟨(h ref href).packHash_ne, ref, href, rfl⟩
      rw [hnone] at hmem
      cases hmem
  · rename_i hcall
    have hclaims : Claims c P items log (c.domainFor item.key)
        ((ChunkedStore.packsOf chunks).map fun p => ⟨p, contextFor item.key item.md⟩) := by
      refine ⟨item, hitem, rfl, fun hempty => hcall (.inr (.inl hempty)), fun a ha => ?_⟩
      obtain ⟨p, hp, rfl⟩ := List.mem_map.mp ha
      obtain ⟨-, ref, href, rfl⟩ := mem_packsOf.mp hp
      exact ⟨rfl, ref.hash, _, (h ref href).source, rfl⟩
    rw [meets_bind, meets_perform]
    refine ⟨hclaims, fun ok _ => ?_⟩
    cases ok with
    | true =>
      refine ⟨List.subset_append_left .., fun _ _ ref href => ?_⟩
      refine ⟨_, List.mem_concat_self, List.mem_map.mpr ⟨ref.packHash, ?_, rfl⟩⟩
      exact mem_packsOf.mpr ⟨(h ref href).packHash_ne, ref, href, rfl⟩
    | false =>
      refine ⟨rfl, _, _, List.mem_concat_self, ?_⟩
      obtain ⟨it, hit, hd, hne, hall⟩ := hclaims
      refine ⟨it, hit, hd, hne, fun a ha => ?_⟩
      obtain ⟨hcontext, x, ref, hsource, hp⟩ := hall a ha
      exact ⟨hcontext, x, ref, hsource.mono (List.subset_append_left ..), hp⟩

theorem Written.mono (hsub : log ⊆ log') (h : Written c P log item m) :
    Written c P log' item m :=
  ⟨h.format, h.tenant, h.hashes, fun ref href => (h.refs ref href).mono hsub,
    fun hindex hcontext ref href => (h.held hindex hcontext ref href).mono hsub, h.total⟩

theorem WrittenV1.mono (hsub : log ⊆ log') (h : WrittenV1 c log item m) :
    WrittenV1 c log' item m := by
  refine { h with uploaded := fun chunk hchunk => ?_ }
  obtain ⟨codec, hup⟩ := h.uploaded chunk hchunk
  exact ⟨codec, hsub hup⟩

/-- The manifest of an object has been written. -/
def WrittenAs (c : ChunkedStore) (P : ChunkSpec) (log : Log) (item : BatchPutItem)
    (version : String) : Prop :=
  ∃ m, (⟨.putSnapshot item.key (manifestMeta item.md m) m, version⟩ : Event) ∈ log
    ∧ (Written c P log item m ∨ WrittenV1 c log item m)

theorem WrittenAs.mono (hsub : log ⊆ log') {version : String} (h : WrittenAs c P log item version) :
    WrittenAs c P log' item version := by
  obtain ⟨m, hm, hw⟩ := h
  exact ⟨m, hsub hm, hw.imp (Written.mono hsub) (WrittenV1.mono hsub)⟩

/-- **Finishing an object.**  Its manifest is written after its packs have been claimed. -/
theorem meets_finishItem {versions : List String} (hitem : item ∈ items)
    (h : ItemInv c P log item i [] (c.split item.data) st) :
    (c.finishItem versions (item, st)).Meets (putRules c P items) log
      (Ends (fun log' versions' => log ⊆ log' ∧ ∃ v, versions' = versions ++ [v]
          ∧ WrittenAs c P log' item v) (Refused c P items)) := by
  have hrefs : ∀ ref ∈ st.manifest.chunks, Resolved c P log item.key ref := by
    intro ref href
    obtain ⟨j, hj⟩ := List.mem_iff_getElem?.mp href
    rcases h.refs j ref hj with hres | ⟨e, he, -⟩
    · exact hres
    · cases he
  have hcommit : (ChunkedStore.commitSession st).Meets (putRules c P items) log
      fun log' _ => log ⊆ log' := by
    unfold ChunkedStore.commitSession
    split
    · exact List.Subset.refl _
    · refine ⟨⟨⟨item, hitem, h.domain⟩, fun loc hloc => ?_⟩, fun _ _ => List.subset_append_left ..⟩
      rw [h.domain]
      exact h.pending loc hloc
  rw [ChunkedStore.finishItem, meets_bind]
  refine hcommit.mono fun log' _ hlog => ?_
  refine (meets_associatePacks hitem h.domain fun ref href => (hrefs ref href).mono hlog).orFail ?_
  rintro log'' _ ⟨hlog', hheld⟩
  rw [h.domain] at hheld
  have hwritten : Written c P log'' item st.manifest := by
    refine ⟨h.format, h.tenant, h.hashes, fun ref href => ?_, hheld, h.total⟩
    exact (hrefs ref href).mono fun x hx => hlog' (hlog hx)
  rw [meets_bind]
  refine ⟨⟨item, hitem, rfl, rfl, .inl hwritten⟩, fun version _ => ?_⟩
  refine ⟨fun x hx => List.mem_append_left _ (hlog' (hlog hx)), version, rfl, st.manifest, ?_, ?_⟩
  · exact List.mem_concat_self
  · exact .inl (hwritten.mono (List.subset_append_left ..))

/-- The objects are finished one after another. -/
theorem meets_finishItems {pairs : List (BatchPutItem × ItemState)}
    (h : ∀ x ∈ pairs, x.1 ∈ items ∧ ∃ i, ItemInv c P log x.1 i [] (c.split x.1.data) x.2) :
    (foldOrFail c.finishItem pairs []).Meets (putRules c P items) log
      (Ends (fun log versions => List.Forall₂ (WrittenAs c P log) (pairs.map Prod.fst) versions)
        (Refused c P items)) := by
  refine Meets.foldOrFail (fun done todo log versions =>
    (∀ x ∈ todo, x.1 ∈ items ∧ ∃ i, ItemInv c P log x.1 i [] (c.split x.1.data) x.2)
      ∧ List.Forall₂ (WrittenAs c P log) (done.map Prod.fst) versions) ?_ ⟨h, .nil⟩ fun _ _ h => h.2
  rintro done ⟨item, st⟩ todo log versions ⟨htodo, hdone⟩
  obtain ⟨hitem, i, hinv⟩ := htodo (item, st) (List.mem_cons_self ..)
  refine (meets_finishItem hitem hinv).ends ?_
  rintro log' versions' ⟨hlog, v, rfl, hv⟩
  refine ⟨fun x hx => ?_, ?_⟩
  · obtain ⟨hx, j, hxinv⟩ := htodo x (List.mem_cons_of_mem _ hx)
    exact ⟨hx, j, hxinv.mono hlog (List.Subset.refl _)⟩
  · rw [List.map_append]
    exact List.rel_append (hdone.imp fun _ _ => WrittenAs.mono hlog) (.cons hv .nil)

/-- The loop over all chunks of a batch. -/
theorem foldOrFail_processItem (c : ChunkedStore) (items : List BatchPutItem) (b : BatchState) :
    foldOrFail c.processItem ((List.range items.length).zip (items.map BatchPutItem.data)) b
      = foldOrFail (fun b x => c.emitChunk x.1 b x.2) (batchWork c items) b := by
  rw [batchWork, ← foldOrFail_flatMap]
  congr 1
  funext b it
  rw [foldOrFail_map]
  rfl

/-- **A put meets its obligations.**  When it succeeds, the manifests of all objects have been
    written; it fails only when the association of a pack is refused. -/
theorem meets_putBatchV2 (hsha : ∀ b, c.sha b ≠ "")
    (hP : Fits P (items.flatMap fun item => c.split item.data)) :
    (c.putBatchV2 items).Meets (putRules c P items) []
      (Ends (fun log versions => List.Forall₂ (WrittenAs c P log) items versions)
        (Refused c P items)) := by
  have hP' : Fits P ((batchWork c items).map Prod.snd) := by
    rw [map_snd_batchWork]
    exact hP
  rw [ChunkedStore.putBatchV2, meets_bind]
  refine (meets_openItems (List.Subset.refl _)).mono ?_
  rintro log states ⟨-, hopened⟩
  rw [foldOrFail_processItem]
  have hstart : BatchInv c P items (batchWork c items) [] (batchWork c items) log
      ⟨states, [], [], "", .none⟩ := by
    refine ⟨rfl, ⟨hopened.length_eq.symm, fun i item st hitem hst => ?_⟩, [], .nil rfl rfl,
      ⟨by simp, by simp⟩, by simp⟩
    have hnew : Opened c P log item st := by
      have := List.forall₂_iff_get.mp hopened
      obtain ⟨hi, rfl⟩ := List.getElem?_eq_some_iff.mp hitem
      obtain ⟨hi', rfl⟩ := List.getElem?_eq_some_iff.mp hst
      exact this.2 i hi hi'
    refine ⟨by rw [hnew.manifest], by rw [hnew.manifest], hnew.domain, hnew.session, ?_, ?_, ?_,
      by rw [hnew.manifest]; rfl⟩
    · rw [hnew.manifest]
      rfl
    · intro j ref hj
      rw [hnew.manifest] at hj
      simp at hj
    · rw [hnew.pending]
      simp
  refine (Meets.foldOrFail (BatchInv c P items (batchWork c items))
    (fun done x todo log b h => meets_emitChunk hsha (fun x => mem_batchWork) hP' h) hstart
    fun _ _ h => h).orFail ?_
  rintro log b ⟨-, hstates, chunks, hb, hlast, -⟩
  refine (meets_flushPack hsha hstates hb hlast).orFail ?_
  rintro log b ⟨hstates, hb⟩
  have hentries : b.packEntries = [] := List.forall₂_nil_right_iff.mp hb.entries
  rw [hentries] at hstates
  refine (meets_finishItems (fun x hx => ⟨(List.of_mem_zip hx).1, ?_⟩)).mono fun log r hr => ?_
  · obtain ⟨i, hi⟩ := List.mem_iff_getElem?.mp hx
    obtain ⟨hitem, hst⟩ := List.getElem?_zip_eq_some.mp hi
    have hinv := hstates.each i x.1 x.2 hitem hst
    rw [chunksOf_batchWork hitem] at hinv
    exact ⟨i, hinv⟩
  · rw [List.map_fst_zip (by rw [hstates.length])] at hr
    exact hr

/-! ### One blob per chunk -/

/-- **A put that does not pack.** -/
theorem meets_putV1 (hdisabled : c.packTargetBytes = packingDisabled) (hitem : item ∈ items) :
    (c.putV1 item).Meets (putRules c P items) log
      (Ends (fun log' version => log ⊆ log' ∧ WrittenAs c P log' item version) (Refused c P items)) := by
  have hloop : (foldOrFail (c.emitV1 (c.domainFor item.key) (c.codecFor item.md)) (c.split item.data)
      ⟨.v1, 0, c.domainFor item.key, []⟩).Meets (putRules c P items) log
      (Ends (fun log' m => log ⊆ log' ∧ WrittenV1 c log' item m) (Refused c P items)) := by
    refine Meets.foldOrFail (fun done _ log' m => log ⊆ log' ∧ m.format = .v1
        ∧ m.tenant = c.domainFor item.key
        ∧ m.chunks = done.map (fun chunk => ⟨c.sha chunk, "", 0, chunk.length⟩)
        ∧ ∀ chunk ∈ done, ∃ codec, (⟨.putIfAbsent (chunkBlobID (c.domainFor item.key) (c.sha chunk))
          (compressPackBlob chunk codec), ()⟩ : Event) ∈ log')
      ?_ ⟨List.Subset.refl _, rfl, rfl, rfl, by simp⟩ fun _ _ ⟨hsub, hformat, htenant, hchunks, hup⟩ =>
        ⟨hsub, hdisabled, hformat, htenant, hchunks, hup⟩
    rintro done chunk todo log' m ⟨hsub, hformat, htenant, hchunks, hup⟩
    rw [ChunkedStore.emitV1, meets_bind, meets_perform]
    refine ⟨.inr ⟨hdisabled, item, hitem, chunk, _, rfl, rfl⟩, fun _ _ => ?_⟩
    refine ⟨fun x hx => List.mem_append_left _ (hsub hx), hformat, htenant, ?_, List.forall_mem_append.mpr
      ⟨fun x hx => ?_, List.forall_mem_singleton.mpr ⟨_, List.mem_concat_self⟩⟩⟩
    · dsimp only
      rw [hchunks, List.map_append]
      rfl
    · obtain ⟨codec, hmem⟩ := hup x hx
      exact ⟨codec, List.mem_append_left _ hmem⟩
  refine hloop.orFail ?_
  rintro log' m ⟨hsub, hwritten⟩
  rw [meets_bind]
  refine ⟨⟨item, hitem, rfl, rfl, .inr hwritten⟩, fun version _ => ?_⟩
  exact ⟨fun x hx => List.mem_append_left _ (hsub hx), m, List.mem_concat_self,
    .inr (hwritten.mono (List.subset_append_left ..))⟩

/-- **A put meets its obligations**, whether it packs or not. -/
theorem meets_putBatch (hsha : ∀ b, c.sha b ≠ "")
    (hP : Fits P (items.flatMap fun item => c.split item.data)) :
    (c.putBatch items).Meets (putRules c P items) []
      (Ends (fun log versions => List.Forall₂ (WrittenAs c P log) items versions)
        (Refused c P items)) := by
  unfold ChunkedStore.putBatch
  split
  · rename_i hdisabled
    refine Meets.foldOrFail (fun done todo log versions => done ++ todo = items
      ∧ List.Forall₂ (WrittenAs c P log) done versions) ?_ ⟨rfl, .nil⟩ fun _ _ h => h.2
    rintro done item todo log versions ⟨hprogress, hdone⟩
    have hitem : item ∈ items := by rw [← hprogress]; simp
    refine (meets_putV1 hdisabled hitem).orFail ?_
    rintro log' v ⟨hsub, hv⟩
    exact ⟨by rw [List.append_assoc]; exact hprogress,
      List.rel_append (hdone.imp fun _ _ => WrittenAs.mono hsub) (.cons hv .nil)⟩
  · exact meets_putBatchV2 hsha hP

end MemoryLayer.Snapshot
