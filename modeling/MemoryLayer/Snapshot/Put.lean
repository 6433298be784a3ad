import Mathlib.Algebra.Ring.Int.Defs
import MemoryLayer.Snapshot.Store

namespace MemoryLayer.Snapshot

open Calls Prog

/-! # Writing objects

The operations of a `ChunkedStore` that write manifests or delete them (`store_chunked.go`,
`store_register.go`, `dedupindex.go`, and `associatePacks` of `packassoc.go`), as programs over the
stores.  A put of one object is a batch of one: the loops of the two are the same, and the check that
keeps a pack uniform never fires for a single object.

- `ChunkedStore`: the configuration; `splitFrom`, `readLoop`: how a stream is cut into chunks.
- `Session`: the dedup index that a put consults.
- `flushPack`, `emitChunk`, `putBatchV2`, `putV1`, `putBatch`, `put`: the write paths.
- `registerManifest`, `updateLatestMeta`, `delete`: the other operations on manifests.
-/

/-- Which dedup index is configured. -/
inductive IndexKind where
  | priorManifest
  | global
  deriving DecidableEq, Repr

/-- The configuration of a chunked store: the hash function, the splitter, and the options.  A
    splitter says, for the bytes of a stream so far, whether a chunk is complete with them. -/
structure ChunkedStore where
  sha : Bytes → String
  complete : Bytes → Bool
  packTargetBytes : Int
  dedupDomain : String
  index : IndexKind
  policy : String → CompressionAlgo
  packCompression : PackCompressionMode

/-- The target that turns packing off. -/
def packingDisabled : Int := -1

/-- Why a put fails. -/
inductive PutErr where
  | badSpans
  | packObliterating
  | emptyPackHash
  | invalidRange
  | noSnapshot
  deriving DecidableEq, Repr

/-- One object of a batch. -/
structure BatchPutItem where
  key : SnapshotKey
  md : SnapshotMetadata
  data : Bytes

/-- The chunks of a stream, where `seen` has been read, and `current` since the last cut. -/
def splitFrom (complete : Bytes → Bool) (seen current : Bytes) : Bytes → List Bytes
  | [] => if current = [] then [] else [current]
  | b :: data =>
    if complete (seen ++ [b]) then (current ++ [b]) :: splitFrom complete (seen ++ [b]) [] data
    else splitFrom complete (seen ++ [b]) (current ++ [b]) data

/-- Where the first chunk ends in the next bytes of a stream. -/
def nextSplitPoint (complete : Bytes → Bool) (seen : Bytes) : Bytes → Option Nat
  | [] => none
  | b :: data =>
    if complete (seen ++ [b]) then some 1 else (nextSplitPoint complete (seen ++ [b]) data).map (· + 1)

theorem nextSplitPoint_pos {complete : Bytes → Bool} {seen data : Bytes} {cut : Nat}
    (h : nextSplitPoint complete seen data = some cut) : 0 < cut ∧ cut ≤ data.length := by
  induction data generalizing seen cut with
  | nil => cases h
  | cons b data ih =>
    rw [nextSplitPoint] at h
    split at h
    · cases h
      exact ⟨Nat.one_pos, Nat.le_add_left ..⟩
    · obtain ⟨n, hn, rfl⟩ := Option.map_eq_some_iff.mp h
      exact ⟨Nat.succ_pos n, Nat.succ_le_succ (ih hn).2⟩

/-- The chunks that are complete with a fragment of a stream, and what is left of it. -/
def scan (complete : Bytes → Bool) (seen current data : Bytes) : List Bytes × Bytes :=
  match h : nextSplitPoint complete seen data with
  | none => ([], current ++ data)
  | some cut =>
    have := nextSplitPoint_pos h
    let rest := scan complete (seen ++ data.take cut) [] (data.drop cut)
    ((current ++ data.take cut) :: rest.1, rest.2)
termination_by data.length

/-- The chunks of a stream that is read in fragments. -/
def readLoop (complete : Bytes → Bool) (seen current : Bytes) : List Bytes → List Bytes
  | [] => if current = [] then [] else [current]
  | data :: fragments =>
    let cut := scan complete seen current data
    cut.1 ++ readLoop complete (seen ++ data) cut.2 fragments

/-- The owner that a put is made for (`contextFor`). -/
def contextFor (key : SnapshotKey) (md : SnapshotMetadata) : String :=
  if md.tag "owner_context" ≠ "" then md.tag "owner_context" else key.ownerKey

namespace ChunkedStore

variable (c : ChunkedStore)

def split (data : Bytes) : List Bytes := splitFrom c.complete [] [] data

def codecFor (md : SnapshotMetadata) : CompressionAlgo :=
  if md.tag "store_uncompressed" ≠ "" then .none else c.policy md.format

def domainFor (key : SnapshotKey) : String :=
  if c.dedupDomain ≠ "" then c.dedupDomain else key.tenant

end ChunkedStore

/-- The metadata of a manifest: that of the object, with the format. -/
def manifestMeta (md : SnapshotMetadata) (m : ChunkManifest) : SnapshotMetadata :=
  { md with tags := Function.update md.tags "chunked_format" (some m.format.name) }

/-! ### Dedup sessions -/

/-- A put's view of the dedup index: the locations of the last manifest, or the dedup store. -/
inductive Session where
  | prior (index : String → Option PackRef)
  | global

/-- The pack references of the last manifest of a key; a later one replaces an earlier one. -/
def loadPriorIndex (latest : Option SnapshotVersion) (hash : String) : Option PackRef :=
  match latest with
  | none => none
  | some s =>
    if s.manifest.format ≠ .v2 then none
    else ((s.manifest.chunks.filter fun r => r.packHash ≠ "" ∧ r.packHash ≠ r.hash).reverse.find?
      fun r => r.hash = hash).map fun r => ⟨r.packHash, r.offset, r.size⟩

def newSession (kind : IndexKind) (key : SnapshotKey) : StoreProg Session :=
  match kind with
  | .priorManifest => do
    let latest ← issue (.getLatest key)
    pure (.prior (loadPriorIndex latest))
  | .global => pure .global

namespace Session

def lookup (s : Session) (domain hash : String) : StoreProg (Option PackRef) :=
  match s with
  | .prior index => pure (index hash)
  | .global => issue (.lookup domain hash)

/-- `Record`: only the dedup store is told later. -/
def record (s : Session) (pending : List ChunkLocation) (loc : ChunkLocation) :
    List ChunkLocation :=
  match s with
  | .prior _ => pending
  | .global => pending ++ [loc]

end Session

/-! ### Packing -/

/-- One object of a batch, as far as it has been processed. -/
structure ItemState where
  manifest : ChunkManifest
  session : Session
  pending : List ChunkLocation
  domain : String
  codec : CompressionAlgo

/-- A chunk in the pack buffer, and the reference that waits for the hash of the pack. -/
structure PackEntry where
  item : Nat
  manifestIdx : Nat
  offset : Int
  size : Int
  deriving DecidableEq, Repr

/-- The objects of a batch and the pack they share. -/
structure BatchState where
  items : List ItemState
  packBuf : Bytes
  packEntries : List PackEntry
  packDomain : String
  packCodec : CompressionAlgo

/-- A reference that is resolved at once. -/
def ItemState.append (st : ItemState) (ref : ChunkRef) : ItemState :=
  { st with
    manifest :=
      { st.manifest with
        chunks := st.manifest.chunks ++ [ref]
        totalSize := st.manifest.totalSize + ref.size } }

/-- Fill in the hash of a pack. -/
def ItemState.resolve (st : ItemState) (packHash : String) (e : PackEntry) : ItemState :=
  match st.manifest.chunks[e.manifestIdx]? with
  | none => st
  | some ref =>
    { st with
      manifest :=
        { st.manifest with chunks := st.manifest.chunks.set e.manifestIdx { ref with packHash } }
      pending := st.session.record st.pending ⟨ref.hash, packHash, e.offset, e.size⟩ }

/-- The extents of the chunks in the buffer. -/
def PackEntry.span (e : PackEntry) : PackSpan := ⟨e.offset, e.size⟩

/-- The entries of a pack that has been uploaded. -/
def resolveEntries (packHash : String) (entries : List PackEntry) (items : List ItemState) :
    List ItemState :=
  entries.foldl (fun items e => items.modify e.item fun st => st.resolve packHash e) items

namespace ChunkedStore

variable (c : ChunkedStore)

/-- Seal the pack: upload it and resolve its references. -/
def flushPack (b : BatchState) : StoreProg (Except PutErr BatchState) :=
  if b.packBuf = [] then pure (.ok b)
  else
    let packHash := c.sha b.packBuf
    match storePackBlob c.packCompression b.packBuf (b.packEntries.map PackEntry.span) b.packCodec with
    | none => pure (.error .badSpans)
    | some stored => do
      issue (.putIfAbsent (packBlobID b.packDomain packHash) stored)
      pure (.ok
        { b with
          items := resolveEntries packHash b.packEntries b.items
          packBuf := []
          packEntries := [] })

/-- A new chunk goes into the buffer; its reference waits for the pack. -/
def bufferChunk (i : Nat) (st : ItemState) (b : BatchState) (chunk : Bytes) : BatchState :=
  let b := if b.packBuf = [] then { b with packDomain := st.domain, packCodec := st.codec } else b
  { b with
    items := b.items.modify i fun st =>
      st.append ⟨c.sha chunk, "", b.packBuf.length, chunk.length⟩
    packBuf := b.packBuf ++ chunk
    packEntries := b.packEntries
      ++ [⟨i, st.manifest.chunks.length, b.packBuf.length, chunk.length⟩] }

/-- Process one chunk of the object `i`: reuse it, or pack it. -/
def emitChunk (i : Nat) (b : BatchState) (chunk : Bytes) : StoreProg (Except PutErr BatchState) :=
  match b.items[i]? with
  | none => pure (.ok b)
  | some st =>
    if chunk = [] then pure (.ok b)
    else do
      let found ← st.session.lookup st.domain (c.sha chunk)
      match found.filter fun ref => ref.packHash ≠ "" ∧ ref.packHash ≠ c.sha chunk with
      | some ref =>
        pure (.ok
          { b with
            items := b.items.modify i fun st =>
              st.append ⟨c.sha chunk, ref.packHash, ref.offset, ref.size⟩ })
      | none =>
        -- a pack has one domain and one codec
        orFail (if b.packBuf ≠ [] ∧ (st.domain ≠ b.packDomain ∨ st.codec ≠ b.packCodec)
            then c.flushPack b else pure (.ok b)) fun b =>
          let b := c.bufferChunk i st b chunk
          if (b.packBuf.length : Int) ≥ c.packTargetBytes then c.flushPack b else pure (.ok b)

/-- All chunks of one object. -/
def processItem (b : BatchState) (item : Nat × Bytes) : StoreProg (Except PutErr BatchState) :=
  foldOrFail (c.emitChunk item.1) (c.split item.2) b

/-! ### The end of a put -/

/-- The packs of the references, each once. -/
def packsOf (chunks : List ChunkRef) : List String :=
  ((chunks.map ChunkRef.packHash).filter (· ≠ "")).eraseDups

/-- Record that the owner holds the packs; only the dedup store can. -/
def associatePacks (domain packContext : String) (chunks : List ChunkRef) :
    StoreProg (Except PutErr Unit) :=
  if c.index = .priorManifest ∨ packContext = "" ∨ packsOf chunks = [] then pure (.ok ())
  else do
    let ok ← issue (.associate domain ((packsOf chunks).map fun p => ⟨p, packContext⟩))
    pure (if ok then .ok () else .error .packObliterating)

/-- `Commit`: tell the dedup store about the new chunks. -/
def commitSession (st : ItemState) : StoreProg Unit :=
  if st.pending = [] then pure () else issue (.record st.domain st.pending)

/-- Write a manifest and tag it. -/
def writeManifest (key : SnapshotKey) (md : SnapshotMetadata) (m : ChunkManifest) :
    StoreProg String :=
  issue (.putSnapshot key (manifestMeta md m) m)

/-- Finish one object of a batch. -/
def finishItem (versions : List String) (item : BatchPutItem × ItemState) :
    StoreProg (Except PutErr (List String)) := do
  commitSession item.2
  orFail (c.associatePacks item.2.domain (contextFor item.1.key item.1.md) item.2.manifest.chunks)
    fun _ => do
      let version ← writeManifest item.1.key item.1.md item.2.manifest
      pure (.ok (versions ++ [version]))

/-- Open the sessions of a batch. -/
def openItems : List BatchPutItem → StoreProg (List ItemState)
  | [] => pure []
  | item :: items => do
    let session ← newSession c.index item.key
    let rest ← openItems items
    pure (⟨⟨.v2, 0, c.domainFor item.key, []⟩, session, [], c.domainFor item.key, c.codecFor item.md⟩
      :: rest)

def putBatchV2 (items : List BatchPutItem) : StoreProg (Except PutErr (List String)) := do
  let states ← c.openItems items
  orFail (foldOrFail c.processItem ((List.range items.length).zip (items.map BatchPutItem.data))
      ⟨states, [], [], "", .none⟩) fun b =>
    orFail (c.flushPack b) fun b =>
      foldOrFail c.finishItem (items.zip b.items) []

/-! ### One blob per chunk -/

/-- A chunk with a blob of its own. -/
def emitV1 (domain : String) (codec : CompressionAlgo) (m : ChunkManifest) (chunk : Bytes) :
    StoreProg (Except PutErr ChunkManifest) := do
  issue (.putIfAbsent (chunkBlobID domain (c.sha chunk)) (compressPackBlob chunk codec))
  pure (.ok
    { m with
      chunks := m.chunks ++ [⟨c.sha chunk, "", 0, chunk.length⟩]
      totalSize := m.totalSize + chunk.length })

def putV1 (item : BatchPutItem) : StoreProg (Except PutErr String) :=
  let domain := c.domainFor item.key
  orFail (foldOrFail (c.emitV1 domain (c.codecFor item.md)) (c.split item.data) ⟨.v1, 0, domain, []⟩)
    fun m => do
      let version ← writeManifest item.key item.md m
      pure (.ok version)

/-! ### Operations -/

def putBatch (items : List BatchPutItem) : StoreProg (Except PutErr (List String)) :=
  if c.packTargetBytes = packingDisabled then
    foldOrFail (fun versions item => orFail (c.putV1 item) fun v => pure (.ok (versions ++ [v]))) items []
  else c.putBatchV2 items

def put (key : SnapshotKey) (md : SnapshotMetadata) (data : Bytes) :
    StoreProg (Except PutErr (List String)) :=
  c.putBatch [⟨key, md, data⟩]

/-- A manifest of chunks that are already stored. -/
def registerManifest (key : SnapshotKey) (md : SnapshotMetadata) (chunks : List ChunkLocation) :
    StoreProg (Except PutErr String) :=
  if chunks.any fun loc => loc.ref.packHash = "" then pure (.error .emptyPackHash)
  else if chunks.any fun loc => loc.ref.size ≤ 0 ∨ loc.ref.offset < 0 then pure (.error .invalidRange)
  else do
    let version ← writeManifest key md
      ⟨.v2, (chunks.map fun loc => loc.ref.size).sum, c.domainFor key,
        chunks.map fun loc => ⟨loc.chunkHash, loc.ref.packHash, loc.ref.offset, loc.ref.size⟩⟩
    pure (.ok version)

/-- Overlay tags, where an empty value deletes one. -/
def mergeTags (old : String → Option String) (tags : List (String × String)) :
    String → Option String :=
  tags.foldl (fun m kv => Function.update m kv.1 (if kv.2 = "" then none else some kv.2)) old

/-- A new version of the latest manifest, with other tags. -/
def updateLatestMeta (key : SnapshotKey) (tags : List (String × String)) :
    StoreProg (Except PutErr String) := do
  let latest ← issue (.getLatest key)
  match latest with
  | none => pure (.error .noSnapshot)
  | some s => do
    let version ← issue (.putSnapshot key { s.md with tags := mergeTags s.md.tags tags } s.manifest)
    pure (.ok version)

/-- Delete a manifest; blobs are left to others. -/
def delete (key : SnapshotKey) (version : String) : StoreProg Unit :=
  issue (.deleteSnapshot key version)

end ChunkedStore

end MemoryLayer.Snapshot
