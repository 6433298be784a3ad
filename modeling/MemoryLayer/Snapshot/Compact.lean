import Mathlib.Data.List.Sort
import MemoryLayer.Snapshot.Put

namespace MemoryLayer.Snapshot

open Calls Prog

/-! # Compacting packs

The chunks of under-filled and of small packs are copied into new packs, the dedup store is told, and
the manifests of keys with a single version are rewritten (`compact.go`).  A pass deletes no pack.
What the source keeps in maps is read off the list of the live references, in the order in which they
were found; where the source iterates over a map, the order is a parameter.

- `CompactConfig`, `CompactResult`, `CompactErr`: the options, and how a pass ends.
- `livePacks`, `chunksIn`, `keysIn`, `candidates`: which packs are compacted, and what is live in them.
- `Consolidation`, `flushCodec`, `emitLive`, `consolidate`: the new packs, one buffer for each codec.
- `repoint`, `rewriteSelectedRefs`, `compact`: the rest of a pass.
-/

/-- The options; the comparison of floating-point fill ratios is left open. -/
structure CompactConfig where
  underFilled : (liveBytes size : Int) → Bool
  minPackBytes : Int
  maxBytesPerPass : Int
  safetyWindow : Int
  defrag : Bool

structure CompactResult where
  packsScanned : Nat
  packsSelected : Nat
  packsWritten : Nat
  manifestsRewritten : Nat
  bytesRewritten : Int
  deriving DecidableEq, Repr

/-- Why a pass fails. -/
inductive CompactErr where
  | fetchPack
  | outOfRange
  | badSpans
  | noSnapshot
  | noRelocation
  deriving DecidableEq, Repr

/-! ### Inventory -/

/-- What the listing says of a pack; a later entry replaces an earlier one. -/
def packInfo (listed : List BlobMetadata) (packHash : String) : Option BlobMetadata :=
  listed.reverse.find? fun md => md.id.packParts.map Prod.snd = some packHash

/-- A reference of a latest manifest, with its key. -/
abbrev LiveRef := SnapshotKey × ChunkRef

/-- The references of a manifest of the domain to packs that were listed. -/
def liveRefs (domain : String) (listed : List BlobMetadata) (key : SnapshotKey)
    (latest : Option SnapshotVersion) : List LiveRef :=
  match latest with
  | none => []
  | some s =>
    if s.manifest.format ≠ .v2 ∨ s.manifest.tenant ≠ domain then []
    else (s.manifest.chunks.filter fun r =>
      r.packHash ≠ "" ∧ (packInfo listed r.packHash).isSome).map fun r => (key, r)

/-- One snapshot of the walk: the latest manifest of a key that was not seen before. -/
def surveyOne (domain : String) (listed : List BlobMetadata) (acc : List SnapshotKey × List LiveRef)
    (s : SnapshotVersion) : StoreProg (List SnapshotKey × List LiveRef) :=
  if s.md.tag "chunked_format" ≠ ManifestFormat.v2.name ∨ s.key ∈ acc.1 then pure acc
  else do
    let latest ← issue (.getLatest s.key)
    pure (s.key :: acc.1, acc.2 ++ liveRefs domain listed s.key latest)

/-- The packs that are referred to, in order. -/
def livePacks (live : List LiveRef) : List String :=
  (live.map fun x => x.2.packHash).eraseDups.insertionSort (· ≤ ·)

/-- The live chunks of a pack, in the order of their hashes; of two references to a chunk the later
    one counts. -/
def chunksIn (live : List LiveRef) (packHash : String) : List ChunkRef :=
  let refs := (live.map Prod.snd).filter fun r => r.packHash = packHash
  (((refs.map ChunkRef.hash).eraseDups).insertionSort (· ≤ ·)).filterMap fun h =>
    refs.reverse.find? fun r => r.hash = h

/-- The keys whose manifests refer to a pack. -/
def keysIn (live : List LiveRef) (packHash : String) : List SnapshotKey :=
  ((live.filter fun x => x.2.packHash = packHash).map Prod.fst).eraseDups

def liveBytes (live : List LiveRef) (packHash : String) : Int :=
  ((chunksIn live packHash).map ChunkRef.size).sum

/-! ### Candidates -/

/-- The packs that are worth compacting, up to the cap on a pass. -/
def pickCandidates (cfg : CompactConfig) (listed : List BlobMetadata) (live : List LiveRef)
    (now : Int) : List String → List String × Int → List String × Int
  | [], acc => acc
  | packHash :: rest, acc =>
    match packInfo listed packHash with
    | none => pickCandidates cfg listed live now rest acc
    | some info =>
      let bytes := liveBytes live packHash
      if ¬ cfg.underFilled bytes info.length
          ∧ ¬ (0 < cfg.minPackBytes ∧ info.length < cfg.minPackBytes) then
        pickCandidates cfg listed live now rest acc
      else if 0 < cfg.safetyWindow ∧ now - info.timestamp < cfg.safetyWindow then
        pickCandidates cfg listed live now rest acc
      else if 0 < cfg.maxBytesPerPass ∧ acc.1 ≠ [] ∧ acc.2 + bytes > cfg.maxBytesPerPass then acc
      else pickCandidates cfg listed live now rest (acc.1 ++ [packHash], acc.2 + bytes)

/-- The packs that are compacted: none, unless there will be fewer packs than before. -/
def candidates (target : Int) (cfg : CompactConfig) (listed : List BlobMetadata)
    (live : List LiveRef) (now : Int) : List String :=
  let (picked, budget) := pickCandidates cfg listed live now (livePacks live) ([], 0)
  let estNewPacks := max 1 ((budget + target - 1).tdiv target)
  if picked.length < 2 ∨ estNewPacks ≥ picked.length then [] else picked

/-! ### Consolidation -/

/-- The chunks that wait for the next pack of one codec. -/
structure CodecBuf where
  buf : Bytes
  staged : List (String × PackSpan)

/-- The state of a consolidation: the buffers, the chunks that have been placed, and where the chunks
    of finished packs are now. -/
structure Consolidation where
  bufs : CompressionAlgo → CodecBuf
  placed : List String
  relocate : List ChunkLocation
  packsWritten : Nat
  bytesRewritten : Int

def Consolidation.empty : Consolidation := ⟨fun _ => ⟨[], []⟩, [], [], 0, 0⟩

namespace ChunkedStore

variable (c : ChunkedStore)

/-- Write the pack of one codec. -/
def flushCodec (domain : String) (st : Consolidation) (algo : CompressionAlgo) :
    StoreProg (Except CompactErr Consolidation) :=
  let cb := st.bufs algo
  if cb.buf = [] then pure (.ok st)
  else
    match storePackBlob c.packCompression cb.buf (cb.staged.map Prod.snd) algo with
    | none => pure (.error .badSpans)
    | some stored => do
      let packHash := c.sha cb.buf
      issue (.putIfAbsent (packBlobID domain packHash) stored)
      pure (.ok
        { st with
          bufs := Function.update st.bufs algo ⟨[], []⟩
          relocate := st.relocate
            ++ cb.staged.map fun s => ⟨s.1, packHash, s.2.offset, s.2.size⟩
          packsWritten := st.packsWritten + 1
          bytesRewritten := st.bytesRewritten + cb.buf.length })

/-- Add a chunk to the buffer of its codec. -/
def stage (st : Consolidation) (algo : CompressionAlgo) (hash : String) (data : Bytes) :
    Consolidation :=
  let cb := st.bufs algo
  { st with
    bufs := Function.update st.bufs algo
      ⟨cb.buf ++ data, cb.staged ++ [(hash, ⟨cb.buf.length, data.length⟩)]⟩
    placed := hash :: st.placed }

/-- Copy one chunk into the buffer of its codec. -/
def emitLive (domain : String) (st : Consolidation) (algo : CompressionAlgo) (hash : String)
    (data : Bytes) : StoreProg (Except CompactErr Consolidation) :=
  let st := stage st algo hash data
  if ((st.bufs algo).buf.length : Int) ≥ c.packTargetBytes then c.flushCodec domain st algo
  else pure (.ok st)

/-- Copy a chunk out of its pack, unless it has been placed. -/
def placeRef (domain : String) (blob : PackBlob) (st : Consolidation) (ref : ChunkRef) :
    StoreProg (Except CompactErr Consolidation) :=
  if ref.hash ∈ st.placed then pure (.ok st)
  else if ref.offset < 0 ∨ ref.offset + ref.size > blob.raw.length then pure (.error .outOfRange)
  else c.emitLive domain st blob.algo ref.hash (window blob.raw ref.offset (ref.offset + ref.size))

def fetchPackRaw (domain packHash : String) : StoreProg (Except CompactErr PackBlob) := do
  let blob ← issue (.getBlob (packBlobID domain packHash))
  pure (blob.elim (.error .fetchPack) .ok)

/-- All live chunks of one pack. -/
def consolidatePack (domain : String) (live : List LiveRef) (st : Consolidation)
    (packHash : String) : StoreProg (Except CompactErr Consolidation) :=
  orFail (fetchPackRaw domain packHash) fun blob =>
    foldOrFail (c.placeRef domain blob) (chunksIn live packHash) st

/-- One chunk of a file, with a cache of the packs that were fetched. -/
def consolidateRef (domain : String) (selected : List String)
    (acc : Consolidation × List (String × PackBlob)) (ref : ChunkRef) :
    StoreProg (Except CompactErr (Consolidation × List (String × PackBlob))) :=
  if ref.packHash ∉ selected ∨ ref.hash ∈ acc.1.placed then pure (.ok acc)
  else
    match acc.2.find? fun x => x.1 = ref.packHash with
    | some x => orFail (c.placeRef domain x.2 acc.1 ref) fun st => pure (.ok (st, acc.2))
    | none => orFail (fetchPackRaw domain ref.packHash) fun blob =>
      orFail (c.placeRef domain blob acc.1 ref) fun st =>
        pure (.ok (st, acc.2 ++ [(ref.packHash, blob)]))

/-- The files in the order of their owners. -/
def filesOf (order : List SnapshotKey → List SnapshotKey) (live : List LiveRef) :
    List SnapshotKey :=
  (order (live.map Prod.fst).eraseDups).insertionSort fun a b => a.ownerKey ≤ b.ownerKey

/-- Copy the live chunks of the selected packs, pack by pack or file by file. -/
def consolidate (cfg : CompactConfig) (order : List SnapshotKey → List SnapshotKey)
    (domain : String) (live : List LiveRef) (selected : List String) :
    StoreProg (Except CompactErr Consolidation) :=
  orFail
    (if cfg.defrag then
      orFail (foldOrFail (c.consolidateRef domain selected)
        ((filesOf order live).flatMap fun key => (live.filter fun x => x.1 = key).map Prod.snd)
        (.empty, [])) fun acc => pure (.ok acc.1)
    else foldOrFail (c.consolidatePack domain live) selected .empty)
    (foldOrFail (c.flushCodec domain) [.gzip, .none, .zstd])

/-! ### The dedup store and the manifests -/

/-- Move the entries of the compacted packs (`Repoint`); only the dedup store has any. -/
def repoint (domain : String) (relocate : List ChunkLocation) (selected : List String) :
    StoreProg Unit :=
  if c.index = .priorManifest ∨ relocate = [] then pure ()
  else do
    issue (.purgePacks domain selected)
    issue (.record domain relocate)

/-- The new location of a reference to a selected pack. -/
def relocateRef (selected : List String) (relocate : List ChunkLocation) (ref : ChunkRef) :
    Option ChunkRef :=
  if ref.packHash ∈ selected then
    (relocate.find? fun loc => loc.chunkHash = ref.hash).map fun loc =>
      { ref with packHash := loc.ref.packHash, offset := loc.ref.offset }
  else some ref

/-- Rewrite the manifest of a key with a single version. -/
def rewriteSelectedRefs (selected : List String) (relocate : List ChunkLocation)
    (key : SnapshotKey) : StoreProg (Except CompactErr Bool) := do
  let versions ← issue (.listVersions key)
  match versions with
  | [old] => do
    let latest ← issue (.getLatest key)
    match latest with
    | none => pure (.error .noSnapshot)
    | some s =>
      if s.manifest.format ≠ .v2 then pure (.ok false)
      else match s.manifest.chunks.mapM (relocateRef selected relocate) with
        | none => pure (.error .noRelocation)
        | some chunks =>
          if s.manifest.chunks.any fun r => r.packHash ∈ selected then do
            let _ ← issue (.putSnapshot key s.md { s.manifest with chunks })
            issue (.deleteSnapshot key old.version)
            pure (.ok true)
          else pure (.ok false)
  | _ => pure (.ok false)

/-- The keys to rewrite, each once. -/
def keysToRewrite (order : List SnapshotKey → List SnapshotKey) (live : List LiveRef)
    (selected : List String) : List SnapshotKey :=
  (selected.flatMap fun packHash => order (keysIn live packHash)).eraseDups

/-- Copy the selected packs and rewrite what refers to them. -/
def compactSelected (cfg : CompactConfig) (order : List SnapshotKey → List SnapshotKey)
    (domain : String) (live : List LiveRef) (selected : List String) (result : CompactResult) :
    StoreProg (Except CompactErr CompactResult) :=
  orFail (c.consolidate cfg order domain live selected) fun st => do
    c.repoint domain st.relocate selected
    orFail (foldOrFail (fun n key =>
        orFail (rewriteSelectedRefs selected st.relocate key) fun changed =>
          pure (.ok (if changed then n + 1 else n)))
      (keysToRewrite order live selected) 0) fun n =>
      pure (.ok
        { result with
          packsWritten := st.packsWritten
          bytesRewritten := st.bytesRewritten
          manifestsRewritten := n })

/-- One pass over a domain. -/
def compact (cfg : CompactConfig) (order : List SnapshotKey → List SnapshotKey) (domain : String) :
    StoreProg (Except CompactErr CompactResult) :=
  if c.packTargetBytes = packingDisabled then pure (.ok ⟨0, 0, 0, 0, 0⟩)
  else do
    let listed ← issue (.listBlobs (.ofTenant .pack domain))
    let scanned := (listed.filterMap fun md => md.id.packParts.map Prod.snd).eraseDups.length
    if scanned = 0 then pure (.ok ⟨0, 0, 0, 0, 0⟩)
    else do
      let snaps ← issue .walk
      let found ← fold (surveyOne domain listed) snaps ([], [])
      let now ← issue .clock
      let selected := candidates c.packTargetBytes cfg listed found.2 now
      if selected = [] then pure (.ok ⟨scanned, 0, 0, 0, 0⟩)
      else c.compactSelected cfg order domain found.2 selected ⟨scanned, selected.length, 0, 0, 0⟩

end ChunkedStore

end MemoryLayer.Snapshot
