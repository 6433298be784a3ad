import Mathlib.Data.List.Dedup
import MemoryLayer.Pack.Reader

namespace MemoryLayer.Pack

open Snapshot

/-! # Reading many snapshots at once

`GetLatestBatch` (`snapshot/batchget.go`) resolves the latest manifests of some keys and fetches each
blob once, for all chunks of all keys that it holds.  A key is left out of the result when one of its
blobs fails.

- `ChunkLoc`, `PackBucket`, `bucketsOf`: the chunks, by blob.
- `groupContiguousLocs`, `fetchGroups`: the chunks of a pack, by windows without gaps.
- `fetchPackBucket`, `fetchStandaloneBucket`: the chunks of one blob.
- `getLatestBatch`: the result.
-/

/-- A chunk of a key. -/
structure ChunkLoc (K : Type) where
  key : K
  idx : Nat
  ref : ChunkRef
  deriving DecidableEq, Repr

/-- The chunks that one blob holds, in a pack or as a blob of their own. -/
structure PackBucket (K : Type) where
  pid : String
  standalone : Bool
  locs : List (ChunkLoc K)
  deriving DecidableEq, Repr

section Batch

variable {K : Type} (k : Codec) (sha : Bytes → String) (get : Backend)

/-- The order of the chunks of a pack.  Chunks with the same offset come in any order. -/
structure Sorts (sort : List (ChunkLoc K) → List (ChunkLoc K)) : Prop where
  perm : ∀ locs, (sort locs).Perm locs
  sorted : ∀ locs, (sort locs).Pairwise fun l l' => l.ref.offset ≤ l'.ref.offset

/-! ### Grouping -/

/-- The chunks of a manifest, with the blobs that hold them. -/
def locsOf (s : K × ChunkManifest) : List (String × ChunkLoc K) :=
  s.2.chunks.zipIdx.map fun x => (refID s.2.tenant x.1, ⟨s.1, x.2, x.1⟩)

/-- All chunks, by blob. -/
def bucketsOf (states : List (K × ChunkManifest)) : List (PackBucket K) :=
  let locs := states.flatMap locsOf
  (locs.map Prod.fst).dedup.map fun id =>
    let mine := (locs.filter fun x => x.1 = id).map Prod.snd
    ⟨id, mine.head?.any fun l => l.ref.packHash = "", mine⟩

/-- The groups of the remaining chunks, where the last one so far ends at `curEnd`. -/
def groupFrom : List (ChunkLoc K) → Int → List (ChunkLoc K) → List (List (ChunkLoc K))
  | cur, _, [] => [cur]
  | cur, curEnd, l :: locs =>
    if l.ref.offset ≤ curEnd then groupFrom (cur ++ [l]) (max curEnd (l.ref.offset + l.ref.size)) locs
    else cur :: groupFrom [l] (l.ref.offset + l.ref.size) locs

/-- Chunks that touch or overlap, out of chunks in the order of their offsets. -/
def groupContiguousLocs : List (ChunkLoc K) → List (List (ChunkLoc K))
  | [] => []
  | l :: locs => groupFrom [l] (l.ref.offset + l.ref.size) locs

/-! ### One pack -/

/-- What is written for the chunks of a bucket. -/
abbrev Written (K : Type) := List (ChunkLoc K × Bytes)

/-- Write the chunks of a group, in its order. -/
def assignGroup (group : List (ChunkLoc K)) (chunks : Except PackErr (List Bytes)) :
    Except PackErr (Written K) :=
  chunks.map group.zip

/-- One group, out of the window that `fetch` delivers; nothing when the whole pack is to be fetched
    instead. -/
def fetchGroup (fetch : Int → Int → Except PackErr (Option Bytes)) (group : List (ChunkLoc K)) :
    Except PackErr (Option (Written K)) :=
  let run := group.map ChunkLoc.ref
  let minOff := (run.head?.map ChunkRef.offset).getD 0
  let maxEnd := runEnd run
  if maxEnd - minOff ≤ 0 then
    (assignGroup group (sliceRun sha [] (shiftRun run minOff))).map some
  else match fetch minOff maxEnd with
    | .error err => .error err
    | .ok none => .ok none
    | .ok (some content) =>
      (assignGroup group (sliceRun sha content (shiftRun run minOff))).map some

/-- One group after the other. -/
def fetchGroups (fetch : Int → Int → Except PackErr (Option Bytes)) :
    List (List (ChunkLoc K)) → Except PackErr (Option (Written K))
  | [] => .ok (some [])
  | group :: groups => match fetchGroup sha fetch group with
    | .error err => .error err
    | .ok none => .ok none
    | .ok (some written) => (fetchGroups fetch groups).map fun rest => rest.map (written ++ ·)

/-- The window of an uncompressed pack. -/
def fetchPlain (id : String) (framing : PackFraming) (minOff maxEnd : Int) :
    Except PackErr (Option Bytes) :=
  match get id (framing.contentBase + minOff) (maxEnd - minOff) with
  | .error .notFound => .error .missingBlob
  | .error .other => .ok none
  | .ok content => .ok (some content)

/-- The window of a pack with an index. -/
def fetchChunked (id : String) (framing : PackFraming) (minOff maxEnd : Int) :
    Except PackErr (Option Bytes) :=
  match framing.chunkedStoredSpan minOff maxEnd with
  | .error err => .error err
  | .ok (storedOff, storedLen, inside) =>
    match get id (framing.bodyBase + storedOff : Nat) storedLen with
    | .error .notFound => .error .missingBlob
    | .error .other => .ok none
    | .ok stored => (materializeChunkedWindow k inside stored storedOff).map some

/-- All chunks of a bucket, out of the whole pack. -/
def assignWholePack (id : String) (locs : List (ChunkLoc K)) : Except PackErr (Written K) :=
  match wholeContent k get id with
  | .error err => .error err
  | .ok raw => assignGroup locs (sliceRun sha raw (locs.map ChunkLoc.ref))

/-- The chunks of a bucket, group by group, and out of the whole pack when a window is not delivered. -/
def fetchRanged (id : String) (locs : List (ChunkLoc K))
    (fetch : Int → Int → Except PackErr (Option Bytes)) : Except PackErr (Written K) :=
  match fetchGroups sha fetch (groupContiguousLocs locs) with
  | .error err => .error err
  | .ok (some written) => .ok written
  | .ok none => assignWholePack k sha get id locs

/-- The chunks of a bucket, once the framing of the pack is known. -/
def fetchFramedBucket (id : String) (framing : PackFraming) (locs : List (ChunkLoc K)) :
    Except PackErr (Written K) :=
  match framing.algo with
  | .perChunk => fetchRanged k sha get id locs (fetchChunked k get id framing)
  | .codec .none => fetchRanged k sha get id locs (fetchPlain get id framing)
  | _ => assignWholePack k sha get id locs

/-- The chunks of a pack. -/
def fetchPackBucket (id : String) (locs : List (ChunkLoc K)) (framings : FramingCache) :
    Except PackErr (Written K) × FramingCache :=
  if ∃ l ∈ locs, l.ref.offset < 0 then (.error .other, framings)
  else match framingFor get id framings with
    | (.error err, framings) => (.error err, framings)
    | (.ok framing, framings) => (fetchFramedBucket k sha get id framing locs, framings)

/-- The chunks that have one blob of their own.  Their sizes are checked. -/
def fetchStandaloneBucket (id : String) (locs : List (ChunkLoc K)) : Except PackErr (Written K) :=
  match wholeContent k get id with
  | .error err => .error err
  | .ok got =>
    if ∀ l ∈ locs, (got.length : Int) = l.ref.size then .ok (locs.map fun l => (l, got))
    else .error .corrupt

/-! ### All keys -/

/-- One bucket. -/
def fetchBucket (sort : List (ChunkLoc K) → List (ChunkLoc K)) (b : PackBucket K)
    (framings : FramingCache) : Except PackErr (Written K) × FramingCache :=
  if b.standalone then (fetchStandaloneBucket k get b.pid b.locs, framings)
  else fetchPackBucket k sha get b.pid (sort b.locs) framings

/-- All buckets.  They are about different blobs, so their order does not matter. -/
def fetchBuckets (sort : List (ChunkLoc K) → List (ChunkLoc K)) :
    List (PackBucket K) → FramingCache →
      List (PackBucket K × Except PackErr (Written K)) × FramingCache
  | [], framings => ([], framings)
  | b :: bs, framings =>
    let out := fetchBucket k sha get sort b framings
    let rest := fetchBuckets sort bs out.2
    ((b, out.1) :: rest.1, rest.2)

/-- The bucket sliced with its bounds the wrong way round. -/
def faulted : PackBucket K × Except PackErr (Written K) → Bool
  | (_, .error .sliceFault) => true
  | _ => false

/-- What a bucket writes; one that fails may write something, but its keys are left out. -/
def writtenBy : PackBucket K × Except PackErr (Written K) → Written K
  | (_, .ok written) => written
  | (_, .error _) => []

variable [DecidableEq K]

/-- A blob of the key failed. -/
def failed (fetched : List (PackBucket K × Except PackErr (Written K))) (key : K) : Bool :=
  fetched.any fun x => x.2.toOption.isNone ∧ x.1.locs.any fun l => l.key = key

/-- The bytes of one chunk of a key. -/
def slot (fetched : List (PackBucket K × Except PackErr (Written K))) (key : K) (idx : Nat) : Bytes :=
  ((fetched.flatMap writtenBy).find? fun x => x.1.key = key ∧ x.1.idx = idx).elim [] Prod.snd

/-- The manifests of the keys that have one.  A payload that is not a manifest is dropped. -/
def resolveManifests (latest : K → Option (Option ChunkManifest)) (keys : List K) :
    List (K × ChunkManifest) :=
  keys.dedup.filterMap fun key => (latest key).join.map fun m => (key, m)

/-- The bytes of each key whose blobs can all be read; a slice fault takes the process down. -/
def getLatestBatch (sort : List (ChunkLoc K) → List (ChunkLoc K))
    (latest : K → Option (Option ChunkManifest)) (keys : List K) (framings : FramingCache) :
    Except PackErr (List (K × Bytes)) × FramingCache :=
  let states := resolveManifests latest keys
  let fetched := fetchBuckets k sha get sort (bucketsOf states) framings
  if fetched.1.any faulted then (.error .sliceFault, fetched.2)
  else
    (.ok (states.filterMap fun s =>
      if failed fetched.1 s.1 then none
      else some (s.1, (s.2.chunks.zipIdx.map fun x => slot fetched.1 s.1 x.2).flatten)), fetched.2)

end Batch

end MemoryLayer.Pack
