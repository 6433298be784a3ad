import MemoryLayer.Pack.Framing
import MemoryLayer.Snapshot.Store

namespace MemoryLayer.Pack

open Snapshot

/-! # Reading a snapshot

The reader that `Get` returns (`snapshot/store_chunked.go`).  It fetches runs of chunks that share a
pack, by the bytes that hold them where the framing of the pack permits, and hands them out chunk by
chunk.  The framings it finds are kept in a cache that all readers of a store share.

- `Backend`, `FramingCache`: what a reader asks.
- `probePackFraming`, `framingFor`: the framing of a pack.
- `loadPackRun`, `loadNextRun`: one run of chunks.
- `ChunkStreamReader`, `ChunkStreamReader.read`: the reader.
- `Delivers`: a reader that is read to its end.
-/

/-- Why a blob is not delivered. -/
inductive GetErr where
  | notFound
  | other
  deriving DecidableEq, Repr

/-- The error that a reader makes of it. -/
def GetErr.packErr : GetErr → PackErr
  | .notFound => .missingBlob
  | .other => .other

/-- The blob store: a blob's bytes from an offset on, of some length, or all of them when the length is
    negative. -/
abbrev Backend := String → Int → Int → Except GetErr Bytes

/-- The framings that were found so far. -/
abbrev FramingCache := String → Option PackFraming

/-- The error of a slice, for a pack. -/
def readErr : ReadErr → PackErr
  | .missingBlob => .missingBlob
  | .corrupt => .corrupt
  | .invalidWindow => .other
  | .sliceFault => .sliceFault

section Reader

variable (k : Codec) (sha : Bytes → String) (get : Backend)

/-- The chunks of a run out of the content of their pack, each checked against its hash. -/
def sliceRun (content : Bytes) (run : List ChunkRef) : Except PackErr (List Bytes) :=
  (sliceRunFromContent sha content run).mapError readErr

theorem sliceRun_eq_ok {sha : Bytes → String} {content : Bytes} {run : List ChunkRef}
    {chunks : List Bytes} :
    sliceRun sha content run = .ok chunks ↔ sliceRunFromContent sha content run = .ok chunks := by
  unfold sliceRun
  cases sliceRunFromContent sha content run <;> simp [Except.mapError]

variable (id : String)

/-- A blob as a whole, decompressed. -/
def wholeContent : Except PackErr Bytes :=
  match get id 0 (-1) with
  | .error err => .error err.packErr
  | .ok stored => decompressPackBlob k stored

/-! ### The framing of a pack -/

/-- The framing from the first bytes of a pack, with the entries of its index. -/
def resolveFraming (head : Bytes) : Except PackErr PackFraming :=
  match detectPackFraming head with
  | .error err => .error err
  | .ok framing =>
    if framing.algo ≠ .perChunk then .ok framing
    else if framing.indexLen = 0 then .ok { framing with chunked := [] }
    else match get id packChunkedHeaderLen framing.indexLen with
      | .error err => .error err.packErr
      | .ok index => (parsePackChunkIndex index).map fun entries => { framing with chunked := entries }

/-- Ask for the long header, and for the short one when that is rejected. -/
def probePackFraming : Except PackErr PackFraming :=
  match get id 0 packChunkedHeaderLen with
  | .ok head => resolveFraming get id head
  | .error .notFound => .error .missingBlob
  | .error .other => match get id 0 packHeaderLen with
    | .ok head => resolveFraming get id head
    | .error .notFound => .error .missingBlob
    | .error .other => .ok (.plain .forceWholePack 0)

/-- The cached framing, or that of a probe, which is then cached. -/
def framingFor (framings : FramingCache) : Except PackErr PackFraming × FramingCache :=
  match framings id with
  | some framing => (.ok framing, framings)
  | none => match probePackFraming get id with
    | .error err => (.error err, framings)
    | .ok framing => (.ok framing, Function.update framings id (some framing))

/-! ### Runs of chunks -/

/-- The reader's slot for the content of one pack. -/
abbrev PackSlot := Option (String × Bytes)

/-- A run out of a pack with an index, by the stored bytes of its window. -/
def loadChunkedPackRun (framing : PackFraming) (run : List ChunkRef)
    (minOff maxEnd : Int) : Except PackErr (List Bytes) :=
  match framing.chunkedStoredSpan minOff maxEnd with
  | .error err => .error err
  | .ok (storedOff, storedLen, inside) =>
    if storedLen = 0 then sliceRun sha [] (shiftRun run minOff)
    else match get id (framing.bodyBase + storedOff : Nat) storedLen with
      | .error err => .error err.packErr
      | .ok stored => match materializeChunkedWindow k inside stored storedOff with
        | .error err => .error err
        | .ok content => sliceRun sha content (shiftRun run minOff)

/-- A run out of the content of its whole pack, which is kept in the slot. -/
def loadCompressedPackRun (run : List ChunkRef) (cached : PackSlot) :
    Except PackErr (List Bytes) × PackSlot :=
  match wholeContent k get id with
  | .error err => (.error err, cached)
  | .ok raw => (sliceRun sha raw run, some (id, raw))

/-- A run, once the framing of its pack is known. -/
def loadFramedRun (framing : PackFraming) (run : List ChunkRef) (minOff maxEnd : Int)
    (cached : PackSlot) : Except PackErr (List Bytes) × PackSlot :=
  match framing.algo with
  | .perChunk => match loadChunkedPackRun k sha get id framing run minOff maxEnd with
    -- other failures may be those of a window that ends with the blob
    | .error .other => loadCompressedPackRun k sha get id run cached
    | out => (out, cached)
  | .codec .none => match get id (framing.contentBase + minOff) (maxEnd - minOff) with
    | .error .notFound => (.error .missingBlob, cached)
    | .error .other => loadCompressedPackRun k sha get id run cached
    | .ok content => (sliceRun sha content (shiftRun run minOff), cached)
  | _ => loadCompressedPackRun k sha get id run cached

/-- The chunks of a run of a pack that is not in the slot. -/
def fetchPackRun (ref : ChunkRef) (run : List ChunkRef) (framings : FramingCache)
    (cached : PackSlot) : Except PackErr (List Bytes) × FramingCache × PackSlot :=
  let minOff := runStart ref run
  let maxEnd := runEnd run
  if minOff < 0 ∨ maxEnd < minOff then (.error .other, framings, cached)
  else if maxEnd - minOff ≤ 0 then (sliceRun sha [] (shiftRun run minOff), framings, cached)
  else match framingFor get id framings with
    | (.error err, framings) => (.error err, framings, cached)
    | (.ok framing, framings) =>
      let out := loadFramedRun k sha get id framing run minOff maxEnd cached
      (out.1, framings, out.2)

/-- The chunks of a run, all of one pack. -/
def loadPackRun (ref : ChunkRef) (run : List ChunkRef) (framings : FramingCache)
    (cached : PackSlot) : Except PackErr (List Bytes) × FramingCache × PackSlot :=
  match cached with
  | some (cachedID, raw) =>
    if cachedID = id then (sliceRun sha raw run, framings, cached)
    else fetchPackRun k sha get id ref run framings cached
  | none => fetchPackRun k sha get id ref run framings cached

/-- A chunk with a blob of its own.  Its size is checked. -/
def loadStandaloneChunk (ref : ChunkRef) : Except PackErr Bytes :=
  match wholeContent k get id with
  | .error err => .error err
  | .ok got => if (got.length : Int) ≠ ref.size then .error .corrupt else .ok got

/-! ### The reader -/

/-- The ID of the blob that holds a chunk. -/
def refID (tenant : String) (ref : ChunkRef) : String :=
  if ref.packHash = "" then (chunkBlobID tenant ref.hash).render
  else (packBlobID tenant ref.packHash).render

/-- A reader: the chunks from the cursor on, those that are fetched, the rest of the one that is handed
    out, and the slot for a pack. -/
structure ChunkStreamReader where
  tenant : String
  rest : List ChunkRef
  queued : List Bytes
  current : Bytes
  cached : PackSlot
  deriving DecidableEq, Repr

/-- The reader of a manifest. -/
def newChunkStreamReader (m : ChunkManifest) : ChunkStreamReader := ⟨m.tenant, m.chunks, [], [], none⟩

namespace ChunkStreamReader

variable (r : ChunkStreamReader)

/-- Fetch the next run.  The cursor moves behind it, also when that fails. -/
def loadNextRun (framings : FramingCache) :
    Except PackErr Unit × ChunkStreamReader × FramingCache :=
  match r.rest with
  | [] => (.ok (), r, framings)
  | ref :: rest =>
    if ref.packHash = "" then
      match loadStandaloneChunk k get (refID r.tenant ref) ref with
      | .error err => (.error err, { r with rest := rest }, framings)
      | .ok chunk => (.ok (), { r with rest := rest, queued := [chunk] }, framings)
    else
      let run := ref :: rest.takeWhile fun s => s.packHash = ref.packHash
      let rest := rest.dropWhile fun s => s.packHash = ref.packHash
      match loadPackRun k sha get (refID r.tenant ref) ref run framings r.cached with
      | (.error err, framings, cached) => (.error err, { r with rest := rest, cached := cached }, framings)
      | (.ok chunks, framings, cached) =>
        (.ok (), { r with rest := rest, queued := chunks, cached := cached }, framings)

/-- Hand out up to `n` bytes of the current chunk. -/
def hand (n : Nat) : Bytes × ChunkStreamReader :=
  (r.current.take n, { r with current := r.current.drop n })

/-- Go on to the next fetched chunk. -/
def advance : ChunkStreamReader :=
  { r with current := r.queued.headD [], queued := r.queued.tail }

/-- Read up to `n` bytes; nothing at the end. -/
def read (n : Nat) (framings : FramingCache) :
    Except PackErr (Option Bytes) × ChunkStreamReader × FramingCache :=
  if r.current ≠ [] then (.ok (some (r.hand n).1), (r.hand n).2, framings)
  else if r.queued ≠ [] then (.ok (some (r.advance.hand n).1), (r.advance.hand n).2, framings)
  else if r.rest = [] then (.ok none, r, framings)
  else match r.loadNextRun k sha get framings with
    | (.error err, r, framings) => (.error err, r, framings)
    | (.ok _, r, framings) => (.ok (some (r.advance.hand n).1), (r.advance.hand n).2, framings)

end ChunkStreamReader

/-- A reader is read to its end, with buffers of any lengths and without an error.  Between the reads,
    others may change the cache as `others` says. -/
inductive Delivers (others : FramingCache → FramingCache → Prop) :
    ChunkStreamReader → FramingCache → Bytes → Prop where
  | eof {r r' : ChunkStreamReader} {framings framings' : FramingCache} {n : Nat}
      (h : r.read k sha get n framings = (.ok none, r', framings')) : Delivers others r framings []
  | more {r r' : ChunkStreamReader} {framings framings' framings'' : FramingCache} {n : Nat}
      {piece bytes : Bytes} (h : r.read k sha get n framings = (.ok (some piece), r', framings'))
      (hothers : others framings' framings'') (hrest : Delivers others r' framings'' bytes) :
      Delivers others r framings (piece ++ bytes)

end Reader

end MemoryLayer.Pack
