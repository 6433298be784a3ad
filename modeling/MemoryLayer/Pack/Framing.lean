import MemoryLayer.Lib.BigEndian
import MemoryLayer.Snapshot.Frame

namespace MemoryLayer.Pack

open BigEndian Snapshot

/-! # The bytes of a stored pack

How a pack is written and read back (`snapshot/store_compress.go`), byte by byte: a magic, a codec,
and the content, or an index of chunks that are compressed one by one.  Packs without the magic are
older than the framing, and are their own content.

- `Codec`: the compression libraries, as a parameter.
- `compressPackBlob`, `compressPackBlobChunked`, `storePackBlob`: the writers.
- `PackFraming`, `detectPackFraming`, `parsePackChunkIndex`: what the front of a pack says.
- `inflateChunkEntry`, `decompressPackBlob`: the content of a whole pack.
- `chunkedStoredSpan`, `materializeChunkedWindow`: the content of some chunks.
-/

/-- The compression libraries.  A stream that cannot be opened decodes to nothing; otherwise it
    decodes to some bytes, and ends cleanly or not. -/
structure Codec where
  compress : CompressionAlgo → Bytes → Bytes
  decompress : CompressionAlgo → Bytes → Option (Bytes × Bool)

/-- What was compressed is decompressed, and the stream ends there. -/
def Codec.Lossless (k : Codec) : Prop :=
  ∀ algo raw, algo ≠ .none → k.decompress algo (k.compress algo raw) = some (raw, true)

/-- A codec that compresses nothing. -/
def plainCodec : Codec := ⟨fun _ raw => raw, fun _ stored => some (stored, true)⟩

theorem plainCodec_lossless : plainCodec.Lossless := fun _ _ _ => rfl

/-- Why reading fails: the two errors that callers ask for, the others, and a slice whose bounds are
    the wrong way round. -/
inductive PackErr where
  | missingBlob
  | corrupt
  | other
  | sliceFault
  deriving DecidableEq, Repr

/-! ### Constants -/

def packMagic : Bytes := [67, 80, 75, 1]

/-- The magic and a codec. -/
def packHeaderLen : Nat := 5

/-- The magic, two codecs and the length of the index. -/
def packChunkedHeaderLen : Nat := 10

/-- The length of an entry of the index. -/
def packChunkEntryLen : Nat := 25

def packCodecNone : UInt8 := 0
def packCodecZstd : UInt8 := 1
def packCodecGzip : UInt8 := 2

/-- Each chunk is compressed on its own. -/
def packCodecChunked : UInt8 := 3

def packCodecByte : CompressionAlgo → UInt8
  | .gzip => packCodecGzip
  | .zstd => packCodecZstd
  | .none => packCodecNone

def packAlgoFromByte (b : UInt8) : Option CompressionAlgo :=
  if b = packCodecNone then some .none
  else if b = packCodecZstd then some .zstd
  else if b = packCodecGzip then some .gzip
  else none

@[simp] theorem packAlgoFromByte_packCodecByte (algo : CompressionAlgo) :
    packAlgoFromByte (packCodecByte algo) = some algo := by
  cases algo <;> decide

/-! ### Writing -/

/-- One codec for the whole content. -/
def compressPackBlob (k : Codec) (raw : Bytes) (algo : CompressionAlgo) : Bytes :=
  packMagic ++ packCodecByte algo :: if algo = .none then raw else k.compress algo raw

/-- An entry of the index: where a chunk lies in the content, and where in the bodies. -/
structure PackChunkEntry where
  uncOffset : Nat
  uncSize : Nat
  stoOffset : Nat
  stoSize : Nat
  codec : UInt8
  deriving DecidableEq, Repr

/-- A chunk as it is stored, and its codec; one that does not get smaller is stored as it is. -/
def compressChunkBody (k : Codec) (algo : CompressionAlgo) (chunk : Bytes) : Bytes × UInt8 :=
  let body := k.compress algo chunk
  if body.length ≥ chunk.length then (chunk, packCodecNone) else (body, packCodecByte algo)

/-- The entries and bodies of the chunks, where the next body begins at `stoOff`. -/
def layChunks (k : Codec) (algo : CompressionAlgo) (raw : Bytes) :
    Nat → List PackSpan → List (PackChunkEntry × Bytes)
  | _, [] => []
  | stoOff, sp :: spans =>
    let body := compressChunkBody k algo (window raw sp.offset (sp.offset + sp.size))
    (⟨sp.offset.toNat, sp.size.toNat, stoOff, body.1.length, body.2⟩, body.1)
      :: layChunks k algo raw (stoOff + body.1.length) spans

/-- An entry as bytes. -/
def PackChunkEntry.marshal (e : PackChunkEntry) : Bytes :=
  encode 8 e.uncOffset ++ (encode 4 e.uncSize ++ (encode 8 e.stoOffset ++ (encode 4 e.stoSize ++ [e.codec])))

/-- Each chunk compressed on its own, behind an index.  The length of the index is written into four
    bytes, whatever it is. -/
def compressPackBlobChunked (k : Codec) (raw : Bytes) (spans : List PackSpan)
    (algo : CompressionAlgo) : Option Bytes :=
  if algo = .none then some (compressPackBlob k raw algo)
  else if validatePackSpans raw.length 0 spans then
    let laid := layChunks k algo raw 0 spans
    some (packMagic ++ packCodecChunked :: packCodecByte algo ::
      (encode 4 (laid.length * packChunkEntryLen)
        ++ (laid.flatMap (fun x => x.1.marshal) ++ laid.flatMap Prod.snd)))
  else none

/-- Frame a pack. -/
def storePackBlob (k : Codec) (mode : PackCompressionMode) (raw : Bytes) (spans : List PackSpan)
    (codec : CompressionAlgo) : Option Bytes :=
  if codec = .none ∨ mode = .wholePack then some (compressPackBlob k raw codec)
  else compressPackBlobChunked k raw spans codec

/-! ### The front of a pack -/

/-- How the content is stored; the last is for packs that are too short to say. -/
inductive FramingAlgo where
  | codec (algo : CompressionAlgo)
  | perChunk
  | forceWholePack
  deriving DecidableEq, Repr

/-- The framing of a pack: where plain content begins; the compression class of a pack with an index,
    its length, where the bodies begin, and its entries. -/
structure PackFraming where
  algo : FramingAlgo
  contentBase : Nat
  chunkedCodec : CompressionAlgo
  indexLen : Nat
  bodyBase : Nat
  chunked : List PackChunkEntry
  deriving DecidableEq, Repr

/-- A framing without an index. -/
def PackFraming.plain (algo : FramingAlgo) (contentBase : Nat) : PackFraming :=
  ⟨algo, contentBase, .none, 0, 0, []⟩

/-- The framing, from the first bytes of a pack; the entries of an index are not known yet. -/
def detectPackFraming (head : Bytes) : Except PackErr PackFraming :=
  if head.length < packHeaderLen ∨ head.take packMagic.length ≠ packMagic then
    .ok (.plain (.codec .none) 0)
  else if head.getD packMagic.length 0 = packCodecChunked then
    if head.length < packChunkedHeaderLen then .error .other
    else match packAlgoFromByte (head.getD packHeaderLen 0) with
      | none => .error .other
      | some logical =>
        let indexLen := decode ((head.drop (packHeaderLen + 1)).take 4)
        if indexLen % packChunkEntryLen ≠ 0 then .error .other
        else .ok ⟨.perChunk, 0, logical, indexLen, packChunkedHeaderLen + indexLen, []⟩
  else match packAlgoFromByte (head.getD packMagic.length 0) with
    | none => .error .other
    | some algo => .ok (.plain (.codec algo) packHeaderLen)

/-- The entry that bytes spell. -/
def unmarshalEntry (b : Bytes) : PackChunkEntry where
  uncOffset := decode (b.take 8)
  uncSize := decode ((b.drop 8).take 4)
  stoOffset := decode ((b.drop 12).take 8)
  stoSize := decode ((b.drop 20).take 4)
  codec := b.getD 24 0

/-- The next `n` entries, which have to follow each other in the content and in the bodies. -/
def parseEntries : Nat → Nat → Nat → Bytes → Except PackErr (List PackChunkEntry)
  | 0, _, _, _ => .ok []
  | n + 1, nextUnc, nextSto, b =>
    let e := unmarshalEntry b
    if e.uncOffset ≠ nextUnc ∨ e.stoOffset ≠ nextSto ∨ packAlgoFromByte e.codec = none then
      .error .corrupt
    else (parseEntries n (nextUnc + e.uncSize) (nextSto + e.stoSize) (b.drop packChunkEntryLen)).map
      (e :: ·)

def parsePackChunkIndex (b : Bytes) : Except PackErr (List PackChunkEntry) :=
  if b.length % packChunkEntryLen ≠ 0 then .error .other
  else parseEntries (b.length / packChunkEntryLen) 0 0 b

/-! ### Reading -/

/-- The chunk of an entry, out of its stored body. -/
def decodeChunkBody (k : Codec) (e : PackChunkEntry) (src : Bytes) : Except PackErr Bytes :=
  match packAlgoFromByte e.codec with
  | none => .error .corrupt
  | some .none => if src.length ≠ e.uncSize then .error .corrupt else .ok src
  | some algo => match k.decompress algo src with
    | none => .error .other
    | some (out, _) =>
      -- how the stream ends is not looked at once there are enough bytes
      if out.length < e.uncSize then .error .other
      else if out.length > e.uncSize then .error .corrupt
      else .ok out

/-- The chunk of an entry, out of bodies of which those before `storedBase` are missing. -/
def inflateChunkEntry (k : Codec) (storedBase : Nat) (body : Bytes) (e : PackChunkEntry) :
    Except PackErr Bytes :=
  let start : Int := e.stoOffset - storedBase
  let stop := start + e.stoSize
  if start < 0 ∨ stop > body.length then .error .corrupt
  else decodeChunkBody k e (window body start stop)

/-- The content of entries that follow each other, out of the bodies from `storedBase` on. -/
def materializeChunkedWindow (k : Codec) (entries : List PackChunkEntry) (storedWindow : Bytes)
    (storedBase : Nat) : Except PackErr Bytes :=
  (entries.mapM (inflateChunkEntry k storedBase storedWindow)).map List.flatten

def decompressChunkedPackBlob (k : Codec) (stored : Bytes) : Except PackErr Bytes :=
  match detectPackFraming stored with
  | .error err => .error err
  | .ok framing =>
    if stored.length < framing.bodyBase then .error .corrupt
    else match parsePackChunkIndex (window stored packChunkedHeaderLen framing.bodyBase) with
      | .error err => .error err
      | .ok entries => materializeChunkedWindow k entries (stored.drop framing.bodyBase) 0

/-- The content of a pack. -/
def decompressPackBlob (k : Codec) (stored : Bytes) : Except PackErr Bytes :=
  if stored.length < packHeaderLen ∨ stored.take packMagic.length ≠ packMagic then .ok stored
  else if stored.getD packMagic.length 0 = packCodecChunked then decompressChunkedPackBlob k stored
  else match packAlgoFromByte (stored.getD packMagic.length 0) with
    | none => .error .other
    | some .none => .ok (stored.drop packHeaderLen)
    | some algo => match k.decompress algo (stored.drop packHeaderLen) with
      | some (out, true) => .ok out
      | _ => .error .other

/-- The stored range of a window of the content, and its entries.  The window has to begin and end
    with an entry. -/
def PackFraming.chunkedStoredSpan (f : PackFraming) (minOff maxEnd : Int) :
    Except PackErr (Nat × Nat × List PackChunkEntry) :=
  match f.chunked.dropWhile fun e => (e.uncOffset : Int) ≠ minOff with
  | [] => .error .corrupt
  | first :: rest =>
    let inside := (first :: rest).takeWhile fun e => (e.uncOffset : Int) < maxEnd
    match inside.getLast? with
    | none => .ok (0, 0, [])
    | some last =>
      if (last.uncOffset : Int) + last.uncSize ≠ maxEnd then .error .corrupt
      else .ok (first.stoOffset, last.stoOffset + last.stoSize - first.stoOffset, inside)

end MemoryLayer.Pack
