import MemoryLayer.Pack.Framing
import MemoryLayer.Snapshot.Store

namespace MemoryLayer.Pack

open Snapshot

/-! # Compressed snapshots

The decorator that compresses what is put into another store (`snapshot/store_compress.go`).  A tag says how to
read it back, and tags are copied from version to version with the rest of the metadata.

- `Upstream`: the store below.
- `CompressingStore`: `put` compresses and tags, and `get` reads as the tag says.
- `get_put_iff`: **what is put is read back, unless a store that does not compress is given a tag.**
-/

/-- The store below.  Under the version that a put returns are its bytes and its tags. -/
structure Upstream (S : Type) where
  put : S → SnapshotKey → SnapshotMetadata → Bytes → Option (String × S)
  get : S → SnapshotKey → String → Option (Bytes × SnapshotMetadata)
  kept : ∀ {s s' key md bytes version}, put s key md bytes = some (version, s') →
    ∃ md', get s' key version = some (bytes, md') ∧ md'.tags = md.tags

def tagCompression : String := "compression"

/-- The value of the tag. -/
def tagOf : CompressionAlgo → String
  | .none => "none"
  | .gzip => "gzip"
  | .zstd => "zstd"

/-- The codec that reads a tagged stream, and whether there is one. -/
def decompressorFor (tag : String) : Option CompressionAlgo :=
  if tag = tagOf .gzip then some .gzip else if tag = tagOf .zstd then some .zstd else none

/-- A stream that is decompressed to its end. -/
def decompressAll (k : Codec) (tag : String) (stored : Bytes) : Option Bytes :=
  (decompressorFor tag).bind fun algo =>
    (k.decompress algo stored).bind fun out => if out.2 then some out.1 else none

/-- The tag names no codec. -/
def NoCodec (tag : String) : Prop := tag = "" ∨ tag = tagOf .none

instance (tag : String) : Decidable (NoCodec tag) := inferInstanceAs (Decidable (_ ∨ _))

/-- What is read of a stored stream, by the tag. -/
def wrapReader (k : Codec) (stored : Bytes) (md : SnapshotMetadata) : Option Bytes :=
  if NoCodec (md.tag tagCompression) then some stored else decompressAll k (md.tag tagCompression) stored

structure CompressingStore (S : Type) where
  upstream : Upstream S
  algo : CompressionAlgo

namespace CompressingStore

variable {S : Type} (c : CompressingStore S) (k : Codec)

def put (s : S) (key : SnapshotKey) (md : SnapshotMetadata) (payload : Bytes) : Option (String × S) :=
  if c.algo = .none then c.upstream.put s key md payload
  else
    c.upstream.put s key { md with tags := Function.update md.tags tagCompression (some (tagOf c.algo)) }
      (k.compress c.algo payload)

/-- The configured codec plays no part in reading. -/
def get (s : S) (key : SnapshotKey) (version : String) : Option (Bytes × SnapshotMetadata) :=
  (c.upstream.get s key version).bind fun found => (wrapReader k found.1 found.2).map fun raw => (raw, found.2)

end CompressingStore

variable {S : Type} {algo : CompressionAlgo}

/-- Only the tags of the metadata matter to a reader. -/
theorem wrapReader_congr (k : Codec) (stored : Bytes) {md md' : SnapshotMetadata} (h : md'.tags = md.tags) :
    wrapReader k stored md' = wrapReader k stored md := by
  have htag : md'.tag = md.tag := by
    funext name
    rw [SnapshotMetadata.tag, SnapshotMetadata.tag, h]
  rw [wrapReader, wrapReader, htag]

theorem decompressorFor_tagOf (h : algo ≠ .none) :
    decompressorFor (tagOf algo) = some algo := by
  cases algo with
  | none => exact absurd rfl h
  | gzip => rfl
  | zstd => rfl

/-- What is compressed and tagged is read back. -/
theorem wrapReader_tagged {k : Codec} (hk : k.Lossless) (h : algo ≠ .none)
    (md : SnapshotMetadata) (payload : Bytes) :
    wrapReader k (k.compress algo payload)
      { md with tags := Function.update md.tags tagCompression (some (tagOf algo)) } = some payload := by
  have htag : SnapshotMetadata.tag { md with tags := Function.update md.tags tagCompression (some (tagOf algo)) }
      tagCompression = tagOf algo := by
    simp [SnapshotMetadata.tag]
  have hnamed : ¬ NoCodec (tagOf algo) := by
    cases algo with
    | none => exact absurd rfl h
    | gzip => decide
    | zstd => decide
  rw [wrapReader, htag, if_neg hnamed, decompressAll, decompressorFor_tagOf h, Option.bind_some,
    hk algo payload h]
  rfl

/-- **Compressed snapshots.**  A payload that is put is what is read back under its version, by a store with
    any codec, exactly when the store compresses it, or the metadata that it came with names no codec, or the
    codec that this names happens to decompress the payload to itself. -/
theorem get_put_iff (up : Upstream S) (k : Codec) (hk : k.Lossless) (algo algo' : CompressionAlgo) (s s' : S)
    (key : SnapshotKey) (md : SnapshotMetadata) (payload : Bytes) (version : String)
    (hput : CompressingStore.put ⟨up, algo⟩ k s key md payload = some (version, s')) :
    ((CompressingStore.get ⟨up, algo'⟩ k s' key version).map Prod.fst = some payload)
      ↔ algo ≠ .none ∨ NoCodec (md.tag tagCompression)
        ∨ decompressAll k (md.tag tagCompression) payload = some payload := by
  -- what is read is what the reader makes of the stored bytes and tags
  have hget : ∀ {md₁ bytes}, up.put s key md₁ bytes = some (version, s') →
      (CompressingStore.get ⟨up, algo'⟩ k s' key version).map Prod.fst = wrapReader k bytes md₁ := by
    intro md₁ bytes hstored
    obtain ⟨md', hfound, htags⟩ := up.kept hstored
    rw [CompressingStore.get, hfound, Option.bind_some, Option.map_map, ← wrapReader_congr k bytes htags]
    exact Option.map_id'
  unfold CompressingStore.put at hput
  by_cases hnone : algo = .none
  · rw [if_pos hnone] at hput
    rw [hget hput, wrapReader]
    split
    · rename_i hcodec
      exact iff_of_true rfl (.inr (.inl hcodec))
    · rename_i hcodec
      simp [hnone, hcodec]
  · rw [if_neg hnone] at hput
    rw [hget hput, wrapReader_tagged hk hnone]
    exact iff_of_true rfl (.inl hnone)

/-- A store that keeps what was put last. -/
def lastPut : Upstream (Option (Bytes × SnapshotMetadata)) where
  put _ _ md bytes := some ("v", some (bytes, md))
  get s _ _ := s
  kept h := by
    cases h
    exact ⟨_, rfl, rfl⟩

/-- A codec that puts a zero in front, and wants to find it there. -/
def markingCodec : Codec where
  compress _ raw := 0 :: raw
  decompress _ stored := match stored with
    | 0 :: raw => some (raw, true)
    | _ => none

/-- Metadata that was read with a codec is put back with one. -/
theorem get_put_retagged :
    (CompressingStore.get ⟨lastPut, .none⟩ markingCodec
        (some ([0, 1, 2], ⟨"", Function.update (fun _ => some "zstd") tagCompression (some "gzip")⟩))
        ⟨"", "", "", ""⟩ "v").map Prod.fst = some [1, 2] :=
  (get_put_iff lastPut markingCodec (fun _ _ _ => rfl) .gzip .none none _ ⟨"", "", "", ""⟩
    ⟨"", fun _ => some "zstd"⟩ [1, 2] "v" rfl).mpr (.inl (by decide))

/-- **A tag outlives its codec.**  A snapshot is put with a codec and read.  The store is then configured not to
    compress, and the snapshot is put back with the metadata that was read.  It cannot be read again. -/
theorem uncompressed_under_old_tag : ∃ s md s',
    CompressingStore.put ⟨lastPut, .zstd⟩ markingCodec none ⟨"", "", "", ""⟩ ⟨"", fun _ => none⟩ [1, 2]
        = some ("v", s)
      ∧ CompressingStore.get ⟨lastPut, .zstd⟩ markingCodec s ⟨"", "", "", ""⟩ "v" = some ([1, 2], md)
      ∧ CompressingStore.put ⟨lastPut, .none⟩ markingCodec s ⟨"", "", "", ""⟩ md [1, 2] = some ("v", s')
      ∧ CompressingStore.get ⟨lastPut, .none⟩ markingCodec s' ⟨"", "", "", ""⟩ "v" = none :=
  ⟨_, _, _, rfl, rfl, rfl, rfl⟩

end MemoryLayer.Pack
