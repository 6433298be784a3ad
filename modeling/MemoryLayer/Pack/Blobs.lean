import MemoryLayer.Pack.Index
import MemoryLayer.Pack.Reader

namespace MemoryLayer.Pack

open BigEndian Snapshot

/-! # Packs in a blob store

What a probe of a pack finds, and what its windows are, when the backend is a store of blobs that may
reject ranged reads.

- `BlobStore`: blobs, and the ranged reads that are rejected.
- `framingOf`: the framing of a pack, from its bytes.
- `probe_eq`: a probe finds this framing, or has the pack read as a whole.
- `Describes`: what a framing says about the content.
-/

/-- Blobs, and the ranged reads that are rejected even though the blob is there. -/
structure BlobStore where
  blobs : String → Option Bytes
  rejects : String → Int → Int → Bool

/-- Get a blob, or a range of it, which has to lie inside. -/
def BlobStore.get (s : BlobStore) : Backend := fun id off len =>
  match s.blobs id with
  | none => .error .notFound
  | some b =>
    if len < 0 then .ok b
    else if s.rejects id off len ∨ off < 0 ∨ (b.length : Int) < off + len then .error .other
    else .ok (window b off (off + len))

variable {s : BlobStore} {id : String} {b : Bytes} {framing : PackFraming}

theorem BlobStore.get_missing (h : s.blobs id = none) (off len : Int) :
    s.get id off len = .error .notFound := by
  unfold BlobStore.get
  rw [h]

theorem BlobStore.get_whole (h : s.blobs id = some b) :
    s.get id 0 (-1) = .ok b := by
  unfold BlobStore.get
  rw [h]
  rfl

/-- A ranged read of a blob that is there is rejected, or delivers the range. -/
theorem BlobStore.get_range (h : s.blobs id = some b)
    (off : Int) {len : Int} (hlen : 0 ≤ len) :
    s.get id off len = .error .other
      ∨ (0 ≤ off ∧ off + len ≤ b.length ∧ s.get id off len = .ok (window b off (off + len))) := by
  unfold BlobStore.get
  rw [h]
  dsimp only
  rw [if_neg (by omega)]
  split
  · exact .inl rfl
  · rename_i hnot
    rw [not_or, not_or] at hnot
    exact .inr ⟨by omega, by omega, rfl⟩

/-! ### The framing of a blob -/

/-- The framing of a pack, from all its bytes. -/
def framingOf (b : Bytes) : Except PackErr PackFraming :=
  match detectPackFraming b with
  | .error err => .error err
  | .ok framing =>
    if framing.algo ≠ .perChunk then .ok framing
    else if b.length < framing.bodyBase then .error .corrupt
    else (parsePackChunkIndex (window b packChunkedHeaderLen framing.bodyBase)).map fun entries =>
      { framing with chunked := entries }

/-- The long header is all that is read of a longer blob. -/
theorem detect_take (h : packChunkedHeaderLen ≤ b.length) :
    detectPackFraming (b.take packChunkedHeaderLen) = detectPackFraming b := by
  have hlen : (b.take packChunkedHeaderLen).length = packChunkedHeaderLen := by
    rw [List.length_take, Nat.min_eq_left h]
  have hget : ∀ i, i < packChunkedHeaderLen → (b.take packChunkedHeaderLen).getD i 0 = b.getD i 0 := by
    intro i hi
    rw [List.getD_eq_getElem?_getD, List.getElem?_take_of_lt hi, List.getD_eq_getElem?_getD]
  have hmagic : (b.take packChunkedHeaderLen).take packMagic.length = b.take packMagic.length := by
    rw [List.take_take]
    rfl
  have hindex : ((b.take packChunkedHeaderLen).drop (packHeaderLen + 1)).take 4
      = (b.drop (packHeaderLen + 1)).take 4 := by
    rw [List.drop_take, List.take_take]
    rfl
  unfold detectPackFraming
  rw [hlen, hmagic, hget _ (by decide), hget _ (by decide), hindex]
  have h5 : ¬ b.length < packHeaderLen := by
    have : packHeaderLen ≤ packChunkedHeaderLen := by decide
    omega
  have h10 : ¬ b.length < packChunkedHeaderLen := by omega
  have hshort : ¬ packChunkedHeaderLen < packHeaderLen := by decide
  simp only [h5, h10, hshort, false_or, if_false, Nat.lt_irrefl]

/-- What the short header says, the long one says as well. -/
theorem detect_take_short (h : packHeaderLen ≤ b.length)
    (hdetect : detectPackFraming (b.take packHeaderLen) = .ok framing) :
    detectPackFraming b = .ok framing ∧ framing.algo ≠ .perChunk := by
  have hlen : (b.take packHeaderLen).length = packHeaderLen := by
    rw [List.length_take, Nat.min_eq_left h]
  have hget : (b.take packHeaderLen).getD packMagic.length 0 = b.getD packMagic.length 0 := by
    rw [List.getD_eq_getElem?_getD, List.getElem?_take_of_lt (by decide), List.getD_eq_getElem?_getD]
  have hmagic : (b.take packHeaderLen).take packMagic.length = b.take packMagic.length := by
    rw [List.take_take]
    rfl
  -- too short for an index
  have hshort : packHeaderLen < packChunkedHeaderLen := by decide
  grind [detectPackFraming, PackFraming.plain]

/-- The header of a pack with an index says where the bodies begin. -/
theorem bodyBase_of_detect (h : detectPackFraming b = .ok framing) (halgo : framing.algo = .perChunk) :
    framing.bodyBase = packChunkedHeaderLen + framing.indexLen ∧ packChunkedHeaderLen ≤ b.length
      ∧ b.getD packMagic.length 0 = packCodecChunked
      ∧ ¬ (b.length < packHeaderLen ∨ b.take packMagic.length ≠ packMagic) := by
  grind [detectPackFraming, PackFraming.plain]

/-- The index of a pack, fetched by its length or all at once. -/
theorem resolveFraming_eq (h : s.blobs id = some b)
    {head : Bytes} (hhead : detectPackFraming head = detectPackFraming b)
    (hresolve : resolveFraming s.get id head = .ok framing) : framingOf b = .ok framing := by
  unfold resolveFraming at hresolve
  unfold framingOf
  rw [hhead] at hresolve
  obtain ⟨f, hdetect⟩ : ∃ f, detectPackFraming b = .ok f := by
    cases hdetect : detectPackFraming b with
    | error err => rw [hdetect] at hresolve; cases hresolve
    | ok f => exact ⟨f, rfl⟩
  rw [hdetect] at hresolve ⊢
  dsimp only at hresolve ⊢
  by_cases halgo : f.algo ≠ .perChunk
  · rw [if_pos halgo] at hresolve ⊢
    exact hresolve
  · obtain ⟨hbase, hlen, -, -⟩ := bodyBase_of_detect hdetect (not_not.mp halgo)
    rw [if_neg halgo] at hresolve ⊢
    by_cases hzero : f.indexLen = 0
    · rw [if_pos hzero] at hresolve
      rw [hzero, Nat.add_zero] at hbase
      have hempty : window b packChunkedHeaderLen f.bodyBase = [] := by
        rw [hbase]
        simp [window]
      rw [if_neg (by omega), hempty]
      exact hresolve
    · rw [if_neg hzero] at hresolve
      rcases BlobStore.get_range h packChunkedHeaderLen (Int.natCast_nonneg f.indexLen) with
        hget | ⟨-, hbound, hget⟩
      · rw [hget] at hresolve
        cases hresolve
      · rw [hget] at hresolve
        have hindex : window b packChunkedHeaderLen f.bodyBase
            = window b packChunkedHeaderLen (packChunkedHeaderLen + f.indexLen) := by
          rw [hbase, Int.natCast_add]
        rw [if_neg (by omega), hindex]
        exact hresolve

/-- **A probe finds the framing of the blob**, or has it read as a whole. -/
theorem probe_eq (h : s.blobs id = some b)
    (hprobe : probePackFraming s.get id = .ok framing) :
    framing = .plain .forceWholePack 0 ∨ framingOf b = .ok framing := by
  have hwindow : ∀ n : Nat, window b 0 (0 + n) = b.take n := by
    intro n
    simp [window]
  unfold probePackFraming at hprobe
  rcases BlobStore.get_range h 0 (Int.natCast_nonneg packChunkedHeaderLen) with
    hget | ⟨-, hbound, hget⟩
  · rw [hget] at hprobe
    dsimp only at hprobe
    rcases BlobStore.get_range h 0 (Int.natCast_nonneg packHeaderLen) with
      hget | ⟨-, hbound, hget⟩
    · rw [hget] at hprobe
      cases hprobe
      exact .inl rfl
    · rw [hget, hwindow] at hprobe
      refine .inr ?_
      dsimp only at hprobe
      unfold resolveFraming at hprobe
      split at hprobe
      · cases hprobe
      · rename_i f hdetect
        obtain ⟨hfull, halgo⟩ := detect_take_short (by omega) hdetect
        rw [if_pos halgo] at hprobe
        cases hprobe
        unfold framingOf
        rw [hfull]
        dsimp only
        rw [if_pos halgo]
  · rw [hget, hwindow] at hprobe
    exact .inr (resolveFraming_eq h (detect_take (by omega)) hprobe)

/-! ### What a framing says -/

/-- The framing says where plain content begins, and what the entries of an index decode to. -/
structure Describes (k : Codec) (b : Bytes) (framing : PackFraming) : Prop where
  plain : framing.algo = .codec .none →
    framing.contentBase ≤ b.length ∧ decompressPackBlob k b = .ok (b.drop framing.contentBase)
  perChunk : framing.algo = .perChunk → Follows 0 0 framing.chunked
    ∧ decompressPackBlob k b
      = materializeChunkedWindow k framing.chunked (b.drop framing.bodyBase) 0

theorem describes_forceWholePack (k : Codec) (b : Bytes) :
    Describes k b (.plain .forceWholePack 0) where
  plain h := by cases h
  perChunk h := by cases h

theorem decompress_of_detect_plain (k : Codec)
    (h : detectPackFraming b = .ok framing) (halgo : framing.algo = .codec .none) :
    framing.contentBase ≤ b.length ∧ decompressPackBlob k b = .ok (b.drop framing.contentBase) := by
  grind [detectPackFraming, decompressPackBlob, PackFraming.plain]

/-- The framing of a pack describes it. -/
theorem describes_of_framingOf (k : Codec)
    (h : framingOf b = .ok framing) : Describes k b framing := by
  unfold framingOf at h
  split at h
  · cases h
  · rename_i f hdetect
    split at h
    · rename_i halgo
      cases h
      exact ⟨decompress_of_detect_plain k hdetect, fun hchunked => absurd hchunked halgo⟩
    · rename_i halgo
      rw [ne_eq, not_not] at halgo
      obtain ⟨hbase, hlen, hcodec, hmagic⟩ := bodyBase_of_detect hdetect halgo
      split at h
      · cases h
      · rename_i hbody
        cases hparse : parsePackChunkIndex (window b packChunkedHeaderLen f.bodyBase) with
        | error err => rw [hparse] at h; cases h
        | ok entries =>
          rw [hparse] at h
          cases h
          refine ⟨fun hplain => absurd (halgo.symm.trans hplain) (by decide), fun _ =>
            ⟨?_, ?_⟩⟩
          · unfold parsePackChunkIndex at hparse
            split at hparse
            · cases hparse
            · exact follows_of_parseEntries hparse
          · rw [decompressPackBlob, if_neg hmagic, if_pos hcodec, decompressChunkedPackBlob, hdetect]
            dsimp only
            rw [if_neg hbody, hparse]

/-- The cache holds framings of the blobs that are there, or has them read as a whole. -/
def Coherent (s : BlobStore) (framings : FramingCache) : Prop :=
  ∀ id framing b, framings id = some framing → s.blobs id = some b →
    framing = .plain .forceWholePack 0 ∨ framingOf b = .ok framing

/-- The framing that a reader works with describes the blob. -/
theorem Coherent.describes (k : Codec) {framings : FramingCache} (h : Coherent s framings)
    (hb : s.blobs id = some b)
    (hframing : (framingFor s.get id framings).1 = .ok framing) : Describes k b framing := by
  have hcases : framing = .plain .forceWholePack 0 ∨ framingOf b = .ok framing := by
    unfold framingFor at hframing
    cases hcached : framings id with
    | some f =>
      rw [hcached] at hframing
      cases hframing
      exact h id framing b hcached hb
    | none =>
      rw [hcached] at hframing
      dsimp only at hframing
      split at hframing
      · cases hframing
      · rename_i f hprobe
        cases hframing
        exact probe_eq hb hprobe
  rcases hcases with rfl | hof
  · exact describes_forceWholePack k b
  · exact describes_of_framingOf k hof

/-- A look-up does not change what later look-ups find. -/
theorem framingFor_idem (get : Backend) (id id' : String) (framings : FramingCache) :
    (framingFor get id' (framingFor get id framings).2).1 = (framingFor get id' framings).1 := by
  unfold framingFor
  cases hcached : framings id with
  | some f => rfl
  | none =>
    dsimp only
    cases hprobe : probePackFraming get id with
    | error err => rfl
    | ok f =>
      dsimp only
      by_cases hid : id' = id
      · subst hid
        rw [Function.update_self, hcached]
        dsimp only
        rw [hprobe]
      · rw [Function.update_of_ne hid]
        cases framings id' with
        | some g => rfl
        | none =>
          dsimp only
          cases probePackFraming get id' <;> rfl

end MemoryLayer.Pack
