import MemoryLayer.Pack.Index

namespace MemoryLayer.Pack

open BigEndian Snapshot

/-! # Packs read back

What is stored is read back, as a whole and in windows that begin and end with a chunk, as long as the
index is short enough for the four bytes of its length.

- `rangedWindow`: a window of the content, read through the index or straight from the bytes.
- `laid_spec`, `follows_layChunks`: what is written for the chunks.
- `roundTrips_chunked`, `not_decompress_of_overflow`: packs with an index, short and too long.
- `pack_round_trip`: **packs are read back exactly when their index fits.**
-/

/-- A window of the content by the bytes that hold it, and not by the whole pack, where the framing
    permits. -/
def rangedWindow (k : Codec) (stored : Bytes) (lo hi : Int) : Except PackErr Bytes :=
  match detectPackFraming (stored.take packChunkedHeaderLen) with
  | .error err => .error err
  | .ok framing => match framing.algo with
    | .codec .none => .ok (window stored (framing.contentBase + lo) (framing.contentBase + hi))
    | .perChunk =>
      match parsePackChunkIndex (window stored packChunkedHeaderLen framing.bodyBase) with
      | .error err => .error err
      | .ok entries =>
        match { framing with chunked := entries }.chunkedStoredSpan lo hi with
        | .error err => .error err
        | .ok (storedOff, storedLen, inside) =>
          materializeChunkedWindow k inside
            (window stored (framing.bodyBase + storedOff) (framing.bodyBase + (storedOff + storedLen)))
            storedOff
    | _ => (decompressPackBlob k stored).map fun raw => window raw lo hi

/-! ### What is written -/

section Laid

variable {k : Codec} {algo : CompressionAlgo} {raw : Bytes} {laid : List (PackChunkEntry × Bytes)}
  {spans : List PackSpan}

theorem validatePackSpans_le {n a : Int} {spans : List PackSpan}
    (h : validatePackSpans n a spans = true) : a ≤ n := by
  induction spans generalizing a with
  | nil => exact Int.le_of_eq (of_decide_eq_true h)
  | cons sp spans ih =>
    obtain ⟨hsize, -, hrest⟩ := of_decide_eq_true h
    have := ih hrest
    omega

theorem length_compressChunkBody_le (k : Codec) (algo : CompressionAlgo) (chunk : Bytes) :
    (compressChunkBody k algo chunk).1.length ≤ chunk.length := by
  unfold compressChunkBody
  dsimp only
  split
  · exact Nat.le_refl _
  · dsimp only
    omega

/-- **One chunk is read back** from its body. -/
theorem decode_compressChunkBody (hk : k.Lossless) (halgo : algo ≠ .none) {chunk : Bytes}
    {e : PackChunkEntry} (hsize : e.uncSize = chunk.length)
    (hcodec : e.codec = (compressChunkBody k algo chunk).2) :
    decodeChunkBody k e (compressChunkBody k algo chunk).1 = .ok chunk := by
  unfold compressChunkBody at hcodec ⊢
  dsimp only at hcodec ⊢
  unfold decodeChunkBody
  split at hcodec
  · rename_i hlarge
    rw [if_pos hlarge, hcodec]
    have : packAlgoFromByte packCodecNone = some .none := rfl
    simp [this, hsize]
  · rename_i hsmall
    rw [if_neg hsmall, hcodec]
    dsimp only
    rw [packAlgoFromByte_packCodecByte]
    cases algo with
    | none => exact absurd rfl halgo
    | gzip => simp [hk .gzip chunk halgo, hsize]
    | zstd => simp [hk .zstd chunk halgo, hsize]

/-- The span of an entry. -/
def PackChunkEntry.span (e : PackChunkEntry) : PackSpan := ⟨e.uncOffset, e.uncSize⟩

/-- A span begins where the last one ended. -/
theorem validatePackSpans_cons {n : Int} {a : Nat} {sp : PackSpan} {spans : List PackSpan}
    (h : validatePackSpans n a (sp :: spans) = true) :
    0 ≤ sp.size ∧ sp.offset = a ∧ validatePackSpans n (a + sp.size.toNat : Nat) spans = true := by
  obtain ⟨hsize, hoff, hrest⟩ := of_decide_eq_true h
  have hnext : ((a + sp.size.toNat : Nat) : Int) = a + sp.size := by omega
  exact ⟨hsize, hoff, hnext ▸ hrest⟩

section Spans

variable {n : Int} {a sto : Nat} (h : validatePackSpans n a spans = true)
include h

/-- The entries follow each other, as the spans do. -/
theorem follows_layChunks :
    Follows a sto ((layChunks k algo raw sto spans).map Prod.fst) := by
  induction spans generalizing a sto with
  | nil => trivial
  | cons sp spans ih =>
    obtain ⟨hsize, hoff, hrest⟩ := validatePackSpans_cons h
    refine ⟨by dsimp only; omega, rfl, ?_, ih hrest⟩
    dsimp only
    unfold compressChunkBody
    dsimp only
    split
    · change packAlgoFromByte packCodecNone ≠ none
      decide
    · simp

/-- The entries say where the spans are. -/
theorem map_span_layChunks : ((layChunks k algo raw sto spans).map Prod.fst).map PackChunkEntry.span = spans := by
  induction spans generalizing a sto with
  | nil => rfl
  | cons sp spans ih =>
    obtain ⟨hsize, hoff, hrest⟩ := validatePackSpans_cons h
    rw [layChunks, List.map_cons, List.map_cons, ih hrest]
    congr 1
    obtain ⟨off, size⟩ := sp
    simp only [PackChunkEntry.span, PackSpan.mk.injEq]
    dsimp only at hsize hoff
    omega

theorem length_layChunks : ((layChunks k algo raw sto spans).map Prod.fst).length = spans.length := by
  rw [← List.length_map, map_span_layChunks h]

theorem uncTotal_layChunks : ((a + uncTotal ((layChunks k algo raw sto spans).map Prod.fst) : Nat) : Int) = n := by
  induction spans generalizing a sto with
  | nil => exact of_decide_eq_true h
  | cons sp spans ih =>
    rw [← ih (validatePackSpans_cons h).2.2, layChunks, List.map_cons, uncTotal_cons, Nat.add_assoc]

end Spans

/-- What is written for a chunk. -/
structure Laid (k : Codec) (raw : Bytes) (x : PackChunkEntry × Bytes) : Prop where
  end_le : x.1.uncOffset + x.1.uncSize ≤ raw.length
  stoSize : x.1.stoSize = x.2.length
  le : x.1.stoSize ≤ x.1.uncSize
  sto_le : x.1.stoOffset ≤ x.1.uncOffset
  decodes : decodeChunkBody k x.1 x.2
    = .ok (window raw x.1.uncOffset (x.1.uncOffset + x.1.uncSize : Nat))

theorem laid_spec (hk : k.Lossless) (halgo : algo ≠ .none) {a sto : Nat} {spans : List PackSpan}
    (h : validatePackSpans raw.length a spans = true) (hsto : sto ≤ a) :
    ∀ x ∈ layChunks k algo raw sto spans, Laid k raw x := by
  induction spans generalizing a sto with
  | nil => simp [layChunks]
  | cons sp spans ih =>
    obtain ⟨hsize, hoff, hrest⟩ := validatePackSpans_cons h
    have hend := validatePackSpans_le hrest
    have hlen : (window raw sp.offset (sp.offset + sp.size)).length = sp.size.toNat := by
      have hwindow : ((window raw sp.offset (sp.offset + sp.size)).length : Int)
          = sp.offset + sp.size - sp.offset := length_window (by omega) (by omega) (by omega)
      omega
    have hbody := length_compressChunkBody_le k algo (window raw sp.offset (sp.offset + sp.size))
    intro x hx
    rcases List.mem_cons.mp hx with rfl | hx
    · refine ⟨by dsimp only; omega, rfl, by dsimp only; omega, by dsimp only; omega, ?_⟩
      have hwin : window raw sp.offset.toNat (sp.offset.toNat + sp.size.toNat : Nat)
          = window raw sp.offset (sp.offset + sp.size) := by
        congr 1 <;> omega
      dsimp only
      rw [hwin]
      exact decode_compressChunkBody hk halgo hlen.symm rfl
    · exact ih hrest (by omega) x hx

theorem stoTotal_laid (h : ∀ x ∈ laid, x.1.stoSize = x.2.length) :
    stoTotal (laid.map Prod.fst) = (laid.flatMap Prod.snd).length := by
  induction laid with
  | nil => rfl
  | cons x laid ih =>
    rw [List.map_cons, stoTotal_cons, List.flatMap_cons, List.length_append,
      ih fun y hy => h y (List.mem_cons_of_mem _ hy), h x (List.mem_cons_self ..)]

/-- **Every chunk is read back** from the bodies. -/
theorem inflate_laid (hlaid : ∀ x ∈ laid, Laid k raw x)
    (hfollows : Follows 0 0 (laid.map Prod.fst)) :
    ∀ e ∈ laid.map Prod.fst, inflateChunkEntry k 0 (laid.flatMap Prod.snd) e
      = .ok (window raw e.uncOffset (e.uncOffset + e.uncSize : Nat)) := by
  intro e he
  obtain ⟨x, hx, rfl⟩ := List.mem_map.mp he
  obtain ⟨before, after, rfl⟩ := List.append_of_mem hx
  have hstos : ∀ y ∈ before, y.1.stoSize = y.2.length := fun y hy =>
    (hlaid y (List.mem_append_left _ hy)).stoSize
  have hspec := hlaid x hx
  rw [List.map_append, List.map_cons] at hfollows
  have hoff : x.1.stoOffset = (before.flatMap Prod.snd).length := by
    rw [(follows_append.mp hfollows).2.2.1, stoTotal_laid hstos, Nat.zero_add]
  -- the body stands where the entry says
  have hwin : window ((before ++ x :: after).flatMap Prod.snd) x.1.stoOffset
      (x.1.stoOffset + x.1.stoSize : Nat) = x.2 := by
    rw [window_eq, hoff, List.flatMap_append, List.flatMap_cons, List.drop_left, Nat.add_sub_cancel_left,
      hspec.stoSize, List.take_left]
  rw [inflateChunkEntry_eq, hwin, hspec.decodes]
  rw [hoff, hspec.stoSize, List.flatMap_append, List.flatMap_cons]
  simp only [List.length_append]
  omega

end Laid

/-! ### Packs with an index -/

/-- The front of a pack with an index. -/
def chunkedHeader (algo : CompressionAlgo) (indexLen : Nat) : Bytes :=
  packMagic ++ packCodecChunked :: packCodecByte algo :: encode 4 indexLen

@[simp] theorem length_chunkedHeader (algo : CompressionAlgo) (indexLen : Nat) :
    (chunkedHeader algo indexLen).length = packChunkedHeaderLen := by
  simp [chunkedHeader, packMagic, packChunkedHeaderLen]

theorem detect_chunked (algo : CompressionAlgo) (indexLen : Nat) (rest : Bytes) :
    detectPackFraming (chunkedHeader algo indexLen ++ rest)
      = if indexLen % 256 ^ 4 % packChunkEntryLen ≠ 0 then .error .other
        else .ok ⟨.perChunk, 0, algo, indexLen % 256 ^ 4, packChunkedHeaderLen + indexLen % 256 ^ 4,
          []⟩ := by
  have hlen : (chunkedHeader algo indexLen ++ rest).length = packChunkedHeaderLen + rest.length := by
    simp
  have hmagic : (chunkedHeader algo indexLen ++ rest).take packMagic.length = packMagic := rfl
  have hcodec : (chunkedHeader algo indexLen ++ rest).getD packMagic.length 0 = packCodecChunked := rfl
  have hlogical : (chunkedHeader algo indexLen ++ rest).getD packHeaderLen 0 = packCodecByte algo := rfl
  have hindex : ((chunkedHeader algo indexLen ++ rest).drop (packHeaderLen + 1)).take 4
      = encode 4 indexLen := by
    change (encode 4 indexLen ++ rest).take 4 = _
    exact List.take_left' (length_encode ..)
  have hlong : packHeaderLen ≤ packChunkedHeaderLen := by decide
  unfold detectPackFraming
  rw [if_neg (by rw [hlen, hmagic]; simp; omega), if_pos hcodec, if_neg (by rw [hlen]; omega), hlogical,
    packAlgoFromByte_packCodecByte]
  dsimp only
  rw [hindex, decode_encode]

theorem compressPackBlobChunked_eq {k : Codec} {raw : Bytes} {spans : List PackSpan}
    {algo : CompressionAlgo} (halgo : algo ≠ .none)
    (hspans : validatePackSpans raw.length 0 spans = true) :
    compressPackBlobChunked k raw spans algo
      = some (chunkedHeader algo (spans.length * packChunkEntryLen)
        ++ (((layChunks k algo raw 0 spans).map Prod.fst).flatMap PackChunkEntry.marshal
          ++ (layChunks k algo raw 0 spans).flatMap Prod.snd)) := by
  have hlen : (layChunks k algo raw 0 spans).length = spans.length := by
    have hlen : ((layChunks k algo raw 0 spans).map Prod.fst).length = spans.length :=
      length_layChunks (a := 0) hspans
    simpa using hlen
  rw [compressPackBlobChunked, if_neg halgo, if_pos hspans]
  dsimp only
  rw [hlen, chunkedHeader, List.flatMap_map]
  simp

/-- The content of a pack with an index. -/
theorem decompressPackBlob_chunkedHeader (k : Codec) (algo : CompressionAlgo) (indexLen : Nat)
    (rest : Bytes) :
    decompressPackBlob k (chunkedHeader algo indexLen ++ rest)
      = decompressChunkedPackBlob k (chunkedHeader algo indexLen ++ rest) := by
  have hmagic : (chunkedHeader algo indexLen ++ rest).take packMagic.length = packMagic := rfl
  have hcodec : (chunkedHeader algo indexLen ++ rest).getD packMagic.length 0 = packCodecChunked := rfl
  have hlong : packHeaderLen ≤ packChunkedHeaderLen := by decide
  unfold decompressPackBlob
  rw [if_neg, if_pos hcodec]
  rw [hmagic, List.length_append, length_chunkedHeader]
  simp only [ne_eq, not_true_eq_false, or_false]
  omega

theorem length_flatMap_marshal (entries : List PackChunkEntry) :
    (entries.flatMap PackChunkEntry.marshal).length = entries.length * packChunkEntryLen := by
  induction entries with
  | nil => simp
  | cons e entries ih =>
    rw [List.flatMap_cons, List.length_append, ih, length_marshal, List.length_cons, Nat.succ_mul,
      Nat.add_comm]

variable {k : Codec} {entries : List PackChunkEntry} {e : PackChunkEntry} {out : Bytes}

theorem parsePackChunkIndex_marshal (h : Follows 0 0 entries)
    (hfits : ∀ e ∈ entries, e.Fits) :
    parsePackChunkIndex (entries.flatMap PackChunkEntry.marshal) = .ok entries := by
  have hparse := parseEntries_marshal h hfits []
  rw [List.append_nil] at hparse
  have hpos : 0 < packChunkEntryLen := by decide
  rw [parsePackChunkIndex, length_flatMap_marshal, if_neg (by simp), Nat.mul_div_cancel _ hpos, hparse]

/-- What is read has the length that the entries say. -/
theorem length_decodeChunkBody {src : Bytes}
    (h : decodeChunkBody k e src = .ok out) : out.length = e.uncSize := by
  unfold decodeChunkBody at h
  split at h
  · cases h
  · split at h
    · cases h
    · rename_i hlen
      cases h
      exact not_not.mp hlen
  · split at h
    · cases h
    · split at h
      · cases h
      · split at h
        · cases h
        · cases h
          omega

theorem length_inflateChunkEntry {base : Nat} {body : Bytes}
    (h : inflateChunkEntry k base body e = .ok out) : out.length = e.uncSize := by
  unfold inflateChunkEntry at h
  dsimp only at h
  split at h
  · cases h
  · exact length_decodeChunkBody h

theorem length_materialize {body : Bytes} {base : Nat}
    (h : materializeChunkedWindow k entries body base = .ok out) :
    out.length = uncTotal entries := by
  cases hchunks : entries.mapM (inflateChunkEntry k base body) with
  | error err =>
    rw [materializeChunkedWindow, hchunks] at h
    cases h
  | ok chunks =>
    rw [materializeChunkedWindow, hchunks] at h
    cases h
    rw [mapM_ok_iff] at hchunks
    induction hchunks with
    | nil => rfl
    | cons hhead _ ih =>
      rw [List.flatten_cons, List.length_append, ih, length_inflateChunkEntry hhead, uncTotal_cons]

/-! ### Round trips -/

/-- The window begins with one of the spans and ends with one. -/
def Spanned (spans : List PackSpan) (lo hi : Nat) : Prop :=
  (∃ sp ∈ spans, sp.offset = lo) ∧ (∃ sp ∈ spans, sp.offset + sp.size = hi) ∧ lo ≤ hi

/-- What is stored is read back, as a whole and in windows. -/
def RoundTrips (k : Codec) (mode : PackCompressionMode) (raw : Bytes) (spans : List PackSpan)
    (codec : CompressionAlgo) : Prop :=
  ∃ stored, storePackBlob k mode raw spans codec = some stored ∧ decompressPackBlob k stored = .ok raw
    ∧ ∀ lo hi, Spanned spans lo hi → rangedWindow k stored lo hi = .ok (window raw lo hi)

/-- There is no index, or its length can be written into four bytes. -/
def IndexFits (mode : PackCompressionMode) (spans : List PackSpan) (codec : CompressionAlgo) : Prop :=
  codec = .none ∨ mode = .wholePack ∨ spans.length * packChunkEntryLen < 256 ^ 4

/-- The content of a pack without an index. -/
theorem decompress_compressPackBlob (hk : k.Lossless) (raw : Bytes)
    (codec : CompressionAlgo) : decompressPackBlob k (compressPackBlob k raw codec) = .ok raw := by
  cases codec with
  | none => simp [decompressPackBlob, compressPackBlob, packMagic, packHeaderLen, packCodecByte,
      packCodecNone, packCodecChunked, packAlgoFromByte]
  | gzip => simp [decompressPackBlob, compressPackBlob, packMagic, packHeaderLen, packCodecByte,
      packCodecNone, packCodecZstd, packCodecGzip, packCodecChunked, packAlgoFromByte,
      hk .gzip raw (by decide)]
  | zstd => simp [decompressPackBlob, compressPackBlob, packMagic, packHeaderLen, packCodecByte,
      packCodecNone, packCodecZstd, packCodecChunked, packAlgoFromByte, hk .zstd raw (by decide)]

/-- The framing of a pack without an index. -/
theorem detect_compressPackBlob (k : Codec) (raw : Bytes) (codec : CompressionAlgo) :
    detectPackFraming ((compressPackBlob k raw codec).take packChunkedHeaderLen)
      = .ok (.plain (.codec codec) packHeaderLen) := by
  cases codec <;>
    simp [detectPackFraming, compressPackBlob, packMagic, packHeaderLen, packChunkedHeaderLen,
      packCodecByte, packCodecNone, packCodecZstd, packCodecGzip, packCodecChunked, packAlgoFromByte]

/-- A window of a pack without an index. -/
theorem rangedWindow_compressPackBlob (hk : k.Lossless) (raw : Bytes)
    (codec : CompressionAlgo) (lo hi : Nat) :
    rangedWindow k (compressPackBlob k raw codec) lo hi = .ok (window raw lo hi) := by
  unfold rangedWindow
  rw [detect_compressPackBlob, decompress_compressPackBlob hk]
  cases codec with
  | none =>
    -- the content begins behind the header
    have hdrop : (compressPackBlob k raw .none).drop packHeaderLen = raw := rfl
    change Except.ok (window (compressPackBlob k raw .none) ((packHeaderLen : Nat) + (lo : Int))
      ((packHeaderLen : Nat) + (hi : Int))) = _
    have hlo : ((packHeaderLen : Nat) : Int) + lo = (packHeaderLen + lo : Nat) := by omega
    have hhi : ((packHeaderLen : Nat) : Int) + hi = (packHeaderLen + hi : Nat) := by omega
    rw [hlo, hhi, window_eq, window_eq, ← List.drop_drop, hdrop, Nat.add_sub_add_left]
  | gzip => rfl
  | zstd => rfl

/-- The content of a pack from before the framing. -/
theorem legacy_round_trip (k : Codec) {stored : Bytes} (h : ¬ packMagic <+: stored) :
    decompressPackBlob k stored = .ok stored
      ∧ ∀ lo hi : Nat, rangedWindow k stored lo hi = .ok (window stored lo hi) := by
  have hmagic : stored.take packMagic.length ≠ packMagic := fun htake =>
    h (List.prefix_iff_eq_take.mpr htake.symm)
  have hshort : (stored.take packChunkedHeaderLen).take packMagic.length ≠ packMagic := by
    rw [List.take_take]
    exact hmagic
  refine ⟨by rw [decompressPackBlob, if_pos (.inr hmagic)], fun lo hi => ?_⟩
  unfold rangedWindow
  rw [detectPackFraming, if_pos (.inr hshort)]
  change Except.ok (window stored (((0 : Nat) : Int) + lo) (((0 : Nat) : Int) + hi)) = _
  rw [Int.natCast_zero, Int.zero_add, Int.zero_add]

/-! ### Packs with an index, continued -/

section Chunked

variable {algo : CompressionAlgo} {raw : Bytes} {spans : List PackSpan}

/-- The index behind a header. -/
theorem window_index {pre index : Bytes} {m n : Nat} (hpre : pre.length = m) (hindex : index.length = n)
    (bodies : Bytes) : window (pre ++ (index ++ bodies)) m (m + n : Nat) = index := by
  rw [window_eq, List.drop_left' hpre, Nat.add_sub_cancel_left, List.take_left' hindex]

/-- The bodies behind a header and an index. -/
theorem drop_bodies {pre index : Bytes} {m n : Nat} (hpre : pre.length = m) (hindex : index.length = n)
    (bodies : Bytes) : (pre ++ (index ++ bodies)).drop (m + n) = bodies := by
  rw [← List.append_assoc]
  exact List.drop_left' (by rw [List.length_append, hpre, hindex])

theorem window_drop (content : Bytes) (m lo hi : Nat) :
    window content (m + lo : Nat) (m + hi : Nat) = window (content.drop m) lo hi := by
  rw [window_eq, window_eq, List.drop_drop, Nat.add_sub_add_left]

/-- **Reading a pack with an index** whose length is written in full. -/
theorem read_chunked (algo : CompressionAlgo) {bodies : Bytes} (hfollows : Follows 0 0 entries)
    (hfits : ∀ e ∈ entries, e.Fits)
    (hread : ∀ e ∈ entries, inflateChunkEntry k 0 bodies e
      = .ok (window raw e.uncOffset (e.uncOffset + e.uncSize : Nat)))
    (hunc : uncTotal entries = raw.length) (hsto : stoTotal entries ≤ bodies.length)
    (hfit : entries.length * packChunkEntryLen < 256 ^ 4) :
    let stored := chunkedHeader algo (entries.length * packChunkEntryLen)
      ++ (entries.flatMap PackChunkEntry.marshal ++ bodies)
    decompressPackBlob k stored = .ok raw ∧ ∀ lo hi : Nat, (∃ e ∈ entries, e.uncOffset = lo) →
      (∃ e ∈ entries, e.uncOffset + e.uncSize = hi) → lo ≤ hi →
      rangedWindow k stored lo hi = .ok (window raw lo hi) := by
  intro stored
  have hmod : entries.length * packChunkEntryLen % 256 ^ 4 = entries.length * packChunkEntryLen :=
    Nat.mod_eq_of_lt hfit
  have hindexLen := length_flatMap_marshal entries
  have hheaderLen := length_chunkedHeader algo (entries.length * packChunkEntryLen)
  have hdetect : ∀ rest, detectPackFraming (chunkedHeader algo (entries.length * packChunkEntryLen)
      ++ rest) = .ok ⟨.perChunk, 0, algo, entries.length * packChunkEntryLen,
        packChunkedHeaderLen + entries.length * packChunkEntryLen, []⟩ := by
    intro rest
    rw [detect_chunked, hmod, if_neg (by simp)]
  have hparse : parsePackChunkIndex (window stored packChunkedHeaderLen
      (packChunkedHeaderLen + entries.length * packChunkEntryLen : Nat)) = .ok entries := by
    rw [window_index hheaderLen hindexLen, parsePackChunkIndex_marshal hfollows hfits]
  have hbodies : stored.drop (packChunkedHeaderLen + entries.length * packChunkEntryLen) = bodies :=
    drop_bodies hheaderLen hindexLen bodies
  constructor
  · rw [decompressPackBlob_chunkedHeader, decompressChunkedPackBlob, hdetect]
    dsimp only
    rw [if_neg (by simp only [List.length_append]; omega), hparse]
    dsimp only
    rw [hbodies, materializeChunkedWindow, mapM_eq_ok hread]
    change Except.ok _ = _
    rw [flatten_windows raw hfollows, hunc, window_eq]
    simp
  · intro lo hi hlo hhi hle
    obtain ⟨off, len, sel, hspan, hlen, hmat⟩ := materialize_span k
      (f := ⟨.perChunk, 0, algo, entries.length * packChunkEntryLen,
        packChunkedHeaderLen + entries.length * packChunkEntryLen, entries⟩)
      hfollows hsto hread hlo hhi hle
    have hhead : stored.take packChunkedHeaderLen
        = chunkedHeader algo (entries.length * packChunkEntryLen) ++ [] := by
      rw [List.append_nil]
      exact List.take_left' hheaderLen
    unfold rangedWindow
    rw [hhead, hdetect]
    dsimp only
    rw [hparse]
    dsimp only
    rw [hspan]
    dsimp only
    have hstop : ((packChunkedHeaderLen + entries.length * packChunkEntryLen : Nat) : Int)
        + ((off : Int) + (len : Int))
        = (packChunkedHeaderLen + entries.length * packChunkEntryLen + (off + len) : Nat) := by omega
    have hstart : ((packChunkedHeaderLen + entries.length * packChunkEntryLen : Nat) : Int) + (off : Int)
        = (packChunkedHeaderLen + entries.length * packChunkEntryLen + off : Nat) := by omega
    rw [hstop, hstart, window_drop, hbodies, hmat]

variable (hk : k.Lossless) (halgo : algo ≠ .none) (hspans : validatePackSpans raw.length 0 spans = true)
  (hraw : raw.length < 9223372036854775808) (hsize : ∀ sp ∈ spans, sp.size < 4294967296)
include hk halgo hspans hraw hsize

/-- The fields of the entries fit into their bytes. -/
theorem fits_layChunks : ∀ e ∈ (layChunks k algo raw 0 spans).map Prod.fst, e.Fits := by
  intro e he
  have hspan := List.mem_map_of_mem (f := PackChunkEntry.span) he
  rw [map_span_layChunks (a := 0) hspans] at hspan
  obtain ⟨x, hx, rfl⟩ := List.mem_map.mp he
  have hlaid := laid_spec hk halgo (a := 0) hspans (Nat.le_refl 0) x hx
  have hlt := hsize _ hspan
  dsimp only [PackChunkEntry.span] at hlt
  have hend := hlaid.end_le
  have hle := hlaid.le
  have hsto := hlaid.sto_le
  refine ⟨?_, ?_, ?_, ?_⟩ <;> omega

/-- **Packs with an index are read back** when its length fits. -/
theorem roundTrips_chunked (hfit : spans.length * packChunkEntryLen < 256 ^ 4) :
    ∃ stored, compressPackBlobChunked k raw spans algo = some stored
      ∧ decompressPackBlob k stored = .ok raw
      ∧ ∀ lo hi, Spanned spans lo hi → rangedWindow k stored lo hi = .ok (window raw lo hi) := by
  have hfollows : Follows 0 0 ((layChunks k algo raw 0 spans).map Prod.fst) :=
    follows_layChunks (a := 0) hspans
  have hlaid := laid_spec hk halgo (a := 0) hspans (Nat.le_refl 0)
  have hsto := stoTotal_laid fun x hx => (hlaid x hx).stoSize
  have hunc : uncTotal ((layChunks k algo raw 0 spans).map Prod.fst) = raw.length := by
    have htotal : ((0 + uncTotal ((layChunks k algo raw 0 spans).map Prod.fst) : Nat) : Int)
        = raw.length := uncTotal_layChunks hspans
    omega
  have hlen : ((layChunks k algo raw 0 spans).map Prod.fst).length = spans.length :=
    length_layChunks (a := 0) hspans
  have hread := read_chunked algo hfollows (fits_layChunks hk halgo hspans hraw hsize)
    (inflate_laid hlaid hfollows) hunc (Nat.le_of_eq hsto) (by rw [hlen]; exact hfit)
  rw [hlen] at hread
  refine ⟨_, compressPackBlobChunked_eq halgo hspans, hread.1, fun lo hi hspanned => ?_⟩
  obtain ⟨⟨sp, hsp, hlo⟩, ⟨sp', hsp', hhi⟩, hle⟩ := hspanned
  have hmap : ((layChunks k algo raw 0 spans).map Prod.fst).map PackChunkEntry.span = spans :=
    map_span_layChunks (a := 0) hspans
  rw [← hmap] at hsp hsp'
  obtain ⟨e, he, rfl⟩ := List.mem_map.mp hsp
  obtain ⟨e', he', rfl⟩ := List.mem_map.mp hsp'
  dsimp only [PackChunkEntry.span] at hlo hhi
  exact hread.2 lo hi ⟨e, he, by omega⟩ ⟨e', he', by omega⟩ hle

/-- A pack whose index is too long for four bytes is not read back: what is left of the length names
    only the first entries. -/
theorem not_decompress_of_overflow (hpos : ∀ sp ∈ spans, 0 < sp.size)
    (hlong : 256 ^ 4 ≤ spans.length * packChunkEntryLen) {stored : Bytes}
    (hstored : compressPackBlobChunked k raw spans algo = some stored) :
    decompressPackBlob k stored ≠ .ok raw := by
  intro hok
  have hfollows : Follows 0 0 ((layChunks k algo raw 0 spans).map Prod.fst) :=
    follows_layChunks (a := 0) hspans
  have hfits := fits_layChunks hk halgo hspans hraw hsize
  have htotal : ((0 + uncTotal ((layChunks k algo raw 0 spans).map Prod.fst) : Nat) : Int)
      = raw.length := uncTotal_layChunks hspans
  have hlen : ((layChunks k algo raw 0 spans).map Prod.fst).length = spans.length :=
    length_layChunks (a := 0) hspans
  have huncPos : ∀ e ∈ (layChunks k algo raw 0 spans).map Prod.fst, 0 < e.uncSize := by
    intro e he
    have hspan := List.mem_map_of_mem (f := PackChunkEntry.span) he
    rw [map_span_layChunks (a := 0) hspans] at hspan
    exact Int.natCast_pos.mp (hpos _ hspan)
  rw [compressPackBlobChunked_eq halgo hspans, Option.some_inj] at hstored
  rw [← hstored, decompressPackBlob_chunkedHeader, decompressChunkedPackBlob, detect_chunked] at hok
  generalize (layChunks k algo raw 0 spans).map Prod.fst = entries at *
  split at hok
  · cases hok
  · rename_i framing hdetect
    split at hdetect
    · cases hdetect
    · rename_i hdvd
      cases hdetect
      -- the entries that the length still covers
      set left := spans.length * packChunkEntryLen % 256 ^ 4 with hleft
      obtain ⟨j, hj⟩ := Nat.dvd_of_mod_eq_zero (not_not.mp hdvd)
      have hlt : left < 256 ^ 4 := Nat.mod_lt _ (by decide)
      have hentry : packChunkEntryLen = 25 := rfl
      have hjlt : j < entries.length := by
        rw [hlen]
        rw [hentry] at hj hlong
        omega
      have hsplit : entries = entries.take j ++ entries.drop j := (List.take_append_drop ..).symm
      have hindexLen : ((entries.take j).flatMap PackChunkEntry.marshal).length = left := by
        rw [length_flatMap_marshal, List.length_take, Nat.min_eq_left (Nat.le_of_lt hjlt), hj,
          Nat.mul_comm]
      rw [hsplit] at hfollows
      dsimp only at hok
      split at hok
      · cases hok
      · rw [hsplit, List.flatMap_append, List.append_assoc,
          window_index (length_chunkedHeader ..) hindexLen,
          parsePackChunkIndex_marshal (follows_append.mp hfollows).1
            fun e he => hfits e (List.mem_of_mem_take he)] at hok
        have hshort := length_materialize hok
        obtain ⟨e, rest, hdrop⟩ := List.exists_cons_of_ne_nil (l := entries.drop j) (by simpa using hjlt)
        have he := huncPos e (List.mem_of_mem_drop (by rw [hdrop]; exact List.mem_cons_self ..))
        rw [hsplit, uncTotal_append, hdrop, uncTotal_cons] at htotal
        omega

end Chunked

/-- **Packs are read back exactly when their index fits**, unless they hold empty chunks.  Packs from
    before the framing are read as they are. -/
theorem pack_round_trip (k : Codec) (hk : k.Lossless) (mode : PackCompressionMode) (raw : Bytes)
    (spans : List PackSpan) (codec : CompressionAlgo) (hraw : raw.length < 9223372036854775808)
    (hspans : validatePackSpans raw.length 0 spans = true)
    (hsize : ∀ sp ∈ spans, sp.size < 4294967296) :
    (IndexFits mode spans codec → RoundTrips k mode raw spans codec)
      ∧ ((∀ sp ∈ spans, 0 < sp.size) → RoundTrips k mode raw spans codec → IndexFits mode spans codec)
      ∧ ∀ legacy : Bytes, ¬ packMagic <+: legacy → decompressPackBlob k legacy = .ok legacy
        ∧ ∀ lo hi : Nat, rangedWindow k legacy lo hi = .ok (window legacy lo hi) := by
  refine ⟨fun hfits => ?_, fun hpos htrips => ?_, fun legacy hlegacy => legacy_round_trip k hlegacy⟩
  · unfold RoundTrips storePackBlob
    by_cases hplain : codec = .none ∨ mode = .wholePack
    · rw [if_pos hplain]
      exact ⟨_, rfl, decompress_compressPackBlob hk raw codec, fun lo hi _ =>
        rangedWindow_compressPackBlob hk raw codec lo hi⟩
    · rw [if_neg hplain]
      obtain ⟨hcodec, hmode⟩ := not_or.mp hplain
      have hlen : spans.length * packChunkEntryLen < 256 ^ 4 := by
        rcases hfits with hnone | hwhole | hlen
        · exact absurd hnone hcodec
        · exact absurd hwhole hmode
        · exact hlen
      exact roundTrips_chunked hk hcodec hspans hraw hsize hlen
  · by_contra hnot
    obtain ⟨hcodec, hmode, hlong⟩ : codec ≠ .none ∧ mode ≠ .wholePack
        ∧ 256 ^ 4 ≤ spans.length * packChunkEntryLen := by
      simpa [IndexFits] using hnot
    obtain ⟨stored, hstored, hwhole, -⟩ := htrips
    rw [storePackBlob, if_neg (by simp [hcodec, hmode])] at hstored
    exact not_decompress_of_overflow hk hcodec hspans hraw hsize hpos hlong hstored hwhole

/-- Two chunks, each on its own. -/
theorem pack_round_trip_pair : RoundTrips plainCodec .perChunk [1, 2, 3] [⟨0, 1⟩, ⟨1, 2⟩] .zstd :=
  (pack_round_trip plainCodec plainCodec_lossless .perChunk [1, 2, 3] [⟨0, 1⟩, ⟨1, 2⟩] .zstd (by decide)
    (by decide) (by decide)).1 (.inr (.inr (by decide)))

/-- Chunks of one byte. -/
def byteSpans (n : Nat) : List PackSpan := (List.range n).map fun i : Nat => ⟨i, 1⟩

theorem validate_byteSpans (n : Nat) : validatePackSpans n 0 (byteSpans n) = true := by
  have hfrom : ∀ a m : Nat, validatePackSpans (a + m : Nat) a
      ((List.range' a m).map fun i : Nat => (⟨i, 1⟩ : PackSpan)) = true := by
    intro a m
    induction m generalizing a with
    | zero => simp [validatePackSpans]
    | succ m ih =>
      have hrest := ih (a + 1)
      rw [List.range'_succ, List.map_cons, validatePackSpans]
      refine decide_eq_true ⟨Int.one_nonneg, rfl, ?_⟩
      have hlen : a + (m + 1) = a + 1 + m := by omega
      rw [hlen]
      exact hrest
  have h := hfrom 0 n
  rw [Nat.zero_add] at h
  rw [byteSpans, List.range_eq_range']
  exact h

/-- One chunk more than the length of an index can say. -/
def tooMany : Nat := 171798692

/-- **A pack of many chunks cannot be read.**  The length of its index does not fit into four bytes. -/
theorem many_chunks_are_lost :
    (List.replicate tooMany (0 : UInt8)).length < 9223372036854775808
      ∧ validatePackSpans (List.replicate tooMany (0 : UInt8)).length 0 (byteSpans tooMany) = true
      ∧ (∀ sp ∈ byteSpans tooMany, sp.size < 4294967296)
      ∧ ¬ RoundTrips plainCodec .perChunk (List.replicate tooMany 0) (byteSpans tooMany) .zstd := by
  have hraw : (List.replicate tooMany (0 : UInt8)).length < 9223372036854775808 := by
    rw [List.length_replicate]
    decide
  have hspans : validatePackSpans (List.replicate tooMany (0 : UInt8)).length 0 (byteSpans tooMany)
      = true := by
    rw [List.length_replicate]
    exact validate_byteSpans tooMany
  have hone : ∀ sp ∈ byteSpans tooMany, sp.size = 1 := by
    intro sp hsp
    obtain ⟨i, -, rfl⟩ := List.mem_map.mp hsp
    rfl
  have hsize : ∀ sp ∈ byteSpans tooMany, sp.size < 4294967296 := fun sp hsp => by
    rw [hone sp hsp]
    decide
  refine ⟨hraw, hspans, hsize, ?_⟩
  rintro ⟨stored, hstored, hwhole, -⟩
  rw [storePackBlob, if_neg (by decide)] at hstored
  refine not_decompress_of_overflow plainCodec_lossless (by decide) hspans hraw hsize
    (fun sp hsp => ?_) ?_ hstored hwhole
  · rw [hone sp hsp]
    decide
  · rw [byteSpans, List.length_map, List.length_range]
    decide

end MemoryLayer.Pack
