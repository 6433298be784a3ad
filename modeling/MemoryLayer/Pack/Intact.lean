import MemoryLayer.Pack.Verified
import MemoryLayer.Pack.Windows

namespace MemoryLayer.Pack

open Snapshot

/-! # Chunks that can be read

Which chunks of packs a reader and a batch deliver, in terms of the state of their pack.

- `Whole`, `Damaged`: the pack can be probed and decoded, or has an index and cannot be decoded.
- `Intact`, `EmptyAside`: the chunk is there as its hash says, or is empty.
- `loadPackRun_of_intact`, `intact_of_loadPackRun`: runs of the reader.
- `fetchPackBucket_of_intact`, `intact_of_fetchPackBucket`: buckets of the batch.
-/

section Packs

variable {k : Codec} {sha : Bytes → String} {s : BlobStore} {framings : FramingCache}

/-- The pack can be probed, and decoded as a whole. -/
structure Whole (k : Codec) (s : BlobStore) (framings : FramingCache) (id : String)
    (framing : PackFraming) (raw : Bytes) : Prop where
  framing : (framingFor s.get id framings).1 = .ok framing
  content : wholeContent k s.get id = .ok raw

/-- The pack is there with an index, but cannot be decoded as a whole. -/
def Damaged (k : Codec) (s : BlobStore) (framings : FramingCache) (id : String) : Prop :=
  (s.blobs id).isSome ∧ (∃ err, wholeContent k s.get id = .error err)
    ∧ ∃ framing, (framingFor s.get id framings).1 = .ok framing ∧ framing.algo = .perChunk

/-- A chunk of a pack that is there, with its hash. -/
def Intact (k : Codec) (sha : Bytes → String) (s : BlobStore) (framings : FramingCache) (id : String)
    (ref : ChunkRef) : Prop :=
  ∃ framing raw, Whole k s framings id framing raw ∧ Fits sha raw ref

/-- An empty chunk, with the hash of nothing. -/
structure EmptyAside (sha : Bytes → String) (ref : ChunkRef) : Prop where
  size : ref.size = 0
  offset : 0 ≤ ref.offset
  hash : sha [] = ref.hash

/-- A chunk of a pack with an index begins and ends with entries. -/
def Aligned (s : BlobStore) (framings : FramingCache) (id : String) (ref : ChunkRef) : Prop :=
  ∀ framing, (framingFor s.get id framings).1 = .ok framing → framing.algo = .perChunk →
    Boundary framing.chunked ref.offset ∧ Boundary framing.chunked (ref.offset + ref.size)

variable {id : String} {raw b : Bytes} {run : List ChunkRef} {lo hi : Int} {chunks : List Bytes}
  {framing : PackFraming} {ref : ChunkRef}

theorem wholeContent_ok_iff :
    wholeContent k s.get id = .ok raw
      ↔ ∃ b, s.blobs id = some b ∧ decompressPackBlob k b = .ok raw := by
  unfold wholeContent
  cases hb : s.blobs id with
  | none =>
    rw [BlobStore.get_missing hb]
    simp
  | some b =>
    rw [BlobStore.get_whole hb]
    simp

theorem wholeContent_eq_error (h : ¬ ∃ raw, wholeContent k s.get id = .ok raw) :
    ∃ err, wholeContent k s.get id = .error err := by
  cases hwhole : wholeContent k s.get id with
  | error err => exact ⟨err, rfl⟩
  | ok raw => exact absurd ⟨raw, hwhole⟩ h

/-! ### Slices out of nothing -/

/-- What is cut out of nothing is empty. -/
theorem emptyAside_of_slice (hlo : 0 ≤ lo)
    (h : sliceRun sha [] (shiftRun run lo) = .ok chunks) :
    ∀ ref ∈ run, EmptyAside sha ref ∧ ref.offset = lo := by
  intro ref href
  have hfits := (sliceRun_ok_iff.mp h).1 { ref with offset := ref.offset - lo }
    (List.mem_map.mpr ⟨ref, href, rfl⟩)
  have hoffset := hfits.offset
  have hsize := hfits.size
  have hstop := hfits.stop
  dsimp only [List.length_nil] at hoffset hsize hstop
  refine ⟨⟨by omega, by omega, ?_⟩, by omega⟩
  have hhash := hfits.hash
  rwa [chunkIn, window, List.drop_nil, List.take_nil] at hhash

/-- Empty chunks that lie in the content can be cut out of nothing. -/
theorem sliceRun_nil (raw : Bytes) (hlo : 0 ≤ lo)
    (hle : lo ≤ raw.length) (hin : ∀ ref ∈ run, lo ≤ ref.offset ∧ ref.offset + ref.size ≤ lo) :
    sliceRun sha [] (shiftRun run lo) = sliceRun sha raw run := by
  have hnil : window raw lo lo = [] := by simp [window]
  rw [← hnil]
  exact sliceRun_window hlo (Int.le_refl lo) hle hin

/-! ### Fetching a window -/

/-- A window is not delivered, or it is that of the content. -/
def FetchesWindow (raw : Bytes) (lo hi : Int) (out : Except PackErr (Option Bytes)) : Prop :=
  out = .ok none ∨ (hi ≤ raw.length ∧ out = .ok (some (window raw lo hi)))

/-- A window of plain content is rejected, or delivered. -/
theorem plain_window
    (hb : s.blobs id = some b) (hdesc : Describes k b framing) (halgo : framing.algo = .codec .none)
    (hraw : decompressPackBlob k b = .ok raw) (hlo : 0 ≤ lo) (hlt : lo < hi) :
    s.get id (framing.contentBase + lo) (hi - lo) = .error .other
      ∨ (hi ≤ raw.length
        ∧ s.get id (framing.contentBase + lo) (hi - lo) = .ok (window raw lo hi)) := by
  obtain ⟨hbase, hplain⟩ := hdesc.plain halgo
  rw [hraw, Except.ok.injEq] at hplain
  rcases BlobStore.get_range hb (framing.contentBase + lo) (by omega : 0 ≤ hi - lo) with
    hget | ⟨-, hbound, hget⟩
  · exact .inl hget
  · refine .inr ⟨?_, ?_⟩
    · rw [hplain, List.length_drop]
      omega
    · rw [hget]
      obtain ⟨lo, rfl⟩ := Int.eq_ofNat_of_zero_le hlo
      obtain ⟨hi, rfl⟩ := Int.eq_ofNat_of_zero_le (by omega : 0 ≤ hi)
      have hstop : (framing.contentBase : Int) + lo + (hi - lo) = (framing.contentBase + hi : Nat) := by
        omega
      rw [hstop, ← Int.natCast_add, window_drop, hplain]

theorem fetchPlain_window
    (hb : s.blobs id = some b) (hdesc : Describes k b framing) (halgo : framing.algo = .codec .none)
    (hraw : decompressPackBlob k b = .ok raw) (hlo : 0 ≤ lo) (hlt : lo < hi) :
    FetchesWindow raw lo hi (fetchPlain s.get id framing lo hi) := by
  unfold fetchPlain
  rcases plain_window hb hdesc halgo hraw hlo hlt with hget | ⟨hhi, hget⟩
  · rw [hget]
    exact .inl rfl
  · rw [hget]
    exact .inr ⟨hhi, rfl⟩

theorem fetchChunked_window (hempty : k.EmptyStream)
    (hb : s.blobs id = some b) (hdesc : Describes k b framing)
    (halgo : framing.algo = .perChunk) (hraw : decompressPackBlob k b = .ok raw)
    (hlo : Boundary framing.chunked lo) (hhi : Boundary framing.chunked hi) (hlt : lo < hi) :
    FetchesWindow raw lo hi (fetchChunked k s.get id framing lo hi) := by
  obtain ⟨hfollows, hwhole⟩ := hdesc.perChunk halgo
  rw [hraw] at hwhole
  obtain ⟨off, len, inside, hspan, -, hget⟩ := chunked_window hempty hb hfollows hwhole.symm hlo hhi hlt
  unfold fetchChunked
  rw [hspan]
  dsimp only
  rcases hget with hget | ⟨stored, hget, hmat⟩
  · rw [hget]
    exact .inl rfl
  · rw [hget]
    dsimp only
    rw [hmat]
    refine .inr ⟨?_, rfl⟩
    rw [length_materialize hwhole.symm]
    exact hhi.le

/-! ### Runs of the reader -/

/-- A pack with an index is read as by a batch, where the stored range is not empty. -/
theorem loadChunkedPackRun_eq {off len : Nat} {inside : List PackChunkEntry}
    (hspan : framing.chunkedStoredSpan lo hi = .ok (off, len, inside)) (hlen : len ≠ 0) :
    loadChunkedPackRun k sha s.get id framing run lo hi
      = match fetchChunked k s.get id framing lo hi with
        | .error err => .error err
        | .ok none => .error .other
        | .ok (some content) => sliceRun sha content (shiftRun run lo) := by
  unfold loadChunkedPackRun fetchChunked
  rw [hspan]
  dsimp only
  rw [if_neg hlen]
  cases s.get id (framing.bodyBase + off : Nat) len with
  | error err => cases err <;> rfl
  | ok stored =>
    dsimp only
    cases materializeChunkedWindow k inside stored off <;> rfl

theorem loadCompressedPackRun_eq (sha : Bytes → String)
    (h : wholeContent k s.get id = .ok raw)
    (run : List ChunkRef) (cached : PackSlot) :
    loadCompressedPackRun k sha s.get id run cached = (sliceRun sha raw run, some (id, raw)) := by
  unfold loadCompressedPackRun
  rw [h]

/-- **A run of a whole pack** is cut out of its content, on every path. -/
theorem loadFramedRun_whole (hempty : k.EmptyStream)
    (hb : s.blobs id = some b) (hdesc : Describes k b framing)
    (hraw : decompressPackBlob k b = .ok raw) (hlo : 0 ≤ lo)
    (hlt : lo < hi) (hin : ∀ ref ∈ run, lo ≤ ref.offset ∧ ref.offset + ref.size ≤ hi)
    (halign : framing.algo = .perChunk → Boundary framing.chunked lo ∧ Boundary framing.chunked hi)
    (cached : PackSlot) :
    (loadFramedRun k sha s.get id framing run lo hi cached).1 = sliceRun sha raw run := by
  have hcompressed := loadCompressedPackRun_eq sha (wholeContent_ok_iff.mpr ⟨b, hb, hraw⟩) run cached
  have hwindow : hi ≤ raw.length →
      sliceRun sha (window raw lo hi) (shiftRun run lo) = sliceRun sha raw run := fun hhi =>
    sliceRun_window hlo (Int.le_of_lt hlt) hhi hin
  unfold loadFramedRun
  split
  · rename_i halgo
    obtain ⟨hloB, hhiB⟩ := halign halgo
    obtain ⟨hfollows, hwhole⟩ := hdesc.perChunk halgo
    rw [hraw] at hwhole
    obtain ⟨off, len, inside, hspan, hlen, -⟩ :=
      chunked_window hempty hb hfollows hwhole.symm hloB hhiB hlt
    rw [loadChunkedPackRun_eq hspan hlen]
    rcases fetchChunked_window hempty hb hdesc halgo hraw hloB hhiB hlt with hnone | ⟨hhi, hsome⟩
    · rw [hnone]
      dsimp only
      rw [hcompressed]
    · rw [hsome]
      dsimp only
      rw [hwindow hhi]
      split
      · rw [hcompressed]
      · rfl
  · rename_i halgo
    rcases plain_window hb hdesc halgo hraw hlo hlt with hget | ⟨hhi, hget⟩
    · rw [hget]
      dsimp only
      rw [hcompressed]
    · rw [hget]
      exact hwindow hhi
  · rw [hcompressed]

/-- A run of a pack that cannot be decoded fails, unless its pack has an index. -/
theorem loadFramedRun_broken (hdesc : ∀ b, s.blobs id = some b → Describes k b framing)
    (hbroken : ¬ ∃ raw, wholeContent k s.get id = .ok raw)
    (hdamaged : (s.blobs id).isSome → framing.algo ≠ .perChunk)
    (hlo : 0 ≤ lo) (hstop : hi = 0 ∨ ∃ ref ∈ run, hi = ref.offset + ref.size) (hlt : lo < hi)
    (cached : PackSlot) :
    (loadFramedRun k sha s.get id framing run lo hi cached).1 ≠ .ok chunks := by
  have hcompressed : (loadCompressedPackRun k sha s.get id run cached).1 ≠ .ok chunks := by
    obtain ⟨err, herr⟩ := wholeContent_eq_error hbroken
    unfold loadCompressedPackRun
    rw [herr]
    exact nofun
  intro hok
  unfold loadFramedRun at hok
  split at hok
  · rename_i halgo
    have hmissing : s.blobs id = none := by
      cases hb : s.blobs id with
      | none => rfl
      | some b => exact absurd halgo (hdamaged (by rw [hb]; rfl))
    split at hok
    · exact hcompressed hok
    · unfold loadChunkedPackRun at hok
      split at hok
      · cases hok
      · split at hok
        · -- nothing is stored for the window, and its last chunk would have to be empty
          rcases hstop with hzero | ⟨ref, href, hend⟩
          · omega
          · obtain ⟨⟨hsize, -, -⟩, hoffset⟩ := emptyAside_of_slice hlo hok ref href
            omega
        · rw [BlobStore.get_missing hmissing] at hok
          cases hok
  · rename_i halgo
    cases hb : s.blobs id with
    | none =>
      rw [BlobStore.get_missing hb] at hok
      cases hok
    | some b => exact hbroken ⟨_, wholeContent_ok_iff.mpr ⟨b, hb, ((hdesc b hb).plain halgo).2⟩⟩
  · exact hcompressed hok

/-- What a reader knows when it has read for a while: the cache says what it said before, and the slot
    holds the content of its pack. -/
structure Settled (k : Codec) (s : BlobStore) (framings now : FramingCache) (cached : PackSlot) :
    Prop where
  same : ∀ id, (framingFor s.get id now).1 = (framingFor s.get id framings).1
  slot : ∀ id raw, cached = some (id, raw) → ∃ framing, Whole k s framings id framing raw

theorem settled_start (k : Codec) (s : BlobStore) (framings : FramingCache) :
    Settled k s framings framings none :=
  ⟨fun _ => rfl, nofun⟩

theorem loadFramedRun_slot {cached : PackSlot} :
    (loadFramedRun k sha s.get id framing run lo hi cached).2 = cached
      ∨ ∃ raw, wholeContent k s.get id = .ok raw
        ∧ (loadFramedRun k sha s.get id framing run lo hi cached).2 = some (id, raw) := by
  have hcompressed : (loadCompressedPackRun k sha s.get id run cached).2 = cached
      ∨ ∃ raw, wholeContent k s.get id = .ok raw
        ∧ (loadCompressedPackRun k sha s.get id run cached).2 = some (id, raw) := by
    unfold loadCompressedPackRun
    cases wholeContent k s.get id with
    | error err => exact .inl rfl
    | ok raw => exact .inr ⟨raw, rfl, rfl⟩
  unfold loadFramedRun
  split
  · split
    · exact hcompressed
    · exact .inl rfl
  · split
    · exact .inl rfl
    · exact hcompressed
    · exact .inl rfl
  · exact hcompressed

/-- A reader stays settled. -/
theorem Settled.loadPackRun {now : FramingCache} {cached : PackSlot}
    (h : Settled k s framings now cached) (sha : Bytes → String) (id : String) (ref : ChunkRef)
    (run : List ChunkRef) :
    Settled k s framings (loadPackRun k sha s.get id ref run now cached).2.1
      (loadPackRun k sha s.get id ref run now cached).2.2 := by
  have hfetch : Settled k s framings (fetchPackRun k sha s.get id ref run now cached).2.1
      (fetchPackRun k sha s.get id ref run now cached).2.2 := by
    have hsame := fun id' => (framingFor_idem s.get id id' now).trans (h.same id')
    have hnow := h.same id
    unfold fetchPackRun
    dsimp only
    split
    · exact h
    · split
      · exact h
      · cases hframing : framingFor s.get id now with
        | mk found later =>
          rw [hframing] at hsame hnow
          cases found with
          | error err => exact ⟨hsame, h.slot⟩
          | ok framing =>
            refine ⟨hsame, fun id' raw hslot => ?_⟩
            dsimp only at hslot
            rcases loadFramedRun_slot (k := k) (s := s) with hkeep | ⟨raw', hraw', hnew⟩
            · rw [hkeep] at hslot
              exact h.slot id' raw hslot
            · rw [hnew] at hslot
              cases hslot
              exact ⟨framing, hnow.symm, hraw'⟩
  unfold Pack.loadPackRun
  split
  · split
    · exact h
    · exact hfetch
  · exact hfetch

/-- The window of a run. -/
theorem run_window (href : ref ∈ run)
    (hsizes : ∀ r ∈ run, 0 ≤ r.size) :
    runStart ref run ≤ runEnd run
      ∧ (∀ r ∈ run, runStart ref run ≤ r.offset ∧ r.offset + r.size ≤ runEnd run)
      ∧ ∃ r ∈ run, runStart ref run = r.offset := by
  obtain ⟨hstart, hstartLe⟩ := runStart_spec ref run
  obtain ⟨-, hendLe⟩ := runEnd_spec run
  refine ⟨?_, fun r hr => ⟨hstartLe r hr, hendLe r hr⟩, ?_⟩
  · have := hstartLe ref href
    have := hendLe ref href
    have := hsizes ref href
    omega
  · rcases hstart with hstart | hstart
    · exact ⟨ref, href, hstart⟩
    · exact hstart

/-- A run that is not empty, once the framing is known. -/
theorem fetchPackRun_eq {now : FramingCache}
    {cached : PackSlot} (hlo : 0 ≤ runStart ref run)
    (hlt : runStart ref run < runEnd run) (hframing : (framingFor s.get id now).1 = .ok framing) :
    (fetchPackRun k sha s.get id ref run now cached).1
      = (loadFramedRun k sha s.get id framing run (runStart ref run) (runEnd run) cached).1 := by
  unfold fetchPackRun
  dsimp only
  rw [if_neg (by omega), if_neg (by omega)]
  cases hfound : framingFor s.get id now with
  | mk found later =>
    rw [hfound] at hframing
    cases hframing
    rfl

variable {now : FramingCache} {cached : PackSlot}

theorem fetchPackRun_whole (hempty : k.EmptyStream) (hcoherent : Coherent s framings)
    (hsettled : Settled k s framings now cached)
    (href : ref ∈ run) (hsizes : ∀ r ∈ run, 0 ≤ r.size) (halign : ∀ r ∈ run, Aligned s framings id r)
    (hwhole : Whole k s framings id framing raw)
    (hlo : 0 ≤ runStart ref run) (hlt : runStart ref run < runEnd run) :
    (fetchPackRun k sha s.get id ref run now cached).1 = sliceRun sha raw run := by
  obtain ⟨-, hin, first, hfirst, hstart⟩ := run_window href hsizes
  obtain ⟨b, hb, hraw⟩ := wholeContent_ok_iff.mp hwhole.content
  rw [fetchPackRun_eq hlo hlt ((hsettled.same id).trans hwhole.framing)]
  refine loadFramedRun_whole hempty hb (hcoherent.describes k hb hwhole.framing) hraw hlo hlt hin
    (fun halgo => ⟨?_, ?_⟩) cached
  · rw [hstart]
    exact (halign first hfirst framing hwhole.framing halgo).1
  · rcases (runEnd_spec run).1 with hzero | ⟨last, hlast, hstop⟩
    · omega
    · rw [hstop]
      exact (halign last hlast framing hwhole.framing halgo).2

/-- **Runs of intact chunks are read.** -/
theorem loadPackRun_of_intact (hempty : k.EmptyStream) (hcoherent : Coherent s framings)
    (hsettled : Settled k s framings now cached)
    (href : ref ∈ run) (halign : ∀ r ∈ run, Aligned s framings id r)
    (hwhole : Whole k s framings id framing raw) (hfits : ∀ r ∈ run, Fits sha raw r) :
    (loadPackRun k sha s.get id ref run now cached).1 = .ok (run.map (chunkIn raw)) := by
  have hsizes : ∀ r ∈ run, 0 ≤ r.size := fun r hr => (hfits r hr).size
  have hslice : sliceRun sha raw run = .ok (run.map (chunkIn raw)) := sliceRun_ok_iff.mpr ⟨hfits, rfl⟩
  obtain ⟨hle, hin, first, hfirst, hstart⟩ := run_window href hsizes
  have hoffset := (hfits first hfirst).offset
  have hfetch : (fetchPackRun k sha s.get id ref run now cached).1 = .ok (run.map (chunkIn raw)) := by
    rcases Int.lt_or_eq_of_le hle with hlt | heq
    · rw [fetchPackRun_whole hempty hcoherent hsettled href hsizes halign hwhole (by omega) hlt, hslice]
    · have hstop := (hfits first hfirst).stop
      have hsize := (hfits first hfirst).size
      unfold fetchPackRun
      dsimp only
      rw [if_neg (by omega), if_pos (by omega),
        sliceRun_nil raw (by omega) (by omega) (by rw [heq] at hin ⊢; exact hin), hslice]
  unfold loadPackRun
  split
  · split
    · rename_i hid
      subst hid
      obtain ⟨_, hwhole'⟩ := hsettled.slot _ _ rfl
      have := hwhole'.content.symm.trans hwhole.content
      cases this
      exact hslice
    · exact hfetch
  · exact hfetch

/-- **Runs that are read consist of intact chunks**, and of empty ones. -/
theorem intact_of_loadPackRun (hempty : k.EmptyStream) (hcoherent : Coherent s framings)
    (hsettled : Settled k s framings now cached) (hdamaged : ¬ Damaged k s framings id)
    (href : ref ∈ run) (hsizes : ∀ r ∈ run, 0 ≤ r.size)
    (halign : ∀ r ∈ run, Aligned s framings id r)
    (h : (loadPackRun k sha s.get id ref run now cached).1 = .ok chunks) :
    ∀ r ∈ run, EmptyAside sha r ∨ Intact k sha s framings id r := by
  have hslice : ∀ {framing : PackFraming} {raw : Bytes}, Whole k s framings id framing raw →
      sliceRun sha raw run = .ok chunks → ∀ r ∈ run, EmptyAside sha r ∨ Intact k sha s framings id r :=
    fun hwhole hok r hr => .inr ⟨_, _, hwhole, (sliceRun_ok_iff.mp hok).1 r hr⟩
  have hfetch : (fetchPackRun k sha s.get id ref run now cached).1 = .ok chunks →
      ∀ r ∈ run, EmptyAside sha r ∨ Intact k sha s framings id r := by
    intro hok
    by_cases hlo : runStart ref run < 0
    · unfold fetchPackRun at hok
      dsimp only at hok
      rw [if_pos (.inl hlo)] at hok
      cases hok
    · rcases Int.lt_or_eq_of_le (run_window href hsizes).1 with hlt | heq
      · cases hframing : (framingFor s.get id framings).1 with
        | error err =>
          have hnow := (hsettled.same id).trans hframing
          unfold fetchPackRun at hok
          dsimp only at hok
          rw [if_neg (by omega), if_neg (by omega)] at hok
          cases hfound : framingFor s.get id now with
          | mk found later =>
            rw [hfound] at hnow hok
            cases hnow
            cases hok
        | ok framing =>
          by_cases hcontent : ∃ raw, wholeContent k s.get id = .ok raw
          · obtain ⟨raw, hraw⟩ := hcontent
            have hwhole : Whole k s framings id framing raw := ⟨hframing, hraw⟩
            rw [fetchPackRun_whole hempty hcoherent hsettled href hsizes halign hwhole (by omega) hlt] at hok
            exact hslice hwhole hok
          · rw [fetchPackRun_eq (by omega) hlt ((hsettled.same id).trans hframing)] at hok
            refine absurd hok (loadFramedRun_broken (fun b hb => hcoherent.describes k hb hframing)
              hcontent (fun hsome halgo => ?_) (by omega) (runEnd_spec run).1 hlt cached)
            exact hdamaged ⟨hsome, wholeContent_eq_error hcontent, framing, hframing, halgo⟩
      · unfold fetchPackRun at hok
        dsimp only at hok
        rw [if_neg (by omega), if_pos (by omega)] at hok
        exact fun r hr => .inl (emptyAside_of_slice (by omega) hok r hr).1
  unfold loadPackRun at h
  split at h
  · split at h
    · rename_i hid
      subst hid
      obtain ⟨framing, hwhole⟩ := hsettled.slot _ _ rfl
      exact hslice hwhole h
    · exact hfetch h
  · exact hfetch h

/-! ### Buckets of a batch -/

section Buckets

variable {K : Type}

theorem groupFrom_ne_nil {cur : List (ChunkLoc K)} (hcur : cur ≠ []) (curEnd : Int)
    (locs : List (ChunkLoc K)) : ∀ group ∈ groupFrom cur curEnd locs, group ≠ [] := by
  induction locs generalizing cur curEnd with
  | nil =>
    intro group hgroup
    rwa [List.mem_singleton.mp hgroup]
  | cons l locs ih =>
    rw [groupFrom]
    split
    · exact ih (by simp) _
    · exact List.forall_mem_cons.mpr ⟨hcur, ih (by simp) _⟩

/-- A group as `groupContiguousLocs` makes it: not empty, and in the order of the offsets. -/
structure IsGroup (group : List (ChunkLoc K)) : Prop where
  ne_nil : group ≠ []
  sorted : group.Pairwise fun l l' => l.ref.offset ≤ l'.ref.offset

variable {locs group : List (ChunkLoc K)} {raw : Bytes}
  {fetch : Int → Int → Except PackErr (Option Bytes)} {written : Written K} {id : String}
  {framing : PackFraming}

/-- Chunks in the order of their offsets, none with a negative size or offset. -/
structure InOrder (locs : List (ChunkLoc K)) : Prop where
  sorted : locs.Pairwise fun l l' => l.ref.offset ≤ l'.ref.offset
  size : ∀ l ∈ locs, 0 ≤ l.ref.size
  offset : ∀ l ∈ locs, 0 ≤ l.ref.offset

theorem isGroup_of_mem (hsorted : locs.Pairwise fun l l' => l.ref.offset ≤ l'.ref.offset)
    (h : group ∈ groupContiguousLocs locs) : IsGroup group ∧ ∀ l ∈ group, l ∈ locs := by
  have hsub : group.Sublist locs := by
    rw [← flatten_groupContiguousLocs locs]
    exact List.sublist_flatten_of_mem h
  refine ⟨⟨?_, hsorted.sublist hsub⟩, fun l hl => hsub.subset hl⟩
  cases locs with
  | nil => cases h
  | cons l locs => exact groupFrom_ne_nil (by simp) _ locs group h

/-- A chunk of a bucket that is written by groups is in one that is written. -/
theorem InOrder.exists_group (horder : InOrder locs)
    (h : fetchGroups sha fetch (groupContiguousLocs locs) = .ok (some written))
    {l : ChunkLoc K} (hl : l ∈ locs) :
    ∃ group part, l ∈ group ∧ IsGroup group ∧ (∀ l ∈ group, l ∈ locs)
      ∧ fetchGroup sha fetch group = .ok (some part) := by
  rw [← flatten_groupContiguousLocs locs] at hl
  obtain ⟨group, hmem, hl⟩ := List.mem_flatten.mp hl
  obtain ⟨part, hpart⟩ := (fetchGroups_some h).2 group hmem
  obtain ⟨hgroup, hsub⟩ := isGroup_of_mem horder.sorted hmem
  exact ⟨group, part, hl, hgroup, hsub, hpart⟩

/-- The first chunk of a group. -/
def groupStart (group : List (ChunkLoc K)) : Int :=
  ((group.map ChunkLoc.ref).head?.map ChunkRef.offset).getD 0

/-- The window of a group. -/
theorem IsGroup.window (h : IsGroup group)
    (hsizes : ∀ l ∈ group, 0 ≤ l.ref.size) :
    groupStart group ≤ runEnd (group.map ChunkLoc.ref)
      ∧ (∀ r ∈ group.map ChunkLoc.ref,
        groupStart group ≤ r.offset ∧ r.offset + r.size ≤ runEnd (group.map ChunkLoc.ref))
      ∧ ∃ l ∈ group, groupStart group = l.ref.offset := by
  obtain ⟨first, rest, rfl⟩ := List.exists_cons_of_ne_nil h.ne_nil
  have hstart : groupStart (first :: rest) = first.ref.offset := rfl
  have hend := (runEnd_spec ((first :: rest).map ChunkLoc.ref)).2
  have hmin : ∀ r ∈ (first :: rest).map ChunkLoc.ref, first.ref.offset ≤ r.offset := by
    intro r hr
    obtain ⟨l, hl, rfl⟩ := List.mem_map.mp hr
    rcases List.mem_cons.mp hl with rfl | hl
    · exact Int.le_refl _
    · exact (List.pairwise_cons.mp h.sorted).1 l hl
  refine ⟨?_, fun r hr => ⟨?_, hend r hr⟩, first, List.mem_cons_self .., hstart⟩
  · have hfirst := hend first.ref (by simp)
    have hsize := hsizes first (List.mem_cons_self ..)
    omega
  · rw [hstart]
    exact hmin r hr

theorem fetchGroup_eq (sha : Bytes → String) (fetch : Int → Int → Except PackErr (Option Bytes))
    (group : List (ChunkLoc K)) :
    fetchGroup sha fetch group
      = if runEnd (group.map ChunkLoc.ref) - groupStart group ≤ 0 then
          (assignGroup group (sliceRun sha [] (shiftRun (group.map ChunkLoc.ref) (groupStart group)))).map
            some
        else match fetch (groupStart group) (runEnd (group.map ChunkLoc.ref)) with
          | .error err => .error err
          | .ok none => .ok none
          | .ok (some content) =>
            (assignGroup group
              (sliceRun sha content (shiftRun (group.map ChunkLoc.ref) (groupStart group)))).map some :=
  rfl

/-- The windows of groups are delivered as those of the content, or not at all. -/
def FetchesGroups (raw : Bytes) (fetch : Int → Int → Except PackErr (Option Bytes))
    (locs : List (ChunkLoc K)) : Prop :=
  ∀ group, IsGroup group → (∀ l ∈ group, l ∈ locs) →
    groupStart group < runEnd (group.map ChunkLoc.ref) →
    FetchesWindow raw (groupStart group) (runEnd (group.map ChunkLoc.ref))
      (fetch (groupStart group) (runEnd (group.map ChunkLoc.ref)))

/-- What is written is what the content holds. -/
def WrittenFrom (raw : Bytes) (written : Written K) : Prop :=
  ∀ x ∈ written, x.2 = chunkIn raw x.1.ref

theorem assignGroup_of_fits (hfits : ∀ l ∈ locs, Fits sha raw l.ref) :
    ∃ written, assignGroup locs (sliceRun sha raw (locs.map ChunkLoc.ref)) = .ok written
      ∧ WrittenFrom raw written := by
  have hslice : sliceRun sha raw (locs.map ChunkLoc.ref)
      = .ok ((locs.map ChunkLoc.ref).map (chunkIn raw)) :=
    sliceRun_ok_iff.mpr ⟨fun r hr => by
      obtain ⟨l, hl, rfl⟩ := List.mem_map.mp hr
      exact hfits l hl, rfl⟩
  rw [hslice]
  refine ⟨_, rfl, fun x hx => ?_⟩
  have hall : List.Forall₂ (fun l chunk => chunk = chunkIn raw l.ref) locs
      ((locs.map ChunkLoc.ref).map (chunkIn raw)) := by
    rw [List.map_map, List.forall₂_map_right_iff]
    exact List.forall₂_same.mpr fun l _ => rfl
  exact (List.forall₂_iff_zip.mp hall).2 hx

section

variable (hfetch : FetchesGroups raw fetch locs)

include hfetch

/-- A group of intact chunks is written, unless its window is not delivered. -/
theorem fetchGroup_of_fits (hgroup : IsGroup group)
    (hsub : ∀ l ∈ group, l ∈ locs) (hfits : ∀ l ∈ group, Fits sha raw l.ref) :
    fetchGroup sha fetch group = .ok none
      ∨ ∃ written, fetchGroup sha fetch group = .ok (some written) ∧ WrittenFrom raw written := by
  obtain ⟨hle, hin, first, hfirst, hstart⟩ := hgroup.window fun l hl => (hfits l hl).size
  have hoffset := (hfits first hfirst).offset
  have hsize := (hfits first hfirst).size
  have hstop := (hfits first hfirst).stop
  obtain ⟨written, hwritten, hfrom⟩ := assignGroup_of_fits hfits
  rw [fetchGroup_eq]
  rcases Int.lt_or_eq_of_le hle with hlt | heq
  · rw [if_neg (by omega)]
    rcases hfetch group hgroup hsub hlt with hnone | ⟨hhi, hsome⟩
    · rw [hnone]
      exact .inl rfl
    · rw [hsome]
      dsimp only
      rw [sliceRun_window (by omega) hle hhi hin, hwritten]
      exact .inr ⟨written, rfl, hfrom⟩
  · rw [if_pos (by omega), sliceRun_nil raw (by omega) (by omega) (by rw [heq] at hin ⊢; exact hin),
      hwritten]
    exact .inr ⟨written, rfl, hfrom⟩

theorem fetchGroups_of_fits {groups : List (List (ChunkLoc K))}
    (hgroups : ∀ group ∈ groups, IsGroup group ∧ ∀ l ∈ group, l ∈ locs)
    (hfits : ∀ l ∈ locs, Fits sha raw l.ref) :
    fetchGroups sha fetch groups = .ok none
      ∨ ∃ written, fetchGroups sha fetch groups = .ok (some written) ∧ WrittenFrom raw written := by
  induction groups with
  | nil => exact .inr ⟨[], rfl, fun x hx => absurd hx List.not_mem_nil⟩
  | cons group groups ih =>
    obtain ⟨hgroup, hsub⟩ := hgroups group (List.mem_cons_self ..)
    rw [fetchGroups]
    rcases fetchGroup_of_fits hfetch hgroup hsub fun l hl => hfits l (hsub l hl) with
      hnone | ⟨first, hfirst, hfrom⟩
    · rw [hnone]
      exact .inl rfl
    · rw [hfirst]
      dsimp only
      rcases ih fun g hg => hgroups g (List.mem_cons_of_mem _ hg) with hnone | ⟨rest, hrest, hfrom'⟩
      · rw [hnone]
        exact .inl rfl
      · rw [hrest]
        refine .inr ⟨first ++ rest, rfl, fun x hx => ?_⟩
        rcases List.mem_append.mp hx with hx | hx
        · exact hfrom x hx
        · exact hfrom' x hx

/-- A group that is written has chunks that fit, and empty ones. -/
theorem fits_of_fetchGroup (horder : InOrder locs) (hgroup : IsGroup group)
    (hsub : ∀ l ∈ group, l ∈ locs) (h : fetchGroup sha fetch group = .ok (some written)) :
    ∀ l ∈ group, EmptyAside sha l.ref ∨ Fits sha raw l.ref := by
  obtain ⟨hle, hin, first, hfirst, hstart⟩ := hgroup.window fun l hl => horder.size l (hsub l hl)
  have hoffset := horder.offset first (hsub first hfirst)
  have hassign : ∀ {content : Bytes} {run : List ChunkRef},
      (assignGroup group (sliceRun sha content run)).map some = .ok (some written) →
        ∃ chunks, sliceRun sha content run = .ok chunks := by
    intro content run hok
    cases hslice : sliceRun sha content run with
    | error err => rw [hslice] at hok; cases hok
    | ok chunks => exact ⟨chunks, rfl⟩
  intro l hl
  rw [fetchGroup_eq] at h
  rcases Int.lt_or_eq_of_le hle with hlt | heq
  · rw [if_neg (by omega)] at h
    rcases hfetch group hgroup hsub hlt with hnone | ⟨hhi, hsome⟩
    · rw [hnone] at h
      cases h
    · rw [hsome] at h
      obtain ⟨chunks, hchunks⟩ := hassign h
      rw [sliceRun_window (by omega) hle hhi hin] at hchunks
      exact .inr ((sliceRun_ok_iff.mp hchunks).1 l.ref (List.mem_map.mpr ⟨l, hl, rfl⟩))
  · rw [if_pos (by omega)] at h
    obtain ⟨chunks, hchunks⟩ := hassign h
    exact .inl (emptyAside_of_slice (by omega) hchunks l.ref (List.mem_map.mpr ⟨l, hl, rfl⟩)).1

end

/-- When no window is delivered, all chunks that are written are empty. -/
theorem emptyAside_of_fetchGroup (hfetch : ∀ lo hi, ∃ err, fetch lo hi = .error err) (horder : InOrder locs)
    (hgroup : IsGroup group) (hsub : ∀ l ∈ group, l ∈ locs) {out : Option (Written K)}
    (h : fetchGroup sha fetch group = .ok out) : ∀ l ∈ group, EmptyAside sha l.ref := by
  obtain ⟨-, -, first, hfirst, hstart⟩ := hgroup.window fun l hl => horder.size l (hsub l hl)
  have hoffset := horder.offset first (hsub first hfirst)
  intro l hl
  rw [fetchGroup_eq] at h
  split at h
  · cases hslice : sliceRun sha [] (shiftRun (group.map ChunkLoc.ref) (groupStart group)) with
    | error err =>
      rw [hslice] at h
      cases h
    | ok chunks =>
      exact (emptyAside_of_slice (by omega) hslice l.ref (List.mem_map.mpr ⟨l, hl, rfl⟩)).1
  · obtain ⟨err, herr⟩ := hfetch (groupStart group) (runEnd (group.map ChunkLoc.ref))
    rw [herr] at h
    cases h

/-- The groups of a whole pack. -/
theorem fetchesGroups_whole (hempty : k.EmptyStream) (hcoherent : Coherent s framings)
    (hwhole : Whole k s framings id framing raw) (horder : InOrder locs)
    (halign : ∀ l ∈ locs, Aligned s framings id l.ref) :
    (framing.algo = .perChunk → FetchesGroups raw (fetchChunked k s.get id framing) locs)
      ∧ (framing.algo = .codec .none → FetchesGroups raw (fetchPlain s.get id framing) locs) := by
  obtain ⟨b, hb, hraw⟩ := wholeContent_ok_iff.mp hwhole.content
  have hdesc := hcoherent.describes k hb hwhole.framing
  refine ⟨fun halgo group hgroup hsub hlt => ?_, fun halgo group hgroup hsub hlt => ?_⟩ <;>
    obtain ⟨-, -, first, hfirst, hstart⟩ := hgroup.window fun l hl => horder.size l (hsub l hl)
  · refine fetchChunked_window hempty hb hdesc halgo hraw ?_ ?_ hlt
    · rw [hstart]
      exact (halign first (hsub first hfirst) framing hwhole.framing halgo).1
    · have hoffset := horder.offset first (hsub first hfirst)
      rcases (runEnd_spec (group.map ChunkLoc.ref)).1 with hzero | ⟨r, hr, hstop⟩
      · omega
      · obtain ⟨last, hlast, rfl⟩ := List.mem_map.mp hr
        rw [hstop]
        exact (halign last (hsub last hlast) framing hwhole.framing halgo).2
  · refine fetchPlain_window hb hdesc halgo hraw ?_ hlt
    rw [hstart]
    exact horder.offset first (hsub first hfirst)

theorem assignWholePack_eq (sha : Bytes → String)
    (h : wholeContent k s.get id = .ok raw) (locs : List (ChunkLoc K)) :
    assignWholePack k sha s.get id locs = assignGroup locs (sliceRun sha raw (locs.map ChunkLoc.ref)) := by
  unfold assignWholePack
  rw [h]

/-- **Buckets of intact chunks are written.** -/
theorem fetchPackBucket_of_intact (hempty : k.EmptyStream) (hcoherent : Coherent s framings)
    (hsame : ∀ id, (framingFor s.get id now).1 = (framingFor s.get id framings).1)
    (hsorted : locs.Pairwise fun l l' => l.ref.offset ≤ l'.ref.offset)
    (halign : ∀ l ∈ locs, Aligned s framings id l.ref)
    (hwhole : Whole k s framings id framing raw) (hfits : ∀ l ∈ locs, Fits sha raw l.ref) :
    ∃ written, (fetchPackBucket k sha s.get id locs now).1 = .ok written ∧ WrittenFrom raw written := by
  have hranged : ∀ {fetch : Int → Int → Except PackErr (Option Bytes)}, FetchesGroups raw fetch locs →
      ∃ written, fetchRanged k sha s.get id locs fetch = .ok written ∧ WrittenFrom raw written := by
    intro fetch hfetch
    unfold fetchRanged
    rcases fetchGroups_of_fits hfetch (fun group hgroup => isGroup_of_mem hsorted hgroup) hfits with
      hnone | ⟨written, hsome, hfrom⟩
    · rw [hnone]
      dsimp only
      rw [assignWholePack_eq sha hwhole.content]
      exact assignGroup_of_fits hfits
    · rw [hsome]
      exact ⟨written, rfl, hfrom⟩
  have hoffsets : ¬ ∃ l ∈ locs, l.ref.offset < 0 := by
    rintro ⟨l, hl, hneg⟩
    have := (hfits l hl).offset
    omega
  obtain ⟨hchunked, hplain⟩ := fetchesGroups_whole hempty hcoherent hwhole
    ⟨hsorted, fun l hl => (hfits l hl).size, fun l hl => (hfits l hl).offset⟩ halign
  have hframing := (hsame id).trans hwhole.framing
  unfold fetchPackBucket
  rw [if_neg hoffsets]
  cases hfound : framingFor s.get id now with
  | mk found later =>
    rw [hfound] at hframing
    cases hframing
    unfold fetchFramedBucket
    dsimp only
    split
    · rename_i halgo
      exact hranged (hchunked halgo)
    · rename_i halgo
      exact hranged (hplain halgo)
    · rw [assignWholePack_eq sha hwhole.content]
      exact assignGroup_of_fits hfits

/-- A bucket of a pack that cannot be decoded writes only empty chunks, unless its pack has an index. -/
theorem fetchFramedBucket_broken (hdesc : ∀ b, s.blobs id = some b → Describes k b framing)
    (hbroken : ¬ ∃ raw, wholeContent k s.get id = .ok raw)
    (hdamaged : (s.blobs id).isSome → framing.algo ≠ .perChunk) (horder : InOrder locs)
    (h : fetchFramedBucket k sha s.get id framing locs = .ok written) :
    ∀ l ∈ locs, EmptyAside sha l.ref := by
  intro l hl
  rcases fetchFramedBucket_ok h with h | ⟨fetch, hfetch, h⟩
  · obtain ⟨err, herr⟩ := wholeContent_eq_error hbroken
    unfold assignWholePack at h
    rw [herr] at h
    cases h
  · have hmissing : s.blobs id = none := by
      cases hb : s.blobs id with
      | none => rfl
      | some b =>
        rcases hfetch with ⟨halgo, -⟩ | ⟨halgo, -⟩
        · exact absurd halgo (hdamaged (by rw [hb]; rfl))
        · exact absurd ⟨_, wholeContent_ok_iff.mpr ⟨b, hb, ((hdesc b hb).plain halgo).2⟩⟩ hbroken
    obtain ⟨group, part, hl, hgroup, hsub, hpart⟩ := horder.exists_group h hl
    refine emptyAside_of_fetchGroup (fun lo hi => ?_) horder hgroup hsub hpart l hl
    rcases hfetch with ⟨-, rfl⟩ | ⟨-, rfl⟩
    · unfold fetchChunked
      split
      · exact ⟨_, rfl⟩
      · rw [BlobStore.get_missing hmissing]
        exact ⟨_, rfl⟩
    · unfold fetchPlain
      rw [BlobStore.get_missing hmissing]
      exact ⟨_, rfl⟩

/-- A bucket of a whole pack that is written has chunks that fit, and empty ones. -/
theorem fetchFramedBucket_whole (hempty : k.EmptyStream) (hcoherent : Coherent s framings)
    (hwhole : Whole k s framings id framing raw) (horder : InOrder locs)
    (halign : ∀ l ∈ locs, Aligned s framings id l.ref)
    (h : fetchFramedBucket k sha s.get id framing locs = .ok written) :
    ∀ l ∈ locs, EmptyAside sha l.ref ∨ Fits sha raw l.ref := by
  intro l hl
  rcases fetchFramedBucket_ok h with h | ⟨fetch, hfetch, h⟩
  · rw [assignWholePack_eq sha hwhole.content] at h
    cases hslice : sliceRun sha raw (locs.map ChunkLoc.ref) with
    | error err => rw [hslice] at h; cases h
    | ok chunks => exact .inr ((sliceRun_ok_iff.mp hslice).1 l.ref (List.mem_map.mpr ⟨l, hl, rfl⟩))
  · obtain ⟨hchunked, hplain⟩ := fetchesGroups_whole hempty hcoherent hwhole horder halign
    obtain ⟨group, part, hl, hgroup, hsub, hpart⟩ := horder.exists_group h hl
    refine fits_of_fetchGroup ?_ horder hgroup hsub hpart l hl
    rcases hfetch with ⟨halgo, rfl⟩ | ⟨halgo, rfl⟩
    · exact hchunked halgo
    · exact hplain halgo

/-- **Buckets that are written consist of intact chunks**, and of empty ones. -/
theorem intact_of_fetchPackBucket (hempty : k.EmptyStream) (hcoherent : Coherent s framings)
    (hsame : ∀ id, (framingFor s.get id now).1 = (framingFor s.get id framings).1)
    (hdamaged : ¬ Damaged k s framings id)
    (hsorted : locs.Pairwise fun l l' => l.ref.offset ≤ l'.ref.offset)
    (hsizes : ∀ l ∈ locs, 0 ≤ l.ref.size) (halign : ∀ l ∈ locs, Aligned s framings id l.ref)
    (h : (fetchPackBucket k sha s.get id locs now).1 = .ok written) :
    ∀ l ∈ locs, EmptyAside sha l.ref ∨ Intact k sha s framings id l.ref := by
  unfold fetchPackBucket at h
  split at h
  · cases h
  · rename_i hneg
    have horder : InOrder locs := ⟨hsorted, hsizes, fun l hl => by
      by_contra hlt
      exact hneg ⟨l, hl, by omega⟩⟩
    cases hfound : framingFor s.get id now with
    | mk found later =>
      have hframing := hsame id
      rw [hfound] at hframing h
      cases found with
      | error err => cases h
      | ok framing =>
        by_cases hcontent : ∃ raw, wholeContent k s.get id = .ok raw
        · obtain ⟨raw, hraw⟩ := hcontent
          have hwhole : Whole k s framings id framing raw := ⟨hframing.symm, hraw⟩
          intro l hl
          rcases fetchFramedBucket_whole hempty hcoherent hwhole horder halign h l hl with hempty | hfits
          · exact .inl hempty
          · exact .inr ⟨framing, raw, hwhole, hfits⟩
        · intro l hl
          refine .inl (fetchFramedBucket_broken (fun b hb => hcoherent.describes k hb hframing.symm)
            hcontent (fun hsome halgo => ?_) horder h l hl)
          exact hdamaged ⟨hsome, wholeContent_eq_error hcontent, framing, hframing.symm, halgo⟩

end Buckets

end Packs

end MemoryLayer.Pack
