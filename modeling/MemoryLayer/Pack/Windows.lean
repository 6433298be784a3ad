import MemoryLayer.Pack.Blobs
import MemoryLayer.Pack.RoundTrip

namespace MemoryLayer.Pack

open Snapshot

/-! # Windows of packs

A run of chunks is cut out of a window of its pack, and the result is the same as out of the whole
content.

- `Fits`, `sliceRun_ok_iff`: when a run can be cut out of some content.
- `sliceRun_window`: a window around a run is as good as the content.
- `Boundary`, `chunked_window`: the windows of a pack with an index.
-/

/-- Nothing decodes to nothing. -/
def Codec.EmptyStream (k : Codec) : Prop :=
  ∀ algo out fin, k.decompress algo [] = some (out, fin) → out = []

theorem plainCodec_emptyStream : plainCodec.EmptyStream := fun _ _ _ h => by
  cases h
  rfl

section Slices

variable {sha : Bytes → String}

/-- The bytes of a chunk. -/
def chunkIn (content : Bytes) (ref : ChunkRef) : Bytes :=
  window content ref.offset (ref.offset + ref.size)

/-- The chunk lies in the content, and has its hash. -/
structure Fits (sha : Bytes → String) (content : Bytes) (ref : ChunkRef) : Prop where
  offset : 0 ≤ ref.offset
  size : 0 ≤ ref.size
  stop : ref.offset + ref.size ≤ content.length
  hash : sha (chunkIn content ref) = ref.hash

theorem sliceRef_ok_iff {content chunk : Bytes} {ref : ChunkRef} :
    sliceRef sha content ref = .ok chunk ↔ Fits sha content ref ∧ chunk = chunkIn content ref := by
  unfold sliceRef
  dsimp only
  constructor
  · intro h
    split at h
    · cases h
    · split at h
      · cases h
      · split at h
        · rename_i hbounds hfault hhash
          cases h
          exact ⟨⟨by omega, by omega, by omega, hhash⟩, rfl⟩
        · cases h
  · rintro ⟨hfits, rfl⟩
    have hoffset := hfits.offset
    have hsize := hfits.size
    have hstop := hfits.stop
    rw [if_neg (by omega), if_neg (by omega)]
    exact if_pos hfits.hash

theorem sliceRun_ok_iff {content : Bytes} {run : List ChunkRef} {chunks : List Bytes} :
    sliceRun sha content run = .ok chunks
      ↔ (∀ ref ∈ run, Fits sha content ref) ∧ chunks = run.map (chunkIn content) := by
  rw [sliceRun_eq_ok, sliceRunFromContent, mapM_ok_iff]
  induction run generalizing chunks with
  | nil => simp
  | cons ref run ih =>
    rw [List.forall₂_cons_left_iff, List.forall_mem_cons, List.map_cons]
    constructor
    · rintro ⟨chunk, rest, hchunk, hrest, rfl⟩
      obtain ⟨hfits, rfl⟩ := sliceRef_ok_iff.mp hchunk
      obtain ⟨hall, rfl⟩ := ih.mp hrest
      exact ⟨⟨hfits, hall⟩, rfl⟩
    · rintro ⟨⟨hfits, hall⟩, rfl⟩
      exact ⟨_, _, sliceRef_ok_iff.mpr ⟨hfits, rfl⟩, ih.mpr ⟨hall, rfl⟩, rfl⟩

/-- **A window around a run** is as good as the whole content. -/
theorem sliceRun_window {raw : Bytes} {run : List ChunkRef} {lo hi : Int} (hlo : 0 ≤ lo) (hle : lo ≤ hi)
    (hhi : hi ≤ raw.length) (hin : ∀ ref ∈ run, lo ≤ ref.offset ∧ ref.offset + ref.size ≤ hi) :
    sliceRun sha (window raw lo hi) (shiftRun run lo) = sliceRun sha raw run := by
  have hlen := length_window hlo hle hhi
  unfold sliceRun sliceRunFromContent shiftRun
  rw [List.mapM_map]
  congr 1
  induction run with
  | nil => rfl
  | cons ref run ih =>
    obtain ⟨hstart, hend⟩ := hin ref (List.mem_cons_self ..)
    have hhead : sliceRef sha (window raw lo hi) { ref with offset := ref.offset - lo }
        = sliceRef sha raw ref := by
      have hin : ¬ (ref.offset - lo < 0 ∨ ref.offset - lo + ref.size > (window raw lo hi).length) := by
        omega
      have hin' : ¬ (ref.offset < 0 ∨ ref.offset + ref.size > raw.length) := by omega
      unfold sliceRef
      dsimp only
      rw [if_neg hin, if_neg hin']
      by_cases hfault : ref.offset + ref.size < ref.offset
      · rw [if_pos (by omega), if_pos hfault]
      · have hstop : ref.offset - lo + ref.size = ref.offset + ref.size - lo := by omega
        rw [if_neg (by omega), if_neg hfault, hstop, window_window hlo hstart (by omega) hend]
    rw [List.mapM_cons, List.mapM_cons, Function.comp_apply, hhead,
      ih fun r hr => hin r (List.mem_cons_of_mem _ hr)]

end Slices

/-! ### Packs with an index -/

/-- An entry begins or ends here. -/
def Boundary (entries : List PackChunkEntry) (x : Int) : Prop :=
  ∃ before after, entries = before ++ after ∧ x = uncTotal before

variable {entries : List PackChunkEntry} {x : Int} {k : Codec} {body raw : Bytes}

theorem Boundary.nonneg (h : Boundary entries x) : 0 ≤ x := by
  obtain ⟨before, after, -, rfl⟩ := h
  exact Int.natCast_nonneg _

theorem Boundary.le (h : Boundary entries x) :
    x ≤ uncTotal entries := by
  obtain ⟨before, after, rfl, rfl⟩ := h
  rw [uncTotal_append]
  omega

section

variable (hfollows : Follows 0 0 entries)

include hfollows

/-- A boundary before the end is the start of an entry. -/
theorem Boundary.start
    (h : Boundary entries x) (hlt : x < uncTotal entries) : ∃ e ∈ entries, (e.uncOffset : Int) = x := by
  obtain ⟨before, after, rfl, rfl⟩ := h
  cases after with
  | nil => simp at hlt
  | cons e after =>
    have := (follows_append.mp hfollows).2.1
    exact ⟨e, by simp, by omega⟩

/-- A boundary behind the start is the end of an entry. -/
theorem Boundary.stop (h : Boundary entries x) (hlt : 0 < x) :
    ∃ e ∈ entries, ((e.uncOffset + e.uncSize : Nat) : Int) = x := by
  obtain ⟨before, after, rfl, rfl⟩ := h
  cases hlast : before.getLast? with
  | none =>
    rw [List.getLast?_eq_none_iff.mp hlast] at hlt
    simp at hlt
  | some last =>
    have := ((follows_append.mp hfollows).1.end_of_getLast hlast).1
    exact ⟨last, List.mem_append_left _ (List.mem_of_getLast? hlast), by omega⟩

/-- When all chunks decode, each one is its window of the content. -/
theorem inflate_of_materialize (h : materializeChunkedWindow k entries body 0 = .ok raw) :
    ∀ e ∈ entries, inflateChunkEntry k 0 body e
      = .ok (window raw e.uncOffset (e.uncOffset + e.uncSize : Nat)) := by
  cases hchunks : entries.mapM (inflateChunkEntry k 0 body) with
  | error err =>
    rw [materializeChunkedWindow, hchunks] at h
    cases h
  | ok chunks =>
    rw [materializeChunkedWindow, hchunks] at h
    cases h
    rw [mapM_ok_iff] at hchunks
    -- the chunks before an entry take up its offset
    have hgen : ∀ {unc sto : Nat} {entries : List PackChunkEntry} {chunks : List Bytes} (front : Bytes),
        List.Forall₂ (fun e chunk => inflateChunkEntry k 0 body e = .ok chunk) entries chunks →
        Follows unc sto entries → front.length = unc → ∀ e ∈ entries, inflateChunkEntry k 0 body e
          = .ok (window (front ++ chunks.flatten) e.uncOffset (e.uncOffset + e.uncSize : Nat)) := by
      intro unc sto entries chunks front hall hfollows hfront
      induction hall generalizing unc sto front with
      | nil =>
        intro e he
        cases he
      | @cons e chunk entries chunks hhead hrest ih =>
        obtain ⟨hunc, -, -, hnext⟩ := hfollows
        have hlen := length_inflateChunkEntry hhead
        intro e' he'
        rcases List.mem_cons.mp he' with rfl | he'
        · rw [hhead, List.flatten_cons, window_eq, hunc, ← hfront, List.drop_left,
            Nat.add_sub_cancel_left, ← hlen, List.take_left]
        · have := ih (front ++ chunk) hnext (by rw [List.length_append, hfront, hlen]) e' he'
          rwa [List.flatten_cons, ← List.append_assoc]
    exact hgen [] hchunks hfollows rfl

/-- The bodies that all chunks need are there. -/
theorem stoTotal_le_of_materialize (h : materializeChunkedWindow k entries body 0 = .ok raw) :
    stoTotal entries ≤ body.length := by
  cases hlast : entries.getLast? with
  | none =>
    rw [List.getLast?_eq_none_iff.mp hlast]
    exact Nat.zero_le _
  | some last =>
    have hread := inflate_of_materialize hfollows h last (List.mem_of_getLast? hlast)
    have hend := (hfollows.end_of_getLast hlast).2
    unfold inflateChunkEntry at hread
    dsimp only at hread
    split at hread
    · cases hread
    · omega

end

/-- A chunk that is not empty has a body. -/
theorem stoSize_pos (hempty : k.EmptyStream) {e : PackChunkEntry} {out : Bytes}
    (h : inflateChunkEntry k 0 body e = .ok out) (hpos : 0 < e.uncSize) : 0 < e.stoSize := by
  by_contra hzero
  have hlen := length_inflateChunkEntry h
  unfold inflateChunkEntry at h
  dsimp only at h
  split at h
  · cases h
  · have hnil : window body ((e.stoOffset : Int) - (0 : Nat)) ((e.stoOffset : Int) - (0 : Nat) + e.stoSize)
        = [] := by
      have : e.stoSize = 0 := by omega
      simp [window, this]
    rw [hnil] at h
    unfold decodeChunkBody at h
    split at h
    · cases h
    · split at h
      · cases h
      · cases h
        simp only [List.length_nil] at hlen
        omega
    · split at h
      · cases h
      · rename_i decoded _ hdecode
        have : decoded = [] := hempty _ _ _ hdecode
        subst this
        split at h
        · cases h
        · split at h
          · cases h
          · cases h
            simp only [List.length_nil] at hlen
            omega

theorem uncTotal_eq_zero (h : ∀ e ∈ entries, e.uncSize = 0) :
    uncTotal entries = 0 := by
  induction entries with
  | nil => rfl
  | cons e entries ih =>
    rw [uncTotal_cons, h e (List.mem_cons_self ..), ih fun e' he' => h e' (List.mem_cons_of_mem _ he')]

/-- **Windows of a pack with an index.**  The stored range of a window is not empty.  A read of it is
    rejected, or it decodes to the window. -/
theorem chunked_window (hempty : k.EmptyStream) {s : BlobStore} {id : String} {b : Bytes}
    (hb : s.blobs id = some b) {framing : PackFraming}
    (hfollows : Follows 0 0 framing.chunked)
    (hraw : materializeChunkedWindow k framing.chunked (b.drop framing.bodyBase) 0 = .ok raw)
    {lo hi : Int} (hlo : Boundary framing.chunked lo) (hhi : Boundary framing.chunked hi) (hlt : lo < hi) :
    ∃ storedOff storedLen inside, framing.chunkedStoredSpan lo hi = .ok (storedOff, storedLen, inside)
      ∧ storedLen ≠ 0
      ∧ (s.get id (framing.bodyBase + storedOff : Nat) storedLen = .error .other
        ∨ ∃ stored, s.get id (framing.bodyBase + storedOff : Nat) storedLen = .ok stored
          ∧ materializeChunkedWindow k inside stored storedOff = .ok (window raw lo hi)) := by
  have hloNonneg := hlo.nonneg
  have hread := inflate_of_materialize hfollows hraw
  have hsto := stoTotal_le_of_materialize hfollows hraw
  have hloStart := hlo.start hfollows (by have := hhi.le; omega)
  have hhiStop := hhi.stop hfollows (by omega)
  obtain ⟨lo, rfl⟩ := Int.eq_ofNat_of_zero_le hloNonneg
  obtain ⟨hi, rfl⟩ := Int.eq_ofNat_of_zero_le hhi.nonneg
  have hloStart' : ∃ e ∈ framing.chunked, e.uncOffset = lo := by
    obtain ⟨e, he, heq⟩ := hloStart
    exact ⟨e, he, by omega⟩
  have hhiStop' : ∃ e ∈ framing.chunked, e.uncOffset + e.uncSize = hi := by
    obtain ⟨e, he, heq⟩ := hhiStop
    exact ⟨e, he, by omega⟩
  obtain ⟨off, len, inside, hspan, hbound, hwindow⟩ :=
    materialize_span k hfollows hsto hread hloStart' hhiStop' (by omega)
  obtain ⟨before, inside', after, hsplit, hlo', hhi', hspan'⟩ :=
    chunkedStoredSpan_split hfollows hloStart' hhiStop' (by omega)
  have heq := hspan'.symm.trans hspan
  rw [Except.ok.injEq, Prod.mk.injEq, Prod.mk.injEq] at heq
  obtain ⟨-, hlen, rfl⟩ := heq
  refine ⟨off, len, inside', hspan, ?_, ?_⟩
  · -- some chunk of the window is not empty
    intro hzero
    have hpos : ∃ e ∈ inside', 0 < e.uncSize := by
      by_contra hnone
      have := uncTotal_eq_zero fun e he => Nat.eq_zero_of_not_pos fun hpos => hnone ⟨e, he, hpos⟩
      omega
    obtain ⟨e, he, hpos⟩ := hpos
    have hsize := stoSize_pos hempty (hread e (by rw [hsplit]; simp [he])) hpos
    obtain ⟨a, c, rfl⟩ := List.append_of_mem he
    rw [stoTotal_append, stoTotal_cons] at hlen
    omega
  · rcases BlobStore.get_range hb (framing.bodyBase + off : Nat) (Int.natCast_nonneg len) with
      hget | ⟨-, -, hget⟩
    · exact .inl hget
    · refine .inr ⟨_, hget, ?_⟩
      rw [← Int.natCast_add, Nat.add_assoc, window_drop]
      exact hwindow

end MemoryLayer.Pack
