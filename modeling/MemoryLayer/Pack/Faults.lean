import MemoryLayer.Pack.Blobs
import MemoryLayer.Pack.Verified

namespace MemoryLayer.Pack

open Snapshot

/-! # Slices with their bounds the right way round

A chunk of negative size makes a reader slice backwards, which takes the process down.  Nothing else
does.

- `NoFault`: the result is not such a slice.
- `noFault_ok` to `noFault_framingFor`: tagged for `grind`, which then walks through what the readers do.
- `sliceRun_noFault`, `noFault_fetchPackBucket`: chunks of a size are cut out without one.
-/

/-- Not a slice whose bounds are the wrong way round. -/
def NoFault {α : Type} (out : Except PackErr α) : Prop := out ≠ .error .sliceFault

@[simp, grind .]
theorem noFault_ok {α : Type} (a : α) : NoFault (.ok a : Except PackErr α) := nofun

@[simp, grind =]
theorem noFault_error {α : Type} (err : PackErr) :
    NoFault (.error err : Except PackErr α) ↔ err ≠ .sliceFault := by
  simp [NoFault]

@[simp, grind =]
theorem noFault_map {α β : Type} {out : Except PackErr α} {f : α → β} :
    NoFault (out.map f) ↔ NoFault out := by
  cases out <;> simp [Except.map]

theorem NoFault.error {α β : Type} {err : PackErr} (h : NoFault (.error err : Except PackErr α)) :
    NoFault (.error err : Except PackErr β) := by
  simpa using h

theorem noFault_mapM {α β : Type} {f : α → Except PackErr β} {l : List α}
    (h : ∀ x ∈ l, NoFault (f x)) : NoFault (l.mapM f) := by
  induction l with
  | nil => exact noFault_ok []
  | cons x l ih =>
    rw [List.mapM_cons]
    have hhead := h x (List.mem_cons_self ..)
    cases hx : f x with
    | error err =>
      rw [hx] at hhead
      exact hhead.error
    | ok y => exact noFault_map.mpr (ih fun z hz => h z (List.mem_cons_of_mem _ hz))

section Packs

variable (k : Codec)

@[simp, grind .]
theorem GetErr.noFault (err : GetErr) : err.packErr ≠ .sliceFault := by
  cases err <;> exact nofun

@[grind! .]
theorem noFault_detectPackFraming (head : Bytes) : NoFault (detectPackFraming head) := by
  grind [detectPackFraming]

@[grind! .]
theorem noFault_parseEntries (n unc sto : Nat) (b : Bytes) : NoFault (parseEntries n unc sto b) := by
  induction n generalizing unc sto b with
  | zero => exact noFault_ok []
  | succ n ih => grind [parseEntries]

@[grind! .]
theorem noFault_parsePackChunkIndex (b : Bytes) : NoFault (parsePackChunkIndex b) := by
  grind [parsePackChunkIndex]

@[grind! .]
theorem noFault_inflateChunkEntry (base : Nat) (body : Bytes) (e : PackChunkEntry) :
    NoFault (inflateChunkEntry k base body e) := by
  grind [inflateChunkEntry, decodeChunkBody]

@[grind! .]
theorem noFault_materialize (entries : List PackChunkEntry) (stored : Bytes) (base : Nat) :
    NoFault (materializeChunkedWindow k entries stored base) :=
  noFault_map.mpr (noFault_mapM fun e _ => noFault_inflateChunkEntry k base stored e)

@[grind! .]
theorem noFault_decompressPackBlob (stored : Bytes) : NoFault (decompressPackBlob k stored) := by
  grind [decompressPackBlob, decompressChunkedPackBlob]

@[grind! .]
theorem noFault_chunkedStoredSpan (framing : PackFraming) (lo hi : Int) :
    NoFault (framing.chunkedStoredSpan lo hi) := by
  grind [PackFraming.chunkedStoredSpan]

variable (get : Backend)

@[grind! .]
theorem noFault_wholeContent (id : String) : NoFault (wholeContent k get id) := by
  grind [wholeContent]

@[grind! .]
theorem noFault_resolveFraming (id : String) (head : Bytes) : NoFault (resolveFraming get id head) := by
  grind [resolveFraming]

@[grind! .]
theorem noFault_framingFor (id : String) (framings : FramingCache) :
    NoFault (framingFor get id framings).1 := by
  grind [framingFor, probePackFraming]
end Packs

section Slices

variable (k : Codec) {sha : Bytes → String} (get : Backend) {locs : List (ChunkLoc K)}

/-- Chunks of a size are cut out. -/
theorem sliceRun_noFault {content : Bytes} {run : List ChunkRef} (h : ∀ r ∈ run, 0 ≤ r.size) :
    NoFault (sliceRun sha content run) := by
  have hall : ∀ r ∈ run, NoFault ((sliceRef sha content r).mapError readErr) := by
    intro r hr
    have hsize := h r hr
    unfold NoFault sliceRef
    dsimp only
    split
    · simp [Except.mapError, readErr]
    · rw [if_neg (by omega)]
      split <;> simp [Except.mapError, readErr]
  unfold sliceRun sliceRunFromContent
  induction run with
  | nil => exact noFault_ok []
  | cons r run ih =>
    rw [List.mapM_cons]
    have hhead := hall r (List.mem_cons_self ..)
    cases hr : sliceRef sha content r with
    | error err =>
      rw [hr] at hhead
      exact hhead.error
    | ok chunk =>
      have hrest := ih (fun r hr => h r (List.mem_cons_of_mem _ hr)) fun r hr =>
        hall r (List.mem_cons_of_mem _ hr)
      cases hrun : run.mapM (sliceRef sha content) with
      | error err =>
        rw [hrun] at hrest
        exact hrest.error
      | ok chunks => exact noFault_ok _

theorem shiftRun_size {run : List ChunkRef} {base : Int} (h : ∀ r ∈ run, 0 ≤ r.size) :
    ∀ r ∈ shiftRun run base, 0 ≤ r.size := by
  intro r hr
  obtain ⟨r', hr', rfl⟩ := List.mem_map.mp hr
  exact h r' hr'

variable {K : Type}

theorem noFault_assignWholePack {id : String}
    (h : ∀ l ∈ locs, 0 ≤ l.ref.size) : NoFault (assignWholePack k sha get id locs) := by
  have hslice (content : Bytes) : NoFault (sliceRun sha content (locs.map ChunkLoc.ref)) :=
    sliceRun_noFault (by simpa using h)
  grind [assignWholePack, assignGroup]

theorem noFault_fetchGroups {fetch : Int → Int → Except PackErr (Option Bytes)}
    (hfetch : ∀ lo hi, NoFault (fetch lo hi)) {groups : List (List (ChunkLoc K))}
    (h : ∀ group ∈ groups, ∀ l ∈ group, 0 ≤ l.ref.size) : NoFault (fetchGroups sha fetch groups) := by
  induction groups with
  | nil => exact noFault_ok _
  | cons group groups ih =>
    have hslice (content : Bytes) (base : Int) :
        NoFault (sliceRun sha content (shiftRun (group.map ChunkLoc.ref) base)) :=
      sliceRun_noFault (shiftRun_size (by simpa using h group (List.mem_cons_self ..)))
    have hrest := ih fun g hg => h g (List.mem_cons_of_mem _ hg)
    grind [fetchGroups, fetchGroup, assignGroup]

/-- **A bucket does not fault** when its chunks have a size. -/
theorem noFault_fetchPackBucket {id : String}
    (h : ∀ l ∈ locs, 0 ≤ l.ref.size) (framings : FramingCache) :
    NoFault (fetchPackBucket k sha get id locs framings).1 := by
  have hranged : ∀ {fetch : Int → Int → Except PackErr (Option Bytes)},
      (∀ lo hi, NoFault (fetch lo hi)) → NoFault (fetchRanged k sha get id locs fetch) := by
    intro fetch hfetch
    have hgroups : NoFault (fetchGroups sha fetch (groupContiguousLocs locs)) := by
      refine noFault_fetchGroups hfetch fun group hgroup l hl => h l ?_
      rw [← flatten_groupContiguousLocs locs]
      exact List.mem_flatten.mpr ⟨group, hgroup, hl⟩
    have hwhole : NoFault (assignWholePack k sha get id locs) := noFault_assignWholePack k get h
    grind [fetchRanged]
  have hframed (framing : PackFraming) : NoFault (fetchFramedBucket k sha get id framing locs) := by
    unfold fetchFramedBucket
    split
    · exact hranged fun lo hi => by grind [fetchChunked]
    · exact hranged fun lo hi => by grind [fetchPlain]
    · exact noFault_assignWholePack k get h
  have hframing := noFault_framingFor get id framings
  unfold fetchPackBucket
  split
  · simp
  · grind

theorem noFault_fetchStandaloneBucket (id : String) (locs : List (ChunkLoc K)) :
    NoFault (fetchStandaloneBucket k get id locs) := by
  grind [fetchStandaloneBucket]

end Slices

end MemoryLayer.Pack
