import Mathlib.Data.List.TakeWhile
import MemoryLayer.Pack.Batch

namespace MemoryLayer.Pack

open Snapshot

/-! # What readers deliver

Chunks in packs are checked against their hashes on every path: windows, whole packs, the slot and the
groups of a batch.  Chunks with blobs of their own are checked for their size only.

- `Served`: what is known of a chunk that was handed out.
- `Delivers.served`: a reader that is read to its end hands out all chunks.
- `batch_served`: so does a batch.
- `delivered_digests`: **the digests are those of the manifest exactly when the blobs of chunks outside
  packs hold what their hashes say.**
-/

section Verified

variable {k : Codec} {sha : Bytes → String} {get : Backend} {framing : PackFraming}

/-- The chunk has the hash that its pack was asked for, or it is what its own blob holds. -/
def Served (k : Codec) (sha : Bytes → String) (get : Backend) (tenant : String) (ref : ChunkRef)
    (chunk : Bytes) : Prop :=
  if ref.packHash = "" then wholeContent k get (refID tenant ref) = .ok chunk ∧ chunk.length = ref.size
  else sha chunk = ref.hash

/-- Each chunk has the hash of its reference. -/
abbrev Hashed (sha : Bytes → String) : List ChunkRef → List Bytes → Prop :=
  List.Forall₂ fun ref chunk => sha chunk = ref.hash

/-! ### Slices -/

variable {content bytes : Bytes} {ref : ChunkRef} {run : List ChunkRef} {chunks : List Bytes} {id : String}
  {cached : PackSlot} {framings : FramingCache}

theorem hash_of_sliceRef {chunk : Bytes}
    (h : sliceRef sha content ref = .ok chunk) : sha chunk = ref.hash := by
  grind [sliceRef]

@[grind →]
theorem hashed_of_sliceRun (h : sliceRun sha content run = .ok chunks) : Hashed sha run chunks :=
  (mapM_ok_iff.mp (sliceRun_eq_ok.mp h)).imp fun _ _ => hash_of_sliceRef

@[grind →]
theorem hashed_of_shift {base : Int}
    (h : sliceRun sha content (shiftRun run base) = .ok chunks) : Hashed sha run chunks :=
  List.forall₂_map_left_iff.mp (hashed_of_sliceRun h)

/-! ### The reader -/

@[grind →]
theorem hashed_of_loadChunkedPackRun {minOff maxEnd : Int}
    (h : loadChunkedPackRun k sha get id framing run minOff maxEnd = .ok chunks) :
    Hashed sha run chunks := by
  grind [loadChunkedPackRun]

@[grind →]
theorem hashed_of_loadCompressedPackRun (h : (loadCompressedPackRun k sha get id run cached).1 = .ok chunks) :
    Hashed sha run chunks := by
  grind [loadCompressedPackRun]

@[grind →]
theorem hashed_of_loadFramedRun {minOff maxEnd : Int}
    (h : (loadFramedRun k sha get id framing run minOff maxEnd cached).1 = .ok chunks) :
    Hashed sha run chunks := by
  grind [loadFramedRun]

@[grind →]
theorem hashed_of_fetchPackRun (h : (fetchPackRun k sha get id ref run framings cached).1 = .ok chunks) :
    Hashed sha run chunks := by
  grind [fetchPackRun]

/-- Every path to the chunks of a run ends with the check of their hashes. -/
theorem hashed_of_loadPackRun
    (h : (loadPackRun k sha get id ref run framings cached).1 = .ok chunks) : Hashed sha run chunks := by
  unfold loadPackRun at h
  split at h
  · split at h
    · exact hashed_of_sliceRun h
    · exact hashed_of_fetchPackRun h
  · exact hashed_of_fetchPackRun h

namespace ChunkStreamReader

/-- The bytes that are fetched and not handed out. -/
def pending (r : ChunkStreamReader) : Bytes := r.current ++ r.queued.flatten

theorem hand_pending (r : ChunkStreamReader) (n : Nat) :
    (r.hand n).1 ++ (r.hand n).2.pending = r.pending := by
  unfold hand pending
  dsimp only
  rw [← List.append_assoc, List.take_append_drop]

theorem advance_pending {r : ChunkStreamReader} (h : r.current = []) : r.advance.pending = r.pending := by
  unfold advance pending
  rw [h]
  cases r.queued <;> rfl

/-- Fetching a run serves its chunks. -/
theorem served_of_loadNextRun {r r' : ChunkStreamReader} {framings framings' : FramingCache} {u : Unit}
    (h : r.loadNextRun k sha get framings = (.ok u, r', framings')) (hne : r.rest ≠ []) :
    ∃ run, r.rest = run ++ r'.rest ∧ List.Forall₂ (Served k sha get r.tenant) run r'.queued
      ∧ r'.tenant = r.tenant := by
  unfold loadNextRun at h
  cases hrest : r.rest with
  | nil => exact absurd hrest hne
  | cons ref rest =>
    rw [hrest] at h
    dsimp only at h
    split at h
    · rename_i hpack
      split at h
      · cases h
      · rename_i chunk hload
        cases h
        refine ⟨[ref], rfl, .cons ?_ .nil, rfl⟩
        unfold loadStandaloneChunk at hload
        split at hload
        · cases hload
        · rename_i got hgot
          split at hload
          · cases hload
          · rename_i hsize
            cases hload
            rw [Served, if_pos hpack]
            exact ⟨hgot, not_not.mp hsize⟩
    · rename_i hpack
      split at h
      · cases h
      · rename_i chunks _ _ hload
        cases h
        refine ⟨ref :: rest.takeWhile fun s => s.packHash = ref.packHash, ?_, ?_, rfl⟩
        · rw [List.cons_append, List.takeWhile_append_dropWhile]
        · -- the chunks of the run are all of the pack of its first one
          have hsame : ∀ s ∈ ref :: rest.takeWhile fun s => s.packHash = ref.packHash,
              s.packHash ≠ "" := by
            intro s hs
            rcases List.mem_cons.mp hs with rfl | hs
            · exact hpack
            · have := List.mem_takeWhile_imp hs
              rw [of_decide_eq_true this]
              exact hpack
          have hhashed := hashed_of_loadPackRun (congrArg Prod.fst hload)
          refine List.forall₂_iff_zip.mpr ⟨hhashed.length_eq, fun hmem => ?_⟩
          rw [Served, if_neg (hsame _ (List.of_mem_zip hmem).1)]
          exact (List.forall₂_iff_zip.mp hhashed).2 hmem

/-- `r'` is what is left of `q` after a piece is handed out. -/
structure Hands (q r' : ChunkStreamReader) (piece : Bytes) : Prop where
  rest : r'.rest = q.rest
  tenant : r'.tenant = q.tenant
  cached : r'.cached = q.cached
  bytes : piece ++ r'.pending = q.pending

theorem hands_of_advance {q : ChunkStreamReader} (h : q.current = []) (n : Nat) :
    Hands q (q.advance.hand n).2 (q.advance.hand n).1 :=
  ⟨rfl, rfl, rfl, (hand_pending _ _).trans (advance_pending h)⟩

theorem loadNextRun_current (k : Codec) (sha : Bytes → String) (get : Backend) (r : ChunkStreamReader)
    (framings : FramingCache) :
    (r.loadNextRun k sha get framings).2.1.current = r.current := by
  unfold loadNextRun
  dsimp only
  repeat' split
  all_goals rfl

variable {r r' : ChunkStreamReader} {framings' : FramingCache} {n : Nat} {piece : Bytes}

/-- A read hands out what is fetched, after fetching a run where nothing is left. -/
theorem read_some (h : r.read k sha get n framings = (.ok (some piece), r', framings')) :
    ∃ q, Hands q r' piece ∧ (q = r ∧ framings' = framings
      ∨ r.pending = [] ∧ r.rest ≠ [] ∧ q.current = []
        ∧ r.loadNextRun k sha get framings = (.ok (), q, framings')) := by
  unfold read at h
  split at h
  · cases h
    exact ⟨r, ⟨rfl, rfl, rfl, hand_pending r n⟩, .inl ⟨rfl, rfl⟩⟩
  · rename_i hcurrent
    rw [ne_eq, not_not] at hcurrent
    split at h
    · cases h
      exact ⟨r, hands_of_advance hcurrent n, .inl ⟨rfl, rfl⟩⟩
    · rename_i hqueued
      split at h
      · cases h
      · rename_i hne
        split at h
        · cases h
        · rename_i q _ hload
          cases h
          have hq : q.current = [] := by
            rw [← hcurrent, ← loadNextRun_current k sha get r framings, hload]
          refine ⟨q, hands_of_advance hq n, .inr ⟨?_, hne, hq, hload⟩⟩
          rw [pending, hcurrent, not_not.mp hqueued]
          rfl

/-- A read that ends has handed out everything. -/
theorem read_none (h : r.read k sha get n framings = (.ok none, r', framings')) :
    r.rest = [] ∧ r.pending = [] := by
  unfold read at h
  split at h
  · cases h
  · split at h
    · cases h
    · split at h
      · rename_i hcurrent hqueued hrest
        rw [pending, not_not.mp hcurrent, not_not.mp hqueued]
        exact ⟨hrest, rfl⟩
      · split at h <;> cases h

/-- A read serves the chunks of the run that it fetches. -/
theorem served_of_read (h : r.read k sha get n framings = (.ok (some piece), r', framings')) :
    ∃ run chunks, r.rest = run ++ r'.rest ∧ List.Forall₂ (Served k sha get r.tenant) run chunks
      ∧ r'.tenant = r.tenant ∧ piece ++ r'.pending = r.pending ++ chunks.flatten := by
  obtain ⟨q, hq, ⟨rfl, rfl⟩ | ⟨hpending, hne, hcurrent, hload⟩⟩ := read_some h
  · exact ⟨[], [], hq.rest.symm, .nil, hq.tenant, by rw [hq.bytes]; simp⟩
  · obtain ⟨run, hrun, hserved, htenant⟩ := served_of_loadNextRun hload hne
    refine ⟨run, q.queued, by rw [hrun, hq.rest], hserved, hq.tenant.trans htenant, ?_⟩
    rw [hq.bytes, hpending, pending, hcurrent]

end ChunkStreamReader

/-- **A reader that is read to its end hands out all chunks.** -/
theorem Delivers.served {others : FramingCache → FramingCache → Prop} {r : ChunkStreamReader}
    (h : Delivers k sha get others r framings bytes) :
    ∃ chunks, List.Forall₂ (Served k sha get r.tenant) r.rest chunks
      ∧ bytes = r.pending ++ chunks.flatten := by
  induction h with
  | eof h =>
    obtain ⟨hrest, hpending⟩ := ChunkStreamReader.read_none h
    rw [hrest, hpending]
    exact ⟨[], .nil, rfl⟩
  | @more r r' framings framings' framings'' n piece bytes h _ _ ih =>
    obtain ⟨run, first, hrun, hfirst, htenant, hpiece⟩ := ChunkStreamReader.served_of_read h
    obtain ⟨chunks, hserved, rfl⟩ := ih
    rw [htenant] at hserved
    refine ⟨first ++ chunks, ?_, ?_⟩
    · rw [hrun]
      exact List.rel_append hfirst hserved
    · rw [← List.append_assoc, hpiece, List.flatten_append, List.append_assoc]

/-- One read, and the end. -/
theorem delivers_once {r r' r'' : ChunkStreamReader} {framings' framings'' : FramingCache}
    {n : Nat} (h : r.read k sha get n framings = (.ok (some bytes), r', framings'))
    (hend : r'.read k sha get n framings' = (.ok none, r'', framings'')) :
    Delivers k sha get Eq r framings bytes := by
  have := Delivers.more h rfl (.eof hend)
  rwa [List.append_nil] at this

/-! ### The batch -/

section Batch

variable {K : Type} {bs : List (PackBucket K)}

theorem flatten_groupFrom (cur : List (ChunkLoc K)) (curEnd : Int) (locs : List (ChunkLoc K)) :
    (groupFrom cur curEnd locs).flatten = cur ++ locs := by
  induction locs generalizing cur curEnd with
  | nil => simp [groupFrom]
  | cons l locs ih =>
    rw [groupFrom]
    split
    · rw [ih, List.append_assoc]
      rfl
    · rw [List.flatten_cons, ih]
      rfl

theorem flatten_groupContiguousLocs (locs : List (ChunkLoc K)) :
    (groupContiguousLocs locs).flatten = locs := by
  cases locs with
  | nil => rfl
  | cons l locs => exact flatten_groupFrom [l] _ locs

/-- What is written is for these chunks, each with its hash. -/
def WrittenFor (sha : Bytes → String) (locs : List (ChunkLoc K)) (written : Written K) : Prop :=
  written.map Prod.fst = locs ∧ ∀ x ∈ written, sha x.2 = x.1.ref.hash

variable {locs : List (ChunkLoc K)} {written : Written K}
  {fetch : Int → Int → Except PackErr (Option Bytes)} {id : String} {framings : FramingCache}
  {s : K × ChunkManifest} {l : ChunkLoc K} {states : List (K × ChunkManifest)} {b : PackBucket K}
  {latest : K → Option (Option ChunkManifest)} {keys : List K}

theorem writtenFor_zip
    (h : Hashed sha (locs.map ChunkLoc.ref) chunks) : WrittenFor sha locs (locs.zip chunks) := by
  have hlen : locs.length = chunks.length := by simpa using h.length_eq
  refine ⟨List.map_fst_zip (Nat.le_of_eq hlen), fun x hx => ?_⟩
  exact (List.forall₂_iff_zip.mp (List.forall₂_map_left_iff.mp h)).2 hx

theorem writtenFor_of_assignGroup {sliced : Except PackErr (List Bytes)}
    (h : assignGroup locs sliced = .ok written)
    (hsliced : ∀ chunks, sliced = .ok chunks → Hashed sha (locs.map ChunkLoc.ref) chunks) :
    WrittenFor sha locs written := by
  cases sliced with
  | error err => cases h
  | ok chunks =>
    cases h
    exact writtenFor_zip (hsliced chunks rfl)

theorem writtenFor_of_fetchGroup {group : List (ChunkLoc K)}
    (h : fetchGroup sha fetch group = .ok (some written)) : WrittenFor sha group written := by
  have hassign : ∀ {content : Bytes} {base : Int},
      (assignGroup group (sliceRun sha content (shiftRun (group.map ChunkLoc.ref) base))).map some
        = .ok (some written) → WrittenFor sha group written := by
    intro content base hsome
    cases hout : assignGroup group (sliceRun sha content (shiftRun (group.map ChunkLoc.ref) base)) with
    | error err => rw [hout] at hsome; cases hsome
    | ok out =>
      rw [hout] at hsome
      cases hsome
      exact writtenFor_of_assignGroup hout fun chunks => hashed_of_shift
  unfold fetchGroup at h
  dsimp only at h
  split at h
  · exact hassign h
  · split at h
    · cases h
    · cases h
    · exact hassign h

/-- Groups are written when each of them is. -/
theorem fetchGroups_some {groups : List (List (ChunkLoc K))}
    (h : fetchGroups sha fetch groups = .ok (some written)) :
    WrittenFor sha groups.flatten written
      ∧ ∀ group ∈ groups, ∃ part, fetchGroup sha fetch group = .ok (some part) := by
  induction groups generalizing written with
  | nil =>
    cases h
    exact ⟨⟨rfl, List.forall_mem_nil _⟩, List.forall_mem_nil _⟩
  | cons group groups ih =>
    rw [fetchGroups] at h
    split at h
    · cases h
    · cases h
    · rename_i first hfirst
      cases hrest : fetchGroups sha fetch groups with
      | error err => rw [hrest] at h; cases h
      | ok out =>
        cases out with
        | none => rw [hrest] at h; cases h
        | some rest =>
          rw [hrest] at h
          cases h
          obtain ⟨hlocs, hhash⟩ := writtenFor_of_fetchGroup hfirst
          obtain ⟨⟨hlocs', hhash'⟩, hparts⟩ := ih hrest
          refine ⟨⟨?_, List.forall_mem_append.mpr ⟨hhash, hhash'⟩⟩,
            List.forall_mem_cons.mpr ⟨⟨first, hfirst⟩, hparts⟩⟩
          rw [List.map_append, hlocs, hlocs', List.flatten_cons]

theorem writtenFor_of_assignWholePack
    (h : assignWholePack k sha get id locs = .ok written) : WrittenFor sha locs written := by
  unfold assignWholePack at h
  split at h
  · cases h
  · exact writtenFor_of_assignGroup h fun chunks => hashed_of_sliceRun

/-- A bucket that is written comes out of the whole pack, or group by group out of windows. -/
theorem fetchFramedBucket_ok (h : fetchFramedBucket k sha get id framing locs = .ok written) :
    assignWholePack k sha get id locs = .ok written
      ∨ ∃ fetch, (framing.algo = .perChunk ∧ fetch = fetchChunked k get id framing
          ∨ framing.algo = .codec .none ∧ fetch = fetchPlain get id framing)
        ∧ fetchGroups sha fetch (groupContiguousLocs locs) = .ok (some written) := by
  have hranged : ∀ {fetch : Int → Int → Except PackErr (Option Bytes)},
      fetchRanged k sha get id locs fetch = .ok written →
        assignWholePack k sha get id locs = .ok written
          ∨ fetchGroups sha fetch (groupContiguousLocs locs) = .ok (some written) := by
    intro fetch h
    unfold fetchRanged at h
    split at h
    · cases h
    · rename_i hgroups
      cases h
      exact .inr hgroups
    · exact .inl h
  unfold fetchFramedBucket at h
  split at h
  · rename_i halgo
    exact (hranged h).imp_right fun hgroups => ⟨_, .inl ⟨halgo, rfl⟩, hgroups⟩
  · rename_i halgo
    exact (hranged h).imp_right fun hgroups => ⟨_, .inr ⟨halgo, rfl⟩, hgroups⟩
  · exact .inl h

/-- A pack writes all its chunks, each with its hash. -/
theorem writtenFor_of_fetchPackBucket (h : (fetchPackBucket k sha get id locs framings).1 = .ok written) :
    WrittenFor sha locs written := by
  unfold fetchPackBucket at h
  split at h
  · cases h
  · split at h
    · cases h
    · rcases fetchFramedBucket_ok h with h | ⟨fetch, -, h⟩
      · exact writtenFor_of_assignWholePack h
      · have := (fetchGroups_some h).1
        rwa [flatten_groupContiguousLocs] at this

/-! ### Buckets -/

/-- A blob is a pack or a chunk, and its ID says which. -/
theorem packHash_of_refID {tenant tenant' : String} {ref ref' : ChunkRef}
    (h : refID tenant ref = refID tenant' ref') : ref.packHash = "" ↔ ref'.packHash = "" := by
  have hkind : ∀ {t t' x x' : String}, (packBlobID t x).render ≠ (chunkBlobID t' x').render := by
    intro t t' x x' heq
    have hlist := congrArg String.toList heq
    rw [BlobId.toList_render, BlobId.toList_render] at hlist
    cases (word_append_inj hlist).1
  unfold refID at h
  split at h <;> split at h <;> rename_i href href'
  · exact iff_of_true href href'
  · exact absurd h.symm hkind
  · exact absurd h hkind
  · exact iff_of_false href href'

theorem mem_locsOf :
    (id, l) ∈ locsOf s
      ↔ l.key = s.1 ∧ s.2.chunks[l.idx]? = some l.ref ∧ id = refID s.2.tenant l.ref := by
  unfold locsOf
  rw [List.mem_map]
  constructor
  · rintro ⟨x, hx, heq⟩
    obtain ⟨rfl, rfl⟩ := Prod.mk.inj heq
    exact ⟨rfl, List.mem_zipIdx_iff_getElem?.mp hx, rfl⟩
  · rintro ⟨hkey, hget, rfl⟩
    refine ⟨(l.ref, l.idx), List.mem_zipIdx_iff_getElem?.mpr hget, ?_⟩
    rw [← hkey]

/-- The chunks of a bucket are those that its blob holds. -/
theorem mem_bucket (h : b ∈ bucketsOf states) :
    l ∈ b.locs ↔ ∃ s ∈ states, (b.pid, l) ∈ locsOf s := by
  unfold bucketsOf at h
  obtain ⟨id, -, rfl⟩ := List.mem_map.mp h
  simp only [List.mem_map, List.mem_filter, List.mem_flatMap, decide_eq_true_eq]
  constructor
  · rintro ⟨⟨id', l'⟩, ⟨⟨s, hs, hmem⟩, rfl⟩, rfl⟩
    exact ⟨s, hs, hmem⟩
  · rintro ⟨s, hs, hmem⟩
    exact ⟨(id, l), ⟨⟨s, hs, hmem⟩, rfl⟩, rfl⟩

theorem bucket_standalone (h : b ∈ bucketsOf states) (hl : l ∈ b.locs) :
    b.standalone = true ↔ l.ref.packHash = "" := by
  obtain ⟨s, -, hmem⟩ := (mem_bucket h).mp hl
  obtain ⟨-, -, hid⟩ := mem_locsOf.mp hmem
  have hflag : b.standalone = b.locs.head?.any fun l => decide (l.ref.packHash = "") := by
    unfold bucketsOf at h
    obtain ⟨id, -, rfl⟩ := List.mem_map.mp h
    rfl
  obtain ⟨first, rest, hlocs⟩ := List.exists_cons_of_ne_nil (List.ne_nil_of_mem hl)
  obtain ⟨s', -, hfirst⟩ := (mem_bucket h).mp (hlocs ▸ List.mem_cons_self .. : first ∈ b.locs)
  obtain ⟨-, -, hid'⟩ := mem_locsOf.mp hfirst
  rw [hflag, hlocs, List.head?_cons, Option.any_some, decide_eq_true_eq]
  exact packHash_of_refID (hid'.symm.trans hid)

theorem exists_bucket (hs : s ∈ states)
    (hl : (id, l) ∈ locsOf s) :
    ∃ b ∈ bucketsOf states, b.pid = id ∧ l ∈ b.locs := by
  have hmem : id ∈ ((states.flatMap locsOf).map Prod.fst).dedup :=
    List.mem_dedup.mpr (List.mem_map.mpr ⟨(id, l), List.mem_flatMap.mpr ⟨s, hs, hl⟩, rfl⟩)
  refine ⟨_, List.mem_map.mpr ⟨id, hmem, rfl⟩, rfl, ?_⟩
  exact List.mem_map.mpr ⟨(id, l), List.mem_filter.mpr
    ⟨List.mem_flatMap.mpr ⟨s, hs, hl⟩, decide_eq_true rfl⟩, rfl⟩

/-! ### The slots of a key -/

variable {sort : List (ChunkLoc K) → List (ChunkLoc K)}

/-- What a bucket writes: all its chunks, checked. -/
theorem written_of_fetchBucket (hsort : Sorts sort)
    (h : (fetchBucket k sha get sort b framings).1 = .ok written) :
    (∀ l, l ∈ b.locs ↔ ∃ x ∈ written, x.1 = l)
      ∧ ∀ x ∈ written, if b.standalone then wholeContent k get b.pid = .ok x.2 ∧ x.2.length = x.1.ref.size
        else sha x.2 = x.1.ref.hash := by
  unfold fetchBucket at h
  split at h
  · rename_i hstandalone
    unfold fetchStandaloneBucket at h
    split at h
    · cases h
    · rename_i got hgot
      split at h
      · rename_i hsize
        cases h
        refine ⟨fun l => by simp, fun x hx => ?_⟩
        obtain ⟨l, hl, rfl⟩ := List.mem_map.mp hx
        rw [if_pos hstandalone]
        exact ⟨hgot, hsize l hl⟩
      · cases h
  · rename_i hstandalone
    obtain ⟨hlocs, hhash⟩ := writtenFor_of_fetchPackBucket h
    refine ⟨fun l => ?_, fun x hx => ?_⟩
    · rw [← (hsort.perm b.locs).mem_iff, ← hlocs, List.mem_map]
    · rw [if_neg hstandalone]
      exact hhash x hx

theorem mem_fetchBuckets {x : PackBucket K × Except PackErr (Written K)}
    (h : x ∈ (fetchBuckets k sha get sort bs framings).1) :
    x.1 ∈ bs ∧ ∃ framings', x.2 = (fetchBucket k sha get sort x.1 framings').1 := by
  induction bs generalizing framings with
  | nil => cases h
  | cons b bs ih =>
    rw [fetchBuckets] at h
    rcases List.mem_cons.mp h with rfl | h
    · exact ⟨List.mem_cons_self .., framings, rfl⟩
    · obtain ⟨hmem, hout⟩ := ih h
      exact ⟨List.mem_cons_of_mem _ hmem, hout⟩

theorem exists_fetched (k : Codec) (sha : Bytes → String) (get : Backend)
    (sort : List (ChunkLoc K) → List (ChunkLoc K))
    (framings : FramingCache) (h : b ∈ bs) : ∃ out, (b, out) ∈ (fetchBuckets k sha get sort bs framings).1 := by
  induction bs generalizing framings with
  | nil => cases h
  | cons b' bs ih =>
    rw [fetchBuckets]
    rcases List.mem_cons.mp h with rfl | h
    · exact ⟨_, List.mem_cons_self ..⟩
    · obtain ⟨out, hout⟩ := ih _ h
      exact ⟨out, List.mem_cons_of_mem _ hout⟩

variable [DecidableEq K]

theorem mem_resolveManifests :
    s ∈ resolveManifests latest keys ↔ s.1 ∈ keys ∧ latest s.1 = some (some s.2) := by
  unfold resolveManifests
  simp only [List.mem_filterMap, List.mem_dedup, Option.map_eq_some_iff, Option.join_eq_some_iff]
  constructor
  · rintro ⟨key, hkey, m, hm, rfl⟩
    exact ⟨hkey, hm⟩
  · rintro ⟨hkey, hm⟩
    exact ⟨s.1, hkey, s.2, hm, rfl⟩

theorem failed_iff {fetched : List (PackBucket K × Except PackErr (Written K))} {key : K} :
    failed fetched key = true
      ↔ ∃ x ∈ fetched, (∀ written, x.2 ≠ .ok written) ∧ ∃ l ∈ x.1.locs, l.key = key := by
  unfold failed
  rw [List.any_eq_true]
  refine exists_congr fun x => and_congr_right fun _ => ?_
  rw [decide_eq_true_eq, List.any_eq_true]
  refine and_congr ?_ (exists_congr fun l => by rw [decide_eq_true_eq])
  cases x.2 <;> simp [Except.toOption]

/-- The slots of a key that did not fail hold its chunks, each from the bucket of its blob. -/
theorem slot_spec (hsort : Sorts sort)
    (hkeys : ∀ s ∈ states, ∀ s' ∈ states, s.1 = s'.1 → s = s')
    (hs : s ∈ states)
    (hok : failed (fetchBuckets k sha get sort (bucketsOf states) framings).1 s.1 = false)
    {idx : Nat} (href : s.2.chunks[idx]? = some ref) :
    ∃ b written, (b, .ok written) ∈ (fetchBuckets k sha get sort (bucketsOf states) framings).1
      ∧ b.pid = refID s.2.tenant ref ∧ (⟨s.1, idx, ref⟩ : ChunkLoc K) ∈ b.locs
      ∧ (⟨s.1, idx, ref⟩, slot (fetchBuckets k sha get sort (bucketsOf states) framings).1 s.1 idx)
        ∈ written := by
  have hloc : (refID s.2.tenant ref, (⟨s.1, idx, ref⟩ : ChunkLoc K)) ∈ locsOf s :=
    mem_locsOf.mpr ⟨rfl, href, rfl⟩
  obtain ⟨b, hb, -, hmem⟩ := exists_bucket hs hloc
  -- the bucket of the chunk writes it, so the search for the slot finds something
  obtain ⟨out, hout⟩ := exists_fetched k sha get sort framings hb
  obtain ⟨written, rfl⟩ : ∃ written, out = .ok written := by
    by_contra hnone
    have := failed_iff.mpr ⟨_, hout, fun w hw => hnone ⟨w, hw⟩, _, hmem, rfl⟩
    rw [hok] at this
    cases this
  obtain ⟨-, framings', hfetch⟩ := mem_fetchBuckets hout
  obtain ⟨⟨l, chunk⟩, hx, rfl⟩ := ((written_of_fetchBucket hsort hfetch.symm).1 _).mp hmem
  have hfound : ((fetchBuckets k sha get sort (bucketsOf states) framings).1.flatMap writtenBy).find?
      (fun x => x.1.key = s.1 ∧ x.1.idx = idx) ≠ none := by
    rw [ne_eq, List.find?_eq_none]
    intro hnone
    exact hnone _ (List.mem_flatMap.mpr ⟨_, hout, hx⟩) (by simp)
  obtain ⟨⟨l, chunk'⟩, hfind⟩ := Option.ne_none_iff_exists'.mp hfound
  -- and whatever it finds is this chunk
  have hprop := List.find?_some hfind
  obtain ⟨hkey, hidx⟩ := of_decide_eq_true hprop
  obtain ⟨⟨b', out'⟩, hout', hwritten⟩ := List.mem_flatMap.mp (List.mem_of_find?_eq_some hfind)
  cases out' with
  | error err => cases hwritten
  | ok written' =>
    obtain ⟨hb', framings'', hfetch'⟩ := mem_fetchBuckets hout'
    have hl : l ∈ b'.locs := ((written_of_fetchBucket hsort hfetch'.symm).1 _).mpr ⟨_, hwritten, rfl⟩
    obtain ⟨s', hs', hmem'⟩ := (mem_bucket hb').mp hl
    obtain ⟨hkey', hget', hid'⟩ := mem_locsOf.mp hmem'
    obtain rfl := hkeys s hs s' hs' (hkey.symm.trans hkey')
    dsimp only at hkey hidx hkey' hget' hid'
    rw [hidx, href, Option.some_inj] at hget'
    have hl' : l = ⟨s.1, idx, ref⟩ := by
      cases l
      simp_all
    subst hl'
    refine ⟨b', written', hout', hid', hl, ?_⟩
    rw [slot, hfind]
    exact hwritten

/-- There is one manifest for each key. -/
theorem resolveManifests_inj :
    ∀ s ∈ resolveManifests latest keys, ∀ s' ∈ resolveManifests latest keys, s.1 = s'.1 → s = s' := by
  intro s hs s' hs' heq
  have hm := (mem_resolveManifests.mp hs).2
  rw [heq, (mem_resolveManifests.mp hs').2, Option.some_inj, Option.some_inj] at hm
  exact Prod.ext heq hm.symm

/-- **A key in the result of a batch has all its chunks.** -/
theorem batch_served (hsort : Sorts sort)
    {framings' : FramingCache} {out : List (K × Bytes)} {key : K}
    (h : getLatestBatch k sha get sort latest keys framings = (.ok out, framings'))
    (hmem : (key, bytes) ∈ out) :
    ∃ m chunks, latest key = some (some m) ∧ List.Forall₂ (Served k sha get m.tenant) m.chunks chunks
      ∧ bytes = chunks.flatten := by
  unfold getLatestBatch at h
  dsimp only at h
  split at h
  · cases h
  · cases h
    obtain ⟨⟨key', m⟩, hs, hsome⟩ := List.mem_filterMap.mp hmem
    split at hsome
    · cases hsome
    · rename_i hfailed
      rw [Bool.not_eq_true] at hfailed
      cases hsome
      refine ⟨m, _, (mem_resolveManifests.mp hs).2, ?_, rfl⟩
      refine List.forall₂_iff_get.mpr ⟨by simp, fun i hi _ => ?_⟩
      obtain ⟨b, written, hout, hid, hloc, hwritten⟩ :=
        slot_spec hsort resolveManifests_inj hs hfailed (List.getElem?_eq_getElem hi)
      obtain ⟨hb, framings'', hfetch⟩ := mem_fetchBuckets hout
      have hchunk := (written_of_fetchBucket hsort hfetch.symm).2 _ hwritten
      have hstandalone := bucket_standalone hb hloc
      simp only [List.get_eq_getElem, List.getElem_map, List.getElem_zipIdx, Nat.zero_add]
      unfold Served
      simp only [hstandalone, hid] at hchunk
      exact hchunk

end Batch

/-! ### Digests -/

/-- The blobs of the chunks outside packs hold what their hashes say. -/
def Genuine (k : Codec) (sha : Bytes → String) (get : Backend) (m : ChunkManifest) : Prop :=
  ∀ ref ∈ m.chunks, ref.packHash = "" →
    ∀ got, wholeContent k get (refID m.tenant ref) = .ok got → sha got = ref.hash

/-- All chunks are there, and their digests are those of the manifest exactly when the blobs outside
    packs are genuine. -/
def DigestsMatch (k : Codec) (sha : Bytes → String) (get : Backend) (m : ChunkManifest)
    (bytes : Bytes) : Prop :=
  ∃ chunks, List.Forall₂ (Served k sha get m.tenant) m.chunks chunks ∧ bytes = chunks.flatten
    ∧ (chunks.map sha = m.chunks.map ChunkRef.hash ↔ Genuine k sha get m)

theorem digests_iff {tenant : String} {refs : List ChunkRef}
    (h : List.Forall₂ (Served k sha get tenant) refs chunks) :
    chunks.map sha = refs.map ChunkRef.hash
      ↔ ∀ ref ∈ refs, ref.packHash = "" →
        ∀ got, wholeContent k get (refID tenant ref) = .ok got → sha got = ref.hash := by
  induction h with
  | nil => simp
  | @cons ref chunk refs chunks hserved _ ih =>
    rw [List.map_cons, List.map_cons, List.cons.injEq, ih, List.forall_mem_cons]
    refine and_congr_left fun _ => ?_
    unfold Served at hserved
    split at hserved
    · rename_i hpack
      constructor
      · intro hhash _ got hgot
        rw [hserved.1, Except.ok.injEq] at hgot
        rw [← hgot, hhash]
      · intro hgenuine
        exact hgenuine hpack chunk hserved.1
    · rename_i hpack
      exact iff_of_true hserved fun hempty => absurd hempty hpack

/-- **What is delivered.**  The bytes of a reader, and those of a key in a batch, are the chunks of the
    manifest.  Their digests are its hashes exactly when the blobs of chunks outside packs are
    genuine. -/
theorem delivered_digests (k : Codec) (sha : Bytes → String) (get : Backend) (m : ChunkManifest)
    (bytes : Bytes) (framings : FramingCache) :
    (∀ others : FramingCache → FramingCache → Prop,
      Delivers k sha get others (newChunkStreamReader m) framings bytes →
        DigestsMatch k sha get m bytes)
    ∧ ∀ (K : Type) [DecidableEq K] (sort : List (ChunkLoc K) → List (ChunkLoc K))
      (latest : K → Option (Option ChunkManifest)) (keys : List K) (out : List (K × Bytes))
      (framings' : FramingCache) (key : K), Sorts sort → latest key = some (some m) →
        getLatestBatch k sha get sort latest keys framings = (.ok out, framings') →
        (key, bytes) ∈ out → DigestsMatch k sha get m bytes := by
  constructor
  · intro others h
    obtain ⟨chunks, hserved, hbytes⟩ := h.served
    exact ⟨chunks, hserved, hbytes, digests_iff hserved⟩
  · intro K _ sort latest keys out framings' key hsort hlatest h hmem
    obtain ⟨m', chunks, hm', hserved, hbytes⟩ := batch_served hsort h hmem
    rw [hlatest, Option.some_inj, Option.some_inj] at hm'
    subst hm'
    exact ⟨chunks, hserved, hbytes, digests_iff hserved⟩

end Verified

/-- A stand-in for a digest, for examples. -/
def toyDigest (b : Bytes) : String := if b = [7] then "seven" else "other"

/-- A snapshot of one chunk, in a pack or with a blob of its own. -/
def oneChunk (packHash : String) : ChunkManifest := ⟨.v2, 1, "t", [⟨"seven", packHash, 0, 1⟩]⟩

/-- A store of short blobs, which are all the same. -/
def shortBlobs (b : Bytes) : Backend := fun _ _ len => if len < 0 then .ok b else .error .other

/-- The chunk of a pack is delivered, by a reader and by a batch. -/
theorem delivered_digests_pack : DigestsMatch plainCodec toyDigest (shortBlobs [7]) (oneChunk "p") [7] :=
  (delivered_digests plainCodec toyDigest (shortBlobs [7]) (oneChunk "p") [7] fun _ => none).1 Eq
    (delivers_once (n := 1) rfl rfl)

/-- **A substituted blob is delivered.**  It has the length of the chunk, and another digest. -/
theorem substituted_chunk_is_delivered :
    Delivers plainCodec toyDigest (shortBlobs [8]) Eq (newChunkStreamReader (oneChunk ""))
        (fun _ => none) [8]
      ∧ ∀ chunks : List Bytes, [8] = chunks.flatten →
        chunks.map toyDigest ≠ (oneChunk "").chunks.map ChunkRef.hash := by
  refine ⟨delivers_once (n := 1) rfl rfl, fun chunks hbytes hdigests => ?_⟩
  obtain ⟨chunk, rfl⟩ : ∃ chunk, chunks = [chunk] :=
    List.length_eq_one_iff.mp (by simpa [oneChunk] using congrArg List.length hdigests)
  rw [List.flatten_singleton] at hbytes
  subst hbytes
  exact absurd hdigests (by decide)

end MemoryLayer.Pack
