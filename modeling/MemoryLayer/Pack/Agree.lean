import Mathlib.Data.List.Sort
import MemoryLayer.Pack.Faults
import MemoryLayer.Pack.Intact

namespace MemoryLayer.Pack

open Snapshot

/-! # A batch and its keys

When `GetLatestBatch` delivers what `GetLatest` delivers for each key.  A batch fetches all chunks of a
pack together, and one that cannot be read takes the others with it.

- `Readable`, `Hopeless`: chunks that everyone reads, and chunks that no one reads.
- `Delivers.readable`, `delivers_of_readable`: readers.
- `fetchBucket_of_readable`, `readable_of_fetchBucket`: buckets.
- `Separable`: a key has a hopeless chunk, or shares its blobs with readable chunks only.
- `batch_agrees`: **batches of separable keys agree with their keys.**
-/

section Chunks

/-- The chunk can be read: it is in a pack that is whole, or it has a blob of its size. -/
def Readable (k : Codec) (sha : Bytes → String) (s : BlobStore) (framings : FramingCache) (id : String)
    (ref : ChunkRef) : Prop :=
  if ref.packHash = "" then ∃ got, wholeContent k s.get id = .ok got ∧ got.length = ref.size
  else Intact k sha s framings id ref

/-- The chunk cannot be read on any path.  Not among these are chunks of packs with an index that are
    damaged in places, and empty chunks, for which a pack is not always asked. -/
structure Hopeless (k : Codec) (sha : Bytes → String) (s : BlobStore) (framings : FramingCache)
    (id : String) (ref : ChunkRef) : Prop where
  unreadable : ¬ Readable k sha s framings id ref
  size : ref.packHash ≠ "" → 0 ≤ ref.size
  empty : ref.packHash ≠ "" → ¬ EmptyAside sha ref
  damaged : ref.packHash ≠ "" → ¬ Damaged k s framings id

/-- The bytes of a chunk that can be read. -/
def chunkOf (k : Codec) (s : BlobStore) (id : String) (ref : ChunkRef) : Bytes :=
  match wholeContent k s.get id with
  | .error _ => []
  | .ok raw => if ref.packHash = "" then raw else chunkIn raw ref

/-- Chunks of packs have a size, and begin and end with entries of an index. -/
structure Placed (s : BlobStore) (framings : FramingCache) (tenant : String) (ref : ChunkRef) : Prop where
  size : ref.packHash ≠ "" → 0 ≤ ref.size
  aligned : ref.packHash ≠ "" → Aligned s framings (refID tenant ref) ref

variable {k : Codec} {sha : Bytes → String} {s : BlobStore} {framings now : FramingCache}

/-! ### The reader -/

variable {ref ref' : ChunkRef} {rest : List ChunkRef} {r : ChunkStreamReader} {bytes : Bytes}

theorem refID_of_packHash {tenant : String} (h : ref.packHash ≠ "")
    (heq : ref'.packHash = ref.packHash) : refID tenant ref' = refID tenant ref := by
  unfold refID
  rw [heq, if_neg h, if_neg h]

/-- The chunks of the next run have the blob of its first one. -/
theorem run_same (rest : List ChunkRef) (h : ref.packHash ≠ "") :
    ∀ r ∈ ref :: rest.takeWhile fun t => t.packHash = ref.packHash, r.packHash = ref.packHash := by
  intro r hr
  rcases List.mem_cons.mp hr with rfl | hr
  · rfl
  · have := List.mem_takeWhile_imp hr
    exact of_decide_eq_true this

/-- What fetching a run does: the chunks that are fetched are not hopeless, and readable ones are fetched
    and are what they are. -/
structure RunLoaded (k : Codec) (sha : Bytes → String) (s : BlobStore) (framings : FramingCache)
    (r : ChunkStreamReader) (run : List ChunkRef) (out : Except PackErr Unit) (r' : ChunkStreamReader)
    (later : FramingCache) : Prop where
  rest : r.rest = run ++ r'.rest
  shorter : r'.rest.length < r.rest.length
  tenant : r'.tenant = r.tenant
  current : r'.current = r.current
  settled : Settled k s framings later r'.cached
  hopeless : out = .ok () → ∀ t ∈ run, ¬ Hopeless k sha s framings (refID r.tenant t) t
  readable : (∀ t ∈ run, Readable k sha s framings (refID r.tenant t) t) →
    out = .ok () ∧ r'.queued = run.map fun t => chunkOf k s (refID r.tenant t) t

theorem loadNextRun_standalone (hsettled : Settled k s framings now r.cached)
    (hrest : r.rest = ref :: rest) (hpack : ref.packHash = "") :
    ∃ run out r' later, r.loadNextRun k sha s.get now = (out, r', later)
      ∧ RunLoaded k sha s framings r run out r' later := by
  have hiff : Readable k sha s framings (refID r.tenant ref) ref
      ↔ ∃ got, wholeContent k s.get (refID r.tenant ref) = .ok got ∧ got.length = ref.size := by
    rw [Readable, if_pos hpack]
  have hbase : ∀ {out : Except PackErr Unit} {queued : List Bytes},
      (out = .ok () → Readable k sha s framings (refID r.tenant ref) ref) →
      (Readable k sha s framings (refID r.tenant ref) ref →
        out = .ok () ∧ queued = [chunkOf k s (refID r.tenant ref) ref]) →
      RunLoaded k sha s framings r [ref] out { r with rest := rest, queued := queued } now := by
    intro out queued hok hread
    refine ⟨hrest, by simp [hrest], rfl, rfl, hsettled, fun hout t ht h => ?_, fun h => ?_⟩
    · rw [List.mem_singleton.mp ht] at h
      exact h.unreadable (hok hout)
    · exact hread (h ref (List.mem_cons_self ..))
  unfold ChunkStreamReader.loadNextRun
  rw [hrest]
  dsimp only
  rw [if_pos hpack]
  unfold loadStandaloneChunk
  cases hwhole : wholeContent k s.get (refID r.tenant ref) with
  | error err =>
    refine ⟨[ref], _, _, _, rfl, hbase nofun fun h => ?_⟩
    obtain ⟨got, hgot, -⟩ := hiff.mp h
    cases hwhole.symm.trans hgot
  | ok got =>
    dsimp only
    by_cases hsize : (got.length : Int) ≠ ref.size
    · rw [if_pos hsize]
      refine ⟨[ref], _, _, _, rfl, hbase nofun fun h => ?_⟩
      obtain ⟨got', hgot, hlen⟩ := hiff.mp h
      cases hwhole.symm.trans hgot
      exact absurd hlen hsize
    · rw [if_neg hsize]
      refine ⟨[ref], _, _, _, rfl, hbase (fun _ => hiff.mpr ⟨got, hwhole, not_not.mp hsize⟩) fun _ =>
        ⟨rfl, ?_⟩⟩
      rw [chunkOf, hwhole]
      dsimp only
      rw [if_pos hpack]

theorem loadNextRun_pack (hempty : k.EmptyStream) (hcoherent : Coherent s framings)
    (hsettled : Settled k s framings now r.cached)
    (hrest : r.rest = ref :: rest) (hpack : ref.packHash ≠ "")
    (hplaced : ∀ t ∈ r.rest, Placed s framings r.tenant t) :
    ∃ run out r' later, r.loadNextRun k sha s.get now = (out, r', later)
      ∧ RunLoaded k sha s framings r run out r' later := by
  have hloaded := hsettled.loadPackRun sha (refID r.tenant ref) ref
    (ref :: rest.takeWhile fun t => t.packHash = ref.packHash)
  unfold ChunkStreamReader.loadNextRun
  rw [hrest]
  dsimp only
  rw [if_neg hpack]
  have hsplit : ref :: rest = (ref :: rest.takeWhile fun t => t.packHash = ref.packHash)
      ++ rest.dropWhile fun t => t.packHash = ref.packHash := by
    rw [List.cons_append, List.takeWhile_append_dropWhile]
  have hsame := run_same rest hpack
  have hfirst : ref ∈ ref :: rest.takeWhile fun t => t.packHash = ref.packHash := List.mem_cons_self ..
  have hshort : (rest.dropWhile fun t => decide (t.packHash = ref.packHash)).length < r.rest.length := by
    rw [hrest]
    exact Nat.lt_succ_of_le (List.length_dropWhile_le _ _)
  rw [← hrest] at hsplit
  generalize (ref :: rest.takeWhile fun t => t.packHash = ref.packHash) = run at *
  -- all chunks of the run have one blob
  have hid : ∀ t ∈ run, refID r.tenant t = refID r.tenant ref := fun t ht =>
    refID_of_packHash hpack (hsame t ht)
  have hnonempty : ∀ t ∈ run, t.packHash ≠ "" := fun t ht => by
    rw [hsame t ht]
    exact hpack
  have hmem : ∀ t ∈ run, t ∈ r.rest := fun t ht => by
    rw [hsplit]
    exact List.mem_append_left _ ht
  have halign : ∀ t ∈ run, Aligned s framings (refID r.tenant ref) t := fun t ht => by
    rw [← hid t ht]
    exact (hplaced t (hmem t ht)).aligned (hnonempty t ht)
  have hiff : ∀ t ∈ run, Readable k sha s framings (refID r.tenant t) t
      ↔ Intact k sha s framings (refID r.tenant ref) t := fun t ht => by
    rw [Readable, if_neg (hnonempty t ht), hid t ht]
  cases hload : loadPackRun k sha s.get (refID r.tenant ref) ref run now r.cached with
  | mk out state =>
    rw [hload] at hloaded
    have hreadable : (∀ t ∈ run, Readable k sha s framings (refID r.tenant t) t) →
        out = .ok (run.map fun t => chunkOf k s (refID r.tenant t) t) := by
      intro h
      obtain ⟨framing, raw, hwhole, -⟩ := (hiff ref hfirst).mp (h ref hfirst)
      have hfits : ∀ t ∈ run, Fits sha raw t := fun t ht => by
        obtain ⟨framing', raw', hwhole', hfits⟩ := (hiff t ht).mp (h t ht)
        cases hwhole.content.symm.trans hwhole'.content
        exact hfits
      have := loadPackRun_of_intact hempty hcoherent hsettled hfirst halign hwhole hfits
      rw [hload] at this
      refine this.trans (congrArg Except.ok ?_)
      refine List.map_congr_left fun t ht => ?_
      rw [chunkOf, hid t ht, hwhole.content]
      dsimp only
      rw [if_neg (hnonempty t ht)]
    cases out with
    | error err =>
      refine ⟨run, _, _, _, rfl, hsplit, hshort, rfl, rfl, hloaded, nofun, fun h => ?_⟩
      cases hreadable h
    | ok chunks =>
      refine ⟨run, _, _, _, rfl, hsplit, hshort, rfl, rfl, hloaded, fun _ t ht h => ?_, fun h => ?_⟩
      · have hdamaged := h.damaged (hnonempty t ht)
        rw [hid t ht] at hdamaged
        rcases intact_of_loadPackRun hempty hcoherent hsettled hdamaged hfirst
          (fun t ht => (hplaced t (hmem t ht)).size (hnonempty t ht)) halign
          (congrArg Prod.fst hload) t ht with haside | hintact
        · exact h.empty (hnonempty t ht) haside
        · exact h.unreadable ((hiff t ht).mpr hintact)
      · cases hreadable h
        exact ⟨rfl, rfl⟩

/-- **Fetching a run.** -/
theorem loadNextRun_spec (sha : Bytes → String) (hempty : k.EmptyStream)
    (hcoherent : Coherent s framings) (hsettled : Settled k s framings now r.cached) (hne : r.rest ≠ [])
    (hplaced : ∀ t ∈ r.rest, Placed s framings r.tenant t) :
    ∃ run out r' later, r.loadNextRun k sha s.get now = (out, r', later)
      ∧ RunLoaded k sha s framings r run out r' later := by
  obtain ⟨ref, rest, hrest⟩ := List.exists_cons_of_ne_nil hne
  by_cases hpack : ref.packHash = ""
  · exact loadNextRun_standalone hsettled hrest hpack
  · exact loadNextRun_pack hempty hcoherent hsettled hrest hpack hplaced

/-- The bytes of chunks that can be read. -/
def bytesOf (k : Codec) (s : BlobStore) (tenant : String) (refs : List ChunkRef) : Bytes :=
  (refs.map fun t => chunkOf k s (refID tenant t) t).flatten

theorem bytesOf_append (k : Codec) (s : BlobStore) (tenant : String) (refs refs' : List ChunkRef) :
    bytesOf k s tenant (refs ++ refs') = bytesOf k s tenant refs ++ bytesOf k s tenant refs' := by
  rw [bytesOf, List.map_append, List.flatten_append]
  rfl

/-- A read hands out the next bytes of the chunks, none of which is hopeless. -/
theorem read_spec (hempty : k.EmptyStream) (hcoherent : Coherent s framings) {r' : ChunkStreamReader}
    (hsettled : Settled k s framings now r.cached)
    (hplaced : ∀ t ∈ r.rest, Placed s framings r.tenant t) {n : Nat} {piece : Bytes}
    {later : FramingCache} (h : r.read k sha s.get n now = (.ok (some piece), r', later)) :
    ∃ run, r.rest = run ++ r'.rest ∧ r'.tenant = r.tenant ∧ Settled k s framings later r'.cached
      ∧ (∀ t ∈ run, ¬ Hopeless k sha s framings (refID r.tenant t) t)
      ∧ ((∀ t ∈ run, Readable k sha s framings (refID r.tenant t) t) →
        piece ++ r'.pending = r.pending ++ bytesOf k s r.tenant run) := by
  obtain ⟨q, hq, ⟨rfl, rfl⟩ | ⟨hpending, hne, hcurrent, hload⟩⟩ := ChunkStreamReader.read_some h
  · refine ⟨[], hq.rest.symm, hq.tenant, hq.cached ▸ hsettled, List.forall_mem_nil _, fun _ => ?_⟩
    rw [hq.bytes]
    simp [bytesOf]
  · obtain ⟨run, out, q', later', hload', hloaded⟩ :=
      loadNextRun_spec sha hempty hcoherent hsettled hne hplaced
    cases hload.symm.trans hload'
    refine ⟨run, by rw [hloaded.rest, hq.rest], hq.tenant.trans hloaded.tenant,
      hq.cached ▸ hloaded.settled, hloaded.hopeless rfl, fun hread => ?_⟩
    rw [hq.bytes, hpending, ChunkStreamReader.pending, hcurrent, (hloaded.readable hread).2]
    rfl

/-- **What a reader delivers.**  No chunk is hopeless, and readable ones are what they are. -/
theorem Delivers.readable (hempty : k.EmptyStream) (hcoherent : Coherent s framings)
    (h : Delivers k sha s.get Eq r now bytes)
    (hsettled : Settled k s framings now r.cached)
    (hplaced : ∀ t ∈ r.rest, Placed s framings r.tenant t) :
    (∀ t ∈ r.rest, ¬ Hopeless k sha s framings (refID r.tenant t) t)
      ∧ ((∀ t ∈ r.rest, Readable k sha s framings (refID r.tenant t) t) →
        bytes = r.pending ++ bytesOf k s r.tenant r.rest) := by
  induction h with
  | eof h =>
    obtain ⟨hrest, hpending⟩ := ChunkStreamReader.read_none h
    rw [hrest, hpending]
    exact ⟨List.forall_mem_nil _, fun _ => rfl⟩
  | @more r r' now later later' n piece bytes h hsame _ ih =>
    obtain ⟨run, hrun, htenant, hsettled', hhopeless, hpiece⟩ :=
      read_spec hempty hcoherent hsettled hplaced h
    subst hsame
    rw [hrun] at hplaced ⊢
    obtain ⟨hrest, hbytes⟩ := ih hsettled' fun t ht => by
      rw [htenant]
      exact hplaced t (List.mem_append_right _ ht)
    rw [htenant] at hrest hbytes
    refine ⟨List.forall_mem_append.mpr ⟨hhopeless, hrest⟩, fun hread => ?_⟩
    obtain ⟨hfirst, hlater⟩ := List.forall_mem_append.mp hread
    rw [hbytes hlater, ← List.append_assoc, hpiece hfirst, bytesOf_append, List.append_assoc]

/-! ### Reading to the end -/

/-- What is fetched is delivered before the rest. -/
theorem delivers_queued {get : Backend} (queued : List Bytes)
    (hcurrent : r.current = [])
    (h : Delivers k sha get Eq { r with queued := [] } now bytes) :
    Delivers k sha get Eq { r with queued := queued } now (queued.flatten ++ bytes) := by
  induction queued with
  | nil => exact h
  | cons chunk queued ih =>
    rw [List.flatten_cons, List.append_assoc]
    refine .more (n := chunk.length) ?_ rfl ih
    unfold ChunkStreamReader.read
    dsimp only
    rw [if_neg (by simp [hcurrent]), if_pos (by simp)]
    simp [ChunkStreamReader.hand, ChunkStreamReader.advance, hcurrent]

/-- **Readable chunks are delivered.** -/
theorem delivers_of_readable (hempty : k.EmptyStream) (hcoherent : Coherent s framings)
    (hcurrent : r.current = []) (hqueued : r.queued = [])
    (hsettled : Settled k s framings now r.cached)
    (hplaced : ∀ t ∈ r.rest, Placed s framings r.tenant t)
    (hread : ∀ t ∈ r.rest, Readable k sha s framings (refID r.tenant t) t) :
    Delivers k sha s.get Eq r now (bytesOf k s r.tenant r.rest) := by
  -- by the number of chunks that are left
  induction hlen : r.rest.length using Nat.strong_induction_on generalizing r now with
  | h len ih =>
    by_cases hne : r.rest = []
    · rw [hne]
      have hend : r.read k sha s.get 0 now = (.ok none, r, now) := by
        unfold ChunkStreamReader.read
        rw [if_neg (by simp [hcurrent]), if_neg (by simp [hqueued]), if_pos hne]
      exact .eof hend
    · obtain ⟨run, out, q, later, hload, hloaded⟩ :=
        loadNextRun_spec sha hempty hcoherent hsettled hne hplaced
      rw [hloaded.rest] at hplaced hread
      obtain ⟨rfl, hq⟩ := hloaded.readable fun t ht => hread t (List.mem_append_left _ ht)
      have hrest := ih q.rest.length (hlen ▸ hloaded.shorter) (r := { q with queued := [], current := [] })
        rfl rfl hloaded.settled
        (fun t ht => by rw [hloaded.tenant]; exact hplaced t (List.mem_append_right _ ht))
        (fun t ht => by
          dsimp only
          rw [hloaded.tenant]
          exact hread t (List.mem_append_right _ ht)) rfl
      have htail := delivers_queued q.queued.tail (r := { q with queued := [], current := [] }) rfl hrest
      have hbytes : bytesOf k s r.tenant r.rest
          = q.queued.headD [] ++ (q.queued.tail.flatten ++ bytesOf k s q.tenant q.rest) := by
        rw [hloaded.rest, bytesOf_append, hloaded.tenant, ← List.append_assoc]
        congr 1
        rw [bytesOf, ← hq]
        cases q.queued <;> rfl
      rw [hbytes]
      refine .more (n := (q.queued.headD []).length) ?_ rfl htail
      unfold ChunkStreamReader.read
      rw [if_neg (by simp [hcurrent]), if_neg (by simp [hqueued]), if_neg hne, hload]
      simp [ChunkStreamReader.hand, ChunkStreamReader.advance]

/-! ### Buckets -/

variable {K : Type} {sort : List (ChunkLoc K) → List (ChunkLoc K)} {b : PackBucket K}
  {x : PackBucket K × Except PackErr (Written K)}

/-- A bucket of one blob: its chunks are in packs, or all have blobs of their own. -/
structure OneBlob (s : BlobStore) (framings : FramingCache) (b : PackBucket K) : Prop where
  standalone : ∀ l ∈ b.locs, b.standalone = true ↔ l.ref.packHash = ""
  size : ∀ l ∈ b.locs, l.ref.packHash ≠ "" → 0 ≤ l.ref.size
  aligned : ∀ l ∈ b.locs, l.ref.packHash ≠ "" → Aligned s framings b.pid l.ref

/-- **Buckets of readable chunks are written.** -/
theorem fetchBucket_of_readable (hempty : k.EmptyStream) (hcoherent : Coherent s framings)
    (hsort : Sorts sort) (hsame : ∀ id, (framingFor s.get id now).1 = (framingFor s.get id framings).1)
    (hb : OneBlob s framings b) {first : ChunkLoc K} (hfirst : first ∈ b.locs)
    (hread : ∀ l ∈ b.locs, Readable k sha s framings b.pid l.ref) :
    ∃ written, (fetchBucket k sha s.get sort b now).1 = .ok written
      ∧ ∀ x ∈ written, x.2 = chunkOf k s b.pid x.1.ref := by
  unfold fetchBucket
  by_cases hstandalone : b.standalone = true
  · have hempty : ∀ l ∈ b.locs, l.ref.packHash = "" := fun l hl => (hb.standalone l hl).mp hstandalone
    have hgot : ∀ l ∈ b.locs, ∃ got, wholeContent k s.get b.pid = .ok got ∧ got.length = l.ref.size := by
      intro l hl
      have := hread l hl
      rwa [Readable, if_pos (hempty l hl)] at this
    obtain ⟨got, hwhole, -⟩ := hgot first hfirst
    rw [if_pos hstandalone]
    unfold fetchStandaloneBucket
    rw [hwhole]
    dsimp only
    rw [if_pos fun l hl => by
      obtain ⟨got', hwhole', hlen⟩ := hgot l hl
      cases hwhole.symm.trans hwhole'
      exact hlen]
    refine ⟨_, rfl, fun x hx => ?_⟩
    obtain ⟨l, hl, rfl⟩ := List.mem_map.mp hx
    rw [chunkOf, hwhole]
    dsimp only
    rw [if_pos (hempty l hl)]
  · have hpack : ∀ l ∈ b.locs, l.ref.packHash ≠ "" := fun l hl h =>
      hstandalone ((hb.standalone l hl).mpr h)
    have hintact : ∀ l ∈ b.locs, Intact k sha s framings b.pid l.ref := by
      intro l hl
      have := hread l hl
      rwa [Readable, if_neg (hpack l hl)] at this
    obtain ⟨framing, raw, hwhole, -⟩ := hintact first hfirst
    have hmem : ∀ l, l ∈ sort b.locs ↔ l ∈ b.locs := fun l => (hsort.perm b.locs).mem_iff
    have hfits : ∀ l ∈ sort b.locs, Fits sha raw l.ref := fun l hl => by
      obtain ⟨framing', raw', hwhole', hfits⟩ := hintact l ((hmem l).mp hl)
      cases hwhole.content.symm.trans hwhole'.content
      exact hfits
    rw [if_neg hstandalone]
    obtain ⟨written, hok, hfrom⟩ := fetchPackBucket_of_intact hempty hcoherent hsame
      (hsort.sorted b.locs) (fun l hl => hb.aligned l ((hmem l).mp hl) (hpack l ((hmem l).mp hl))) hwhole
      hfits
    refine ⟨written, hok, fun x hx => ?_⟩
    have hx1 : x.1 ∈ sort b.locs := by
      rw [← (writtenFor_of_fetchPackBucket hok).1]
      exact List.mem_map.mpr ⟨x, hx, rfl⟩
    rw [hfrom x hx, chunkOf, hwhole.content]
    dsimp only
    rw [if_neg (hpack x.1 ((hmem x.1).mp hx1))]

/-- **Buckets that are written have no hopeless chunk.** -/
theorem not_hopeless_of_fetchBucket (hempty : k.EmptyStream) (hcoherent : Coherent s framings)
    (hsort : Sorts sort) (hsame : ∀ id, (framingFor s.get id now).1 = (framingFor s.get id framings).1)
    (hb : OneBlob s framings b) {written : Written K}
    (h : (fetchBucket k sha s.get sort b now).1 = .ok written) :
    ∀ l ∈ b.locs, ¬ Hopeless k sha s framings b.pid l.ref := by
  intro l hl hhopeless
  have hunreadable := hhopeless.unreadable
  unfold fetchBucket at h
  by_cases hstandalone : b.standalone = true
  · rw [if_pos hstandalone] at h
    rw [Readable, if_pos ((hb.standalone l hl).mp hstandalone)] at hunreadable
    unfold fetchStandaloneBucket at h
    split at h
    · cases h
    · rename_i got hgot
      split at h
      · rename_i hsizes
        exact hunreadable ⟨got, hgot, hsizes l hl⟩
      · cases h
  · have hpack : ∀ l ∈ b.locs, l.ref.packHash ≠ "" := fun l hl h =>
      hstandalone ((hb.standalone l hl).mpr h)
    have hmem : ∀ l, l ∈ sort b.locs ↔ l ∈ b.locs := fun l => (hsort.perm b.locs).mem_iff
    rw [if_neg hstandalone] at h
    rw [Readable, if_neg (hpack l hl)] at hunreadable
    rcases intact_of_fetchPackBucket hempty hcoherent hsame (hhopeless.damaged (hpack l hl))
      (hsort.sorted b.locs) (fun l hl => hb.size l ((hmem l).mp hl) (hpack l ((hmem l).mp hl)))
      (fun l hl => hb.aligned l ((hmem l).mp hl) (hpack l ((hmem l).mp hl))) h l ((hmem l).mpr hl) with
      haside | hintact
    · exact hhopeless.empty (hpack l hl) haside
    · exact hunreadable hintact

/-- A bucket does not change what the cache says. -/
theorem fetchBucket_framings (b : PackBucket K) (id : String) :
    (framingFor s.get id (fetchBucket k sha s.get sort b now).2).1 = (framingFor s.get id now).1 := by
  unfold fetchBucket
  split
  · rfl
  · unfold fetchPackBucket
    split
    · rfl
    · have := framingFor_idem s.get b.pid id now
      cases hfound : framingFor s.get b.pid now with
      | mk found later =>
        rw [hfound] at this
        cases found <;> exact this

/-- Each bucket is fetched with a cache that says what it said before. -/
theorem mem_fetchBuckets_same {bs : List (PackBucket K)}
    (hsame : ∀ id, (framingFor s.get id now).1 = (framingFor s.get id framings).1)
    (h : x ∈ (fetchBuckets k sha s.get sort bs now).1) :
    x.1 ∈ bs ∧ ∃ later, (∀ id, (framingFor s.get id later).1 = (framingFor s.get id framings).1)
      ∧ x.2 = (fetchBucket k sha s.get sort x.1 later).1 := by
  induction bs generalizing now with
  | nil => cases h
  | cons b bs ih =>
    rw [fetchBuckets] at h
    rcases List.mem_cons.mp h with rfl | h
    · exact ⟨List.mem_cons_self .., now, hsame, rfl⟩
    · obtain ⟨hmem, hout⟩ := ih (fun id => (fetchBucket_framings b id).trans (hsame id)) h
      exact ⟨List.mem_cons_of_mem _ hmem, hout⟩

/-! ### Keys -/

/-- The chunks of all manifests are placed. -/
def AllPlaced (s : BlobStore) (framings : FramingCache) (states : List (K × ChunkManifest)) : Prop :=
  ∀ st ∈ states, ∀ ref ∈ st.2.chunks, Placed s framings st.2.tenant ref

variable {states : List (K × ChunkManifest)} {st : K × ChunkManifest}

/-- A chunk of a bucket is one of a manifest. -/
theorem ref_of_mem_bucket (hb : b ∈ bucketsOf states) {l : ChunkLoc K} (hl : l ∈ b.locs) :
    ∃ st ∈ states, l.ref ∈ st.2.chunks ∧ b.pid = refID st.2.tenant l.ref := by
  obtain ⟨st, hst, hmem⟩ := (mem_bucket hb).mp hl
  obtain ⟨-, hget, hid⟩ := mem_locsOf.mp hmem
  exact ⟨st, hst, List.mem_of_getElem? hget, hid⟩

theorem AllPlaced.oneBlob (h : AllPlaced s framings states)
    (hb : b ∈ bucketsOf states) : OneBlob s framings b where
  standalone l hl := bucket_standalone hb hl
  size l hl := by
    obtain ⟨st, hst, href, -⟩ := ref_of_mem_bucket hb hl
    exact (h st hst l.ref href).size
  aligned l hl := by
    obtain ⟨st, hst, href, hid⟩ := ref_of_mem_bucket hb hl
    rw [hid]
    exact (h st hst l.ref href).aligned

theorem noFault_fetched (hsort : Sorts sort)
    (h : ∀ st ∈ states, ∀ ref ∈ st.2.chunks, ref.packHash ≠ "" → 0 ≤ ref.size)
   
    (hx : x ∈ (fetchBuckets k sha s.get sort (bucketsOf states) framings).1) : NoFault x.2 := by
  obtain ⟨hb, later, hout⟩ := mem_fetchBuckets hx
  rw [hout]
  unfold fetchBucket
  split
  · exact noFault_fetchStandaloneBucket k s.get _ _
  · rename_i hstandalone
    refine noFault_fetchPackBucket k s.get (fun l hl => ?_) later
    have hl' := (hsort.perm x.1.locs).mem_iff.mp hl
    obtain ⟨st, hst, href, -⟩ := ref_of_mem_bucket hb hl'
    exact h st hst l.ref href fun hempty => hstandalone ((bucket_standalone hb hl').mpr hempty)

/-- All chunks in the blobs of a manifest can be read. -/
def SharesReadable (k : Codec) (sha : Bytes → String) (s : BlobStore) (framings : FramingCache)
    (states : List (K × ChunkManifest)) (m : ChunkManifest) : Prop :=
  ∀ ref ∈ m.chunks, ∀ st ∈ states, ∀ ref' ∈ st.2.chunks,
    refID st.2.tenant ref' = refID m.tenant ref → Readable k sha s framings (refID m.tenant ref) ref'

theorem SharesReadable.bucket (hst : st ∈ states) (h : SharesReadable k sha s framings states st.2)
    (hb : b ∈ bucketsOf states) {l : ChunkLoc K} (hl : l ∈ b.locs) (hkey : l.key = st.1)
    (hkeys : ∀ st ∈ states, ∀ st' ∈ states, st.1 = st'.1 → st = st') :
    ∀ l' ∈ b.locs, Readable k sha s framings b.pid l'.ref := by
  intro l' hl'
  obtain ⟨st', hst', hmem⟩ := (mem_bucket hb).mp hl
  obtain ⟨hkey', hget, hid⟩ := mem_locsOf.mp hmem
  obtain rfl := hkeys st hst st' hst' (hkey.symm.trans hkey')
  obtain ⟨st'', hst'', href'', hid''⟩ := ref_of_mem_bucket hb hl'
  rw [hid]
  exact h l.ref (List.mem_of_getElem? hget) st'' hst'' l'.ref href'' (hid''.symm.trans hid)

variable [DecidableEq K]

/-- What the batch says of its keys. -/
theorem mem_batch (hsort : Sorts sort) {latest : K → Option (Option ChunkManifest)} {keys : List K}
    (h : ∀ st ∈ resolveManifests latest keys, ∀ ref ∈ st.2.chunks, ref.packHash ≠ "" → 0 ≤ ref.size) :
    ∃ out later, getLatestBatch k sha s.get sort latest keys framings = (.ok out, later)
      ∧ ∀ key bytes, (key, bytes) ∈ out ↔ ∃ m, (key, m) ∈ resolveManifests latest keys
        ∧ failed (fetchBuckets k sha s.get sort (bucketsOf (resolveManifests latest keys)) framings).1 key
          = false
        ∧ bytes = (m.chunks.zipIdx.map fun x =>
          slot (fetchBuckets k sha s.get sort (bucketsOf (resolveManifests latest keys)) framings).1 key
            x.2).flatten := by
  have hfault : (fetchBuckets k sha s.get sort (bucketsOf (resolveManifests latest keys))
      framings).1.any faulted = false := by
    rw [List.any_eq_false]
    rintro ⟨b, out⟩ hx hfaulted
    have := noFault_fetched hsort h hx
    unfold faulted at hfaulted
    split at hfaulted
    · rename_i heq
      cases heq
      exact this rfl
    · cases hfaulted
  unfold getLatestBatch
  dsimp only
  rw [hfault]
  refine ⟨_, _, rfl, fun key bytes => ?_⟩
  rw [List.mem_filterMap]
  constructor
  · rintro ⟨⟨key', m⟩, hmem, hsome⟩
    split at hsome
    · cases hsome
    · rename_i hfailed
      rw [Bool.not_eq_true] at hfailed
      cases hsome
      exact ⟨m, hmem, hfailed, rfl⟩
  · rintro ⟨m, hmem, hfailed, rfl⟩
    exact ⟨(key, m), hmem, by rw [if_neg (by rw [hfailed]; decide)]⟩

/-- A key whose blobs hold readable chunks only is in the result, with the bytes of its chunks. -/
theorem batch_of_sharesReadable (hempty : k.EmptyStream) (hcoherent : Coherent s framings)
    (hsort : Sorts sort) (hplaced : AllPlaced s framings states)
    (hkeys : ∀ st ∈ states, ∀ st' ∈ states, st.1 = st'.1 → st = st')
    (hst : st ∈ states) (hshares : SharesReadable k sha s framings states st.2) :
    failed (fetchBuckets k sha s.get sort (bucketsOf states) framings).1 st.1 = false
      ∧ (st.2.chunks.zipIdx.map fun x =>
        slot (fetchBuckets k sha s.get sort (bucketsOf states) framings).1 st.1 x.2).flatten
        = bytesOf k s st.2.tenant st.2.chunks := by
  have hfailed : failed (fetchBuckets k sha s.get sort (bucketsOf states) framings).1 st.1 = false := by
    rw [Bool.eq_false_iff]
    intro hfailed
    obtain ⟨x, hx, hnone, l, hl, hkey⟩ := failed_iff.mp hfailed
    obtain ⟨hb, later, hsame, hout⟩ := mem_fetchBuckets_same (fun _ => rfl) hx
    obtain ⟨written, hwritten, -⟩ := fetchBucket_of_readable hempty hcoherent hsort hsame
      (hplaced.oneBlob hb) hl (hshares.bucket hst hb hl hkey hkeys)
    exact hnone written (hout.trans hwritten)
  refine ⟨hfailed, ?_⟩
  rw [bytesOf]
  congr 1
  refine List.ext_getElem (by simp) fun i hi _ => ?_
  rw [List.length_map, List.length_zipIdx] at hi
  obtain ⟨b, written, hx, hid, hloc, hmem⟩ :=
    slot_spec hsort hkeys hst hfailed (List.getElem?_eq_getElem hi)
  obtain ⟨hb, later, hsame, hout⟩ := mem_fetchBuckets_same (fun _ => rfl) hx
  obtain ⟨written', hwritten, hchunks⟩ := fetchBucket_of_readable hempty hcoherent hsort hsame
    (hplaced.oneBlob hb) hloc (hshares.bucket hst hb hloc rfl hkeys)
  cases hout.trans hwritten
  simp only [List.getElem_map, List.getElem_zipIdx, Nat.zero_add]
  rw [← hid]
  exact hchunks _ hmem

/-- The buckets of a key that did not fail have no hopeless chunk. -/
theorem not_hopeless_of_batch (hempty : k.EmptyStream) (hcoherent : Coherent s framings)
    (hsort : Sorts sort) (hplaced : AllPlaced s framings states)
    (hst : st ∈ states)
    (hok : failed (fetchBuckets k sha s.get sort (bucketsOf states) framings).1 st.1 = false)
    (href : ref ∈ st.2.chunks) {st' : K × ChunkManifest} (hst' : st' ∈ states)
    (href' : ref' ∈ st'.2.chunks)
    (hid : refID st'.2.tenant ref' = refID st.2.tenant ref) :
    ¬ Hopeless k sha s framings (refID st.2.tenant ref) ref' := by
  obtain ⟨i, hi⟩ := List.mem_iff_getElem?.mp href
  obtain ⟨i', hi'⟩ := List.mem_iff_getElem?.mp href'
  have hloc : (refID st.2.tenant ref, (⟨st.1, i, ref⟩ : ChunkLoc K)) ∈ locsOf st :=
    mem_locsOf.mpr ⟨rfl, hi, rfl⟩
  obtain ⟨b, hb, hpid, hl⟩ := exists_bucket hst hloc
  have hl' : (⟨st'.1, i', ref'⟩ : ChunkLoc K) ∈ b.locs :=
    (mem_bucket hb).mpr ⟨st', hst', mem_locsOf.mpr ⟨rfl, hi', hpid.trans hid.symm⟩⟩
  obtain ⟨out, hx⟩ := exists_fetched k sha s.get sort framings hb
  obtain ⟨written, rfl⟩ : ∃ written, out = .ok written := by
    by_contra hnone
    have := failed_iff.mpr ⟨_, hx, fun w hw => hnone ⟨w, hw⟩, _, hl, rfl⟩
    rw [hok] at this
    cases this
  obtain ⟨-, later, hsame, hout⟩ := mem_fetchBuckets_same (fun _ => rfl) hx
  have := not_hopeless_of_fetchBucket hempty hcoherent hsort hsame (hplaced.oneBlob hb) hout.symm _ hl'
  rwa [hpid] at this

/-- **The condition.**  Chunks of packs have a size.  A key has a hopeless chunk, or all chunks in its
    blobs, of whatever key, can be read. -/
structure Separable (k : Codec) (sha : Bytes → String) (s : BlobStore) (framings : FramingCache)
    (states : List (K × ChunkManifest)) : Prop where
  size : ∀ st ∈ states, ∀ ref ∈ st.2.chunks, ref.packHash ≠ "" → 0 ≤ ref.size
  keys : ∀ st ∈ states, (∃ ref ∈ st.2.chunks, Hopeless k sha s framings (refID st.2.tenant ref) ref)
    ∨ SharesReadable k sha s framings states st.2

/-- Every chunk can be read by everyone, or by no one. -/
def Settles (k : Codec) (sha : Bytes → String) (s : BlobStore) (framings : FramingCache)
    (states : List (K × ChunkManifest)) : Prop :=
  ∀ st ∈ states, ∀ ref ∈ st.2.chunks, Readable k sha s framings (refID st.2.tenant ref) ref
    ∨ Hopeless k sha s framings (refID st.2.tenant ref) ref

/-- The batch returns a key with some bytes exactly when `GetLatest` of the key, read to its end,
    delivers them. -/
def Agrees (k : Codec) (sha : Bytes → String) (s : BlobStore) (framings : FramingCache)
    (sort : List (ChunkLoc K) → List (ChunkLoc K)) (latest : K → Option (Option ChunkManifest))
    (keys : List K) : Prop :=
  ∃ out later, getLatestBatch k sha s.get sort latest keys framings = (.ok out, later)
    ∧ ∀ key bytes, (key, bytes) ∈ out ↔ key ∈ keys ∧ ∃ m, latest key = some (some m)
      ∧ Delivers k sha s.get Eq (newChunkStreamReader m) framings bytes

end Chunks

/-! ### One bad chunk -/

/-- Sort by offset. -/
def byOffset (locs : List (ChunkLoc Nat)) : List (ChunkLoc Nat) :=
  locs.insertionSort fun l l' => l.ref.offset ≤ l'.ref.offset

theorem sorts_byOffset : Sorts byOffset where
  perm locs := List.perm_insertionSort _ locs
  sorted locs :=
    have : Std.Total fun l l' : ChunkLoc Nat => l.ref.offset ≤ l'.ref.offset := ⟨fun _ _ => Int.le_total _ _⟩
    have : IsTrans (ChunkLoc Nat) fun l l' => l.ref.offset ≤ l'.ref.offset := ⟨fun _ _ _ => Int.le_trans⟩
    List.pairwise_insertionSort _ locs

/-- A store in which every blob is the same pack of two bytes, from before the framing. -/
def twoBytes (first second : UInt8) : BlobStore := ⟨fun _ => some [first, second], fun _ _ _ => false⟩

theorem whole_twoBytes (first second : UInt8) (id : String) :
    Whole plainCodec (twoBytes first second) (fun _ => none) id (.plain .forceWholePack 0)
      [first, second] :=
  ⟨rfl, rfl⟩

theorem aligned_twoBytes (first second : UInt8) (id : String) (ref : ChunkRef) :
    Aligned (twoBytes first second) (fun _ => none) id ref := by
  intro framing hframing halgo
  cases (whole_twoBytes first second id).framing.symm.trans hframing
  cases halgo

/-- The chunks of two keys, next to each other in a pack. -/
def leftRef : ChunkRef := ⟨"seven", "p", 0, 1⟩
def rightRef : ChunkRef := ⟨"other", "p", 1, 1⟩

def neighbours (key : Nat) : Option (Option ChunkManifest) :=
  some (some ⟨.v2, 1, "t", [if key = 0 then leftRef else rightRef]⟩)

theorem mem_neighbours {keys : List Nat} {st : Nat × ChunkManifest}
    (hst : st ∈ resolveManifests neighbours keys) {ref : ChunkRef} (href : ref ∈ st.2.chunks) :
    ref = leftRef ∨ ref = rightRef := by
  have hm := (mem_resolveManifests.mp hst).2
  rw [neighbours, Option.some_inj, Option.some_inj] at hm
  rw [← hm] at href
  rw [List.mem_singleton.mp href]
  split
  · exact .inl rfl
  · exact .inr rfl

theorem readable_leftRef (second : UInt8) (id : String) :
    Readable plainCodec toyDigest (twoBytes 7 second) (fun _ => none) id leftRef := by
  rw [Readable, if_neg (by decide)]
  exact ⟨_, _, whole_twoBytes 7 second id, by decide, by decide, Int.le.intro 1 rfl, rfl⟩

end MemoryLayer.Pack
