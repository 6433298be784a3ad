import MemoryLayer.Snapshot.PutSpec

namespace MemoryLayer.Snapshot

open Calls Prog

/-! # Collecting garbage

The mark-and-sweep collector (`chunked_gc.go`), as a program over the stores.  The live set is built
first, from a walk of the manifests or, for a domain whose associations are complete, from those.
Then the blobs are listed and the others are reclaimed one by one.  A listing comes in pages, and the
blobs of a page are looked at before the next page is asked for.

- `ChunkManifest.blobIDs`, `liveByManifests`, `liveByAssociations`: what a pass keeps.
- `ChunkedGC.liveSet`, `sweepOrphan`, `sweep`, `run`: a pass.
- `ChunkedGC.liveSetReading`, `runReading`: a pass that can read only some of the manifests; it logs the others and goes
  on without them.
- `sweeps_runReading`: **what a pass does when nobody else calls**, exactly.
- `Swept`, `swept_run`: what it deletes, when all manifests can be read.
- `spares_referenced_iff`: when no blob that a manifest names is deleted.
- `collects_all`: a pass over all domains deletes all garbage.
-/

/-- The options of a collector: whether there is a dedup store to purge, whether there are
    associations to ask, and the age from which blobs are reclaimed. -/
structure ChunkedGC where
  index : Bool
  assoc : Bool
  safetyWindow : Int
  deriving DecidableEq, Repr

/-- What a pass has done. -/
structure GCResult where
  chunksScanned : Nat
  manifestsScanned : Nat
  chunksReclaimed : Nat
  bytesReclaimed : Int
  chunksSkippedRecent : Nat
  chunksDeferredYoung : Nat
  liveFromAssociations : Bool
  deriving DecidableEq, Repr

/-- The blobs that a manifest refers to. -/
def ChunkManifest.blobIDs (m : ChunkManifest) : List BlobId :=
  match m.format with
  | .v1 => m.chunks.map fun ref => chunkBlobID m.tenant ref.hash
  | .v2 => m.chunks.map fun ref => packBlobID m.tenant ref.packHash

/-- A manifest that a pass reads; the empty filter is for all domains. -/
def inScope (domainFilter : String) (s : SnapshotVersion) : Bool :=
  s.isChunkedManifest ∧ (domainFilter = "" ∨ s.manifest.tenant = domainFilter)

/-- A manifest refers to the blob. -/
def liveByManifests (domainFilter : String) (snaps : List SnapshotVersion) (id : BlobId) : Bool :=
  snaps.any fun s => inScope domainFilter s && decide (id ∈ s.manifest.blobIDs)

/-- The blob is a pack that has an association. -/
def liveByAssociations (domain : String) (live : String → Bool) (id : BlobId) : Bool :=
  id = packBlobID domain id.hash ∧ live id.hash

namespace ChunkedGC

variable (g : ChunkedGC)

/-- The live set according to the associations, when they can be asked. -/
def liveFromAssociations (domainFilter : String) : StoreProg (Option (BlobId → Bool)) :=
  if ¬ g.assoc ∨ domainFilter = "" then pure none
  else do
    let done ← issue (.isBackfilled domainFilter)
    if done then do
      let live ← issue (.walkLivePacks domainFilter)
      pure (some (liveByAssociations domainFilter live))
    else pure none

def liveSet (domainFilter : String) (result : GCResult) :
    StoreProg ((BlobId → Bool) × GCResult) := do
  let fast ← g.liveFromAssociations domainFilter
  match fast with
  | some live => pure (live, { result with liveFromAssociations := true })
  | none => do
    let snaps ← issue .walk
    pure (liveByManifests domainFilter snaps,
      { result with manifestsScanned := (snaps.filter (inScope domainFilter)).length })

/-- A blob that may still become referenced is left for a later pass. -/
def tooYoung (timestamp : Int) : StoreProg Bool :=
  if 0 < g.safetyWindow then do
    let now ← issue .clock
    pure (now - timestamp < g.safetyWindow)
  else pure false

/-- Forget the locations in a pack, when there is a dedup store. -/
def purge (id : BlobId) : StoreProg Unit :=
  match id.packParts with
  | some (domain, packHash) => if g.index then issue (.purgePacks domain [packHash]) else pure ()
  | none => pure ()

/-- Reclaim a blob that is not live, unless it was touched since it was listed or is too young. -/
def sweepOrphan (md : BlobMetadata) (result : GCResult) : StoreProg GCResult := do
  let current ← issue (.getMetadata md.id)
  match current with
  | none => pure result
  | some cur =>
    if cur.timestamp ≠ md.timestamp then
      pure { result with chunksSkippedRecent := result.chunksSkippedRecent + 1 }
    else do
      let young ← g.tooYoung cur.timestamp
      if young then pure { result with chunksDeferredYoung := result.chunksDeferredYoung + 1 }
      else do
        g.purge md.id
        issue (.deleteBlob md.id)
        pure
          { result with
            chunksReclaimed := result.chunksReclaimed + 1
            bytesReclaimed := result.bytesReclaimed + md.length }

/-- Look at one listed blob. -/
def sweepOne (live : BlobId → Bool) (result : GCResult) (md : BlobMetadata) : StoreProg GCResult :=
  let result := { result with chunksScanned := result.chunksScanned + 1 }
  if live md.id then pure result else g.sweepOrphan md result

/-- Look at one page of a listing. -/
def sweepPage (live : BlobId → Bool) (result : GCResult) (page : Listing × (BlobId → Bool)) :
    StoreProg GCResult := do
  let listed ← issue (.listBlobs page.1)
  fold (g.sweepOne live) (listed.filter fun md => page.2 md.id) result

/-- What a pass lists. -/
def listings (domainFilter : String) : List Listing :=
  if domainFilter = "" then [.all .chunk, .all .pack]
  else [.ofTenant .chunk domainFilter, .ofTenant .pack domainFilter]

/-- A pass over one domain or all of them; `pages` says how the listings are cut into pages. -/
def run (domainFilter : String) (pages : List (BlobId → Bool)) : StoreProg GCResult := do
  let (live, result) ← g.liveSet domainFilter ⟨0, 0, 0, 0, 0, 0, false⟩
  fold (g.sweepPage live) ((listings domainFilter).product pages) result

variable (readable : SnapshotVersion → Bool) (domainFilter : String)

/-- The live set.  A manifest that cannot be fetched, read or parsed is skipped. -/
def liveSetReading (result : GCResult) : StoreProg ((BlobId → Bool) × GCResult) := do
  let fast ← g.liveFromAssociations domainFilter
  match fast with
  | some live => pure (live, { result with liveFromAssociations := true })
  | none => do
    let snaps ← issue .walk
    let read := snaps.filter readable
    pure (liveByManifests domainFilter read,
      { result with manifestsScanned := (read.filter (inScope domainFilter)).length })

/-- A pass. -/
def runReading (pages : List (BlobId → Bool)) : StoreProg GCResult := do
  let (live, result) ← g.liveSetReading readable domainFilter ⟨0, 0, 0, 0, 0, 0, false⟩
  fold (g.sweepPage live) ((listings domainFilter).product pages) result

theorem run_eq (pages : List (BlobId → Bool)) :
    g.run domainFilter pages = g.runReading (fun _ => true) domainFilter pages := by
  unfold run runReading liveSet liveSetReading
  simp only [List.filter_true]

/-- What a pass holds for live: the packs with an association, where the associations are complete, and otherwise
    what the manifests name that it could read. -/
def kept (w : World) : BlobId → Bool :=
  if g.assoc ∧ domainFilter ≠ "" ∧ w.dedup.isBackfilled domainFilter then
    liveByAssociations domainFilter (w.dedup.livePack domainFilter)
  else liveByManifests domainFilter (w.snaps.filter readable)

/-- The blob has the age from which blobs are reclaimed. -/
def ripe (now : Int) (b : Blob) : Bool := ¬ (0 < g.safetyWindow ∧ now - b.timestamp < g.safetyWindow)

/-- A page of a listing shows the blob. -/
def shown (domainFilter : String) (pages : List (BlobId → Bool)) (id : BlobId) : Bool :=
  ((listings domainFilter).product pages).any fun page => page.1.covers id && page.2 id

end ChunkedGC

/-! ### What a pass does -/

/-- The dedup store of a domain names the pack nowhere. -/
def World.Unnamed (w : World) (domain packHash : String) : Prop :=
  ∀ h ref, w.dedup.byDom domain h = some ref → ref.packHash ≠ packHash

/-- The second state is the first without the blobs of `drop`, and the dedup store has been purged of those. -/
structure Sweeps (g : ChunkedGC) (w w' : World) (drop : BlobId → Blob → Bool) : Prop where
  snaps : w'.snaps = w.snaps
  now : w'.now = w.now
  assoc : w'.dedup.assoc = w.dedup.assoc
  stored : ∀ id, w'.stored id = (w.stored id).filter fun b => !drop id b
  entries : ∀ domain h,
    w'.dedup.byDom domain h = w.dedup.byDom domain h ∨ w'.dedup.byDom domain h = none
  purged : g.index = true → ∀ id domain packHash, id.packParts = some (domain, packHash) →
    w'.stored id ≠ w.stored id → w'.Unnamed domain packHash

variable {g : ChunkedGC} {e : Env} {w w' w'' : World} {drop drop' : BlobId → Blob → Bool} {live : BlobId → Bool}

theorem Sweeps.refl (h : ∀ id b, w.stored id = some b → drop id b = false) : Sweeps g w w drop := by
  refine ⟨rfl, rfl, rfl, fun id => ?_, fun _ _ => .inl rfl, fun _ _ _ _ _ hne => absurd rfl hne⟩
  cases hb : w.stored id with
  | none => rfl
  | some b => simp [Option.filter, h id b hb]

theorem Sweeps.trans (h : Sweeps g w w' drop) (h' : Sweeps g w' w'' drop') :
    Sweeps g w w'' fun id b => drop id b || drop' id b := by
  refine ⟨h'.snaps.trans h.snaps, h'.now.trans h.now, h'.assoc.trans h.assoc, fun id => ?_, fun d x => ?_,
    fun hindex id d p hparts hne => ?_⟩
  · rw [h'.stored, h.stored, Option.filter_filter]
    simp only [Bool.not_or]
  · rcases h'.entries d x with hsame | hnone
    · rw [hsame]
      exact h.entries d x
    · exact .inr hnone
  · by_cases hsame : w'.stored id = w.stored id
    · exact h'.purged hindex id d p hparts (hsame ▸ hne)
    · -- what was purged before is not there again
      intro x ref hx
      rcases h'.entries d x with heq | hnone
      · exact h.purged hindex id d p hparts hsame x ref (heq ▸ hx)
      · rw [hnone] at hx
        cases hx

theorem Sweeps.congr (h : Sweeps g w w' drop) (heq : ∀ id b, w.stored id = some b → drop id b = drop' id b) :
    Sweeps g w w' drop' := by
  refine { h with stored := fun id => ?_ }
  rw [h.stored]
  cases hb : w.stored id with
  | none => rfl
  | some b => simp only [Option.filter, heq id b hb]

/-- Steps that delete blobs one after the other. -/
theorem sweeps_fold {γ : Type} {f : GCResult → γ → StoreProg GCResult} {drop : γ → BlobId → Blob → Bool} (now : Int)
    (hf : ∀ r x w, w.now = now → Sweeps g w ((f r x).exec (serve e) w).2 (drop x)) (xs : List γ) (r : GCResult)
    (hw : w.now = now) : Sweeps g w ((fold f xs r).exec (serve e) w).2 fun id b => xs.any fun x => drop x id b := by
  induction xs generalizing r w with
  | nil => exact .refl fun _ _ _ => rfl
  | cons x xs ih =>
    have hstep := hf r x w hw
    rw [fold, exec_bind]
    exact hstep.trans (ih _ (hstep.now.trans hw))

theorem exec_tooYoung (b : Blob) :
    (g.tooYoung b.timestamp).exec (serve e) w = (!g.ripe w.now b, w) := by
  unfold ChunkedGC.tooYoung ChunkedGC.ripe
  by_cases hyoung : w.now - b.timestamp < g.safetyWindow <;> split <;> simp [serve, *]

/-- Purging forgets the locations in the pack, and nothing else. -/
theorem sweeps_purge (id : BlobId) : Sweeps g w ((g.purge id).exec (serve e) w).2 (fun _ _ => false)
    ∧ (g.index = true → ∀ domain packHash, id.packParts = some (domain, packHash) →
      ((g.purge id).exec (serve e) w).2.Unnamed domain packHash) := by
  have hsame : Sweeps g w w fun _ _ => false := .refl fun _ _ _ => rfl
  unfold ChunkedGC.purge
  cases hparts : id.packParts with
  | none => exact ⟨hsame, nofun⟩
  | some parts =>
    obtain ⟨d, p⟩ := parts
    dsimp only
    by_cases hindex : g.index = true
    · rw [if_pos hindex, exec_perform]
      refine ⟨{ hsame with entries := fun d' x => ?_, purged := fun _ _ _ _ _ hne => absurd rfl hne }, ?_⟩
      · by_cases hd : d' = d
        · subst hd
          simp only [serve, MemoryDedupStore.purgePacks, Function.update_self]
          cases hx : w.dedup.byDom d' x with
          | none => simp
          | some ref => by_cases hp : ref.packHash ∈ [p] <;> simp [Option.filter, hp]
        · simp [serve, MemoryDedupStore.purgePacks, Function.update_of_ne hd]
      · intro _ d' p' heq x ref hx
        cases heq
        simp only [serve, MemoryDedupStore.purgePacks, Function.update_self] at hx
        have := (Option.filter_eq_some_iff.mp hx).2
        rintro rfl
        simp at this
    · rw [if_neg hindex]
      exact ⟨hsame, fun h => absurd h hindex⟩

/-- **One blob.**  It is deleted when it is not live, was not touched since it was listed, and has the age. -/
theorem sweeps_sweepOne (r : GCResult) (md : BlobMetadata) :
    Sweeps g w ((g.sweepOne live r md).exec (serve e) w).2 fun id b =>
      decide (md.id = id) && !live id && decide (b.timestamp = md.timestamp) && g.ripe w.now b := by
  have hsame : (∀ b, w.stored md.id = some b →
      (!live md.id && decide (b.timestamp = md.timestamp) && g.ripe w.now b) = false) →
      Sweeps g w w fun id b =>
        decide (md.id = id) && !live id && decide (b.timestamp = md.timestamp) && g.ripe w.now b := by
    refine fun h => .refl fun id b hb => ?_
    by_cases hid : md.id = id
    · subst hid
      simpa using h b hb
    · simp [hid]
  unfold ChunkedGC.sweepOne
  split
  · rename_i hlive
    exact hsame fun b _ => by simp [hlive]
  · rename_i hlive
    rw [ChunkedGC.sweepOrphan, exec_bind, exec_perform]
    simp only [serve, World.metadata]
    cases hb : w.stored md.id with
    | none => exact hsame fun b hb' => by simp [hb] at hb'
    | some cur =>
      simp only [Option.map_some, ne_eq]
      by_cases htouched : cur.timestamp = md.timestamp
      · rw [if_neg (not_not.mpr htouched), exec_bind, exec_tooYoung]
        cases hripe : g.ripe w.now cur with
        | false => exact hsame fun b hb' => by simp_all
        | true =>
          obtain ⟨hpurge, hunnamed⟩ := sweeps_purge (g := g) (e := e) (w := w) md.id
          have hstored : ∀ id, ((g.purge md.id).exec (serve e) w).2.stored id = w.stored id := fun id => by
            rw [hpurge.stored]
            cases w.stored id <;> rfl
          simp only [Bool.not_true, Bool.false_eq_true, if_false, exec_bind, exec_perform, exec_pure]
          refine ⟨hpurge.snaps, hpurge.now, hpurge.assoc, fun id => ?_, hpurge.entries,
            fun hindex id d p hparts hne => ?_⟩
          · rw [stored_deleteBlob, hstored]
            by_cases hid : id = md.id
            · subst hid
              rw [if_pos rfl, hb]
              simp [Option.filter, hlive, htouched, hripe]
            · rw [if_neg hid]
              cases w.stored id <;> simp [Option.filter, Ne.symm hid]
          · by_cases hid : id = md.id
            · exact hunnamed hindex d p (hid ▸ hparts)
            · rw [stored_deleteBlob, if_neg hid, hstored] at hne
              exact absurd rfl hne
      · rw [if_pos htouched]
        exact hsame fun b hb' => by simp_all

/-- **One page.**  Every blob that is there when the page is listed is looked at. -/
theorem sweeps_sweepPage (r : GCResult) (page : Listing × (BlobId → Bool)) :
    Sweeps g w ((g.sweepPage live r page).exec (serve e) w).2 fun id b =>
      page.1.covers id && page.2 id && !live id && g.ripe w.now b := by
  rw [ChunkedGC.sweepPage, exec_bind, exec_perform]
  refine (sweeps_fold w.now (fun r md w' hw' => hw' ▸ sweeps_sweepOne r md) _ r rfl).congr
    fun id b hb => ?_
  have hid : b.id = id := by simpa using List.find?_some hb
  have hmem : b ∈ w.blobs := List.mem_of_find?_eq_some hb
  rw [Bool.eq_iff_iff]
  simp only [serve, List.any_eq_true, List.mem_filter, List.mem_map, Bool.and_eq_true, decide_eq_true_eq]
  constructor
  · rintro ⟨md, ⟨⟨b', ⟨-, hcovers⟩, rfl⟩, hpage⟩, ⟨⟨rfl, hlive⟩, -⟩, hripe⟩
    exact ⟨⟨⟨hcovers, hpage⟩, hlive⟩, hripe⟩
  · rintro ⟨⟨⟨hcovers, hpage⟩, hlive⟩, hripe⟩
    subst hid
    exact ⟨_, ⟨⟨b, ⟨hmem, hcovers⟩, rfl⟩, hpage⟩, ⟨⟨rfl, hlive⟩, rfl⟩, hripe⟩

theorem exec_liveSetReading (e : Env) (g : ChunkedGC) (readable : SnapshotVersion → Bool) (domainFilter : String)
    (w : World) (result : GCResult) : ∃ result',
      (g.liveSetReading readable domainFilter result).exec (serve e) w = ((g.kept readable domainFilter w, result'), w) := by
  unfold ChunkedGC.liveSetReading ChunkedGC.liveFromAssociations ChunkedGC.kept
  by_cases hassoc : ¬ g.assoc ∨ domainFilter = ""
  · rw [if_pos hassoc, if_neg (by tauto)]
    exact ⟨_, rfl⟩
  · rw [if_neg hassoc]
    cases hdone : w.dedup.isBackfilled domainFilter with
    | true =>
      rw [if_pos (by tauto)]
      simp [serve, hdone]
    | false =>
      rw [if_neg (by tauto)]
      simp [serve, hdone]

/-- **What a pass deletes**: the blobs that a page shows, that it does not hold for live, and that have the age. -/
theorem sweeps_runReading (e : Env) (g : ChunkedGC) (readable : SnapshotVersion → Bool) (domainFilter : String)
    (pages : List (BlobId → Bool)) (w : World) :
    Sweeps g w ((g.runReading readable domainFilter pages).exec (serve e) w).2 fun id b =>
      ChunkedGC.shown domainFilter pages id && !g.kept readable domainFilter w id && g.ripe w.now b := by
  obtain ⟨result, hlive⟩ := exec_liveSetReading e g readable domainFilter w ⟨0, 0, 0, 0, 0, 0, false⟩
  rw [ChunkedGC.runReading, exec_bind, hlive]
  refine (sweeps_fold w.now (fun r page w' hw' => hw' ▸ sweeps_sweepPage r page) _ _ rfl).congr
    fun id b _ => ?_
  rw [Bool.eq_iff_iff]
  simp only [ChunkedGC.shown, List.any_eq_true, Bool.and_eq_true]
  constructor
  · rintro ⟨page, hpage, ⟨hshown, hlive⟩, hripe⟩
    exact ⟨⟨⟨page, hpage, hshown⟩, hlive⟩, hripe⟩
  · rintro ⟨⟨⟨page, hpage, hshown⟩, hlive⟩, hripe⟩
    exact ⟨page, hpage, ⟨hshown, hlive⟩, hripe⟩

/-! ### A pass alone -/

section Alone

variable (g : ChunkedGC) (domainFilter : String) (w : World)

/-- The blob is listed and not live, and has the age. -/
structure Doomed (id : BlobId) : Prop where
  listed : ∃ listing ∈ ChunkedGC.listings domainFilter, listing.covers id = true
  dead : liveByManifests domainFilter w.snaps id = false
    ∨ (g.assoc = true ∧ domainFilter ≠ "") ∧ w.dedup.isBackfilled domainFilter = true
      ∧ liveByAssociations domainFilter (w.dedup.livePack domainFilter) id = false
  old : ∃ b, w.stored id = some b ∧ (0 < g.safetyWindow → g.safetyWindow ≤ w.now - b.timestamp)

/-- What a pass does when nobody else calls: it deletes doomed blobs, which the dedup store does not
    name any more, and leaves the rest as it is. -/
structure Swept (w' : World) : Prop where
  snaps : w'.snaps = w.snaps
  now : w'.now = w.now
  assoc : w'.dedup.assoc = w.dedup.assoc
  stored : ∀ id, w'.stored id = w.stored id ∨ w'.stored id = none ∧ Doomed g domainFilter w id
    ∧ (g.index = true → ∀ domain packHash, id.packParts = some (domain, packHash) →
      w'.Unnamed domain packHash)
  entries : ∀ domain h,
    w'.dedup.byDom domain h = w.dedup.byDom domain h ∨ w'.dedup.byDom domain h = none

end Alone

/-- **A pass alone.** -/
theorem swept_run {domainFilter : String} (pages : List (BlobId → Bool)) :
    Swept g domainFilter w ((g.run domainFilter pages).exec (serve e) w).2 := by
  have h := sweeps_runReading e g (fun _ => true) domainFilter pages w
  rw [ChunkedGC.run_eq]
  refine ⟨h.snaps, h.now, h.assoc, fun id => ?_, h.entries⟩
  have hid := h.stored id
  cases hb : w.stored id with
  | none =>
    rw [hb] at hid
    exact .inl hid
  | some b =>
    rw [hb, Option.filter_some] at hid
    split at hid
    · exact .inl hid
    · rename_i hdrop
      simp only [Bool.not_eq_true', Bool.not_eq_false, Bool.and_eq_true] at hdrop
      obtain ⟨⟨hshown, hkept⟩, hripe⟩ := hdrop
      refine .inr ⟨hid, ⟨?_, ?_, b, hb, ?_⟩, fun hindex d p hparts => h.purged hindex id d p hparts ?_⟩
      · obtain ⟨page, hpage, hcovers⟩ := List.any_eq_true.mp hshown
        exact ⟨page.1, (List.pair_mem_product.mp hpage).1, (Bool.and_eq_true_iff.mp hcovers).1⟩
      · unfold ChunkedGC.kept at hkept
        split at hkept
        · rename_i hassoc
          exact .inr ⟨⟨hassoc.1, hassoc.2.1⟩, hassoc.2.2, by simpa using hkept⟩
        · exact .inl (by simpa using hkept)
      · intro hpos
        have := of_decide_eq_true hripe
        omega
      · rw [hid, hb]
        exact nofun

/-! ### Manifests that cannot be read -/

/-- **When a pass spares what manifests name.**  Each stored blob that a chunked manifest names has to be shown on no
    page, to be young, or to be live by what the pass could read. -/
theorem spares_referenced_iff (e : Env) (g : ChunkedGC) (readable : SnapshotVersion → Bool) (domainFilter : String)
    (pages : List (BlobId → Bool)) (w : World) :
    (∀ s ∈ w.snaps, s.isChunkedManifest = true → ∀ id ∈ s.manifest.blobIDs,
        ((g.runReading readable domainFilter pages).exec (serve e) w).2.stored id = w.stored id)
      ↔ ∀ s ∈ w.snaps, s.isChunkedManifest = true → ∀ id ∈ s.manifest.blobIDs, ∀ b, w.stored id = some b →
        ChunkedGC.shown domainFilter pages id = true → g.ripe w.now b = true →
          g.kept readable domainFilter w id = true := by
  refine forall₂_congr fun s _ => forall_congr' fun _ => forall₂_congr fun id _ => ?_
  rw [(sweeps_runReading e g readable domainFilter pages w).stored id]
  cases w.stored id with
  | none => simp
  | some b =>
    rw [Option.filter_some]
    simp only [Option.some.injEq, forall_eq']
    grind

/-- A hash, and a store in which one tenant has one pack with that hash, which its manifest names. -/
def someHash : String := String.ofList (List.replicate sha256HexLen '0')

def onePackOf (tenant : String) (now : Int) : World where
  blobs := [⟨packBlobID tenant someHash, ⟨.none, none, [1]⟩, 0⟩]
  snaps := [⟨⟨tenant, "", "", "object"⟩, "v1",
    ⟨"", Function.update (fun _ => none) "chunked_format" (some ManifestFormat.v2.name)⟩,
    ⟨.v2, 1, tenant, [⟨someHash, someHash, 0, 1⟩]⟩⟩]
  dedup := .empty
  puts := 1
  now := now

/-- The read of the only manifest fails, and a pass over all domains deletes the pack that it names. -/
theorem unreadable_manifest_loses_pack :
    liveByManifests "" (onePackOf "acme" 86400).snaps (packBlobID "acme" someHash) = true
      ∧ ((onePackOf "acme" 86400).stored (packBlobID "acme" someHash)).isSome = true
      ∧ ((((⟨true, false, 86400⟩ : ChunkedGC).runReading (fun _ => false) "" [fun _ => true]).exec
        (serve ⟨fun _ => "", fun _ => 0⟩) (onePackOf "acme" 86400)).2.stored (packBlobID "acme" someHash)).isSome
          = false := by
  decide

/-! ### All garbage -/

/-- **All garbage and nothing else.**  A pass over all domains that shows every blob leaves exactly the blobs that a
    manifest names or that are young, and a second pass at once deletes nothing more. -/
theorem collects_all (e : Env) (g : ChunkedGC) (pages : List (BlobId → Bool))
    (hpages : ∀ id, ∃ page ∈ pages, page id = true) (w : World) :
    let pass := fun w => ((g.run "" pages).exec (serve e) w).2
    ∀ id, (pass w).stored id
        = (w.stored id).filter (fun b => liveByManifests "" w.snaps id || !g.ripe w.now b)
      ∧ (pass (pass w)).stored id = (pass w).stored id := by
  intro pass id
  have hshown : ChunkedGC.shown "" pages id = true := by
    obtain ⟨page, hpage, hid⟩ := hpages id
    have hlisted : Listing.all id.kind ∈ ChunkedGC.listings "" := by cases id.kind <;> decide
    refine List.any_eq_true.mpr ⟨(.all id.kind, page), List.pair_mem_product.mpr ⟨hlisted, hpage⟩, ?_⟩
    simp [Listing.covers, hid]
  have hswept := fun w => sweeps_runReading e g (fun _ => true) "" pages w
  simp only [← ChunkedGC.run_eq, ChunkedGC.kept] at hswept
  have hpass : ∀ w, (pass w).stored id
      = (w.stored id).filter fun b => liveByManifests "" w.snaps id || !g.ripe w.now b := by
    intro w
    rw [(hswept w).stored id]
    simp [hshown]
  refine ⟨hpass w, ?_⟩
  rw [hpass (pass w), (hswept w).snaps, (hswept w).now, hpass w, Option.filter_filter]
  simp

/-- A pack without a manifest is deleted. -/
theorem collects_all_orphan :
    (((⟨true, false, 86400⟩ : ChunkedGC).run "" [fun _ => true]).exec (serve ⟨fun _ => "", fun _ => 0⟩)
      { onePackOf "acme" 86400 with snaps := [] }).2.stored (packBlobID "acme" someHash) = none :=
  (collects_all _ _ _ (fun _ => ⟨_, List.mem_singleton_self _, rfl⟩) _ _).1.trans (by decide)

end MemoryLayer.Snapshot
