import MemoryLayer.Snapshot.CompactReads

namespace MemoryLayer.Snapshot

open Calls Prog Runs MemoryDedupStore

/-! # The live set of the associations

A collector can take the live packs of a domain from the associations instead of from the manifests.
This is safe when the associations hold every blob of every manifest of the domain.  Puts that pack
and have an owner keep it so; a put without packing or without an owner, the registration of packs
that nobody holds, and a compaction that rewrites a manifest do not.

- `Held`, `HeldIn`: the blobs of a manifest, or of all manifests of a domain, are held.
- `held_serve`: which calls keep them so.
- `Claiming`, `serves_claiming`, `heldIn_putBatch`: puts.
- `AssocOp`, `AssocOp.Tracks`: histories.
- `live_of_guarded`: what the manifests keep, the associations keep.
-/

/-- Every blob of the manifest is held by an association. -/
def Held (w : World) (m : ChunkManifest) : Prop :=
  ∀ id ∈ m.blobIDs, liveByAssociations m.tenant (w.dedup.livePack m.tenant) id = true

/-- All manifests of a domain are held. -/
def HeldIn (domain : String) (w : World) : Prop :=
  ∀ s ∈ w.snaps, s.manifest.tenant = domain → Held w s.manifest

/-- A call that writes no manifest of the domain and drops no associations of it. -/
def LeavesDomain (domain : String) : Call → Bool
  | .putSnapshot _ _ m => m.tenant ≠ domain
  | .dropContext d _ => d ≠ domain
  | _ => true

variable {d : String} {e : Env} {w w' : World} {m : ChunkManifest} {c : ChunkedStore}

/-- Associations are only added. -/
def World.HoldsMore (d : String) (w w' : World) : Prop :=
  ∀ p, w.dedup.livePack d p = true → w'.dedup.livePack d p = true

theorem World.HoldsMore.of_byPack
    (h : (w'.dedup.assoc d).byPack = (w.dedup.assoc d).byPack) : w.HoldsMore d w' := by
  intro p hp
  rw [MemoryDedupStore.livePack, h]
  exact hp

theorem Held.more (h : w.HoldsMore m.tenant w') (hm : Held w m) : Held w' m := by
  intro id hid
  have hlive := hm id hid
  simp only [liveByAssociations, decide_eq_true_eq] at hlive ⊢
  exact hlive.imp_right (h id.hash)

theorem HeldIn.of_snaps (h : HeldIn d w) (hsub : w'.snaps ⊆ w.snaps) (hmore : w.HoldsMore d w') :
    HeldIn d w' := by
  intro s hs hd
  refine (h s (hsub hs) hd).more ?_
  rw [hd]
  exact hmore

/-- Writing a manifest that is held, if it is of the domain. -/
theorem HeldIn.putSnapshot (h : HeldIn d w) (key : SnapshotKey) (md : SnapshotMetadata)
    (hm : m.tenant = d → Held w m) :
    HeldIn d (serve e w (.putSnapshot key md m)).2 := by
  exact forall_putSnapshot h hm

theorem holdsMore_associate (e : Env) (w : World) (d d' : String) (assocs : List PackAssociation) :
    w.HoldsMore d (serve e w (.associate d' assocs)).2 := by
  intro p hp
  simp only [serve, MemoryDedupStore.associate]
  split
  · exact hp
  · unfold MemAssoc.associate
    split
    · exact hp
    · rename_i a ha
      split at ha
      · cases ha
      · cases ha
        by_cases hd : d = d'
        · subst hd
          simp only [MemoryDedupStore.livePack, assoc_setAssoc_self,
            decide_eq_true_eq] at hp ⊢
          obtain ⟨x, hx⟩ := List.exists_mem_of_ne_nil _ hp
          exact List.ne_nil_of_mem ((MemAssoc.mem_byPack_foldl_insert ..).mpr (.inl hx))
        · rw [MemoryDedupStore.livePack, assoc_setAssoc, if_neg hd]
          exact hp

/-- A pack whose association was recorded is held. -/
theorem livePack_associate {assocs : List PackAssociation} {p x : String}
    (hok : (serve e w (.associate d assocs)).1 = true) (hmem : ⟨p, x⟩ ∈ assocs) :
    (serve e w (.associate d assocs)).2.dedup.livePack d p = true := by
  simp only [serve, MemoryDedupStore.associate, if_neg (List.ne_nil_of_mem hmem)] at hok ⊢
  cases ha : (w.dedup.assoc d).associate assocs with
  | none =>
    rw [ha] at hok
    cases hok
  | some a =>
    unfold MemAssoc.associate at ha
    split at ha
    · cases ha
    · cases ha
      simp only [MemoryDedupStore.livePack, assoc_setAssoc_self, decide_eq_true_eq]
      exact List.ne_nil_of_mem ((MemAssoc.mem_byPack_foldl_insert ..).mpr (.inr hmem))

/-- **Calls that leave the domain alone** keep its manifests held and its associations. -/
theorem held_serve {k : Call} (h : HeldIn d w) (hgood : LeavesDomain d k = true) :
    HeldIn d (serve e w k).2 ∧ w.HoldsMore d (serve e w k).2 := by
  have hsame : ∀ w' : World, w'.snaps ⊆ w.snaps →
      (w'.dedup.assoc d).byPack = (w.dedup.assoc d).byPack → HeldIn d w' ∧ w.HoldsMore d w' :=
    fun w' hsnaps hassoc => ⟨h.of_snaps hsnaps (.of_byPack hassoc), .of_byPack hassoc⟩
  -- the calls on the marks change the states of one domain
  have hmarks : ∀ d' (a : MemAssoc), a.byPack = (w.dedup.assoc d').byPack →
      HeldIn d { w with dedup := w.dedup.setAssoc d' a }
        ∧ w.HoldsMore d { w with dedup := w.dedup.setAssoc d' a } := by
    intro d' a ha
    refine hsame _ (List.Subset.refl _) ?_
    by_cases hd : d = d'
    · subst hd
      rw [assoc_setAssoc_self, ha]
    · rw [assoc_setAssoc, if_neg hd]
  cases k with
  | associate d' assocs =>
    have hmore := holdsMore_associate e w d d' assocs
    exact ⟨h.of_snaps (List.Subset.refl _) hmore, hmore⟩
  | putSnapshot key md m =>
    refine ⟨h.putSnapshot key md fun hm => ?_, fun p hp => hp⟩
    simp [LeavesDomain, hm] at hgood
  | dropContext d' x =>
    have hd : d ≠ d' := fun hd => by simp [LeavesDomain, hd] at hgood
    refine hsame _ (List.Subset.refl _) ?_
    simp only [serve, dropContext_eq]
    rw [assoc_setAssoc, if_neg hd]
  | markObliterating d' p => exact hmarks d' _ (MemAssoc.byPack_markObliterating ..)
  | releaseMark d' p => exact hmarks d' _ (MemAssoc.byPack_releaseMark ..)
  | commitObliterated d' p => exact hmarks d' _ (MemAssoc.byPack_commitObliterated ..)
  | putIfAbsent id content =>
    obtain ⟨blobs, hblobs⟩ := serve_putIfAbsent e w id content
    rw [hblobs]
    exact hsame _ (List.Subset.refl _) rfl
  | deleteSnapshot key version => exact hsame _ (List.filter_subset_self _) rfl
  | _ => exact hsame _ (List.Subset.refl _) rfl

/-! ### Puts -/

/-- A put of this object in the domain packs its chunks and has an owner, or there are none. -/
def TracksItem (d : String) (c : ChunkedStore) (item : BatchPutItem) : Prop :=
  c.domainFor item.key = d → item.data = []
    ∨ c.packTargetBytes ≠ packingDisabled ∧ contextFor item.key item.md ≠ ""

/-- A put under way: what it has claimed is held. -/
structure Claiming (d : String) (log : Log) (w : World) : Prop where
  held : HeldIn d w
  claimed : ∀ p x, log.Associated d p x → w.dedup.livePack d p = true

/-- A call that leaves the domain alone, and what it has claimed. -/
theorem Claiming.next {log : Log} (h : Claiming d log w) {k : Call} (hgood : LeavesDomain d k = true)
    (hclaim : ∀ p x, Log.Associated [⟨k, (serve e w k).1⟩] d p x →
      (serve e w k).2.dedup.livePack d p = true) :
    Claiming d (log ++ [⟨k, (serve e w k).1⟩]) (serve e w k).2 := by
  obtain ⟨hheld, hmore⟩ := held_serve (e := e) h.held hgood
  refine ⟨hheld, fun p x hassoc => ?_⟩
  obtain ⟨assocs, hmem, hp⟩ := hassoc
  rcases List.mem_append.mp hmem with hmem | hmem
  · exact hmore p (h.claimed p x ⟨assocs, hmem, hp⟩)
  · exact hclaim p x ⟨assocs, hmem, hp⟩

theorem split_nil (c : ChunkedStore) : c.split [] = [] := rfl

/-- **The manifests of a domain stay held while a put runs.** -/
theorem serves_claiming (hindex : c.index = .global) {P : ChunkSpec}
    {items : List BatchPutItem} (hitems : ∀ item ∈ items, TracksItem d c item) :
    Serves (putRules c P items) (serve e) (Claiming d) := by
  intro log w k h hok
  refine ⟨trivial, ?_⟩
  cases k with
  | lookup d' x => exact h.next rfl (by simp [Log.Associated])
  | getLatest key => exact h.next rfl (by simp [Log.Associated])
  | putIfAbsent id content => exact h.next rfl (by simp [Log.Associated])
  | record d' locs => exact h.next rfl (by simp [Log.Associated])
  | associate d' assocs =>
    refine h.next rfl fun p x hassoc => ?_
    obtain ⟨assocs', hmem, hp⟩ := hassoc
    have heq := List.mem_singleton.mp hmem
    rw [Sigma.mk.injEq] at heq
    obtain ⟨hcall, hanswer⟩ := heq
    cases hcall
    exact livePack_associate (eq_of_heq hanswer).symm hp
  | putSnapshot key md m =>
    refine ⟨h.held.putSnapshot key md fun hd => ?_, fun p x hassoc => ?_⟩
    · obtain ⟨item, hitem, -, -, hwritten | hwritten⟩ := hok
      · have htracks := hitems item hitem (hwritten.tenant.symm.trans hd)
        rcases htracks with hnil | ⟨-, hcontext⟩
        · -- an object without chunks
          have hnone : m.chunks = [] := by
            have := hwritten.hashes
            rwa [hnil, split_nil, List.map_nil, List.map_eq_nil_iff] at this
          intro id hid
          simp [ChunkManifest.blobIDs, hwritten.format, hnone] at hid
        · intro id hid
          simp only [ChunkManifest.blobIDs, hwritten.format, List.mem_map] at hid
          obtain ⟨ref, href, rfl⟩ := hid
          have hassoc := hwritten.held hindex hcontext ref href
          rw [← hwritten.tenant, hd] at hassoc
          have hlive := h.claimed _ _ hassoc
          rw [hd]
          simp only [liveByAssociations, decide_eq_true_eq]
          exact ⟨rfl, hlive⟩
      · rcases hitems item hitem (hwritten.tenant.symm.trans hd) with hnil | ⟨hpacks, -⟩
        · have hnone : m.chunks = [] := by rw [hwritten.chunks, hnil, split_nil, List.map_nil]
          intro id hid
          simp [ChunkManifest.blobIDs, hwritten.format, hnone] at hid
        · exact absurd hwritten.disabled hpacks
    · obtain ⟨assocs, hmem, hp⟩ := hassoc
      rcases List.mem_append.mp hmem with hmem | hmem
      · exact h.claimed p x ⟨assocs, hmem, hp⟩
      · simp at hmem
  | _ => exact absurd hok id

/-- **A put keeps the manifests of a domain held.** -/
theorem heldIn_putBatch (e : Env) (hsha : ∀ b, c.sha b ≠ "")
    (hindex : c.index = .global) (items : List BatchPutItem)
    (hitems : ∀ item ∈ items, TracksItem d c item) (h : HeldIn d w) :
    HeldIn d ((c.putBatch items).exec (serve e) w).2 := by
  have hmeets : (c.putBatch items).Meets (putRules c .any items) [] _ :=
    meets_putBatch hsha (fits_any _)
  obtain ⟨log, hlog, -⟩ := hmeets.exec (serves_claiming hindex hitems)
    ⟨h, by simp [Log.Associated]⟩
  exact hlog.held

/-! ### Histories -/

/-- A store whose index keeps associations. -/
def ChunkedStore.associating (c : ChunkedStore) : ChunkedStore := { c with index := .global }

/-- The operations on manifests, of stores whose index keeps associations. -/
inductive AssocOp where
  | put (c : ChunkedStore) (key : SnapshotKey) (md : SnapshotMetadata) (data : Bytes)
  | putBatch (c : ChunkedStore) (items : List BatchPutItem)
  | registerManifest (c : ChunkedStore) (key : SnapshotKey) (md : SnapshotMetadata)
    (chunks : List ChunkLocation)
  | updateLatestMeta (key : SnapshotKey) (tags : List (String × String))
  | compact (c : ChunkedStore) (cfg : CompactConfig) (order : MapOrder) (domain : String)
  | delete (key : SnapshotKey) (version : String)
  | tick (duration : Nat)

/-- Carry out an operation, with nobody else calling. -/
def AssocOp.step (sha : Bytes → String) (e : Env) (w : World) : AssocOp → World
  | .put c key md data => ((({ c with sha := sha }).associating.put key md data).exec (serve e) w).2
  | .putBatch c items => ((({ c with sha := sha }).associating.putBatch items).exec (serve e) w).2
  | .registerManifest c key md chunks => ((c.registerManifest key md chunks).exec (serve e) w).2
  | .updateLatestMeta key tags => ((ChunkedStore.updateLatestMeta key tags).exec (serve e) w).2
  | .compact c cfg order domain =>
    ((({ c with sha := sha }).associating.compact cfg order domain).exec (serve e) w).2
  | .delete key version => ((ChunkedStore.delete key version).exec (serve e) w).2
  | .tick duration => { w with now := w.now + duration }

/-- The operation writes no manifest of the domain without claiming its packs: puts pack and have an
    owner, only packs that are held are registered, and a compaction rewrites no manifest. -/
def AssocOp.Tracks (d : String) (sha : Bytes → String) (e : Env) (w : World) : AssocOp → Prop
  | .put c key md data => TracksItem d c ⟨key, md, data⟩
  | .putBatch c items => ∀ item ∈ items, TracksItem d c item
  | .registerManifest c key _ chunks => c.domainFor key = d →
    ∀ loc ∈ chunks, w.dedup.livePack d loc.ref.packHash = true
  | .compact c cfg order domain => (({ c with sha := sha }).associating.compact cfg order domain).Along
    (serve e) (fun _ k => LeavesDomain d k) w
  | _ => True

theorem heldIn_registerManifest (e : Env) (c : ChunkedStore) (key : SnapshotKey)
    (md : SnapshotMetadata) {chunks : List ChunkLocation} (h : HeldIn d w)
    (hchunks : c.domainFor key = d → ∀ loc ∈ chunks, w.dedup.livePack d loc.ref.packHash = true) :
    HeldIn d ((c.registerManifest key md chunks).exec (serve e) w).2 := by
  unfold ChunkedStore.registerManifest
  split
  · exact h
  · split
    · exact h
    · rw [exec_bind]
      refine h.putSnapshot key _ fun hd id hid => ?_
      simp only [ChunkManifest.blobIDs, List.map_map, List.mem_map, Function.comp_apply] at hid
      obtain ⟨loc, hloc, rfl⟩ := hid
      dsimp only at hd ⊢
      rw [hd]
      simp only [liveByAssociations, decide_eq_true_eq]
      exact ⟨rfl, hchunks hd loc hloc⟩

theorem heldIn_updateLatestMeta (e : Env) (key : SnapshotKey) (tags : List (String × String))
    (h : HeldIn d w) : HeldIn d ((ChunkedStore.updateLatestMeta key tags).exec (serve e) w).2 := by
  rw [ChunkedStore.updateLatestMeta, exec_bind, exec_perform]
  cases hlatest : w.latest key with
  | none =>
    simp only [serve, hlatest]
    exact h
  | some s =>
    simp only [serve, hlatest]
    rw [exec_bind]
    exact h.putSnapshot key _ fun hd => h s (World.mem_snaps_of_latest hlatest) hd

theorem heldIn_step {sha : Bytes → String} (hsha : ∀ b, sha b ≠ "") (e : Env) (w : World)
    (op : AssocOp) (h : HeldIn d w) (hok : op.Tracks d sha e w) : HeldIn d (op.step sha e w) := by
  cases op with
  | put c key md data =>
    refine heldIn_putBatch e (c := ({ c with sha := sha }).associating) hsha rfl [⟨key, md, data⟩] ?_ h
    exact fun item hitem => by rw [List.mem_singleton.mp hitem]; exact hok
  | putBatch c items =>
    refine heldIn_putBatch e (c := ({ c with sha := sha }).associating) hsha rfl items ?_ h
    exact fun item hitem => hok item hitem
  | registerManifest c key md chunks => exact heldIn_registerManifest e c key md h hok
  | updateLatestMeta key tags => exact heldIn_updateLatestMeta e key tags h
  | compact c cfg order domain =>
    have hstep : ∀ w k, HeldIn d w → LeavesDomain d k = true → HeldIn d (serve e w k).2 :=
      fun w k h hgood => (held_serve h hgood).1
    exact invariant_of_along (HeldIn d) hstep hok h
  | delete key version => exact (held_serve (e := e) (k := .deleteSnapshot key version) h rfl).1
  | tick duration => exact h

/-! ### Some histories -/

/-- An empty store whose domain has been backfilled. -/
def backfilledStore (d : String) : World := { World.empty with dedup := MemoryDedupStore.empty.markBackfilled d }

/-- The collector over the dedup store, which asks the associations. -/
def associationGC : ChunkedGC := ⟨true, true, 0⟩

/-- A put with an owner. -/
def ownedPut : List AssocOp := [.put byteStore ⟨"acme", "", "", "object"⟩ plainMeta [1, 2]]

/-- The histories that lose data: a put that does not pack, one without an owner, and a compaction. -/
def untrackedHistories : List (List AssocOp × BlobId) :=
  [([.put { byteStore with packTargetBytes := packingDisabled } ⟨"acme", "", "", "object"⟩ plainMeta [1]],
      chunkBlobID "acme" (spell [1])),
    ([.put byteStore ⟨"acme", "", "", ""⟩ plainMeta [1, 2]], packBlobID "acme" (spell [1, 2])),
    ([.put pairStore ⟨"acme", "", "", "a"⟩ plainMeta [1], .put pairStore ⟨"acme", "", "", "b"⟩ plainMeta [2],
        .compact pairStore smallPacks ⟨id, fun _ => .refl _⟩ "acme"],
      packBlobID "acme" (spell [1, 2]))]

/-- After this history a manifest refers to the blob, and the collector deletes it. -/
def losesData (ops : List AssocOp) (id : BlobId) : Bool :=
  let w := run (AssocOp.step spell exampleEnv) (backfilledStore "acme") ops
  liveByManifests "acme" w.snaps id && (w.stored id).isSome
    && (((associationGC.run "acme" [fun _ => true]).exec (serve exampleEnv) w).2.stored id).isNone

end MemoryLayer.Snapshot
