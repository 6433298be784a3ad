import MemoryLayer.Snapshot.IndexValid

namespace MemoryLayer.Snapshot

open Calls Prog Runs

/-! # Packs of the last snapshot

With the index over the last manifest of the key, a put takes references from that manifest as they are.
The packs they name are stored under the domain of that manifest, which is another one than that of the new
manifest when the store has been configured anew.

- `Rooted`: the packs of a manifest are stored under its own domain.
- `SameDomain`: nothing is taken from a manifest of another domain.
- `manifests_rooted`: **all manifests are rooted in every history of puts that take nothing from manifests of
  other domains.**
-/

/-- The packs of the manifest are stored under its domain. -/
def Rooted (w : World) (m : ChunkManifest) : Prop :=
  m.format = .v2 → ∀ r ∈ m.chunks, w.Has m.tenant r.packHash

/-- The snapshot is of the domain of the put, or its packs have no chunk of the object.  A pack that is only
    the chunk does not count. -/
def Own (c : ChunkedStore) (items : List BatchPutItem) (key : SnapshotKey) (s : SnapshotVersion) : Prop :=
  s.manifest.tenant = c.domainFor key ∨ s.manifest.format ≠ .v2
    ∨ ∀ item ∈ items, item.key = key → ∀ chunk ∈ c.split item.data, ∀ r ∈ s.manifest.chunks,
      r.hash = c.sha chunk → r.packHash = "" ∨ r.packHash = r.hash

/-- The last snapshot is of the domain of the put, when it is read. -/
def SameDomain (c : ChunkedStore) (items : List BatchPutItem) (w : World) : Call → Prop
  | .getLatest key => ∀ s ∈ w.latest key, Own c items key s
  | _ => True

section Put

variable {c : ChunkedStore} {P : ChunkSpec} {items : List BatchPutItem} {e : Env} {w w' : World} {log : Log}
  {m : ChunkManifest} {event : Event}

theorem Rooted.mono (h : Rooted w m) (hhas : ∀ d p, w.Has d p → w'.Has d p) : Rooted w' m :=
  fun hformat r hr => hhas _ _ (h hformat r hr)

/-- The packs that a put is told of are stored. -/
def Stored (c : ChunkedStore) (items : List BatchPutItem) (w : World) : Event → Prop
  | ⟨.lookup d _, a⟩ => ∀ ref, a = some ref → w.Has d ref.packHash
  | ⟨.getLatest key, a⟩ => ∀ s, a = some s → Rooted w s.manifest ∧ Own c items key s
  | _ => True

theorem Stored.mono (h : Stored c items w event) (hhas : ∀ d p, w.Has d p → w'.Has d p) :
    Stored c items w' event := by
  obtain ⟨k, a⟩ := event
  cases k with
  | lookup d x => exact fun ref href => hhas _ _ (h ref href)
  | getLatest key => exact fun s hs => (h s hs).imp_left fun hrooted => hrooted.mono hhas
  | _ => trivial

/-- A put under way: manifests are rooted, those that it has read as well. -/
structure Rooting (c : ChunkedStore) (items : List BatchPutItem) (log : Log) (w : World) : Prop extends
    Putting c.sha log w where
  rooted : ∀ s ∈ w.snaps, Rooted w s.manifest
  told : ∀ event ∈ log, Stored c items w event

theorem Rooting.next (h : Rooting c items log w) (hput : Putting c.sha (log ++ [event]) w')
    (hhas : ∀ d p, w.Has d p → w'.Has d p) (hsnaps : ∀ s ∈ w'.snaps, Rooted w' s.manifest)
    (hevent : Stored c items w' event) : Rooting c items (log ++ [event]) w' :=
  ⟨hput, hsnaps, List.forall_mem_append.mpr
    ⟨fun event' hmem => (h.told event' hmem).mono hhas, List.forall_mem_singleton.mpr hevent⟩⟩

/-- The packs of what a put writes are stored under its domain. -/
theorem Rooting.written (h : Rooting c items log w) {item : BatchPutItem} (hitem : item ∈ items)
    (hm : Written c P log item m) : Rooted w m := by
  intro _ r hr
  rw [hm.tenant]
  obtain ⟨hne, hsource⟩ := hm.refs r hr
  rcases hsource with hat | hfound | ⟨s, hs, hformat, hmem, hself⟩
  · exact h.uploaded _ _ hat.uploaded
  · exact h.told _ hfound _ rfl
  · obtain ⟨hrooted, htenant | hv1 | hnone⟩ := h.told _ hs s rfl
    · rw [← htenant]
      exact hrooted hformat _ hmem
    · exact absurd hformat hv1
    · -- the chunk of the reference is one of the object
      have hchunk : r.hash ∈ (c.split item.data).map c.sha := by
        rw [← hm.hashes]
        exact List.mem_map_of_mem hr
      obtain ⟨chunk, hchunk, hhash⟩ := List.mem_map.mp hchunk
      rcases hnone item hitem rfl chunk hchunk _ hmem hhash.symm with hempty | hsame
      · exact absurd hempty hne
      · exact absurd hsame hself

/-- **The manifests stay rooted while a put runs.** -/
theorem serves_rooting (e : Env) :
    ServesWhile (SameDomain c items) (putRules c P items) (serve e) (Rooting c items) := by
  intro log w k h hok hgood
  have hput := (serves_put e log w k h.toPutting hok).2
  refine ⟨trivial, ?_⟩
  cases k with
  | lookup d x =>
    refine h.next hput (fun _ _ => id) h.rooted fun ref href => ?_
    exact (h.index d x ref (Option.filter_eq_some_iff.mp href).1).1
  | getLatest key =>
    refine h.next hput (fun _ _ => id) h.rooted fun s hs => ?_
    exact ⟨h.rooted s (World.mem_snaps_of_latest hs), hgood s hs⟩
  | putIfAbsent id content =>
    have hhas : ∀ d p, w.Has d p → (serve e w (.putIfAbsent id content)).2.Has d p := fun _ _ => World.Has.upload
    refine h.next hput hhas (fun s hs => ?_) trivial
    obtain ⟨blobs, hblobs⟩ := serve_putIfAbsent e w id content
    rw [hblobs] at hs
    exact (h.rooted s hs).mono hhas
  | record d locs => exact h.next hput (fun _ _ => id) h.rooted trivial
  | associate d assocs => exact h.next hput (fun _ _ => id) h.rooted trivial
  | putSnapshot key md m =>
    refine h.next hput (fun _ _ => id) (forall_putSnapshot h.rooted ?_) trivial
    obtain ⟨item, hitem, -, -, hwritten | hwritten⟩ := hok
    · exact h.written hitem hwritten
    · intro hformat
      rw [hwritten.format] at hformat
      cases hformat
  | _ => exact absurd hok id

end Put

/-! ### Histories -/

/-- A put under some configuration; the hash function is always the same. -/
structure ConfiguredPut where
  store : ChunkedStore
  item : BatchPutItem

/-- Carry out a put, with nobody else calling. -/
def ConfiguredPut.step (sha : Bytes → String) (e : Env) (w : World) (p : ConfiguredPut) : World :=
  ((({ p.store with sha := sha }).put p.item.key p.item.md p.item.data).exec (serve e) w).2

/-- The put takes nothing from a manifest of another domain. -/
def ConfiguredPut.StaysInDomain (sha : Bytes → String) (e : Env) (w : World) (p : ConfiguredPut) : Prop :=
  (({ p.store with sha := sha }).put p.item.key p.item.md p.item.data).Along (serve e)
    (SameDomain { p.store with sha := sha } [p.item]) w

/-- **Packs of the last snapshot.**  In every history of puts, under whatever configurations, that take
    nothing from manifests of other domains, the packs of all manifests are stored under their own domains. -/
theorem manifests_rooted (sha : Bytes → String) (hsha : ∀ b, sha b ≠ "") (e : Env) (puts : List ConfiguredPut)
    (hok : Guarded (ConfiguredPut.step sha e) (ConfiguredPut.StaysInDomain sha e) .empty puts) :
    ∀ s ∈ (run (ConfiguredPut.step sha e) .empty puts).snaps,
      Rooted (run (ConfiguredPut.step sha e) .empty puts) s.manifest := by
  have hinv := invariant_of_guarded (fun w => Valid sha w ∧ ∀ s ∈ w.snaps, Rooted w s.manifest)
    (fun w p ⟨hvalid, hrooted⟩ hp => ?_) ⟨valid_empty sha, nofun⟩ hok
  · exact hinv.2
  · have hmeets : (({ p.store with sha := sha }).put p.item.key p.item.md p.item.data).Meets
        (putRules { p.store with sha := sha } .any [p.item]) [] _ := meets_putBatch hsha (fits_any _)
    have hstart : Rooting { p.store with sha := sha } [p.item] [] w :=
      ⟨putting_start hvalid, hrooted, by simp⟩
    obtain ⟨log, hlog, -⟩ := hmeets.exec_along (serves_rooting e) hp hstart
    exact ⟨hlog.toValid, hlog.rooted⟩

/-- An object is put twice; the domain of the store may be set in between. -/
def putTwice (domain : String) : List ConfiguredPut :=
  let store : ChunkedStore := { byteStore with index := .priorManifest }
  let item : BatchPutItem := ⟨⟨"acme", "", "", "object"⟩, plainMeta, [1, 2]⟩
  [⟨store, item⟩, ⟨{ store with dedupDomain := domain }, item⟩]

def afterTwice (domain : String) : World := run (ConfiguredPut.step spell exampleEnv) .empty (putTwice domain)

/-- In the same domain the second snapshot has the pack of the first one. -/
theorem manifests_rooted_acme : (afterTwice "acme").snaps.length = 2
    ∧ ∀ s ∈ (afterTwice "acme").snaps, Rooted (afterTwice "acme") s.manifest :=
  ⟨by decide, manifests_rooted spell spell_ne_empty exampleEnv (putTwice "acme")
    ⟨⟨nofun, trivial, trivial, trivial⟩,
      ⟨fun s hs => .inl (by cases hs; rfl), trivial, trivial⟩, trivial⟩⟩

/-- In another domain it has that pack as well, which is not there. -/
theorem reused_pack_in_other_domain :
    (∃ s ∈ (afterTwice "shared").snaps, s.manifest.format = .v2
      ∧ ∃ r ∈ s.manifest.chunks, ¬ (afterTwice "shared").Has s.manifest.tenant r.packHash)
    ∧ (afterTwice "shared").getLatest spell ⟨"acme", "", "", "object"⟩ = some (.error .missingBlob) := by
  unfold World.Has
  decide

end MemoryLayer.Snapshot
