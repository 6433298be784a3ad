import MemoryLayer.Snapshot.Gc

namespace MemoryLayer.Snapshot

open Calls Prog

/-! # Collecting for one tenant of a shared store

A router serves many tenants over one blob store, and collects for one of them at a time
(`GCForTenant`).  The pass lists the blobs whose names begin with the tenant's, but reads only the
tenant's own manifests.

- `gcForTenant`: how the router sets up a collector.
- `BelongsTo`, `Hosts`: whose blobs there are.
- `gcForTenant_spares_iff`: a pass spares the blobs of all others exactly when no other name begins
  with the tenant's name and a hyphen.
-/

/-- The collector for a tenant: it purges the shared dedup store and walks the manifests. -/
def gcForTenant (safetyWindow : Int) : ChunkedGC := ⟨true, false, safetyWindow⟩

/-- The blob was written under the tenant's domain. -/
def BelongsTo (tenant : String) (id : BlobId) : Prop :=
  ∃ hash, id = packBlobID tenant hash ∨ id = chunkBlobID tenant hash

/-- The stores hold blobs and manifests of the tenants. -/
structure Hosts (tenants : List String) (w : World) : Prop where
  blobs : ∀ b ∈ w.blobs, IsSha b.id.hash ∧ ∃ t ∈ tenants, BelongsTo t b.id
  snaps : ∀ s ∈ w.snaps, s.manifest.tenant ∈ tenants

theorem BelongsTo.segment {tenant : String} {id : BlobId} (h : BelongsTo tenant id) :
    id.segment = tenantSegment tenant := by
  obtain ⟨hash, rfl | rfl⟩ := h <;> rfl

/-- What is listed for a tenant has its name, or one that begins with it and a hyphen. -/
theorem listed_of_mem_listings {d : String} (hd : d ≠ "") {id : BlobId} {listing : Listing}
    (hlisting : listing ∈ ChunkedGC.listings d) (hcovers : listing.covers id = true) :
    id.segment = d ∨ (d ++ "-").toList <+: id.segment.toList := by
  have hlisted : id.listedFor d = true := by
    rw [ChunkedGC.listings, if_neg hd] at hlisting
    simp only [List.mem_cons, List.not_mem_nil, or_false] at hlisting
    rcases hlisting with rfl | rfl <;> exact (of_decide_eq_true hcovers).2
  have hsegment : tenantSegment d = d := if_neg hd
  rw [BlobId.listedFor, hsegment] at hlisted
  exact of_decide_eq_true hlisted

theorem isSha_someHash : IsSha someHash := ⟨by decide, by decide⟩

/-- A pass for `d` deletes the pack of a tenant whose name begins with `d` and a hyphen. -/
theorem gcForTenant_deletes (e : Env) (window : Int) {d t : String} (hd : d ≠ "") (ht : t ≠ "")
    (hne : t ≠ d) (hbegins : (d ++ "-").toList <+: t.toList) :
    (((gcForTenant window).run d [fun _ => true]).exec (serve e)
      (onePackOf t (max window 0))).2.stored (packBlobID t someHash) = none := by
  have hcovers : (Listing.ofTenant .pack d).covers (packBlobID t someHash) = true := by
    refine decide_eq_true ⟨rfl, ?_⟩
    rw [BlobId.listedFor, packBlobID, tenantSegment, tenantSegment, if_neg hd, if_neg ht]
    exact decide_eq_true (.inr hbegins)
  have hshown : ChunkedGC.shown d [fun _ => true] (packBlobID t someHash) = true := by
    refine List.any_eq_true.mpr ⟨(.ofTenant .pack d, fun _ => true), ?_, by simp [hcovers]⟩
    simp [ChunkedGC.listings, hd]
  -- the manifest that names the pack is not in the scope
  have hkept : (gcForTenant window).kept (fun _ => true) d (onePackOf t (max window 0)) (packBlobID t someHash)
      = false := by
    simp [ChunkedGC.kept, gcForTenant, liveByManifests, inScope, onePackOf, hne, hd]
  have hripe : (gcForTenant window).ripe (onePackOf t (max window 0)).now
      ⟨packBlobID t someHash, ⟨.none, none, [1]⟩, 0⟩ = true := by
    refine decide_eq_true ?_
    dsimp only [gcForTenant, onePackOf]
    omega
  have hstored : (onePackOf t (max window 0)).stored (packBlobID t someHash)
      = some ⟨packBlobID t someHash, ⟨.none, none, [1]⟩, 0⟩ := by simp [World.stored, onePackOf]
  rw [ChunkedGC.run_eq, (sweeps_runReading e _ _ d _ _).stored, hstored, Option.filter_some]
  exact if_neg (by simp [hshown, hkept, hripe])

theorem hosts_onePackOf {tenants : List String} {t : String} (ht : t ∈ tenants) (now : Int) :
    Hosts tenants (onePackOf t now) := by
  refine ⟨fun b hb => ?_, fun s hs => ?_⟩
  · rw [List.mem_singleton.mp hb]
    exact ⟨isSha_someHash, t, ht, someHash, .inl rfl⟩
  · rw [List.mem_singleton.mp hs]
    exact ht

/-- **When a tenant's pass spares the others.**  In every state of the shared store, a pass for `d`
    leaves the blobs of all other tenants alone, exactly when none of their names begins with `d` and
    a hyphen. -/
theorem gcForTenant_spares_iff (window : Int) (tenants : List String) (htenants : "" ∉ tenants)
    (d : String) (hd : d ≠ "") :
    (∀ (e : Env) (w : World) (pages : List (BlobId → Bool)), Hosts tenants w →
        ∀ t ∈ tenants, t ≠ d → ∀ id b, BelongsTo t id → w.stored id = some b →
          (((gcForTenant window).run d pages).exec (serve e) w).2.stored id = some b)
      ↔ ∀ t ∈ tenants, t ≠ d → ¬ (d ++ "-").toList <+: t.toList := by
  constructor
  · intro hspares t ht hne hbegins
    have htne : t ≠ "" := fun h => htenants (h ▸ ht)
    have hkept := hspares ⟨fun _ => "", fun _ => 0⟩ (onePackOf t (max window 0)) [fun _ => true]
      (hosts_onePackOf ht _) t ht hne (packBlobID t someHash)
      ⟨packBlobID t someHash, ⟨.none, none, [1]⟩, 0⟩ ⟨someHash, .inl rfl⟩
      (by simp [World.stored, onePackOf])
    rw [gcForTenant_deletes _ window hd htne hne hbegins] at hkept
    cases hkept
  · intro hbegins e w pages _ t ht hne id b hid hb
    have htne : t ≠ "" := fun h => htenants (h ▸ ht)
    have hsegment : id.segment = t := by rw [hid.segment, tenantSegment, if_neg htne]
    rcases (swept_run pages).stored id with hsame | ⟨-, hdoomed, -⟩
    · rw [hsame]
      exact hb
    · -- the blob is not even listed
      obtain ⟨listing, hlisting, hcovers⟩ := hdoomed.listed
      have hlisted := listed_of_mem_listings hd hlisting hcovers
      rw [hsegment] at hlisted
      exact absurd hlisted (not_or.mpr ⟨hne, hbegins t ht hne⟩)

/-- The tenants `acme` and `umbrella` share a store; the pass for `acme` leaves the pack of
    `umbrella` alone. -/
theorem gcForTenant_acme_spares_umbrella :
    (((gcForTenant 86400).run "acme" [fun _ => true]).exec (serve ⟨fun _ => "", fun _ => 0⟩)
      (onePackOf "umbrella" 86400)).2.stored (packBlobID "umbrella" someHash)
      = some ⟨packBlobID "umbrella" someHash, ⟨.none, none, [1]⟩, 0⟩ :=
  (gcForTenant_spares_iff 86400 ["acme", "umbrella"] (by decide) "acme" (by decide)).mpr (by decide)
    _ _ _ (hosts_onePackOf (by decide) _) "umbrella" (by decide) (by decide) _ _
    ⟨someHash, .inl rfl⟩ (by simp [World.stored, onePackOf])

/-- The tenants `acme` and `acme-eu` share a store, and `acme-eu` has one pack, which its manifest
    names.  The pass for `acme` deletes it. -/
theorem gcForTenant_acme_deletes_acme_eu :
    ((onePackOf "acme-eu" 86400).blob (packBlobID "acme-eu" someHash)).isSome = true
      ∧ liveByManifests "" (onePackOf "acme-eu" 86400).snaps (packBlobID "acme-eu" someHash) = true
      ∧ ((((gcForTenant 86400).run "acme" [fun _ => true]).exec (serve ⟨fun _ => "", fun _ => 0⟩)
        (onePackOf "acme-eu" 86400)).2.blob (packBlobID "acme-eu" someHash)).isSome = false := by
  decide

end MemoryLayer.Snapshot
