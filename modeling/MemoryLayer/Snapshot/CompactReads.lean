import MemoryLayer.Snapshot.Framing
import MemoryLayer.Snapshot.IndexValid

namespace MemoryLayer.Snapshot

open Calls Prog Runs World

/-! # Objects are read as before a compaction

A compaction that nobody disturbs, cut off after any of its calls.  The packs of the stores before the
pass stay, a key has its old versions or a rewritten manifest beside or in place of a single one, and
the references of a rewritten manifest are to the same chunks.

- `KeyState`: the versions of a key during a pass.
- `Passing`, `serves_passing`: what holds during a pass.
- `compact_keeps_reads`: every key is read as before, wherever the pass ends.
-/

section Pass

variable (c : ChunkedStore) (domain : String) (w₀ : World)

/-- A reference to a pack that could be read before the pass. -/
def RefBefore (r : ChunkRef) : Prop := r.packHash ≠ "" ∧ w₀.Reads c.sha domain r

/-- A pack that was there before the pass. -/
def PackBefore (packHash : String) (b : PackBlob) : Prop :=
  w₀.blob (packBlobID domain packHash) = some b

/-- A manifest has been rewritten, and its old version is there or not. -/
structure RewrittenKey (log : Log) (w : World) (key : SnapshotKey) (old new : SnapshotVersion) :
    Prop where
  written : ¬ Untouched log key
  before : w₀.versionsOf key = [old]
  now : w.versionsOf key = [old, new] ∨ w.versionsOf key = [new]
  version_ne : new.version ≠ old.version
  tenant : old.manifest.tenant = domain
  manifest : new.manifest = { old.manifest with chunks := new.manifest.chunks }
  chunks : List.Forall₂ (Moved c domain (RefBefore c domain w₀) (PackBefore domain w₀) log)
    old.manifest.chunks new.manifest.chunks

/-- The versions of a key during a pass. -/
def KeyState (log : Log) (w : World) (key : SnapshotKey) : Prop :=
  Untouched log key ∧ w.versionsOf key = w₀.versionsOf key
    ∨ ∃ old new, RewrittenKey c domain w₀ log w key old new

/-- What a pass has been told is so. -/
def Said (w : World) : Event → Prop
  | ⟨.putIfAbsent id content, _⟩ => w.Keeps id content
  | ⟨.getLatest key, a⟩ => a = w₀.latest key
  | ⟨.listVersions key, a⟩ => a = w₀.versionsOf key
  | _ => True

/-- A pass under way. -/
structure Passing (e : Env) (log : Log) (w : World) : Prop where
  grows : w₀.Grows w
  blobs : ∀ id b, w.blob id = some b → c.sha b.raw = id.hash ∧ b.Framed
  versions : ∀ s ∈ w.snaps, ∃ n < w.puts, s.version = e.versions n
  said : ∀ event ∈ log, Said w₀ w event
  keys : ∀ key, KeyState c domain w₀ log w key

end Pass

variable {c : ChunkedStore} {domain : String} {e : Env} {w₀ w w' : World} {log : Log} {s : SnapshotVersion}

variable {event : Event} {key : SnapshotKey}

theorem Said.grows (hgrows : w.Grows w') (h : Said w₀ w event) : Said w₀ w' event := by
  obtain ⟨k, a⟩ := event
  cases k with
  | putIfAbsent id content => exact World.Keeps.grows hgrows h
  | _ => exact h

theorem said_append (hgrows : w.Grows w') (h : ∀ event ∈ log, Said w₀ w event)
    (hevent : Said w₀ w' event) : ∀ event' ∈ log ++ [event], Said w₀ w' event' := by
  exact List.forall_mem_append.mpr
    ⟨fun event' hmem => (h event' hmem).grows hgrows, List.forall_mem_singleton.mpr hevent⟩

/-- A call that leaves the versions of the key alone. -/
theorem KeyState.next (h : KeyState c domain w₀ log w key)
    (hversions : w'.versionsOf key = w.versionsOf key)
    (hevent : ∀ md m version, event ≠ ⟨.putSnapshot key md m, version⟩) :
    KeyState c domain w₀ (log ++ [event]) w' key := by
  rcases h with ⟨huntouched, hsame⟩ | ⟨old, new, h⟩
  · refine .inl ⟨fun md m version hmem => ?_, hversions.trans hsame⟩
    rcases List.mem_append.mp hmem with hmem | hmem
    · exact huntouched md m version hmem
    · exact hevent md m version (List.mem_singleton.mp hmem).symm
  · refine .inr ⟨old, new, { h with written := fun huntouched => ?_, now := ?_, chunks := ?_ }⟩
    · exact h.written fun md m version hmem => huntouched md m version (List.mem_append_left _ hmem)
    · rw [hversions]
      exact h.now
    · exact h.chunks.imp fun _ _ => Moved.mono (List.subset_append_left ..)

section

variable (h : Passing c domain w₀ e log w)

include h

/-- A call that leaves all manifests alone. -/
theorem Passing.next (hgrows : w.Grows w')
    (hblobs : ∀ id b, w'.blob id = some b → c.sha b.raw = id.hash ∧ b.Framed)
    (hsnaps : w'.snaps = w.snaps) (hputs : w'.puts = w.puts) (hsaid : Said w₀ w' event)
    (hevent : ∀ key md m version, event ≠ ⟨.putSnapshot key md m, version⟩) :
    Passing c domain w₀ e (log ++ [event]) w' where
  grows id b hb := hgrows id b (h.grows id b hb)
  blobs := hblobs
  versions := by
    rw [hsnaps, hputs]
    exact h.versions
  said := said_append hgrows h.said hsaid
  keys key := (h.keys key).next (by rw [World.versionsOf, hsnaps]; rfl) (hevent key)

/-- A call that only reads. -/
theorem Passing.read (hsaid : Said w₀ w event)
    (hevent : ∀ key md m version, event ≠ ⟨.putSnapshot key md m, version⟩) :
    Passing c domain w₀ e (log ++ [event]) w :=
  h.next (fun _ _ hb => hb) h.blobs rfl rfl hsaid hevent

/-- The versions of a key that was not written are as before. -/
theorem Passing.versionsOf_eq (huntouched : Untouched log key) : w.versionsOf key = w₀.versionsOf key := by
  rcases h.keys key with ⟨-, hsame⟩ | ⟨old, new, hkey⟩
  · exact hsame
  · exact absurd huntouched hkey.written

end

theorem latest_of_single (h : w.versionsOf key = [s]) : w.latest key = some s := by
  rw [World.latest, h]
  rfl

/-- **Writing a manifest.** -/
theorem Passing.putSnapshot (hversions : Function.Injective e.versions)
    (h : Passing c domain w₀ e log w) {md : SnapshotMetadata} {m : ChunkManifest}
    (huntouched : Untouched log key)
    (hs : Rewritten c domain (RefBefore c domain w₀) (PackBefore domain w₀) log key md m s) :
    Passing c domain w₀ e (log ++ [⟨.putSnapshot key md m, e.versions w.puts⟩])
      (serve e w (.putSnapshot key md m)).2 := by
  obtain ⟨old, hold⟩ := hs.single
  have hbefore : w₀.versionsOf key = [old] := (h.said _ hold).symm
  have hsold : s = old := by
    have hlatest : some s = w₀.latest key := h.said _ hs.latest
    rw [latest_of_single hbefore] at hlatest
    exact Option.some_inj.mp hlatest
  subst hsold
  have hnow : w.versionsOf key = [s] := (h.versionsOf_eq huntouched).trans hbefore
  -- the new version string has not been used
  have hfresh : ∀ s' ∈ w.snaps, s'.version ≠ e.versions w.puts := by
    intro s' hs' heq
    obtain ⟨n, hn, hv⟩ := h.versions s' hs'
    have := hversions (hv.symm.trans heq)
    omega
  have hs_mem : s ∈ w.snaps ∧ s.key = key := by
    have : s ∈ w.versionsOf key := by rw [hnow]; exact List.mem_singleton_self s
    simpa using List.mem_filter.mp this
  refine ⟨h.grows, h.blobs, versions_putSnapshot h.versions,
    said_append (fun _ _ hb => hb) h.said trivial, fun key' => ?_⟩
  by_cases hkey : key' = key
  · subst hkey
    refine .inr ⟨s, ⟨key', e.versions w.puts, md, m⟩, ?_, hbefore, .inl ?_, ?_, hs.tenant, hs.manifest, ?_⟩
    · exact fun hun => hun _ _ _ List.mem_concat_self
    · have hkeep : w.snaps.filter (fun s' => ¬ (s'.key = key' ∧ s'.version = e.versions w.puts))
          = w.snaps := by
        refine List.filter_eq_self.mpr fun s' hs' => ?_
        simp [hfresh s' hs']
      simp only [serve, World.versionsOf]
      rw [hkeep, List.filter_append, ← World.versionsOf, hnow]
      simp
    · exact (hfresh s hs_mem.1).symm
    · exact hs.chunks.imp fun _ _ => Moved.mono (List.subset_append_left ..)
  · refine (h.keys key').next (versionsOf_putSnapshot_of_ne e w hkey md m) fun md' m' v heq => hkey ?_
    cases heq
    rfl

/-- **Dropping the old version.** -/
theorem Passing.deleteSnapshot (h : Passing c domain w₀ e log w)
    {old : SnapshotVersion} (hold : (⟨.listVersions key, [old]⟩ : Event) ∈ log)
    (hwritten : ¬ Untouched log key) :
    Passing c domain w₀ e (log ++ [⟨.deleteSnapshot key old.version, ()⟩])
      (serve e w (.deleteSnapshot key old.version)).2 := by
  have hbefore : w₀.versionsOf key = [old] := (h.said _ hold).symm
  refine ⟨h.grows, h.blobs, fun s hs => h.versions s (List.mem_filter.mp hs).1,
    said_append (fun _ _ hb => hb) h.said trivial, fun key' => ?_⟩
  by_cases hkey : key' = key
  · subst hkey
    rcases h.keys key' with ⟨huntouched, -⟩ | ⟨old', new, hkey⟩
    · exact absurd huntouched hwritten
    · have hsame : old' = old := List.singleton_inj.mp (hkey.before.symm.trans hbefore)
      subst hsame
      have hnow : (serve e w (.deleteSnapshot key' old'.version)).2.versionsOf key' = [new] := by
        have hfilter : (serve e w (.deleteSnapshot key' old'.version)).2.versionsOf key'
            = (w.versionsOf key').filter fun s => s.version ≠ old'.version := by
          simp only [serve, World.versionsOf, List.filter_filter]
          refine List.filter_congr fun s _ => ?_
          by_cases hs : s.key = key' <;> simp [hs]
        rw [hfilter]
        rcases hkey.now with hnow | hnow
        · rw [hnow]
          simp [hkey.version_ne]
        · rw [hnow]
          simp [hkey.version_ne]
      refine .inr ⟨old', new, { hkey with written := fun hun => hkey.written ?_, now := .inr hnow,
                                          chunks := ?_ }⟩
      · exact fun md m version hmem => hun md m version (List.mem_append_left _ hmem)
      · exact hkey.chunks.imp fun _ _ => Moved.mono (List.subset_append_left ..)
  · exact (h.keys key').next (versionsOf_deleteSnapshot_of_ne e w hkey _) (by simp)

/-- A reference that could be read before the pass is to a chunk of its pack. -/
theorem RefBefore.inPack {r : ChunkRef} {b : PackBlob} (hr : RefBefore c domain w₀ r)
    (hb : PackBefore domain w₀ r.packHash b) : InPack c.sha b r := by
  obtain ⟨hne, hread⟩ := hr
  rw [World.Reads, Readable, if_neg hne] at hread
  obtain ⟨b', hb', hin⟩ := hread
  have hsame : b' = b := Option.some_inj.mp (hb'.symm.trans hb)
  rw [← hsame]
  exact hin

/-- Its chunk lies in the pack, and has its hash. -/
theorem RefBefore.extent (r : ChunkRef) (b : PackBlob) (hr : RefBefore c domain w₀ r)
    (hb : PackBefore domain w₀ r.packHash b) : 0 ≤ r.offset ∧ 0 < r.size ∧ r.offset + r.size ≤ b.raw.length
      ∧ c.sha (window b.raw r.offset (r.offset + r.size)) = r.hash :=
  have hin := hr.inPack hb
  ⟨hin.offset_nonneg, hin.size_pos, hin.end_le, hin.hash⟩

/-- **What holds during a pass**, as long as its uploads find no other index than their own. -/
theorem serves_passing (hversions : Function.Injective e.versions) (h₀ : Sound c .any True e w₀) :
    ServesWhile (fun w k => KeepsFraming w k)
      (compactRules c domain (RefBefore c domain w₀) (PackBefore domain w₀)) (serve e)
      (Passing c domain w₀ e) := by
  intro log w k h hok hgood
  cases k with
  | listBlobs listing => exact ⟨trivial, h.read trivial (by simp)⟩
  | walk => exact ⟨trivial, h.read trivial (by simp)⟩
  | clock => exact ⟨trivial, h.read trivial (by simp)⟩
  | listVersions key =>
    exact ⟨trivial, h.read (h.versionsOf_eq hok) (by simp)⟩
  | getLatest key =>
    have hlatest : w.latest key = w₀.latest key := latest_congr (h.versionsOf_eq hok)
    refine ⟨⟨fun a hmem => (h.said _ hmem).trans hlatest.symm, fun s hs _ htenant r hr hne => ⟨hne, ?_⟩⟩,
      h.read hlatest (by simp)⟩
    rw [← htenant]
    exact (h₀.refs trivial s (mem_snaps_of_latest (hlatest.symm.trans hs))).2 r hr
  | getBlob id =>
    refine ⟨fun b hb => ?_, h.read trivial (by simp)⟩
    obtain ⟨r, ⟨hne, hread⟩, rfl⟩ := hok
    rw [World.Reads, Readable, if_neg hne] at hread
    obtain ⟨b₀, hb₀, -⟩ := hread
    have hsame : b₀ = b := Option.some_inj.mp ((h.grows _ b₀ hb₀).symm.trans hb)
    rw [← hsame]
    exact hb₀
  | putIfAbsent id content =>
    obtain ⟨algo, chunks, harr, rfl, hstored⟩ := hok
    have hne : ∀ chunk ∈ chunks, chunk ≠ [] := fun chunk hchunk =>
      (harr.movable chunk hchunk).ne_nil RefBefore.extent
    have hcontent : c.sha content.raw = c.sha chunks.flatten ∧ content.Framed := by
      have hpack : IsPack .any chunks := ⟨harr.ne_nil, hne, fits_any _⟩
      rw [raw_of_storePackBlob hstored]
      exact ⟨rfl, (tiled_of_storePackBlob hpack hstored).framed⟩
    obtain ⟨blobs, hblobs⟩ := serve_putIfAbsent e w (packBlobID domain (c.sha chunks.flatten)) content
    exact ⟨trivial, h.next (World.grows_upload e w _ content) (forall_blob_upload h.blobs e hcontent)
      (by rw [hblobs]) (by rw [hblobs]) (World.keeps_upload hgood) (by simp)⟩
  | purgePacks d ps =>
    exact ⟨trivial, h.next (.of_blobs rfl) h.blobs rfl rfl trivial (by simp)⟩
  | record d locs =>
    exact ⟨trivial, h.next (.of_blobs rfl) h.blobs rfl rfl trivial (by simp)⟩
  | putSnapshot key md m =>
    obtain ⟨huntouched, s, hs⟩ := hok
    exact ⟨trivial, h.putSnapshot hversions huntouched hs⟩
  | deleteSnapshot key version =>
    obtain ⟨⟨old, hold, rfl⟩, md, m, v, hput⟩ := hok
    exact ⟨trivial, h.deleteSnapshot hold fun huntouched => huntouched md m v hput⟩
  | _ => exact absurd hok id

/-! ### Reading during a pass -/

section Reading

variable (hinj : Function.Injective c.sha) (hsha : ∀ b, c.sha b ≠ "")

include hinj hsha

section

variable (h : Passing c domain w₀ e log w)

include h

/-- **A moved reference is to the same chunk.** -/
theorem Passing.reads_moved {r r' : ChunkRef}
    (hmoved : Moved c domain (RefBefore c domain w₀) (PackBefore domain w₀) log r r')
    (hr : w₀.Reads c.sha domain r) :
    w.Reads c.sha domain r' ∧ w.chunk domain r' = w₀.chunk domain r := by
  rcases hmoved with rfl | ⟨hbefore, loc, hloc, hhash, rfl⟩
  · exact ⟨hr.grows h.grows, World.chunk_grows h.grows hr⟩
  · obtain ⟨algo, chunks, id, content, ⟨harr, rfl, hstored⟩, hup, x, hx, rfl⟩ := hloc
    have hne : ∀ chunk ∈ chunks, chunk ≠ [] := fun chunk hchunk =>
      (harr.movable chunk hchunk).ne_nil RefBefore.extent
    have hplace := reads_place hinj hsha hne h.blobs (World.Keeps.cut (h.said _ hup) hstored) hx
    -- before the pass the reference was to a chunk with the same hash
    obtain ⟨b, hb, hin⟩ : ∃ b, w₀.blob (packBlobID domain r.packHash) = some b ∧ InPack c.sha b r := by
      rw [World.Reads, Readable, if_neg hbefore.1] at hr
      exact hr
    have hchunk : window b.raw r.offset (r.offset + r.size) = x.2 := hinj (hin.hash.trans hhash.symm)
    have hsize : r.size = x.2.length := by
      have hlen := length_window hin.offset_nonneg (by have := hin.size_pos; omega) hin.end_le
      rw [hchunk] at hlen
      omega
    have hold : w₀.chunk domain r = x.2 := by
      rw [World.chunk, chunkAt, if_neg hbefore.1, hb]
      exact hchunk
    rw [hold]
    dsimp only at hhash ⊢
    rw [← hhash, hsize]
    exact hplace

/-- The references of a rewritten manifest. -/
theorem Passing.reads_rewritten {refs refs' : List ChunkRef}
    (hmoved : List.Forall₂ (Moved c domain (RefBefore c domain w₀) (PackBefore domain w₀) log) refs refs')
    (hrefs : ∀ r ∈ refs, w₀.Reads c.sha domain r) :
    (∀ r ∈ refs', w.Reads c.sha domain r) ∧ refs'.map (w.chunk domain) = refs.map (w₀.chunk domain) := by
  induction hmoved with
  | nil => exact ⟨by simp, rfl⟩
  | cons hhead _ ih =>
    obtain ⟨hreads, hchunks⟩ := ih fun r hr => hrefs r (List.mem_cons_of_mem _ hr)
    obtain ⟨hread, hchunk⟩ := h.reads_moved hinj hsha hhead (hrefs _ (List.mem_cons_self ..))
    exact ⟨List.forall_mem_cons.mpr ⟨hread, hreads⟩, by rw [List.map_cons, List.map_cons, hchunk, hchunks]⟩

/-- **A key is read as before**, at every point of a pass. -/
theorem Passing.getLatest_eq (h₀ : Sound c .any True e w₀)
    (key : SnapshotKey) : w.getLatest c.sha key = w₀.getLatest c.sha key := by
  -- a version that was there before is read as before
  have hsame : ∀ s ∈ w₀.snaps, w.readManifest c.sha s.manifest = w₀.readManifest c.sha s.manifest := by
    intro s hs
    have hrefs := (h₀.refs trivial s hs).2
    rw [World.readManifest_of_reads hrefs,
      World.readManifest_of_reads fun r hr => (hrefs r hr).grows h.grows]
    congr 2
    exact List.map_congr_left fun r hr => World.chunk_grows h.grows (hrefs r hr)
  rcases h.keys key with ⟨-, hversions⟩ | ⟨old, new, hkey⟩
  · rw [World.getLatest, World.getLatest, latest_congr hversions]
    cases hlatest : w₀.latest key with
    | none => rfl
    | some s => exact congrArg some (hsame s (mem_snaps_of_latest hlatest))
  · have hbefore := latest_of_single hkey.before
    have hmem := mem_snaps_of_latest hbefore
    have hrefs : ∀ r ∈ old.manifest.chunks, w₀.Reads c.sha domain r := by
      rw [← hkey.tenant]
      exact (h₀.refs trivial old hmem).2
    -- the new version has the same chunks
    have hnew : w.readManifest c.sha new.manifest = w₀.readManifest c.sha old.manifest := by
      have htenant : new.manifest.tenant = domain := by
        rw [hkey.manifest]
        exact hkey.tenant
      have hreads := h.reads_rewritten hinj hsha hkey.chunks hrefs
      rw [World.readManifest_of_reads (by rw [htenant]; exact hreads.1),
        World.readManifest_of_reads (by rw [hkey.tenant]; exact hrefs), htenant, hkey.tenant, hreads.2]
    have hlatest : w.latest key = some old ∨ w.latest key = some new := by
      rcases hkey.now with hnow | hnow
      · rw [World.latest, hnow]
        dsimp only [List.foldl, World.later]
        split
        · exact .inr rfl
        · exact .inl rfl
      · exact .inr (latest_of_single hnow)
    rw [World.getLatest, World.getLatest, hbefore]
    rcases hlatest with hlatest | hlatest
    · rw [hlatest]
      exact congrArg some (hsame old hmem)
    · rw [hlatest]
      exact congrArg some hnew

end

end Reading

/-! ### Passes after a history of puts -/

/-- The uploads of a pass find no other index than their own. -/
def KeepsFramingIn (c : ChunkedStore) (e : Env) (cfg : CompactConfig) (order : MapOrder)
    (domain : String) (w : World) : Prop :=
  (c.compact cfg order domain).Along (serve e) (fun w k => KeepsFraming w k) w

/-! ### Two passes -/

/-- A store that compresses each chunk, where two bytes are a complete chunk. -/
def pairStore : ChunkedStore :=
  { byteStore with complete := fun bytes => bytes.length % 2 = 0, policy := fun _ => .zstd }

/-- Packs of one byte are compacted. -/
def smallPacks : CompactConfig := ⟨fun _ _ => false, 2, 0, 0, false⟩

/-- Objects of one byte each. -/
def smallObjects : List PutOp :=
  [.put ⟨"acme", "", "", "a"⟩ plainMeta [1], .put ⟨"acme", "", "", "b"⟩ plainMeta [2]]

theorem exampleEnv_versions_injective : Function.Injective exampleEnv.versions := by
  intro m n h
  have := congrArg List.length (String.ofList_inj.mp h)
  simpa using this

end MemoryLayer.Snapshot
