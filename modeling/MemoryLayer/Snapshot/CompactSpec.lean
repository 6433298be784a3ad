import MemoryLayer.Snapshot.Compact
import MemoryLayer.Snapshot.PutSpec

namespace MemoryLayer.Snapshot

open Calls Prog

/-! # What a compaction does to the stores

The calls of a pass that nobody disturbs: the packs it writes are made of live chunks, the locations
it records are in them, and a manifest is rewritten only to these locations.  Such a pass
fails only when a pack is missing.

- `Movable`, `Arrangement`: live chunks, and what packs are made of.
- `Relocated`, `Moved`: where the chunks are afterwards.
- `compactRules`: what a pass may count on, and what it owes.
- `ConsInv`: what holds between two chunks.
- `meets_compact`: the pass meets its obligations.
-/

section Obligations

variable (c : ChunkedStore) (domain : String) (Refs : ChunkRef → Prop) (Blob : String → PackBlob → Prop)

/-- A live chunk that lies in a pack with this codec. -/
def Movable (algo : CompressionAlgo) (chunk : Bytes) : Prop :=
  ∃ r b, Refs r ∧ Blob r.packHash b ∧ b.algo = algo
    ∧ chunk = window b.raw r.offset (r.offset + r.size)

/-- Live chunks of one codec. -/
structure Arrangement (algo : CompressionAlgo) (chunks : List Bytes) : Prop where
  ne_nil : chunks ≠ []
  movable : ∀ chunk ∈ chunks, Movable Refs Blob algo chunk

/-- What a pass uploads. -/
def Assembled (algo : CompressionAlgo) (chunks : List Bytes) (id : BlobId) (content : PackBlob) :
    Prop :=
  Arrangement Refs Blob algo chunks ∧ id = packBlobID domain (c.sha chunks.flatten)
    ∧ storePackBlob c.packCompression chunks.flatten (spansOf chunks) algo = some content

/-- A chunk lies in a pack that the pass has uploaded. -/
def Relocated (log : Log) (loc : ChunkLocation) : Prop :=
  ∃ algo chunks id content, Assembled c domain Refs Blob algo chunks id content
    ∧ (⟨.putIfAbsent id content, ()⟩ : Event) ∈ log
    ∧ ∃ x ∈ place 0 chunks, loc = ⟨c.sha x.2, c.sha chunks.flatten, x.1, x.2.length⟩

/-- A reference is kept, or moved to where its chunk is now. -/
def Moved (log : Log) (r r' : ChunkRef) : Prop :=
  r' = r ∨ Refs r ∧ ∃ loc, Relocated c domain Refs Blob log loc ∧ loc.chunkHash = r.hash
    ∧ r' = { r with packHash := loc.ref.packHash, offset := loc.ref.offset }

/-- The manifest of the key has not been written. -/
def Untouched (log : Log) (key : SnapshotKey) : Prop :=
  ∀ md m version, (⟨.putSnapshot key md m, version⟩ : Event) ∉ log

/-- The manifest that a pass may write for a key. -/
structure Rewritten (log : Log) (key : SnapshotKey) (md : SnapshotMetadata) (m : ChunkManifest)
    (s : SnapshotVersion) : Prop where
  latest : (⟨.getLatest key, some s⟩ : Event) ∈ log
  single : ∃ old, (⟨.listVersions key, [old]⟩ : Event) ∈ log
  md_eq : md = s.md
  format : s.manifest.format = .v2
  tenant : s.manifest.tenant = domain
  manifest : m = { s.manifest with chunks := m.chunks }
  chunks : List.Forall₂ (Moved c domain Refs Blob log) s.manifest.chunks m.chunks

/-- **The calls of a compaction.**  It may count on references and packs that fit together and on
    manifests that only it changes; what it uploads, records and writes is as described above. -/
def compactRules : Rules Answer Log where
  allows log k := match k with
    | .getLatest key => fun a => (∀ a', (⟨.getLatest key, a'⟩ : Event) ∈ log → a' = a)
      ∧ ∀ s, a = some s → s.manifest.format = .v2 → s.manifest.tenant = domain →
        ∀ r ∈ s.manifest.chunks, r.packHash ≠ "" → Refs r
    | .getBlob id => fun a => ∀ b, a = some b → Blob id.hash b
    | _ => fun _ => True
  ok log k := match k with
    | .listBlobs _ | .walk | .clock => True
    | .getLatest key | .listVersions key => Untouched log key
    | .getBlob id => ∃ r, Refs r ∧ id = packBlobID domain r.packHash
    | .putIfAbsent id content => ∃ algo chunks, Assembled c domain Refs Blob algo chunks id content
    | .purgePacks d _ => d = domain
    | .record d locs => d = domain ∧ ∀ loc ∈ locs, Relocated c domain Refs Blob log loc
    | .putSnapshot key md m => Untouched log key ∧ ∃ s, Rewritten c domain Refs Blob log key md m s
    | .deleteSnapshot key version => (∃ old, (⟨.listVersions key, [old]⟩ : Event) ∈ log
        ∧ version = old.version)
      ∧ ∃ md m v, (⟨.putSnapshot key md m, v⟩ : Event) ∈ log
    | _ => False
  next log k a := log ++ [⟨k, a⟩]

/-- Calls were added, and none of them wrote a manifest. -/
structure Quiet (log log' : Log) : Prop where
  sub : log ⊆ log'
  untouched : ∀ key, Untouched log key → Untouched log' key

/-- A pass fails only when a pack is missing. -/
def PackMissing (_ : Log) (err : CompactErr) : Prop := err = .fetchPack

/-- What a consolidation has done: the chunks in the buffers, and those in finished packs. -/
structure ConsInv (log : Log) (staged : CompressionAlgo → List Bytes) (st : Consolidation) :
    Prop where
  buf : ∀ algo, (st.bufs algo).buf = (staged algo).flatten
  entries : ∀ algo, (st.bufs algo).staged
    = (place 0 (staged algo)).map fun x => (c.sha x.2, ⟨x.1, x.2.length⟩)
  movable : ∀ algo, ∀ chunk ∈ staged algo, Movable Refs Blob algo chunk
  found : ∀ h ∈ st.placed, (∃ loc ∈ st.relocate, loc.chunkHash = h)
    ∨ ∃ algo, ∃ chunk ∈ staged algo, c.sha chunk = h
  relocate : ∀ loc ∈ st.relocate, Relocated c domain Refs Blob log loc

/-- The live references that a survey has found, each with all others of its manifest. -/
def Surveyed (log : Log) (listed : List BlobMetadata) (live : List LiveRef) : Prop :=
  ∀ x ∈ live, Refs x.2 ∧ x.2.packHash ≠ "" ∧ (packInfo listed x.2.packHash).isSome
    ∧ ∃ s, (⟨.getLatest x.1, some s⟩ : Event) ∈ log ∧ s.manifest.format = .v2
      ∧ s.manifest.tenant = domain ∧ ∀ r ∈ s.manifest.chunks, r.packHash ≠ "" →
        (packInfo listed r.packHash).isSome → (x.1, r) ∈ live

/-- A consolidation under way. -/
def Consolidating (log : Log) (st : Consolidation) : Prop :=
  ∃ staged, ConsInv c domain Refs Blob log staged st

/-- More chunks have been placed, and no manifest has been written. -/
structure Placing (log : Log) (st : Consolidation) (log' : Log) (st' : Consolidation) : Prop where
  quiet : Quiet log log'
  under : Consolidating c domain Refs Blob log' st'
  placed : st.placed ⊆ st'.placed

end Obligations

variable {c : ChunkedStore} {domain packHash : String} {Refs : ChunkRef → Prop}
  {Blob : String → PackBlob → Prop} {log log' log'' : Log} {staged : CompressionAlgo → List Bytes}
  {st : Consolidation} {algo : CompressionAlgo} {order : List SnapshotKey → List SnapshotKey}
  {cfg : CompactConfig} {ref r : ChunkRef} {chunk : Bytes} {x : LiveRef} {now : Int}

theorem Quiet.refl (log : Log) : Quiet log log := ⟨List.Subset.refl _, fun _ h => h⟩

theorem Quiet.trans (h : Quiet log log') (h' : Quiet log' log'') : Quiet log log'' :=
  ⟨fun _ hx => h'.sub (h.sub hx), fun key hkey => h'.untouched key (h.untouched key hkey)⟩

theorem Quiet.append (log : Log) {event : Event}
    (h : ∀ key md m version, event ≠ ⟨.putSnapshot key md m, version⟩) : Quiet log (log ++ [event]) := by
  refine ⟨List.subset_append_left .., fun key hkey md m version hmem => ?_⟩
  exact (List.mem_append.mp hmem).elim (hkey md m version) fun hmem =>
    h key md m version (List.mem_singleton.mp hmem).symm

theorem Relocated.mono (hsub : log ⊆ log') {loc : ChunkLocation}
    (h : Relocated c domain Refs Blob log loc) : Relocated c domain Refs Blob log' loc := by
  obtain ⟨algo, chunks, id, content, hassembled, hup, hx⟩ := h
  exact ⟨algo, chunks, id, content, hassembled, hsub hup, hx⟩

theorem ConsInv.mono (hsub : log ⊆ log') (h : ConsInv c domain Refs Blob log staged st) :
    ConsInv c domain Refs Blob log' staged st :=
  { h with relocate := fun loc hloc => (h.relocate loc hloc).mono hsub }

theorem exists_mem_place (offset : Int) {chunks : List Bytes} (h : chunk ∈ chunks) :
    ∃ o, (o, chunk) ∈ place offset chunks := by
  induction chunks generalizing offset with
  | nil => cases h
  | cons x chunks ih =>
    rcases List.mem_cons.mp h with rfl | h
    · exact ⟨offset, List.mem_cons_self ..⟩
    · obtain ⟨o, ho⟩ := ih (offset + x.length) h
      exact ⟨o, List.mem_cons_of_mem _ ho⟩

theorem Placing.refl (h : Consolidating c domain Refs Blob log st) :
    Placing c domain Refs Blob log st log st := ⟨.refl log, h, List.Subset.refl _⟩

theorem Placing.trans {st' st'' : Consolidation} (h : Placing c domain Refs Blob log st log' st')
    (h' : Placing c domain Refs Blob log' st' log'' st'') : Placing c domain Refs Blob log st log'' st'' :=
  ⟨h.quiet.trans h'.quiet, h'.under, fun _ hx => h'.placed (h.placed hx)⟩

/-- **A loop that places chunks**: what each round has to place is placed in the end. -/
theorem meets_placeAll {β γ : Type} (view : β → Consolidation) (Ok : β → Prop) (Must : γ → String → Prop)
    {f : β → γ → StoreProg (Except CompactErr β)} {xs : List γ} {b : β}
    (hstep : ∀ x ∈ xs, ∀ log b, Consolidating c domain Refs Blob log (view b) → Ok b →
      (f b x).Meets (compactRules c domain Refs Blob) log
        (Ends (fun log' b' => Placing c domain Refs Blob log (view b) log' (view b') ∧ Ok b'
          ∧ ∀ h, Must x h → h ∈ (view b').placed) PackMissing))
    (hst : Consolidating c domain Refs Blob log (view b)) (hb : Ok b) :
    (foldOrFail f xs b).Meets (compactRules c domain Refs Blob) log
      (Ends (fun log' b' => Placing c domain Refs Blob log (view b) log' (view b')
        ∧ ∀ x ∈ xs, ∀ h, Must x h → h ∈ (view b').placed) PackMissing) := by
  induction xs generalizing log b with
  | nil => exact ⟨.refl hst, by simp⟩
  | cons x xs ih =>
    refine (hstep x (List.mem_cons_self ..) log b hst hb).orFail ?_
    rintro log₁ b₁ ⟨hfirst, hb₁, hx⟩
    refine (ih (fun y hy => hstep y (List.mem_cons_of_mem _ hy)) hfirst.under hb₁).ends ?_
    rintro log₂ b₂ ⟨hrest, hall⟩
    exact ⟨hfirst.trans hrest, List.forall_mem_cons.mpr ⟨fun h hh => hrest.placed (hx h hh), hall⟩⟩

section Spec

variable (hread : ∀ r b, Refs r → Blob r.packHash b → 0 ≤ r.offset ∧ 0 < r.size
    ∧ r.offset + r.size ≤ b.raw.length ∧ c.sha (window b.raw r.offset (r.offset + r.size)) = r.hash)
  {live : List LiveRef} {selected : List String}

include hread in
theorem Movable.ne_nil (h : Movable Refs Blob algo chunk) :
    chunk ≠ [] := by
  obtain ⟨r, b, hr, hb, -, rfl⟩ := h
  obtain ⟨hoff, hsize, hend, -⟩ := hread r b hr hb
  have hlen := length_window hoff (by omega) hend
  intro hnil
  rw [hnil] at hlen
  simp only [List.length_nil] at hlen
  omega

/-- The chunks of a buffer are now in a pack. -/
theorem ConsInv.flush {stored : PackBlob}
    (h : ConsInv c domain Refs Blob log staged st)
    (hassembled : Assembled c domain Refs Blob algo (staged algo)
      (packBlobID domain (c.sha (staged algo).flatten)) stored) :
    ConsInv c domain Refs Blob
      (log ++ [⟨.putIfAbsent (packBlobID domain (c.sha (staged algo).flatten)) stored, ()⟩])
      (Function.update staged algo [])
      { st with
        bufs := Function.update st.bufs algo ⟨[], []⟩
        relocate := st.relocate ++ (st.bufs algo).staged.map fun s =>
          ⟨s.1, c.sha (staged algo).flatten, s.2.offset, s.2.size⟩
        packsWritten := st.packsWritten + 1
        bytesRewritten := st.bytesRewritten + (staged algo).flatten.length } where
  buf algo' := by
    by_cases halgo : algo' = algo
    · subst halgo
      simp
    · simp [halgo, h.buf]
  entries algo' := by
    by_cases halgo : algo' = algo
    · subst halgo
      simp [place]
    · simp [halgo, h.entries]
  movable algo' chunk hchunk := by
    by_cases halgo : algo' = algo
    · subst halgo
      simp at hchunk
    · rw [Function.update_of_ne halgo] at hchunk
      exact h.movable algo' chunk hchunk
  found x hx := by
    rcases h.found x hx with ⟨loc, hloc, hhash⟩ | ⟨algo', chunk, hchunk, hhash⟩
    · exact .inl ⟨loc, List.mem_append_left _ hloc, hhash⟩
    · by_cases halgo : algo' = algo
      · subst halgo
        obtain ⟨o, ho⟩ := exists_mem_place 0 hchunk
        refine .inl ⟨⟨c.sha chunk, c.sha (staged algo').flatten, o, chunk.length⟩,
          List.mem_append_right _ (List.mem_map.mpr ⟨(c.sha chunk, ⟨o, chunk.length⟩), ?_, rfl⟩), hhash⟩
        rw [h.entries]
        exact List.mem_map.mpr ⟨(o, chunk), ho, rfl⟩
      · exact .inr ⟨algo', chunk, by rw [Function.update_of_ne halgo]; exact hchunk, hhash⟩
  relocate loc hloc := by
    rcases List.mem_append.mp hloc with hloc | hloc
    · exact (h.relocate loc hloc).mono (List.subset_append_left ..)
    · rw [h.entries, List.map_map] at hloc
      obtain ⟨x, hx, rfl⟩ := List.mem_map.mp hloc
      exact ⟨algo, staged algo, _, stored, hassembled, List.mem_concat_self, x, hx, rfl⟩

/-- One more chunk waits in the buffer of its codec. -/
theorem ConsInv.stage (h : ConsInv c domain Refs Blob log staged st) (hmov : Movable Refs Blob algo chunk) :
    ConsInv c domain Refs Blob log
      (Function.update staged algo (staged algo ++ [chunk]))
      (ChunkedStore.stage st algo (c.sha chunk) chunk) where
  buf algo' := by
    by_cases halgo : algo' = algo
    · subst halgo
      simp [ChunkedStore.stage, h.buf]
    · simp [ChunkedStore.stage, halgo, h.buf]
  entries algo' := by
    by_cases halgo : algo' = algo
    · subst halgo
      simp [ChunkedStore.stage, h.entries, h.buf, place_append, place]
    · simp [ChunkedStore.stage, halgo, h.entries]
  movable algo' x hx := by
    by_cases halgo : algo' = algo
    · subst halgo
      rw [Function.update_self] at hx
      exact List.forall_mem_append.mpr ⟨h.movable algo', List.forall_mem_singleton.mpr hmov⟩ x hx
    · rw [Function.update_of_ne halgo] at hx
      exact h.movable algo' x hx
  found x hx := by
    rcases List.mem_cons.mp hx with rfl | hx
    · exact .inr ⟨algo, chunk, by simp, rfl⟩
    · refine (h.found x hx).imp_right ?_
      rintro ⟨algo', y, hy, hhash⟩
      refine ⟨algo', y, ?_, hhash⟩
      by_cases halgo : algo' = algo
      · subst halgo
        rw [Function.update_self]
        exact List.mem_append_left _ hy
      · rw [Function.update_of_ne halgo]
        exact hy
  relocate := h.relocate

include hread

/-- **Writing a pack.**  The buffer of the codec is empty afterwards. -/
theorem meets_flushCodec (h : ConsInv c domain Refs Blob log staged st)
    (algo : CompressionAlgo) :
    (c.flushCodec domain st algo).Meets (compactRules c domain Refs Blob) log
      (Ends (fun log' st' => Quiet log log' ∧ st'.placed = st.placed
        ∧ ConsInv c domain Refs Blob log' (Function.update staged algo []) st') PackMissing) := by
  have hne : ∀ chunk ∈ staged algo, chunk ≠ [] := fun chunk hchunk =>
    (h.movable algo chunk hchunk).ne_nil hread
  unfold ChunkedStore.flushCodec
  dsimp only
  split
  · rename_i hbuf
    have hnil : staged algo = [] := by
      rw [h.buf, List.flatten_eq_nil_iff] at hbuf
      exact List.eq_nil_iff_forall_not_mem.mpr fun chunk hchunk =>
        hne chunk hchunk (hbuf chunk hchunk)
    refine ⟨.refl log, rfl, ?_⟩
    rw [← hnil, Function.update_eq_self]
    exact h
  · rename_i hbuf
    have hspans : (st.bufs algo).staged.map Prod.snd = spansOf (staged algo) := by
      rw [h.entries, List.map_map]
      rfl
    have harr : Arrangement Refs Blob algo (staged algo) := by
      refine ⟨fun hnil => hbuf ?_, h.movable algo⟩
      rw [h.buf, hnil, List.flatten_nil]
    obtain ⟨stored, hstored⟩ := Option.isSome_iff_exists.mp
      (storePackBlob_isSome c.packCompression algo hne)
    rw [hspans, h.buf algo]
    simp only [hstored]
    rw [meets_bind, meets_perform]
    refine ⟨⟨algo, staged algo, harr, rfl, hstored⟩, fun _ _ => ?_⟩
    exact ⟨.append log (by simp), rfl, h.flush ⟨harr, rfl, hstored⟩⟩

/-- **Copying a chunk.**  It has been placed afterwards. -/
theorem meets_placeRef {blob : PackBlob}
    (hst : Consolidating c domain Refs Blob log st) (href : Refs ref)
    (hblob : Blob ref.packHash blob) :
    (c.placeRef domain blob st ref).Meets (compactRules c domain Refs Blob) log
      (Ends (fun log' st' => Placing c domain Refs Blob log st log' st' ∧ ref.hash ∈ st'.placed)
        PackMissing) := by
  obtain ⟨staged, h⟩ := hst
  obtain ⟨hoff, hsize, hend, hhash⟩ := hread ref blob href hblob
  unfold ChunkedStore.placeRef
  split
  · rename_i hplaced
    exact ⟨.refl ⟨staged, h⟩, hplaced⟩
  · rw [if_neg (by omega), ← hhash]
    have hstage := h.stage ⟨ref, blob, href, hblob, rfl, rfl⟩
    unfold ChunkedStore.emitLive
    dsimp only
    split
    · refine (meets_flushCodec hread hstage blob.algo).ends ?_
      rintro log' st' ⟨hquiet, hplaced, hinv⟩
      refine ⟨⟨hquiet, ⟨_, hinv⟩, ?_⟩, ?_⟩
      · rw [hplaced]
        exact List.subset_cons_self ..
      · rw [hplaced]
        exact List.mem_cons_self ..
    · exact ⟨⟨.refl log, ⟨_, hstage⟩, List.subset_cons_self ..⟩, List.mem_cons_self ..⟩

omit hread in
/-- Fetching a pack that a live reference is to. -/
theorem meets_fetchPackRaw (href : Refs ref) :
    (ChunkedStore.fetchPackRaw domain ref.packHash).Meets (compactRules c domain Refs Blob) log
      (Ends (fun log' blob => Quiet log log' ∧ Blob ref.packHash blob
        ∧ ∀ st, Consolidating c domain Refs Blob log st → Consolidating c domain Refs Blob log' st)
        PackMissing) := by
  refine ⟨⟨ref, href, rfl⟩, fun blob hblob => ?_⟩
  cases blob with
  | none => exact (rfl : PackMissing _ _)
  | some b =>
    refine ⟨.append log (by simp), hblob b rfl, fun st ⟨staged, hst⟩ => ?_⟩
    exact ⟨staged, hst.mono (List.subset_append_left ..)⟩

omit hread in
theorem mem_chunksIn (h : r ∈ chunksIn live packHash) : r.packHash = packHash ∧ ∃ key, (key, r) ∈ live := by
  obtain ⟨x, -, hfind⟩ := List.mem_filterMap.mp h
  have hmem := List.mem_of_find?_eq_some hfind
  rw [List.mem_reverse, List.mem_filter, List.mem_map] at hmem
  obtain ⟨⟨⟨key, r⟩, hlive, rfl⟩, hpack⟩ := hmem
  exact ⟨of_decide_eq_true hpack, key, hlive⟩

omit hread in
/-- Every live chunk of a pack is among its chunks. -/
theorem exists_mem_chunksIn (h : x ∈ live) :
    ∃ r ∈ chunksIn live x.2.packHash, r.hash = x.2.hash := by
  have hmem : x.2 ∈ ((live.map Prod.snd).filter fun r => r.packHash = x.2.packHash).reverse := by
    rw [List.mem_reverse, List.mem_filter]
    exact ⟨List.mem_map_of_mem h, by simp⟩
  obtain ⟨r, hr⟩ : ∃ r, ((live.map Prod.snd).filter fun r => r.packHash = x.2.packHash).reverse.find?
      (fun r => r.hash = x.2.hash) = some r := by
    rw [← Option.isSome_iff_exists, List.find?_isSome]
    exact ⟨x.2, hmem, by simp⟩
  refine ⟨r, ?_, by simpa using List.find?_some hr⟩
  refine List.mem_filterMap.mpr ⟨x.2.hash, ?_, hr⟩
  rw [List.mem_insertionSort, List.mem_eraseDups]
  exact List.mem_map_of_mem (List.mem_reverse.mp hmem)

/-- **One pack.** -/
theorem meets_consolidatePack (hlive : ∀ x ∈ live, Refs x.2) (hpack : ∃ x ∈ live, x.2.packHash = packHash)
    (hst : Consolidating c domain Refs Blob log st) :
    (c.consolidatePack domain live st packHash).Meets (compactRules c domain Refs Blob) log
      (Ends (fun log' st' => Placing c domain Refs Blob log st log' st'
        ∧ ∀ x ∈ live, x.2.packHash = packHash → x.2.hash ∈ st'.placed) PackMissing) := by
  obtain ⟨x, hx, rfl⟩ := hpack
  refine (meets_fetchPackRaw (hlive x hx)).orFail ?_
  rintro log₁ blob ⟨hquiet, hblob, hkeep⟩
  refine (meets_placeAll id (fun _ => True) (fun r h => h = r.hash) (fun r hr log' st' hst' _ => ?_)
    (hkeep st hst) trivial).ends ?_
  · obtain ⟨hpack, key, hmem⟩ := mem_chunksIn hr
    refine (meets_placeRef hread hst' (hlive _ hmem) (by rw [hpack]; exact hblob)).ends ?_
    rintro log'' st'' ⟨hplacing, hplaced⟩
    exact ⟨hplacing, trivial, fun h heq => heq ▸ hplaced⟩
  · rintro log' st' ⟨hplacing, hall⟩
    refine ⟨⟨hquiet.trans hplacing.quiet, hplacing.under, hplacing.placed⟩, fun y hy hpack => ?_⟩
    obtain ⟨r, hr, hhash⟩ := exists_mem_chunksIn hy
    rw [hpack] at hr
    exact hall r hr _ hhash.symm

/-- **One chunk of a file.**  The cache holds packs that were fetched. -/
theorem meets_consolidateRef {cache : List (String × PackBlob)} (href : Refs ref)
    (hst : Consolidating c domain Refs Blob log st) (hcache : ∀ x ∈ cache, Blob x.1 x.2) :
    (c.consolidateRef domain selected (st, cache) ref).Meets (compactRules c domain Refs Blob) log
      (Ends (fun log' acc => Placing c domain Refs Blob log st log' acc.1
        ∧ (∀ x ∈ acc.2, Blob x.1 x.2) ∧ (ref.packHash ∈ selected → ref.hash ∈ acc.1.placed))
        PackMissing) := by
  unfold ChunkedStore.consolidateRef
  split
  · rename_i hskip
    refine ⟨.refl hst, hcache, fun hsel => ?_⟩
    rcases hskip with hskip | hskip
    · exact absurd hsel hskip
    · exact hskip
  · split
    · rename_i x hfind
      have hx : x.1 = ref.packHash := by simpa using List.find?_some hfind
      have hblob := hcache x (List.mem_of_find?_eq_some hfind)
      rw [hx] at hblob
      refine (meets_placeRef hread hst href hblob).orFail ?_
      rintro log' st' ⟨hplacing, hplaced⟩
      exact ⟨hplacing, hcache, fun _ => hplaced⟩
    · refine (meets_fetchPackRaw href).orFail ?_
      rintro log₁ blob ⟨hquiet, hblob, hkeep⟩
      refine (meets_placeRef hread (hkeep st hst) href hblob).orFail ?_
      rintro log' st' ⟨hplacing, hplaced⟩
      exact ⟨⟨hquiet.trans hplacing.quiet, hplacing.under, hplacing.placed⟩,
        List.forall_mem_append.mpr ⟨hcache, List.forall_mem_singleton.mpr hblob⟩, fun _ => hplaced⟩

/-- Writing what is left in the buffers. -/
theorem meets_flushAll (hst : Consolidating c domain Refs Blob log st) :
    (foldOrFail (c.flushCodec domain) [.gzip, .none, .zstd] st).Meets
      (compactRules c domain Refs Blob) log
      (Ends (fun log' st' => Quiet log log' ∧ (∀ loc ∈ st'.relocate, Relocated c domain Refs Blob log' loc)
        ∧ ∀ h ∈ st.placed, ∃ loc ∈ st'.relocate, loc.chunkHash = h) PackMissing) := by
  obtain ⟨staged, h⟩ := hst
  refine (meets_flushCodec hread h .gzip).orFail ?_
  rintro log₁ st₁ ⟨hquiet₁, hplaced₁, h₁⟩
  refine (meets_flushCodec hread h₁ .none).orFail ?_
  rintro log₂ st₂ ⟨hquiet₂, hplaced₂, h₂⟩
  refine (meets_flushCodec hread h₂ .zstd).orFail ?_
  rintro log₃ st₃ ⟨hquiet₃, hplaced₃, h₃⟩
  refine ⟨hquiet₁.trans (hquiet₂.trans hquiet₃), h₃.relocate, fun x hx => ?_⟩
  rw [← hplaced₁, ← hplaced₂, ← hplaced₃] at hx
  rcases h₃.found x hx with hloc | ⟨algo, chunk, hchunk, -⟩
  · exact hloc
  · cases algo <;> simp [Function.update] at hchunk

/-- **Consolidation.**  Every live chunk of a selected pack is in a new pack. -/
theorem meets_consolidate (horder : ∀ keys, keys ⊆ order keys)
    (hlive : ∀ x ∈ live, Refs x.2) (hselected : ∀ p ∈ selected, ∃ x ∈ live, x.2.packHash = p) :
    (c.consolidate cfg order domain live selected).Meets (compactRules c domain Refs Blob) log
      (Ends (fun log' st => Quiet log log'
        ∧ (∀ loc ∈ st.relocate, Relocated c domain Refs Blob log' loc)
        ∧ ∀ x ∈ live, x.2.packHash ∈ selected → ∃ loc ∈ st.relocate, loc.chunkHash = x.2.hash)
        PackMissing) := by
  have hstart : Consolidating c domain Refs Blob log .empty := by
    refine ⟨fun _ => [], ?_⟩
    constructor <;> simp [Consolidation.empty, place]
  have hplaced : (if cfg.defrag then
        orFail (foldOrFail (c.consolidateRef domain selected)
          ((ChunkedStore.filesOf order live).flatMap fun key =>
            (live.filter fun x => x.1 = key).map Prod.snd) (.empty, [])) fun acc => pure (.ok acc.1)
      else foldOrFail (c.consolidatePack domain live) selected .empty).Meets
      (compactRules c domain Refs Blob) log
      (Ends (fun log' st' => Placing c domain Refs Blob log .empty log' st'
        ∧ ∀ x ∈ live, x.2.packHash ∈ selected → x.2.hash ∈ st'.placed) PackMissing) := by
    split
    · -- file by file
      refine (meets_placeAll Prod.fst (fun acc => ∀ x ∈ acc.2, Blob x.1 x.2)
        (fun r h => r.packHash ∈ selected ∧ h = r.hash) (fun r hr log' acc hst hcache => ?_) hstart
        (by simp)).orFail ?_
      · obtain ⟨key, -, hr⟩ := List.mem_flatMap.mp hr
        obtain ⟨x, hx, rfl⟩ := List.mem_map.mp hr
        refine (meets_consolidateRef hread (hlive x (List.mem_filter.mp hx).1) hst hcache).ends ?_
        rintro log'' acc' ⟨hplacing, hcache', hplaced⟩
        exact ⟨hplacing, hcache', fun h hh => hh.2 ▸ hplaced hh.1⟩
      · rintro log' acc ⟨hplacing, hall⟩
        refine ⟨hplacing, fun x hx hsel => hall x.2 ?_ _ ⟨hsel, rfl⟩⟩
        -- the file of the reference is among the files
        refine List.mem_flatMap.mpr ⟨x.1, ?_, List.mem_map_of_mem ?_⟩
        · rw [ChunkedStore.filesOf, List.mem_insertionSort]
          exact horder _ (List.mem_eraseDups.mpr (List.mem_map_of_mem hx))
        · exact List.mem_filter.mpr ⟨hx, by simp⟩
    · -- pack by pack
      refine (meets_placeAll id (fun _ => True) (fun p h => ∃ x ∈ live, x.2.packHash = p ∧ h = x.2.hash)
        (fun p hp log' st hst _ => ?_) hstart trivial).ends ?_
      · refine (meets_consolidatePack hread hlive (hselected p hp) hst).ends ?_
        rintro log'' st' ⟨hplacing, hall⟩
        refine ⟨hplacing, trivial, ?_⟩
        rintro h ⟨x, hx, hpack, rfl⟩
        exact hall x hx hpack
      · rintro log' st ⟨hplacing, hall⟩
        exact ⟨hplacing, fun x hx hsel => hall _ hsel _ ⟨x, hx, rfl, rfl⟩⟩
  refine hplaced.orFail ?_
  rintro log₁ st ⟨hplacing, hdone⟩
  refine (meets_flushAll hread hplacing.under).ends ?_
  rintro log' st' ⟨hquiet, hrel, hfound⟩
  exact ⟨hplacing.quiet.trans hquiet, hrel, fun x hx hsel => hfound _ (hdone x hx hsel)⟩

end Spec

/-! ### The survey -/

variable {listed : List BlobMetadata} {live : List LiveRef}

/-- A survey stays true when calls and references are added. -/
theorem Surveyed.mono {live' : List LiveRef} (hlog : log ⊆ log')
    (hlive : live ⊆ live') (h : Surveyed domain Refs log listed live) (hx : x ∈ live) :
    Refs x.2 ∧ x.2.packHash ≠ "" ∧ (packInfo listed x.2.packHash).isSome
      ∧ ∃ s, (⟨.getLatest x.1, some s⟩ : Event) ∈ log' ∧ s.manifest.format = .v2
        ∧ s.manifest.tenant = domain ∧ ∀ r ∈ s.manifest.chunks, r.packHash ≠ "" →
          (packInfo listed r.packHash).isSome → (x.1, r) ∈ live' := by
  obtain ⟨hrefs, hne, hknown, s, hs, hformat, htenant, hall⟩ := h x hx
  exact ⟨hrefs, hne, hknown, s, hlog hs, hformat, htenant, fun r hr hne hknown =>
    hlive (hall r hr hne hknown)⟩

/-- **One snapshot of the walk.** -/
theorem meets_surveyOne {acc : List SnapshotKey × List LiveRef}
    {s : SnapshotVersion} (hlog : ∀ key, Untouched log key) (h : Surveyed domain Refs log listed acc.2) :
    (surveyOne domain listed acc s).Meets (compactRules c domain Refs Blob) log fun log' acc =>
      (∀ key, Untouched log' key) ∧ Surveyed domain Refs log' listed acc.2 := by
  unfold surveyOne
  split
  · exact ⟨hlog, h⟩
  · rw [meets_bind, meets_perform]
    refine ⟨hlog s.key, fun latest hlatest => ⟨fun key => ?_, ?_⟩⟩
    · exact (Quiet.append log (by simp)).untouched key (hlog key)
    intro x hx
    have hsub : log ⊆ log ++ [⟨.getLatest s.key, latest⟩] := List.subset_append_left ..
    rcases List.mem_append.mp hx with hx | hx
    · exact h.mono hsub (List.subset_append_left ..) hx
    · cases latest with
      | none => cases hx
      | some m =>
        dsimp only [liveRefs] at hx
        split at hx
        · cases hx
        · rename_i hscope
          obtain ⟨hformat, htenant⟩ := not_or.mp hscope
          have hformat : m.manifest.format = .v2 := not_not.mp hformat
          have htenant : m.manifest.tenant = domain := not_not.mp htenant
          obtain ⟨r, hr, rfl⟩ := List.mem_map.mp hx
          obtain ⟨hr, hkeep⟩ := List.mem_filter.mp hr
          obtain ⟨hne, hknown⟩ := of_decide_eq_true hkeep
          refine ⟨hlatest.2 m rfl hformat htenant r hr hne, hne, hknown, m, List.mem_concat_self,
            hformat, htenant, fun r' hr' hne' hknown' => List.mem_append_right _ ?_⟩
          rw [liveRefs, if_neg hscope]
          exact List.mem_map.mpr ⟨r', List.mem_filter.mpr ⟨hr', by simp [hne', hknown']⟩, rfl⟩

/-! ### Manifests -/

theorem Moved.mono (hsub : log ⊆ log') {r' : ChunkRef} (h : Moved c domain Refs Blob log r r') :
    Moved c domain Refs Blob log' r r' := by
  rcases h with h | ⟨hr, loc, hloc, heq⟩
  · exact .inl h
  · exact .inr ⟨hr, loc, hloc.mono hsub, heq⟩

theorem mapM_eq_some {α β : Type} {f : α → Option β} {P : α → β → Prop} {l : List α}
    (h : ∀ x ∈ l, ∃ y, f x = some y ∧ P x y) : ∃ l', l.mapM f = some l' ∧ List.Forall₂ P l l' := by
  induction l with
  | nil => exact ⟨[], rfl, .nil⟩
  | cons x l ih =>
    obtain ⟨y, hy, hP⟩ := h x (List.mem_cons_self ..)
    obtain ⟨l', hl', hall⟩ := ih fun z hz => h z (List.mem_cons_of_mem _ hz)
    exact ⟨y :: l', by simp [List.mapM_cons, hy, hl'], .cons hP hall⟩

section Rewriting

variable {selected : List String} {relocate : List ChunkLocation} {key : SnapshotKey}
  (hsurvey : Surveyed domain Refs log listed live)
  (hselected : ∀ p ∈ selected, ∃ x ∈ live, x.2.packHash = p)
  (hrel : ∀ loc ∈ relocate, Relocated c domain Refs Blob log loc)
  (hall : ∀ x ∈ live, x.2.packHash ∈ selected → ∃ loc ∈ relocate, loc.chunkHash = x.2.hash)

include hsurvey hselected hrel hall

/-- **Rewriting a manifest.**  Every reference to a selected pack has a new location. -/
theorem meets_rewriteSelectedRefs (hkey : ∃ x ∈ live, x.1 = key) (huntouched : Untouched log key) :
    (ChunkedStore.rewriteSelectedRefs selected relocate key).Meets (compactRules c domain Refs Blob) log
      (Ends (fun log' _ => log ⊆ log' ∧ ∀ key', key' ≠ key → Untouched log key' → Untouched log' key')
        PackMissing) := by
  obtain ⟨x, hx, rfl⟩ := hkey
  obtain ⟨-, -, -, s, hs, hformat, htenant, hrefs⟩ := hsurvey x hx
  rw [ChunkedStore.rewriteSelectedRefs, meets_bind, meets_perform]
  refine ⟨huntouched, fun versions _ => ?_⟩
  have hquiet : Quiet log (log ++ [⟨.listVersions x.1, versions⟩]) := .append log (by simp)
  split
  · rename_i old _
    rw [meets_bind, meets_perform]
    refine ⟨hquiet.untouched _ huntouched, ?_⟩
    rintro latest ⟨hsame, -⟩
    cases hsame (some s) (List.mem_append_left _ hs)
    have hquiet' : Quiet log (log ++ [⟨.listVersions x.1, [old]⟩] ++ [⟨.getLatest x.1, some s⟩]) :=
      hquiet.trans (.append _ (by simp))
    -- the references to selected packs were found by the survey
    obtain ⟨chunks, hchunks, hmoved⟩ := mapM_eq_some (l := s.manifest.chunks)
      (f := ChunkedStore.relocateRef selected relocate) (P := Moved c domain Refs Blob log)
      fun r hr => by
        unfold ChunkedStore.relocateRef
        split
        · rename_i hsel
          obtain ⟨y, hy, hpack⟩ := hselected _ hsel
          obtain ⟨-, hne, hknown, -⟩ := hsurvey y hy
          rw [hpack] at hne hknown
          obtain ⟨loc, hloc, hhash⟩ := hall (x.1, r) (hrefs r hr hne hknown) hsel
          obtain ⟨found, hfound⟩ : ∃ found, relocate.find? (fun loc => loc.chunkHash = r.hash)
              = some found := by
            rw [← Option.isSome_iff_exists, List.find?_isSome]
            exact ⟨loc, hloc, by simpa using hhash⟩
          have hr := (hsurvey (x.1, r) (hrefs r hr hne hknown)).1
          refine ⟨_, by rw [hfound]; rfl, .inr ⟨hr, found, hrel found
            (List.mem_of_find?_eq_some hfound), ?_, rfl⟩⟩
          simpa using List.find?_some hfound
        · exact ⟨r, rfl, .inl rfl⟩
    dsimp only
    rw [if_neg (not_not.mpr hformat), hchunks]
    dsimp only
    split
    · rw [meets_bind, meets_perform]
      refine ⟨⟨hquiet'.untouched _ huntouched, s, hquiet'.sub hs, ⟨old, ?_⟩, rfl, hformat, htenant, rfl,
        hmoved.imp fun r r' => Moved.mono hquiet'.sub⟩, fun version _ => ?_⟩
      · exact List.mem_append_left _ List.mem_concat_self
      · rw [meets_bind, meets_perform]
        refine ⟨⟨⟨old, ?_, rfl⟩, _, _, version, List.mem_concat_self⟩, fun _ _ => ⟨?_, ?_⟩⟩
        · exact List.mem_append_left _ (List.mem_append_left _ List.mem_concat_self)
        · exact fun y hy => List.mem_append_left _ (List.mem_append_left _ (hquiet'.sub hy))
        · intro key' hne hkey'
          refine (Quiet.append _ (by simp)).untouched key' fun md m v hmem => ?_
          rcases List.mem_append.mp hmem with hmem | hmem
          · exact hquiet'.untouched key' hkey' md m v hmem
          · cases List.mem_singleton.mp hmem
            exact hne rfl
    · exact ⟨hquiet'.sub, fun key' _ => hquiet'.untouched key'⟩
  · exact ⟨hquiet.sub, fun key' _ => hquiet.untouched key'⟩

/-- All manifests that refer to selected packs. -/
theorem meets_rewriteAll {keys : List SnapshotKey}
    (hkeys : ∀ key ∈ keys, (∃ x ∈ live, x.1 = key) ∧ Untouched log key) (hnodup : keys.Nodup) :
    (foldOrFail (fun (n : Nat) key =>
        orFail (ChunkedStore.rewriteSelectedRefs selected relocate key) fun changed =>
          pure (.ok (if changed then n + 1 else n))) keys 0).Meets
      (compactRules c domain Refs Blob) log (Ends (fun _ _ => True) PackMissing) := by
  refine Meets.foldOrFail (fun _ todo log' _ => log ⊆ log'
    ∧ (∀ key ∈ todo, (∃ x ∈ live, x.1 = key) ∧ Untouched log' key) ∧ todo.Nodup) ?_
    ⟨List.Subset.refl _, hkeys, hnodup⟩ fun _ _ _ => trivial
  rintro done key todo log' n ⟨hsub, htodo, hnodup⟩
  obtain ⟨hkey, huntouched⟩ := htodo key (List.mem_cons_self ..)
  have hsurvey' : Surveyed domain Refs log' listed live := fun x hx =>
    hsurvey.mono hsub (List.Subset.refl _) hx
  refine (meets_rewriteSelectedRefs hsurvey' hselected (fun loc hloc => (hrel loc hloc).mono hsub)
    hall hkey huntouched).orFail ?_
  rintro log'' changed ⟨hsub', hother⟩
  refine ⟨fun x hx => hsub' (hsub hx), fun key' hkey' => ?_, (List.nodup_cons.mp hnodup).2⟩
  obtain ⟨hlive, huntouched'⟩ := htodo key' (List.mem_cons_of_mem _ hkey')
  refine ⟨hlive, hother key' ?_ huntouched'⟩
  rintro rfl
  exact (List.nodup_cons.mp hnodup).1 hkey'

end Rewriting

/-! ### A whole pass -/

theorem nodup_eraseDups {α : Type} [BEq α] [LawfulBEq α] (l : List α) : l.eraseDups.Nodup := by
  induction hlen : l.length using Nat.strong_induction_on generalizing l with
  | _ n ih =>
    cases l with
    | nil => exact List.nodup_nil
    | cons a l =>
      rw [List.eraseDups_cons, List.nodup_cons]
      refine ⟨by simp [List.mem_eraseDups], ih _ ?_ _ rfl⟩
      have := List.length_filter_le (fun b => !b == a) l
      rw [List.length_cons] at hlen
      omega

theorem pickCandidates_subset {packs : List String} {acc : List String × Int} :
    (pickCandidates cfg listed live now packs acc).1 ⊆ acc.1 ++ packs := by
  induction packs generalizing acc with
  | nil => simp [pickCandidates]
  | cons p packs ih =>
    have hskip : (pickCandidates cfg listed live now packs acc).1 ⊆ acc.1 ++ p :: packs := by
      intro x hx
      have := ih hx
      simp only [List.mem_append, List.mem_cons] at this ⊢
      tauto
    rw [pickCandidates]
    split
    · exact hskip
    · dsimp only
      split
      · exact hskip
      · split
        · exact hskip
        · split
          · exact List.subset_append_left ..
          · intro x hx
            have := ih hx
            simp only [List.mem_append, List.mem_cons, List.not_mem_nil, or_false] at this ⊢
            tauto

/-- The packs that are compacted are live. -/
theorem mem_candidates {target : Int}
    {p : String} (h : p ∈ candidates target cfg listed live now) :
    ∃ x ∈ live, x.2.packHash = p := by
  unfold candidates at h
  dsimp only at h
  split at h
  · cases h
  · have hmem := pickCandidates_subset h
    rw [List.nil_append, livePacks, List.mem_insertionSort, List.mem_eraseDups] at hmem
    obtain ⟨x, hx, rfl⟩ := List.mem_map.mp hmem
    exact ⟨x, hx, rfl⟩

/-- **A compaction meets its obligations, and fails only when a pack is missing.** -/
theorem meets_compact (hread : ∀ r b, Refs r → Blob r.packHash b → 0 ≤ r.offset ∧ 0 < r.size
      ∧ r.offset + r.size ≤ b.raw.length
      ∧ c.sha (window b.raw r.offset (r.offset + r.size)) = r.hash)
    (cfg : CompactConfig)
    (horder : ∀ keys, (order keys).Perm keys) :
    (c.compact cfg order domain).Meets (compactRules c domain Refs Blob) []
      (Ends (fun _ _ => True) PackMissing) := by
  unfold ChunkedStore.compact
  split
  · trivial
  · rw [meets_bind, meets_perform]
    refine ⟨trivial, fun listed _ => ?_⟩
    dsimp only
    split
    · trivial
    · rw [meets_bind, meets_perform]
      refine ⟨trivial, fun snaps _ => ?_⟩
      rw [meets_bind]
      have hstart : ∀ key, Untouched ([] ++ [⟨.listBlobs (.ofTenant .pack domain), listed⟩]
          ++ [⟨.walk, snaps⟩] : Log) key := by
        simp [Untouched]
      refine (Meets.fold
        (fun log acc => (∀ key, Untouched log key) ∧ Surveyed domain Refs log listed acc.2)
        (fun s _ log acc h => meets_surveyOne h.1 h.2) ⟨hstart, by simp [Surveyed]⟩).mono ?_
      rintro log ⟨seen, live⟩ ⟨hpristine, hsurvey⟩
      rw [meets_bind, meets_perform]
      refine ⟨trivial, fun now _ => ?_⟩
      dsimp only
      split
      · trivial
      · have hclock : Quiet log (log ++ [⟨.clock, now⟩]) := .append log (by simp)
        have hsub : log ⊆ log ++ [⟨.clock, now⟩] := List.subset_append_left ..
        refine (meets_consolidate hread (fun keys x hx => (horder keys).mem_iff.mpr hx)
          (fun x hx => (hsurvey x hx).1) (fun p hp => mem_candidates hp)).orFail ?_
        rintro log' st ⟨hquiet, hrel, hall⟩
        rw [meets_bind]
        -- the dedup store is told
        have hrepoint : (c.repoint domain st.relocate
            (candidates c.packTargetBytes cfg listed live now)).Meets (compactRules c domain Refs Blob)
            log' fun log'' _ => Quiet log' log'' := by
          unfold ChunkedStore.repoint
          split
          · exact .refl log'
          · rw [meets_bind, meets_perform]
            refine ⟨rfl, fun _ _ => ⟨⟨rfl, fun loc hloc => ?_⟩, fun _ _ => ?_⟩⟩
            · exact (hrel loc hloc).mono (List.subset_append_left ..)
            · exact (Quiet.append _ (by simp)).trans (.append _ (by simp))
        refine hrepoint.mono fun log'' _ hquiet' => ?_
        have hquiet'' := hquiet.trans hquiet'
        refine (meets_rewriteAll (fun x hx => hsurvey.mono (fun y hy => hquiet''.sub (hsub hy))
          (List.Subset.refl _) hx) (fun p hp => mem_candidates hp)
          (fun loc hloc => (hrel loc hloc).mono hquiet'.sub) hall (fun key hkey => ?_) ?_).orFail ?_
        · rw [ChunkedStore.keysToRewrite, List.mem_eraseDups] at hkey
          obtain ⟨p, -, hkey⟩ := List.mem_flatMap.mp hkey
          rw [(horder _).mem_iff, keysIn, List.mem_eraseDups] at hkey
          obtain ⟨x, hx, rfl⟩ := List.mem_map.mp hkey
          exact ⟨⟨x, (List.mem_filter.mp hx).1, rfl⟩,
            hquiet''.untouched _ (hclock.untouched _ (hpristine _))⟩
        · exact nodup_eraseDups _
        · exact fun _ _ _ => trivial

end MemoryLayer.Snapshot
