import MemoryLayer.Pack.Blobs
import MemoryLayer.Snapshot.CompactReads

namespace MemoryLayer.Pack

open Calls Runs Snapshot

/-! # The framing cache

The framings that readers find are kept for the life of a store, and are never dropped: a pack is named
by the hash of its content.  But the hash does not say how the content is framed.

- `packBytes`: the bytes of a pack in the blob store.
- `Stage`, `Stage.next`: a probe, read by read.
- `Caching`, `CacheEvent`: a store, its cache and the probes that are under way.
- `Fresh`: the cached framings are those of the blobs.
- `fresh_of_guarded`: **the cache is fresh as long as no pack comes back with another framing.**
-/

/-! ### Packs as bytes -/

/-- The bytes of a pack. -/
def packBytes (k : Codec) (b : PackBlob) : Bytes :=
  match b.index with
  | none => compressPackBlob k b.raw b.algo
  | some spans =>
    -- an index is written only for spans that cover the content
    (compressPackBlobChunked k b.raw spans b.algo).getD (compressPackBlob k b.raw b.algo)

theorem length_packBytes (k : Codec) (b : PackBlob) : packHeaderLen ≤ (packBytes k b).length := by
  have hplain : packHeaderLen ≤ (compressPackBlob k b.raw b.algo).length := by
    simp [compressPackBlob, packHeaderLen, packMagic]
  unfold packBytes
  split
  · exact hplain
  · unfold compressPackBlobChunked
    split
    · exact hplain
    · split
      · simp [packHeaderLen, packMagic]
      · exact hplain

/-! ### A probe, read by read -/

/-- How far a probe is: it will ask for the long header, the short one, or the index, or it is over. -/
inductive Stage where
  | long
  | short
  | index (framing : PackFraming)
  | ended (found : Except PackErr PackFraming)
  deriving DecidableEq

/-- After the header. -/
def Stage.headed (head : Bytes) : Stage :=
  match detectPackFraming head with
  | .error err => .ended (.error err)
  | .ok framing =>
    if framing.algo ≠ .perChunk then .ended (.ok framing)
    else if framing.indexLen = 0 then .ended (.ok { framing with chunked := [] })
    else .index framing

/-- One read of a probe. -/
def Stage.next (get : Int → Int → Except GetErr Bytes) : Stage → Stage
  | .long =>
    match get 0 packChunkedHeaderLen with
    | .ok head => .headed head
    | .error .notFound => .ended (.error .missingBlob)
    | .error .other => .short
  | .short =>
    match get 0 packHeaderLen with
    | .ok head => .headed head
    | .error .notFound => .ended (.error .missingBlob)
    | .error .other => .ended (.ok (.plain .forceWholePack 0))
  | .index framing =>
    match get packChunkedHeaderLen framing.indexLen with
    | .error err => .ended (.error err.packErr)
    | .ok bytes =>
      .ended ((parsePackChunkIndex bytes).map fun entries => { framing with chunked := entries })
  | .ended found => .ended found

theorem next_headed (get : Backend) (id head) :
    (Stage.headed head).next (get id) = .ended (resolveFraming get id head) := by
  unfold Stage.headed resolveFraming
  cases detectPackFraming head with
  | error err => rfl
  | ok framing =>
    dsimp only
    split
    · rfl
    · split
      · rfl
      · unfold Stage.next
        dsimp only
        cases get id packChunkedHeaderLen framing.indexLen <;> rfl

/-! ### Probes and blobs -/

/-- The reads of one blob, which may be rejected. -/
def readOf (blob : Option Bytes) (rejected : Bool) : Int → Int → Except GetErr Bytes :=
  BlobStore.get ⟨fun _ => blob, fun _ _ _ => rejected⟩ ""

/-- The next read of the blob does not end the probe with another framing than that of the blob. -/
def Stage.Suits (stage : Stage) (b : Bytes) : Bool :=
  match stage.next (readOf (some b) false) with
  | .ended (.ok framing) => framingOf b = .ok framing
  | _ => true

variable {b : Bytes} {stage : Stage}

theorem suits_iff : stage.Suits b = true ↔
    ∀ framing, stage.next (readOf (some b) false) = .ended (.ok framing) → framingOf b = .ok framing := by
  unfold Stage.Suits
  split
  · rename_i framing hnext
    rw [hnext]
    simp only [decide_eq_true_eq, Stage.ended.injEq, Except.ok.injEq, forall_eq']
  · rename_i hnot
    simp only [true_iff]
    intro framing hnext
    exact absurd hnext (hnot framing)

/-- A header of the blob leads to its framing. -/
theorem suits_headed {head b : Bytes} (h : ∀ framing, detectPackFraming head = .ok framing →
    detectPackFraming b = .ok framing) : (Stage.headed head).Suits b = true := by
  rw [suits_iff]
  intro framing hnext
  unfold readOf at hnext
  rw [next_headed, Stage.ended.injEq] at hnext
  refine resolveFraming_eq (s := ⟨fun _ => some b, fun _ _ _ => false⟩) rfl ?_ hnext
  cases hdetect : detectPackFraming head with
  | ok f => exact (h f hdetect).symm
  | error err =>
    unfold resolveFraming at hnext
    rw [hdetect] at hnext
    cases hnext

/-- A stage suits a blob when the one after a read does. -/
theorem suits_of_next (h : (stage.next (readOf (some b) false)).Suits b = true) : stage.Suits b = true := by
  rw [suits_iff] at h ⊢
  intro framing hnext
  exact h framing (by rw [hnext]; rfl)

/-- A read of the beginning is rejected, or delivers it. -/
theorem readOf_take (b : Bytes) (rejected : Bool) (n : Nat) :
    (readOf (some b) rejected 0 n = .error .other ∧ (rejected = true ∨ b.length < n))
      ∨ (readOf (some b) rejected 0 n = .ok (b.take n) ∧ n ≤ b.length) := by
  unfold readOf BlobStore.get
  dsimp only
  rw [if_neg (by omega)]
  by_cases hrejected : rejected = true ∨ b.length < n
  · rw [if_pos (by rcases hrejected with h | h <;> simp [h])]
    exact .inl ⟨rfl, hrejected⟩
  · rw [not_or] at hrejected
    rw [if_neg (by simp [hrejected.1]; omega)]
    refine .inr ⟨?_, by omega⟩
    simp [window]

section

variable (hlen : packHeaderLen ≤ b.length)

include hlen

/-- The short header suits a pack. -/
theorem suits_next_short :
    (Stage.short.next (readOf (some b) false)).Suits b = true := by
  unfold Stage.next
  rcases readOf_take b false packHeaderLen with ⟨-, h | h⟩ | ⟨hread, -⟩
  · cases h
  · omega
  · rw [hread]
    exact suits_headed fun framing hdetect => (detect_take_short hlen hdetect).1

/-- So does the long one, and if that is rejected, the short one is next. -/
theorem suits_next_long (rejected : Bool) :
    (Stage.long.next (readOf (some b) rejected)).Suits b = true := by
  rw [Stage.next.eq_1]
  rcases readOf_take b rejected packChunkedHeaderLen with ⟨hread, -⟩ | ⟨hread, hlong⟩
  · rw [hread]
    exact suits_of_next (suits_next_short hlen)
  · rw [hread]
    refine suits_headed fun framing hdetect => ?_
    rw [← detect_take hlong]
    exact hdetect

/-- **A probe goes on to suit the blob**, unless its last attempt at a header is rejected. -/
theorem suits_next {rejected : Bool}
    (hstage : stage = .short → rejected = false) (h : stage.Suits b = true) :
    (stage.next (readOf (some b) rejected)).Suits b = true := by
  cases stage with
  | long => exact suits_next_long hlen rejected
  | short =>
    rw [hstage rfl]
    exact suits_next_short hlen
  | index framing =>
    cases rejected with
    | true =>
      have hread : readOf (some b) true packChunkedHeaderLen framing.indexLen = .error .other := by
        unfold readOf BlobStore.get
        dsimp only
        rw [if_neg (by omega), if_pos (.inl rfl)]
      rw [Stage.next.eq_3, hread]
      rfl
    | false =>
      rw [suits_iff] at h ⊢
      intro found hnext
      refine h found ?_
      unfold Stage.next at hnext ⊢
      dsimp only at hnext ⊢
      cases hread : readOf (some b) false packChunkedHeaderLen framing.indexLen with
      | error err => rw [hread] at hnext; exact hnext
      | ok bytes => rw [hread] at hnext; exact hnext
  | ended found => exact h

end

/-! ### A store and its cache -/

/-- The stores, the cached framings, and the probes that are under way. -/
structure Caching where
  world : World
  framings : BlobId → Option PackFraming
  probes : List (BlobId × Stage)

namespace Caching

/-- A process starts with an empty cache. -/
def start (w : World) : Caching := ⟨w, fun _ => none, []⟩

/-- The bytes of a blob. -/
def bytes (k : Codec) (s : Caching) (id : BlobId) : Option Bytes := (s.world.blob id).map (packBytes k)

/-- Serve a call to the stores. -/
def serve (e : Env) (s : Caching) (c : Call) : Answer c × Caching :=
  ((Snapshot.serve e s.world c).1, { s with world := (Snapshot.serve e s.world c).2 })

end Caching

/-- What readers do: consult the cache for a pack, make the next read of a probe, which may be rejected,
    and keep what a probe has found.  And time passes. -/
inductive CacheEvent where
  | consult (id : BlobId)
  | read (i : Nat) (rejected : Bool)
  | keep (i : Nat)
  | tick (duration : Nat)

def CacheEvent.step (k : Codec) (s : Caching) : CacheEvent → Caching
  | .consult id =>
    if (s.framings id).isSome then s else { s with probes := s.probes ++ [(id, .long)] }
  | .read i rejected =>
    match s.probes[i]? with
    | none => s
    | some (id, stage) =>
      { s with probes := s.probes.set i (id, stage.next (readOf (s.bytes k id) rejected)) }
  | .keep i =>
    match s.probes[i]? with
    | some (id, .ended (.ok framing)) =>
      { s with
        framings := Function.update s.framings id (some framing)
        probes := s.probes.eraseIdx i }
    | _ => s
  | .tick duration => { s with world := { s.world with now := s.world.now + duration } }

/-- **The cached framings are those of the blobs.** -/
def Fresh (k : Codec) (s : Caching) : Prop :=
  ∀ id b framing, s.bytes k id = some b → s.framings id = some framing → framingOf b = .ok framing

/-! ### What keeps a cache fresh -/

/-- A pack that is uploaded has the framing that is cached for it, and the one that a probe of it, begun
    before it was deleted, goes on to find. -/
def Keeps (k : Codec) (s : Caching) : Call → Prop
  | .putIfAbsent id content =>
    (s.world.blob id).isSome
      ∨ (s.framings id).all (fun framing => framingOf (packBytes k content) = .ok framing)
        ∧ s.probes.all fun p => p.1 ≠ id ∨ p.2.Suits (packBytes k content)
  | _ => True

/-- The last attempt at the header of a pack that is there is not rejected. -/
def Answered (k : Codec) (s : Caching) : CacheEvent → Prop
  | .read i rejected =>
    ∀ p ∈ s.probes[i]?, p.2 ≠ .short ∨ rejected = false ∨ s.bytes k p.1 = none
  | _ => True

instance (k : Codec) (s : Caching) : ∀ c, Decidable (Keeps k s c)
  | .putIfAbsent .. => inferInstanceAs (Decidable (_ ∨ _ ∧ _))
  | .lookup .. | .record .. | .purgePacks .. | .associate .. | .dropContext .. | .markObliterating ..
  | .releaseMark .. | .commitObliterated .. | .isBackfilled .. | .walkLivePacks .. | .getBlob ..
  | .getMetadata .. | .deleteBlob .. | .listBlobs .. | .putSnapshot .. | .getLatest ..
  | .listVersions .. | .deleteSnapshot .. | .walk | .clock => .isTrue trivial

instance (k : Codec) (s : Caching) : ∀ event, Decidable (Answered k s event)
  | .read i _ => inferInstanceAs (Decidable (∀ p ∈ s.probes[i]?, _ ∨ _ ∨ _))
  | .consult _ | .keep _ | .tick _ => .isTrue trivial

/-- The cache is fresh, and the probes will keep it so. -/
structure Tracked (k : Codec) (s : Caching) : Prop where
  fresh : Fresh k s
  probes : ∀ id stage b, (id, stage) ∈ s.probes → s.bytes k id = some b → stage.Suits b = true

/-- A blob was there before a call, or the call uploads it. -/
theorem blob_serve (e : Env) {w : World} {c : Call} {id : BlobId} {b : PackBlob}
    (h : (Snapshot.serve e w c).2.blob id = some b) :
    w.blob id = some b ∨ (c = .putIfAbsent id b ∧ w.blob id = none) := by
  cases c with
  | putIfAbsent id' content =>
    rw [World.blob, stored_putIfAbsent] at h
    by_cases hid : id = id'
    · subst hid
      rw [if_pos rfl] at h
      cases hold : w.stored id with
      | some old =>
        rw [hold] at h
        exact .inl (by rw [World.blob, hold]; exact h)
      | none =>
        rw [hold] at h
        cases h
        exact .inr ⟨rfl, by rw [World.blob, hold]; rfl⟩
    · rw [if_neg hid] at h
      exact .inl h
  | deleteBlob id' =>
    rw [World.blob, stored_deleteBlob] at h
    by_cases hid : id = id'
    · rw [if_pos hid] at h
      cases h
    · rw [if_neg hid] at h
      exact .inl h
  | _ => exact .inl h

theorem tracked_serve (k : Codec) (e : Env) (s : Caching) (c : Call) (h : Tracked k s)
    (hkeeps : Keeps k s c) : Tracked k (s.serve e c).2 := by
  have hbytes : ∀ id b, (s.serve e c).2.bytes k id = some b → s.bytes k id = some b
      ∨ ∃ content, b = packBytes k content ∧ c = .putIfAbsent id content ∧ s.world.blob id = none := by
    intro id b hb
    obtain ⟨content, hcontent, rfl⟩ := Option.map_eq_some_iff.mp hb
    rcases blob_serve e hcontent with hold | ⟨rfl, hnone⟩
    · exact .inl (by rw [Caching.bytes, hold]; rfl)
    · exact .inr ⟨content, rfl, rfl, hnone⟩
  constructor
  · intro id b framing hb hframing
    rcases hbytes id b hb with hold | ⟨content, rfl, rfl, hnone⟩
    · exact h.fresh id b framing hold hframing
    · rcases hkeeps with hsome | ⟨hcached, -⟩
      · rw [hnone] at hsome
        cases hsome
      · have hframing : s.framings id = some framing := hframing
        rw [hframing] at hcached
        simpa using hcached
  · intro id stage b hmem hb
    rcases hbytes id b hb with hold | ⟨content, rfl, rfl, hnone⟩
    · exact h.probes id stage b hmem hold
    · rcases hkeeps with hsome | ⟨-, hprobes⟩
      · rw [hnone] at hsome
        cases hsome
      · have hsuits := List.all_eq_true.mp hprobes (id, stage) hmem
        simpa using hsuits

theorem length_bytes {k : Codec} {s : Caching} {id : BlobId} (h : s.bytes k id = some b) :
    packHeaderLen ≤ b.length := by
  obtain ⟨content, -, rfl⟩ := Option.map_eq_some_iff.mp h
  exact length_packBytes k content

theorem tracked_event (k : Codec) (s : Caching) (event : CacheEvent) (h : Tracked k s)
    (hfits : Answered k s event) : Tracked k (event.step k s) := by
  cases event with
  | consult id =>
    unfold CacheEvent.step
    dsimp only
    split
    · exact h
    · refine ⟨h.fresh, fun id' stage b hmem hb => ?_⟩
      rcases List.mem_append.mp hmem with hmem | hmem
      · exact h.probes id' stage b hmem hb
      · cases List.mem_singleton.mp hmem
        -- a probe that has read nothing suits any blob
        exact suits_of_next (suits_next_long (length_bytes hb) false)
  | read i rejected =>
    cases hprobe : s.probes[i]? with
    | none =>
      rw [CacheEvent.step, hprobe]
      exact h
    | some p =>
      obtain ⟨id, stage⟩ := p
      rw [CacheEvent.step, hprobe]
      refine ⟨h.fresh, fun id' stage' b hmem hb => ?_⟩
      rcases List.mem_or_eq_of_mem_set hmem with hmem | heq
      · exact h.probes id' stage' b hmem hb
      · cases heq
        have hbytes : s.bytes k id = some b := hb
        rw [hbytes]
        refine suits_next (length_bytes hbytes) (fun hshort => ?_)
          (h.probes id stage b (List.mem_of_getElem? hprobe) hbytes)
        subst hshort
        rcases hfits _ hprobe with hlong | hfits | hnone
        · exact absurd rfl hlong
        · exact hfits
        · rw [hnone] at hbytes
          cases hbytes
  | keep i =>
    unfold CacheEvent.step
    dsimp only
    split
    · rename_i id framing hprobe
      refine ⟨fun id' b framing' hb hframing => ?_, fun id' stage b hmem hb =>
        h.probes id' stage b (List.mem_of_mem_eraseIdx hmem) hb⟩
      dsimp only at hframing
      by_cases hid : id' = id
      · subst hid
        rw [Function.update_self, Option.some.injEq] at hframing
        subst hframing
        exact suits_iff.mp (h.probes id' _ b (List.mem_of_getElem? hprobe) hb) framing rfl
      · rw [Function.update_of_ne hid] at hframing
        exact h.fresh id' b framing' hb hframing
    · exact h
  | tick duration => exact ⟨h.fresh, h.probes⟩

theorem tracked_start (k : Codec) (w : World) : Tracked k (.start w) where
  fresh id b framing _ hframing := by cases hframing
  probes id stage b hmem := by cases hmem

/-- The programs over the stores and the readers of one process. -/
abbrev CachePool := Pool Caching Answer Unit

/-- What happens in a process: programs start and make their calls, readers act, and time passes. -/
abbrev CacheAction := Action Answer Unit CacheEvent

def CachePool.step (k : Codec) (e : Env) : CachePool → CacheAction → CachePool :=
  Pool.step (Caching.serve e) (CacheEvent.step k)

/-- **The cache stays fresh** in every run of any programs and readers in which no pack comes back with
    another framing than the one that is cached or being probed, and no header of a pack that is there
    is rejected for good. -/
theorem fresh_of_guarded (k : Codec) (e : Env) (w : World) (actions : List CacheAction)
    (h : Guarded (CachePool.step k e) (Pool.Good (Keeps k) (Answered k)) ⟨.start w, []⟩ actions) :
    Fresh k (run (CachePool.step k e) ⟨.start w, []⟩ actions).state :=
  (Pool.invariant_of_good (Tracked k) (tracked_serve k e) (tracked_event k) (tracked_start k w) h).fresh

/-! ### A pack that comes back -/

/-- A program, call by call. -/
def allOf (i : Nat) (p : StoreProg Unit) : List CacheAction :=
  .start p :: List.replicate 6 (.next i)

/-- The pack of two bytes is read, and its framing is cached. -/
def readPair : List CacheAction :=
  [.other (.consult (packBlobID "acme" (spell [1, 2]))), .other (.read 0 false), .other (.read 0 false),
    .other (.keep 0)]

/-- An object is written, read, deleted and collected, and its bytes are written again. -/
def rewritten (c : ChunkedStore) : List CacheAction :=
  allOf 0 (pairStore.put ⟨"acme", "", "", "object"⟩ plainMeta [1, 2] >>= fun _ => pure ())
    ++ readPair
    ++ allOf 1 (ChunkedStore.delete ⟨"acme", "", "", "object"⟩ "")
    ++ allOf 2 ((indexedGC 0).run "" [fun _ => true] >>= fun _ => pure ())
    ++ allOf 3 (c.put ⟨"acme", "", "", "object"⟩ plainMeta [1, 2] >>= fun _ => pure ())

/-- Under the same codec the cache is fresh. -/
theorem fresh_same_codec : Fresh plainCodec
    (run (CachePool.step plainCodec exampleEnv) ⟨.start .empty, []⟩ (rewritten pairStore)).state :=
  fresh_of_guarded plainCodec exampleEnv .empty (rewritten pairStore) (by decide)

/-- Without compression the pack has no index, and the cached framing has one. -/
theorem stale_other_codec : ¬ Fresh plainCodec
    (run (CachePool.step plainCodec exampleEnv) ⟨.start .empty, []⟩
      (rewritten { pairStore with policy := fun _ => .none })).state := by
  intro h
  have hcached := h (packBlobID "acme" (spell [1, 2])) (packMagic ++ [0, 1, 2])
    ⟨.perChunk, 0, .zstd, 25, 35, [⟨0, 2, 0, 2, 0⟩]⟩ (by decide) (by decide)
  revert hcached
  decide

end MemoryLayer.Pack
