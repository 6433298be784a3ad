import Mathlib.Data.List.SplitBy
import Mathlib.Order.Basic

namespace MemoryLayer.Snapshot

/-! # Pack blobs and how chunks are read out of them

A stored pack says how it is framed: its compression class, and whether each chunk is compressed on
its own, with an index of where the chunks lie (`store_compress.go`).  The model keeps what the
framing says and the uncompressed content; the codecs are taken to give back what they were given.
Reading is `loadPackRun` and its helpers (`store_chunked.go`).

- `PackBlob`, `storePackBlob`: a stored pack, and how one is made.
- `loadPackRun`, `loadStandaloneChunk`, `readChunks`: the chunks of a manifest.
- `Tiles`, `chunkedStoredSpan_isSome`: an index serves every window between two of its boundaries.
- `Readable`, `readChunks_ok`: when every reference can be read, the chunks they name are read.
-/

/-- Uncompressed content. -/
abbrev Bytes := List UInt8

inductive CompressionAlgo where
  | gzip
  | none
  | zstd
  deriving DecidableEq, Repr

/-- How a compressed pack is framed. -/
inductive PackCompressionMode where
  | perChunk
  | wholePack
  deriving DecidableEq, Repr

/-- The extent of a chunk within a pack. -/
structure PackSpan where
  offset : Int
  size : Int
  deriving DecidableEq, Repr

/-- A stored pack, or a stored chunk of its own. -/
structure PackBlob where
  algo : CompressionAlgo
  index : Option (List PackSpan)
  raw : Bytes
  deriving DecidableEq, Repr

/-- One codec for the whole content. -/
def compressPackBlob (raw : Bytes) (algo : CompressionAlgo) : PackBlob := ⟨algo, none, raw⟩

/-- The spans are contiguous, from `next` to the end of the content. -/
def validatePackSpans (length : Int) (next : Int) : List PackSpan → Bool
  | [] => next = length
  | sp :: spans => 0 ≤ sp.size ∧ sp.offset = next ∧ validatePackSpans length (next + sp.size) spans

/-- Frame a pack; only a pack whose spans do not cover it fails. -/
def storePackBlob (mode : PackCompressionMode) (raw : Bytes) (spans : List PackSpan)
    (codec : CompressionAlgo) : Option PackBlob :=
  if codec = .none ∨ mode = .wholePack then some (compressPackBlob raw codec)
  else if validatePackSpans raw.length 0 spans then some ⟨codec, some spans, raw⟩ else none

/-! ### Reading -/

/-- A chunk of an object: its hash, and where it lies.  A chunk with a blob of its own has no pack. -/
structure ChunkRef where
  hash : String
  packHash : String
  offset : Int
  size : Int
  deriving DecidableEq, Repr

/-- Why a read fails; `sliceFault` is a slice whose bounds are the wrong way round. -/
inductive ReadErr where
  | missingBlob
  | corrupt
  | invalidWindow
  | sliceFault
  deriving DecidableEq, Repr

/-- The content from `lo` to `hi`. -/
def window (content : Bytes) (lo hi : Int) : Bytes := (content.drop lo.toNat).take (hi - lo).toNat

/-- One chunk out of the content, checked against its hash. -/
def sliceRef (sha : Bytes → String) (content : Bytes) (ref : ChunkRef) : Except ReadErr Bytes :=
  let stop := ref.offset + ref.size
  if ref.offset < 0 ∨ stop > content.length then .error .corrupt
  else if stop < ref.offset then .error .sliceFault
  else
    let chunk := window content ref.offset stop
    if sha chunk = ref.hash then .ok chunk else .error .corrupt

def sliceRunFromContent (sha : Bytes → String) (content : Bytes) (run : List ChunkRef) :
    Except ReadErr (List Bytes) :=
  run.mapM (sliceRef sha content)

def shiftRun (run : List ChunkRef) (base : Int) : List ChunkRef :=
  run.map fun ref => { ref with offset := ref.offset - base }

/-- The entries of an index that cover a window, which has to begin and end with an entry. -/
def chunkedStoredSpan (entries : List PackSpan) (minOff maxEnd : Int) : Option (List PackSpan) :=
  match entries.dropWhile fun e => e.offset ≠ minOff with
  | [] => none
  | e :: rest =>
    let inside := (e :: rest).takeWhile fun e => e.offset < maxEnd
    match inside.getLast? with
    | none => some []
    | some last => if last.offset + last.size = maxEnd then some inside else none

/-- Where a run begins in its pack, and where it ends. -/
def runStart (ref : ChunkRef) (run : List ChunkRef) : Int :=
  run.foldl (fun m r => if r.offset < m then r.offset else m) ref.offset

def runEnd (run : List ChunkRef) : Int :=
  run.foldl (fun m r => if r.offset + r.size > m then r.offset + r.size else m) 0

/-- The chunks of a run, all of one pack.  A pack without an index that is not compressed is read in
    the window of the run, and as a whole when the window does not fit. -/
def loadPackRun (sha : Bytes → String) (blob : Option PackBlob) (ref : ChunkRef)
    (run : List ChunkRef) : Except ReadErr (List Bytes) :=
  let minOff := runStart ref run
  let maxEnd := runEnd run
  if minOff < 0 ∨ maxEnd < minOff then .error .invalidWindow
  else if maxEnd - minOff ≤ 0 then sliceRunFromContent sha [] (shiftRun run minOff)
  else match blob with
    | none => .error .missingBlob
    | some b => match b.index with
      | some entries =>
        match chunkedStoredSpan entries minOff maxEnd with
        | none => .error .corrupt
        | some _ => sliceRunFromContent sha (window b.raw minOff maxEnd) (shiftRun run minOff)
      | none =>
        if b.algo = .none ∧ maxEnd ≤ b.raw.length then
          sliceRunFromContent sha (window b.raw minOff maxEnd) (shiftRun run minOff)
        else sliceRunFromContent sha b.raw run

/-- A chunk with a blob of its own. -/
def loadStandaloneChunk (blob : Option PackBlob) (ref : ChunkRef) : Except ReadErr Bytes :=
  match blob with
  | none => .error .missingBlob
  | some b => if (b.raw.length : Int) = ref.size then .ok b.raw else .error .corrupt

/-- One run: chunks of one pack, or chunks with blobs of their own.  `pack` and `chunk` fetch blobs by
    hash. -/
def loadRun (sha : Bytes → String) (pack chunk : String → Option PackBlob) :
    List ChunkRef → Except ReadErr (List Bytes)
  | [] => .ok []
  | ref :: run =>
    if ref.packHash = "" then (ref :: run).mapM fun r => loadStandaloneChunk (chunk r.hash) r
    else loadPackRun sha (pack ref.packHash) ref (ref :: run)

/-- All chunks, run by run. -/
def readChunks (sha : Bytes → String) (pack chunk : String → Option PackBlob)
    (refs : List ChunkRef) : Except ReadErr (List Bytes) :=
  ((refs.splitBy fun r s => r.packHash = s.packHash).mapM (loadRun sha pack chunk)).map List.flatten

/-! ### Windows of an index -/

/-- The spans cover `[a, b)` one after another, and none is empty. -/
def Tiles (a : Int) : List PackSpan → Int → Prop
  | [], b => a = b
  | e :: rest, b => e.offset = a ∧ 0 < e.size ∧ Tiles (a + e.size) rest b

variable {a b hi lo : Int} {entries : List PackSpan} {e : PackSpan} {β : Type} {sha : Bytes → String}
  {ref : ChunkRef} {run : List ChunkRef} {content : Bytes}

section

variable (h : Tiles a entries b)

include h

theorem Tiles.le : a ≤ b := by
  induction entries generalizing a with
  | nil => exact Int.le_of_eq h
  | cons x rest ih =>
    obtain ⟨-, hpos, hrest⟩ := h
    have := ih hrest
    omega

theorem Tiles.offset_ge (he : e ∈ entries) : a ≤ e.offset := by
  induction entries generalizing a with
  | nil => cases he
  | cons x rest ih =>
    obtain ⟨hx, hpos, hrest⟩ := h
    rcases List.mem_cons.mp he with rfl | he
    · omega
    · have := ih hrest he
      omega

theorem Tiles.end_le (he : e ∈ entries) : 0 < e.size ∧ e.offset + e.size ≤ b := by
  induction entries generalizing a with
  | nil => cases he
  | cons x rest ih =>
    obtain ⟨hx, hpos, hrest⟩ := h
    rcases List.mem_cons.mp he with rfl | he
    · have := hrest.le
      exact ⟨hpos, by omega⟩
    · exact ih hrest he

theorem Tiles.validate :
    validatePackSpans b a entries = true := by
  induction entries generalizing a with
  | nil => simpa [validatePackSpans, Tiles] using h
  | cons x rest ih =>
    obtain ⟨hx, hpos, hrest⟩ := h
    simp [validatePackSpans, hx, Int.le_of_lt hpos, ih hrest]

/-- The last entry that begins before the end of a window is the one that ends there. -/
theorem Tiles.getLast?_takeWhile (he : e ∈ entries) (hend : e.offset + e.size = hi) :
    ∃ last, (entries.takeWhile fun x => x.offset < hi).getLast? = some last
      ∧ last.offset + last.size = hi := by
  induction entries generalizing a with
  | nil => cases he
  | cons x rest ih =>
    have hx : x.offset < hi := by
      have hpos := (h.end_le he).1
      have hge := h.offset_ge he
      have hfirst : x.offset = a := h.1
      omega
    rw [List.takeWhile_cons_of_pos (by simpa using hx)]
    by_cases hxend : x.offset + x.size = hi
    · -- the next entry begins where the window ends
      have hnil : rest.takeWhile (fun y => y.offset < hi) = [] := by
        cases rest with
        | nil => rfl
        | cons y rest =>
          have hy : y.offset = a + x.size := h.2.2.1
          have hfirst : x.offset = a := h.1
          rw [List.takeWhile_cons_of_neg]
          simp only [decide_eq_true_eq]
          omega
      rw [hnil]
      exact ⟨x, rfl, hxend⟩
    · have hrest : e ∈ rest := by
        rcases List.mem_cons.mp he with rfl | hrest
        · exact absurd hend hxend
        · exact hrest
      obtain ⟨last, hlast, hlastEnd⟩ := ih h.2.2 hrest
      refine ⟨last, ?_, hlastEnd⟩
      rw [List.getLast?_cons, hlast]
      rfl

/-- **Aligned windows are served.**  An index gives every window that begins with one entry and ends
    with another. -/
theorem chunkedStoredSpan_isSome {e' : PackSpan} (he : e ∈ entries) (hlo : e.offset = lo)
    (he' : e' ∈ entries) (hhi : e'.offset + e'.size = hi) (hlt : lo < hi) :
    (chunkedStoredSpan entries lo hi).isSome := by
  unfold chunkedStoredSpan
  induction entries generalizing a with
  | nil => cases he
  | cons x rest ih =>
    by_cases hx : x.offset = lo
    · rw [List.dropWhile_cons_of_neg (by simpa using hx)]
      obtain ⟨last, hlast, hend⟩ := h.getLast?_takeWhile he' hhi
      simp [hlast, hend]
    · rw [List.dropWhile_cons_of_pos (by simpa using hx)]
      have hmem : e ∈ rest := by
        rcases List.mem_cons.mp he with rfl | hmem
        · exact absurd hlo hx
        · exact hmem
      have hmem' : e' ∈ rest := by
        rcases List.mem_cons.mp he' with rfl | hmem'
        · -- the first entry ends before the one that the window begins with
          have hge := h.2.2.offset_ge hmem
          have hfirst : e'.offset = a := h.1
          omega
        · exact hmem'
      exact ih h.2.2 hmem hmem'

end

/-! ### Chunks that can be read -/

theorem length_window (hlo : 0 ≤ lo) (hle : lo ≤ hi)
    (hhi : hi ≤ content.length) : ((window content lo hi).length : Int) = hi - lo := by
  rw [window, List.length_take, List.length_drop]
  omega

/-- A window of a window. -/
theorem window_window (hlo : 0 ≤ lo) (ha : lo ≤ a) (hab : a ≤ b)
    (hb : b ≤ hi) : window (window content lo hi) (a - lo) (b - lo) = window content a b := by
  unfold window
  rw [List.drop_take, List.take_take, List.drop_drop]
  congr 1
  · omega
  · congr 1
    omega

/-- A blob is framed as `storePackBlob` frames it, around chunks that are not empty. -/
def PackBlob.Framed (b : PackBlob) : Prop :=
  ∀ entries, b.index = some entries → Tiles 0 entries b.raw.length

/-- The reference covers whole entries of the index, if there is one. -/
def Aligned (b : PackBlob) (ref : ChunkRef) : Prop :=
  ∀ entries, b.index = some entries →
    (∃ e ∈ entries, e.offset = ref.offset)
      ∧ ∃ e ∈ entries, e.offset + e.size = ref.offset + ref.size

/-- What a reference names. -/
def chunkAt (pack chunk : String → Option PackBlob) (ref : ChunkRef) : Bytes :=
  if ref.packHash = "" then ((chunk ref.hash).map PackBlob.raw).getD []
  else ((pack ref.packHash).map fun b => window b.raw ref.offset (ref.offset + ref.size)).getD []

/-- A reference to a chunk in a pack that can be read. -/
structure InPack (sha : Bytes → String) (b : PackBlob) (ref : ChunkRef) : Prop where
  framed : b.Framed
  aligned : Aligned b ref
  offset_nonneg : 0 ≤ ref.offset
  size_pos : 0 < ref.size
  end_le : ref.offset + ref.size ≤ b.raw.length
  hash : sha (window b.raw ref.offset (ref.offset + ref.size)) = ref.hash

/-- A reference that can be read. -/
def Readable (sha : Bytes → String) (pack chunk : String → Option PackBlob) (ref : ChunkRef) : Prop :=
  if ref.packHash = "" then ∃ b, chunk ref.hash = some b ∧ (b.raw.length : Int) = ref.size
  else ∃ b, pack ref.packHash = some b ∧ InPack sha b ref

theorem mapM_eq_ok {ε α : Type} {f : α → Except ε β} {g : α → β} {l : List α}
    (h : ∀ x ∈ l, f x = .ok (g x)) : l.mapM f = .ok (l.map g) := by
  induction l with
  | nil => rfl
  | cons x l ih =>
    rw [List.mapM_cons, h x (List.mem_cons_self ..), ih fun y hy => h y (List.mem_cons_of_mem _ hy)]
    rfl

/-- A loop succeeds when every round does. -/
theorem mapM_ok_iff {ε α : Type} {f : α → Except ε β} {l : List α} {out : List β} :
    l.mapM f = .ok out ↔ List.Forall₂ (fun x y => f x = .ok y) l out := by
  induction l generalizing out with
  | nil =>
    rw [List.mapM_nil, List.forall₂_nil_left_iff]
    exact ⟨fun h => (Except.ok.inj h).symm, fun h => h ▸ rfl⟩
  | cons x l ih =>
    rw [List.mapM_cons, List.forall₂_cons_left_iff]
    constructor
    · intro h
      cases hx : f x with
      | error err =>
        rw [hx] at h
        cases h
      | ok y =>
        cases hl : l.mapM f with
        | error err =>
          rw [hx, hl] at h
          cases h
        | ok ys =>
          rw [hx, hl] at h
          cases h
          exact ⟨y, ys, rfl, ih.mp hl, rfl⟩
    · rintro ⟨y, ys, hx, hl, rfl⟩
      rw [hx, ih.mpr hl]
      rfl

/-- A fold that keeps the better of two values ends with the first value or one of the list, which is
    at least as good as all of them. -/
theorem foldl_best (f : β → Int) (pick : Int → Int → Int) (le : Int → Int → Prop)
    (hrefl : ∀ a, le a a) (htrans : ∀ a b c, le a b → le b c → le a c)
    (hpick : ∀ a b, (pick a b = a ∨ pick a b = b) ∧ le (pick a b) a ∧ le (pick a b) b)
    (l : List β) (m : Int) :
    (l.foldl (fun m x => pick m (f x)) m = m ∨ ∃ x ∈ l, l.foldl (fun m x => pick m (f x)) m = f x)
      ∧ le (l.foldl (fun m x => pick m (f x)) m) m
      ∧ ∀ x ∈ l, le (l.foldl (fun m x => pick m (f x)) m) (f x) := by
  induction l generalizing m with
  | nil => simp [hrefl]
  | cons x l ih =>
    obtain ⟨hval, hle, hall⟩ := ih (pick m (f x))
    obtain ⟨hpicked, hm, hx⟩ := hpick m (f x)
    simp only [List.foldl_cons, List.mem_cons, forall_eq_or_imp, exists_eq_or_imp]
    refine ⟨?_, htrans _ _ _ hle hm, htrans _ _ _ hle hx, hall⟩
    rcases hval with hval | hval
    · rcases hpicked with hpicked | hpicked
      · exact .inl (hval.trans hpicked)
      · exact .inr (.inl (hval.trans hpicked))
    · exact .inr (.inr hval)

/-- The window of a run begins at one of its chunks and after none. -/
theorem runStart_spec (ref : ChunkRef) (run : List ChunkRef) :
    (runStart ref run = ref.offset ∨ ∃ r ∈ run, runStart ref run = r.offset)
      ∧ ∀ r ∈ run, runStart ref run ≤ r.offset := by
  have h := foldl_best ChunkRef.offset (fun m o => if o < m then o else m) (· ≤ ·) Int.le_refl (fun _ _ _ => Int.le_trans) (fun a b => by split <;> omega)
    run ref.offset
  exact ⟨h.1, h.2.2⟩

/-- The window of a run ends with one of its chunks and before none. -/
theorem runEnd_spec (run : List ChunkRef) :
    (runEnd run = 0 ∨ ∃ r ∈ run, runEnd run = r.offset + r.size)
      ∧ ∀ r ∈ run, r.offset + r.size ≤ runEnd run := by
  have h := foldl_best (fun r : ChunkRef => r.offset + r.size)
    (fun m o => if o > m then o else m) (fun a b => b ≤ a) Int.le_refl
    (fun _ _ _ hab hbc => Int.le_trans hbc hab) (fun a b => by split <;> omega) run 0
  exact ⟨h.1, h.2.2⟩

/-- A chunk of the content is read out of a window around it. -/
theorem InPack.sliceRef {b : PackBlob} (h : InPack sha b ref)
    (hlo : 0 ≤ lo) (hstart : lo ≤ ref.offset) (hend : ref.offset + ref.size ≤ hi)
    (hhi : hi ≤ b.raw.length) :
    sliceRef sha (window b.raw lo hi) { ref with offset := ref.offset - lo }
      = .ok (window b.raw ref.offset (ref.offset + ref.size)) := by
  have hlen := length_window hlo (by have := h.size_pos; omega) hhi
  have hpos := h.size_pos
  have hwin : window (window b.raw lo hi) (ref.offset - lo) (ref.offset - lo + ref.size)
      = window b.raw ref.offset (ref.offset + ref.size) := by
    have hstop : ref.offset - lo + ref.size = ref.offset + ref.size - lo := by omega
    rw [hstop]
    exact window_window hlo hstart (by omega) hend
  unfold Snapshot.sliceRef
  dsimp only
  rw [if_neg (by omega), if_neg (by omega), hwin, if_pos h.hash]

theorem InPack.sliceRef_raw {b : PackBlob}
    (h : InPack sha b ref) :
    Snapshot.sliceRef sha b.raw ref = .ok (window b.raw ref.offset (ref.offset + ref.size)) := by
  have hpos := h.size_pos
  have hoff := h.offset_nonneg
  have hend := h.end_le
  unfold Snapshot.sliceRef
  dsimp only
  rw [if_neg (by omega), if_neg (by omega), if_pos h.hash]

/-- **Reading a run.**  Chunks of one pack that can be read are read. -/
theorem loadPackRun_ok {b : PackBlob}
    (href : ref ∈ run) (h : ∀ r ∈ run, InPack sha b r) :
    loadPackRun sha (some b) ref run
      = .ok (run.map fun r => window b.raw r.offset (r.offset + r.size)) := by
  obtain ⟨hstart, hleStart⟩ := runStart_spec ref run
  obtain ⟨hend, hleEnd⟩ := runEnd_spec run
  have hpos := (h ref href).size_pos
  have hoff := (h ref href).offset_nonneg
  have hrefStart := hleStart ref href
  have hrefEnd := hleEnd ref href
  -- the window begins with a chunk of the run, and ends with one
  obtain ⟨rlo, hrlo, hlo⟩ : ∃ r ∈ run, runStart ref run = r.offset := by
    rcases hstart with hstart | hstart
    · exact ⟨ref, href, hstart⟩
    · exact hstart
  obtain ⟨rhi, hrhi, hhi⟩ : ∃ r ∈ run, runEnd run = r.offset + r.size := by
    rcases hend with hend | hend
    · omega
    · exact hend
  have hloNonneg := (h rlo hrlo).offset_nonneg
  have hhiLe := (h rhi hrhi).end_le
  have hwindow : sliceRunFromContent sha (window b.raw (runStart ref run) (runEnd run))
      (shiftRun run (runStart ref run))
      = .ok (run.map fun r => window b.raw r.offset (r.offset + r.size)) := by
    rw [sliceRunFromContent, shiftRun, List.mapM_map]
    exact mapM_eq_ok fun r hr =>
      (h r hr).sliceRef (by omega) (hleStart r hr) (hleEnd r hr) (by omega)
  unfold loadPackRun
  dsimp only
  rw [if_neg (by omega), if_neg (by omega)]
  cases hindex : b.index with
  | none =>
    dsimp only
    split
    · exact hwindow
    · exact mapM_eq_ok fun r hr => (h r hr).sliceRef_raw
  | some entries =>
    obtain ⟨e, he, heoff⟩ := ((h rlo hrlo).aligned entries hindex).1
    obtain ⟨e', he', heend⟩ := ((h rhi hrhi).aligned entries hindex).2
    have hsome := chunkedStoredSpan_isSome ((h ref href).framed entries hindex) he
      (heoff.trans hlo.symm) he' (heend.trans hhi.symm) (by omega)
    obtain ⟨inside, hinside⟩ := Option.isSome_iff_exists.mp hsome
    simp only [hinside]
    exact hwindow

/-- The references of a run are all to one pack. -/
theorem packHash_of_isChain (h : (ref :: run).IsChain fun r s => decide (r.packHash = s.packHash) = true) :
    ∀ r ∈ ref :: run, r.packHash = ref.packHash := by
  induction run generalizing ref with
  | nil => simp
  | cons s run ih =>
    rw [List.isChain_cons_cons] at h
    intro r hr
    rcases List.mem_cons.mp hr with rfl | hr
    · rfl
    · rw [ih h.2 r hr, of_decide_eq_true h.1]

/-- **Reading an object.**  When every reference can be read, the chunks they name are read. -/
theorem readChunks_ok {pack chunk : String → Option PackBlob}
    {refs : List ChunkRef} (h : ∀ ref ∈ refs, Readable sha pack chunk ref) :
    readChunks sha pack chunk refs = .ok (refs.map (chunkAt pack chunk)) := by
  have hruns : (refs.splitBy fun r s => r.packHash = s.packHash).mapM (loadRun sha pack chunk)
      = .ok ((refs.splitBy fun r s => r.packHash = s.packHash).map
        (List.map (chunkAt pack chunk))) := by
    refine mapM_eq_ok fun run hrun => ?_
    have hmem : ∀ r ∈ run, Readable sha pack chunk r := by
      intro r hr
      refine h r ?_
      rw [← List.flatten_splitBy (fun r s : ChunkRef => decide (r.packHash = s.packHash)) refs]
      exact List.mem_flatten.mpr ⟨run, hrun, hr⟩
    cases run with
    | nil => rfl
    | cons ref run =>
      -- all references of the run are to the same pack
      have hsame := packHash_of_isChain (List.isChain_of_mem_splitBy hrun)
      rw [loadRun]
      split
      · rename_i hv1
        refine mapM_eq_ok fun r hr => ?_
        have hr1 : r.packHash = "" := (hsame r hr).trans hv1
        have hread := hmem r hr
        rw [Readable, if_pos hr1] at hread
        obtain ⟨b, hb, hsize⟩ := hread
        simp [loadStandaloneChunk, hb, hsize, chunkAt, hr1]
      · rename_i hv2
        have href := hmem ref (List.mem_cons_self ..)
        rw [Readable, if_neg hv2] at href
        obtain ⟨b, hb, -⟩ := href
        rw [hb, loadPackRun_ok (List.mem_cons_self ..)]
        · congr 1
          refine List.map_congr_left fun r hr => ?_
          rw [chunkAt, hsame r hr, if_neg hv2, hb]
          rfl
        · intro r hr
          have hread := hmem r hr
          rw [Readable, hsame r hr, if_neg hv2, hb] at hread
          obtain ⟨b', hb', hin⟩ := hread
          rw [Option.some_inj.mp hb']
          exact hin
  rw [readChunks, hruns]
  change Except.ok _ = _
  rw [← List.map_flatten, List.flatten_splitBy]

end MemoryLayer.Snapshot
