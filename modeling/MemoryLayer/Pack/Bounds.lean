import MemoryLayer.Pack.Faults
import MemoryLayer.Pack.RoundTrip

namespace MemoryLayer.Pack

open BigEndian Snapshot

/-! # Bounds in the decoders of packs

The decoders again, with every slice that they take and every number that they compute as an `int` of 64 bits.  A
slice that is out of range is a `sliceFault`.  They read bytes that anybody may have written.

- `Checked.slice`, `Checked.elem`, `Checked.make`: what can go out of range.
- `Checked.detectPackFraming` … `Checked.decompressPackBlob`: the decoders.
- `Checked.parsePackChunkIndex_eq`: an index whose length fits into its field has no sum that overflows.
- `decoders_in_range`: **the decoders are those without bounds, and have no fault.**
-/

namespace Checked

/-- A number as an `int`. -/
def int (x : Int) : Int := x.bmod (2 ^ 64)

/-- The slice `b[lo:hi]`. -/
def slice {α : Type} (b : List α) (lo hi : Int) : Except PackErr (List α) :=
  if 0 ≤ lo ∧ lo ≤ hi ∧ hi ≤ b.length then .ok ((b.drop lo.toNat).take (hi - lo).toNat) else .error .sliceFault

/-- The element `b[i]`. -/
def elem {α : Type} (b : List α) (i : Int) : Except PackErr α :=
  if i < 0 then .error .sliceFault else (b[i.toNat]?).elim (.error .sliceFault) .ok

/-- A new buffer. -/
def make (n : Int) : Except PackErr Bytes := if n < 0 then .error .sliceFault else .ok (.replicate n.toNat 0)

/-- The buffer with other bytes from `lo` on. -/
def overwrite (out : Bytes) (lo : Int) (chunk : Bytes) : Bytes :=
  out.take lo.toNat ++ chunk ++ out.drop (lo.toNat + chunk.length)

def detectPackFraming (head : Bytes) : Except PackErr PackFraming :=
  if head.length < packHeaderLen then .ok (.plain (.codec .none) 0)
  else do
    let magic ← slice head 0 packMagic.length
    if magic ≠ packMagic then .ok (.plain (.codec .none) 0)
    else do
      let codec ← elem head packMagic.length
      if codec = packCodecChunked then
        if head.length < packChunkedHeaderLen then .error .other
        else do
          let logical ← elem head packHeaderLen
          match packAlgoFromByte logical with
          | none => .error .other
          | some logical => do
            let indexLen ← slice head (packHeaderLen + 1) packChunkedHeaderLen
            if decode indexLen % packChunkEntryLen ≠ 0 then .error .other
            else .ok ⟨.perChunk, 0, logical, decode indexLen, packChunkedHeaderLen + decode indexLen, []⟩
      else match packAlgoFromByte codec with
        | none => .error .other
        | some algo => .ok (.plain (.codec algo) packHeaderLen)

/-- An entry of the index. -/
structure Entry where
  uncOffset : Int
  uncSize : Int
  stoOffset : Int
  stoSize : Int
  codec : UInt8
  deriving DecidableEq, Repr

/-- The entry at `off`. -/
def entryAt (b : Bytes) (off : Nat) : Except PackErr Entry := do
  let uncOffset ← slice b off (off + 8)
  let uncSize ← slice b (off + 8) (off + 12)
  let stoOffset ← slice b (off + 12) (off + 20)
  let stoSize ← slice b (off + 20) (off + 24)
  let codec ← elem b (off + 24)
  .ok ⟨int (decode uncOffset), int (decode uncSize), int (decode stoOffset), int (decode stoSize), codec⟩

/-- The `n` entries from the entry `i` on. -/
def parseEntries (b : Bytes) : (n i : Nat) → (nextUnc nextSto : Int) → Except PackErr (List Entry)
  | 0, _, _, _ => .ok []
  | n + 1, i, nextUnc, nextSto => do
    let e ← entryAt b (i * packChunkEntryLen)
    if e.uncOffset ≠ nextUnc ∨ e.uncSize < 0 then .error .corrupt
    else if e.stoOffset ≠ nextSto ∨ e.stoSize < 0 then .error .corrupt
    else if packAlgoFromByte e.codec = none then .error .corrupt
    else (parseEntries b n (i + 1) (int (nextUnc + e.uncSize)) (int (nextSto + e.stoSize))).map (e :: ·)

def parsePackChunkIndex (b : Bytes) : Except PackErr (List Entry) :=
  if b.length % packChunkEntryLen ≠ 0 then .error .other
  else parseEntries b (b.length / packChunkEntryLen) 0 0 0

/-- The chunk of an entry, for a part of the buffer with `dst` bytes. -/
def inflateChunkEntry (k : Codec) (e : Entry) (body : Bytes) (dst : Nat) : Except PackErr Bytes :=
  if e.stoOffset < 0 ∨ int (e.stoOffset + e.stoSize) > body.length then .error .corrupt
  else do
    let src ← slice body e.stoOffset (int (e.stoOffset + e.stoSize))
    decodeChunkBody k ⟨0, dst, 0, 0, e.codec⟩ src

/-- The chunks of entries go to their places. -/
def fill (k : Codec) (base storedBase : Int) (body : Bytes) : List Entry → Bytes → Except PackErr Bytes
  | [], out => .ok out
  | e :: entries, out => do
    let dst ← slice out (int (e.uncOffset - base)) (int (int (e.uncOffset - base) + e.uncSize))
    let chunk ← inflateChunkEntry k { e with stoOffset := int (e.stoOffset - storedBase) } body dst.length
    fill k base storedBase body entries (overwrite out (int (e.uncOffset - base)) chunk)

def decompressChunkedPackBlob (k : Codec) (stored : Bytes) : Except PackErr Bytes := do
  let framing ← detectPackFraming stored
  if stored.length < framing.bodyBase then .error .corrupt
  else do
    let index ← slice stored packChunkedHeaderLen framing.bodyBase
    let entries ← parsePackChunkIndex index
    if entries = [] then .ok []
    else do
      let body ← slice stored framing.bodyBase stored.length
      let last ← elem entries (entries.length - 1)
      let out ← make (int (last.uncOffset + last.uncSize))
      fill k 0 0 body entries out

def decompressPackBlob (k : Codec) (stored : Bytes) : Except PackErr Bytes :=
  if stored.length < packHeaderLen then .ok stored
  else do
    let magic ← slice stored 0 packMagic.length
    if magic ≠ packMagic then .ok stored
    else do
      let codec ← elem stored packMagic.length
      if codec = packCodecChunked then decompressChunkedPackBlob k stored
      else match packAlgoFromByte codec with
        | none => .error .other
        | some algo => do
          let body ← slice stored packHeaderLen stored.length
          match algo with
          | .none => .ok body
          | algo => match k.decompress algo body with
            | some (out, true) => .ok out
            | _ => .error .other

/-- The stored range of a window of the content, and the numbers of its entries. -/
def chunkedStoredSpan (entries : List Entry) (minOff maxEnd : Int) : Except PackErr (Int × Int × Nat × Nat) :=
  let first := entries.findIdx fun e => e.uncOffset = minOff
  let last := first + ((entries.drop first).takeWhile fun e => e.uncOffset < maxEnd).length
  if first = entries.length then .error .corrupt
  else if last = first then .ok (0, 0, first, first)
  else do
    let stop ← elem entries (last - 1)
    if int (stop.uncOffset + stop.uncSize) ≠ maxEnd then .error .corrupt
    else do
      let start ← elem entries first
      .ok (start.stoOffset, int (int (stop.stoOffset + stop.stoSize) - start.stoOffset), first, last)

def materializeChunkedWindow (k : Codec) (entries : List Entry) (first last : Nat) (storedWindow : Bytes)
    (storedBase : Int) : Except PackErr Bytes :=
  if last ≤ first then .ok []
  else do
    let start ← elem entries first
    let stop ← elem entries (last - 1)
    let out ← make (int (int (stop.uncOffset + stop.uncSize) - start.uncOffset))
    let inside ← slice entries first last
    fill k start.uncOffset storedBase storedWindow inside out

/-! ### Slices and numbers -/

theorem int_of_lt {x : Int} (hnonneg : 0 ≤ x) (hlt : x < 2 ^ 63) : int x = x := by
  rw [int, Int.bmod_def]
  omega

theorem int_natCast {n : Nat} (h : n < 2 ^ 63) : int n = n := int_of_lt (by omega) (by omega)

/-- An offset of 64 bits, as an `int`, is a small number only if it is that number. -/
theorem int_eq_iff {n m : Nat} (hn : n < 2 ^ 64) (hm : m < 2 ^ 63) : int n = m ↔ n = m := by
  rw [int, Int.bmod_def]
  omega

theorem slice_eq {α : Type} {b : List α} {lo hi : Nat} (hle : lo ≤ hi) (hlen : hi ≤ b.length) :
    slice b lo hi = .ok ((b.drop lo).take (hi - lo)) := by
  unfold slice
  rw [if_pos (by omega), Int.toNat_natCast, ← Int.natCast_sub hle, Int.toNat_natCast]

theorem elem_eq {α : Type} {b : List α} {i : Nat} {x : α} (h : b[i]? = some x) : elem b i = .ok x := by
  unfold elem
  rw [if_neg (by omega), Int.toNat_natCast, h]
  rfl

variable {b stored : Bytes}

theorem elem_getD {i : Nat} (h : i < b.length) : elem b i = .ok (b.getD i 0) :=
  elem_eq (by rw [List.getD_eq_getElem?_getD, List.getElem?_eq_getElem h]; rfl)

theorem ok_bind {α β : Type} (a : α) (f : α → Except PackErr β) : (Except.ok a >>= f) = f a := rfl

theorem slice_magic (h : ¬ b.length < packHeaderLen) :
    slice b 0 packMagic.length = .ok (b.take packMagic.length) :=
  slice_eq (Nat.zero_le _) (Nat.le_trans (by decide) (Nat.le_of_not_lt h))

theorem elem_codec (h : ¬ b.length < packHeaderLen) :
    elem b packMagic.length = .ok (b.getD packMagic.length 0) :=
  elem_getD (Nat.lt_of_lt_of_le (by decide) (Nat.le_of_not_lt h))

theorem detectPackFraming_eq (head : Bytes) : detectPackFraming head = Pack.detectPackFraming head := by
  unfold detectPackFraming Pack.detectPackFraming
  by_cases hlen : head.length < packHeaderLen
  · simp only [hlen, true_or, if_true]
  · simp only [hlen, false_or, slice_magic hlen, elem_codec hlen, ok_bind, if_false]
    by_cases hne : head.take packMagic.length ≠ packMagic
    · rw [if_pos hne, if_pos hne]
    · rw [if_neg hne, if_neg hne]
      by_cases hcodec : head.getD packMagic.length 0 = packCodecChunked
      · rw [if_pos hcodec, if_pos hcodec]
        -- the header of an index is read only when it is there
        by_cases hchunked : head.length < packChunkedHeaderLen
        · rw [if_pos hchunked, if_pos hchunked]
        · have hlogical : elem head packHeaderLen = .ok (head.getD packHeaderLen 0) :=
            elem_getD (Nat.lt_of_lt_of_le (by decide) (Nat.le_of_not_lt hchunked))
          have hindex : slice head (packHeaderLen + 1) packChunkedHeaderLen
              = .ok ((head.drop (packHeaderLen + 1)).take 4) :=
            slice_eq (by decide) (Nat.le_of_not_lt hchunked)
          rw [if_neg hchunked, if_neg hchunked, hlogical, hindex]
          rfl
      · refine (if_neg hcodec).trans (Eq.symm ((if_neg hcodec).trans ?_))
        rfl

/-! ### Parsing -/

/-- An entry whose numbers are not that large. -/
def Entry.of (e : PackChunkEntry) : Entry := ⟨e.uncOffset, e.uncSize, e.stoOffset, e.stoSize, e.codec⟩

theorem entryAt_eq {off : Nat} (h : off + packChunkEntryLen ≤ b.length) :
    entryAt b off = .ok ⟨int (unmarshalEntry (b.drop off)).uncOffset, int (unmarshalEntry (b.drop off)).uncSize,
      int (unmarshalEntry (b.drop off)).stoOffset, int (unmarshalEntry (b.drop off)).stoSize,
      (unmarshalEntry (b.drop off)).codec⟩ := by
  unfold packChunkEntryLen at h
  have hslice : ∀ i n : Nat, i + n ≤ 25 →
      slice b ((off : Int) + i) ((off : Int) + (i + n : Nat)) = .ok (((b.drop off).drop i).take n) := by
    intro i n hin
    rw [← Int.natCast_add, ← Int.natCast_add, slice_eq (by omega) (by omega), List.drop_drop]
    congr 2
    omega
  have hcodec : elem b ((off : Int) + 24) = .ok ((b.drop off).getD 24 0) := by
    rw [List.getD_eq_getElem?_getD, List.getElem?_drop, ← List.getD_eq_getElem?_getD]
    exact elem_getD (i := off + 24) (by omega)
  have h1 : slice b off (off + 8) = _ := (Int.add_zero (off : Int) ▸ hslice 0 8 (by decide) :)
  have h2 : slice b (off + 8) (off + 12) = _ := hslice 8 4 (by decide)
  have h3 : slice b (off + 12) (off + 20) = _ := hslice 12 8 (by decide)
  have h4 : slice b (off + 20) (off + 24) = _ := hslice 20 4 (by decide)
  unfold entryAt
  rw [h1, h2, h3, h4, hcodec]
  rfl

/-- Sizes have 32 bits, and offsets 64. -/
theorem unmarshalEntry_lt (b : Bytes) : (unmarshalEntry b).uncSize < 2 ^ 32 ∧ (unmarshalEntry b).stoSize < 2 ^ 32
    ∧ (unmarshalEntry b).uncOffset < 2 ^ 64 ∧ (unmarshalEntry b).stoOffset < 2 ^ 64 := by
  have hle : ∀ (n : Nat) (bs : Bytes), decode (bs.take n) < 256 ^ n := fun n bs =>
    Nat.lt_of_lt_of_le (decode_lt _) (Nat.pow_le_pow_right (by decide) (List.length_take_le n bs))
  exact ⟨hle 4 _, hle 4 _, hle 8 _, hle 8 _⟩

/-- **The index.**  No sum overflows as long as there are not too many entries. -/
theorem parseEntries_eq {n : Nat} (i unc sto : Nat) (hlen : (i + n) * packChunkEntryLen ≤ b.length)
    (hunc : unc + n * 2 ^ 32 < 2 ^ 63) (hsto : sto + n * 2 ^ 32 < 2 ^ 63) :
    parseEntries b n i unc sto
      = (Pack.parseEntries n unc sto (b.drop (i * packChunkEntryLen))).map (List.map Entry.of) := by
  induction n generalizing i unc sto with
  | zero => rfl
  | succ n ih =>
    rw [parseEntries, entryAt_eq (by unfold packChunkEntryLen at hlen ⊢; omega), ok_bind, Pack.parseEntries]
    obtain ⟨huncSize, hstoSize, huncOff, hstoOff⟩ := unmarshalEntry_lt (b.drop (i * packChunkEntryLen))
    have hnext := ih (i + 1) (unc + (unmarshalEntry (b.drop (i * packChunkEntryLen))).uncSize)
      (sto + (unmarshalEntry (b.drop (i * packChunkEntryLen))).stoSize)
      (by unfold packChunkEntryLen at hlen ⊢; omega) (by omega) (by omega)
    rw [Nat.succ_mul, ← List.drop_drop] at hnext
    generalize unmarshalEntry (b.drop (i * packChunkEntryLen)) = e at *
    obtain ⟨hunc', hsto', hu, hs⟩ : unc + e.uncSize < 2 ^ 63 ∧ sto + e.stoSize < 2 ^ 63
        ∧ e.uncSize < 2 ^ 63 ∧ e.stoSize < 2 ^ 63 := by omega
    -- all numbers but the offsets are small, and an offset is compared with a small number
    simp only [int_natCast hu, int_natCast hs, ← Int.natCast_add, int_natCast hunc', int_natCast hsto', ne_eq,
      int_eq_iff huncOff (Nat.lt_of_le_of_lt (Nat.le_add_right _ _) hunc'),
      int_eq_iff hstoOff (Nat.lt_of_le_of_lt (Nat.le_add_right _ _) hsto'), Int.not_ofNat_neg, or_false, hnext]
    by_cases hu : e.uncOffset = unc
    · by_cases hs : e.stoOffset = sto
      · cases packAlgoFromByte e.codec with
        | none => simp [hu, hs, Except.map]
        | some algo =>
          subst hu hs
          have huncOff' := int_natCast (Nat.lt_of_le_of_lt (Nat.le_add_right _ _) hunc')
          have hstoOff' := int_natCast (Nat.lt_of_le_of_lt (Nat.le_add_right _ _) hsto')
          cases Pack.parseEntries n (e.uncOffset + e.uncSize) (e.stoOffset + e.stoSize)
            ((b.drop (i * packChunkEntryLen)).drop packChunkEntryLen) with
          | error err => simp [Except.map]
          | ok entries => simp [Except.map, Entry.of, huncOff', hstoOff']
      · simp [hu, hs, Except.map]
    · simp [hu, Except.map]

variable {entries : List PackChunkEntry}

theorem totals_of_parseEntries {n unc sto : Nat}
    (h : Pack.parseEntries n unc sto b = .ok entries) :
    uncTotal entries ≤ n * 2 ^ 32 ∧ stoTotal entries ≤ n * 2 ^ 32 := by
  induction n generalizing unc sto b entries with
  | zero =>
    cases h
    exact ⟨Nat.zero_le _, Nat.zero_le _⟩
  | succ n ih =>
    simp only [Pack.parseEntries] at h
    split at h
    · cases h
    · cases hrest : Pack.parseEntries n (unc + (unmarshalEntry b).uncSize) (sto + (unmarshalEntry b).stoSize)
          (b.drop packChunkEntryLen) with
      | error err =>
        rw [hrest] at h
        cases h
      | ok rest =>
        rw [hrest] at h
        cases h
        have hsizes := unmarshalEntry_lt b
        have hrest := ih hrest
        rw [uncTotal_cons, stoTotal_cons]
        omega

/-- The entries of an index, and that their sums are small. -/
structure Parsed (entries : List PackChunkEntry) : Prop where
  follows : Follows 0 0 entries
  unc : uncTotal entries < 2 ^ 63
  sto : stoTotal entries < 2 ^ 63

/-- **An index that the length field can describe.** -/
theorem parsePackChunkIndex_eq (h : b.length < 2 ^ 32) :
    parsePackChunkIndex b = (Pack.parsePackChunkIndex b).map (List.map Entry.of)
      ∧ ∀ entries, Pack.parsePackChunkIndex b = .ok entries → Parsed entries := by
  have hcount : b.length / packChunkEntryLen * 2 ^ 32 < 2 ^ 63 := by
    unfold packChunkEntryLen
    omega
  unfold parsePackChunkIndex Pack.parsePackChunkIndex
  by_cases hmod : b.length % packChunkEntryLen ≠ 0
  · rw [if_pos hmod, if_pos hmod]
    exact ⟨rfl, nofun⟩
  · rw [if_neg hmod, if_neg hmod]
    refine ⟨?_, fun entries hparse => ?_⟩
    · have hparse := parseEntries_eq (b := b) (n := b.length / packChunkEntryLen) 0 0 0
        (by rw [Nat.zero_add]; exact Nat.div_mul_le_self _ _) (by omega) (by omega)
      rwa [Nat.zero_mul, List.drop_zero] at hparse
    · have htotals := totals_of_parseEntries hparse
      exact ⟨follows_of_parseEntries hparse, by omega, by omega⟩

/-! ### Filling the buffer -/

theorem inflateChunkEntry_eq (k : Codec) {e : PackChunkEntry} {base : Nat} (body : Bytes) (hbase : base ≤ e.stoOffset)
    (hsmall : e.stoOffset + e.stoSize < 2 ^ 63) :
    inflateChunkEntry k { Entry.of e with stoOffset := int ((Entry.of e).stoOffset - base) } body e.uncSize
      = Pack.inflateChunkEntry k base body e := by
  have hstart : int ((e.stoOffset - base : Nat) : Int) = (e.stoOffset - base : Nat) := int_natCast (by omega)
  have hstop : int (((e.stoOffset - base : Nat) : Int) + e.stoSize) = (e.stoOffset - base + e.stoSize : Nat) :=
    int_natCast (n := e.stoOffset - base + e.stoSize) (by omega)
  have hnat : (e.stoOffset : Int) - base = (e.stoOffset - base : Nat) := by omega
  unfold inflateChunkEntry Pack.inflateChunkEntry
  simp only [Entry.of, hnat, hstart, hstop]
  by_cases hend : e.stoOffset - base + e.stoSize ≤ body.length
  · rw [if_neg (by omega), if_neg (by omega), slice_eq (by omega) hend, ok_bind, ← Int.natCast_add, window_eq]
    rfl
  · rw [if_pos (by omega), if_pos (by omega)]

/-- **Filling.**  Entries that follow each other fill the buffer from the left to the right. -/
theorem fill_eq (k : Codec) {sto : Nat} (base storedBase : Nat) (body done : Bytes)
    (h : Follows (base + done.length) sto entries) (hbase : storedBase ≤ sto)
    (hunc : base + done.length + uncTotal entries < 2 ^ 63) (hsto : sto + stoTotal entries < 2 ^ 63) :
    fill k base storedBase body (entries.map Entry.of) (done ++ .replicate (uncTotal entries) 0)
      = (Pack.materializeChunkedWindow k entries body storedBase).map (done ++ ·) := by
  induction entries generalizing sto done with
  | nil => simp [fill, Pack.materializeChunkedWindow, Except.map, pure, Except.pure]
  | cons e entries ih =>
    obtain ⟨huncOff, hstoOff, -, hrest⟩ := h
    rw [uncTotal_cons] at hunc ⊢
    rw [stoTotal_cons] at hsto
    obtain ⟨hplace, hstart, hstop⟩ : done.length + e.uncSize < 2 ^ 63 ∧ storedBase ≤ e.stoOffset
        ∧ e.stoOffset + e.stoSize < 2 ^ 63 := by omega
    obtain ⟨hbase', hunc', hsto'⟩ : storedBase ≤ sto + e.stoSize
        ∧ base + (done.length + e.uncSize) + uncTotal entries < 2 ^ 63
        ∧ sto + e.stoSize + stoTotal entries < 2 ^ 63 := by omega
    have hlo : int ((Entry.of e).uncOffset - base) = done.length := by
      show int ((e.uncOffset : Int) - base) = done.length
      rw [int_of_lt (by omega) (by omega)]
      omega
    have hhi : int ((done.length : Int) + (Entry.of e).uncSize) = (done.length + e.uncSize : Nat) :=
      int_natCast hplace
    have hdst : slice (done ++ .replicate (e.uncSize + uncTotal entries) 0) done.length (done.length + e.uncSize : Nat)
        = .ok (.replicate e.uncSize 0) := by
      rw [slice_eq (Nat.le_add_right _ _) (by simp), List.drop_left, Nat.add_sub_cancel_left, List.take_replicate]
      simp
    rw [List.map_cons, fill, hlo, hhi, hdst, ok_bind, List.length_replicate,
      inflateChunkEntry_eq k body hstart hstop, Pack.materializeChunkedWindow, List.mapM_cons]
    cases hchunk : Pack.inflateChunkEntry k storedBase body e with
    | error err => rfl
    | ok chunk =>
      have hlen : chunk.length = e.uncSize := length_inflateChunkEntry hchunk
      -- the chunk takes the place of the zeros that it has the length of
      have hwrite : overwrite (done ++ .replicate (e.uncSize + uncTotal entries) 0) done.length chunk
          = (done ++ chunk) ++ .replicate (uncTotal entries) 0 := by
        rw [overwrite, Int.toNat_natCast, List.take_left, List.drop_append, hlen, Nat.add_sub_cancel_left,
          List.drop_eq_nil_of_le (Nat.le_add_right _ _), List.drop_replicate, Nat.add_sub_cancel_left, List.nil_append]
      have hnext := ih (done ++ chunk)
        (by rwa [List.length_append, hlen, ← Nat.add_assoc]) hbase' (by rwa [List.length_append, hlen]) hsto'
      rw [ok_bind, ok_bind, hwrite, hnext, Pack.materializeChunkedWindow]
      cases entries.mapM (Pack.inflateChunkEntry k storedBase body) with
      | error err => rfl
      | ok chunks => simp [Except.map, pure, Except.pure, bind, Except.bind]

theorem map_nil_append (out : Except PackErr Bytes) : out.map ([] ++ ·) = out := by
  cases out <;> rfl

/-- A buffer for all entries is as long as their content. -/
theorem make_eq {n : Nat} (h : n < 2 ^ 63) : make (int n) = .ok (.replicate n 0) := by
  rw [int_natCast h, make, if_neg (by omega), Int.toNat_natCast]

section Inside

variable {before inside after : List PackChunkEntry}

theorem elem_first {first : PackChunkEntry} {tail : List PackChunkEntry} (h : inside = first :: tail) :
    elem ((before ++ (inside ++ after)).map Entry.of) before.length = .ok (.of first) :=
  elem_eq (by simp [h])

theorem elem_last {last : PackChunkEntry} (h : inside.getLast? = some last) :
    elem ((before ++ (inside ++ after)).map Entry.of) ((before.length + inside.length : Nat) - 1)
      = .ok (.of last) := by
  have hpos : 0 < inside.length := List.length_pos_of_mem (List.mem_of_getLast? h)
  rw [List.getLast?_eq_getElem?] at h
  rw [show (((before.length + inside.length : Nat) : Int) - 1) = (before.length + (inside.length - 1) : Nat) by omega]
  refine elem_eq ?_
  rw [List.getElem?_map, List.getElem?_append_right (by omega), Nat.add_sub_cancel_left,
    List.getElem?_append_left (by omega), h]
  rfl

/-- The entries inside others follow each other as well, and their sums are small. -/
theorem Parsed.middle (h : Parsed (before ++ (inside ++ after))) :
    Follows (uncTotal before) (stoTotal before) inside ∧ uncTotal before + uncTotal inside < 2 ^ 63
      ∧ stoTotal before + stoTotal inside < 2 ^ 63 := by
  obtain ⟨hfollows, hunc, hsto⟩ := h
  obtain ⟨-, hmid⟩ := follows_append.mp hfollows
  simp only [uncTotal_append, stoTotal_append, Nat.zero_add] at hunc hsto hmid
  exact ⟨(follows_append.mp hmid).1, by omega, by omega⟩

/-- The content of the entries `inside` others. -/
theorem materializeChunkedWindow_eq (k : Codec) (h : Parsed (before ++ (inside ++ after))) (hne : inside ≠ []) (body : Bytes) :
    materializeChunkedWindow k ((before ++ (inside ++ after)).map Entry.of) before.length
        (before.length + inside.length) body (stoTotal before)
      = Pack.materializeChunkedWindow k inside body (stoTotal before) := by
  obtain ⟨hinside, hunc, hsto⟩ := h.middle
  obtain ⟨first, tail, hfirst⟩ := List.exists_cons_of_ne_nil hne
  obtain ⟨last, hlast⟩ := Option.isSome_iff_exists.mp (List.getLast?_isSome.mpr hne)
  have hend := (hinside.end_of_getLast hlast).1
  have hpos : 0 < inside.length := List.length_pos_iff.mpr hne
  have hslice : slice ((before ++ (inside ++ after)).map Entry.of) before.length
      (before.length + inside.length : Nat) = .ok (inside.map Entry.of) := by
    rw [slice_eq (by omega) (by simp), Nat.add_sub_cancel_left, ← List.map_drop, List.drop_left, ← List.map_take,
      List.take_left]
  have hbase : first.uncOffset = uncTotal before := by
    rw [hfirst] at hinside
    exact hinside.1
  have htotal : make (int (int ((Entry.of last).uncOffset + (Entry.of last).uncSize) - (Entry.of first).uncOffset))
      = .ok (.replicate (uncTotal inside) 0) := by
    show make (int (int ((last.uncOffset : Int) + last.uncSize) - first.uncOffset)) = _
    rw [← Int.natCast_add, int_natCast (by omega), show ((last.uncOffset + last.uncSize : Nat) : Int) - first.uncOffset
      = (uncTotal inside : Nat) by omega, make_eq (by omega)]
  have hfill := fill_eq k (uncTotal before) (stoTotal before) body [] hinside (Nat.le_refl _) hunc hsto
  rw [materializeChunkedWindow, if_neg (by omega), elem_first hfirst, ok_bind, elem_last hlast, ok_bind, htotal, ok_bind, hslice, ok_bind]
  show fill k first.uncOffset _ _ _ _ = _
  rw [hbase]
  exact hfill.trans (map_nil_append _)

end Inside

/-- **Windows.**  The window begins and ends between entries, or is refused. -/
theorem chunkedStoredSpan_eq (h : Parsed entries) (minOff maxEnd : Int) :
    chunkedStoredSpan (entries.map Entry.of) minOff maxEnd = .error .corrupt
      ∨ ∃ before inside after, entries = before ++ (inside ++ after)
        ∧ chunkedStoredSpan (entries.map Entry.of) minOff maxEnd
          = .ok (if inside = [] then 0 else (stoTotal before : Int), (stoTotal inside : Int), before.length,
            before.length + inside.length) := by
  unfold chunkedStoredSpan
  dsimp only
  have hle : (entries.map Entry.of).findIdx (fun e => decide (e.uncOffset = minOff)) ≤ (entries.map Entry.of).length :=
    List.findIdx_le_length
  generalize (entries.map Entry.of).findIdx _ = first at hle
  rw [List.length_map] at hle ⊢
  by_cases hnone : first = entries.length
  · rw [if_pos hnone]
    exact .inl rfl
  · rw [if_neg hnone, ← List.map_drop, List.takeWhile_map, List.length_map]
    -- the entries before the window, those in it, and those after it
    have hsplit := List.takeWhile_append_dropWhile
      (p := (fun e : Entry => decide (e.uncOffset < maxEnd)) ∘ Entry.of) (l := entries.drop first)
    generalize (entries.drop first).takeWhile _ = inside at hsplit ⊢
    generalize (entries.drop first).dropWhile _ = after at hsplit
    have hbefore : (entries.take first).length = first := List.length_take_of_le hle
    have hentries : entries = entries.take first ++ (inside ++ after) := by rw [hsplit, List.take_append_drop]
    generalize entries.take first = before at hbefore hentries
    subst hbefore hentries
    by_cases hnil : inside = []
    · subst hnil
      exact .inr ⟨before, [], after, rfl, if_pos rfl⟩
    · obtain ⟨hinside, hunc, hsto⟩ := h.middle
      obtain ⟨first, tail, hfirst⟩ := List.exists_cons_of_ne_nil hnil
      obtain ⟨last, hlast⟩ := Option.isSome_iff_exists.mp (List.getLast?_isSome.mpr hnil)
      have hpos : 0 < inside.length := List.length_pos_iff.mpr hnil
      rw [if_neg (by omega), elem_last hlast, ok_bind, elem_first hfirst, ok_bind]
      by_cases hend : int ((Entry.of last).uncOffset + (Entry.of last).uncSize) ≠ maxEnd
      · rw [if_pos hend]
        exact .inl rfl
      · rw [if_neg hend]
        have hfirstSto : first.stoOffset = stoTotal before := by
          rw [hfirst] at hinside
          exact hinside.2.1
        have hlastSto := (hinside.end_of_getLast hlast).2
        have hlen : int (int ((Entry.of last).stoOffset + (Entry.of last).stoSize) - (Entry.of first).stoOffset)
            = stoTotal inside := by
          show int (int ((last.stoOffset : Int) + last.stoSize) - first.stoOffset) = stoTotal inside
          rw [← Int.natCast_add, int_natCast (by omega), hlastSto, hfirstSto, int_of_lt (by omega) (by omega)]
          omega
        refine .inr ⟨before, inside, after, rfl, ?_⟩
        rw [hlen, if_neg hnil, ← hfirstSto]
        rfl

/-! ### Whole packs -/

/-- The bytes say that there is an index. -/
def IsChunked (stored : Bytes) : Prop :=
  ¬ stored.length < packHeaderLen ∧ stored.take packMagic.length = packMagic
    ∧ stored.getD packMagic.length 0 = packCodecChunked

/-- Where the index ends, which the length field says. -/
theorem IsChunked.framing {framing : PackFraming} (h : IsChunked stored)
    (hdetect : Pack.detectPackFraming stored = .ok framing) :
    framing.bodyBase = packChunkedHeaderLen + framing.indexLen ∧ framing.indexLen < 2 ^ 32 := by
  obtain ⟨hlen, hmagic, hcodec⟩ := h
  have hsmall : decode ((stored.drop (packHeaderLen + 1)).take 4) < 256 ^ 4 :=
    Nat.lt_of_lt_of_le (decode_lt _) (Nat.pow_le_pow_right (by decide) (List.length_take_le 4 _))
  unfold Pack.detectPackFraming at hdetect
  rw [if_neg (not_or.mpr ⟨hlen, not_not.mpr hmagic⟩), if_pos hcodec] at hdetect
  dsimp only at hdetect
  split at hdetect
  · cases hdetect
  · split at hdetect
    · cases hdetect
    · split at hdetect
      · cases hdetect
      · cases hdetect
        exact ⟨rfl, hsmall⟩

/-- The index of a pack, its content, and where the content comes from. -/
theorem decompressChunkedPackBlob_eq (k : Codec) (h : IsChunked stored) :
    decompressChunkedPackBlob k stored = Pack.decompressChunkedPackBlob k stored := by
  unfold decompressChunkedPackBlob Pack.decompressChunkedPackBlob
  rw [detectPackFraming_eq]
  cases hframing : Pack.detectPackFraming stored with
  | error err => rfl
  | ok framing =>
    obtain ⟨hbody, hindex⟩ := h.framing hframing
    rw [ok_bind]
    dsimp only
    by_cases hshort : stored.length < framing.bodyBase
    · rw [if_pos hshort, if_pos hshort]
    · have hslice : slice stored packChunkedHeaderLen framing.bodyBase
          = .ok (window stored packChunkedHeaderLen framing.bodyBase) := by
        rw [slice_eq (by omega) (by omega), window_eq]
      have hfits : (window stored packChunkedHeaderLen framing.bodyBase).length < 2 ^ 32 := by
        rw [window_eq, List.length_take]
        omega
      obtain ⟨hparse, hparsed⟩ := parsePackChunkIndex_eq hfits
      rw [if_neg hshort, if_neg hshort, hslice, ok_bind, hparse]
      cases hentries : Pack.parsePackChunkIndex (window stored packChunkedHeaderLen framing.bodyBase) with
      | error err => rfl
      | ok entries =>
        show (if entries.map Entry.of = [] then _ else _) = _
        have hbodies : slice stored framing.bodyBase stored.length = .ok (stored.drop framing.bodyBase) := by
          rw [slice_eq (by omega) (Nat.le_refl _), List.take_of_length_le (by rw [List.length_drop])]
        by_cases hnil : entries = []
        · subst hnil
          rfl
        · obtain ⟨hfollows, hunc, hsto⟩ := hparsed entries hentries
          obtain ⟨last, hlast⟩ := Option.isSome_iff_exists.mp (List.getLast?_isSome.mpr hnil)
          have hlastEnd := (hfollows.end_of_getLast hlast).1
          have helem : elem (([] ++ (entries ++ [])).map Entry.of) ((0 + entries.length : Nat) - 1) = .ok (.of last) :=
            elem_last hlast
          have hmake : make (int ((Entry.of last).uncOffset + (Entry.of last).uncSize))
              = .ok (.replicate (uncTotal entries) 0) := by
            show make (int ((last.uncOffset : Int) + last.uncSize)) = _
            rw [← Int.natCast_add, hlastEnd, Nat.zero_add, make_eq hunc]
          rw [List.nil_append, List.append_nil, Nat.zero_add] at helem
          rw [if_neg (by simpa using hnil), hbodies, ok_bind, List.length_map, helem, ok_bind, hmake, ok_bind]
          have hfill := fill_eq k 0 0 (stored.drop framing.bodyBase) [] hfollows (Nat.le_refl _)
            (by simpa using hunc) (by simpa using hsto)
          exact hfill.trans (map_nil_append _)

theorem decompressPackBlob_eq (k : Codec) (stored : Bytes) :
    decompressPackBlob k stored = Pack.decompressPackBlob k stored := by
  unfold decompressPackBlob Pack.decompressPackBlob
  by_cases hlen : stored.length < packHeaderLen
  · simp only [hlen, true_or, if_true]
  · simp only [hlen, false_or, slice_magic hlen, elem_codec hlen, ok_bind, if_false]
    by_cases hne : stored.take packMagic.length ≠ packMagic
    · rw [if_pos hne, if_pos hne]
    · rw [if_neg hne, if_neg hne]
      by_cases hcodec : stored.getD packMagic.length 0 = packCodecChunked
      · rw [if_pos hcodec, if_pos hcodec]
        exact decompressChunkedPackBlob_eq k ⟨hlen, not_not.mp hne, hcodec⟩
      · have hbody : slice stored packHeaderLen stored.length = .ok (stored.drop packHeaderLen) := by
          rw [slice_eq (Nat.le_of_not_lt hlen) (Nat.le_refl _), List.take_of_length_le (by rw [List.length_drop])]
        rw [if_neg hcodec, if_neg hcodec]
        cases packAlgoFromByte (stored.getD packMagic.length 0) with
        | none => rfl
        | some algo =>
          rw [hbody]
          cases algo <;> rfl

theorem sums_of (entries : List PackChunkEntry) :
    ((entries.map Entry.of).map Entry.uncSize).sum = uncTotal entries
      ∧ ((entries.map Entry.of).map Entry.stoSize).sum = stoTotal entries := by
  induction entries with
  | nil => exact ⟨rfl, rfl⟩
  | cons e entries ih =>
    rw [List.map_cons, List.map_cons, List.map_cons, List.sum_cons, List.sum_cons, ih.1, ih.2, uncTotal_cons,
      stoTotal_cons, Int.natCast_add, Int.natCast_add]
    exact ⟨rfl, rfl⟩

/-- Windows of the content are read within bounds.  The numbers of a window are the sums of the sizes, and its
    content has the length that its entries say. -/
structure InRange (k : Codec) (entries : List Entry) : Prop where
  span (minOff maxEnd : Int) : NoFault (chunkedStoredSpan entries minOff maxEnd)
  window (minOff maxEnd off len : Int) (first last : Nat) (storedWindow : Bytes) :
    chunkedStoredSpan entries minOff maxEnd = .ok (off, len, first, last) →
      (first < last → off = ((entries.take first).map Entry.stoSize).sum)
      ∧ len = (((entries.drop first).take (last - first)).map Entry.stoSize).sum
      ∧ NoFault (materializeChunkedWindow k entries first last storedWindow off)
      ∧ ∀ out, materializeChunkedWindow k entries first last storedWindow off = .ok out →
        (out.length : Int) = (((entries.drop first).take (last - first)).map Entry.uncSize).sum

theorem Parsed.inRange (k : Codec) (h : Parsed entries) :
    InRange k (entries.map Entry.of) where
  span minOff maxEnd := by
    rcases chunkedStoredSpan_eq h minOff maxEnd with hrefused | ⟨before, inside, after, -, hspan⟩
    · rw [hrefused]
      exact nofun
    · rw [hspan]
      exact noFault_ok _
  window minOff maxEnd off len first last storedWindow hok := by
    rcases chunkedStoredSpan_eq h minOff maxEnd with hrefused | ⟨before, inside, after, hsplit, hspan⟩
    · rw [hrefused] at hok
      cases hok
    · rw [hspan] at hok
      cases hok
      subst hsplit
      have htake : ((before ++ (inside ++ after)).map Entry.of).take before.length = before.map Entry.of := by
        rw [← List.map_take, List.take_left]
      have hdrop : (((before ++ (inside ++ after)).map Entry.of).drop before.length).take
          (before.length + inside.length - before.length) = inside.map Entry.of := by
        rw [← List.map_drop, List.drop_left, Nat.add_sub_cancel_left, ← List.map_take, List.take_left]
      rw [htake, hdrop, (sums_of before).2, (sums_of inside).1, (sums_of inside).2]
      by_cases hnil : inside = []
      · -- nothing is decoded for an empty window
        subst hnil
        rw [List.length_nil, Nat.add_zero, materializeChunkedWindow, if_pos (Nat.le_refl before.length)]
        refine ⟨fun hlt => absurd hlt (Nat.lt_irrefl _), rfl, noFault_ok _, fun out hout => ?_⟩
        cases hout
        rfl
      · rw [if_neg hnil, materializeChunkedWindow_eq k h hnil]
        exact ⟨fun _ => rfl, rfl, noFault_materialize k _ _ _, fun out hout => by rw [length_materialize hout]⟩

end Checked

/-- **Bounds.**  Whatever the bytes are, the decoders take no slice out of range, and their 64-bit numbers are those
    without bounds.  This holds for the framing, for whole packs, and for every window of every index that the length
    field can describe. -/
theorem decoders_in_range (k : Codec) (stored : Bytes) :
    Checked.detectPackFraming stored = detectPackFraming stored
      ∧ NoFault (Checked.detectPackFraming stored)
      ∧ Checked.decompressPackBlob k stored = decompressPackBlob k stored
      ∧ NoFault (Checked.decompressPackBlob k stored)
      ∧ (∀ framing entries out, Checked.IsChunked stored → Checked.detectPackFraming stored = .ok framing →
        Checked.parsePackChunkIndex ((stored.drop packChunkedHeaderLen).take framing.indexLen) = .ok entries →
        Checked.decompressChunkedPackBlob k stored = .ok out →
          (out.length : Int) = (entries.map Checked.Entry.uncSize).sum)
      ∧ ∀ index : Bytes, index.length < 2 ^ 32 →
        Checked.parsePackChunkIndex index = (parsePackChunkIndex index).map (List.map Checked.Entry.of)
        ∧ NoFault (Checked.parsePackChunkIndex index)
        ∧ ∀ entries, Checked.parsePackChunkIndex index = .ok entries → Checked.InRange k entries := by
  refine ⟨Checked.detectPackFraming_eq stored, ?_, Checked.decompressPackBlob_eq k stored, ?_, ?_, ?_⟩
  · rw [Checked.detectPackFraming_eq]
    exact noFault_detectPackFraming stored
  · rw [Checked.decompressPackBlob_eq]
    exact noFault_decompressPackBlob k stored
  · intro framing entries out hchunked hframing hentries hout
    rw [Checked.detectPackFraming_eq] at hframing
    obtain ⟨hbody, hindex⟩ := hchunked.framing hframing
    have hfits : ((stored.drop packChunkedHeaderLen).take framing.indexLen).length < 2 ^ 32 := by
      rw [List.length_take]
      omega
    rw [(Checked.parsePackChunkIndex_eq hfits).1] at hentries
    rw [Checked.decompressChunkedPackBlob_eq k hchunked] at hout
    unfold decompressChunkedPackBlob at hout
    rw [hframing] at hout
    dsimp only at hout
    split at hout
    · cases hout
    · rw [window_eq, hbody, Nat.add_sub_cancel_left] at hout
      cases hparse : parsePackChunkIndex ((stored.drop packChunkedHeaderLen).take framing.indexLen) with
      | error err =>
        rw [hparse] at hentries
        cases hentries
      | ok parsed =>
        rw [hparse] at hentries hout
        cases hentries
        rw [(Checked.sums_of parsed).1, length_materialize hout]
  · intro index hfits
    obtain ⟨heq, hparsed⟩ := Checked.parsePackChunkIndex_eq hfits
    rw [heq]
    refine ⟨rfl, noFault_map.mpr (noFault_parsePackChunkIndex index), fun entries hentries => ?_⟩
    cases hparse : parsePackChunkIndex index with
    | error err =>
      rw [hparse] at hentries
      cases hentries
    | ok parsed =>
      rw [hparse] at hentries
      cases hentries
      exact (hparsed parsed hparse).inRange k

end MemoryLayer.Pack
