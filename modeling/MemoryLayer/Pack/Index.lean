import Mathlib.Data.List.TakeWhile
import MemoryLayer.Pack.Framing

namespace MemoryLayer.Pack

open BigEndian Snapshot

/-! # The index of a pack

What the readers rely on: the entries of an index follow each other, in the content and in the bodies,
so that a window of the content that begins and ends with an entry lies in one piece of the bodies.

- `Follows`: entries that follow each other.
- `parseEntries_marshal`, `follows_of_parseEntries`: the index as bytes.
- `inflateChunkEntry_window`: a chunk is read out of a piece of the bodies as out of all of them.
- `materialize_span`: **windows of the content.**
-/

/-- The length of the content of entries. -/
def uncTotal (entries : List PackChunkEntry) : Nat := (entries.map PackChunkEntry.uncSize).sum

/-- The length of the bodies of entries. -/
def stoTotal (entries : List PackChunkEntry) : Nat := (entries.map PackChunkEntry.stoSize).sum

@[simp] theorem uncTotal_nil : uncTotal [] = 0 := rfl
@[simp] theorem stoTotal_nil : stoTotal [] = 0 := rfl

@[simp] theorem uncTotal_cons (e : PackChunkEntry) (entries : List PackChunkEntry) :
    uncTotal (e :: entries) = e.uncSize + uncTotal entries := rfl

@[simp] theorem stoTotal_cons (e : PackChunkEntry) (entries : List PackChunkEntry) :
    stoTotal (e :: entries) = e.stoSize + stoTotal entries := rfl

@[simp] theorem uncTotal_append (a b : List PackChunkEntry) :
    uncTotal (a ++ b) = uncTotal a + uncTotal b := by
  simp [uncTotal]

@[simp] theorem stoTotal_append (a b : List PackChunkEntry) :
    stoTotal (a ++ b) = stoTotal a + stoTotal b := by
  simp [stoTotal]

/-- The entries follow each other from `unc` in the content and `sto` in the bodies, and their codecs
    are known. -/
def Follows : Nat → Nat → List PackChunkEntry → Prop
  | _, _, [] => True
  | unc, sto, e :: entries => e.uncOffset = unc ∧ e.stoOffset = sto ∧ packAlgoFromByte e.codec ≠ none
    ∧ Follows (unc + e.uncSize) (sto + e.stoSize) entries

variable {unc sto lo hi : Nat} {entries : List PackChunkEntry} {e : PackChunkEntry} {body : Bytes}

theorem follows_append {a b : List PackChunkEntry} :
    Follows unc sto (a ++ b)
      ↔ Follows unc sto a ∧ Follows (unc + uncTotal a) (sto + stoTotal a) b := by
  induction a generalizing unc sto with
  | nil => simp [Follows]
  | cons e a ih => simp only [List.cons_append, Follows, ih, uncTotal_cons, stoTotal_cons, and_assoc,
      Nat.add_assoc]

/-- Where an entry lies. -/
theorem Follows.bounds (h : Follows unc sto entries)
    (he : e ∈ entries) :
    unc ≤ e.uncOffset ∧ e.uncOffset + e.uncSize ≤ unc + uncTotal entries
      ∧ sto ≤ e.stoOffset ∧ e.stoOffset + e.stoSize ≤ sto + stoTotal entries := by
  obtain ⟨a, b, rfl⟩ := List.append_of_mem he
  obtain ⟨-, hunc, hsto, -, -⟩ := follows_append.mp h
  simp only [uncTotal_append, uncTotal_cons, stoTotal_append, stoTotal_cons]
  omega

/-- Where the last entry ends. -/
theorem Follows.end_of_getLast
    (h : Follows unc sto entries) {last : PackChunkEntry} (hlast : entries.getLast? = some last) :
    last.uncOffset + last.uncSize = unc + uncTotal entries
      ∧ last.stoOffset + last.stoSize = sto + stoTotal entries := by
  obtain ⟨init, rfl⟩ := List.getLast?_eq_some_iff.mp hlast
  obtain ⟨-, hunc, hsto, -, -⟩ := follows_append.mp h
  simp only [uncTotal_append, uncTotal_cons, stoTotal_append, stoTotal_cons, uncTotal_nil, stoTotal_nil]
  omega

/-! ### The index as bytes -/

/-- The fields of an entry fit into their bytes. -/
def PackChunkEntry.Fits (e : PackChunkEntry) : Prop :=
  e.uncOffset < 256 ^ 8 ∧ e.uncSize < 256 ^ 4 ∧ e.stoOffset < 256 ^ 8 ∧ e.stoSize < 256 ^ 4

@[simp] theorem length_marshal (e : PackChunkEntry) : e.marshal.length = packChunkEntryLen := by
  simp [PackChunkEntry.marshal, packChunkEntryLen]

/-- **Round trip of an entry.** -/
theorem unmarshal_marshal (h : e.Fits) (rest : Bytes) :
    unmarshalEntry (e.marshal ++ rest) = e := by
  obtain ⟨hunc, huncSize, hsto, hstoSize⟩ := h
  have hsplit : e.marshal ++ rest = encode 8 e.uncOffset ++ (encode 4 e.uncSize ++ (encode 8 e.stoOffset
      ++ (encode 4 e.stoSize ++ (e.codec :: rest)))) := by
    simp [PackChunkEntry.marshal]
  have h1 : (e.marshal ++ rest).take 8 = encode 8 e.uncOffset := by
    rw [hsplit, List.take_left' (length_encode ..)]
  have h2 : ((e.marshal ++ rest).drop 8).take 4 = encode 4 e.uncSize := by
    rw [hsplit, List.drop_left' (length_encode ..), List.take_left' (length_encode ..)]
  have h3 : ((e.marshal ++ rest).drop 12).take 8 = encode 8 e.stoOffset := by
    rw [hsplit, show 12 = 8 + 4 from rfl, ← List.drop_drop, List.drop_left' (length_encode ..),
      List.drop_left' (length_encode ..), List.take_left' (length_encode ..)]
  have h4 : ((e.marshal ++ rest).drop 20).take 4 = encode 4 e.stoSize := by
    rw [hsplit, show 20 = 8 + (4 + 8) from rfl, ← List.drop_drop, ← List.drop_drop,
      List.drop_left' (length_encode ..), List.drop_left' (length_encode ..),
      List.drop_left' (length_encode ..), List.take_left' (length_encode ..)]
  have h5 : (e.marshal ++ rest).getD 24 0 = e.codec := by
    rw [hsplit]
    simp [List.getD_eq_getElem?_getD, List.getElem?_append]
  rw [unmarshalEntry, h1, h2, h3, h4, h5, decode_encode_of_lt hunc, decode_encode_of_lt huncSize,
    decode_encode_of_lt hsto, decode_encode_of_lt hstoSize]

/-- **Round trip of an index.** -/
theorem parseEntries_marshal (h : Follows unc sto entries) (hfits : ∀ e ∈ entries, e.Fits) (rest : Bytes) :
    parseEntries entries.length unc sto (entries.flatMap PackChunkEntry.marshal ++ rest)
      = .ok entries := by
  induction entries generalizing unc sto with
  | nil => rfl
  | cons e entries ih =>
    obtain ⟨hunc, hsto, hcodec, hrest⟩ := h
    have hfit := hfits e (List.mem_cons_self ..)
    rw [List.flatMap_cons, List.append_assoc, List.length_cons, parseEntries, unmarshal_marshal hfit,
      if_neg (by simp [hunc, hsto, hcodec]),
      List.drop_left' (length_marshal e), ih hrest fun x hx => hfits x (List.mem_cons_of_mem _ hx)]
    rfl

/-- What is parsed follows each other. -/
theorem follows_of_parseEntries {n : Nat} {b : Bytes}
    (h : parseEntries n unc sto b = .ok entries) : Follows unc sto entries := by
  induction n generalizing unc sto b entries with
  | zero =>
    cases h
    trivial
  | succ n ih =>
    simp only [parseEntries] at h
    split at h
    · cases h
    · rename_i hok
      simp only [not_or, not_not] at hok
      cases hrest : parseEntries n (unc + (unmarshalEntry b).uncSize) (sto + (unmarshalEntry b).stoSize)
          (b.drop packChunkEntryLen) with
      | error err =>
        rw [hrest] at h
        cases h
      | ok rest =>
        rw [hrest] at h
        cases h
        exact ⟨hok.1, hok.2.1, hok.2.2, ih hrest⟩

/-! ### Windows of the content -/

theorem window_eq (content : Bytes) :
    window content lo hi = (content.drop lo).take (hi - lo) := by
  simp [window]

/-- A chunk is read out of its own body. -/
theorem inflateChunkEntry_eq (k : Codec)
    (hend : e.stoOffset + e.stoSize ≤ body.length) :
    inflateChunkEntry k 0 body e
      = decodeChunkBody k e (window body e.stoOffset (e.stoOffset + e.stoSize : Nat)) := by
  unfold inflateChunkEntry
  rw [if_neg (by omega)]
  simp

/-- A chunk is read out of a piece of the bodies that holds its own. -/
theorem inflateChunkEntry_window (k : Codec) {base len : Nat}
    (hbase : base ≤ e.stoOffset) (hend : e.stoOffset + e.stoSize ≤ base + len)
    (hlen : base + len ≤ body.length) :
    inflateChunkEntry k base (window body base (base + len : Nat)) e
      = inflateChunkEntry k 0 body e := by
  have hlength : (window body base (base + len : Nat)).length = len := by
    rw [window_eq, List.length_take, List.length_drop]
    omega
  have hsrc : window (window body base (base + len : Nat)) (e.stoOffset - base)
      (e.stoOffset - base + e.stoSize) = window body e.stoOffset (e.stoOffset + e.stoSize : Nat) := by
    have hstop : (e.stoOffset : Int) - base + e.stoSize = (e.stoOffset + e.stoSize : Nat) - base := by
      omega
    rw [hstop]
    exact window_window (by omega) (by omega) (by omega) (by omega)
  rw [inflateChunkEntry_eq k (by omega), ← hsrc]
  unfold inflateChunkEntry
  rw [if_neg (by rw [hlength]; omega)]

/-- Windows that follow each other. -/
theorem window_append (raw : Bytes) {a b c : Nat} (hab : a ≤ b) (hbc : b ≤ c) :
    window raw a b ++ window raw b c = window raw a c := by
  have hc : c - a = (b - a) + (c - b) := by omega
  have hb : raw.drop b = (raw.drop a).drop (b - a) := by
    rw [List.drop_drop, Nat.add_sub_cancel' hab]
  rw [window_eq, window_eq, window_eq, hc, List.take_add, hb]

/-- The windows of entries that follow each other are one window. -/
theorem flatten_windows (raw : Bytes)
    (h : Follows unc sto entries) :
    (entries.map fun e => window raw e.uncOffset (e.uncOffset + e.uncSize : Nat)).flatten
      = window raw unc (unc + uncTotal entries : Nat) := by
  induction entries generalizing unc sto with
  | nil => simp [window]
  | cons e entries ih =>
    obtain ⟨hunc, -, -, hrest⟩ := h
    rw [List.map_cons, List.flatten_cons, ih hrest, hunc, window_append raw (by omega) (by omega),
      uncTotal_cons, Nat.add_assoc]

/-- Entries that begin before `hi`, where one of all entries ends, end there as well. -/
theorem end_eq_of_boundary {before inside after : List PackChunkEntry}
    (h : Follows 0 0 (before ++ (inside ++ after))) (hne : inside ≠ [])
    (hinside : ∀ e ∈ inside, e.uncOffset < hi) (hafter : ∀ e ∈ after.head?, hi ≤ e.uncOffset)
    (hhi : ∃ e ∈ before ++ (inside ++ after), e.uncOffset + e.uncSize = hi) :
    hi = uncTotal before + uncTotal inside := by
  obtain ⟨hbefore, hrest⟩ := follows_append.mp h
  obtain ⟨hmid, hend⟩ := follows_append.mp hrest
  obtain ⟨first, tail, rfl⟩ := List.exists_cons_of_ne_nil hne
  obtain ⟨last, hlast⟩ := Option.isSome_iff_exists.mp (List.getLast?_isSome.mpr hne)
  have hlastEnd := (hmid.end_of_getLast hlast).1
  have hlastLt := hinside last (List.mem_of_getLast? hlast)
  have hfirst : first.uncOffset = 0 + uncTotal before := hmid.1
  have hfirstLt := hinside first (List.mem_cons_self ..)
  obtain ⟨x, hx, hxend⟩ := hhi
  -- the boundary is not inside the last entry, and not behind it
  rcases List.mem_append.mp hx with hx | hx
  · have := hbefore.bounds hx
    omega
  · rcases List.mem_append.mp hx with hx | hx
    · have hxbounds := hmid.bounds hx
      obtain ⟨init, hinit⟩ := List.getLast?_eq_some_iff.mp hlast
      have hge : hi ≤ uncTotal before + uncTotal (first :: tail) := by omega
      rw [hinit] at hx hmid
      rcases List.mem_append.mp hx with hx | hx
      · have hxinit := ((follows_append.mp hmid).1.bounds hx).2.1
        have hlastOff := (follows_append.mp hmid).2.1
        omega
      · rw [List.mem_singleton.mp hx] at hxend
        omega
    · cases after with
      | nil => cases hx
      | cons next after =>
        have hnext := hafter next rfl
        have hnextOff : next.uncOffset = 0 + uncTotal before + uncTotal (first :: tail) := hend.1
        have := hend.bounds hx
        omega

/-- The entries of a window: those before it, its own, and those after it. -/
theorem chunkedStoredSpan_split {f : PackFraming} (h : Follows 0 0 f.chunked)
    (hlo : ∃ e ∈ f.chunked, e.uncOffset = lo)
    (hhi : ∃ e ∈ f.chunked, e.uncOffset + e.uncSize = hi) (hle : lo ≤ hi) :
    ∃ before inside after, f.chunked = before ++ (inside ++ after)
      ∧ lo = uncTotal before ∧ hi = uncTotal before + uncTotal inside
      ∧ f.chunkedStoredSpan lo hi = .ok (if inside = [] then 0 else stoTotal before,
        stoTotal inside, inside) := by
  obtain ⟨e, he, heoff⟩ := hlo
  cases hrest : f.chunked.dropWhile fun e => decide ((e.uncOffset : Int) ≠ (lo : Int)) with
  | nil =>
    have := List.dropWhile_eq_nil_iff.mp hrest e he
    simp [heoff] at this
  | cons first rest =>
    have hfirst : first.uncOffset = lo := by
      have := List.head?_dropWhile_not (fun e => decide ((e.uncOffset : Int) ≠ (lo : Int))) f.chunked
      rw [hrest] at this
      simpa using this
    have hsplit := List.takeWhile_append_dropWhile
      (p := fun e => decide ((e.uncOffset : Int) ≠ (lo : Int))) (l := f.chunked)
    rw [hrest] at hsplit
    generalize f.chunked.takeWhile _ = before at hsplit
    have hinsideSplit := List.takeWhile_append_dropWhile
      (p := fun e => decide ((e.uncOffset : Int) < (hi : Int))) (l := first :: rest)
    have hinsideLt : ∀ x ∈ (first :: rest).takeWhile fun e => decide ((e.uncOffset : Int) < (hi : Int)),
        x.uncOffset < hi := fun x hx => by simpa using List.mem_takeWhile_imp hx
    have hafterGe : ∀ x ∈ ((first :: rest).dropWhile
        fun e => decide ((e.uncOffset : Int) < (hi : Int))).head?, hi ≤ x.uncOffset := by
      intro x hx
      have := List.head?_dropWhile_not (fun e => decide ((e.uncOffset : Int) < (hi : Int))) (first :: rest)
      rw [hx] at this
      simpa using this
    unfold PackFraming.chunkedStoredSpan
    rw [hrest]
    dsimp only
    generalize (first :: rest).takeWhile _ = inside at hinsideSplit hinsideLt ⊢
    generalize (first :: rest).dropWhile _ = after at hinsideSplit hafterGe
    rw [← hsplit, ← hinsideSplit] at h hhi
    obtain ⟨-, hmid⟩ := follows_append.mp h
    have hlo : lo = uncTotal before := by
      rw [hinsideSplit] at hmid
      have := hmid.1
      omega
    refine ⟨before, inside, after, by rw [hinsideSplit, hsplit], hlo, ?_⟩
    cases hlast : inside.getLast? with
    | none =>
      have hnil : inside = [] := List.getLast?_eq_none_iff.mp hlast
      subst hnil
      rw [List.nil_append] at hinsideSplit
      have := hafterGe first (by rw [hinsideSplit]; rfl)
      exact ⟨by simp; omega, rfl⟩
    | some last =>
      have hne : inside ≠ [] := by
        rintro rfl
        cases hlast
      have hend := end_eq_of_boundary h hne hinsideLt hafterGe hhi
      obtain ⟨huncEnd, hstoEnd⟩ := (follows_append.mp hmid).1.end_of_getLast hlast
      have hfirstSto : first.stoOffset = 0 + stoTotal before := by
        rw [hinsideSplit] at hmid
        exact hmid.2.1
      refine ⟨hend, ?_⟩
      dsimp only
      rw [if_neg (by omega), if_neg hne]
      congr 3 <;> omega

/-- **Windows of the content.**  When every chunk can be read, so can every window that begins and ends
    with an entry, out of the piece of the bodies that the index says. -/
theorem materialize_span (k : Codec) {f : PackFraming} {raw : Bytes}
    (h : Follows 0 0 f.chunked) (hbody : stoTotal f.chunked ≤ body.length)
    (hread : ∀ e ∈ f.chunked, inflateChunkEntry k 0 body e
      = .ok (window raw e.uncOffset (e.uncOffset + e.uncSize : Nat)))
    (hlo : ∃ e ∈ f.chunked, e.uncOffset = lo)
    (hhi : ∃ e ∈ f.chunked, e.uncOffset + e.uncSize = hi) (hle : lo ≤ hi) :
    ∃ off len sel, f.chunkedStoredSpan lo hi = .ok (off, len, sel) ∧ off + len ≤ body.length
      ∧ materializeChunkedWindow k sel (window body off (off + len : Nat)) off
        = .ok (window raw lo hi) := by
  obtain ⟨before, inside, after, hsplit, rfl, rfl, hspan⟩ := chunkedStoredSpan_split h hlo hhi hle
  refine ⟨_, _, _, hspan, ?_, ?_⟩
  · rw [hsplit, stoTotal_append, stoTotal_append] at hbody
    split <;> omega
  · rw [hsplit] at h hread hbody
    rw [stoTotal_append, stoTotal_append] at hbody
    obtain ⟨-, hinside, -⟩ := (follows_append.mp h).imp_right follows_append.mp
    by_cases hnil : inside = []
    · subst hnil
      simp only [materializeChunkedWindow, List.mapM_nil, uncTotal_nil, Nat.add_zero, window_eq,
        Nat.sub_self, List.take_zero]
      rfl
    · rw [if_neg hnil, materializeChunkedWindow, mapM_eq_ok fun e he => ?_]
      · change Except.ok _ = _
        rw [flatten_windows raw hinside, Nat.zero_add]
      · have hbounds := hinside.bounds he
        rw [inflateChunkEntry_window k (by omega) (by omega) (by omega)]
        exact hread e (by simp [he])

end MemoryLayer.Pack
