import MemoryLayer.Meta.Serial
import MemoryLayer.Fileio.Files

namespace MemoryLayer.Fileio

open Meta

/-! # What a file contains

The bytes of a file, as its slice rows and the stored slices determine them: at each offset the
newest row that covers it shows, and an offset without a row is zero.

- `rowsOf`: the slice rows of a file, in write order.
- `byteAt`: the byte at an offset.
- `RowOk`: a row lies in its chunk, and the slice it names holds its bytes.
- `read_eq`: `Files.read` returns these bytes, up to the length of the file.
-/

/-- The slice rows of a file, in write order. -/
def rowsOf (db : Db) (i : Ino) : List SliceRef := (db .sliceRef).filter fun r => r.inode = i

/-- The row covers a file offset. -/
def covers (r : SliceRef) (x : Nat) : Bool := r.start ≤ x ∧ x < r.stop

/-- The byte that a row shows at an offset. -/
def sliceByte (chunks : Nat → Option (List UInt8)) (r : SliceRef) (x : Nat) : UInt8 :=
  ((chunks r.sliceId).getD []).getD (r.soff + (x - r.start)) 0

/-- The byte at a file offset. -/
def byteAt (chunks : Nat → Option (List UInt8)) (rows : List SliceRef) (x : Nat) : UInt8 :=
  match Layers.top covers rows x with
  | some r => sliceByte chunks r x
  | none => 0

/-- A row lies in its chunk, and its slice holds its bytes. -/
structure RowOk (chunks : Nat → Option (List UInt8)) (r : SliceRef) : Prop where
  chunk : r.pos + r.slen ≤ chunkSize
  slice : r.soff + r.slen ≤ chunkSize
  index : r.indx < int4Max
  id : r.sliceId ≠ 0
  data : ∃ d, chunks r.sliceId = some d ∧ r.soff + r.slen ≤ d.length

variable {r : SliceRef} {chunks : Nat → Option (List UInt8)} {g : Nat → UInt8} {x p : Nat} {sg : Seg}

theorem mem_rowsOf {db : Db} {i : Ino} :
    r ∈ rowsOf db i ↔ r ∈ db .sliceRef ∧ r.inode = i := by
  simp [rowsOf]

theorem covers_iff : covers r x = true ↔ r.start ≤ x ∧ x < r.stop := by
  simp [covers]

theorem atPos_iff : atPos r x = true ↔ r.pos ≤ x ∧ x < r.pos + r.slen := by
  simp [atPos]

theorem RowOk.fits (h : RowOk chunks r) :
    Fits r := by
  have hc := h.chunk
  have hs := h.slice
  unfold chunkSize at hc hs
  unfold Fits
  omega

/-! ### The rows of one chunk -/

/-- Within its chunk, an offset is covered by the rows of the chunk only. -/
theorem covers_iff_atPos (h : RowOk chunks r)
    (indx : Nat) (hp : p < chunkSize) :
    covers r (indx * chunkSize + p) = true ↔ r.indx = indx ∧ atPos r p = true := by
  have hc := h.chunk
  rw [covers_iff, atPos_iff, SliceRef.stop, SliceRef.start]
  constructor
  · rintro ⟨hlo, hhi⟩
    have hidx : r.indx = indx := by
      rcases Nat.lt_trichotomy r.indx indx with hlt | heq | hgt
      · have := Nat.mul_le_mul_right chunkSize (Nat.succ_le_of_lt hlt)
        rw [Nat.succ_mul] at this
        omega
      · exact heq
      · have := Nat.mul_le_mul_right chunkSize (Nat.succ_le_of_lt hgt)
        rw [Nat.succ_mul] at this
        omega
    subst hidx
    exact ⟨rfl, by omega, by omega⟩
  · rintro ⟨rfl, hlo, hhi⟩
    exact ⟨by omega, by omega⟩

/-- The newest row at an offset is the newest row of its chunk there. -/
theorem top_chunk {rows : List SliceRef}
    (hrows : ∀ r ∈ rows, RowOk chunks r) {indx : Nat} (hp : p < chunkSize) :
    Layers.top atPos (rows.filter fun r => r.indx = indx) p
      = Layers.top covers rows (indx * chunkSize + p) := by
  induction rows using List.reverseRecOn with
  | nil => simp
  | append_singleton rows r ih =>
    have hr := covers_iff_atPos (hrows r (by simp)) indx hp
    rw [Layers.top_concat, ← ih fun r' hr' => hrows r' (List.mem_append_left _ hr'),
      List.filter_append]
    by_cases hi : r.indx = indx
    · have hcov : covers r (indx * chunkSize + p) = atPos r p := by
        rw [Bool.eq_iff_iff, hr]
        simp [hi]
      rw [hcov, ← Layers.top_concat]
      simp [hi]
    · have hcov : covers r (indx * chunkSize + p) = false := by
        rw [← Bool.not_eq_true, hr]
        simp [hi]
      simp [hcov, hi]

/-! ### Buffers -/

/-- The buffer of `n` bytes given by a function. -/
def tabulate (n : Nat) (g : Nat → UInt8) : List UInt8 := (List.range n).map g

@[simp] theorem length_tabulate (n : Nat) (g : Nat → UInt8) : (tabulate n g).length = n := by
  simp [tabulate]

theorem tabulate_congr {n : Nat} {g' : Nat → UInt8} (h : ∀ k < n, g k = g' k) :
    tabulate n g = tabulate n g' :=
  List.map_congr_left fun k hk => h k (List.mem_range.mp hk)

theorem tabulate_zero (n : Nat) : List.replicate n (0 : UInt8) = tabulate n fun _ => 0 := by
  rw [tabulate, List.map_const', List.length_range]

theorem getElem?_tabulate (n : Nat) (g : Nat → UInt8) (k : Nat) :
    (tabulate n g)[k]? = if k < n then some (g k) else none := by
  unfold tabulate
  rw [List.getElem?_map]
  by_cases hk : k < n
  · simp [hk]
  · simp [hk]

/-- Copying bytes into a buffer changes the bytes in their place. -/
theorem blit_tabulate {n dst : Nat} {bytes : List UInt8}
    (h : dst + bytes.length ≤ n) :
    Files.blit (tabulate n g) dst bytes = tabulate n fun k =>
      if dst ≤ k ∧ k < dst + bytes.length then bytes.getD (k - dst) 0 else g k := by
  refine List.ext_getElem? fun k => ?_
  simp only [Files.blit, List.getElem?_append, List.length_append, List.length_take,
    List.getElem?_take, List.getElem?_drop, getElem?_tabulate, length_tabulate]
  grind

/-! ### Reading -/

section Read

variable {f : Files} {ino : Ino} (hrows : ∀ r ∈ rowsOf f.engine.db ino, RowOk f.chunks r)

include hrows

variable {indx lo hi offset n stop cur : Nat}

theorem resolves_chunk (indx lo hi : Nat) :
    Resolves ((rowsOf f.engine.db ino).filter fun r => r.indx = indx) lo hi
      (resolve ((rowsOf f.engine.db ino).filter fun r => r.indx = indx) lo hi) :=
  resolve_spec (fun s hs => (hrows s (List.mem_of_mem_filter hs)).fits.1) lo hi

section Window

variable (hhi : hi ≤ chunkSize) (hlo : offset ≤ indx * chunkSize + lo)
  (hn : indx * chunkSize + hi ≤ offset + n)

include hhi

/-- What a segment of a chunk shows at a position is the file's byte there; a hole is zero. -/
theorem seg_byte (hsg : sg ∈ resolve ((rowsOf f.engine.db ino).filter fun r => r.indx = indx) lo hi)
    (hp : sg.start ≤ p) (hp' : p < sg.stop) (hid : sg.id ≠ 0) :
    (lo ≤ p ∧ p < hi) ∧ ∃ d, f.chunks sg.id = some d ∧ sg.srcOff + (p - sg.start) < d.length ∧
      d.getD (sg.srcOff + (p - sg.start)) 0
        = byteAt f.chunks (rowsOf f.engine.db ino) (indx * chunkSize + p) := by
  have hspec := resolves_chunk hrows indx lo hi
  have hwin := (hspec.cover p).mp ⟨sg, hsg, hp, hp'⟩
  have hshow := hspec.shows sg hsg p ⟨hp, hp'⟩
  refine ⟨hwin, ?_⟩
  rw [top_chunk hrows (by omega)] at hshow
  cases htop : Layers.top covers (rowsOf f.engine.db ino) (indx * chunkSize + p) with
  | none =>
    rw [htop] at hshow
    exact absurd hshow hid
  | some s =>
    rw [htop] at hshow
    have hs := hrows s (Layers.top_mem htop)
    obtain ⟨d, hd, hlen⟩ := hs.data
    obtain ⟨rfl, hat⟩ := (covers_iff_atPos hs indx (by omega)).mp (Layers.top_covers htop)
    obtain ⟨hsid, hoff⟩ := hshow.shows hs.fits ⟨hp, hp'⟩ hat
    rw [atPos_iff] at hat
    refine ⟨d, hsid ▸ hd, by omega, ?_⟩
    have hsub : s.indx * chunkSize + p - s.start = p - s.pos := by
      unfold SliceRef.start
      omega
    rw [byteAt, htop, hoff]
    simp only [sliceByte, hd, Option.getD_some, hsub]

include hlo hn

theorem readSeg_tabulate (hsg : sg ∈ resolve ((rowsOf f.engine.db ino).filter fun r => r.indx = indx) lo hi)
    (g : Nat → UInt8) :
    f.readSeg offset (indx * chunkSize) (tabulate n g) sg = .ok (tabulate n fun k =>
      if sg.id ≠ 0 ∧ indx * chunkSize + sg.start ≤ offset + k ∧
        offset + k < indx * chunkSize + sg.stop
      then byteAt f.chunks (rowsOf f.engine.db ino) (offset + k) else g k) := by
  unfold Files.readSeg
  by_cases hid : sg.id = 0
  · simp [hid]
  have hne := (resolves_chunk hrows indx lo hi).nonempty sg hsg
  -- the first and the last position of the segment lie in the window
  obtain ⟨hfirst, d, hd, -, -⟩ := seg_byte hrows hhi hsg (Nat.le_refl sg.start) hne hid
  obtain ⟨hlast, d', hd', hlen, -⟩ :=
    seg_byte hrows hhi hsg (p := sg.stop - 1) (by omega) (by omega) hid
  obtain rfl := Option.some.inj (hd.symm.trans hd')
  have hbytes : ((d.drop sg.srcOff).take (sg.stop - sg.start)).length = sg.stop - sg.start := by
    rw [List.length_take, List.length_drop]
    omega
  rw [if_neg hid, if_neg (by rw [length_tabulate]; omega), hd]
  simp only
  rw [blit_tabulate (by omega), hbytes]
  congr 1
  refine tabulate_congr fun k hk => ?_
  by_cases hin : indx * chunkSize + sg.start ≤ offset + k ∧ offset + k < indx * chunkSize + sg.stop
  · obtain ⟨-, d', hd', hlt, hbyte⟩ := seg_byte hrows hhi hsg
      (p := offset + k - indx * chunkSize) (by omega) (by omega) hid
    obtain rfl := Option.some.inj (hd.symm.trans hd')
    rw [if_pos (by omega), if_pos ⟨hid, hin⟩,
      show offset + k = indx * chunkSize + (offset + k - indx * chunkSize) by omega, ← hbyte,
      List.getD_eq_getElem?_getD, List.getD_eq_getElem?_getD, List.getElem?_take,
      if_pos (by omega), List.getElem?_drop]
    congr 3
    omega
  · rw [if_neg (by omega), if_neg fun h => hin h.2]

/-- All segments of a window. -/
theorem foldlM_readSeg {segs : List Seg}
    (hsegs : ∀ sg ∈ segs, sg ∈ resolve ((rowsOf f.engine.db ino).filter fun r => r.indx = indx) lo hi)
    (g : Nat → UInt8) :
    ∃ g', segs.foldlM (f.readSeg offset (indx * chunkSize)) (tabulate n g) = .ok (tabulate n g') ∧
      ∀ k, (∃ sg ∈ segs, sg.id ≠ 0 ∧ indx * chunkSize + sg.start ≤ offset + k ∧
          offset + k < indx * chunkSize + sg.stop) ∧
          g' k = byteAt f.chunks (rowsOf f.engine.db ino) (offset + k) ∨
        (¬ ∃ sg ∈ segs, sg.id ≠ 0 ∧ indx * chunkSize + sg.start ≤ offset + k ∧
          offset + k < indx * chunkSize + sg.stop) ∧ g' k = g k := by
  induction segs generalizing g with
  | nil => exact ⟨g, rfl, fun k => .inr ⟨by simp, rfl⟩⟩
  | cons sg segs ih =>
    have hsg := readSeg_tabulate hrows hhi hlo hn (hsegs sg List.mem_cons_self) g
    obtain ⟨g', hfold, hg'⟩ := ih (fun s hs => hsegs s (List.mem_cons_of_mem _ hs)) fun k =>
      if sg.id ≠ 0 ∧ indx * chunkSize + sg.start ≤ offset + k ∧
        offset + k < indx * chunkSize + sg.stop
      then byteAt f.chunks (rowsOf f.engine.db ino) (offset + k) else g k
    refine ⟨g', by rw [List.foldlM_cons, hsg]; exact hfold, fun k => ?_⟩
    simp only [List.mem_cons, exists_eq_or_imp]
    rcases hg' k with ⟨hex, hk⟩ | ⟨hnex, hk⟩
    · exact .inl ⟨.inr hex, hk⟩
    · by_cases hin : sg.id ≠ 0 ∧ indx * chunkSize + sg.start ≤ offset + k ∧
          offset + k < indx * chunkSize + sg.stop
      · rw [if_pos hin] at hk
        exact .inl ⟨.inl hin, hk⟩
      · rw [if_neg hin] at hk
        exact .inr ⟨fun h => h.elim hin hnex, hk⟩

/-- One window: its positions get the file's bytes, the others stay. -/
theorem window_tabulate
    (hzero : ∀ k, indx * chunkSize + lo ≤ offset + k → offset + k < indx * chunkSize + hi → g k = 0) :
    (resolve ((rowsOf f.engine.db ino).filter fun r => r.indx = indx) lo hi).foldlM
        (f.readSeg offset (indx * chunkSize)) (tabulate n g)
      = .ok (tabulate n fun k =>
        if indx * chunkSize + lo ≤ offset + k ∧ offset + k < indx * chunkSize + hi
        then byteAt f.chunks (rowsOf f.engine.db ino) (offset + k) else g k) := by
  obtain ⟨g', hfold, hg'⟩ := foldlM_readSeg hrows hhi hlo hn (fun _ h => h) g
  rw [hfold]
  congr 1
  have hspec := resolves_chunk hrows indx lo hi
  refine tabulate_congr fun k _ => ?_
  rcases hg' k with ⟨⟨sg, hsg, hid, hk1, hk2⟩, hk⟩ | ⟨hnone, hk⟩
  · -- a segment's position lies in the window
    obtain ⟨hwin, -⟩ := seg_byte hrows hhi hsg (p := offset + k - indx * chunkSize) (by omega)
      (by omega) hid
    rw [hk, if_pos (by omega)]
  · rw [hk]
    split
    case isFalse => rfl
    case isTrue hwin =>
      -- without a segment there is no row
      rw [hzero k hwin.1 hwin.2, byteAt]
      cases htop : Layers.top covers (rowsOf f.engine.db ino) (offset + k) with
      | none => rfl
      | some s =>
        have hx : offset + k = indx * chunkSize + (offset + k - indx * chunkSize) := by omega
        rw [hx, ← top_chunk hrows (by omega)] at htop
        obtain ⟨sg, hsg, h1, h2⟩ := (hspec.cover (offset + k - indx * chunkSize)).mpr (by omega)
        have hshow := hspec.shows sg hsg _ ⟨h1, h2⟩
        rw [htop] at hshow
        have hid : sg.id ≠ 0 := by
          rw [hshow.1]
          exact (hrows s (List.mem_of_mem_filter (Layers.top_mem htop))).id
        exact absurd ⟨sg, hsg, hid, by omega, by omega⟩ hnone

end Window

omit hrows in
theorem readSlices_eq (e : Engine) (h : indx < int4Max) :
    e.readSlices ino indx = .ok ((rowsOf e.db ino).filter fun r => r.indx = indx) := by
  rw [Engine.readSlices, if_pos h, rowsOf, List.filter_filter]
  simp only [Bool.decide_and, Bool.and_comm]

omit hrows in
/-- Below `2 ^ 57` bytes a chunk index fits its column. -/
theorem chunk_index (h : x < 2 ^ 57) :
    x / chunkSize % 2 ^ 32 = x / chunkSize ∧ x / chunkSize < int4Max := by
  unfold chunkSize int4Max
  omega

omit hrows in
/-- An offset, from its chunk and its position there. -/
theorem chunk_split (x : Nat) :
    x / chunkSize * chunkSize + x % chunkSize = x ∧ x % chunkSize < chunkSize := by
  unfold chunkSize
  omega

omit hrows in
theorem hiByte_eq (base stop : Nat) : Files.hiByte base stop = min stop (base + chunkSize) := by
  unfold Files.hiByte
  split <;> omega

/-- One pass of the read loop moves to the end of the chunk or of the read, and fills in between. -/
theorem readChunk_eq (hstop : stop ≤ 2 ^ 57) (hcur : cur < stop)
    (hoff : offset ≤ cur) (hzero : ∀ k, cur ≤ offset + k → g k = 0) :
    ∃ next, cur < next ∧ next ≤ stop ∧
      f.readChunk ino offset stop cur (tabulate (stop - offset) g)
        = .ok (next, tabulate (stop - offset) fun k =>
          if cur ≤ offset + k ∧ offset + k < next
          then byteAt f.chunks (rowsOf f.engine.db ino) (offset + k) else g k) := by
  obtain ⟨hmod, hidx⟩ := chunk_index (x := cur) (by omega)
  obtain ⟨hsplit, hpos⟩ := chunk_split cur
  have hcs : chunkSize < 2 ^ 32 := by
    unfold chunkSize
    omega
  have hhi := hiByte_eq (cur / chunkSize * chunkSize) stop
  have hwindow : f.readWindow ino offset (cur / chunkSize) (cur / chunkSize * chunkSize)
      (cur - cur / chunkSize * chunkSize)
      (Files.hiByte (cur / chunkSize * chunkSize) stop - cur / chunkSize * chunkSize)
      (tabulate (stop - offset) g) = .ok (tabulate (stop - offset) fun k =>
        if cur ≤ offset + k ∧ offset + k < Files.hiByte (cur / chunkSize * chunkSize) stop
        then byteAt f.chunks (rowsOf f.engine.db ino) (offset + k) else g k) := by
    rw [Files.readWindow, readSlices_eq _ hidx]
    refine (window_tabulate hrows (by omega) (by omega) (by omega)
      fun k hk _ => hzero k (by omega)).trans ?_
    congr 1
    refine tabulate_congr fun k _ => ?_
    rw [show cur / chunkSize * chunkSize + (cur - cur / chunkSize * chunkSize) = cur by omega,
      show cur / chunkSize * chunkSize + (Files.hiByte (cur / chunkSize * chunkSize) stop
        - cur / chunkSize * chunkSize) = Files.hiByte (cur / chunkSize * chunkSize) stop by omega]
  refine ⟨Files.hiByte (cur / chunkSize * chunkSize) stop, by omega, by omega, ?_⟩
  unfold Files.readChunk
  rw [hmod]
  simp only
  rw [Nat.mod_eq_of_lt (by omega), Nat.mod_eq_of_lt (by omega), hwindow]
  rfl

theorem readLoop_eq (fuel : Nat) (hstop : stop ≤ 2 ^ 57) (hcur : cur ≤ stop)
    (hoff : offset ≤ cur) (hfuel : stop - cur ≤ fuel) :
    f.readLoop ino offset stop fuel cur (tabulate (stop - offset) fun k =>
        if offset + k < cur then byteAt f.chunks (rowsOf f.engine.db ino) (offset + k) else 0)
      = .ok (tabulate (stop - offset) fun k =>
        byteAt f.chunks (rowsOf f.engine.db ino) (offset + k)) := by
  induction fuel generalizing cur with
  | zero =>
    rw [Files.readLoop, if_neg (by omega)]
    congr 1
    exact tabulate_congr fun k hk => if_pos (by omega)
  | succ fuel ih =>
    rw [Files.readLoop]
    by_cases hlt : cur < stop
    · obtain ⟨next, hnext, hnext', hchunk⟩ := readChunk_eq hrows hstop hlt hoff
        (g := fun k => if offset + k < cur
          then byteAt f.chunks (rowsOf f.engine.db ino) (offset + k) else 0)
        fun k hk => if_neg (by omega)
      have hrest := ih hnext' (by omega) (by omega)
      rw [if_pos hlt, hchunk, ← hrest]
      simp only
      congr 1
      refine tabulate_congr fun k hk => ?_
      grind
    · rw [if_neg hlt]
      congr 1
      exact tabulate_congr fun k hk => if_pos (by omega)

omit hrows in
theorem getAttr_eq (e : Engine) (i : Ino) : e.getAttr i = match nodeAt e.db i with
    | some a => .ok a
    | none => .error .enoent := by
  unfold Engine.getAttr nodeAt
  cases (e.db .node).find? (isNode i) <;> rfl

/-- **Reading.**  `Files.read` returns the bytes of the file from the offset on, up to its end,
    when it ends below `2 ^ 57`. -/
theorem read_eq {a : Attr} (ha : nodeAt f.engine.db ino = some a) {len : Nat}
    (hstop : offset < a.length → 0 < len → min (offset + len) a.length ≤ 2 ^ 57) :
    f.read ino offset len = .ok (tabulate (min len (a.length - offset)) fun k =>
      byteAt f.chunks (rowsOf f.engine.db ino) (offset + k)) := by
  rw [Files.read, getAttr_eq, ha]
  simp only
  split
  case isTrue hend =>
    rw [show min len (a.length - offset) = 0 by omega]
    rfl
  case isFalse hend =>
    have hmin : (if offset + len > a.length then a.length else offset + len)
        = min (offset + len) a.length := by split <;> omega
    have hloop := readLoop_eq hrows (min (offset + len) a.length - offset + 2 ^ 32)
      (hstop (by omega) (by omega)) (by omega) (Nat.le_refl offset) (by omega)
    rw [hmin, tabulate_zero, show min len (a.length - offset)
      = min (offset + len) a.length - offset by omega, ← hloop]
    congr 1
    exact tabulate_congr fun k _ => (if_neg (by omega)).symm

end Read

end MemoryLayer.Fileio
