import MemoryLayer.Lib.BigEndian

namespace MemoryLayer.Wal

open BigEndian

/-! # Records in a segment file

The bytes of the write-ahead log (`wal/wal.go`): a record is framed by its length and checksum, and
a scan reads frames until one is short or invalid.  The checksum is the parameter `crc`.

- `Record.marshal`, `unmarshalRecord`, `frame`: a record as bytes.
- `readFrame`: one pass of the scanning loop.
- `records`: the records that a scan of a file finds; `validEnd` is where it stops.
- `records_frame`: appending a frame to a file that a scan reads to its end adds its record.
- `records_append`: later bytes never hide a record that a scan finds.
-/

/-- One logged operation, with the widths of its fields. -/
structure Record where
  seq : UInt64
  op : UInt8
  ino : UInt64
  indx : UInt32
  off : UInt32
  sliceID : UInt64
  size : UInt32
  sliceOff : UInt32
  sliceLen : UInt32
  deriving DecidableEq, Repr

/-- The length of a marshalled record. -/
def recordPayloadLen : Nat := 45

/-- The length of a framed record. -/
def frameLen : Nat := 8 + recordPayloadLen

/-- A record as bytes. -/
def Record.marshal (r : Record) : List UInt8 :=
  encode 8 r.seq.toNat ++ [r.op] ++ encode 8 r.ino.toNat ++ encode 4 r.indx.toNat ++
    encode 4 r.off.toNat ++ encode 8 r.sliceID.toNat ++ encode 4 r.size.toNat ++
    encode 4 r.sliceOff.toNat ++ encode 4 r.sliceLen.toNat

/-- The number in the `n` bytes from `i` on. -/
def field (b : List UInt8) (i n : Nat) : Nat := decode ((b.drop i).take n)

/-- The record that bytes spell. -/
def unmarshalRecord (b : List UInt8) : Option Record :=
  if b.length ≠ recordPayloadLen then none
  else some
    { seq := UInt64.ofNat (field b 0 8)
      op := b.getD 8 0
      ino := UInt64.ofNat (field b 9 8)
      indx := UInt32.ofNat (field b 17 4)
      off := UInt32.ofNat (field b 21 4)
      sliceID := UInt64.ofNat (field b 25 8)
      size := UInt32.ofNat (field b 33 4)
      sliceOff := UInt32.ofNat (field b 37 4)
      sliceLen := UInt32.ofNat (field b 41 4) }

theorem length_marshal (r : Record) : r.marshal.length = recordPayloadLen := by
  simp [Record.marshal, recordPayloadLen]

/-- A field behind the first bytes. -/
theorem field_skip {pre : List UInt8} {i : Nat} (h : pre.length ≤ i) (post : List UInt8) (n : Nat) :
    field (pre ++ post) i n = field post (i - pre.length) n := by
  rw [field, field, List.drop_append, List.drop_eq_nil_of_le h, List.nil_append]

/-- The field at the front. -/
theorem field_encode (n x : Nat) (post : List UInt8) :
    field (encode n x ++ post) 0 n = x % 256 ^ n := by
  rw [field, List.drop_zero, List.take_left' (length_encode n x), decode_encode]

/-- The last field. -/
theorem field_last (n x : Nat) : field (encode n x) 0 n = x % 256 ^ n := by
  have h := field_encode n x []
  rwa [List.append_nil] at h

theorem field_cons (b : UInt8) (post : List UInt8) (i n : Nat) :
    field (b :: post) (i + 1) n = field post i n := by
  rw [field, field, List.drop_succ_cons]

/-- **Round trip.**  A marshalled record reads back. -/
theorem unmarshal_marshal (r : Record) : unmarshalRecord r.marshal = some r := by
  have hlen := length_marshal r
  have hseq : field r.marshal 0 8 = r.seq.toNat := by
    simp [Record.marshal, field_encode]
  have hop : r.marshal.getD 8 0 = r.op := by
    simp [Record.marshal, List.getD_eq_getElem?_getD]
  have hino : field r.marshal 9 8 = r.ino.toNat := by
    simp [Record.marshal, field_encode, field_skip, field_cons]
  have hindx : field r.marshal 17 4 = r.indx.toNat := by
    simp [Record.marshal, field_encode, field_skip, field_cons]
  have hoff : field r.marshal 21 4 = r.off.toNat := by
    simp [Record.marshal, field_encode, field_skip, field_cons]
  have hid : field r.marshal 25 8 = r.sliceID.toNat := by
    simp [Record.marshal, field_encode, field_skip, field_cons]
  have hsize : field r.marshal 33 4 = r.size.toNat := by
    simp [Record.marshal, field_encode, field_skip, field_cons]
  have hsoff : field r.marshal 37 4 = r.sliceOff.toNat := by
    simp [Record.marshal, field_encode, field_skip, field_cons]
  have hslen : field r.marshal 41 4 = r.sliceLen.toNat := by
    simp [Record.marshal, field_last, field_skip, field_cons]
  rw [unmarshalRecord, if_neg (by simp [hlen]), hseq, hop, hino, hindx, hoff, hid, hsize, hsoff,
    hslen]
  simp only [UInt64.ofNat_toNat, UInt32.ofNat_toNat]

/-! ### Frames -/

variable (crc : List UInt8 → UInt32)

/-- A framed record. -/
def frame (r : Record) : List UInt8 :=
  encode 4 r.marshal.length ++ encode 4 (crc r.marshal).toNat ++ r.marshal

/-- One pass of the scanning loop: the next record and the bytes after it, or none when the frame is
    short or invalid. -/
def readFrame (bytes : List UInt8) : Option (Record × List UInt8) :=
  if bytes.length < 8 then none
  else
    let plen := field bytes 0 4
    let sum := field bytes 4 4
    if plen ≠ recordPayloadLen then none
    else
      let payload := (bytes.drop 8).take plen
      if payload.length < plen then none
      else if (crc payload).toNat ≠ sum then none
      else (unmarshalRecord payload).map fun r => (r, bytes.drop (8 + plen))

@[simp] theorem length_frame (r : Record) : (frame crc r).length = frameLen := by
  simp [frame, length_marshal, frameLen]
  omega

/-- A frame reads back, whatever follows. -/
theorem readFrame_frame (r : Record) (rest : List UInt8) :
    readFrame crc (frame crc r ++ rest) = some (r, rest) := by
  have hlen := length_marshal r
  have hplen : field (frame crc r ++ rest) 0 4 = recordPayloadLen := by
    simp [frame, field_encode, hlen, recordPayloadLen]
  have hsum : field (frame crc r ++ rest) 4 4 = (crc r.marshal).toNat := by
    simp [frame, field_encode, field_skip]
  have hhead : (encode 4 r.marshal.length ++ encode 4 (crc r.marshal).toNat).length = 8 := by simp
  have hdrop : (frame crc r ++ rest).drop 8 = r.marshal ++ rest := by
    rw [frame, List.append_assoc, ← hhead, List.drop_left]
  have hpayload : ((frame crc r ++ rest).drop 8).take recordPayloadLen = r.marshal := by
    rw [hdrop, List.take_left' hlen]
  have hrest : (frame crc r ++ rest).drop (8 + recordPayloadLen) = rest := by
    rw [← List.drop_drop, hdrop, List.drop_left' hlen]
  have hlong : ¬ (frame crc r ++ rest).length < 8 := by
    rw [List.length_append, length_frame, frameLen]
    omega
  rw [readFrame, if_neg hlong]
  simp only [hplen, hsum, hpayload, hlen, hrest, unmarshal_marshal, ne_eq, not_true_eq_false, if_false,
    Nat.lt_irrefl, Option.map_some]

variable {bytes rest : List UInt8} {r : Record}

/-- What a pass of the scanning loop needs: a whole frame. -/
theorem readFrame_some (h : readFrame crc bytes = some (r, rest)) :
    frameLen ≤ bytes.length ∧ rest = bytes.drop frameLen := by
  unfold readFrame at h
  simp only at h
  split at h
  · cases h
  · split at h
    · cases h
    case isFalse hplen =>
      rw [not_not] at hplen
      rw [hplen] at h
      split at h
      · cases h
      case isFalse hlen =>
        split at h
        · cases h
        · obtain ⟨r', -, hr⟩ := Option.map_eq_some_iff.mp h
          obtain ⟨-, rfl⟩ := Prod.mk.inj hr
          rw [List.length_take, List.length_drop] at hlen
          refine ⟨?_, rfl⟩
          unfold frameLen
          omega

/-- A pass of the scanning loop looks at the bytes of one frame. -/
theorem readFrame_eq_take (h : frameLen ≤ bytes.length) :
    readFrame crc bytes
      = (readFrame crc (bytes.take frameLen)).map fun p => (p.1, bytes.drop frameLen) := by
  have hlen : (bytes.take frameLen).length = frameLen := by
    rw [List.length_take]
    omega
  have hfield : ∀ i n, i + n ≤ 8 → field (bytes.take frameLen) i n = field bytes i n := by
    intro i n hin
    rw [field, field, List.drop_take, List.take_take, Nat.min_eq_left]
    unfold frameLen
    omega
  have hpayload : ((bytes.take frameLen).drop 8).take recordPayloadLen
      = (bytes.drop 8).take recordPayloadLen := by
    rw [List.drop_take, List.take_take, Nat.min_eq_left]
    unfold frameLen
    omega
  have hlong : 8 ≤ frameLen := by decide
  have h₁ : ¬ bytes.length < 8 := by omega
  have h₂ : ¬ (bytes.take frameLen).length < 8 := by omega
  simp only [readFrame, h₁, h₂, if_false, hfield 0 4 (by omega), hfield 4 4 (by omega)]
  by_cases hplen : field bytes 0 4 = recordPayloadLen
  · simp only [hplen, hpayload, ne_eq, not_true_eq_false, if_false]
    split
    · rfl
    · split
      · rfl
      · rw [Option.map_map]
        rfl
  · simp only [ne_eq, hplen, not_false_eq_true, if_true, Option.map_none]

/-- Later bytes do not change a frame. -/
theorem readFrame_append (h : readFrame crc bytes = some (r, rest)) (more : List UInt8) :
    readFrame crc (bytes ++ more) = some (r, rest ++ more) := by
  obtain ⟨hlen, rfl⟩ := readFrame_some crc h
  rw [readFrame_eq_take crc hlen] at h
  rw [readFrame_eq_take crc (by rw [List.length_append]; omega), List.take_append_of_le_length hlen,
    List.drop_append_of_le_length hlen]
  obtain ⟨p, hp, heq⟩ := Option.map_eq_some_iff.mp h
  rw [hp, ← (Prod.mk.inj heq).1]
  rfl

/-! ### Scanning a file -/

/-- The scanning loop. -/
def scanLoop : Nat → List UInt8 → List Record
  | 0, _ => []
  | fuel + 1, bytes =>
    match readFrame crc bytes with
    | none => []
    | some (r, rest) => r :: scanLoop fuel rest

/-- The records that a scan of a file finds. -/
def records (bytes : List UInt8) : List Record := scanLoop crc bytes.length bytes

/-- Where the last record that a scan finds ends. -/
def validEnd (bytes : List UInt8) : Nat := (records crc bytes).length * frameLen

theorem readFrame_nil : readFrame crc [] = none := rfl

/-- Any fuel that covers the bytes is enough. -/
theorem scanLoop_fuel {n m : Nat} (hn : bytes.length ≤ n)
    (hm : bytes.length ≤ m) : scanLoop crc n bytes = scanLoop crc m bytes := by
  induction n generalizing m bytes with
  | zero =>
    obtain rfl : bytes = [] := List.length_eq_zero_iff.mp (by omega)
    cases m with
    | zero => rfl
    | succ m => rw [scanLoop, scanLoop, readFrame_nil]
  | succ n ih =>
    cases m with
    | zero =>
      obtain rfl : bytes = [] := List.length_eq_zero_iff.mp (by omega)
      rw [scanLoop, scanLoop, readFrame_nil]
    | succ m =>
      rw [scanLoop, scanLoop]
      cases hread : readFrame crc bytes with
      | none => rfl
      | some p =>
        obtain ⟨hle, hrest⟩ := readFrame_some crc hread
        have hshort : p.2.length < bytes.length := by
          rw [hrest, List.length_drop]
          unfold frameLen at hle ⊢
          omega
        simp only
        rw [ih (by omega) (show p.2.length ≤ m by omega)]

/-- A scan, frame by frame. -/
theorem records_eq (bytes : List UInt8) : records crc bytes = match readFrame crc bytes with
    | none => []
    | some (r, rest) => r :: records crc rest := by
  have hfuel : records crc bytes = scanLoop crc (bytes.length + 1) bytes :=
    scanLoop_fuel crc (Nat.le_refl _) (Nat.le_succ _)
  rw [hfuel, scanLoop]
  cases hread : readFrame crc bytes with
  | none => rfl
  | some p =>
    obtain ⟨hle, hrest⟩ := readFrame_some crc hread
    have hshort : p.2.length ≤ bytes.length := by
      rw [hrest, List.length_drop]
      omega
    exact congrArg _ (scanLoop_fuel crc hshort (Nat.le_refl _))

theorem records_nil : records crc [] = [] := rfl

theorem records_of_none (h : readFrame crc bytes = none) :
    records crc bytes = [] := by
  rw [records_eq, h]

theorem records_of_some
    (h : readFrame crc bytes = some (r, rest)) : records crc bytes = r :: records crc rest := by
  rw [records_eq, h]

theorem validEnd_of_some (h : readFrame crc bytes = some (r, rest)) :
    validEnd crc bytes = frameLen + validEnd crc rest := by
  rw [validEnd, records_of_some crc h, List.length_cons, validEnd, Nat.succ_mul]
  omega

/-- **Induction over the frames of a file.** -/
theorem frames_induction {P : List UInt8 → Prop} (none : ∀ bytes, readFrame crc bytes = none → P bytes)
    (some : ∀ bytes r rest, readFrame crc bytes = some (r, rest) → rest = bytes.drop frameLen →
      frameLen + rest.length = bytes.length → P rest → P bytes) (bytes : List UInt8) : P bytes := by
  induction hn : bytes.length using Nat.strongRecOn generalizing bytes with
  | _ n ih =>
    cases hread : readFrame crc bytes with
    | none => exact none bytes hread
    | some p =>
      obtain ⟨hle, hrest⟩ := readFrame_some crc hread
      have hlen : frameLen + p.2.length = bytes.length := by
        rw [hrest, List.length_drop]
        omega
      have hpos : 0 < frameLen := by decide
      exact some bytes p.1 p.2 hread hrest hlen (ih p.2.length (by omega) p.2 rfl)

/-- What a scan reads is the frames of the records it finds, then bytes that are no frame. -/
theorem scan_split (bytes : List UInt8) :
    validEnd crc bytes ≤ bytes.length ∧ readFrame crc (bytes.drop (validEnd crc bytes)) = none := by
  induction bytes using frames_induction crc with
  | none bytes hread =>
    rw [validEnd, records_of_none crc hread, List.length_nil, Nat.zero_mul, List.drop_zero]
    exact ⟨Nat.zero_le _, hread⟩
  | some bytes r rest hread hrest hlen ih =>
    rw [validEnd_of_some crc hread, ← List.drop_drop, ← hrest]
    exact ⟨by omega, ih.2⟩

/-- Later bytes never hide a record. -/
theorem records_append (bytes more : List UInt8) :
    records crc bytes <+: records crc (bytes ++ more) := by
  induction bytes using frames_induction crc with
  | none bytes hread =>
    rw [records_of_none crc hread]
    exact List.nil_prefix
  | some bytes r rest hread hrest hlen ih =>
    rw [records_of_some crc hread, records_of_some crc (readFrame_append crc hread more),
      List.prefix_cons_inj]
    exact ih

/-- A file that a scan reads to its end. -/
def Clean (bytes : List UInt8) : Prop := validEnd crc bytes = bytes.length

instance (bytes : List UInt8) : Decidable (Clean crc bytes) :=
  inferInstanceAs (Decidable (_ = _))

/-- **Appending.**  Behind a clean file, bytes are scanned as if they stood alone. -/
theorem records_clean (h : Clean crc bytes) (more : List UInt8) :
    records crc (bytes ++ more) = records crc bytes ++ records crc more := by
  induction bytes using frames_induction crc with
  | none bytes hread =>
    have hnil : bytes = [] := by
      rw [Clean, validEnd, records_of_none crc hread] at h
      exact List.length_eq_zero_iff.mp (by simpa using h.symm)
    rw [hnil, records_nil, List.nil_append, List.nil_append]
  | some bytes r rest hread hrest hlen ih =>
    rw [Clean, validEnd_of_some crc hread] at h
    have hclean : Clean crc rest := by
      unfold Clean
      omega
    rw [records_of_some crc hread, records_of_some crc (readFrame_append crc hread more), ih hclean,
      List.cons_append]

theorem records_frame (r : Record) : records crc (frame crc r) = [r] := by
  have h := readFrame_frame crc r []
  rw [List.append_nil] at h
  rw [records_of_some crc h, records_nil]

/-- What is left of a file after its torn tail was cut off. -/
theorem records_take_validEnd (bytes : List UInt8) :
    records crc (bytes.take (validEnd crc bytes)) = records crc bytes ∧
      Clean crc (bytes.take (validEnd crc bytes)) := by
  have hrecords : records crc (bytes.take (validEnd crc bytes)) = records crc bytes := by
    induction bytes using frames_induction crc with
    | none bytes hread =>
      rw [validEnd, records_of_none crc hread, List.length_nil, Nat.zero_mul, List.take_zero, records_nil]
    | some bytes r rest hread hrest hlen ih =>
      -- the first frame and what is kept of the rest
      have hfirst : readFrame crc (bytes.take frameLen) = some (r, []) := by
        have hall := readFrame_eq_take crc (readFrame_some crc hread).1
        rw [hread] at hall
        obtain ⟨q, hq, heq⟩ := Option.map_eq_some_iff.mp hall.symm
        obtain ⟨-, hnil⟩ := readFrame_some crc (show _ = some (q.1, q.2) from hq)
        rw [List.drop_eq_nil_of_le (by rw [List.length_take]; omega)] at hnil
        rw [hq, ← hnil, ← (Prod.mk.inj heq).1]
      have hsplit : bytes.take (frameLen + validEnd crc rest)
          = bytes.take frameLen ++ rest.take (validEnd crc rest) := by
        rw [List.take_add, hrest]
      rw [validEnd_of_some crc hread, hsplit, records_of_some crc (readFrame_append crc hfirst _),
        List.nil_append, ih, ← records_of_some crc hread]
  refine ⟨hrecords, ?_⟩
  have hend := (scan_split crc bytes).1
  unfold Clean
  rw [List.length_take, Nat.min_eq_left hend]
  conv_lhs => rw [validEnd, hrecords]
  rfl

end MemoryLayer.Wal
