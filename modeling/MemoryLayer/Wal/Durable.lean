import Mathlib.Data.List.Sort
import MemoryLayer.Lib.Runs
import MemoryLayer.Sql.Keyed
import MemoryLayer.Wal.Log

namespace MemoryLayer.Wal

open Runs

/-! # What a log never loses

A record whose `Append` succeeded stands in a file of its own bytes and survives crashes, rolls and
checkpoints that do not cover it, as long as it was not written behind a torn frame.

- `Monitor`: a world together with the records that were acknowledged and not covered since.
- `Sound`: the step appends behind a clean file, and a checkpoint removes no file that it still needs.
- `delivers_acked`: **after any sound history, opening the log and replaying it delivers every
  acknowledged record.**
- `lost_behind_torn_frame`: without that, a record is lost.
-/

/-! ### Files by name -/

namespace Dir

variable {d : Dir} {name n : UInt64} {g : File → File} {names : List UInt64} {p : UInt64 × File}

theorem file?_update :
    (d.update name g).file? n = if n = name then (d.file? n).map g else d.file? n := by
  have h := Sql.find?_map_key (R := UInt64 × File) Prod.fst (f := fun p => (p.1, g p.2))
    (fun _ => rfl) d name n
  unfold file? update
  rw [h]
  split
  case isTrue hn =>
    rw [hn]
    cases d.find? fun p => p.1 = name <;> rfl
  case isFalse => rfl

/-- Opening a file creates it empty when it is missing. -/
theorem file?_create : (d.create name).file? n
    = if n = name then some ((d.file? n).getD ⟨[], 0⟩) else d.file? n := by
  unfold create
  split
  case isTrue hsome =>
    split
    case isTrue hn =>
      obtain ⟨f, hf⟩ := Option.isSome_iff_exists.mp hsome
      rw [hn, hf]
      rfl
    case isFalse => rfl
  case isFalse hnone =>
    have hnone' : d.file? name = none := by simpa using hnone
    have hsplit := congrArg (fun l => List.find? (fun p => decide (p.1 = n)) l)
      (List.takeWhile_append_dropWhile (p := fun p : UInt64 × File => p.1 < name) (l := d))
    simp only [List.find?_append] at hsplit
    unfold file? at hnone' ⊢
    rw [List.find?_append, List.find?_cons]
    by_cases hn : n = name
    · -- neither part holds the name, so the new file is found
      rw [if_pos hn, hn, hnone']
      rw [hn, Option.map_eq_none_iff.mp hnone', Option.or_eq_none_iff] at hsplit
      rw [hsplit.1]
      simp
    · rw [if_neg hn, ← hsplit, decide_eq_false (Ne.symm hn)]

theorem file?_remove :
    (d.remove names).file? n = if n ∈ names then none else d.file? n := by
  have h := Sql.find?_filter_keys (R := UInt64 × File) Prod.fst (fun n => n ∈ names) d n
  simp only [← decide_not] at h
  rw [file?, remove, h]
  by_cases hn : n ∈ names <;> simp [hn, file?]

theorem file?_of_mem (h : p ∈ d) : (d.file? p.1).isSome := by
  unfold file?
  rw [Option.isSome_map, List.find?_isSome]
  exact ⟨p, h, by simp⟩

theorem map_fst_update : (d.update name g).map Prod.fst = d.map Prod.fst := by
  unfold update
  rw [List.map_map]
  apply List.map_congr_left
  intro p _
  simp only [Function.comp_apply]
  split <;> rfl

theorem nodup_of_lt (h : names.Pairwise (· < ·)) : names.Nodup :=
  h.imp fun {a b} (hlt : a < b) => UInt64.ne_of_lt hlt

/-- A new name goes to its place in the order. -/
theorem sorted_create (h : (d.map Prod.fst).Pairwise (· < ·)) :
    ((d.create name).map Prod.fst).Pairwise (· < ·) := by
  unfold create
  split
  case isTrue => exact h
  case isFalse hnone =>
    have hnot : name ∉ d.map Prod.fst := by
      intro hmem
      obtain ⟨p, hp, rfl⟩ := List.mem_map.mp hmem
      exact hnone (file?_of_mem hp)
    have hinsert : (d.takeWhile (fun p => p.1 < name) ++ (name, ⟨[], 0⟩)
        :: d.dropWhile (fun p => p.1 < name)).map Prod.fst = (d.map Prod.fst).orderedInsert (· ≤ ·) name := by
      simp [List.orderedInsert_eq_take_drop, List.takeWhile_map, List.dropWhile_map, Function.comp_def]
    have hle := (h.imp UInt64.le_of_lt).orderedInsert name
    have hdistinct := (List.perm_orderedInsert (· ≤ ·) name _).nodup_iff.mpr
      (List.nodup_cons.mpr ⟨hnot, nodup_of_lt h⟩)
    rw [hinsert]
    exact (hle.and hdistinct).imp fun hab => UInt64.lt_of_le_of_ne hab.1 hab.2

/-- In a directory in order, a file is found by its name. -/
theorem file?_eq_of_mem (h : (d.map Prod.fst).Pairwise (· < ·)) (hp : p ∈ d) :
    d.file? p.1 = some p.2 := by
  rw [file?, Sql.find?_key_eq_some (nodup_of_lt h) hp]
  rfl

theorem mem_of_file? {f : File} (h : d.file? n = some f) : (n, f) ∈ d := by
  obtain ⟨p, hp, rfl⟩ := Option.map_eq_some_iff.mp h
  have hn : p.1 = n := by simpa using List.find?_some hp
  rw [← hn]
  exact List.mem_of_find?_eq_some hp

end Dir

variable {fault : Fault} {w w' : Log} {ev : Event} {rec : Record} {ans : Option UInt64}

section

variable (crc : List UInt8 → UInt32)

/-! ### What stays on disk -/

/-- The synced bytes of a file hold its records also after a change, and stay inside it. -/
def Keeps (f f' : File) : Prop :=
  f'.synced ≤ f'.bytes.length ∧
    records crc (f.bytes.take f.synced) <+: records crc (f'.bytes.take f'.synced)

variable {crc} {f f' : File}

/-- A file whose first bytes are those that were synced. -/
theorem keeps_of_prefix (hok : f'.synced ≤ f'.bytes.length)
    (h : f.bytes.take f.synced <+: f'.bytes.take f'.synced) : Keeps crc f f' := by
  obtain ⟨more, hmore⟩ := h
  refine ⟨hok, ?_⟩
  rw [← hmore]
  exact records_append crc _ more

theorem keeps_sync : Keeps crc f f.sync := by
  refine keeps_of_prefix (Nat.le_refl _) ?_
  rw [File.sync, List.take_length]
  exact List.take_prefix _ _

theorem keeps_write (hok : f.synced ≤ f.bytes.length) (bytes : List UInt8) :
    Keeps crc f (f.write bytes) := by
  refine keeps_of_prefix ?_ ?_
  · rw [File.write, List.length_append]
    exact Nat.le_trans hok (Nat.le_add_right _ _)
  · simp only [File.write, List.take_append_of_le_length hok, List.prefix_rfl]

theorem Keeps.trans {f'' : File} (h : Keeps crc f f') (h' : Keeps crc f' f'') : Keeps crc f f'' :=
  ⟨h'.1, h.2.trans h'.2⟩

theorem keeps_tear (keep : Nat) : Keeps crc f (f.tear keep) := by
  refine keeps_of_prefix (Nat.le_refl _) ?_
  rw [File.tear, File.sync, List.take_length]
  exact List.take_prefix_take_left (Nat.le_max_left _ _)

/-- Cutting a torn tail off keeps the records. -/
theorem keeps_truncate : Keeps crc f (f.truncate (validEnd crc f.bytes)) := by
  have hend := (scan_split crc f.bytes).1
  refine ⟨?_, ?_⟩
  · rw [File.truncate, List.length_take]
    simp only
    omega
  · rw [File.truncate]
    simp only
    rcases Nat.le_total f.synced (validEnd crc f.bytes) with hle | hle
    · simp only [Nat.min_eq_left hle, List.take_take, List.prefix_rfl]
    · -- the records all end before the cut
      rw [Nat.min_eq_right hle, List.take_take, Nat.min_self, (records_take_validEnd crc f.bytes).1]
      have h := records_append crc (f.bytes.take f.synced) (f.bytes.drop f.synced)
      rwa [List.take_append_drop] at h

variable (crc)

/-- A record stands in the synced bytes of a file. -/
def Holds (d : Dir) (n : UInt64) (r : Record) : Prop :=
  ∃ f, d.file? n = some f ∧ r ∈ records crc (f.bytes.take f.synced)

/-- The files of a directory are in the order of their names, and no more is synced than there
    is. -/
structure DirOk (d : Dir) : Prop where
  sorted : (d.map Prod.fst).Pairwise (· < ·)
  synced : ∀ n f, d.file? n = some f → f.synced ≤ f.bytes.length

/-- A change of the directory that loses neither files nor synced records. -/
structure Extends (d d' : Dir) : Prop where
  ok : DirOk d'
  names : ∀ n, (d.file? n).isSome → (d'.file? n).isSome
  holds : ∀ n r, Holds crc d n r → Holds crc d' n r

variable {crc} {d d' d'' : Dir} {n name : UInt64} {r : Record}

theorem Extends.refl (h : DirOk d) : Extends crc d d := ⟨h, fun _ h => h, fun _ _ h => h⟩

theorem Extends.trans (h : Extends crc d d') (h' : Extends crc d' d'') : Extends crc d d'' :=
  ⟨h'.ok, fun n hn => h'.names n (h.names n hn), fun n r hr => h'.holds n r (h.holds n r hr)⟩

/-- Changing one file. -/
theorem Extends.update {g : File → File} (hok : DirOk d)
    (hg : ∀ f, d.file? name = some f → Keeps crc f (g f)) : Extends crc d (d.update name g) where
  ok := by
    refine ⟨by rw [Dir.map_fst_update]; exact hok.sorted, fun n f hf => ?_⟩
    rw [Dir.file?_update] at hf
    split at hf
    case isTrue hn =>
      obtain ⟨f₀, hf₀, rfl⟩ := Option.map_eq_some_iff.mp hf
      exact (hg f₀ (hn ▸ hf₀)).1
    case isFalse => exact hok.synced n f hf
  names n hn := by
    rw [Dir.file?_update]
    split
    · rwa [Option.isSome_map]
    · exact hn
  holds n r hr := by
    obtain ⟨f, hf, hr⟩ := hr
    unfold Holds
    rw [Dir.file?_update]
    split
    case isTrue hn => exact ⟨g f, by rw [hf]; rfl, (hg f (hn ▸ hf)).2.subset hr⟩
    case isFalse => exact ⟨f, hf, hr⟩

theorem Extends.create (hok : DirOk d) : Extends crc d (d.create name) where
  ok := by
    refine ⟨Dir.sorted_create hok.sorted, fun n f hf => ?_⟩
    rw [Dir.file?_create] at hf
    split at hf
    case isTrue =>
      cases hd : d.file? n with
      | none =>
        rw [hd] at hf
        obtain rfl := Option.some.inj hf
        exact Nat.le_refl _
      | some f₀ =>
        rw [hd] at hf
        obtain rfl := Option.some.inj hf
        exact hok.synced n _ hd
    case isFalse => exact hok.synced n f hf
  names n hn := by
    rw [Dir.file?_create]
    split
    · rfl
    · exact hn
  holds n r hr := by
    obtain ⟨f, hf, hr⟩ := hr
    refine ⟨f, ?_, hr⟩
    rw [Dir.file?_create]
    split
    · rw [hf]
      rfl
    · exact hf

theorem Extends.syncHandle (hok : DirOk d) (cur : Handle) : Extends crc d (syncHandle d cur) := by
  cases cur with
  | opened name => exact Extends.update hok fun _ _ => keeps_sync
  | closed => exact Extends.refl hok
  | none => exact Extends.refl hok

/-! ### What the calls keep -/

/-- The log's open file is there, and is that of its last segment. -/
def CurOk (d : Dir) (w : Log) : Prop :=
  ∀ n, w.cur = .opened n →
    (d.file? n).isSome ∧ w.segs.getLast?.map Segment.startSeq = some n

/-- The names of the log's segments. -/
def Log.names (w : Log) : List UInt64 := w.segs.map Segment.startSeq

theorem map_setMaxSeq (segs : List Segment) (seq : UInt64) :
    (setMaxSeq segs seq).map Segment.startSeq = segs.map Segment.startSeq := by
  unfold setMaxSeq
  cases h : segs.getLast? with
  | none => rfl
  | some s =>
    obtain ⟨segs', rfl⟩ := List.getLast?_eq_some_iff.mp h
    simp

/-- The file that the next record goes to. -/
def Log.target (w : Log) : Option UInt64 :=
  if w.full then some (w.seq + 1)
  else match w.cur with
    | .opened n => some n
    | _ => none

theorem rollLocked_spec (hok : DirOk d) (w : Log) (startSeq : UInt64) (fault : Fault) :
    Extends crc d (rollLocked d w startSeq fault).2.1 ∧
      CurOk (rollLocked d w startSeq fault).2.1 (rollLocked d w startSeq fault).2.2 ∧
      ((rollLocked d w startSeq fault).1 = true →
        (rollLocked d w startSeq fault).2.2.cur = .opened startSeq) := by
  have hsync : Extends crc d (syncHandle d w.cur) := Extends.syncHandle hok w.cur
  have hcreate : Extends crc d ((syncHandle d w.cur).create startSeq) :=
    hsync.trans (Extends.create hsync.ok)
  have hfailed : ∀ d', CurOk d' { w with cur := if w.cur = .none then .none else .closed } := by
    intro d' n hn
    simp only at hn
    split at hn <;> cases hn
  cases fault with
  | create => exact ⟨hsync, hfailed _, nofun⟩
  | syncDir => exact ⟨hcreate, hfailed _, nofun⟩
  | none | write _ | sync =>
    refine ⟨hcreate, fun n hn => ?_, fun _ => rfl⟩
    obtain rfl := Handle.opened.inj hn
    refine ⟨?_, by simp [rollLocked]⟩
    simp only [rollLocked]
    rw [Dir.file?_create, if_pos rfl]
    rfl

theorem rollLocked_names (d : Dir) (w : Log) (startSeq : UInt64) (fault : Fault) :
    (rollLocked d w startSeq fault).2.2.names
      = w.names ++ if (rollLocked d w startSeq fault).1 then [startSeq] else [] := by
  cases fault <;> simp [rollLocked, Log.names]

/-- **Writing a record.**  Without an open file only its number is used up; a write or a sync that fails
    leaves a part of the frame. -/
theorem writeRecord_cases (h : writeRecord crc d w rec fault = (ans, d', w')) :
    ((∀ n, w.cur ≠ .opened n) ∧ ans = none ∧ d' = d ∧ w' = { w with seq := w.seq + 1 }) ∨
    ∃ n, w.cur = .opened n ∧
      ((∃ k, fault ≠ .none ∧ ans = none ∧ w' = { w with seq := w.seq + 1 } ∧
          d' = d.update n (File.write · ((frame crc { rec with seq := w.seq + 1 }).take k))) ∨
        (fault = .none ∨ fault = .create ∨ fault = .syncDir) ∧ ans = some (w.seq + 1) ∧
          d' = d.update n (fun f => (f.write (frame crc { rec with seq := w.seq + 1 })).sync) ∧
          w' = { w with
            seq := w.seq + 1, curBytes := w.curBytes + (frame crc { rec with seq := w.seq + 1 }).length,
            segs := setMaxSeq w.segs (w.seq + 1) }) := by
  obtain ⟨last, segs, cur, curBytes⟩ := w
  cases cur with
  | closed | none =>
    cases h
    exact .inl ⟨nofun, rfl, rfl, rfl⟩
  | opened n =>
    refine .inr ⟨n, rfl, ?_⟩
    cases fault with
    | write k =>
      cases h
      exact .inl ⟨k, nofun, rfl, rfl, rfl⟩
    | sync =>
      cases h
      refine .inl ⟨frameLen, nofun, rfl, rfl, ?_⟩
      rw [List.take_of_length_le (by rw [length_frame])]
    | none | create | syncDir =>
      cases h
      exact .inr ⟨by simp, rfl, rfl, rfl⟩

theorem writeRecord_names (h : writeRecord crc d w rec fault = (ans, d', w')) :
    w'.names = w.names ∧ w'.cur = w.cur := by
  rcases writeRecord_cases h with ⟨-, -, -, rfl⟩ | ⟨n, -, ⟨k, -, -, rfl, -⟩ | ⟨-, -, -, rfl⟩⟩
  · exact ⟨rfl, rfl⟩
  · exact ⟨rfl, rfl⟩
  · exact ⟨map_setMaxSeq _ _, rfl⟩

/-- A record goes to a segment of the log, or to a new one that is open now. -/
theorem append_names (h : append crc d w rec fault = (ans, d', w')) :
    w'.names = w.names ∨ ∃ n, w'.cur = .opened n ∧ w'.names = w.names ++ [n] := by
  unfold append at h
  split at h
  case isTrue =>
    have hnames := rollLocked_names d w (w.seq + 1) fault
    rcases hroll : rollLocked d w (w.seq + 1) fault with ⟨ok, d₁, w₁⟩
    rw [hroll] at h hnames
    cases ok with
    | false =>
      cases h
      exact .inl (by simpa using hnames)
    | true =>
      have hopen : w₁.cur = .opened (w.seq + 1) := by
        cases fault <;> cases hroll <;> rfl
      have hwrite := writeRecord_names h
      exact .inr ⟨w.seq + 1, hwrite.2.trans hopen, hwrite.1.trans (by simpa using hnames)⟩
  case isFalse => exact .inl (writeRecord_names h).1

/-- The bytes of the file that is rolled to are as they were. -/
theorem rollLocked_bytes {startSeq : UInt64} {ok : Bool}
    (h : rollLocked d w startSeq fault = (ok, d', w')) (f : File) (hf : d'.file? startSeq = some f) :
    f.bytes = [] ∨ ∃ f₀, d.file? startSeq = some f₀ ∧ f₀.bytes = f.bytes := by
  have hsync : ∀ f, (syncHandle d w.cur).file? startSeq = some f →
      ∃ f₀, d.file? startSeq = some f₀ ∧ f₀.bytes = f.bytes := by
    intro f hf
    cases hcur : w.cur with
    | opened name =>
      rw [hcur, syncHandle, Dir.file?_update] at hf
      split at hf
      · obtain ⟨f₀, hf₀, rfl⟩ := Option.map_eq_some_iff.mp hf
        exact ⟨f₀, hf₀, rfl⟩
      · exact ⟨f, hf, rfl⟩
    | closed =>
      rw [hcur] at hf
      exact ⟨f, hf, rfl⟩
    | none =>
      rw [hcur] at hf
      exact ⟨f, hf, rfl⟩
  have hcreate : ((syncHandle d w.cur).create startSeq).file? startSeq = some f →
      f.bytes = [] ∨ ∃ f₀, d.file? startSeq = some f₀ ∧ f₀.bytes = f.bytes := by
    intro hf
    rw [Dir.file?_create, if_pos rfl] at hf
    cases hd : (syncHandle d w.cur).file? startSeq with
    | none =>
      rw [hd] at hf
      obtain rfl := Option.some.inj hf
      exact .inl rfl
    | some f₁ =>
      rw [hd] at hf
      obtain rfl := Option.some.inj hf
      exact .inr (hsync _ hd)
  cases fault with
  | create =>
    cases h
    exact .inr (hsync f hf)
  | syncDir | none | write _ | sync =>
    cases h
    exact hcreate hf

/-- Writing a record keeps what is there; a record that is acknowledged is there too, when its file
    was clean. -/
theorem writeRecord_spec (hok : DirOk d) (hcur : CurOk d w)
    (h : writeRecord crc d w rec fault = (ans, d', w')) :
    Extends crc d d' ∧ CurOk d' w' ∧ ∀ seq, ans = some seq → ∃ n, w.cur = .opened n ∧ w'.cur = .opened n ∧
      ((∀ f, d.file? n = some f → Clean crc f.bytes) → Holds crc d' n { rec with seq := seq }) := by
  obtain ⟨hnames, hcur'⟩ := writeRecord_names h
  have hkept : Extends crc d d' → Extends crc d d' ∧ CurOk d' w' := by
    refine fun hext => ⟨hext, fun n hn => ?_⟩
    obtain ⟨hfile, hlast⟩ := hcur n (hcur' ▸ hn)
    refine ⟨hext.names n hfile, ?_⟩
    rw [← List.getLast?_map] at hlast ⊢
    exact (congrArg List.getLast? hnames).trans hlast
  rcases writeRecord_cases h with ⟨-, rfl, rfl, -⟩ | ⟨n, hn, ⟨k, -, rfl, -, rfl⟩ | ⟨-, rfl, rfl, rfl⟩⟩
  · obtain ⟨hext, hcur''⟩ := hkept (Extends.refl hok)
    exact ⟨hext, hcur'', nofun⟩
  · obtain ⟨hext, hcur''⟩ := hkept (Extends.update hok fun f hf => keeps_write (hok.synced n f hf) _)
    exact ⟨hext, hcur'', nofun⟩
  · obtain ⟨hext, hcur''⟩ := hkept (Extends.update hok fun f hf =>
      (keeps_write (hok.synced n f hf) _).trans keeps_sync)
    refine ⟨hext, hcur'', fun seq hseq => ⟨n, hn, hn, fun hclean => ?_⟩⟩
    obtain rfl := Option.some.inj hseq
    -- the frame is appended to a clean file and synced with it
    obtain ⟨f, hf⟩ := Option.isSome_iff_exists.mp (hcur n hn).1
    refine ⟨_, by rw [Dir.file?_update, if_pos rfl, hf]; rfl, ?_⟩
    simp only [File.sync, File.write, List.take_length]
    rw [records_clean crc (hclean f hf), records_frame]
    simp

/-- Appending a record keeps what is there; a record that is acknowledged is there too, when the
    file that it went to was clean. -/
theorem append_spec (hok : DirOk d) (hcur : CurOk d w)
    (h : append crc d w rec fault = (ans, d', w')) :
    Extends crc d d' ∧ CurOk d' w' ∧ ∀ seq, ans = some seq → ∃ n, w'.cur = .opened n ∧
      ((∀ m ∈ w.target, ∀ f, d.file? m = some f → Clean crc f.bytes) →
        Holds crc d' n { rec with seq := seq }) := by
  unfold append at h
  unfold Log.target
  split at h
  case isTrue hfull =>
    rw [if_pos hfull]
    obtain ⟨hext, hcur', hopen⟩ : Extends crc d _ ∧ _ := rollLocked_spec hok w (w.seq + 1) fault
    rcases hroll : rollLocked d w (w.seq + 1) fault with ⟨ok, d₁, w₁⟩
    rw [hroll] at h hext hcur' hopen
    cases ok with
    | false =>
      cases h
      exact ⟨hext, hcur', nofun⟩
    | true =>
      obtain ⟨hext₁, hcur₁, hack⟩ := writeRecord_spec hext.ok hcur' h
      refine ⟨hext.trans hext₁, hcur₁, fun seq hseq => ?_⟩
      obtain ⟨n, hn, hn', hholds⟩ := hack seq hseq
      refine ⟨n, hn', fun hclean => hholds fun f hf => ?_⟩
      obtain rfl : w.seq + 1 = n := Handle.opened.inj ((hopen rfl).symm.trans hn)
      rcases rollLocked_bytes hroll f hf with hnil | ⟨f₀, hf₀, heq⟩
      · rw [hnil]
        rfl
      · rw [← heq]
        exact hclean _ rfl f₀ hf₀
  case isFalse hfull =>
    rw [if_neg hfull]
    obtain ⟨hext, hcur', hack⟩ := writeRecord_spec hok hcur h
    refine ⟨hext, hcur', fun seq hseq => ?_⟩
    obtain ⟨n, hn, hn', hholds⟩ := hack seq hseq
    refine ⟨n, hn', fun hclean => hholds fun f hf => hclean n ?_ f hf⟩
    rw [hn]
    rfl

end

/-! ### Histories -/

/-- A world, and the records that were acknowledged and not covered by a checkpoint since, each with
    the segment it is in. -/
structure Monitor where
  world : World
  acked : List (UInt64 × Record)
  deriving DecidableEq, Repr

/-- An empty directory that no log uses. -/
def Monitor.start : Monitor := ⟨⟨[], none⟩, []⟩

/-- The open segment. -/
def Log.name (w : Log) : UInt64 :=
  match w.cur with
  | .opened n => n
  | _ => 0

/-- A record is in a segment that a checkpoint drops, and in none that it keeps. -/
def Log.covers (w : Log) (upToSeq : UInt64) (p : UInt64 × Record) : Bool :=
  ∃ s ∈ w.dropped upToSeq, s.startSeq = p.1 ∧
    (p.2.seq ≤ s.maxSeq ∨ ∀ k ∈ w.kept upToSeq, k.startSeq ≠ p.1)

section

variable (crc : List UInt8 → UInt32) {d d' : Dir}

/-- The acknowledged records after an event. -/
def Monitor.ackedAfter (m : Monitor) : Event → List (UInt64 × Record)
  | .append rec fault =>
    match m.world.wal with
    | some w =>
      match append crc m.world.dir w rec fault with
      | (some seq, _, w') => m.acked ++ [(w'.name, { rec with seq := seq })]
      | (none, _, _) => m.acked
    | none => m.acked
  | .checkpoint upToSeq =>
    match m.world.wal with
    | some w => m.acked.filter fun p => !w.covers upToSeq p
    | none => m.acked
  | _ => m.acked

/-- The monitor after an event. -/
def Monitor.step (m : Monitor) (ev : Event) : Monitor := ⟨m.world.step crc ev, m.ackedAfter crc ev⟩

/-- The append fails. -/
def Fault.fails (w : Log) : Fault → Prop
  | .none => False
  | .create | .syncDir => w.full
  | .write _ | .sync => True

instance (w : Log) : (fault : Fault) → Decidable (fault.fails w)
  | .none => inferInstanceAs (Decidable False)
  | .create | .syncDir => inferInstanceAs (Decidable w.full)
  | .write _ | .sync => inferInstanceAs (Decidable True)

/-- The file that the next record goes to can be scanned to its end. -/
def CleanTarget (d : Dir) (w : Log) : Prop := ∀ f ∈ w.target.bind d.file?, Clean crc f.bytes

instance (d : Dir) (w : Log) : Decidable (CleanTarget crc d w) :=
  inferInstanceAs (Decidable (∀ f ∈ w.target.bind d.file?, Clean crc f.bytes))

/-- An append that succeeds has a clean file before it, and no checkpoint removes the file of a
    segment that it keeps. -/
def Sound (m : Monitor) : Event → Prop
  | .append _ fault => ∀ w ∈ m.world.wal, fault.fails w ∨ CleanTarget crc m.world.dir w
  | .checkpoint upToSeq => ∀ w ∈ m.world.wal,
    ∀ s ∈ w.dropped upToSeq, ∀ k ∈ w.kept upToSeq, k.startSeq ≠ s.startSeq
  | _ => True

instance (m : Monitor) : (ev : Event) → Decidable (Sound crc m ev)
  | .append _ fault =>
    inferInstanceAs (Decidable (∀ w ∈ m.world.wal, fault.fails w ∨ CleanTarget crc m.world.dir w))
  | .checkpoint upToSeq => inferInstanceAs (Decidable (∀ w ∈ m.world.wal,
      ∀ s ∈ w.dropped upToSeq, ∀ k ∈ w.kept upToSeq, k.startSeq ≠ s.startSeq))
  | .close | .open | .crash _ => inferInstanceAs (Decidable True)

/-- Every acknowledged record is on disk, and a running log has its segment. -/
structure Durable (m : Monitor) : Prop where
  ok : DirOk m.world.dir
  holds : ∀ p ∈ m.acked, Holds crc m.world.dir p.1 p.2
  running : ∀ w, m.world.wal = some w → CurOk m.world.dir w ∧
    (∀ n ∈ w.names, (m.world.dir.file? n).isSome) ∧ ∀ p ∈ m.acked, p.1 ∈ w.names

variable {crc}

theorem mem_names_of_cur {n : UInt64} (h : CurOk d w) (hn : w.cur = .opened n) :
    n ∈ w.names := by
  have hlast := (h n hn).2
  rw [← List.getLast?_map] at hlast
  exact List.mem_of_getLast? hlast

theorem fails_answer (hfails : fault.fails w) (h : append crc d w rec fault = (ans, d', w')) :
    ans = none := by
  -- what reaches the file was not made to fail there
  have hwrite : ∀ {d₁ : Dir} {w₁ : Log}, writeRecord crc d₁ w₁ rec fault = (ans, d', w') →
      ans = none ∨ fault = .create ∨ fault = .syncDir := by
    intro d₁ w₁ h
    rcases writeRecord_cases h with ⟨-, rfl, -⟩ | ⟨n, -, ⟨k, -, rfl, -⟩ | ⟨rfl | hrest, -⟩⟩
    · exact .inl rfl
    · exact .inl rfl
    · exact hfails.elim
    · exact .inr hrest
  unfold append at h
  split at h
  case isTrue hfull =>
    cases fault with
    | create | syncDir =>
      cases h
      rfl
    | none | write _ | sync => simpa using hwrite h
  case isFalse hfull =>
    rcases hwrite h with hnone | rfl | rfl
    · exact hnone
    · exact absurd hfails hfull
    · exact absurd hfails hfull

variable {m : Monitor}

/-- Only opening a log does something when none is open. -/
theorem step_of_stopped (hw : m.world.wal = none) (hev : ev ≠ .open) :
    m.step crc ev = m := by
  cases ev with
  | «open» => exact absurd rfl hev
  | _ => simp only [Monitor.step, Monitor.ackedAfter, World.step, hw]

/-- So only a running log has to be looked at. -/
theorem Durable.of_running (h : Durable crc m) (hev : ev ≠ .open)
    (hstep : ∀ w, m.world.wal = some w → Durable crc (m.step crc ev)) : Durable crc (m.step crc ev) := by
  cases hw : m.world.wal with
  | none =>
    rw [step_of_stopped hw hev]
    exact h
  | some w => exact hstep w hw

theorem Durable.append (h : Durable crc m)
    (hsound : Sound crc m (.append rec fault)) : Durable crc (m.step crc (.append rec fault)) := by
  refine h.of_running (by simp) fun w hw => ?_
  obtain ⟨hcur, hnames, hsegs⟩ := h.running w hw
  rcases happ : Wal.append crc m.world.dir w rec fault with ⟨ans, d', w'⟩
  obtain ⟨hext, hcur', hack⟩ := append_spec h.ok hcur happ
  have hstep : m.step crc (.append rec fault) = ⟨⟨d', some w'⟩, match ans with
      | some seq => m.acked ++ [(w'.name, { rec with seq := seq })]
      | none => m.acked⟩ := by
    simp only [Monitor.step, Monitor.ackedAfter, World.step, hw, happ]
    cases ans <;> rfl
  -- what the record's own number adds to the acknowledged ones
  have hnew : ∀ seq, ans = some seq → Holds crc d' w'.name { rec with seq := seq } ∧
      w'.name ∈ w'.names := by
    intro seq hseq
    obtain ⟨n, hn, hholds⟩ := hack seq hseq
    have hname : w'.name = n := by rw [Log.name, hn]
    rw [hname]
    refine ⟨hholds fun m' hm' f hf => ?_, mem_names_of_cur hcur' hn⟩
    rcases hsound w hw with hfails | hclean
    · rw [fails_answer hfails happ] at hseq
      cases hseq
    · exact hclean f (Option.bind_eq_some_iff.mpr ⟨m', hm', hf⟩)
  have hmono : ∀ n ∈ w.names, n ∈ w'.names := by
    intro n hn
    rcases append_names happ with heq | ⟨k, -, heq⟩
    · rwa [heq]
    · rw [heq]
      exact List.mem_append_left _ hn
  have hfiles : ∀ n ∈ w'.names, (d'.file? n).isSome := by
    intro n hn
    rcases append_names happ with heq | ⟨k, hk, heq⟩
    · rw [heq] at hn
      exact hext.names n (hnames n hn)
    · rw [heq] at hn
      rcases List.mem_append.mp hn with hn | hn
      · exact hext.names n (hnames n hn)
      · rw [List.mem_singleton.mp hn]
        exact (hcur' k hk).1
  rw [hstep]
  refine ⟨hext.ok, fun p hp => ?_, fun w'' hw'' => ?_⟩
  · cases ans with
    | none => exact hext.holds _ _ (h.holds p hp)
    | some seq =>
      rcases List.mem_append.mp hp with hp | hp
      · exact hext.holds _ _ (h.holds p hp)
      · rw [List.mem_singleton.mp hp]
        exact (hnew seq rfl).1
  · obtain rfl := Option.some.inj hw''
    refine ⟨hcur', hfiles, fun p hp => ?_⟩
    cases ans with
    | none => exact hmono _ (hsegs p hp)
    | some seq =>
      rcases List.mem_append.mp hp with hp | hp
      · exact hmono _ (hsegs p hp)
      · rw [List.mem_singleton.mp hp]
        exact (hnew seq rfl).2

theorem mem_segs_iff (w : Log) (upToSeq : UInt64) (s : Segment) :
    s ∈ w.segs ↔ s ∈ w.dropped upToSeq ∨ s ∈ w.kept upToSeq := by
  have hsplit : s ∈ w.segs ↔ s ∈ w.segs.dropLast ∨ w.segs.getLast? = some s := by
    rcases List.eq_nil_or_concat w.segs with hnil | ⟨init, last, hlast⟩
    · simp [hnil]
    · simp [hlast, eq_comm]
  rw [hsplit, Log.dropped, Log.kept, List.mem_append, List.mem_filter, List.mem_filter,
    Option.mem_toList]
  cases s.covered upToSeq <;> simp

theorem getLast?_kept (w : Log) (upToSeq : UInt64) :
    (w.kept upToSeq).getLast? = w.segs.getLast? := by
  rw [Log.kept]
  rcases List.eq_nil_or_concat w.segs with hnil | ⟨init, last, hlast⟩
  · simp [hnil]
  · simp [hlast]

section

variable (h : Durable crc m)

include h

theorem Durable.checkpoint {upToSeq : UInt64}
    (hsound : Sound crc m (.checkpoint upToSeq)) :
    Durable crc (m.step crc (.checkpoint upToSeq)) := by
  refine h.of_running (by simp) fun w hw => ?_
  obtain ⟨hcur, hnames, hsegs⟩ := h.running w hw
  have hstep : m.step crc (.checkpoint upToSeq)
      = ⟨⟨m.world.dir.remove ((w.dropped upToSeq).map Segment.startSeq),
          some { w with segs := w.kept upToSeq }⟩,
        m.acked.filter fun p => !w.covers upToSeq p⟩ := by
    simp only [Monitor.step, Monitor.ackedAfter, World.step, hw, Wal.checkpoint]
  -- a kept segment's file is not removed
  have hkeep : ∀ k ∈ w.kept upToSeq, (m.world.dir.remove
      ((w.dropped upToSeq).map Segment.startSeq)).file? k.startSeq
        = m.world.dir.file? k.startSeq := by
    intro k hk
    rw [Dir.file?_remove, if_neg]
    intro hmem
    obtain ⟨s, hs, heq⟩ := List.mem_map.mp hmem
    exact hsound w hw s hs k hk heq.symm
  have hacked : ∀ p ∈ m.acked.filter (fun p => !w.covers upToSeq p), p ∈ m.acked ∧
      ∃ k ∈ w.kept upToSeq, k.startSeq = p.1 := by
    intro p hp
    obtain ⟨hp, huncovered⟩ := List.mem_filter.mp hp
    refine ⟨hp, ?_⟩
    obtain ⟨s, hs, hname⟩ := List.mem_map.mp (hsegs p hp)
    rcases (mem_segs_iff w upToSeq s).mp hs with hs | hs
    · simp only [Log.covers, Bool.not_eq_true', decide_eq_false_iff_not, not_exists, not_and,
        not_or, not_forall] at huncovered
      obtain ⟨-, k, hk, hkname⟩ := huncovered s hs hname
      exact ⟨k, hk, not_not.mp hkname⟩
    · exact ⟨s, hs, hname⟩
  rw [hstep]
  refine ⟨⟨?_, fun n f hf => ?_⟩, fun p hp => ?_, fun w' hw' => ?_⟩
  · exact h.ok.sorted.sublist (List.filter_sublist.map _)
  · rw [Dir.file?_remove] at hf
    split at hf
    · cases hf
    · exact h.ok.synced n f hf
  · obtain ⟨hp, k, hk, hkname⟩ := hacked p hp
    obtain ⟨f, hf, hr⟩ := h.holds p hp
    exact ⟨f, by rw [← hkname, hkeep k hk, hkname, hf], hr⟩
  · obtain rfl := Option.some.inj hw'
    refine ⟨fun n hn => ?_, fun n hn => ?_, fun p hp => ?_⟩
    · obtain ⟨hfile, hlast⟩ := hcur n hn
      obtain ⟨last, hlast', hlastname⟩ := Option.map_eq_some_iff.mp hlast
      have hmem : last ∈ w.kept upToSeq :=
        List.mem_of_getLast? ((getLast?_kept w upToSeq).trans hlast')
      refine ⟨?_, (congrArg _ (getLast?_kept w upToSeq)).trans hlast⟩
      rw [← hlastname, hkeep last hmem, hlastname]
      exact hfile
    · obtain ⟨k, hk, rfl⟩ := List.mem_map.mp hn
      show ((m.world.dir.remove _).file? k.startSeq).isSome
      rw [hkeep k hk]
      exact hnames _ (List.mem_map.mpr ⟨k, (mem_segs_iff w upToSeq k).mpr (.inr hk), rfl⟩)
    · obtain ⟨-, k, hk, hkname⟩ := hacked p hp
      exact List.mem_map.mpr ⟨k, hk, hkname⟩

/-- An event that only changes the directory keeps the acknowledged records. -/
theorem Durable.of_extends {wal : Option Log}
    (hext : Extends crc m.world.dir d') (hrunning : ∀ w, wal = some w →
      CurOk d' w ∧ (∀ n ∈ w.names, (d'.file? n).isSome) ∧ ∀ p ∈ m.acked, p.1 ∈ w.names) :
    Durable crc ⟨⟨d', wal⟩, m.acked⟩ :=
  ⟨hext.ok, fun p hp => hext.holds _ _ (h.holds p hp), hrunning⟩

theorem Durable.close : Durable crc (m.step crc .close) := by
  refine h.of_running (by simp) fun w hw => ?_
  obtain ⟨hcur, hnames, hsegs⟩ := h.running w hw
  have hstep : m.step crc .close
      = ⟨⟨(Wal.close m.world.dir w).1, some (Wal.close m.world.dir w).2⟩, m.acked⟩ := by
    simp only [Monitor.step, Monitor.ackedAfter, World.step, hw]
  rw [hstep]
  unfold Wal.close
  split
  case h_1 name hname =>
    have hext : Extends crc m.world.dir (m.world.dir.update name File.sync) :=
      Extends.update h.ok fun _ _ => keeps_sync
    refine h.of_extends hext fun w' hw' => ?_
    obtain rfl := Option.some.inj hw'
    exact ⟨nofun, fun n hn => hext.names n (hnames n hn), hsegs⟩
  case h_2 =>
    refine h.of_extends (Extends.refl h.ok) fun w' hw' => ?_
    obtain rfl := Option.some.inj hw'
    exact ⟨hcur, hnames, hsegs⟩

theorem Durable.crash (keep : Nat) :
    Durable crc (m.step crc (.crash keep)) := by
  cases hw : m.world.wal with
  | none =>
    rw [step_of_stopped hw (by simp)]
    exact h
  | some w =>
    have hstep : m.step crc (.crash keep) = ⟨⟨tear m.world.dir w keep, none⟩, m.acked⟩ := by
      simp only [Monitor.step, Monitor.ackedAfter, World.step, hw]
    have hext : Extends crc m.world.dir (tear m.world.dir w keep) := by
      unfold tear
      split
      · exact Extends.update h.ok fun _ _ => keeps_tear keep
      · exact Extends.refl h.ok
    rw [hstep]
    exact h.of_extends hext nofun

end

/-- Opening the log keeps what is on disk, and finds every file of the directory. -/
theorem load_spec (hok : DirOk d) :
    Extends crc d (load crc d).1 ∧ CurOk (load crc d).1 (load crc d).2 ∧
      (∀ n ∈ (load crc d).2.names, ((load crc d).1.file? n).isSome) ∧
      ∀ n, (d.file? n).isSome → n ∈ (load crc d).2.names := by
  cases hlast : d.getLast? with
  | none =>
    obtain rfl := List.getLast?_eq_none_iff.mp hlast
    obtain ⟨hext, hcur, hopen⟩ : Extends crc [] _ ∧ _ ∧ _ :=
      rollLocked_spec hok (⟨0, [], .none, 0⟩ : Log) 1 .none
    refine ⟨hext, hcur, fun n hn => ?_, nofun⟩
    have hn' : n = 1 := by simpa [load, rollLocked, Log.names] using hn
    rw [hn']
    exact (hcur 1 (hopen rfl)).1
  | some p =>
    obtain ⟨name, f⟩ := p
    generalize hsegs : d.map (fun p => (⟨p.1, maxSeqOf (records crc p.2.bytes)⟩ : Segment)) = segs
    generalize hseq : segs.foldl (fun m s => if s.maxSeq > m then s.maxSeq else m) 0 = seq
    have hload : load crc d = (d.update name (File.truncate · (validEnd crc f.bytes)),
        ⟨seq, segs, .opened name, validEnd crc f.bytes⟩) := by
      unfold load
      simp only [hlast, hsegs, hseq]
    have hnames : segs.map Segment.startSeq = d.map Prod.fst := by
      rw [← hsegs, List.map_map]
      rfl
    have hfile : d.file? name = some f :=
      Dir.file?_eq_of_mem hok.sorted (List.mem_of_getLast? hlast)
    have hext : Extends crc d (d.update name (File.truncate · (validEnd crc f.bytes))) := by
      refine Extends.update hok fun f' hf' => ?_
      obtain rfl : f = f' := Option.some.inj (hfile.symm.trans hf')
      exact keeps_truncate
    rw [hload]
    refine ⟨hext, fun n hn => ?_, fun n hn => ?_, fun n hn => ?_⟩
    · obtain rfl := Handle.opened.inj hn
      refine ⟨hext.names name (by rw [hfile]; rfl), ?_⟩
      rw [← List.getLast?_map, hnames, List.getLast?_map, hlast]
      rfl
    · have hn' : n ∈ d.map Prod.fst := hnames ▸ hn
      obtain ⟨p, hp, rfl⟩ := List.mem_map.mp hn'
      exact hext.names p.1 (Dir.file?_of_mem hp)
    · obtain ⟨f', hf'⟩ := Option.isSome_iff_exists.mp hn
      show n ∈ segs.map Segment.startSeq
      rw [hnames]
      exact List.mem_map.mpr ⟨_, Dir.mem_of_file? hf', rfl⟩

theorem Durable.open (h : Durable crc m) : Durable crc (m.step crc .open) := by
  obtain ⟨hext, hcur, hfiles, hnames⟩ : Extends crc m.world.dir _ ∧ _ := load_spec h.ok
  refine h.of_extends hext fun w hw => ?_
  obtain rfl := Option.some.inj hw
  refine ⟨hcur, hfiles, fun p hp => hnames p.1 ?_⟩
  obtain ⟨f, hf, -⟩ := h.holds p hp
  rw [hf]
  rfl

theorem Durable.step (ev : Event) (hsound : Sound crc m ev) (h : Durable crc m) :
    Durable crc (m.step crc ev) := by
  cases ev with
  | append rec fault => exact h.append hsound
  | checkpoint upToSeq => exact h.checkpoint hsound
  | close => exact h.close
  | «open» => exact h.open
  | crash keep => exact h.crash keep

theorem durable_start : Durable crc Monitor.start :=
  ⟨⟨List.Pairwise.nil, nofun⟩, nofun,
    nofun⟩

/-- A replay delivers the records of every segment. -/
theorem mem_replaySegs (crc : List UInt8 → UInt32) {segs : List Segment}
    (hfiles : ∀ s ∈ segs, (d.file? s.startSeq).isSome) :
    ∃ rs, replaySegs crc d segs = some rs ∧ ∀ s ∈ segs, ∀ f, d.file? s.startSeq = some f →
      ∀ r ∈ records crc f.bytes, r ∈ rs := by
  induction segs with
  | nil => exact ⟨[], rfl, nofun⟩
  | cons s segs ih =>
    obtain ⟨rest, hrest, hmem⟩ := ih fun s' hs' => hfiles s' (List.mem_cons_of_mem _ hs')
    obtain ⟨f, hf⟩ := Option.isSome_iff_exists.mp (hfiles s List.mem_cons_self)
    refine ⟨records crc f.bytes ++ rest, by simp only [replaySegs, hf, hrest], ?_⟩
    intro s' hs' f' hf' r hr
    rcases List.mem_cons.mp hs' with rfl | hs'
    · obtain rfl : f = f' := Option.some.inj (hf.symm.trans hf')
      exact List.mem_append_left _ hr
    · exact List.mem_append_right _ (hmem s' hs' f' hf' r hr)

theorem Durable.delivers (h : Durable crc m) (hw : m.world.wal = some w) :
    ∃ rs, m.world.replay crc = some rs ∧ ∀ p ∈ m.acked, p.2 ∈ rs := by
  obtain ⟨-, hfiles, hsegs⟩ := h.running w hw
  have hseg : ∀ s ∈ w.segs, (m.world.dir.file? s.startSeq).isSome := fun s hs =>
    hfiles _ (List.mem_map.mpr ⟨s, hs, rfl⟩)
  obtain ⟨rs, hrs, hmem⟩ := mem_replaySegs crc hseg
  refine ⟨rs, by rw [World.replay, hw]; exact hrs, fun p hp => ?_⟩
  obtain ⟨s, hs, hname⟩ := List.mem_map.mp (hsegs p hp)
  obtain ⟨f, hf, hr⟩ := h.holds p hp
  refine hmem s hs f (hname ▸ hf) p.2 ?_
  -- what is synced is a first part of the file
  have hprefix := records_append crc (f.bytes.take f.synced) (f.bytes.drop f.synced)
  rw [List.take_append_drop] at hprefix
  exact hprefix.subset hr

variable (crc)

/-- **What the log delivers.**  After any history whose steps are sound, and whenever a log is
    open, `Replay` succeeds and hands out every record that was acknowledged and that no checkpoint
    covered. -/
theorem delivers_acked (evs : List Event)
    (hsound : Guarded (Monitor.step crc) (Sound crc) Monitor.start evs)
    (hopen : (run (Monitor.step crc) Monitor.start evs).world.wal.isSome) :
    ∃ rs, (run (Monitor.step crc) Monitor.start evs).world.replay crc = some rs ∧
      ∀ p ∈ (run (Monitor.step crc) Monitor.start evs).acked, p.2 ∈ rs := by
  obtain ⟨w, hw⟩ := Option.isSome_iff_exists.mp hopen
  have hdurable : Durable crc (run (Monitor.step crc) Monitor.start evs) :=
    Runs.invariant_of_guarded (Durable crc) (fun m ev h hev => Durable.step ev hev h) durable_start
      hsound
  exact hdurable.delivers hw

/-- A record of a history. -/
def sample (ino : UInt64) : Record := ⟨0, 1, ino, 0, 0, 7, 10, 0, 10⟩

/-- A torn frame that a crash cuts off before the next append. -/
theorem delivers_acked_after_crash :
    ∃ rs, (run (Monitor.step fun _ => 0) Monitor.start [.open, .append (sample 2) .none,
        .append (sample 3) (.write 20), .crash 60, .open, .append (sample 4) .none]).world.replay
          (fun _ => 0) = some rs ∧
      ∀ p ∈ [((1 : UInt64), { sample 2 with seq := 1 }), (1, { sample 4 with seq := 2 })],
        p.2 ∈ rs :=
  delivers_acked (fun _ => 0) [.open, .append (sample 2) .none, .append (sample 3) (.write 20),
    .crash 60, .open, .append (sample 4) .none] (by decide) (by decide)

theorem frame_front (r : Record) :
    frame crc r = [0, 0, 0, 45] ++ (BigEndian.encode 4 (crc r.marshal).toNat ++ r.marshal) := by
  rw [frame, length_marshal, List.append_assoc]
  rfl

/-- Behind a single byte of a frame no frame is found. -/
theorem records_torn (r : Record) : records crc (0 :: frame crc r) = [] := by
  refine records_of_none crc ?_
  have hlen : ¬ (0 :: frame crc r).length < 8 := by
    simp only [List.length_cons, length_frame]
    decide
  have hplen : field (0 :: frame crc r) 0 4 = 0 := by
    rw [frame_front]
    rfl
  rw [readFrame, if_neg hlen, hplen]
  rfl

/-- The first append fails after one byte, the second succeeds and is acknowledged; after a restart
    nothing is replayed, whatever the checksum is. -/
theorem torn_frame_hides_record (crc : List UInt8 → UInt32) :
    let m := run (Monitor.step crc) Monitor.start
      [.open, .append (sample 2) (.write 1), .append (sample 3) .none, .open]
    m.acked = [(1, { sample 3 with seq := 2 })] ∧ m.world.replay crc = some [] := by
  intro m
  have hfirst : (frame crc { sample 2 with seq := 1 }).take 1 = [0] := by
    rw [frame_front]
    rfl
  have hfailed : append crc [(1, ⟨[], 0⟩)] ⟨0, [⟨1, 0⟩], .opened 1, 0⟩ (sample 2) (.write 1)
      = (none, [(1, ⟨[0], 0⟩)], ⟨1, [⟨1, 0⟩], .opened 1, 0⟩) := by
    rw [append, if_neg (by decide), writeRecord]
    simp [Dir.update, File.write, hfirst]
  have happended : append crc [(1, ⟨[0], 0⟩)] ⟨1, [⟨1, 0⟩], .opened 1, 0⟩ (sample 3) .none
      = (some 2, [(1, ⟨0 :: frame crc { sample 3 with seq := 2 }, 54⟩)],
        ⟨2, [⟨1, 2⟩], .opened 1, 53⟩) := by
    rw [append, if_neg (by decide), writeRecord]
    simp [Dir.update, File.write, File.sync, frameLen, recordPayloadLen, setMaxSeq]
  have hloaded : load crc [(1, ⟨0 :: frame crc { sample 3 with seq := 2 }, 54⟩)]
      = ([(1, ⟨[], 0⟩)], ⟨0, [⟨1, 0⟩], .opened 1, 0⟩) := by
    simp [load, Dir.update, File.truncate, validEnd, records_torn, maxSeqOf]
  have hopened : Monitor.start.step crc .open
      = ⟨⟨[(1, ⟨[], 0⟩)], some ⟨0, [⟨1, 0⟩], .opened 1, 0⟩⟩, []⟩ := rfl
  have hm : m = ⟨⟨[(1, ⟨[], 0⟩)], some ⟨0, [⟨1, 0⟩], .opened 1, 0⟩⟩,
      [(1, { sample 3 with seq := 2 })]⟩ := by
    simp only [m, run_cons, run_nil, hopened]
    simp only [Monitor.step, Monitor.ackedAfter, World.step, hfailed, happended, hloaded, Log.name,
      List.nil_append]
  rw [hm]
  exact ⟨rfl, rfl⟩

/-- A checksum for runs: the sum of the bytes. -/
def byteSum (bytes : List UInt8) : UInt32 := bytes.foldl (fun acc b => acc + b.toUInt32) 0

/-- **A record is lost behind a torn frame.**  The write that failed left one byte in the segment, and
    the record that was acknowledged after it is not found again. -/
theorem lost_behind_torn_frame :
    let m := run (Monitor.step byteSum) Monitor.start
      [.open, .append (sample 2) (.write 1), .append (sample 3) .none, .open]
    m.acked = [(1, { sample 3 with seq := 2 })] ∧ m.world.replay byteSum = some [] :=
  torn_frame_hides_record byteSum

end

end MemoryLayer.Wal
