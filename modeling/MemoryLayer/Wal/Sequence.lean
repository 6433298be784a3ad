import Mathlib.Data.List.TakeWhile
import MemoryLayer.Lib.Blocks
import MemoryLayer.Wal.Durable

namespace MemoryLayer.Wal

open Runs Blocks

/-! # The numbers of a log

The numbers that `Append` gives out over the whole life of a directory, through rolls, checkpoints,
restarts and crashes.  After a restart the next number comes from the records that are left and the
order of the segments from their names.

- `Act`: a call that succeeds, a restart, or a crash during an append.
- `Ledger`: a monitored world with all records that were given a number, and all numbers that were
  returned.
- `Steady`: a log is not opened on an empty last segment whose predecessors are gone.
- `numbers_increase`: **in every steady history the returned numbers increase, and `Replay` hands
  out the surviving records once each and in their order.**
- `number_returned_twice`: without that, numbers start again at one.
-/

/-! ### Histories of calls -/

/-- A call of the log, or a crash, which may hit an append at any point. -/
inductive Act where
  | append (rec : Record)
  | checkpoint
  | close
  | open
  | crash (last : Option (Record × Fault)) (keep : Nat)
  deriving DecidableEq, Repr

/-- The events of a call; a checkpoint covers everything up to `LastSeq`. -/
def Act.events (w : World) : Act → List Event
  | .append rec => [.append rec .none]
  | .checkpoint => [.checkpoint (w.wal.elim 0 Log.seq)]
  | .close => [.close]
  | .open => [.open]
  | .crash (some (rec, fault)) keep => [.append rec fault, .crash keep]
  | .crash none keep => [.crash keep]

/-- A monitored world, the records that got a number in the order of their appends, and the numbers
    that `Append` returned. -/
structure Ledger where
  monitor : Monitor
  issued : List Record
  returned : List UInt64
  deriving DecidableEq, Repr

/-- Nothing happened yet. -/
def Ledger.start : Ledger := ⟨Monitor.start, [], []⟩

section

variable (crc : List UInt8 → UInt32)

/-- The ledger after an event. -/
def Ledger.event (l : Ledger) (ev : Event) : Ledger :=
  match ev with
  | .append rec fault =>
    ⟨l.monitor.step crc ev,
      l.issued ++ (l.monitor.world.wal.map fun w => { rec with seq := w.seq + 1 }).toList,
      l.returned ++ (l.monitor.world.answer crc rec fault).toList⟩
  | _ => ⟨l.monitor.step crc ev, l.issued, l.returned⟩

/-- The ledger after a call. -/
def Ledger.step (l : Ledger) (act : Act) : Ledger :=
  run (Ledger.event crc) l (act.events l.monitor.world)

/-! ### Segments as blocks -/

/-- The records of the segments, by segment. -/
def blocks (d : Dir) : List (Nat × List Record) :=
  d.map fun p => (p.1.toNat, records crc p.2.bytes)

/-- A record's number. -/
def Record.number (r : Record) : Nat := r.seq.toNat

/-- The last segment is the first one ever, or a record on disk reaches the number before its
    name. -/
def Continues (d : Dir) : Prop :=
  ∀ p ∈ d.getLast?, p.1 = 1 ∨ ∃ r ∈ members (blocks crc d), p.1.toNat ≤ r.number + 1

instance (d : Dir) : Decidable (Continues crc d) := inferInstanceAs (Decidable (∀ p ∈ _, _))

/-- The numbers do not run out. -/
def Log.spare (w : Log) : Prop := w.seq.toNat + 1 < 2 ^ 64

instance (w : Log) : Decidable w.spare := inferInstanceAs (Decidable (_ < _))

/-- A log is opened on a directory that continues, and an append finds a number that was not given
    out yet. -/
def Steady (l : Ledger) : Act → Prop
  | .append _ | .crash (some _) _ => ∀ w ∈ l.monitor.world.wal, w.spare
  | .open => Continues crc l.monitor.world.dir
  | _ => True

instance (l : Ledger) : (act : Act) → Decidable (Steady crc l act)
  | .append _ => inferInstanceAs (Decidable (∀ w ∈ l.monitor.world.wal, w.spare))
  | .crash (some _) _ => inferInstanceAs (Decidable (∀ w ∈ l.monitor.world.wal, w.spare))
  | .open => inferInstanceAs (Decidable (Continues crc _))
  | .crash none _ => inferInstanceAs (Decidable True)
  | .checkpoint | .close => inferInstanceAs (Decidable True)

/-- What a directory keeps between two calls. -/
structure Idle (d : Dir) (issued : List Record) (returned : List UInt64) : Prop where
  sorted : (d.map Prod.fst).Pairwise (· < ·)
  ordered : Ordered Record.number (blocks crc d)
  settled : ∀ p ∈ d, p.2.synced = p.2.bytes.length
  issued : (members (blocks crc d)).Sublist issued
  below : ∀ n ∈ returned, ∃ p, d.getLast? = some p ∧
    (n.toNat < p.1.toNat ∨ ∃ r ∈ records crc p.2.bytes, n.toNat ≤ r.number)
  increasing : returned.Pairwise (· < ·)

/-- What a running log keeps in addition. -/
structure Running (d : Dir) (w : Log) (issued : List Record) (returned : List UInt64) : Prop
    extends Idle crc d issued returned where
  names : w.names = d.map Prod.fst
  name : ∃ p, d.getLast? = some p ∧ p.1.toNat ≤ w.seq.toNat + 1
  numbers : ∀ r ∈ members (blocks crc d), r.number ≤ w.seq.toNat
  file : ∀ n, w.cur = .opened n → ∃ f, d.getLast? = some (n, f) ∧ Clean crc f.bytes ∧
    w.curBytes = f.bytes.length
  handle : w.cur ≠ .closed

variable {crc} {d : Dir}

/-! ### Changes of the last segment -/

theorem update_eq_self {name : UInt64} {g : File → File}
    (h : ∀ p ∈ d, p.1 = name → g p.2 = p.2) : d.update name g = d := by
  unfold Dir.update
  conv_rhs => rw [← List.map_id d]
  refine List.map_congr_left fun p hp => ?_
  split
  case isTrue hname => exact Prod.ext rfl (h p hp hname)
  case isFalse => rfl

section

variable (h : ∀ p ∈ d, p.2.synced = p.2.bytes.length)

include h

theorem update_sync (name : UInt64) :
    d.update name File.sync = d := by
  refine update_eq_self fun p hp _ => ?_
  rw [File.sync, ← h p hp]

theorem syncHandle_eq (cur : Handle) :
    syncHandle d cur = d := by
  cases cur with
  | opened name => exact update_sync h name
  | closed => rfl
  | none => rfl

/-- A crash loses nothing of files that are synced. -/
theorem tear_eq (w : Log) (keep : Nat) :
    tear d w keep = d := by
  unfold tear
  split
  case h_2 => rfl
  case h_1 s hs =>
    refine update_eq_self fun p hp _ => ?_
    rw [File.tear, h p hp, List.take_of_length_le (Nat.le_max_left _ _), File.sync, ← h p hp]

end

variable {init d' : Dir} {n : UInt64} {f f' : File} {bytes : List UInt8} {rec r : Record} {fault : Fault}
  {ans : Option UInt64} {w' : Log} {l : Ledger}

theorem create_concat (h : ∀ p ∈ d, p.1 < n) :
    d.create n = d ++ [(n, ⟨[], 0⟩)] := by
  have hnone : ¬ (d.file? n).isSome := by
    intro hsome
    obtain ⟨f, hf⟩ := Option.isSome_iff_exists.mp hsome
    exact UInt64.lt_irrefl n (h _ (Dir.mem_of_file? hf))
  have htake : d.takeWhile (fun p => p.1 < n) = d :=
    List.takeWhile_eq_self_iff.mpr fun p hp => by simpa using h p hp
  have hdrop : d.dropWhile (fun p => p.1 < n) = [] :=
    List.dropWhile_eq_nil_iff.mpr fun p hp => by simpa using h p hp
  rw [Dir.create, if_neg hnone, htake, hdrop]

theorem blocks_concat (init : Dir) (n : UInt64) (f : File) :
    blocks crc (init ++ [(n, f)]) = blocks crc init ++ [(n.toNat, records crc f.bytes)] :=
  List.map_append

/-- Names before the last one are lower. -/
theorem lt_of_concat (h : ((init ++ [(n, f)]).map Prod.fst).Pairwise (· < ·)) {p : UInt64 × File}
    (hp : p ∈ init) : p.1 < n := by
  rw [List.map_append, List.pairwise_append] at h
  exact h.2.2 p.1 (List.mem_map.mpr ⟨p, hp, rfl⟩) n (by simp)

theorem update_concat (g : File → File)
    (h : ((init ++ [(n, f)]).map Prod.fst).Pairwise (· < ·)) :
    Dir.update (init ++ [(n, f)]) n g = init ++ [(n, g f)] := by
  have hupdate : Dir.update (init ++ [(n, f)]) n g = Dir.update init n g ++ [(n, g f)] := by
    simp [Dir.update]
  rw [hupdate, update_eq_self fun p hp heq => ?_]
  exact absurd (heq ▸ lt_of_concat h hp) (UInt64.lt_irrefl n)

/-- A frame that reached a clean file in part is no record, and a whole one is. -/
theorem records_torn_frame (h : Clean crc bytes) (r : Record) (k : Nat) :
    records crc (bytes ++ (frame crc r).take k)
      = records crc bytes ++ if frameLen ≤ k then [r] else [] := by
  rw [records_clean crc h]
  split
  case isTrue hk => rw [List.take_of_length_le (by rw [length_frame]; exact hk), records_frame]
  case isFalse hk =>
    cases hread : readFrame crc ((frame crc r).take k) with
    | none => rw [records_of_none crc hread]
    | some p =>
      have hlen := (readFrame_some crc hread).1
      rw [List.length_take] at hlen
      omega

/-! ### What the steps keep -/

variable {w : Log} {issued rs : List Record} {returned : List UInt64}

theorem settled_concat (h : ∀ p ∈ d, p.2.synced = p.2.bytes.length) (hsynced : f.synced = f.bytes.length) :
    ∀ p ∈ d ++ [(n, f)], p.2.synced = p.2.bytes.length :=
  List.forall_mem_append.mpr ⟨h, List.forall_mem_singleton.mpr hsynced⟩

/-- A last segment with more records. -/
theorem members_concat (hrecords : records crc f'.bytes = records crc f.bytes ++ rs) :
    members (blocks crc (init ++ [(n, f')])) = members (blocks crc (init ++ [(n, f)])) ++ rs := by
  rw [blocks_concat, blocks_concat, hrecords]
  simp

theorem Idle.issue (h : Idle crc d issued returned) (more : List Record) :
    Idle crc d (issued ++ more) returned :=
  { h with issued := h.issued.trans (List.sublist_append_left _ _) }

section

variable (h : Idle crc (init ++ [(n, f)]) issued returned)

include h

/-- A last segment with more records, in their order. -/
theorem Idle.extend
    (hrecords : records crc f'.bytes = records crc f.bytes ++ rs) (hsynced : f'.synced = f'.bytes.length)
    (hordered : Ordered Record.number (blocks crc init ++ [(n.toNat, records crc f.bytes ++ rs)])) :
    Idle crc (init ++ [(n, f')]) (issued ++ rs) returned := by
  have hsorted := h.sorted
  rw [List.map_append] at hsorted
  refine ⟨by rwa [List.map_append], ?_,
    settled_concat (fun p hp => h.settled p (List.mem_append_left _ hp)) hsynced, ?_, fun m hm => ?_,
    h.increasing⟩
  · rw [blocks_concat, hrecords]
    exact hordered
  · rw [members_concat hrecords]
    exact h.issued.append (List.Sublist.refl _)
  · obtain ⟨p, hp, hbelow⟩ := h.below m hm
    rw [List.getLast?_concat] at hp
    obtain rfl := Option.some.inj hp
    refine ⟨(n, f'), List.getLast?_concat, hbelow.imp_right ?_⟩
    rintro ⟨r, hr, hle⟩
    exact ⟨r, by rw [hrecords]; exact List.mem_append_left _ hr, hle⟩

/-- A last segment with the same records. -/
theorem Idle.same
    (hrecords : records crc f'.bytes = records crc f.bytes) (hsynced : f'.synced = f'.bytes.length) :
    Idle crc (init ++ [(n, f')]) issued returned := by
  have hordered := h.ordered
  rw [blocks_concat] at hordered
  have hextend := h.extend (hrecords.trans (List.append_nil _).symm) hsynced (by
    rw [List.append_nil]
    exact hordered)
  rwa [List.append_nil] at hextend

/-- A last segment that grew by a record with a new number. -/
theorem Idle.grow (hrecords : records crc f'.bytes = records crc f.bytes ++ [r])
    (hsynced : f'.synced = f'.bytes.length) (hname : n.toNat ≤ r.number)
    (hnew : ∀ s ∈ members (blocks crc (init ++ [(n, f)])), s.number < r.number) :
    Idle crc (init ++ [(n, f')]) (issued ++ [r]) returned := by
  have hordered := h.ordered
  rw [blocks_concat] at hordered hnew
  exact h.extend hrecords hsynced (hordered.grow hname fun s hs => hnew s (by simp [hs]))

end

/-- A new segment with a name above all that is there. -/
theorem Idle.create (h : Idle crc d issued returned) (hnames : ∀ p ∈ d, p.1 < n)
    (hnumbers : ∀ r ∈ members (blocks crc d), r.number < n.toNat)
    (hreturned : ∀ m ∈ returned, m.toNat < n.toNat) : Idle crc (d.create n) issued returned := by
  rw [create_concat hnames]
  have hblocks : blocks crc (d ++ [(n, ⟨[], 0⟩)]) = blocks crc d ++ [(n.toNat, [])] := by
    rw [blocks_concat, records_nil]
  refine ⟨?_, hblocks ▸ h.ordered.start hnumbers, settled_concat h.settled rfl, ?_, fun m hm => ?_,
    h.increasing⟩
  · rw [List.map_append, List.pairwise_append]
    refine ⟨h.sorted, List.pairwise_singleton _ _, fun a ha b hb => ?_⟩
    obtain ⟨p, hp, rfl⟩ := List.mem_map.mp ha
    rw [show b = n by simpa using hb]
    exact hnames p hp
  · rw [hblocks]
    simpa using h.issued
  · exact ⟨(n, ⟨[], 0⟩), List.getLast?_concat, .inl (hreturned m hm)⟩

theorem toNat_succ (h : w.spare) : (w.seq + 1).toNat = w.seq.toNat + 1 := by
  rw [UInt64.toNat_add]
  exact Nat.mod_eq_of_lt h

/-- Every number that was returned is behind the log. -/
theorem Running.returned_le (h : Running crc d w issued returned)
    (hn : n ∈ returned) : n.toNat ≤ w.seq.toNat := by
  obtain ⟨p, hp, hle⟩ := h.name
  obtain ⟨p', hp', hbelow⟩ := h.below n hn
  obtain rfl : p = p' := Option.some.inj (hp.symm.trans hp')
  rcases hbelow with hlt | ⟨r, hr, hle'⟩
  · omega
  · have hmem : r ∈ members (blocks crc d) :=
      mem_members.mpr ⟨_, List.mem_map.mpr ⟨p, List.mem_of_getLast? hp, rfl⟩, hr⟩
    exact Nat.le_trans hle' (h.numbers r hmem)

theorem Running.name_le (h : Running crc (init ++ [(n, f)]) w issued returned) :
    n.toNat ≤ w.seq.toNat + 1 := by
  obtain ⟨p, hp, hname⟩ := h.name
  rw [List.getLast?_concat] at hp
  obtain rfl := Option.some.inj hp
  exact hname

/-- All names are behind a log whose segment is full. -/
theorem Running.names_le (h : Running crc d w issued returned) (hfull : w.full) :
    ∀ p ∈ d, p.1.toNat ≤ w.seq.toNat := by
  cases hcur : w.cur with
  | closed => exact absurd hcur h.handle
  | none => exact absurd hcur hfull.1
  | opened n =>
    obtain ⟨f, hlast, hclean, hbytes⟩ := h.file n hcur
    -- a full segment has a record, and its number is not below the name
    have hpos : 0 < (records crc f.bytes).length := by
      by_contra hzero
      have hsize : segmentSize ≤ f.bytes.length := hbytes ▸ hfull.2
      have hend : (records crc f.bytes).length * frameLen = f.bytes.length := hclean
      rw [Nat.eq_zero_of_not_pos hzero, Nat.zero_mul] at hend
      rw [← hend] at hsize
      exact absurd hsize (by decide)
    obtain ⟨r, hr⟩ := List.exists_mem_of_length_pos hpos
    have hblock : (n.toNat, records crc f.bytes) ∈ blocks crc d :=
      List.mem_map.mpr ⟨(n, f), List.mem_of_getLast? hlast, rfl⟩
    have hn : n.toNat ≤ w.seq.toNat := Nat.le_trans ((h.ordered.inside _ hblock).2 r hr)
      (h.numbers r (mem_members.mpr ⟨_, hblock, hr⟩))
    intro p hp
    obtain ⟨init, rfl⟩ := List.getLast?_eq_some_iff.mp hlast
    rcases List.mem_append.mp hp with hp | hp
    · have hlt := UInt64.lt_iff_toNat_lt.mp (lt_of_concat h.sorted hp)
      omega
    · rw [List.mem_singleton.mp hp]
      exact hn

/-- A roll starts a segment above all others. -/
theorem Running.roll (h : Running crc d w issued returned) (hspare : w.spare) (hfull : w.full) :
    Running crc (d.create (w.seq + 1))
      { w with cur := .opened (w.seq + 1), curBytes := 0, segs := w.segs ++ [⟨w.seq + 1, 0⟩] }
      issued returned := by
  have hsucc := toNat_succ hspare
  have hnames : ∀ p ∈ d, p.1 < w.seq + 1 := by
    intro p hp
    have := h.names_le hfull p hp
    rw [UInt64.lt_iff_toNat_lt]
    omega
  have hidle := h.toIdle.create hnames (fun r hr => by have := h.numbers r hr; omega)
    (fun m hm => by have := h.returned_le hm; omega)
  have hcreate := create_concat hnames
  rw [hcreate] at hidle ⊢
  refine { hidle with names := ?_, name := ?_, numbers := ?_, file := ?_, handle := ?_ }
  · rw [Log.names, List.map_append, List.map_append, ← h.names]
    rfl
  · exact ⟨_, List.getLast?_concat, Nat.le_of_eq hsucc⟩
  · rw [blocks_concat, records_nil]
    simpa using h.numbers
  · intro n hn
    obtain rfl := Handle.opened.inj hn
    exact ⟨⟨[], 0⟩, List.getLast?_concat, rfl, rfl⟩
  · simp

/-- A part of a frame reached the current segment. -/
theorem Running.torn (h : Running crc (init ++ [(n, f)]) w issued returned) (hspare : w.spare)
    (hclean : Clean crc f.bytes) (rec : Record) (k : Nat)
    (hbytes : f'.bytes = f.bytes ++ (frame crc { rec with seq := w.seq + 1 }).take k)
    (hsynced : f'.synced = f'.bytes.length) :
    Idle crc (init ++ [(n, f')]) (issued ++ [{ rec with seq := w.seq + 1 }]) returned := by
  have hsucc := toNat_succ hspare
  have hrecords := records_torn_frame hclean { rec with seq := w.seq + 1 } k
  rw [← hbytes] at hrecords
  split at hrecords
  case isTrue =>
    refine h.toIdle.grow hrecords hsynced ?_ fun r hr => ?_
    · show n.toNat ≤ (w.seq + 1).toNat
      rw [hsucc]
      exact h.name_le
    · have := h.numbers r hr
      show r.number < (w.seq + 1).toNat
      omega
  case isFalse =>
    rw [List.append_nil] at hrecords
    exact (h.toIdle.same hrecords hsynced).issue _

/-- A number that is returned is above all that were returned before. -/
theorem Running.return (h : Running crc d w issued returned) (hspare : w.spare)
    {issued' : List Record} (hidle : Idle crc d' issued' returned) {p : UInt64 × File}
    (hlast : d'.getLast? = some p) (hr : r ∈ records crc p.2.bytes) (hseq : r.seq = w.seq + 1) :
    Idle crc d' issued' (returned ++ [w.seq + 1]) := by
  have hsucc := toNat_succ hspare
  refine { hidle with below := fun n hn => ?_, increasing := ?_ }
  · rcases List.mem_append.mp hn with hn | hn
    · exact hidle.below n hn
    · rw [List.mem_singleton.mp hn]
      refine ⟨p, hlast, .inr ⟨r, hr, ?_⟩⟩
      rw [Record.number, hseq]
  · refine List.pairwise_append.mpr ⟨h.increasing, List.pairwise_singleton _ _, fun n hn m hm => ?_⟩
    rw [List.mem_singleton.mp hm, UInt64.lt_iff_toNat_lt]
    have := h.returned_le hn
    omega

/-- A record that is written to the current segment. -/
theorem Running.write (h : Running crc d w issued returned) (hspare : w.spare)
    (hcur : w.cur = .opened n) (rec : Record)
    (hbytes : frame crc { rec with seq := w.seq + 1 } = bytes) :
    Running crc (d.update n fun f => (f.write bytes).sync)
      { w with
        seq := w.seq + 1, curBytes := w.curBytes + bytes.length, segs := setMaxSeq w.segs (w.seq + 1) }
      (issued ++ [{ rec with seq := w.seq + 1 }]) (returned ++ [w.seq + 1]) := by
  have hsucc := toNat_succ hspare
  obtain ⟨f, hlast, hclean, hlen⟩ := h.file n hcur
  obtain ⟨init, rfl⟩ := List.getLast?_eq_some_iff.mp hlast
  rw [update_concat _ h.sorted]
  have hall : bytes = (frame crc { rec with seq := w.seq + 1 }).take frameLen := by
    rw [List.take_of_length_le (by rw [length_frame]), hbytes]
  have hrecords : records crc (f.bytes ++ bytes)
      = records crc f.bytes ++ [{ rec with seq := w.seq + 1 }] := by
    rw [hall, records_torn_frame hclean, if_pos (Nat.le_refl _)]
  have htorn : Idle crc (init ++ [(n, (f.write bytes).sync)]) _ returned :=
    h.torn hspare hclean rec frameLen (congrArg (f.bytes ++ ·) hall) rfl
  have hidle := h.return hspare htorn (r := { rec with seq := w.seq + 1 }) List.getLast?_concat
    (by
      show _ ∈ records crc (f.bytes ++ bytes)
      rw [hrecords]
      simp) rfl
  refine { hidle with names := ?_, name := ?_, numbers := ?_, file := ?_, handle := h.handle }
  · have hnames := h.names
    rw [List.map_append] at hnames ⊢
    exact (map_setMaxSeq _ _).trans hnames
  · refine ⟨_, List.getLast?_concat, ?_⟩
    show n.toNat ≤ (w.seq + 1).toNat + 1
    have := h.name_le
    omega
  · intro r hr
    show r.number ≤ (w.seq + 1).toNat
    rw [members_concat (f := f) hrecords] at hr
    rcases List.mem_append.mp hr with hr | hr
    · have := h.numbers r hr
      omega
    · rw [List.mem_singleton.mp hr]
      exact Nat.le_refl _
  · intro m hm
    obtain rfl : n = m := Handle.opened.inj (hcur.symm.trans hm)
    refine ⟨_, List.getLast?_concat, ?_, ?_⟩
    · show (records crc (f.bytes ++ bytes)).length * frameLen = (f.bytes ++ bytes).length
      have hend : (records crc f.bytes).length * frameLen = f.bytes.length := hclean
      have hframe : bytes.length = frameLen := by rw [← hbytes, length_frame]
      rw [hrecords, List.length_append, List.length_append, List.length_singleton, Nat.add_mul,
        Nat.one_mul, hend, hframe]
    · show w.curBytes + bytes.length = (f.bytes ++ bytes).length
      rw [List.length_append, hlen]

/-- What a crash leaves of a file whose last bytes are not synced. -/
theorem tear_torn (f f' : File) {k : Nat} (keep : Nat)
    (hbytes : f'.bytes = f.bytes ++ bytes.take k) (hsynced : f.bytes.length ≤ f'.synced) :
    ∃ k', (f'.tear keep).bytes = f.bytes ++ bytes.take k' ∧
      (f'.tear keep).synced = (f'.tear keep).bytes.length := by
  refine ⟨min (max f'.synced keep - f.bytes.length) k, ?_, rfl⟩
  show f'.bytes.take (max f'.synced keep) = _
  rw [hbytes, List.take_append, List.take_of_length_le (by omega), List.take_take]

section

variable (h : Running crc d w issued returned)

include h

/-- A crash while a record is written. -/
theorem Running.write_crash (hspare : w.spare)
    (keep : Nat)
    (hwrite : writeRecord crc d w rec fault = (ans, d', w')) :
    Idle crc (tear d' w' keep) (issued ++ [{ rec with seq := w.seq + 1 }])
      (returned ++ ans.toList) := by
  rcases writeRecord_cases hwrite with ⟨-, rfl, rfl, rfl⟩ |
    ⟨n, hcur, ⟨k, -, rfl, rfl, rfl⟩ | ⟨-, rfl, rfl, rfl⟩⟩
  · rw [tear_eq h.settled]
    simpa using h.toIdle.issue _
  · -- a write that fails leaves a part of the frame, of which the crash may keep less
    obtain ⟨f, hlast, hclean, -⟩ := h.file n hcur
    obtain ⟨init, rfl⟩ := List.getLast?_eq_some_iff.mp hlast
    have hsynced : f.synced = f.bytes.length := h.settled (n, f) (by simp)
    have hnames := congrArg List.getLast? h.names
    rw [Log.names, List.getLast?_map, List.getLast?_map, List.getLast?_concat] at hnames
    obtain ⟨seg, hseg, hname⟩ := Option.map_eq_some_iff.mp hnames
    obtain ⟨k', hbytes', hsynced'⟩ := tear_torn f
      (f.write ((frame crc { rec with seq := w.seq + 1 }).take k)) keep rfl (Nat.le_of_eq hsynced.symm)
    rw [update_concat _ h.sorted]
    unfold tear
    rw [hseg]
    show Idle crc (Dir.update _ seg.startSeq _) _ _
    rw [hname, update_concat]
    · simpa using h.torn hspare hclean rec k' hbytes' hsynced'
    · have hsorted := h.sorted
      rwa [List.map_append] at hsorted ⊢
  · have hdone := h.write hspare hcur rec rfl
    rw [tear_eq hdone.settled]
    exact hdone.toIdle

/-- A record that is written while nothing fails. -/
theorem Running.write_ok (hspare : w.spare)
    (hwrite : writeRecord crc d w rec .none = (ans, d', w')) :
    Running crc d' w' (issued ++ [{ rec with seq := w.seq + 1 }]) (returned ++ ans.toList) := by
  rcases writeRecord_cases hwrite with ⟨hno, rfl, rfl, rfl⟩ |
    ⟨n, hcur, ⟨k, hfault, -⟩ | ⟨-, rfl, rfl, rfl⟩⟩
  · have hsucc := toNat_succ hspare
    obtain ⟨p, hp, hname⟩ := h.name
    rw [Option.toList_none, List.append_nil]
    refine { h.toIdle.issue _ with
      names := h.names, name := ⟨p, hp, ?_⟩, numbers := fun r hr => ?_,
      file := fun n hn => absurd hn (hno n), handle := h.handle }
    · show p.1.toNat ≤ (w.seq + 1).toNat + 1
      omega
    · have := h.numbers r hr
      show r.number ≤ (w.seq + 1).toNat
      omega
  · exact absurd rfl hfault
  · exact h.write hspare hcur rec rfl

theorem Running.append (hspare : w.spare)
    (happend : Wal.append crc d w rec .none = (ans, d', w')) :
    Running crc d' w' (issued ++ [{ rec with seq := w.seq + 1 }]) (returned ++ ans.toList) := by
  unfold Wal.append at happend
  split at happend
  case isTrue hfull =>
    have hroll := h.roll hspare hfull
    unfold rollLocked at happend
    rw [syncHandle_eq h.settled] at happend
    exact hroll.write_ok hspare happend
  case isFalse => exact h.write_ok hspare happend

/-- A crash during an append. -/
theorem Running.append_crash (hspare : w.spare)
    (keep : Nat)
    (happend : Wal.append crc d w rec fault = (ans, d', w')) :
    Idle crc (tear d' w' keep) (issued ++ [{ rec with seq := w.seq + 1 }])
      (returned ++ ans.toList) := by
  unfold Wal.append at happend
  split at happend
  case isFalse => exact h.write_crash hspare keep happend
  case isTrue hfull =>
    have hroll := h.roll hspare hfull
    unfold rollLocked at happend
    rw [syncHandle_eq h.settled] at happend
    cases fault with
    | create =>
      cases happend
      rw [tear_eq h.settled, Option.toList_none, List.append_nil]
      exact h.toIdle.issue _
    | syncDir =>
      cases happend
      rw [tear_eq hroll.settled, Option.toList_none, List.append_nil]
      exact hroll.toIdle.issue _
    | none => exact hroll.write_crash hspare keep happend
    | write k => exact hroll.write_crash hspare keep happend
    | sync => exact hroll.write_crash hspare keep happend

theorem Running.close :
    Running crc (Wal.close d w).1 (Wal.close d w).2 issued returned := by
  unfold Wal.close
  split
  case h_1 name hname =>
    rw [update_sync h.settled]
    exact { h with
      file := nofun, handle := nofun }
  case h_2 => exact h

theorem Running.distinct :
    (w.segs.map Segment.startSeq).Nodup := by
  have hsorted := h.sorted
  rw [← h.names] at hsorted
  exact Dir.nodup_of_lt hsorted

/-- A checkpoint drops no segment that has the name of one that it keeps. -/
theorem Running.dropped_ne_kept (upToSeq : UInt64) :
    ∀ s ∈ w.dropped upToSeq, ∀ k ∈ w.kept upToSeq, k.startSeq ≠ s.startSeq := by
  intro s hs k hk heq
  have hdistinct := h.distinct
  obtain rfl : k = s := List.inj_on_of_nodup_map hdistinct
    ((mem_segs_iff w upToSeq k).mpr (.inr hk)) ((mem_segs_iff w upToSeq s).mpr (.inl hs)) heq
  obtain ⟨hinit, hcovered⟩ := List.mem_filter.mp hs
  rcases List.mem_append.mp hk with hk | hk
  · have huncovered := (List.mem_filter.mp hk).2
    rw [hcovered] at huncovered
    cases huncovered
  · -- the last segment does not stand before itself
    obtain ⟨init, hsegs⟩ := List.getLast?_eq_some_iff.mp (Option.mem_toList.mp hk)
    rw [hsegs, List.dropLast_concat] at hinit
    rw [hsegs, List.map_append, List.nodup_append] at hdistinct
    exact hdistinct.2.2 _ (List.mem_map.mpr ⟨k, hinit, rfl⟩) _ (by simp) rfl

/-- The segments that a checkpoint keeps are those whose files stay. -/
theorem Running.kept_names (upToSeq : UInt64) :
    (w.kept upToSeq).map Segment.startSeq
      = (d.remove ((w.dropped upToSeq).map Segment.startSeq)).map Prod.fst := by
  have hkept : w.segs.filter (fun s => s.startSeq ∉ (w.dropped upToSeq).map Segment.startSeq)
      = w.kept upToSeq := by
    have hstays : ∀ k ∈ w.kept upToSeq,
        k.startSeq ∉ (w.dropped upToSeq).map Segment.startSeq := by
      intro k hk hmem
      obtain ⟨s, hs, heq⟩ := List.mem_map.mp hmem
      exact h.dropped_ne_kept upToSeq s hs k hk heq.symm
    have hsegs : w.segs = w.segs.dropLast ++ w.segs.getLast?.toList := by
      rcases List.eq_nil_or_concat w.segs with hnil | ⟨init, last, hlast⟩
      · simp [hnil]
      · simp [hlast]
    unfold Log.kept at hstays ⊢
    conv_lhs => rw [hsegs, List.filter_append]
    congr 1
    · refine List.filter_congr fun s hs => ?_
      cases hcovered : s.covered upToSeq with
      | true =>
        have hmem : s ∈ w.dropped upToSeq := List.mem_filter.mpr ⟨hs, hcovered⟩
        simpa using List.mem_map.mpr ⟨s, hmem, rfl⟩
      | false =>
        have hmem : s ∈ w.segs.dropLast.filter fun s => !s.covered upToSeq :=
          List.mem_filter.mpr ⟨hs, by rw [hcovered]; rfl⟩
        simpa using hstays s (List.mem_append_left _ hmem)
    · exact List.filter_eq_self.mpr fun s hs => by
        simpa using hstays s (List.mem_append_right _ hs)
  have hnames : w.segs.map Segment.startSeq = d.map Prod.fst := h.names
  have hfilter := congrArg
    (List.filter fun n => decide (n ∉ (w.dropped upToSeq).map Segment.startSeq)) hnames
  rw [List.filter_map, List.filter_map] at hfilter
  rw [← hkept]
  exact hfilter

theorem Running.checkpoint (upToSeq : UInt64) :
    Running crc (Wal.checkpoint d w upToSeq).1 (Wal.checkpoint d w upToSeq).2 issued returned := by
  have hnames := h.kept_names upToSeq
  unfold Wal.checkpoint
  dsimp only
  generalize hgone : (w.dropped upToSeq).map Segment.startSeq = gone at hnames ⊢
  -- the file of the last segment stays where it is
  have hlast : ∀ p, d.getLast? = some p → (d.remove gone).getLast? = some p := by
    intro p hp
    have hstays : p.1 ∉ gone := by
      intro hmem
      rw [← hgone] at hmem
      obtain ⟨s, hs, heq⟩ := List.mem_map.mp hmem
      have hlastname := congrArg List.getLast? h.names
      rw [Log.names, List.getLast?_map, List.getLast?_map, hp] at hlastname
      obtain ⟨k, hk, hkname⟩ := Option.map_eq_some_iff.mp hlastname
      refine h.dropped_ne_kept upToSeq s hs k ?_ (hkname.trans heq.symm)
      exact List.mem_of_getLast? ((getLast?_kept w upToSeq).trans hk)
    obtain ⟨init, rfl⟩ := List.getLast?_eq_some_iff.mp hp
    rw [Dir.remove, List.filter_append, List.filter_cons_of_pos (by simpa using hstays)]
    exact List.getLast?_concat
  have hsub : (d.remove gone).Sublist d := List.filter_sublist
  have hblocks : (blocks crc (d.remove gone)).Sublist (blocks crc d) := hsub.map _
  have hmembers := members_sublist hblocks
  refine ⟨⟨h.sorted.sublist (hsub.map _), h.ordered.sublist hblocks,
    fun p hp => h.settled p (hsub.subset hp), hmembers.trans h.issued, fun n hn => ?_,
    h.increasing⟩, hnames, ?_, fun r hr => h.numbers r (hmembers.subset hr), fun n hn => ?_, h.handle⟩
  · obtain ⟨p, hp, hbelow⟩ := h.below n hn
    exact ⟨p, hlast p hp, hbelow⟩
  · obtain ⟨p, hp, hname⟩ := h.name
    exact ⟨p, hlast p hp, hname⟩
  · obtain ⟨f, hf, hclean, hbytes⟩ := h.file n hn
    exact ⟨f, hlast _ hf, hclean, hbytes⟩

end

theorem le_foldl_max {α : Type} (g : α → UInt64) (as : List α) (m : UInt64) :
    m ≤ as.foldl (fun m a => if g a > m then g a else m) m ∧
      ∀ a ∈ as, g a ≤ as.foldl (fun m a => if g a > m then g a else m) m := by
  induction as generalizing m with
  | nil => exact ⟨UInt64.le_refl m, nofun⟩
  | cons b as ih =>
    rw [List.foldl_cons]
    obtain ⟨hstart, hmem⟩ := ih (if g b > m then g b else m)
    have hboth : m ≤ (if g b > m then g b else m) ∧ g b ≤ (if g b > m then g b else m) := by
      split
      case isTrue h => exact ⟨UInt64.le_of_lt h, UInt64.le_refl _⟩
      case isFalse h => exact ⟨UInt64.le_refl _, UInt64.not_lt.mp h⟩
    refine ⟨UInt64.le_trans hboth.1 hstart, fun a ha => ?_⟩
    rcases List.mem_cons.mp ha with rfl | ha
    · exact UInt64.le_trans hboth.2 hstart
    · exact hmem a ha

/-- The log that is opened on a directory starts behind every record on disk. -/
theorem load_concat (crc : List UInt8 → UInt32) (init : Dir) (n : UInt64) (f : File) :
    ∃ seq segs, load crc (init ++ [(n, f)])
        = (Dir.update (init ++ [(n, f)]) n (File.truncate · (validEnd crc f.bytes)),
          ⟨seq, segs, .opened n, validEnd crc f.bytes⟩) ∧
      segs.map Segment.startSeq = (init ++ [(n, f)]).map Prod.fst ∧
      ∀ r ∈ members (blocks crc (init ++ [(n, f)])), r.number ≤ seq.toNat := by
  refine ⟨_, _, by unfold load; simp only [List.getLast?_concat]; rfl, ?_, fun r hr => ?_⟩
  · rw [List.map_map]
    rfl
  · obtain ⟨b, hb, hr⟩ := mem_members.mp hr
    obtain ⟨p, hp, rfl⟩ := List.mem_map.mp hb
    have hfile := (le_foldl_max Record.seq (records crc p.2.bytes) 0).2 r hr
    have hseg := (le_foldl_max Segment.maxSeq ((init ++ [(n, f)]).map fun p =>
      (⟨p.1, maxSeqOf (records crc p.2.bytes)⟩ : Segment)) 0).2 _ (List.mem_map.mpr ⟨p, hp, rfl⟩)
    exact UInt64.le_iff_toNat_le.mp (UInt64.le_trans hfile hseg)

theorem Idle.load (h : Idle crc d issued returned) (hcontinues : Continues crc d) :
    Running crc (load crc d).1 (load crc d).2 issued returned := by
  rcases List.eq_nil_or_concat d with rfl | ⟨init, ⟨n, f⟩, hd⟩
  · -- the first segment of a new directory
    have hempty : Idle crc (Dir.create [] 1) issued returned := by
      refine h.create nofun nofun fun m hm => ?_
      obtain ⟨p, hp, -⟩ := h.below m hm
      cases hp
    refine { hempty with
      names := rfl, name := ⟨_, rfl, Nat.le_refl 1⟩, numbers := nofun,
      file := fun n hn => ?_, handle := fun h => by cases h }
    obtain rfl := Handle.opened.inj hn
    exact ⟨⟨[], 0⟩, rfl, rfl, rfl⟩
  · rw [List.concat_eq_append] at hd
    subst hd
    obtain ⟨seq, segs, hload, hnames, hnumbers⟩ := load_concat crc init n f
    rw [hload, update_concat _ h.sorted]
    have hcut := records_take_validEnd crc f.bytes
    have hsynced : f.synced = f.bytes.length := h.settled (n, f) (by simp)
    have hend := (scan_split crc f.bytes).1
    have hidle : Idle crc (init ++ [(n, f.truncate (validEnd crc f.bytes))]) issued returned := by
      refine h.same hcut.1 ?_
      show min f.synced (validEnd crc f.bytes) = (f.bytes.take (validEnd crc f.bytes)).length
      rw [hsynced, List.length_take, Nat.min_comm]
    have hblocks : blocks crc (init ++ [(n, f.truncate (validEnd crc f.bytes))])
        = blocks crc (init ++ [(n, f)]) := by
      rw [blocks_concat, blocks_concat, File.truncate, hcut.1]
    refine { hidle with
      names := ?_, name := ⟨_, List.getLast?_concat, ?_⟩, numbers := hblocks ▸ hnumbers,
      file := fun m hm => ?_, handle := fun h => by cases h }
    · rw [List.map_append] at hnames ⊢
      exact hnames
    · rcases hcontinues (n, f) List.getLast?_concat with hone | ⟨r, hr, hle⟩
      · have hone' : n = 1 := hone
        rw [hone']
        exact Nat.succ_le_succ (Nat.zero_le _)
      · exact Nat.le_trans hle (Nat.succ_le_succ (hnumbers r hr))
    · obtain rfl := Handle.opened.inj hm
      refine ⟨_, List.getLast?_concat, hcut.2, ?_⟩
      show validEnd crc f.bytes = (f.bytes.take (validEnd crc f.bytes)).length
      rw [List.length_take]
      omega

/-- A replay hands out the records of all segments in order. -/
theorem replaySegs_eq (hsorted : (d.map Prod.fst).Pairwise (· < ·)) {segs : List Segment} {ps : Dir}
    (hsub : ps.Sublist d) (hnames : segs.map Segment.startSeq = ps.map Prod.fst) :
    replaySegs crc d segs = some (members (blocks crc ps)) := by
  induction segs generalizing ps with
  | nil =>
    obtain rfl := List.map_eq_nil_iff.mp hnames.symm
    rfl
  | cons s segs ih =>
    cases ps with
    | nil => cases hnames
    | cons p ps =>
      obtain ⟨hname, htail⟩ := List.cons.inj hnames
      have hfile := Dir.file?_eq_of_mem hsorted (hsub.subset List.mem_cons_self)
      rw [← hname] at hfile
      simp only [replaySegs, hfile, ih ((List.sublist_cons_self p ps).trans hsub) htail]
      rfl

theorem Running.replay (h : Running crc d w issued returned) :
    Wal.replay crc d w = some (members (blocks crc d)) :=
  replaySegs_eq h.sorted (List.Sublist.refl d) h.names

/-- Nothing stands behind the records in the file that is written next. -/
theorem Running.cleanTarget (h : Running crc d w issued returned) (hspare : w.spare) :
    CleanTarget crc d w := by
  intro f hf
  obtain ⟨n, hn, hfile⟩ := Option.bind_eq_some_iff.mp hf
  unfold Log.target at hn
  split at hn
  case isTrue hfull =>
    obtain rfl := Option.some.inj hn
    have hle := h.names_le hfull _ (Dir.mem_of_file? hfile)
    have hsucc := toNat_succ hspare
    dsimp only at hle
    omega
  case isFalse =>
    cases hcur : w.cur with
    | closed => exact absurd hcur h.handle
    | none =>
      rw [hcur] at hn
      cases hn
    | opened m =>
      rw [hcur] at hn
      obtain rfl := Option.some.inj hn
      obtain ⟨f', hlast, hclean, -⟩ := h.file m hcur
      have hfound := Dir.file?_eq_of_mem h.sorted (List.mem_of_getLast? hlast)
      obtain rfl : f' = f := Option.some.inj (hfound.symm.trans hfile)
      exact hclean

/-! ### Histories -/

variable (crc) in
/-- What every steady history keeps. -/
structure Kept (l : Ledger) : Prop where
  durable : Durable crc l.monitor
  idle : Idle crc l.monitor.world.dir l.issued l.returned
  running : ∀ w, l.monitor.world.wal = some w →
    Running crc l.monitor.world.dir w l.issued l.returned

section World

variable {m : Monitor}

theorem Kept.of_running (hdurable : Durable crc m) (hworld : m.world = ⟨d, some w⟩)
    (h : Running crc d w issued returned) : Kept crc ⟨m, issued, returned⟩ := by
  obtain ⟨world, acked⟩ := m
  obtain rfl : world = ⟨d, some w⟩ := hworld
  exact ⟨hdurable, h.toIdle, fun w' hw' => Option.some.inj hw' ▸ h⟩

theorem Kept.of_idle (hdurable : Durable crc m) (hworld : m.world = ⟨d, none⟩)
    (h : Idle crc d issued returned) : Kept crc ⟨m, issued, returned⟩ := by
  obtain ⟨world, acked⟩ := m
  obtain rfl : world = ⟨d, none⟩ := hworld
  exact ⟨hdurable, h, nofun⟩

end World

theorem kept_start : Kept crc Ledger.start where
  durable := durable_start
  idle := ⟨List.Pairwise.nil, Ordered.nil, nofun, List.Sublist.refl _,
    nofun, List.Pairwise.nil⟩
  running w hw := by cases hw

/-- An append to a running log. -/
theorem event_append (hw : l.monitor.world.wal = some w) (rec : Record)
    (fault : Fault)
    (happend : Wal.append crc l.monitor.world.dir w rec fault = (ans, d', w')) :
    l.event crc (.append rec fault) = ⟨l.monitor.step crc (.append rec fault),
        l.issued ++ [{ rec with seq := w.seq + 1 }], l.returned ++ ans.toList⟩ ∧
      (l.monitor.step crc (.append rec fault)).world = ⟨d', some w'⟩ := by
  constructor
  · simp only [Ledger.event, World.answer, hw, Option.map_some, Option.toList_some,
      Option.bind_some, happend]
  · simp only [Monitor.step, World.step, hw, happend]

theorem event_of_stopped (hw : l.monitor.world.wal = none) {ev : Event} (hev : ev ≠ .open) :
    l.event crc ev = l := by
  cases ev <;> simp [Ledger.event, World.answer, step_of_stopped hw hev, hw]

section

variable (h : Kept crc l)

include h

theorem Kept.sound_append (rec : Record) (fault : Fault)
    (hspare : ∀ w ∈ l.monitor.world.wal, w.spare) : Sound crc l.monitor (.append rec fault) :=
  fun w hw => .inr ((h.running w hw).cleanTarget (hspare w hw))

theorem Kept.append (hspare : ∀ w ∈ l.monitor.world.wal, w.spare) :
    Kept crc (l.event crc (.append rec .none)) := by
  cases hw : l.monitor.world.wal with
  | none =>
    rw [event_of_stopped hw (by simp)]
    exact h
  | some w =>
    rcases happend : Wal.append crc l.monitor.world.dir w rec .none with ⟨ans, d', w'⟩
    obtain ⟨hevent, hworld⟩ := event_append hw rec .none happend
    have hnext := (h.running w hw).append (hspare w hw) happend
    rw [hevent]
    exact .of_running (h.durable.append (h.sound_append rec .none hspare)) hworld hnext

theorem Kept.crash (keep : Nat) :
    Kept crc (l.event crc (.crash keep)) := by
  cases hw : l.monitor.world.wal with
  | none =>
    rw [event_of_stopped hw (by simp)]
    exact h
  | some w =>
    have hworld : (l.monitor.step crc (.crash keep)).world
        = ⟨tear l.monitor.world.dir w keep, none⟩ := by
      simp only [Monitor.step, World.step, hw]
    rw [tear_eq h.idle.settled] at hworld
    exact .of_idle (h.durable.crash keep) hworld h.idle

/-- A crash that hits an append. -/
theorem Kept.append_crash (keep : Nat)
    (hspare : ∀ w ∈ l.monitor.world.wal, w.spare) :
    Kept crc ((l.event crc (.append rec fault)).event crc (.crash keep)) := by
  cases hw : l.monitor.world.wal with
  | none =>
    rw [event_of_stopped hw (by simp)]
    exact h.crash keep
  | some w =>
    rcases happend : Wal.append crc l.monitor.world.dir w rec fault with ⟨ans, d', w'⟩
    obtain ⟨hevent, hworld⟩ := event_append hw rec fault happend
    have hnext := (h.running w hw).append_crash (hspare w hw) keep happend
    have hdurable := (h.durable.append (h.sound_append rec fault hspare)).crash keep
    have hcrashed : ((l.monitor.step crc (.append rec fault)).step crc (.crash keep)).world
        = ⟨tear d' w' keep, none⟩ := by
      rw [Monitor.step, hworld]
      rfl
    rw [hevent]
    exact .of_idle hdurable hcrashed hnext

theorem Kept.checkpoint (upToSeq : UInt64) :
    Kept crc (l.event crc (.checkpoint upToSeq)) := by
  have hsound : Sound crc l.monitor (.checkpoint upToSeq) := fun w hw =>
    (h.running w hw).dropped_ne_kept upToSeq
  cases hw : l.monitor.world.wal with
  | none =>
    rw [event_of_stopped hw (by simp)]
    exact h
  | some w =>
    have hworld : (l.monitor.step crc (.checkpoint upToSeq)).world
        = ⟨(Wal.checkpoint l.monitor.world.dir w upToSeq).1,
          some (Wal.checkpoint l.monitor.world.dir w upToSeq).2⟩ := by
      simp only [Monitor.step, World.step, hw]
    exact .of_running (h.durable.checkpoint hsound) hworld ((h.running w hw).checkpoint upToSeq)

theorem Kept.close : Kept crc (l.event crc .close) := by
  cases hw : l.monitor.world.wal with
  | none =>
    rw [event_of_stopped hw (by simp)]
    exact h
  | some w =>
    have hworld : (l.monitor.step crc .close).world
        = ⟨(Wal.close l.monitor.world.dir w).1, some (Wal.close l.monitor.world.dir w).2⟩ := by
      simp only [Monitor.step, World.step, hw]
    exact .of_running h.durable.close hworld (h.running w hw).close

theorem Kept.open (hcontinues : Continues crc l.monitor.world.dir) : Kept crc (l.event crc .open) :=
  .of_running h.durable.open rfl (h.idle.load hcontinues)

end

theorem Kept.step (act : Act) (h : Kept crc l) (hsteady : Steady crc l act) :
    Kept crc (l.step crc act) := by
  cases act with
  | append rec => exact h.append hsteady
  | checkpoint => exact h.checkpoint _
  | close => exact h.close
  | «open» => exact h.open hsteady
  | crash last keep =>
    cases last with
    | none => exact h.crash keep
    | some p => exact h.append_crash keep hsteady

variable (crc)

/-- **Numbers and order.**  In every steady history the numbers that `Append` returned increase,
    and a running log's `Replay` hands out records whose numbers increase, in the order in which
    they were appended, with every acknowledged record that no checkpoint covered. -/
theorem numbers_increase (acts : List Act)
    (hsteady : Guarded (Ledger.step crc) (Steady crc) Ledger.start acts) :
    let l := run (Ledger.step crc) Ledger.start acts
    l.returned.Pairwise (· < ·) ∧ (l.monitor.world.wal.isSome → ∃ rs,
      l.monitor.world.replay crc = some rs ∧ rs.Pairwise (fun r s => r.seq < s.seq) ∧
        rs.Sublist l.issued ∧ ∀ p ∈ l.monitor.acked, p.2 ∈ rs) := by
  intro l
  have hkept : Kept crc l :=
    Runs.invariant_of_guarded (Kept crc) (fun l act h hact => h.step act hact) kept_start hsteady
  refine ⟨hkept.idle.increasing, fun hopen => ?_⟩
  obtain ⟨w, hw⟩ := Option.isSome_iff_exists.mp hopen
  have hreplay : l.monitor.world.replay crc = some (members (blocks crc l.monitor.world.dir)) := by
    rw [World.replay, hw]
    exact (hkept.running w hw).replay
  obtain ⟨rs, hrs, hacked⟩ := hkept.durable.delivers hw
  obtain rfl : members (blocks crc l.monitor.world.dir) = rs :=
    Option.some.inj (hreplay.symm.trans hrs)
  refine ⟨_, hreplay, ?_, hkept.idle.issued, hacked⟩
  exact hkept.idle.ordered.members.imp fun hlt => UInt64.lt_iff_toNat_lt.mpr hlt

/-- A crash in the middle of a frame, and a checkpoint before a restart. -/
theorem numbers_increase_after_crash :
    let l := run (Ledger.step fun _ => 0) Ledger.start [.open, .append (sample 2),
      .crash (some (sample 3, .write 20)) 60, .open, .append (sample 4), .checkpoint, .close, .open]
    l.returned = [1, 2] ∧ ∃ rs, l.monitor.world.replay (fun _ => 0) = some rs ∧
      rs.Pairwise (fun r s => r.seq < s.seq) ∧ rs.Sublist l.issued ∧
      ∀ p ∈ l.monitor.acked, p.2 ∈ rs := by
  intro l
  have hsteady : Guarded (Ledger.step fun _ => 0) (Steady fun _ => 0) Ledger.start [.open,
      .append (sample 2), .crash (some (sample 3, .write 20)) 60, .open, .append (sample 4),
      .checkpoint, .close, .open] := by decide
  exact ⟨by decide, (numbers_increase (fun _ => 0) _ hsteady).2 (by decide)⟩

/-! ### Numbers that start again -/

/-- The number of records that fill a segment. -/
def segmentRecords : Nat := 1266205

/-- The records of a segment that appends of `rec` fill. -/
def filled (rec : Record) (n : Nat) : List Record :=
  (List.range n).map fun i => { rec with seq := UInt64.ofNat (i + 1) }

theorem filled_succ (rec : Record) (n : Nat) :
    filled rec (n + 1) = filled rec n ++ [{ rec with seq := UInt64.ofNat (n + 1) }] := by
  simp [filled, List.range_succ]

theorem filled_cons (rec : Record) (n : Nat) : filled rec (n + 1)
    = { rec with seq := 1 } :: (List.range n).map fun i => { rec with seq := UInt64.ofNat (i + 2) } := by
  rw [filled, List.range_succ_eq_map, List.map_cons, List.map_map]
  rfl

theorem ofNat_succ (n : Nat) : UInt64.ofNat n + 1 = UInt64.ofNat (n + 1) :=
  (UInt64.ofNat_add n 1).symm

theorem maxSeqOf_filled (rec : Record) {n : Nat} (hn : n ≤ segmentRecords) :
    maxSeqOf (filled rec n) = UInt64.ofNat n := by
  induction n with
  | zero => rfl
  | succ n ih =>
    have hlt : UInt64.ofNat n < UInt64.ofNat (n + 1) := by
      have hbound : n + 1 < 2 ^ 64 := Nat.lt_of_le_of_lt hn (by decide)
      rw [UInt64.lt_iff_toNat_lt, UInt64.toNat_ofNat_of_lt' hbound,
        UInt64.toNat_ofNat_of_lt' (Nat.lt_of_succ_lt hbound)]
      exact Nat.lt_succ_self n
    have hprev : (filled rec n).foldl (fun m r => if r.seq > m then r.seq else m) 0
        = UInt64.ofNat n := ih (Nat.le_of_succ_le hn)
    rw [maxSeqOf, filled_succ, List.foldl_append, hprev, List.foldl_cons, List.foldl_nil, if_pos hlt]

theorem records_frames (rs : List Record) : records crc (rs.flatMap (frame crc)) = rs := by
  induction rs with
  | nil => exact records_nil crc
  | cons r rs ih => rw [List.flatMap_cons, records_of_some crc (readFrame_frame crc r _), ih]

theorem length_frames (rec : Record) (n : Nat) :
    ((filled rec n).flatMap (frame crc)).length = n * frameLen := by
  induction n with
  | zero => simp [filled]
  | succ n ih =>
    rw [filled_succ, List.flatMap_append, List.length_append, ih, List.flatMap_singleton,
      length_frame, Nat.succ_mul]

/-- The world after `n` appends to a new directory. -/
def filling (rec : Record) (n : Nat) : World :=
  ⟨[(1, ⟨(filled rec n).flatMap (frame crc), n * frameLen⟩)],
    some ⟨UInt64.ofNat n, [⟨1, UInt64.ofNat n⟩], .opened 1, n * frameLen⟩⟩

/-- An append before the segment is full. -/
theorem filling_append (rec : Record) {n : Nat} (hn : n < segmentRecords) :
    append crc (filling crc rec n).dir ⟨UInt64.ofNat n, [⟨1, UInt64.ofNat n⟩], .opened 1, n * frameLen⟩
        rec .none
      = (some (UInt64.ofNat (n + 1)), (filling crc rec (n + 1)).dir,
        ⟨UInt64.ofNat (n + 1), [⟨1, UInt64.ofNat (n + 1)⟩], .opened 1, (n + 1) * frameLen⟩) := by
  have hfull : ¬ Log.full ⟨UInt64.ofNat n, [⟨1, UInt64.ofNat n⟩], .opened 1, n * frameLen⟩ := by
    intro hfull
    have hsize : segmentSize ≤ n * frameLen := hfull.2
    have hless : n * frameLen < segmentSize :=
      Nat.lt_of_le_of_lt (Nat.mul_le_mul_right frameLen (Nat.le_sub_one_of_lt hn)) (by decide)
    exact absurd hsize (Nat.not_le.mpr hless)
  have hbytes := length_frames crc rec (n + 1)
  rw [filled_succ, List.flatMap_append, List.flatMap_singleton] at hbytes
  rw [append, if_neg hfull, writeRecord]
  simp only [ofNat_succ, filling, filled_succ, List.flatMap_append, List.flatMap_singleton,
    length_frame, Dir.update, List.map_cons, List.map_nil, if_true, File.write, File.sync, hbytes,
    setMaxSeq, List.getLast?_singleton, List.dropLast_singleton, List.nil_append, Nat.succ_mul]

theorem filling_run (rec : Record) {n : Nat} (hn : n ≤ segmentRecords) :
    let l := run (Ledger.step crc) Ledger.start (.open :: List.replicate n (.append rec))
    l.monitor.world = filling crc rec n ∧ l.returned = (filled rec n).map Record.seq := by
  induction n with
  | zero => exact ⟨rfl, rfl⟩
  | succ n ih =>
    obtain ⟨hworld, hreturned⟩ := ih (Nat.le_of_succ_le hn)
    have hsplit : (Act.open :: List.replicate (n + 1) (.append rec))
        = (.open :: List.replicate n (.append rec)) ++ [.append rec] := by
      rw [List.replicate_succ', List.cons_append]
    rw [hsplit, run_append]
    generalize run (Ledger.step crc) Ledger.start (.open :: List.replicate n (.append rec)) = l
      at hworld hreturned ⊢
    have hw : l.monitor.world.wal = some _ := congrArg World.wal hworld
    have happend := filling_append crc rec (Nat.lt_of_succ_le hn)
    rw [← congrArg World.dir hworld] at happend
    obtain ⟨hevent, hnext⟩ := event_append hw rec .none happend
    show (l.event crc (.append rec .none)).monitor.world = _ ∧
      (l.event crc (.append rec .none)).returned = _
    rw [hevent]
    refine ⟨hnext, ?_⟩
    rw [filled_succ, List.map_append, ← hreturned]
    rfl

/-- The next append rolls to a new segment, and a crash leaves that one empty. -/
theorem filled_crash (rec : Record) (bytes : List UInt8) (size : Nat)
    (hsize : segmentSize ≤ size) (hlen : bytes.length = size) (top : UInt64) (htop : 1 < top + 1) :
    ∃ w', append crc [(1, ⟨bytes, size⟩)] ⟨top, [⟨1, top⟩], .opened 1, size⟩ rec (.write 0)
        = (none, [(1, ⟨bytes, size⟩), (top + 1, ⟨[], 0⟩)], w') ∧
      tear [(1, ⟨bytes, size⟩), (top + 1, ⟨[], 0⟩)] w' 0
        = [(1, ⟨bytes, size⟩), (top + 1, ⟨[], 0⟩)] := by
  have hne : (1 : UInt64) ≠ top + 1 := UInt64.ne_of_lt htop
  have hsettled : ∀ p ∈ [((1 : UInt64), (⟨bytes, size⟩ : File)), (top + 1, ⟨[], 0⟩)],
      p.2.synced = p.2.bytes.length := by simp [hlen]
  have hcreate : Dir.create [((1 : UInt64), (⟨bytes, size⟩ : File))] (top + 1)
      = [(1, ⟨bytes, size⟩), (top + 1, ⟨[], 0⟩)] := create_concat (by simpa using htop)
  refine ⟨⟨top + 1, [⟨1, top⟩, ⟨top + 1, 0⟩], .opened (top + 1), 0⟩, ?_, tear_eq hsettled _ 0⟩
  have hfull : Log.full ⟨top, [⟨1, top⟩], .opened 1, size⟩ := ⟨nofun, hsize⟩
  rw [append, if_pos hfull]
  unfold rollLocked
  rw [syncHandle_eq (by simp [hlen])]
  show writeRecord crc (Dir.create _ (top + 1)) _ rec (.write 0) = _
  rw [hcreate]
  simp only [writeRecord, List.take_zero, Dir.update, List.map_cons, List.map_nil, File.write,
    if_neg hne, if_true, List.append_nil]
  rfl

/-- What is opened then: the records' segment, and the empty one. -/
theorem load_filled (rec : Record) (size : Nat) :
    load crc [(1, ⟨(filled rec segmentRecords).flatMap (frame crc), size⟩),
        (UInt64.ofNat segmentRecords + 1, ⟨[], 0⟩)]
      = ([(1, ⟨(filled rec segmentRecords).flatMap (frame crc), size⟩),
          (UInt64.ofNat segmentRecords + 1, ⟨[], 0⟩)],
        ⟨UInt64.ofNat segmentRecords, [⟨1, UInt64.ofNat segmentRecords⟩,
          ⟨UInt64.ofNat segmentRecords + 1, 0⟩], .opened (UInt64.ofNat segmentRecords + 1), 0⟩) := by
  have hmax := maxSeqOf_filled rec (Nat.le_refl segmentRecords)
  have hne : (1 : UInt64) ≠ UInt64.ofNat segmentRecords + 1 := by decide
  have hpos : (0 : UInt64) < UInt64.ofNat segmentRecords := by decide
  have hnil : maxSeqOf [] = 0 := rfl
  generalize UInt64.ofNat segmentRecords = top at hmax hne hpos ⊢
  simp [load, records_frames, hmax, hnil, records_nil, validEnd, Dir.update, hne, hpos, File.truncate]

/-- The number that is returned after all that. -/
theorem filled_returned (hworld : l.monitor.world = filling crc (sample 2) segmentRecords) :
    (run (Ledger.step crc) l [.crash (some (sample 2, .write 0)) 0, .open, .checkpoint, .open,
      .append (sample 2)]).returned = l.returned ++ [1] := by
  have hlen := length_frames crc (sample 2) segmentRecords
  obtain ⟨w', hcrash, htear⟩ := filled_crash crc (sample 2) _ _ (by decide) hlen
    (UInt64.ofNat segmentRecords) (by decide)
  have hload := load_filled crc (sample 2) (segmentRecords * frameLen)
  unfold filling at hworld
  have hpos : UInt64.ofNat segmentRecords ≠ 0 := by decide
  have hne : (1 : UInt64) ≠ UInt64.ofNat segmentRecords + 1 := by decide
  generalize (filled (sample 2) segmentRecords).flatMap (frame crc) = bytes at *
  generalize segmentRecords * frameLen = size at *
  generalize UInt64.ofNat segmentRecords = top at *
  have hdropped : checkpoint [(1, ⟨bytes, size⟩), (top + 1, ⟨[], 0⟩)]
      ⟨top, [⟨1, top⟩, ⟨top + 1, 0⟩], .opened (top + 1), 0⟩ top
        = ([(top + 1, ⟨[], 0⟩)], ⟨top, [⟨top + 1, 0⟩], .opened (top + 1), 0⟩) := by
    simp [checkpoint, Log.dropped, Log.kept, Segment.covered, Dir.remove, hpos, hne.symm]
  have hreload : load crc [(top + 1, ⟨[], 0⟩)]
      = ([(top + 1, ⟨[], 0⟩)], ⟨0, [⟨top + 1, 0⟩], .opened (top + 1), 0⟩) := by
    simp [load, validEnd, records_nil, maxSeqOf, Dir.update, File.truncate]
  have hagain : (append crc [(top + 1, ⟨[], 0⟩)] ⟨0, [⟨top + 1, 0⟩], .opened (top + 1), 0⟩ (sample 2)
      .none).1 = some 1 := by
    rw [append, if_neg (by simp [Log.full, segmentSize])]
    rfl
  obtain ⟨⟨world, acked⟩, issued, returned⟩ := l
  obtain rfl : world = _ := hworld
  simp only [run_cons, run_nil, Ledger.step, Act.events, Ledger.event, Monitor.step, World.step,
    World.answer, Option.bind_some, hcrash, htear, hload, hdropped, hreload, hagain,
    Option.elim_some, Option.toList_none, Option.toList_some, List.append_nil]

/-- **A number is returned twice.**  A segment is filled, a crash comes right after the roll to the next one, the
    checkpoint after the restart drops all records, and after one more restart the numbers start again at one. -/
theorem number_returned_twice :
    let l := run (Ledger.step byteSum) Ledger.start
      ((.open :: List.replicate segmentRecords (.append (sample 2))) ++
        [.crash (some (sample 2, .write 0)) 0, .open, .checkpoint, .open, .append (sample 2)])
    l.returned.head? = some 1 ∧ l.returned.getLast? = some 1 ∧ ¬ l.returned.Pairwise (· < ·) := by
  intro l
  obtain ⟨hworld, hreturned⟩ := filling_run byteSum (sample 2) (Nat.le_refl segmentRecords)
  have hnext : l.returned = (filled (sample 2) segmentRecords).map Record.seq ++ [1] := by
    have hl : l = run (Ledger.step byteSum) _ _ := run_append _ _ _ _
    rw [hl, ← hreturned]
    exact filled_returned byteSum hworld
  have hfirst := congrArg (List.map Record.seq) (filled_cons (sample 2) (segmentRecords - 1))
  rw [Nat.sub_add_cancel (show 1 ≤ segmentRecords by decide), List.map_cons] at hfirst
  rw [hnext, hfirst]
  refine ⟨rfl, List.getLast?_concat, fun hincreasing => ?_⟩
  rw [List.cons_append, List.pairwise_cons] at hincreasing
  exact UInt64.lt_irrefl 1 (hincreasing.1 1 (by simp))

end

end MemoryLayer.Wal
