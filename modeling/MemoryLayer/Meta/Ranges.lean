import MemoryLayer.Lib.Layers
import MemoryLayer.Meta.Locks

namespace MemoryLayer.Meta

open Sql Sql.Tx Runs Layers

/-! # Byte-range locks of one owner

An owner's requests, one after another, on the ranges of one file: `splitRange` (`meta/locks.go`)
trims, splits or drops any number of the records stored so far.

- `splitRange64`: `splitRange` with `start - 1` and `end + 1` as `uint64` computes them.
- `Held`: the records against the requests granted so far.
- `plock_last_request_shows`: after any requests, each byte is locked as the last request on it asked.
-/

/-- A byte is in a range. -/
def PlockRec.covers (r : PlockRec) (x : Nat) : Bool := r.start ≤ x ∧ x ≤ r.last

/-- The bounds of a range are a `uint64` interval. -/
def PlockRec.Bounded (r : PlockRec) : Prop := r.start ≤ r.last ∧ r.last < UInt64.size

/-- `PlockRec.cut` in `uint64`. -/
def PlockRec.cut64 (start last : Nat) (r : PlockRec) : List PlockRec :=
  if r.disjoint start last then [r]
  else
    (if r.start < start then [{ r with last := (start + (UInt64.size - 1)) % UInt64.size }] else []) ++
      (if r.last > last then [{ r with start := (last + 1) % UInt64.size }] else [])

/-- `splitRange` in `uint64`. -/
def splitRange64 (recs : List PlockRec) (typ : PlockType) (start last pid : Nat) : List PlockRec :=
  recs.flatMap (PlockRec.cut64 start last) ++
    (if typ = .unlck then [] else [⟨typ, start, last, pid⟩])

/-- One request: the tables after it, and the requests granted so far.  A refused request leaves no
    trace. -/
def setlkStep (inode : Ino) (sid owner : Nat) (m : Memory) (s : Db × List PlockRec) (q : PlockRec) :
    Db × List PlockRec :=
  match (setlkTx inode sid owner q.typ q.start q.last q.pid).exec m s.1 with
  | .ok (_, db') => (db', s.2 ++ [q])
  | .error _ => s

/-- The types of the records on a byte. -/
def typesAt (recs : List PlockRec) (x : Nat) : List PlockType :=
  (recs.filter (PlockRec.covers · x)).map PlockRec.typ

/-- What requests leave on a byte: the type of the last one on it, and nothing after an unlock. -/
def lastOn (granted : List PlockRec) (x : Nat) : List PlockType :=
  match top PlockRec.covers granted x with
  | none => []
  | some q => if q.typ = .unlck then [] else [q.typ]

/-- The records give each byte the type of the last request on it. -/
structure Held (recs granted : List PlockRec) : Prop where
  bounded : ∀ r ∈ recs, r.Bounded
  types : ∀ x, typesAt recs x = lastOn granted x

/-! ### One request on the records -/

section

variable {recs granted : List PlockRec} {q r r' : PlockRec} {x : Nat}

theorem PlockRec.Bounded.of_cut (hr : r.Bounded) (hq : q.Bounded) (h : r' ∈ r.cut q.start q.last) :
    r'.Bounded := by
  unfold PlockRec.Bounded at *
  grind [PlockRec.cut, PlockRec.disjoint]

/-- What is left of a record is the record without the bytes of the request. -/
theorem typesAt_cut (hr : r.Bounded) (hq : q.Bounded) :
    typesAt (r.cut q.start q.last) x = if q.covers x then [] else typesAt [r] x := by
  obtain ⟨hr, -⟩ := hr
  obtain ⟨hq, -⟩ := hq
  simp only [typesAt, PlockRec.cut, PlockRec.disjoint, PlockRec.covers]
  grind

/-- **One request** replaces what is on its own bytes and nothing else. -/
theorem typesAt_splitRange (h : ∀ r ∈ recs, r.Bounded) (hq : q.Bounded) :
    typesAt (splitRange recs q.typ q.start q.last q.pid) x
      = if q.covers x then (if q.typ = .unlck then [] else [q.typ]) else typesAt recs x := by
  have happend : ∀ l l', typesAt (l ++ l') x = typesAt l x ++ typesAt l' x := by simp [typesAt]
  have hcut : typesAt (recs.flatMap (PlockRec.cut q.start q.last)) x
      = if q.covers x then [] else typesAt recs x := by
    induction recs with
    | nil => simp [typesAt]
    | cons r recs ih =>
      have hr := typesAt_cut (x := x) (h r List.mem_cons_self) hq
      rw [List.flatMap_cons, happend, hr, ih fun r' hr' => h r' (List.mem_cons_of_mem _ hr'),
        show r :: recs = [r] ++ recs from rfl, happend]
      split <;> rfl
  rw [splitRange, happend, hcut, show (⟨q.typ, q.start, q.last, q.pid⟩ : PlockRec) = q from rfl]
  by_cases hx : q.covers x = true <;> by_cases hlock : q.typ = .unlck <;> simp [typesAt, hx, hlock]

theorem Held.split (h : Held recs granted) (hq : q.Bounded) :
    Held (splitRange recs q.typ q.start q.last q.pid) (granted ++ [q]) where
  bounded := by
    intro r hr
    rcases List.mem_append.mp hr with hr | hr
    · obtain ⟨old, hold, hr⟩ := List.mem_flatMap.mp hr
      exact (h.bounded old hold).of_cut hq hr
    · split at hr
      · cases hr
      · cases List.mem_singleton.mp hr
        exact hq
  types := by
    intro x
    rw [typesAt_splitRange h.bounded hq, lastOn, top_concat]
    split
    · rfl
    · exact h.types x

/-- No byte is in two records. -/
theorem Held.apart (h : Held recs granted) :
    recs.Pairwise fun r r' => ∀ x, r.covers x = true → r'.covers x = false := by
  have hone : ∀ x, (recs.filter (PlockRec.covers · x)).length ≤ 1 := by
    intro x
    have hlen := congrArg List.length (h.types x)
    rw [typesAt, List.length_map] at hlen
    rw [hlen, lastOn]
    split
    · simp
    · split <;> simp
  clear h
  induction recs with
  | nil => exact .nil
  | cons r recs ih =>
    refine List.pairwise_cons.mpr ⟨fun r' hr' x hx => ?_, ih fun x => ?_⟩
    · have hx1 := hone x
      simp only [List.filter_cons, hx, if_true, List.length_cons] at hx1
      by_contra hx'
      have hmem : r' ∈ recs.filter (PlockRec.covers · x) :=
        List.mem_filter.mpr ⟨hr', by simpa using hx'⟩
      have := List.length_pos_of_mem hmem
      omega
    · exact Nat.le_trans ((List.sublist_cons_self r recs).filter _).length_le (hone x)

/-- A head is only kept below `start`, a tail only above `end`: neither bound wraps. -/
theorem PlockRec.cut64_eq (hr : r.Bounded) (hq : q.Bounded) :
    r.cut64 q.start q.last = r.cut q.start q.last := by
  unfold PlockRec.Bounded UInt64.size at *
  unfold PlockRec.cut64 PlockRec.cut UInt64.size
  grind

theorem splitRange64_eq (h : ∀ r ∈ recs, r.Bounded) (hq : q.Bounded) :
    splitRange64 recs q.typ q.start q.last q.pid = splitRange recs q.typ q.start q.last q.pid := by
  unfold splitRange64 splitRange
  rw [List.flatMap_congr fun r hr => PlockRec.cut64_eq (h r hr) hq]

end

/-! ### One request on the tables -/

section

variable {m : Memory} {db db' : Db} {u : Unit} {inode : Ino} {sid owner : Nat} {q : PlockRec}

/-- A row of the owner, as the constraint of the table tells it. -/
theorem clash_plock (mine : List PlockRec) :
    clash (ρ := Row) .plock ⟨inode, sid, owner, mine⟩ = isPlockOf inode sid owner := by
  funext r
  rw [Bool.eq_iff_iff]
  simp [clash_eq, rowClash, isPlockOf, and_assoc]

@[simp] theorem isPlockOf_rewritten (mine : List PlockRec) (r : Plock) :
    isPlockOf inode sid owner (if isPlockOf inode sid owner r then { r with records := mine } else r)
      = isPlockOf inode sid owner r := by
  split <;> rfl

theorem myPlock_upserted (mine : List PlockRec) :
    myPlock (edit .plock (upserted ⟨inode, sid, owner, mine⟩ fun r => { r with records := mine }) db)
      inode sid owner = mine := by
  simp only [myPlock, edit_self, upserted, clash_plock, updated, List.head?_filter]
  cases hold : (db .plock).find? (isPlockOf inode sid owner) with
  | some r =>
    have hany : (db .plock).any (isPlockOf inode sid owner) = true :=
      List.any_eq_true.mpr ⟨r, List.mem_of_find?_eq_some hold, List.find?_some hold⟩
    simp [hany, Function.comp_def, hold, List.find?_some hold]
  | none =>
    have hany : (db .plock).any (isPlockOf inode sid owner) = false := by simpa using hold
    simp [hany, hold, isPlockOf]

/-- The ranges of others do not depend on the rows of an owner. -/
theorem otherPlocks_congr (h : (db' .plock).filter (fun r => !isPlockOf inode sid owner r)
      = (db .plock).filter fun r => !isPlockOf inode sid owner r) :
    otherPlocks db' inode sid owner = otherPlocks db inode sid owner := by
  have hothers : ∀ rows : List Plock, ((rows.filter fun r => r.inode = inode).filter fun r =>
      ¬ (r.sid = sid ∧ r.owner = owner)) = (rows.filter fun r =>
        !isPlockOf inode sid owner r).filter fun r => r.inode = inode := by
    intro rows
    rw [List.filter_filter, List.filter_filter]
    apply List.filter_congr
    grind [isPlockOf]
  rw [otherPlocks, otherPlocks, hothers, hothers, h]

theorem filter_upserted (mine : List PlockRec) (rows : List Plock) :
    (upserted (ρ := Row) (t := .plock) ⟨inode, sid, owner, mine⟩ (fun r => { r with records := mine })
      rows).filter (fun r => !isPlockOf inode sid owner r)
      = rows.filter fun r => !isPlockOf inode sid owner r := by
  simp only [upserted, clash_plock, updated]
  split
  · simp only [List.filter_map, Function.comp_def, isPlockOf_rewritten]
    refine (List.map_congr_left fun r hr => if_neg ?_).trans (List.map_id _)
    simpa using (List.mem_filter.mp hr).2
  · simp [isPlockOf]

/-- A granted request stores the records that `splitRange` leaves, and changes no other owner's. -/
theorem setlkTx_stores
    (h : (setlkTx inode sid owner q.typ q.start q.last q.pid).exec m db = .ok (u, db')) :
    myPlock db' inode sid owner
        = splitRange (myPlock db inode sid owner) q.typ q.start q.last q.pid ∧
      otherPlocks db' inode sid owner = otherPlocks db inode sid owner := by
  rcases setlkTx_ok h with ⟨hnil, rfl⟩ | ⟨mine, hmine, -, rfl⟩
  · refine ⟨?_, otherPlocks_congr ?_⟩
    · rw [hnil]
      simp [myPlock, deleted]
    · simp [deleted]
  · refine ⟨(myPlock_upserted mine).trans hmine, otherPlocks_congr ?_⟩
    rw [edit_self, filter_upserted]

/-- Only a range of another owner can be in the way. -/
theorem setlkTx_granted (h : otherPlocks db inode sid owner = []) :
    ∃ db', (setlkTx inode sid owner q.typ q.start q.last q.pid).exec m db = .ok ((), db') := by
  simp only [setlkTx, exec_bind, exec_onlyIf, exec_loadOtherPlocks, andThen_ok, exec_loadMyPlock, h,
    plockConflict, List.find?_nil, exec_require, if_true, ite_self]
  split <;> exact ⟨_, rfl⟩

/-! ### Whole sequences of requests -/

/-- What holds after the requests `s.2` were granted: the records in the tables `s.1` show the last
    one on each byte. -/
theorem Held.setlkStep {s : Db × List PlockRec} (h : Held (myPlock s.1 inode sid owner) s.2) (hq : q.Bounded) :
    Held (myPlock (setlkStep inode sid owner m s q).1 inode sid owner)
      (setlkStep inode sid owner m s q).2 := by
  unfold Meta.setlkStep
  split
  · rename_i hexec
    rw [(setlkTx_stores hexec).1]
    exact h.split hq
  · exact h

/-- With no range of another owner on the file every request is granted. -/
theorem granted_all (h : otherPlocks db inode sid owner = []) (granted qs : List PlockRec) :
    (run (setlkStep inode sid owner m) (db, granted) qs).2 = granted ++ qs := by
  induction qs generalizing db granted with
  | nil => simp
  | cons q qs ih =>
    obtain ⟨db', hexec⟩ := setlkTx_granted (m := m) (q := q) h
    have hstep : setlkStep inode sid owner m (db, granted) q = (db', granted ++ [q]) := by
      simp [setlkStep, hexec]
    rw [run_cons, hstep, ih ((setlkTx_stores hexec).2.trans h), List.append_assoc,
      List.singleton_append]

end

/-- **The last request shows.**  From tables where an owner has no record for a file, after any
    requests of the owner on it: the records stored are disjoint `uint64` intervals, and a byte has a
    lock of a type exactly when the last granted request on it asked for that type and was no unlock.
    With no range of another owner on the file every request is granted.  The next request, whatever
    it is, makes no `start - 1` and no `end + 1` wrap. -/
theorem plock_last_request_shows (inode : Ino) (sid owner : Nat) (m : Memory) (db : Db)
    (hdb : myPlock db inode sid owner = []) (qs : List PlockRec) (hqs : ∀ q ∈ qs, q.Bounded) :
    let s := run (setlkStep inode sid owner m) (db, []) qs
    let recs := myPlock s.1 inode sid owner
    Held recs s.2 ∧ (recs.Pairwise fun r r' => ∀ x, r.covers x = true → r'.covers x = false) ∧
      (otherPlocks db inode sid owner = [] → s.2 = qs) ∧ ∀ q : PlockRec, q.Bounded →
        splitRange64 recs q.typ q.start q.last q.pid = splitRange recs q.typ q.start q.last q.pid := by
  intro s recs
  have hheld : Held recs s.2 := by
    refine invariant_of_guarded (fun s => Held (myPlock s.1 inode sid owner) s.2)
      (fun s q hs hq => hs.setlkStep hq) ?_ (guarded_of_forall hqs (db, []))
    rw [hdb]
    exact ⟨by simp, fun x => rfl⟩
  refine ⟨hheld, hheld.apart, fun hno => ?_, fun q hq => splitRange64_eq hheld.bounded hq⟩
  exact granted_all hno [] qs

/-- A read lock on the whole file, a write lock in its middle, and an unlock at its end. -/
def threeRequests : List PlockRec :=
  [⟨.rdlck, 0, 18446744073709551615, 7⟩, ⟨.wrlck, 5, 9, 7⟩,
    ⟨.unlck, 18446744073709551615, 18446744073709551615, 7⟩]

theorem plock_last_request_shows_three :
    myPlock (Engine.bootstrapDb ⟨0, 0⟩) 2 1 10 = [] ∧
      Held (myPlock (run (setlkStep 2 1 10 .idle) (Engine.bootstrapDb ⟨0, 0⟩, []) threeRequests).1 2 1 10)
        threeRequests :=
  ⟨rfl, (plock_last_request_shows 2 1 10 .idle _ rfl _ (by
    simp [threeRequests, PlockRec.Bounded, UInt64.size])).1⟩

end MemoryLayer.Meta
