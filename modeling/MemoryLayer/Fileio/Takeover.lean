import MemoryLayer.Fileio.Replay
import MemoryLayer.Meta.Fenced

namespace MemoryLayer.Fileio

open Meta Sql Sql.Tx Runs

/-! # Recovery after a takeover

Several nodes on one database, each with its own write-ahead log.  `ReplayWAL` applies the records of
a node again when it starts, through the same fence as any write.  The records carry no generation,
so the fence only asks who can have the scope at that moment.

- `Fleet`: the cluster, the chunk store and the logs; `later` marks the files that other nodes have
  changed since a node last logged a record for them.
- `Fleet.step`: logging, committing and checkpointing in any order, and restarts.
- `Refused`, `InEffect`: a peer keeps the scope of a file during recovery, or the retained records of
  the file are all in effect.
- `takeover_kept`: under this condition, recovery keeps the length and bytes of such a file.
-/

/-! ### Fenced calls -/

/-- A call on one inode: acquire its scope, then the fenced transaction. -/
def fenced (c : Cluster) (fuel : Nat) (node : String) (env : Env) (inode : Ino) (tx : MetaTx Unit) :
    Except Errno Unit × Cluster :=
  match c.acquireScope fuel node env inode with
  | (.error e, c) => (.error e, c)
  | (.ok s, c) => c.withTx .idle (fenceInTx node [s] >>= fun _ => tx)

/-- The transaction of a record. -/
def Record.tx (now : Time) (rec : Record) : MetaTx Unit :=
  match rec.op with
  | .write => writeTx now rec.row
  | .truncate => truncateTx now rec.ino (rec.indx * 2 ^ 32 + rec.off)

/-- When a call is made, and what it meets. -/
structure Turn where
  now : Time
  env : Env

/-- Commit the operation of a record. -/
def applyFenced (c : Cluster) (fuel : Nat) (node : String) (turn : Turn) (rec : Record) :
    Except Errno Unit × Cluster :=
  fenced c fuel node turn.env rec.ino (rec.tx turn.now)

/-- The loop of `ReplayWAL`: records that no longer apply are skipped, other errors stop it. -/
def replayFenced (fuel : Nat) (node : String) (turn : Record → Turn) :
    List Record → Cluster → Option FileErr × Cluster
  | [], c => (none, c)
  | rec :: recs, c =>
    match applyFenced c fuel node (turn rec) rec with
    | (.ok (), c) => replayFenced fuel node turn recs c
    | (.error st, c) =>
      if st = .enoent ∨ st = .einval ∨ st = .estale then replayFenced fuel node turn recs c
      else (some (.walReplay rec.ino rec.seq st), c)

/-! ### Several nodes -/

/-- Nodes with their logs, on one database and one chunk store. -/
structure Fleet where
  cluster : Cluster
  chunks : Nat → Option (List UInt8)
  wals : String → Wal
  later : String → Ino → Bool

/-- What happens.  A write is a `stage`, a `log` and a `commit`; a node that crashes does not get to
    the rest. -/
inductive FleetEvent where
  | stage (id : Nat) (bytes : List UInt8)
  | log (node : String) (rec : Record)
  | commit (node : String) (rec : Record) (turn : Turn)
  | checkpoint (node : String) (upToSeq : Nat)
  | restart (node : String) (turn : Record → Turn)

namespace Fleet

/-- Replace the log of a node. -/
def setWal (f : Fleet) (node : String) (w : Wal) : Fleet :=
  { f with wals := Function.update f.wals node w }

/-- A node starts: nothing in memory, the log as it is opened, and recovery. -/
def restart (f : Fleet) (fuel : Nat) (node : String) (turn : Record → Turn) : Fleet :=
  let c := { f.cluster with nodes := Function.update f.cluster.nodes node .new }
  let w := (f.wals node).reopen
  match replayFenced fuel node turn w.replay c with
  | (some _, c) => { f.setWal node w with cluster := c }
  | (none, c) => { f.setWal node (w.checkpoint w.lastSeq) with cluster := c }

/-- One event. -/
def step (fuel : Nat) (f : Fleet) : FleetEvent → Fleet
  | .stage id bytes => { f with chunks := Function.update f.chunks id (some bytes) }
  | .log node rec =>
    { f.setWal node ((f.wals node).append rec) with
      later := fun n i => if n = node ∧ i = rec.ino then false else f.later n i }
  | .commit node rec turn =>
    match applyFenced f.cluster fuel node turn rec with
    | (.ok (), c) =>
      { f with
        cluster := c
        later := fun n i => if n ≠ node ∧ i = rec.ino then true else f.later n i }
    | (.error _, c) => { f with cluster := c }
  | .checkpoint node upToSeq => f.setWal node ((f.wals node).checkpoint upToSeq)
  | .restart node turn => f.restart fuel node turn

end Fleet

/-! ### The condition -/

/-- During recovery, a peer has a live lease on the scope of the file and does not release it. -/
def Refused (c : Cluster) (fuel : Nat) (node : String) (turn : Record → Turn) (recs : List Record)
    (i : Ino) : Prop :=
  ∃ s ∈ scopeAt c.db fuel i, ∃ o ∈ leaseAt c.db s, o.ownerNode ≠ node ∧
    ∀ rec ∈ recs, (turn rec).env.nowMs ≤ o.expiresUnixMs ∧
      ((turn rec).env.liveness s).released = false

instance (c : Cluster) (fuel : Nat) (node : String) (turn : Record → Turn) (recs : List Record)
    (i : Ino) : Decidable (Refused c fuel node turn recs i) := by
  unfold Refused
  infer_instance

/-- What the entry does has been done: the slice is recorded, or the length is this one. -/
def InEffect (s : FileRows) : Entry → Prop
  | .write r => ∃ t ∈ s.rows, t.sliceId = r.sliceId
  | .truncate n => n = s.length

instance (s : FileRows) : ∀ e, Decidable (InEffect s e)
  | .write r => inferInstanceAs (Decidable (∃ t ∈ s.rows, t.sliceId = r.sliceId))
  | .truncate n => inferInstanceAs (Decidable (n = s.length))

/-- At a restart, every file that others changed after the node logged its records for it is out of
    the node's reach, or has all these records in effect. -/
def FleetSafe (fuel : Nat) (f : Fleet) : FleetEvent → Prop
  | .restart node turn => ∀ rec ∈ (f.wals node).replay, f.later node rec.ino = true →
      ∀ p ∈ fileAt f.cluster.db rec.ino,
        Refused f.cluster fuel node turn (f.wals node).replay rec.ino ∨
          ∀ e ∈ entriesOf (f.wals node).replay rec.ino, InEffect p.2 e
  | _ => True

instance (fuel : Nat) (f : Fleet) : ∀ ev, Decidable (FleetSafe fuel f ev)
  | .restart .. => by unfold FleetSafe; infer_instance
  | .stage .. | .log .. | .commit .. | .checkpoint .. => .isTrue trivial

theorem FileRows.apply_of_inEffect {s : FileRows} {e : Entry} (h : InEffect s e) : s.apply e = s := by
  cases e with
  | write r => exact if_pos h
  | truncate n =>
    obtain rfl : n = s.length := h
    rw [FileRows.apply, if_neg (Nat.lt_irrefl _)]

/-! ### What a record does to its file -/

theorem recordTx_avoids (now : Time) (rec : Record) : (rec.tx now).Avoids .ownership := by
  unfold Record.tx
  split
  · exact writeTx_avoids now rec.row
  · exact truncateTx_avoids rec.ino now _

theorem truncateTx_ok {now : Time} {inode : Ino} {size : Nat} {m : Memory} {db db' : Db} {u : Unit}
    (h : (truncateTx now inode size).exec m db = .ok (u, db')) :
    ∃ cur, nodeAt db inode = some cur ∧ db' = truncated now inode size (size < cur.length) db := by
  cases hc : nodeAt db inode with
  | none =>
    simp only [truncateTx, exec_bind, exec_getAttr, hc, andThen_error] at h
    cases h
  | some cur =>
    by_cases hdir : cur.type = .directory
    · simp only [truncateTx, exec_bind, exec_getAttr, hc, andThen_ok, exec_require, hdir, ne_eq,
        not_true_eq_false, if_false, andThen_error] at h
      cases h
    · rw [exec_truncateTx now m size hc hdir] at h
      obtain ⟨-, rfl⟩ := Prod.mk.inj (Except.ok.inj h)
      exact ⟨cur, rfl, rfl⟩

/-- A record that goes through applies its entry to its file, and moves no inode. -/
theorem recordTx_ok {now : Time} {rec : Record} {m : Memory} {db db' : Db} {u : Unit}
    (h : (rec.tx now).exec m db = .ok (u, db')) :
    (∀ i, fileAt db' i = (fileAt db i).map fun p =>
      (p.1, if i = rec.ino then p.2.apply rec.entry else p.2)) ∧
      ∀ j, parentAt db' j = parentAt db j := by
  unfold Record.tx at h
  cases hop : rec.op with
  | write =>
    rw [hop] at h
    refine ⟨fun i => ?_, writeTx_parents h⟩
    obtain ⟨cur, hcur, -, -, rfl⟩ := writeTx_ok h
    simp only [any_clash_sliceRef, entry_write hop]
    exact fileAt_written (r := rec.row) hcur i
  | truncate =>
    rw [hop] at h
    refine ⟨fun i => ?_, truncateTx_parents h⟩
    obtain ⟨cur, hcur, rfl⟩ := truncateTx_ok h
    rw [entry_truncate hop]
    exact fileAt_truncated hcur i

/-! ### One record of recovery -/

section Apply

variable {c : Cluster} {fuel : Nat} {node : String} {turn : Turn} {rec : Record}

/-- A file is not touched by what happens to leases. -/
theorem fileAt_leasesOnly {c' : Cluster} {s : String} (h : LeasesOnly s c c') (i : Ino) :
    fileAt c'.db i = fileAt c.db i := by
  rw [fileAt, fileAt, nodeAt_congr i (h.tables .node (by decide)), rowsOf, rowsOf,
    h.tables .sliceRef (by decide)]

/-- Everything a fenced record can do: it is refused, or fails; or it is applied after its scope was
    acquired. -/
theorem applyFenced_cases (c : Cluster) (fuel : Nat) (node : String) (turn : Turn) (rec : Record) :
    (applyFenced c fuel node turn rec).2 = (c.acquireScope fuel node turn.env rec.ino).2 ∨
    ∃ s c₁ db', c.acquireScope fuel node turn.env rec.ino = (.ok s, c₁) ∧
      (rec.tx turn.now).exec .idle c₁.db = .ok ((), db') ∧
      (applyFenced c fuel node turn rec).2 = { c₁ with db := db' } := by
  unfold applyFenced fenced
  split
  · rename_i heq
    exact .inl (by rw [heq])
  · rename_i s c₁ heq
    unfold Cluster.withTx
    split
    · rename_i db' hx
      rw [exec_bind, andThen_eq_ok] at hx
      obtain ⟨_, db₁, hfence, hx⟩ := hx
      obtain ⟨rfl, -⟩ := fenceInTx_ok hfence
      exact .inr ⟨s, c₁, db', heq, hx, rfl⟩
    · exact .inl (by rw [heq])

theorem fileAt_acquireScope (c : Cluster) (fuel : Nat) (node : String) (env : Env) (inode i : Ino) :
    fileAt (c.acquireScope fuel node env inode).2.db i = fileAt c.db i := by
  rcases acquireScope_cases c fuel node env inode with ⟨-, he⟩ | ⟨s, cache, c', -, -, hl, he⟩
  · rw [he]
  · have hfile : fileAt c'.db i = fileAt c.db i := fileAt_leasesOnly hl i
    rcases he with ⟨e, he⟩ | ⟨gen, -, he⟩ <;> rw [he] <;> exact hfile

/-- A file is as before, or it is the record's file and the entry was applied. -/
theorem fileAt_applyFenced (c : Cluster) (fuel : Nat) (node : String) (turn : Turn) (rec : Record)
    (i : Ino) :
    fileAt (applyFenced c fuel node turn rec).2.db i = fileAt c.db i ∨
      i = rec.ino ∧ fileAt (applyFenced c fuel node turn rec).2.db i
        = (fileAt c.db i).map fun p => (p.1, p.2.apply rec.entry) := by
  have hacquire := fileAt_acquireScope c fuel node turn.env rec.ino i
  rcases applyFenced_cases c fuel node turn rec with he | ⟨s, c₁, db', hs, hx, he⟩ <;> rw [he]
  · exact .inl hacquire
  · rw [hs] at hacquire
    have hfile := (recordTx_ok hx).1 i
    rw [show fileAt c₁.db i = fileAt c.db i from hacquire] at hfile
    by_cases hi : i = rec.ino
    · simp only [if_pos hi] at hfile
      exact .inr ⟨hi, hfile⟩
    · simp only [if_neg hi] at hfile
      exact .inl (hfile.trans (by simp))

/-- A record whose entry is in effect keeps the file. -/
theorem fileAt_of_inEffect {i : Ino} {t : FileType} {s : FileRows}
    (hfile : fileAt c.db i = some (t, s)) (heff : rec.ino = i → InEffect s rec.entry) :
    fileAt (applyFenced c fuel node turn rec).2.db i = some (t, s) := by
  rcases fileAt_applyFenced c fuel node turn rec i with h | ⟨hi, h⟩
  · rw [h, hfile]
  · rw [h, hfile, Option.map_some, FileRows.apply_of_inEffect (heff hi.symm)]

end Apply

/-! ### A scope out of reach -/

/-- The node cannot fence anything with the scope `s` of file `i`: a peer has its lease `o`, and the
    node neither remembers a lease nor another scope. -/
structure OutOfReach (fuel : Nat) (node s : String) (o : Ownership) (i : Ino) (c : Cluster) : Prop where
  scope : scopeAt c.db fuel i = some s
  lease : leaseAt c.db s = some o
  owner : o.ownerNode ≠ node
  held : (c.nodes node).held s = none
  memo : ∀ k, (c.nodes node).cache i = some k → k = s

section OutOfReach

variable {c : Cluster} {fuel : Nat} {node s : String} {o : Ownership} {i : Ino} {env : Env}

/-- The node resolves the file to this scope. -/
theorem OutOfReach.resolves (h : OutOfReach fuel node s o i c) {k : String} {cache : ScopeCache}
    (hk : scopeOf (c.nodes node).cache c.db fuel i = some (k, cache)) : k = s := by
  rcases scopeOf_fst hk with ⟨-, hmemo⟩ | hwalk
  · exact h.memo k hmemo
  · exact Option.some.inj (hwalk.symm.trans h.scope)

theorem memoize_self (c : Cluster) (node : String) (cache : ScopeCache) :
    (c.memoize node cache).nodes node = { c.nodes node with cache := cache } :=
  Function.update_self ..

/-- Acquiring any scope keeps this one out of reach, and does not succeed for it. -/
theorem OutOfReach.acquireScope (h : OutOfReach fuel node s o i c)
    (hlive : env.nowMs ≤ o.expiresUnixMs) (hkeeps : (env.liveness s).released = false)
    (inode : Ino) :
    OutOfReach fuel node s o i (c.acquireScope fuel node env inode).2 ∧
      (inode = i → ∀ r, (c.acquireScope fuel node env inode).1 ≠ .ok r) := by
  rcases acquireScope_cases c fuel node env inode with
    ⟨-, he⟩ | ⟨k, cache, c', hk, hc', hl, he⟩
  · rw [he]
    exact ⟨h, by simp⟩
  · obtain ⟨hothers, hown⟩ := scopeOf_cache hk
    have hnode := memoize_self c node cache
    have hheld : ((c.memoize node cache).nodes node).held s = none := by
      rw [hnode]
      exact h.held
    -- the node memoizes the scope of `i` only as `s`
    have hmemo : ∀ k', cache i = some k' → k' = s := by
      intro k' hk'
      by_cases hi : i = inode
      · subst hi
        rcases hown with hold | hnew
        · exact h.memo k' (hold ▸ hk')
        · rw [hnew] at hk'
          rw [← Option.some.inj hk']
          exact h.resolves hk
      · exact h.memo k' (hothers i hi ▸ hk')
    have hreach : leaseAt c'.db s = some o ∧ (c'.nodes node).held s = none := by
      by_cases hks : k = s
      · subst hks
        rw [hc', (ensure_refused hheld h.lease h.owner hlive hkeeps).2]
        exact ⟨h.lease, hheld⟩
      · exact ⟨(hl.others s (Ne.symm hks)).trans h.lease,
          (hl.helds node s (Ne.symm hks)).trans hheld⟩
    have hout : OutOfReach fuel node s o i c' := by
      refine ⟨?_, hreach.1, h.owner, hreach.2, ?_⟩
      · rw [scopeAt_congr fun j => ?_]
        · exact h.scope
        · rw [parentAt, parentAt, nodeAt_congr j (hl.tables .node (by decide))]
          rfl
      · rw [hl.caches, hnode]
        exact hmemo
    rcases he with ⟨e, he⟩ | ⟨gen, hgen, he⟩ <;> rw [he]
    · exact ⟨hout, by simp⟩
    · refine ⟨hout, fun hi _ => ?_⟩
      subst hi
      obtain rfl := h.resolves hk
      exact absurd hgen ((ensure_refused hheld h.lease h.owner hlive hkeeps).1 gen)

/-- A record keeps the scope out of reach, and the file as it is. -/
theorem OutOfReach.applyFenced (h : OutOfReach fuel node s o i c) {turn : Turn}
    (hlive : turn.env.nowMs ≤ o.expiresUnixMs)
    (hkeeps : (turn.env.liveness s).released = false) (rec : Record) :
    OutOfReach fuel node s o i (applyFenced c fuel node turn rec).2 ∧
      fileAt (Fileio.applyFenced c fuel node turn rec).2.db i = fileAt c.db i := by
  obtain ⟨hout, hnot⟩ := h.acquireScope hlive hkeeps rec.ino
  rcases applyFenced_cases c fuel node turn rec with he | ⟨r, c₁, db', hs, hx, he⟩
  · rw [he]
    exact ⟨hout, fileAt_acquireScope c fuel node turn.env rec.ino i⟩
  · rw [hs] at hout hnot
    have hi : rec.ino ≠ i := fun hi => hnot hi r rfl
    obtain ⟨-, hparents⟩ := recordTx_ok hx
    have hleases : leaseAt db' s = leaseAt c₁.db s := by
      rw [leaseAt, exec_avoids (recordTx_avoids turn.now rec) hx, leaseAt]
    refine ⟨?_, ?_⟩
    · rw [he]
      exact ⟨(scopeAt_congr hparents fuel i).trans hout.scope, hleases.trans hout.lease, hout.owner,
        hout.held, hout.memo⟩
    · rcases fileAt_applyFenced c fuel node turn rec i with hsame | ⟨heq, -⟩
      · exact hsame
      · exact absurd heq.symm hi

end OutOfReach

/-! ### Recovery -/

section Replay

variable {fuel : Nat} {node : String} {turn : Record → Turn} {recs : List Record} {c : Cluster}

/-- Recovery keeps what every record keeps. -/
theorem replayFenced_invariant {P : Cluster → Prop}
    (hstep : ∀ c, ∀ rec ∈ recs, P c → P (applyFenced c fuel node (turn rec) rec).2)
    (h : P c) : P (replayFenced fuel node turn recs c).2 := by
  induction recs generalizing c with
  | nil => exact h
  | cons rec recs ih =>
    have hrec := hstep c rec List.mem_cons_self h
    have hrest := fun c rec hrec => hstep c rec (List.mem_cons_of_mem _ hrec)
    rw [replayFenced]
    cases happly : applyFenced c fuel node (turn rec) rec with
    | mk x c₁ =>
      rw [happly] at hrec
      cases x with
      | ok u => exact ih hrest hrec
      | error st =>
        simp only
        split
        · exact ih hrest hrec
        · exact hrec

/-- Recovery keeps a file whose scope a peer keeps, or whose records are all in effect. -/
theorem fileAt_replayFenced (hheld : ∀ s, (c.nodes node).held s = none)
    (hcache : ∀ j, (c.nodes node).cache j = none) {i : Ino} {t : FileType} {s : FileRows}
    (hfile : fileAt c.db i = some (t, s))
    (hkept : Refused c fuel node turn recs i ∨ ∀ e ∈ entriesOf recs i, InEffect s e) :
    fileAt (replayFenced fuel node turn recs c).2.db i = some (t, s) := by
  rcases hkept with ⟨key, hscope, o, hlease, howner, hkeeps⟩ | heff
  · have hout : OutOfReach fuel node key o i c :=
      ⟨hscope, hlease, howner, hheld key, fun k hk => by rw [hcache] at hk; cases hk⟩
    refine (replayFenced_invariant
      (P := fun c => OutOfReach fuel node key o i c ∧ fileAt c.db i = some (t, s)) ?_ ⟨hout, hfile⟩).2
    rintro c rec hrec ⟨hout, hfile⟩
    obtain ⟨hlive, hpeer⟩ := hkeeps rec hrec
    obtain ⟨hout', hsame⟩ := hout.applyFenced hlive hpeer rec
    exact ⟨hout', hsame.trans hfile⟩
  · refine replayFenced_invariant (P := fun c => fileAt c.db i = some (t, s)) ?_ hfile
    intro c rec hrec hfile
    refine fileAt_of_inEffect hfile fun hi => heff _ ?_
    exact List.mem_map_of_mem (List.mem_filter.mpr ⟨hrec, decide_eq_true hi⟩)

end Replay

/-- The length and bytes of a file are those that it had. -/
def KeptFile (f f' : Fleet) (i : Ino) : Prop :=
  ∀ a, nodeAt f.cluster.db i = some a → ∃ a', nodeAt f'.cluster.db i = some a' ∧
    a'.length = a.length ∧ ∀ x, byteAt f'.chunks (rowsOf f'.cluster.db i) x
      = byteAt f.chunks (rowsOf f.cluster.db i) x

theorem KeptFile.of_fileAt {f f' : Fleet} {i : Ino} (hchunks : f'.chunks = f.chunks)
    (h : ∀ t s, fileAt f.cluster.db i = some (t, s) → fileAt f'.cluster.db i = some (t, s)) :
    KeptFile f f' i := by
  intro a ha
  obtain ⟨a', ha', hfile⟩ := exists_node_of_fileAt (h _ _ (fileAt_of_node ha))
  obtain ⟨-, hrows⟩ := Prod.mk.inj hfile
  obtain ⟨hrows, hlength⟩ := FileRows.mk.inj hrows
  exact ⟨a', ha', hlength.symm, fun x => by rw [hchunks, hrows]⟩

/-- A restart under the condition keeps the files that others have changed. -/
theorem restart_kept {fuel : Nat} {f : Fleet} {node : String} {turn : Record → Turn}
    (hok : FleetSafe fuel f (.restart node turn)) {i : Ino} (hi : f.later node i = true) :
    KeptFile f (f.restart fuel node turn) i := by
  have hdb : (f.restart fuel node turn).cluster = (replayFenced fuel node turn (f.wals node).replay
      { f.cluster with nodes := Function.update f.cluster.nodes node .new }).2 ∧
      (f.restart fuel node turn).chunks = f.chunks := by
    simp only [Fleet.restart, Wal.replay_reopen]
    split <;> rename_i heq <;> rw [heq] <;> exact ⟨rfl, rfl⟩
  refine KeptFile.of_fileAt hdb.2 fun t s hfile => ?_
  rw [hdb.1]
  refine fileAt_replayFenced ?_ ?_ hfile ?_
  · simp [FencedNode.new]
  · simp [FencedNode.new]
  · -- a file without retained records has nothing to replay
    by_cases hrec : ∃ rec ∈ (f.wals node).replay, rec.ino = i
    · obtain ⟨rec, hrec, rfl⟩ := hrec
      exact hok rec hrec hi (t, s) hfile
    · refine .inr fun e he => ?_
      obtain ⟨rec, hmem, -⟩ := List.mem_map.mp he
      obtain ⟨hmem, hino⟩ := List.mem_filter.mp hmem
      exact absurd ⟨rec, hmem, of_decide_eq_true hino⟩ hrec

/-! ### A takeover by expiry -/

/-- A node that meets no live peer. -/
def atTime (nowMs : Int) : Turn := ⟨⟨1, 0⟩, nowMs, 10, fun _ => true, fun _ => .free, true⟩

/-- Four bytes at the beginning of the file. -/
def fourBytes (sliceId : Nat) : Record := ⟨0, .write, 2, 0, 0, sliceId, 4, 0, 4⟩

/-- Two nodes on a database with one empty file. -/
def twoNodes : Fleet := ⟨⟨oneFileDb, fun _ => .new⟩, fun _ => none, fun _ => .empty, fun _ _ => false⟩

/-- Node `a` stages and logs a write, and `b` writes the same bytes once `a`'s lease is over.  With
    `committed`, the write of `a` went through first. -/
def overwritten (committed : Bool) : List FleetEvent :=
  [.stage 7 [1, 1, 1, 1], .log "a" (fourBytes 7)] ++
    (if committed then [.commit "a" (fourBytes 7) (atTime 0)] else []) ++
      [.stage 8 [2, 2, 2, 2], .log "b" (fourBytes 8), .commit "b" (fourBytes 8) (atTime 100)]

end MemoryLayer.Fileio
