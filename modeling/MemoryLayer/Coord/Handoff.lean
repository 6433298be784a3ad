import MemoryLayer.Meta.Ownership

namespace MemoryLayer.Coord

open Meta Sql Runs

/-! # Ownership handoff

A node that wants to write in a scope asks the node that owns it to release it (`coord/handoff.go`,
`coord/owner.go`).  The owner drains its write-back cache (`cache/cache.go`, called by the release
hook of the daemon), gives up the lease, deletes its liveness key and answers; the other node then
takes the lease.  Meanwhile `Files.Write` calls run on the owning node: each stages a slice in the
cache, looks up the lease and records the slice in a fenced transaction.

- `Writer`, `Phase`: how far a write and the handoff are.
- `Handoff`, `Handoff.step`: the owner's cache, the backing store, the lease tables with all sessions,
  and one step of any party.
- `Quiet`: what a run must avoid: a slice of the scope that is recorded behind the drain's back.
- `handoff_drained`: under this condition, after the answer "ok" every recorded slice of the scope is
  in the backing store.
- `recorded_after_drain`: a write between the drain and the release is in nobody's reach.
-/

/-- One chunk of a `Files.Write` call on the owning node: its slice is staged, `Ensure` is asking for
    the lease of the file's scope, or the transaction of `meta.Write` runs. -/
inductive Writer where
  | idle
  | staged (scope : String) (r : SliceRef)
  | acquiring (scope : String) (r : SliceRef)
  | writing (scope : String) (r : SliceRef)
  deriving DecidableEq, Repr

/-- The slice of a write under way. -/
def Writer.slice? : Writer → Option Nat
  | .idle => none
  | .staged _ r => some r.sliceId
  | .acquiring _ r => some r.sliceId
  | .writing _ r => some r.sliceId

/-- How far `handleHandoff` is, with the generation it releases and the staged files it has listed and
    not drained. -/
inductive Phase where
  | idle
  | draining (gen : Int) (todo : List Nat)
  | releasing
  | released
  | keyDeleted
  | forgotten
  | repliedOk
  | declined
  deriving DecidableEq, Repr

/-- The files of the staging directory have been listed. -/
def Phase.listed : Phase → Bool
  | .idle => false
  | .declined => false
  | _ => true

/-- The listed files that are not drained yet. -/
def Phase.todo : Phase → List Nat
  | .draining _ todo => todo
  | _ => []

/-- What happens to one staged file in a drain: it is uploaded, it cannot be read and is moved to the
    quarantine, or the upload fails. -/
inductive DrainOutcome where
  | uploaded
  | unreadable
  | failed
  deriving DecidableEq, Repr

/-- The scope that is handed over, and the two nodes. -/
structure Parties where
  scope : String
  owner : String
  requester : String

/-- The owning node, the backing store and the database.
    * `staging`: the slices that are only in the owner's staging directory;
    * `held`, `live`: the leases the owner thinks it has, and the liveness keys;
    * `recorded`: the slices the owner has recorded, with the scope they were fenced with. -/
structure Handoff where
  db : OwnershipServer
  staging : List Nat
  backing : List Nat
  nextslice : Nat
  held : String → Option Int
  live : String → Option String
  writers : Nat → Writer
  phase : Phase
  recorded : List (String × SliceRef)

/-- What the parties can do.  Any other session may also run lease calls and writes. -/
inductive HandoffEvent where
  | stage (w : Nat) (scope : String) (inode indx pos len : Nat)
  | ensure (w : Nat) (expired : Bool) (now : Time) (nowMs ttlMs : Int)
  | statement (w : Nat) (m : Memory) (now : Time)
  | upload (id : Nat)
  | quarantine (id : Nat)
  | request (early : Bool)
  | drain (id : Nat) (outcome : DrainOutcome)
  | release
  | releaseStatement (m : Memory)
  | deleteKey
  | forget
  | reply
  | acquire (nowMs ttlMs : Int)
  | acquireStatement (m : Memory)
  | other (s : Nat) (ev : SessionEvent Memory OwnershipCall)

/-- The sessions of the parties. -/
def handoffSession : Nat := 0
@[inherit_doc handoffSession] def requesterSession : Nat := 1
@[inherit_doc handoffSession] def writerSession (w : Nat) : Nat := 2 * w + 2
@[inherit_doc handoffSession] def otherSession (s : Nat) : Nat := 2 * s + 3

/-- What became of a session's transaction in a step: it goes on, it was rolled back, or it was
    committed with an answer. -/
inductive Outcome where
  | running
  | rolledBack
  | committed (a : OwnershipAnswer)
  deriving DecidableEq, Repr

/-- The outcome of a step of session `s` from `db` to `db'`. -/
def outcome (s : Nat) (db db' : OwnershipServer) : Outcome :=
  match db'.txs s with
  | some _ => .running
  | none =>
    if db'.log.length > db.log.length then
      match db'.log.getLast? with
      | some (_, a) => .committed a
      | none => .rolledBack
    else .rolledBack

/-- The fenced transaction that records a slice. -/
def recordCall (scope node : String) (gen : Int) (now : Time) (r : SliceRef) : OwnershipCall :=
  .write scope node gen ⟨writeTx now r, writeTx_avoids now r⟩

namespace Handoff

variable (p : Parties) {w x : Nat}

/-- A writer goes on. -/
def setWriter (h : Handoff) (w : Nat) (x : Writer) : Handoff :=
  { h with writers := Function.update h.writers w x }

/-- Move a staged slice to the backing store. -/
def uploaded (h : Handoff) (id : Nat) : Handoff :=
  if id ∈ h.staging then
    { h with staging := h.staging.erase id, backing := id :: h.backing }
  else h

/-- Begin the transaction of `meta.Write`. -/
def beginWrite (h : Handoff) (w : Nat) (scope : String) (gen : Int) (now : Time) (r : SliceRef) :
    Handoff :=
  { h.setWriter w (.writing scope r) with
    db := h.db.step (writerSession w, .begin (recordCall scope p.owner gen now r)) }

/-- `Ensure`: a lease that is known and not expired is used as it is; a live peer's lease is left to
    it; otherwise the lease is taken or renewed in the database. -/
def ensure (h : Handoff) (w : Nat) (expired : Bool) (now : Time) (nowMs ttlMs : Int)
    (scope : String) (r : SliceRef) : Handoff :=
  match h.held scope, expired with
  | some gen, false => h.beginWrite p w scope gen now r
  | _, _ =>
    if (h.live scope).getD p.owner ≠ p.owner then h.setWriter w .idle
    else
      { h.setWriter w (.acquiring scope r) with
        db := h.db.step (writerSession w, .begin (.acquire scope p.owner nowMs ttlMs)) }

/-- The next statement of a writer's transaction, and what follows from its end. -/
def statement (h : Handoff) (w : Nat) (m : Memory) (now : Time) : Handoff :=
  let db := h.db.step (writerSession w, .next m)
  match h.writers w, outcome (writerSession w) h.db db with
  | .acquiring scope r, .committed (.lease l true) =>
    beginWrite p { h with
      db := db
      held := Function.update h.held scope (some l.generation)
      live := Function.update h.live scope (some p.owner) } w scope l.generation now r
  | .writing scope r, .committed _ =>
    { h.setWriter w .idle with db := db, recorded := (scope, r) :: h.recorded }
  | .acquiring _ _, .running => { h with db := db }
  | .writing _ _, .running => { h with db := db }
  | .acquiring _ _, _ => { h.setWriter w .idle with db := db }
  | .writing _ _, _ => { h.setWriter w .idle with db := db }
  | _, _ => h

/-- One step of one party. -/
def step (h : Handoff) : HandoffEvent → Handoff
  | .stage w scope inode indx pos len =>
    match h.writers w with
    | .idle =>
      { h.setWriter w (.staged scope ⟨inode, indx, pos, h.nextslice, len, 0, len⟩) with
        nextslice := h.nextslice + 1, staging := h.nextslice :: h.staging }
    | _ => h
  | .ensure w expired now nowMs ttlMs =>
    match h.writers w with
    | .staged scope r => h.ensure p w expired now nowMs ttlMs scope r
    | _ => h
  | .statement w m now => h.statement p w m now
  | .upload id => h.uploaded id
  | .quarantine id => { h with staging := h.staging.erase id }
  | .request early =>
    match h.held p.scope, h.phase.listed && h.phase ≠ .repliedOk with
    -- not ours: stay silent; held for too short a time: decline
    | some gen, false =>
      if early then { h with phase := .declined }
      else { h with phase := .draining gen h.staging }
    | _, _ => h
  | .drain id out =>
    match h.phase with
    | .draining gen todo =>
      if id ∈ todo then
        match out with
        | .uploaded => { h.uploaded id with phase := .draining gen (todo.erase id) }
        -- the handler of unreadable files is set, so the drain goes on
        | .unreadable =>
          { h with staging := h.staging.erase id, phase := .draining gen (todo.erase id) }
        | .failed => { h with phase := .declined }
      else h
    | _ => h
  | .release =>
    match h.phase with
    | .draining gen [] =>
      { h with
        phase := .releasing
        db := h.db.step (handoffSession, .begin (.release p.scope p.owner gen)) }
    | _ => h
  | .releaseStatement m =>
    let db := h.db.step (handoffSession, .next m)
    match h.phase, outcome handoffSession h.db db with
    | .releasing, .committed _ => { h with db := db, phase := .released }
    | .releasing, .rolledBack => { h with db := db, phase := .declined }
    | .releasing, .running => { h with db := db }
    | _, _ => h
  | .deleteKey =>
    match h.phase with
    | .released => { h with live := Function.update h.live p.scope none, phase := .keyDeleted }
    | _ => h
  | .forget =>
    match h.phase with
    | .keyDeleted => { h with held := Function.update h.held p.scope none, phase := .forgotten }
    | _ => h
  | .reply =>
    match h.phase with
    | .forgotten => { h with phase := .repliedOk }
    | _ => h
  | .acquire nowMs ttlMs =>
    match h.phase with
    | .repliedOk =>
      { h with db := h.db.step (requesterSession, .begin (.acquire p.scope p.requester nowMs ttlMs)) }
    | _ => h
  | .acquireStatement m =>
    let db := h.db.step (requesterSession, .next m)
    match outcome requesterSession h.db db with
    | .committed (.lease _ true) =>
      { h with db := db, live := Function.update h.live p.scope (some p.requester) }
    | _ => { h with db := db }
  | .other s ev => { h with db := h.db.step (otherSession s, ev) }

/-! ### Runs in which nothing is recorded behind the drain's back -/

/-- The next step of a session is its commit. -/
def atCommit (db : OwnershipServer) (s : Nat) : Bool :=
  match db.txs s with
  | some ⟨_, .ret _, _⟩ => true
  | _ => false

/-- Once the staged files are listed, a slice of the scope is recorded only if it is in the backing
    store or still to be drained; and every staged file can be read. -/
def quiet (h : Handoff) : HandoffEvent → Bool
  | .statement w _ _ =>
    match h.writers w with
    | .writing scope r =>
      !(scope = p.scope && h.phase.listed && atCommit h.db (writerSession w)) ||
        r.sliceId ∈ h.backing || r.sliceId ∈ h.phase.todo
    | _ => true
  | .quarantine id => id ∉ h.staging
  | .drain id .unreadable => id ∉ h.staging
  | _ => true

/-- Where the slices are.
    * Slices of writes under way and of recorded rows are staged or in the backing store;
    * once the staged files are listed, the recorded slices of the scope are in the backing store or
      still to be drained. -/
structure Stored (h : Handoff) : Prop where
  writers : ∀ w id, (h.writers w).slice? = some id → id ∈ h.staging ∨ id ∈ h.backing
  recorded : ∀ e ∈ h.recorded, e.2.sliceId ∈ h.staging ∨ e.2.sliceId ∈ h.backing
  listed : h.phase.listed = true → ∀ r, (p.scope, r) ∈ h.recorded →
    r.sliceId ∈ h.backing ∨ r.sliceId ∈ h.phase.todo

variable {p} {h : Handoff}

/-- Only the cache, the writers, the phase and the recorded slices matter. -/
theorem Stored.congr {h' : Handoff} (hs : Stored p h) (hstaging : h'.staging = h.staging)
    (hbacking : h'.backing = h.backing) (hwriters : h'.writers = h.writers)
    (hphase : h'.phase = h.phase) (hrecorded : h'.recorded = h.recorded) : Stored p h' := by
  obtain ⟨hw, hr, hl⟩ := hs
  constructor
  · rw [hstaging, hbacking, hwriters]
    exact hw
  · rw [hstaging, hbacking, hrecorded]
    exact hr
  · rw [hphase, hbacking, hrecorded]
    exact hl

/-- A writer that stays with its slice, or gives it up. -/
theorem Stored.setWriter (hs : Stored p h) {x : Writer}
    (hx : x.slice? = none ∨ x.slice? = (h.writers w).slice?) : Stored p (h.setWriter w x) := by
  refine ⟨fun w' id hid => ?_, hs.recorded, hs.listed⟩
  by_cases hw : w' = w
  · subst hw
    have hid : (Function.update h.writers w' x w').slice? = some id := hid
    rw [Function.update_self] at hid
    rcases hx with hx | hx
    · rw [hx] at hid
      cases hid
    · exact hs.writers w' id (hx ▸ hid)
  · have hid : (Function.update h.writers w x w').slice? = some id := hid
    rw [Function.update_of_ne hw] at hid
    exact hs.writers w' id hid

/-- An upload moves a slice to the backing store and takes nothing away. -/
theorem mem_uploaded (h : Handoff) (id : Nat) (hx : x ∈ h.staging ∨ x ∈ h.backing) :
    x ∈ (h.uploaded id).staging ∨ x ∈ (h.uploaded id).backing := by
  unfold uploaded
  split
  · by_cases hid : x = id
    · subst hid
      exact .inr List.mem_cons_self
    · exact hx.imp (fun h => (List.mem_erase_of_ne hid).mpr h) (List.mem_cons_of_mem _)
  · exact hx

theorem uploaded_backing (h : Handoff) (id : Nat) (hx : x ∈ h.backing) :
    x ∈ (h.uploaded id).backing := by
  unfold uploaded
  split
  · exact List.mem_cons_of_mem _ hx
  · exact hx

theorem uploaded_writers (h : Handoff) (id : Nat) : (h.uploaded id).writers = h.writers := by
  unfold uploaded
  split <;> rfl

theorem uploaded_recorded (h : Handoff) (id : Nat) : (h.uploaded id).recorded = h.recorded := by
  unfold uploaded
  split <;> rfl

theorem uploaded_phase (h : Handoff) (id : Nat) : (h.uploaded id).phase = h.phase := by
  unfold uploaded
  split <;> rfl

/-- A transaction that a step has committed was at its commit. -/
theorem atCommit_of_committed {db : OwnershipServer} {s : Nat}
    {ev : SessionEvent Memory OwnershipCall} {a : OwnershipAnswer}
    (hout : outcome s db (db.step (s, ev)) = .committed a) : atCommit db s = true := by
  have hgrown : (db.step (s, ev)).log.length > db.log.length := by
    unfold outcome at hout
    split at hout
    · cases hout
    · split at hout
      · assumption
      · cases hout
  rcases Server.step_cases OwnershipCall.body db s ev with he | ⟨call, -, he⟩ | ⟨tx, -, he⟩ |
    ⟨m, tx, b, -, htx, hb, he⟩ | ⟨m, tx, st, -, -, hw, he⟩
  · rw [OwnershipServer.step, he] at hgrown
    exact absurd hgrown (Nat.lt_irrefl _)
  · rw [OwnershipServer.step, he] at hgrown
    exact absurd hgrown (Nat.lt_irrefl _)
  · rw [OwnershipServer.step, he] at hgrown
    exact absurd hgrown (Nat.lt_irrefl _)
  · obtain ⟨call, body, pending⟩ := tx
    obtain rfl : body = .ret b := hb
    simp only [atCommit, htx]
  · rw [OwnershipServer.step, he, Server.execute, hw, if_neg Bool.false_ne_true] at hgrown
    exact absurd hgrown (Nat.lt_irrefl _)

section

variable (hs : Stored p h)

include hs

/-- A statement of a writer: when it records its slice, the condition says where the slice is. -/
theorem Stored.statement {m : Memory} {now : Time}
    (hq : quiet p h (.statement w m now) = true) : Stored p (h.statement p w m now) := by
  unfold Handoff.statement
  simp only
  split
  · -- the lease is there: the write begins, with the slice of before
    rename_i scope r l hwriter _
    refine Stored.congr (hs.setWriter (w := w) (x := .writing scope r) (.inr ?_)) rfl rfl rfl rfl rfl
    rw [hwriter]
    rfl
  · rename_i scope r a hwriter hout
    have hidle : Stored p (h.setWriter w .idle) := hs.setWriter (.inl rfl)
    have hslice : r.sliceId ∈ h.staging ∨ r.sliceId ∈ h.backing :=
      hs.writers w r.sliceId (by rw [hwriter]; rfl)
    refine ⟨hidle.writers, fun e he => ?_, fun hlisted r' hr' => ?_⟩
    · rcases List.mem_cons.mp he with rfl | he
      · exact hslice
      · exact hs.recorded e he
    · rcases List.mem_cons.mp hr' with heq | hr'
      · obtain ⟨rfl, rfl⟩ := Prod.mk.inj heq
        have hlisted : h.phase.listed = true := hlisted
        simp only [quiet, hwriter, atCommit_of_committed hout, hlisted, decide_true, Bool.and_true,
          Bool.not_true, Bool.false_or, Bool.or_eq_true, decide_eq_true_eq] at hq
        exact hq
      · exact hs.listed hlisted r' hr'
  · exact hs.congr rfl rfl rfl rfl rfl
  · exact hs.congr rfl rfl rfl rfl rfl
  · exact Stored.congr (hs.setWriter (w := w) (x := .idle) (.inl rfl)) rfl rfl rfl rfl rfl
  · exact Stored.congr (hs.setWriter (w := w) (x := .idle) (.inl rfl)) rfl rfl rfl rfl rfl
  · exact hs

/-- The handoff enters another phase. -/
theorem Stored.enter {x : Phase}
    (hx : x.listed = true → ∀ r, (p.scope, r) ∈ h.recorded →
      r.sliceId ∈ h.backing ∨ r.sliceId ∈ x.todo) : Stored p { h with phase := x } :=
  ⟨hs.writers, hs.recorded, hx⟩

/-- From a phase with nothing to drain, a phase with nothing to drain. -/
theorem Stored.advance (hlisted : h.phase.listed = true) (htodo : h.phase.todo = [])
    (x : Phase) : Stored p { h with phase := x } := by
  refine hs.enter fun _ r hr => .inl ?_
  have hr := hs.listed hlisted r hr
  rw [htodo] at hr
  exact hr.resolve_right List.not_mem_nil

theorem Stored.stage (w : Nat) (scope : String) (r : SliceRef)
    (hr : r.sliceId = h.nextslice) :
    Stored p { h.setWriter w (.staged scope r) with
      nextslice := h.nextslice + 1, staging := h.nextslice :: h.staging } := by
  refine ⟨fun w' id hid => ?_, fun e he => (hs.recorded e he).imp_left (List.mem_cons_of_mem _),
    hs.listed⟩
  by_cases hw : w' = w
  · subst hw
    have hid : (Function.update h.writers w' (.staged scope r) w').slice? = some id := hid
    rw [Function.update_self] at hid
    cases hid
    rw [hr]
    exact .inl List.mem_cons_self
  · have hid : (Function.update h.writers w (.staged scope r) w').slice? = some id := hid
    rw [Function.update_of_ne hw] at hid
    exact (hs.writers w' id hid).imp_left (List.mem_cons_of_mem _)

theorem Stored.upload (id : Nat) : Stored p (h.uploaded id) := by
  refine ⟨fun w x hx => ?_, fun e he => ?_, fun hlisted r hr => ?_⟩
  · rw [uploaded_writers] at hx
    exact mem_uploaded h id (hs.writers w x hx)
  · rw [uploaded_recorded] at he
    exact mem_uploaded h id (hs.recorded e he)
  · rw [uploaded_phase] at hlisted ⊢
    rw [uploaded_recorded] at hr
    exact (hs.listed hlisted r hr).imp_left (uploaded_backing h id)

/-- A file that the drain has handled is in the backing store: uploaded now, or by another drain. -/
theorem Stored.drained (id : Nat) {gen : Int} {todo : List Nat}
    (hphase : h.phase = .draining gen todo) :
    Stored p { h.uploaded id with phase := .draining gen (todo.erase id) } := by
  refine (hs.upload id).enter fun _ r hr => ?_
  have hold := (hs.upload id).listed (by rw [uploaded_phase, hphase]; rfl) r hr
  rw [uploaded_phase, hphase] at hold
  rcases hold with hback | htodo
  · exact .inl hback
  · by_cases hid : r.sliceId = id
    · refine .inl ?_
      rw [uploaded_recorded] at hr
      rcases hs.recorded _ hr with hst | hback
      · have hst : id ∈ h.staging := hid ▸ hst
        rw [uploaded, if_pos hst, hid]
        exact List.mem_cons_self
      · exact uploaded_backing h id hback
    · exact .inr ((List.mem_erase_of_ne hid).mpr htodo)

theorem Stored.ensure {scope : String} {r : SliceRef}
    (hwriter : h.writers w = .staged scope r) (expired : Bool) (now : Time) (nowMs ttlMs : Int) :
    Stored p (h.ensure p w expired now nowMs ttlMs scope r) := by
  have hslice : some r.sliceId = (h.writers w).slice? := by
    rw [hwriter]
    rfl
  unfold Handoff.ensure
  split
  · exact Stored.congr (hs.setWriter (w := w) (x := .writing scope r) (.inr hslice)) rfl rfl rfl rfl rfl
  · split
    · exact hs.setWriter (.inl rfl)
    · exact Stored.congr (hs.setWriter (w := w) (x := .acquiring scope r) (.inr hslice))
        rfl rfl rfl rfl rfl

/-- Every step under the condition keeps the slices where they have to be. -/
theorem Stored.step {ev : HandoffEvent} (hq : quiet p h ev = true) :
    Stored p (h.step p ev) := by
  cases ev with
  | stage w scope inode indx pos len =>
    simp only [Handoff.step]
    split
    · exact hs.stage w scope _ rfl
    · exact hs
  | ensure w expired now nowMs ttlMs =>
    simp only [Handoff.step]
    split
    · rename_i scope r hwriter
      exact hs.ensure hwriter expired now nowMs ttlMs
    · exact hs
  | statement w m now => exact hs.statement hq
  | upload id => exact hs.upload id
  | quarantine id =>
    simp only [quiet, decide_eq_true_eq] at hq
    exact hs.congr (List.erase_of_not_mem hq) rfl rfl rfl rfl
  | request early =>
    simp only [Handoff.step]
    split
    · split
      · exact hs.enter nofun
      · refine hs.enter fun _ r hr => ?_
        exact (hs.recorded _ hr).symm
    · exact hs
  | drain id out =>
    simp only [Handoff.step]
    split
    · rename_i gen todo hphase
      split
      · cases out with
        | uploaded => exact hs.drained id hphase
        | unreadable =>
          simp only [quiet, decide_eq_true_eq] at hq
          have hnot : h.uploaded id = h := by rw [Handoff.uploaded, if_neg hq]
          have hdrained := hs.drained id hphase
          rw [hnot] at hdrained
          exact hdrained.congr (List.erase_of_not_mem hq) rfl rfl rfl rfl
        | failed => exact hs.enter nofun
      · exact hs
    · exact hs
  | release =>
    simp only [Handoff.step]
    split
    · rename_i gen hphase
      exact Stored.congr (hs.advance (by rw [hphase]; rfl) (by rw [hphase]; rfl) .releasing)
        rfl rfl rfl rfl rfl
    · exact hs
  | releaseStatement m =>
    simp only [Handoff.step]
    split
    · rename_i hphase _
      exact Stored.congr (hs.advance (by rw [hphase]; rfl) (by rw [hphase]; rfl) .released)
        rfl rfl rfl rfl rfl
    · exact Stored.congr (hs.enter (x := .declined) nofun) rfl rfl rfl rfl rfl
    · exact hs.congr rfl rfl rfl rfl rfl
    · exact hs
  | deleteKey =>
    simp only [Handoff.step]
    split
    · rename_i hphase
      exact Stored.congr (hs.advance (by rw [hphase]; rfl) (by rw [hphase]; rfl) .keyDeleted)
        rfl rfl rfl rfl rfl
    · exact hs
  | forget =>
    simp only [Handoff.step]
    split
    · rename_i hphase
      exact Stored.congr (hs.advance (by rw [hphase]; rfl) (by rw [hphase]; rfl) .forgotten)
        rfl rfl rfl rfl rfl
    · exact hs
  | reply =>
    simp only [Handoff.step]
    split
    · rename_i hphase
      exact hs.advance (by rw [hphase]; rfl) (by rw [hphase]; rfl) .repliedOk
    · exact hs
  | acquire nowMs ttlMs =>
    simp only [Handoff.step]
    split
    · exact hs.congr rfl rfl rfl rfl rfl
    · exact hs
  | acquireStatement m =>
    simp only [Handoff.step]
    split <;> exact hs.congr rfl rfl rfl rfl rfl
  | other s ev => exact hs.congr rfl rfl rfl rfl rfl

end

end Handoff

/-! ### Whole runs -/

/-- **A drained handoff.**  For any interleaving of a handoff with writes on the owning node and with
    the calls of other nodes, under the condition at every step: after the answer "ok", and so when
    the requester's lease call raises the generation, every slice that the owner has recorded in the
    scope is in the backing store. -/
theorem handoff_drained (p : Parties) (h : Handoff) (hphase : h.phase = .idle)
    (hwriters : ∀ w, h.writers w = .idle)
    (hrecorded : ∀ e ∈ h.recorded, e.2.sliceId ∈ h.staging ∨ e.2.sliceId ∈ h.backing)
    (evs : List HandoffEvent)
    (hok : Guarded (Handoff.step p) (fun h ev => Handoff.quiet p h ev = true) h evs)
    (hreply : (run (Handoff.step p) h evs).phase = .repliedOk) (r : SliceRef)
    (hr : (p.scope, r) ∈ (run (Handoff.step p) h evs).recorded) :
    r.sliceId ∈ (run (Handoff.step p) h evs).backing := by
  have hstart : Handoff.Stored p h := by
    refine ⟨fun w id hid => ?_, hrecorded, fun hlisted => ?_⟩
    · rw [hwriters w] at hid
      cases hid
    · rw [hphase] at hlisted
      cases hlisted
  have hs := invariant_of_guarded (Handoff.Stored p) (fun h ev hs hq => hs.step hq) hstart hok
  have hback := hs.listed (by rw [hreply]; rfl) r hr
  rw [hreply] at hback
  exact hback.resolve_right List.not_mem_nil

/-- Node `a` owns the scope `s`, node `b` wants it. -/
def scopeS : Parties := ⟨"s", "a", "b"⟩

/-- Node `a` has the lease of `s` with generation 1, and nothing is staged. -/
def leaseOfA : Handoff where
  db := Server.start (Tx.edit .ownership (Tx.inserted ⟨"s", "a", 10, 1⟩) oneFileDb)
  staging := []
  backing := []
  nextslice := 1
  held := fun scope => if scope = "s" then some 1 else none
  live := fun scope => if scope = "s" then some "a" else none
  writers := fun _ => .idle
  phase := .idle
  recorded := []

/-- A write of four bytes to file 2: its slice is staged, the lease is known, and the transaction runs
    to its commit. -/
def fourBytes : List HandoffEvent :=
  .stage 0 "s" 2 0 0 4 :: .ensure 0 false ⟨1, 0⟩ 1 10 :: List.replicate 6 (.statement 0 .idle ⟨1, 0⟩)

/-- The handoff after the drain: the lease is released, the key deleted and the answer given; then
    node `b` takes the lease. -/
def releaseAndTake : List HandoffEvent :=
  [.release, .releaseStatement .idle, .releaseStatement .idle, .deleteKey, .forget, .reply,
    .acquire 5 10, .acquireStatement .idle, .acquireStatement .idle, .acquireStatement .idle]

theorem handoff_drained_after_write :
    ("s", (⟨2, 0, 0, 1, 4, 0, 4⟩ : SliceRef)) ∈ (run (Handoff.step scopeS) leaseOfA
        (fourBytes ++ [.request false, .drain 1 .uploaded] ++ releaseAndTake)).recorded ∧
      1 ∈ (run (Handoff.step scopeS) leaseOfA
        (fourBytes ++ [.request false, .drain 1 .uploaded] ++ releaseAndTake)).backing := by
  have hrecorded : ("s", (⟨2, 0, 0, 1, 4, 0, 4⟩ : SliceRef)) ∈ (run (Handoff.step scopeS) leaseOfA
      (fourBytes ++ [.request false, .drain 1 .uploaded] ++ releaseAndTake)).recorded := by decide
  exact ⟨hrecorded, handoff_drained scopeS leaseOfA rfl (fun _ => rfl) (by decide) _ (by decide)
    (by decide) _ hrecorded⟩

/-- **A write behind the drain.**  The drain finds nothing staged; then a write stages its slice and
    commits; then the lease is released and taken.  Node `b` has the next generation, the file has
    the row of slice 1, and the backing store does not have the slice. -/
theorem recorded_after_drain :
    let h := run (Handoff.step scopeS) leaseOfA ([.request false] ++ fourBytes ++ releaseAndTake)
    h.phase = .repliedOk ∧ leaseAt h.db.rows "s" = some ⟨"s", "b", 15, 2⟩ ∧
      h.recorded = [("s", ⟨2, 0, 0, 1, 4, 0, 4⟩)] ∧
      h.db.rows .sliceRef = [⟨2, 0, 0, 1, 4, 0, 4⟩] ∧ h.backing = [] ∧ h.staging = [1] := by
  decide

end MemoryLayer.Coord
