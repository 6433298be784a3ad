import MemoryLayer.Meta.Ops
import MemoryLayer.Sql.Outline

namespace MemoryLayer.Meta

open Sql Sql.Tx Server Runs

/-! # Scope ownership

The leases of `meta/ownership.go` and the fence of `meta/fence.go`.  Each scope has a row that names
the node that may write in it, until when, and a generation; a write transaction first reads the row
under a shared lock.

- `acquireOrResumeTx`, `refreshTx`, `releaseOwnershipTx`, `checkFence`: the transaction bodies.
- `OwnershipCall`: the calls of any nodes, at any clock readings, on any scopes.
- `Evolves`: how a lease may change; every committed call changes leases in this way only.
- `fencing`: over whole runs, generations grow with each change of owner, and no write that passed
  the fence commits once its generation is over.
-/

/-! ### The transaction bodies -/

/-- The row of a scope. -/
def isScope (scopeKey : String) (o : Ownership) : Bool := o.scopeKey = scopeKey

variable (scopeKey node : String) {σ : OwnershipServer} {f : Ownership → Ownership}

/-- Take or renew the lease of a scope for `ttlMs`.  An unowned or expired scope is taken, and taking
    it from another node raises the generation.  The answer is the lease, and whether `node` has
    it. -/
def acquireOrResumeTx (nowMs ttlMs : Int) : MetaTx (Ownership × Bool) := do
  let expires := nowMs + ttlMs
  let found ← lockRows .update Table.ownership (isScope scopeKey)
  match found.head? with
  | none => do
    insertOrFail Table.ownership ⟨scopeKey, node, expires, 1⟩ .eio
    pure (⟨scopeKey, node, expires, 1⟩, true)
  | some cur =>
    if cur.ownerNode = node then do
      let _ ← updateRows Table.ownership (isScope scopeKey) fun o =>
        { o with expiresUnixMs := expires }
      pure (⟨scopeKey, node, expires, cur.generation⟩, true)
    else if cur.expiresUnixMs < nowMs then do
      let gen := cur.generation + 1
      let _ ← updateRows Table.ownership (isScope scopeKey) fun o =>
        { o with ownerNode := node, expiresUnixMs := expires, generation := gen }
      pure (⟨scopeKey, node, expires, gen⟩, true)
    else pure (cur, false)

/-- The row of a scope that `node` owns at `generation`. -/
def isHeld (generation : Int) (o : Ownership) : Bool :=
  o.scopeKey = scopeKey ∧ o.ownerNode = node ∧ o.generation = generation

/-- A new expiry for the lease that `node` has at `generation`. -/
def setExpiryTx (generation expires : Int) : MetaTx Bool := do
  let written ← updateRows Table.ownership (isHeld scopeKey node generation) fun o =>
    { o with expiresUnixMs := expires }
  pure (written.length = 1)

/-- Extend a lease that is still held. -/
def refreshTx (generation nowMs ttlMs : Int) : MetaTx Bool :=
  setExpiryTx scopeKey node generation (nowMs + ttlMs)

/-- Give up a lease that is still held: it expires at once. -/
def releaseOwnershipTx (generation : Int) : MetaTx Bool :=
  setExpiryTx scopeKey node generation 0

/-- The fence of a write transaction: the node still owns the scope at the generation.  The shared
    lock keeps the row as it is to the end of the transaction. -/
def checkFence (gen : Int) : MetaTx Unit := do
  let found ← lockRows .share Table.ownership (isScope scopeKey)
  match found.head? with
  | none => .fail .estale
  | some o => require (o.ownerNode = node ∧ o.generation = gen) .estale

/-- The lease of a scope in the tables. -/
def leaseAt (db : Db) (scopeKey : String) : Option Ownership :=
  (db .ownership).find? (isScope scopeKey)

/-! ### Calls -/

/-- A write body: a transaction that leaves the leases alone. -/
structure WriteBody where
  tx : MetaTx Unit
  avoids : tx.Avoids .ownership

/-- The calls on ownership, of any node and with the clock reading of that node. -/
inductive OwnershipCall where
  | acquire (scopeKey node : String) (nowMs ttlMs : Int)
  | refresh (scopeKey node : String) (generation nowMs ttlMs : Int)
  | release (scopeKey node : String) (generation : Int)
  | write (scopeKey node : String) (gen : Int) (body : WriteBody)

/-- The answers of these calls. -/
inductive OwnershipAnswer where
  | lease (l : Ownership) (held : Bool)
  | applied (ok : Bool)
  | done
  deriving DecidableEq, Repr

/-- The transaction of a call. -/
def OwnershipCall.body : OwnershipCall → MetaTx OwnershipAnswer
  | .acquire scopeKey node nowMs ttlMs => do
    let (l, held) ← acquireOrResumeTx scopeKey node nowMs ttlMs
    pure (.lease l held)
  | .refresh scopeKey node generation nowMs ttlMs => do
    pure (.applied (← refreshTx scopeKey node generation nowMs ttlMs))
  | .release scopeKey node generation => do
    pure (.applied (← releaseOwnershipTx scopeKey node generation))
  | .write scopeKey node gen body => do
    checkFence scopeKey node gen
    body.tx
    pure .done

/-- The database with the sessions of all nodes. -/
abbrev OwnershipServer := Server Row Errno Memory OwnershipAnswer Nat OwnershipCall RowKey

/-! ### How a lease may change -/

/-- From one lease of a scope to a later one: the generation does not go back, and another owner has
    a later generation. -/
def Ownership.Before (o o' : Ownership) : Prop :=
  o.generation ≤ o'.generation ∧ (o'.ownerNode ≠ o.ownerNode → o.generation < o'.generation)

/-- A scope that has a lease keeps having one. -/
def Evolves (o o' : Option Ownership) : Prop := ∀ l, o = some l → ∃ l', o' = some l' ∧ l.Before l'

theorem Ownership.Before.refl (o : Ownership) : o.Before o := ⟨Int.le_refl _, fun h => absurd rfl h⟩

theorem Ownership.Before.trans {o₁ o₂ o₃ : Ownership} (h : o₁.Before o₂) (h' : o₂.Before o₃) :
    o₁.Before o₃ := by
  refine ⟨Int.le_trans h.1 h'.1, fun hne => ?_⟩
  by_cases h₂ : o₂.ownerNode = o₁.ownerNode
  · exact Int.lt_of_le_of_lt h.1 (h'.2 (h₂ ▸ hne))
  · exact Int.lt_of_lt_of_le (h.2 h₂) h'.1

theorem Evolves.refl (o : Option Ownership) : Evolves o o :=
  fun l hl => ⟨l, hl, Ownership.Before.refl l⟩

theorem Evolves.trans {o₁ o₂ o₃ : Option Ownership} (h : Evolves o₁ o₂) (h' : Evolves o₂ o₃) :
    Evolves o₁ o₃ := by
  intro l hl
  obtain ⟨l₂, hl₂, hb⟩ := h l hl
  obtain ⟨l₃, hl₃, hb'⟩ := h' l₂ hl₂
  exact ⟨l₃, hl₃, hb.trans hb'⟩

/-- The lease of a scope is the row under its key. -/
theorem leaseAt_congr {scopeKey : String} {db db' : Db} (h : SameRow (.ownership scopeKey) db db') :
    leaseAt db scopeKey = leaseAt db' scopeKey := by
  have hkey : hasKey (ρ := Row) .ownership (RowKey.ownership scopeKey) = isScope scopeKey := by
    funext o
    simp [hasKey, Keys.key, rowKey, isScope]
  have h := h .ownership
  rw [hkey] at h
  rw [leaseAt, leaseAt, ← List.head?_filter, ← List.head?_filter, h]

theorem leaseAt_scope {db : Db} {scopeKey : String} {o : Ownership}
    (h : leaseAt db scopeKey = some o) : o.scopeKey = scopeKey :=
  of_decide_eq_true (List.find?_some (p := isScope scopeKey) h)

/-- The lease of a scope after an `UPDATE` that keeps the scope of each row. -/
theorem leaseAt_updated (hf : ∀ o, (f o).scopeKey = o.scopeKey)
    (p : Ownership → Bool) (db : Db) (scopeKey : String) :
    leaseAt (edit .ownership (updated p f) db) scopeKey
      = (leaseAt db scopeKey).map fun o => if p o then f o else o := by
  have hscope : isScope scopeKey ∘ (fun o => if p o then f o else o) = isScope scopeKey := by
    funext o
    simp only [Function.comp, isScope]
    split <;> simp [hf]
  rw [leaseAt, edit_self, updated, List.find?_map, hscope]
  rfl

/-- A new row does not come before a lease that is there. -/
theorem evolves_inserted (o : Ownership) (db : Db) (scopeKey : String) :
    Evolves (leaseAt db scopeKey) (leaseAt (edit .ownership (inserted o) db) scopeKey) := by
  intro l hl
  refine ⟨l, ?_, Ownership.Before.refl l⟩
  have hfound : (db .ownership).find? (isScope scopeKey) = some l := hl
  rw [leaseAt, edit_self, inserted]
  split
  · exact hfound
  · rw [List.find?_append, hfound]
    rfl

/-- An `UPDATE` of some rows, when it changes each lease as leases may change. -/
theorem evolves_updated (hf : ∀ o, (f o).scopeKey = o.scopeKey)
    (rs : List Ownership) (db : Db) (scopeKey : String)
    (hrs : ∀ o ∈ rs, leaseAt db scopeKey = some o → o.Before (f o)) :
    Evolves (leaseAt db scopeKey)
      (leaseAt (edit .ownership (updated (fun o => o ∈ rs) f) db) scopeKey) := by
  intro l hl
  rw [leaseAt_updated hf, hl]
  refine ⟨_, rfl, ?_⟩
  simp only [decide_eq_true_eq]
  split
  · rename_i hmem
    exact hrs l hmem hl
  · exact Ownership.Before.refl l

/-- A new expiry is not a new owner. -/
theorem evolves_setExpiry (expires : Int) (rs : List Ownership) (db : Db) (scopeKey : String) :
    Evolves (leaseAt db scopeKey) (leaseAt (edit .ownership (updated (fun o => o ∈ rs) fun o =>
      { o with expiresUnixMs := expires }) db) scopeKey) := by
  refine evolves_updated ?_ rs db scopeKey ?_
  · exact fun _ => rfl
  · exact fun o _ _ => ⟨Int.le_refl _, fun h => absurd rfl h⟩

/-- A lease that was read under a lock is still there for everyone whom the lock fits. -/
theorem leaseAt_of_fits {scopeKey : String} {db₁ db : Db} {cur : Ownership}
    {snaps : List (Snap Row RowKey)} (hfits : Fits snaps db)
    (hcur : ((db₁ .ownership).filter (isScope scopeKey)).head? = some cur)
    (hsnap : ⟨keysOf (ρ := Row) .ownership ((db₁ .ownership).filter (isScope scopeKey)), db₁⟩ ∈ snaps) :
    leaseAt db scopeKey = some cur := by
  have hmem : cur ∈ (db₁ .ownership).filter (isScope scopeKey) := List.mem_of_mem_head? hcur
  have hscope : cur.scopeKey = scopeKey := of_decide_eq_true (List.mem_filter.mp hmem).2
  have hkey : RowKey.ownership scopeKey ∈
      keysOf (ρ := Row) .ownership ((db₁ .ownership).filter (isScope scopeKey)) :=
    List.mem_filterMap.mpr ⟨cur, hmem, by rw [← hscope]; rfl⟩
  rw [← leaseAt_congr (hfits _ hsnap _ hkey), leaseAt, ← List.head?_filter, hcur]

/-! ### What each call ensures -/

/-- The property of a transaction at its commit: leases evolve, and a write still has the lease that
    it was fenced with. -/
def Sanctioned (call : OwnershipCall) (_ : OwnershipAnswer) (snaps : List (Snap Row RowKey))
    (pend : Db → Db) : Prop :=
  ∀ db, Fits snaps db →
    (∀ scopeKey, Evolves (leaseAt db scopeKey) (leaseAt (pend db) scopeKey)) ∧
      ∀ scopeKey node gen body, call = .write scopeKey node gen body →
        ∃ o, leaseAt db scopeKey = some o ∧ o.ownerNode = node ∧ o.generation = gen

/-- Leases evolve: the property of a body that is not a write. -/
def EvolvesLeases {α : Type} (_ : α) (snaps : List (Snap Row RowKey)) (pend : Db → Db) : Prop :=
  ∀ db, Fits snaps db → ∀ scopeKey, Evolves (leaseAt db scopeKey) (leaseAt (pend db) scopeKey)

theorem ensures_setExpiryTx (generation expires : Int) :
    Ensures EvolvesLeases [] id (setExpiryTx scopeKey node generation expires) := by
  unfold setExpiryTx
  refine Ensures.bind (Ensures.updateRows (ρ := Row) [] id Table.ownership (isHeld scopeKey node generation) _) ?_
  rintro written snaps pend ⟨db₁, rs, -, -, rfl, rfl⟩
  refine .ret fun db _ scopeKey' => ?_
  exact evolves_setExpiry expires rs db scopeKey'

/-- The row lock of `AcquireOrResume` is what makes the generation it writes the next one. -/
theorem ensures_acquireOrResumeTx (nowMs ttlMs : Int) :
    Ensures EvolvesLeases [] id (acquireOrResumeTx scopeKey node nowMs ttlMs) := by
  unfold acquireOrResumeTx
  refine Ensures.bind (Ensures.lockRows (ρ := Row) [] id .update Table.ownership (isScope scopeKey)) ?_
  rintro found snaps pend ⟨db₁, -, rfl, rfl, rfl⟩
  split
  · -- no row: one is inserted
    refine Ensures.bind (Ensures.insertOrFail (ρ := Row) _ id Table.ownership _ Errno.eio) ?_
    rintro _ snaps pend ⟨db₂, -, -, rfl, rfl⟩
    exact .ret fun db _ scopeKey' => evolves_inserted _ db scopeKey'
  · rename_i cur hcur
    split
    · -- the node's own lease is renewed
      refine Ensures.bind (Ensures.updateRows (ρ := Row) _ id Table.ownership (isScope scopeKey) _) ?_
      rintro _ snaps pend ⟨db₂, rs, -, -, rfl, rfl⟩
      refine .ret fun db _ scopeKey' => ?_
      exact evolves_setExpiry _ rs db scopeKey'
    · split
      · -- an expired lease is taken
        refine Ensures.bind (Ensures.updateRows (ρ := Row) _ id Table.ownership (isScope scopeKey) _) ?_
        rintro _ snaps pend ⟨db₂, rs, -, rfl, rfl, rfl⟩
        refine .ret fun db hfits scopeKey' => ?_
        refine evolves_updated ?_ _ db scopeKey' ?_
        · exact fun _ => rfl
        intro o ho hlease
        have hcur := leaseAt_of_fits hfits hcur (List.mem_cons_of_mem _ List.mem_cons_self)
        have hscope : o.scopeKey = scopeKey := of_decide_eq_true (List.mem_filter.mp ho).2
        have hscope' : o.scopeKey = scopeKey' := leaseAt_scope hlease
        obtain rfl : cur = o := by
          rw [← hscope', hscope, hcur] at hlease
          exact Option.some.inj hlease
        exact ⟨Int.le_add_one (Int.le_refl _), fun _ => Int.lt_succ _⟩
      · -- a live lease of another node is left alone
        exact .ret fun db _ scopeKey' => Evolves.refl _

/-- The shared lock of the fence keeps the lease to the end of the write. -/
theorem ensures_write (gen : Int) (body : WriteBody) :
    Ensures (Sanctioned (.write scopeKey node gen body)) [] id
      (OwnershipCall.body (.write scopeKey node gen body)) := by
  have hfence : Ensures (fun (_ : Unit) snaps pend => pend = id ∧ ∀ db, Fits snaps db →
      ∃ o, leaseAt db scopeKey = some o ∧ o.ownerNode = node ∧ o.generation = gen) [] id
      (checkFence scopeKey node gen) := by
    unfold checkFence
    refine Ensures.bind (Ensures.lockRows (ρ := Row) [] id .share Table.ownership (isScope scopeKey)) ?_
    rintro found snaps pend ⟨db₁, -, rfl, rfl, rfl⟩
    split
    · exact .fail
    · rename_i o ho
      unfold require
      split
      · rename_i hheld
        exact .ret ⟨rfl, fun db hfits =>
          ⟨o, leaseAt_of_fits hfits ho List.mem_cons_self, hheld.1, hheld.2⟩⟩
      · exact .fail
  apply hfence.bind
  rintro _ snaps pend ⟨rfl, hlease⟩
  refine Ensures.bind (Ensures.of_avoids body.avoids snaps id) ?_
  rintro _ snaps' pend ⟨hsub, hpend⟩
  refine .ret fun db hfits => ⟨fun scopeKey' => ?_, ?_⟩
  · rw [leaseAt, leaseAt, hpend]
    exact Evolves.refl _
  · rintro scopeKey' node' gen' body' ⟨⟩
    exact hlease db fun sn hsn => hfits sn (hsub hsn)

/-- Every call is sanctioned at its commit. -/
theorem ensures_body (call : OwnershipCall) : Ensures (Sanctioned call) [] id call.body := by
  cases call with
  | acquire scopeKey node nowMs ttlMs =>
    apply (ensures_acquireOrResumeTx scopeKey node nowMs ttlMs).bind
    exact fun _ snaps pend h => .ret fun db hfits => ⟨h db hfits, by rintro _ _ _ _ ⟨⟩⟩
  | refresh scopeKey node generation nowMs ttlMs =>
    apply (ensures_setExpiryTx scopeKey node generation (nowMs + ttlMs)).bind
    exact fun _ snaps pend h => .ret fun db hfits => ⟨h db hfits, by rintro _ _ _ _ ⟨⟩⟩
  | release scopeKey node generation =>
    apply (ensures_setExpiryTx scopeKey node generation 0).bind
    exact fun _ snaps pend h => .ret fun db hfits => ⟨h db hfits, by rintro _ _ _ _ ⟨⟩⟩
  | write scopeKey node gen body => exact ensures_write scopeKey node gen body

/-! ### Whole runs -/

/-- One step of a session on the database. -/
abbrev OwnershipServer.step (σ : OwnershipServer) (ev : Nat × SessionEvent Memory OwnershipCall) :
    OwnershipServer := Server.step OwnershipCall.body σ ev

/-- Every running transaction is on its way to a sanctioned commit. -/
structure Fencing (σ : OwnershipServer) : Prop where
  sound : σ.Sound
  follows : σ.Follows Sanctioned

theorem fencing_start (rows : Db) : Fencing (Server.start rows) :=
  ⟨Server.sound_start rows, Server.follows_start rows⟩

theorem Fencing.step (h : Fencing σ)
    (ev : Nat × SessionEvent Memory OwnershipCall) : Fencing (σ.step ev) :=
  ⟨h.sound.step OwnershipCall.body ev, h.follows.step ensures_body h.sound ev⟩

/-- What one step does to leases, and which writes it can commit. -/
theorem Fencing.effect (h : Fencing σ)
    (ev : Nat × SessionEvent Memory OwnershipCall) :
    (∀ scopeKey, Evolves (leaseAt σ.rows scopeKey) (leaseAt (σ.step ev).rows scopeKey)) ∧
      ((σ.step ev).log = σ.log ∨ ∃ call a, (σ.step ev).log = σ.log ++ [(call, a)] ∧
        ∀ scopeKey node gen body, call = .write scopeKey node gen body →
          ∃ o, leaseAt σ.rows scopeKey = some o ∧ o.ownerNode = node ∧ o.generation = gen) := by
  obtain ⟨s, ev⟩ := ev
  rcases Server.step_cases OwnershipCall.body σ s ev with he | ⟨call, -, he⟩ | ⟨tx, -, he⟩ |
    ⟨m, tx, a, -, htx, ha, he⟩ | ⟨m, tx, st, -, -, hw, he⟩ <;> rw [OwnershipServer.step, he]
  · exact ⟨fun _ => Evolves.refl _, .inl rfl⟩
  · exact ⟨fun _ => Evolves.refl _, .inl rfl⟩
  · exact ⟨fun _ => Evolves.refl _, .inl rfl⟩
  · -- a commit: the transaction has what it ensures, for the tables as they are
    obtain ⟨snaps, hfits, hq⟩ := h.follows.commit htx ha
    obtain ⟨hevolves, hwrite⟩ := hq σ.rows hfits
    exact ⟨hevolves, .inr ⟨tx.call, a, rfl, hwrite⟩⟩
  · rw [Server.execute, hw, if_neg Bool.false_ne_true]
    exact ⟨fun _ => Evolves.refl _, .inl rfl⟩

/-- From a moment when a scope has a lease: it evolves, and a write that commits later was fenced with
    a generation that is not older. -/
theorem Fencing.run (h : Fencing σ) {scopeKey : String} {o : Ownership}
    (ho : leaseAt σ.rows scopeKey = some o)
    (evs : List (Nat × SessionEvent Memory OwnershipCall)) :
    (∃ o', leaseAt (run OwnershipServer.step σ evs).rows scopeKey = some o' ∧ o.Before o') ∧
      ∃ later, (run OwnershipServer.step σ evs).log = σ.log ++ later ∧
        ∀ e ∈ later, ∀ node gen body, e.1 = .write scopeKey node gen body → o.generation ≤ gen := by
  induction evs generalizing σ o with
  | nil => exact ⟨⟨o, ho, Ownership.Before.refl o⟩, [], (List.append_nil _).symm, by simp⟩
  | cons ev evs ih =>
    obtain ⟨hevolves, hlog⟩ := h.effect ev
    obtain ⟨o₁, ho₁, hbefore⟩ := hevolves scopeKey o ho
    obtain ⟨⟨o', ho', hbefore'⟩, later, hlater, hwrites⟩ := ih (h.step ev) ho₁
    refine ⟨⟨o', ho', hbefore.trans hbefore'⟩, ?_⟩
    have hwrites' : ∀ e ∈ later, ∀ node gen body, e.1 = .write scopeKey node gen body →
        o.generation ≤ gen := fun e he node gen body hcall =>
      Int.le_trans hbefore.1 (hwrites e he node gen body hcall)
    rw [run_cons, hlater]
    rcases hlog with hlog | ⟨call, a, hlog, hfenced⟩
    · exact ⟨later, by rw [hlog], hwrites'⟩
    · refine ⟨(call, a) :: later, by rw [hlog, List.append_assoc]; rfl, ?_⟩
      rintro e he node gen body hcall
      rcases List.mem_cons.mp he with rfl | he
      · -- the write that commits in this step has the lease of this moment
        obtain ⟨o₂, ho₂, -, hgen⟩ := hfenced scopeKey node gen body hcall
        rw [ho] at ho₂
        cases ho₂
        exact Int.le_of_eq hgen
      · exact hwrites' e he node gen body hcall

/-- **Fencing.**  For any interleaving of the statements of lease calls and fenced writes, by any
    nodes with any clock readings: between two moments the generation of a scope does not go back, it
    is greater when the owner is another one, and the owner is the same when it is the same; and
    after the first moment no write commits that was fenced with an earlier generation. -/
theorem fencing (rows : Db) (evs₁ evs₂ : List (Nat × SessionEvent Memory OwnershipCall))
    (scopeKey : String) (o : Ownership)
    (ho : leaseAt (run OwnershipServer.step (Server.start rows) evs₁).rows scopeKey = some o) :
    (∃ o', leaseAt (run OwnershipServer.step (Server.start rows) (evs₁ ++ evs₂)).rows scopeKey
        = some o' ∧ o.generation ≤ o'.generation ∧
        (o'.ownerNode ≠ o.ownerNode → o.generation < o'.generation) ∧
        (o'.generation = o.generation → o'.ownerNode = o.ownerNode)) ∧
      ∃ later, (run OwnershipServer.step (Server.start rows) (evs₁ ++ evs₂)).log
          = (run OwnershipServer.step (Server.start rows) evs₁).log ++ later ∧
        ∀ e ∈ later, ∀ node gen body, e.1 = .write scopeKey node gen body →
          ¬ gen < o.generation := by
  have h : Fencing (run OwnershipServer.step (Server.start rows) evs₁) :=
    invariant_of_step Fencing (fun σ ev h => h.step ev) (fencing_start rows) evs₁
  rw [run_append]
  obtain ⟨⟨o', ho', hle, howner⟩, later, hlog, hwrites⟩ := h.run ho evs₂
  refine ⟨⟨o', ho', hle, howner, ?_⟩, later, hlog, ?_⟩
  · intro hgen
    by_contra hne
    have hlt := howner hne
    omega
  · intro e he node gen body hcall hlt
    have hle := hwrites e he node gen body hcall
    omega

/-! ### A lease that is taken while a write is under way -/

/-- Recording a slice leaves the leases alone. -/
theorem writeTx_avoids (now : Time) (r : SliceRef) : (writeTx now r).Avoids .ownership := by
  simp [writeTx, getAttr, updateNode, appendChangelog]

/-- Node `a` takes the lease and begins a write of four bytes, up to its fence. -/
def fencedWriteBegun : List (Nat × SessionEvent Memory OwnershipCall) :=
  (0, .begin (.acquire "s" "a" 0 10)) :: statements .idle 0 3 ++
    (0, .begin (.write "s" "a" 1 ⟨writeTx ⟨1, 0⟩ ⟨2, 0, 0, 7, 4, 0, 4⟩, writeTx_avoids _ _⟩)) ::
      statements .idle 0 2

/-- The lease expires and node `b` asks for it, before and after `a`'s write commits. -/
def leaseTaken : List (Nat × SessionEvent Memory OwnershipCall) :=
  (1, .begin (.acquire "s" "b" 100 10)) :: statements .idle 1 2 ++ statements .idle 0 4 ++ statements .idle 1 3

theorem fencing_of_leaseTaken :
    leaseAt (run OwnershipServer.step (Server.start oneFileDb) fencedWriteBegun).rows "s"
        = some ⟨"s", "a", 10, 1⟩ ∧
      ∃ o', leaseAt (run OwnershipServer.step (Server.start oneFileDb)
        (fencedWriteBegun ++ leaseTaken)).rows "s" = some o' ∧ 1 ≤ o'.generation := by
  have hlease : leaseAt (run OwnershipServer.step (Server.start oneFileDb) fencedWriteBegun).rows "s"
      = some ⟨"s", "a", 10, 1⟩ := by decide
  obtain ⟨⟨o', ho', hle, -⟩, -⟩ := fencing oneFileDb fencedWriteBegun leaseTaken "s" _ hlease
  exact ⟨hlease, o', ho', hle⟩

/-- Here the write of `a` commits first, and then `b` has the lease with the next generation. -/
example : leaseAt (run OwnershipServer.step (Server.start oneFileDb)
    (fencedWriteBegun ++ leaseTaken)).rows "s" = some ⟨"s", "b", 110, 2⟩ := by decide

end MemoryLayer.Meta
