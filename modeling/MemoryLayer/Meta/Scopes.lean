import MemoryLayer.Meta.Fenced

namespace MemoryLayer.Meta

open Sql Sql.Tx Runs

/-! # One scope for each inode

Each node computes the scope of an inode by following parents, and memoizes it (`meta/scope.go`).  The
leases of a scope exclude each other, so writers of an inode exclude each other as long as all nodes
compute the same scope for it.

- `Traffic`: a cluster with operations in flight; `last` is who last changed or moved an inode.
- `Traffic.step`: operations of any nodes, interleaved between acquiring scopes and committing.
- `KeysKept`: an operation that changes the scope of an inode commits only while no node has that
  inode's scope in mind, and by a node that has the leases of both scopes.
- `one_scope`: under this condition all nodes fence an inode with the same scope, and a node that
  changes it after another one has a later generation of the lease.
-/

/-! ### Operations in flight -/

/-- An operation on its way, with the scopes that it has acquired so far. -/
structure Flight where
  node : String
  op : FencedOp
  scopes : List (String × Int)

/-- Who last changed or moved an inode, and the scope and generation under which it is since then. -/
structure Act where
  node : String
  scope : String
  gen : Int
  deriving DecidableEq, Repr

/-- Nodes on one database, with operations in flight. -/
structure Traffic where
  cluster : Cluster
  flights : Nat → Option Flight
  last : Ino → Option Act

/-- What happens.
    * An operation starts, acquires its scopes one after another, and commits;
    * leases are given up and renewed;
    * a node stops, with its operations, and starts with nothing in memory. -/
inductive TrafficEvent where
  | start (id : Nat) (node : String) (op : FencedOp)
  | acquire (id : Nat) (env : Env)
  | commit (id : Nat) (m : Memory)
  | release (node scopeKey : String)
  | refresh (node scopeKey : String) (generation nowMs ttlMs : Int)
  | restart (node : String)

/-- The transaction of an operation that has acquired its scopes. -/
def Flight.tx (fl : Flight) : MetaTx Unit := fenceInTx fl.node fl.scopes >>= fun _ => fl.op.body

/-- The cluster after a commit: the new tables, and possibly an empty memo. -/
def Flight.settle (fl : Flight) (c : Cluster) (db : Db) : Cluster :=
  let c := { c with db := db }
  if fl.op.flushes fl.scopes then c.memoize fl.node fun _ => none else c

/-- The scope key of an existing inode. -/
def keyAt (fuel : Nat) (db : Db) (i : Ino) : Option (Option String) :=
  (nodeAt db i).map fun _ => scopeAt db fuel i

/-- Who last changed or moved an inode, after a commit.  An inode that gets another key was moved, and
    is under the lease of its new scope. -/
def Flight.lastAct (fuel : Nat) (fl : Flight) (db db' : Db) (last : Ino → Option Act) (i : Ino) :
    Option Act :=
  match keyAt fuel db i, keyAt fuel db' i with
  | some k, some k' =>
    if k = k' then
      if fl.op.subject = some i then fl.scopes.head?.map fun s => ⟨fl.node, s.1, s.2⟩ else last i
    else k'.bind fun s => (leaseAt db' s).map fun o => ⟨fl.node, s, o.generation⟩
  | _, _ => last i

namespace Traffic

/-- Go on with an operation, or end it. -/
def fly (σ : Traffic) (id : Nat) (fl : Option Flight) : Traffic :=
  { σ with flights := Function.update σ.flights id fl }

@[simp] theorem fly_self (σ : Traffic) (id : Nat) (fl : Option Flight) :
    (σ.fly id fl).flights id = fl := Function.update_self ..

theorem fly_of_ne (σ : Traffic) {id id' : Nat} (h : id' ≠ id) (fl : Option Flight) :
    (σ.fly id fl).flights id' = σ.flights id' := Function.update_of_ne h ..

/-- One event. -/
def step (fuel : Nat) (σ : Traffic) : TrafficEvent → Traffic
  | .start id node op =>
    match σ.flights id with
    | none => σ.fly id (some ⟨node, op, []⟩)
    | some _ => σ
  | .acquire id env =>
    match σ.flights id with
    | none => σ
    | some fl => match fl.op.anchors[fl.scopes.length]? with
      | none => σ
      | some inode => match σ.cluster.acquireScope fuel fl.node env inode with
        | (.ok s, c) => { σ with cluster := c }.fly id (some { fl with scopes := fl.scopes ++ [s] })
        | (.error _, c) => { σ with cluster := c }.fly id none
  | .commit id m =>
    match σ.flights id with
    | none => σ
    | some fl =>
      if fl.scopes.length = fl.op.anchors.length then
        match fl.tx.exec m σ.cluster.db with
        | .ok (_, db) =>
          { σ.fly id none with
            cluster := fl.settle σ.cluster db
            last := fl.lastAct fuel σ.cluster.db db σ.last }
        | .error _ => σ.fly id none
      else σ
  | .release node scopeKey => { σ with cluster := σ.cluster.releaseScope node scopeKey }
  | .refresh node scopeKey generation nowMs ttlMs =>
    { σ with
      cluster := (σ.cluster.withTx .idle (refreshTx scopeKey node generation nowMs ttlMs)).2 }
  | .restart node =>
    { σ with
      cluster := { σ.cluster with nodes := Function.update σ.cluster.nodes node .new }
      flights := fun id => (σ.flights id).filter fun fl => fl.node ≠ node }

/-- Nodes that have just started, on tables in any state. -/
def new (db : Db) : Traffic := ⟨⟨db, fun _ => .new⟩, fun _ => none, fun _ => none⟩

end Traffic

open Traffic

/-! ### The condition -/

/-- The node has the lease of the scope. -/
def Owns (db : Db) (node scopeKey : String) : Prop :=
  ∃ o, leaseAt db scopeKey = some o ∧ o.ownerNode = node

/-- Nobody has the scope of the inode in mind while `fl` commits as `id`: no key is memoized, unless
    the commit flushes it, and no other operation is to acquire it. -/
def Unseen (σ : Traffic) (id : Nat) (fl : Flight) (i : Ino) : Prop :=
  (∀ n k, (σ.cluster.nodes n).cache i = some k → n = fl.node ∧ fl.op.flushes fl.scopes = true) ∧
    ∀ id' fl', id' ≠ id → σ.flights id' = some fl' → i ∉ fl'.op.anchors

/-- A commit that gives an inode another scope is made while nobody has the old one in mind, by a node
    that has the leases of both; the number of a new inode was not used before. -/
def KeysKept (fuel : Nat) (σ : Traffic) : TrafficEvent → Prop
  | .commit id m => ∀ fl u db', σ.flights id = some fl → fl.tx.exec m σ.cluster.db = .ok (u, db') →
      ∀ i k', keyAt fuel db' i = some k' → keyAt fuel σ.cluster.db i ≠ some k' →
        Unseen σ id fl i ∧ match keyAt fuel σ.cluster.db i with
          | none => σ.last i = none
          | some k => (∃ s ∈ k, Owns σ.cluster.db fl.node s) ∧ ∃ s ∈ k', Owns σ.cluster.db fl.node s
  | _ => True

/-! ### Coherence -/

/-- The lease that an act was made under. -/
def Act.lease (a : Act) : Ownership := ⟨a.scope, a.node, 0, a.gen⟩

/-- What nodes have memoized and acquired for an existing inode is its key, and the last act on it was
    under this key, with a lease that has not gone back since. -/
structure Coherent (fuel : Nat) (σ : Traffic) : Prop where
  memo : ∀ n i s, i ≠ rootInode → (σ.cluster.nodes n).cache i = some s →
    ∀ k, keyAt fuel σ.cluster.db i = some k → k = some s
  flight : ∀ id fl i s, σ.flights id = some fl → fl.op.subject = some i → fl.scopes.head? = some s →
    ∀ k, keyAt fuel σ.cluster.db i = some k → k = some s.1
  last : ∀ i a, σ.last i = some a → ∀ k, keyAt fuel σ.cluster.db i = some k →
    k = some a.scope ∧ ∃ o, leaseAt σ.cluster.db a.scope = some o ∧ a.lease.Before o

theorem coherent_new (fuel : Nat) (db : Db) : Coherent fuel (.new db) := by
  refine ⟨?_, ?_, ?_⟩
  · intro n i s _ h
    cases h
  · intro id fl i s h
    cases h
  · intro i a h
    cases h

section Coherent

variable {fuel : Nat} {σ : Traffic}

variable {db db' : Db} {n s : String} {i : Ino} {fl : Flight} {m : Memory} {u : Unit}

theorem keyAt_congr (h : db' .node = db .node) (i : Ino) :
    keyAt fuel db' i = keyAt fuel db i := by
  have hscope : scopeAt db' fuel i = scopeAt db fuel i := by
    refine scopeAt_congr (fun j => ?_) fuel i
    rw [parentAt, parentAt, nodeAt_congr j h]
  rw [keyAt, keyAt, nodeAt_congr i h, hscope]

section

variable (h : Coherent fuel σ)

include h

/-- Any node resolves an existing inode to its key. -/
theorem Coherent.resolves {cache : ScopeCache}
    (hs : scopeOf (σ.cluster.nodes n).cache σ.cluster.db fuel i = some (s, cache)) :
    ∀ k, keyAt fuel σ.cluster.db i = some k → k = some s := by
  intro k hk
  rcases scopeOf_fst hs with ⟨hroot, hmemo⟩ | hwalk
  · exact h.memo n i s hroot hmemo k hk
  · obtain ⟨a, -, rfl⟩ := Option.map_eq_some_iff.mp hk
    exact hwalk

/-- Ending or starting operations keeps coherence. -/
theorem Coherent.fly (id : Nat) {fl : Option Flight}
    (hfl : ∀ x ∈ fl, ∀ i s, x.op.subject = some i → x.scopes.head? = some s →
      ∀ k, keyAt fuel σ.cluster.db i = some k → k = some s.1) : Coherent fuel (σ.fly id fl) := by
  refine ⟨h.memo, ?_, h.last⟩
  intro id' fl' i s hfl' hsubject hhead
  by_cases hid : id' = id
  · subst hid
    rw [fly_self] at hfl'
    exact hfl fl' hfl' i s hsubject hhead
  · rw [fly_of_ne σ hid] at hfl'
    exact h.flight id' fl' i s hfl' hsubject hhead

/-- An operation that ends has nothing in mind. -/
theorem Coherent.land (id : Nat) : Coherent fuel (σ.fly id none) := by
  refine h.fly id fun x hx => ?_
  cases hx

/-- Lease calls keep coherence. -/
theorem Coherent.leases {scopeKey : String} {c : Cluster}
    (hl : LeasesOnly scopeKey σ.cluster c) : Coherent fuel { σ with cluster := c } := by
  have hkey : ∀ i, keyAt fuel c.db i = keyAt fuel σ.cluster.db i :=
    keyAt_congr (hl.tables .node (by decide))
  refine ⟨?_, ?_, ?_⟩
  · intro n i s hroot hmemo
    rw [hl.caches] at hmemo
    rw [hkey]
    exact h.memo n i s hroot hmemo
  · intro id fl i s hfl hsubject hhead
    rw [hkey]
    exact h.flight id fl i s hfl hsubject hhead
  · intro i a ha
    rw [hkey]
    intro k hk
    obtain ⟨hscope, o, ho, hbefore⟩ := h.last i a ha k hk
    obtain ⟨o', ho', hbefore'⟩ := hl.evolves a.scope o ho
    exact ⟨hscope, o', ho', hbefore.trans hbefore'⟩

/-- Memoizing what `scopeOf` says keeps coherence. -/
theorem Coherent.memoize {cache : ScopeCache}
    (hs : scopeOf (σ.cluster.nodes n).cache σ.cluster.db fuel i = some (s, cache)) :
    Coherent fuel { σ with cluster := σ.cluster.memoize n cache } := by
  refine ⟨?_, h.flight, h.last⟩
  intro n' j s' hroot hmemo
  by_cases hn : n' = n
  · subst hn
    have hmemo : cache j = some s' := by
      simpa [Cluster.memoize] using hmemo
    obtain ⟨hothers, hown⟩ := scopeOf_cache hs
    by_cases hj : j = i
    · subst hj
      rcases hown with hold | hnew
      · exact h.memo n' j s' hroot (hold ▸ hmemo)
      · rw [hnew] at hmemo
        cases hmemo
        exact h.resolves hs
    · exact h.memo n' j s' hroot (hothers j hj ▸ hmemo)
  · refine h.memo n' j s' hroot ?_
    simpa [Cluster.memoize, Function.update_of_ne hn] using hmemo

/-- Acquiring a scope keeps coherence, and the scope is that of the inode. -/
theorem Coherent.acquireScope (n : String) (env : Env) (i : Ino) :
    Coherent fuel { σ with cluster := (σ.cluster.acquireScope fuel n env i).2 } ∧
      ∀ s, (σ.cluster.acquireScope fuel n env i).1 = .ok s →
        ∀ k, keyAt fuel (σ.cluster.acquireScope fuel n env i).2.db i = some k → k = some s.1 := by
  rcases acquireScope_cases σ.cluster fuel n env i with ⟨-, he⟩ | ⟨s, cache, c', hs, -, hl, he⟩
  · rw [he]
    exact ⟨h, nofun⟩
  · have hcoherent := (h.memoize hs).leases hl
    have hkey : keyAt fuel c'.db i = keyAt fuel σ.cluster.db i :=
      keyAt_congr (hl.tables .node (by decide)) i
    rcases he with ⟨e, he⟩ | ⟨gen, -, he⟩ <;> rw [he]
    · exact ⟨hcoherent, nofun⟩
    · refine ⟨hcoherent, fun r hr => ?_⟩
      cases hr
      rw [hkey]
      exact h.resolves hs

end

/-- What a commit does: its fences passed, and leases are as before. -/
theorem Flight.tx_ok (h : fl.tx.exec m db = .ok (u, db')) :
    (∀ s ∈ fencedScopes fl.scopes, OwnsAt db fl.node s) ∧ ∀ s, leaseAt db' s = leaseAt db s := by
  rw [Flight.tx, exec_bind, andThen_eq_ok] at h
  obtain ⟨_, db₁, hfence, hbody⟩ := h
  obtain ⟨rfl, howns⟩ := fenceInTx_ok hfence
  refine ⟨howns, fun s => ?_⟩
  rw [leaseAt, exec_avoids fl.op.body_avoids hbody, leaseAt]

theorem head_mem_fencedScopes {scopes : List (String × Int)} {s : String × Int}
    (h : scopes.head? = some s) : s ∈ fencedScopes scopes := by
  unfold fencedScopes
  split
  · cases h
    split <;> exact List.mem_cons_self
  · exact List.mem_of_mem_head? h

@[simp] theorem settle_db (fl : Flight) (c : Cluster) (db : Db) : (fl.settle c db).db = db := by
  unfold Flight.settle
  dsimp only
  split <;> rfl

/-- A key that is still memoized after a commit was memoized before, and was not flushed. -/
theorem settle_cache {c : Cluster} {k : String}
    (h : ((fl.settle c db).nodes n).cache i = some k) :
    (c.nodes n).cache i = some k ∧ ¬ (n = fl.node ∧ fl.op.flushes fl.scopes = true) := by
  unfold Flight.settle at h
  dsimp only at h
  split at h
  · rename_i hflush
    by_cases hn : n = fl.node
    · simp [Cluster.memoize, hn] at h
    · refine ⟨?_, fun h => hn h.1⟩
      simpa [Cluster.memoize, Function.update_of_ne hn] using h
  · rename_i hflush
    exact ⟨h, fun h => hflush h.2⟩

section

variable (h : Coherent fuel σ)

include h

/-- The last act on an inode after a commit: as before, or by the node that commits, which has the
    lease of the scope in which the inode was; and the new act is under the inode's key. -/
theorem Coherent.lastAct {id : Nat}
    (hfl : σ.flights id = some fl) (hx : fl.tx.exec m σ.cluster.db = .ok (u, db'))
    (hok : KeysKept fuel σ (.commit id m)) {a : Act}
    (ha : fl.lastAct fuel σ.cluster.db db' σ.last i = some a) :
    (σ.last i = some a ∧ ∀ k, keyAt fuel db' i = some k → keyAt fuel σ.cluster.db i = some k) ∨
      a.node = fl.node ∧ keyAt fuel db' i = some (some a.scope) ∧
      (∃ o, leaseAt σ.cluster.db a.scope = some o ∧ a.lease.Before o) ∧
      ∃ s, keyAt fuel σ.cluster.db i = some (some s) ∧ Owns σ.cluster.db fl.node s := by
  obtain ⟨hfences, hleases⟩ := Flight.tx_ok hx
  unfold Flight.lastAct at ha
  split at ha
  · rename_i k k' hk hk'
    split at ha
    · rename_i hsame
      subst hsame
      split at ha
      · -- the operation has changed the inode under the scope that it acquired for it
        rename_i hsubject
        obtain ⟨s, hs, rfl⟩ := Option.map_eq_some_iff.mp ha
        have hkey := h.flight id fl i s hfl hsubject hs k hk
        subst hkey
        obtain ⟨o, ho, howner, hgen⟩ := hfences s (head_mem_fencedScopes hs)
        refine .inr ⟨rfl, hk', ⟨o, ho, Int.le_of_eq hgen.symm, fun hne => ?_⟩, s.1, hk, o, ho, howner⟩
        exact absurd howner hne
      · exact .inl ⟨ha, fun _ hk'' => hk.trans (hk'.symm.trans hk'')⟩
    · -- the inode was moved, by a node with both leases
      rename_i hne
      obtain ⟨-, hown⟩ := hok fl u db' hfl hx i k' hk' (fun h => hne (Option.some.inj (hk.symm.trans h)))
      rw [hk] at hown
      obtain ⟨⟨s, hs, howns⟩, s', hs', o, ho, howner⟩ := hown
      obtain rfl : k = some s := hs
      obtain rfl : k' = some s' := hs'
      rw [Option.bind_some, hleases, ho, Option.map_some] at ha
      cases ha
      refine .inr ⟨rfl, hk', ⟨o, ho, Int.le_refl _, fun hne => ?_⟩, s, hk, howns⟩
      exact absurd howner hne
  · rename_i hnone
    refine .inl ⟨ha, fun k' hk' => ?_⟩
    -- an inode that is new has had no act
    by_contra hne
    obtain ⟨-, hown⟩ := hok fl u db' hfl hx i k' hk' hne
    cases hk : keyAt fuel σ.cluster.db i with
    | none =>
      rw [hk] at hown
      rw [show σ.last i = none from hown] at ha
      cases ha
    | some k => exact hnone k k' hk hk'

/-- A commit under the condition keeps coherence. -/
theorem Coherent.commit {id : Nat}
    (hfl : σ.flights id = some fl) (hx : fl.tx.exec m σ.cluster.db = .ok (u, db'))
    (hok : KeysKept fuel σ (.commit id m)) :
    Coherent fuel { σ.fly id none with
      cluster := fl.settle σ.cluster db'
      last := fl.lastAct fuel σ.cluster.db db' σ.last } := by
  -- the key of an inode that someone has in mind has not changed
  have hkept : ∀ i k', keyAt fuel db' i = some k' → ¬ Unseen σ id fl i →
      keyAt fuel σ.cluster.db i = some k' := by
    intro i k' hk' hseen
    by_contra hne
    exact hseen (hok fl u db' hfl hx i k' hk' hne).1
  refine ⟨?_, ?_, ?_⟩
  · intro n i s hroot hmemo k hk
    rw [settle_db] at hk
    obtain ⟨hmemo, hflush⟩ := settle_cache hmemo
    exact h.memo n i s hroot hmemo k (hkept i k hk fun hunseen => hflush (hunseen.1 n s hmemo))
  · intro id' fl' i s hfl' hsubject hhead k hk
    rw [settle_db] at hk
    by_cases hid : id' = id
    · subst hid
      rw [show (σ.fly id' none).flights id' = none from fly_self ..] at hfl'
      cases hfl'
    · rw [show (σ.fly id none).flights id' = σ.flights id' from fly_of_ne σ hid none] at hfl'
      refine h.flight id' fl' i s hfl' hsubject hhead k (hkept i k hk fun hunseen => ?_)
      refine hunseen.2 id' fl' hid hfl' ?_
      rw [FencedOp.anchors_of_subject hsubject]
      exact List.mem_singleton_self i
  · intro i a ha k hk
    rw [settle_db] at hk ⊢
    rw [(Flight.tx_ok hx).2]
    rcases h.lastAct hfl hx hok ha with ⟨hlast, hkey⟩ | ⟨-, hkey, hlease, -⟩
    · exact h.last i a hlast k (hkey k hk)
    · exact ⟨Option.some.inj (hk.symm.trans hkey), hlease⟩

/-- A node that starts again keeps coherence. -/
theorem Coherent.restart (node : String) :
    Coherent fuel (σ.step fuel (.restart node)) := by
  refine ⟨?_, ?_, h.last⟩
  · intro n i s hroot hmemo
    by_cases hn : n = node
    · simp [Traffic.step, hn, FencedNode.new] at hmemo
    · refine h.memo n i s hroot ?_
      simpa [Traffic.step, Function.update_of_ne hn] using hmemo
  · intro id fl i s hfl
    exact h.flight id fl i s (Option.filter_eq_some_iff.mp hfl).1

/-- Every step under the condition keeps coherence. -/
theorem Coherent.step {ev : TrafficEvent} (hok : KeysKept fuel σ ev) :
    Coherent fuel (σ.step fuel ev) := by
  cases ev with
  | start id node op =>
    simp only [Traffic.step]
    split
    · refine h.fly id fun x hx i s _ hhead => ?_
      cases hx
      cases hhead
    · exact h
  | acquire id env =>
    simp only [Traffic.step]
    split
    · exact h
    · rename_i fl hfl
      split
      · exact h
      · rename_i inode hinode
        obtain ⟨hcoherent, hscope⟩ := h.acquireScope fl.node env inode
        cases hacq : σ.cluster.acquireScope fuel fl.node env inode with
        | mk r c =>
          rw [hacq] at hcoherent hscope
          cases r with
          | error e => exact hcoherent.land id
          | ok s =>
            refine hcoherent.fly id fun x hx i s' hsubject hhead => ?_
            cases hx
            -- the first scope that is acquired is that of the subject
            cases hscopes : fl.scopes with
            | nil =>
              rw [hscopes, FencedOp.anchors_of_subject hsubject] at hinode
              rw [hscopes] at hhead
              cases hinode
              cases hhead
              exact hscope s rfl
            | cons s₀ rest =>
              rw [hscopes] at hhead
              exact hcoherent.flight id fl i s' hfl hsubject (by rw [hscopes]; exact hhead)
  | commit id m =>
    simp only [Traffic.step]
    split
    · exact h
    · rename_i fl hfl
      split
      · split
        · rename_i hx
          exact h.commit hfl hx hok
        · exact h.land id
      · exact h
  | release node scopeKey => exact h.leases (LeasesOnly.releaseScope _ node scopeKey)
  | refresh node scopeKey generation nowMs ttlMs =>
    have hl : LeasesOnly scopeKey σ.cluster
        (σ.cluster.withTx .idle (refreshTx scopeKey node generation nowMs ttlMs)).2 :=
      LeasesOnly.withTx (ensures_setExpiryTx _ _ _ _) (fun t ht => setExpiryTx_avoids ht) .idle
        fun hx s hs => setExpiryTx_of_ne hx hs
    exact h.leases hl
  | restart node => exact h.restart node

end

end Coherent

/-! ### One scope -/

/-- The node would fence a change of the inode with this scope: it resolves the inode to it, or has
    acquired it for an operation in flight. -/
def Fences (fuel : Nat) (σ : Traffic) (node : String) (i : Ino) (scopeKey : String) : Prop :=
  (∃ cache, scopeOf (σ.cluster.nodes node).cache σ.cluster.db fuel i = some (scopeKey, cache)) ∨
    ∃ id fl s, σ.flights id = some fl ∧ fl.node = node ∧ fl.op.subject = some i ∧
      fl.scopes.head? = some s ∧ s.1 = scopeKey

/-- All nodes fence an existing inode with the same scope. -/
def OneScope (fuel : Nat) (σ : Traffic) : Prop :=
  ∀ i, nodeAt σ.cluster.db i ≠ none → ∀ n n' s s', Fences fuel σ n i s → Fences fuel σ n' i s' → s = s'

/-- When another node than before changes or moves an inode, it has the lease of the scope in which
    the inode was, and the lease has changed hands since the last change. -/
def HandedOver (σ σ' : Traffic) : Prop :=
  ∀ i a a', σ.last i = some a → σ'.last i = some a' → a'.node ≠ a.node →
    ∃ o, leaseAt σ.cluster.db a.scope = some o ∧ o.ownerNode = a'.node ∧ a.gen < o.generation

section OneScope

variable {fuel : Nat} {σ : Traffic}

theorem Coherent.fences (h : Coherent fuel σ) {n : String} {i : Ino} {s : String}
    (hs : Fences fuel σ n i s) : ∀ k, keyAt fuel σ.cluster.db i = some k → k = some s := by
  rcases hs with ⟨cache, hs⟩ | ⟨id, fl, s, hfl, -, hsubject, hhead, rfl⟩
  · exact h.resolves hs
  · exact h.flight id fl i s hfl hsubject hhead

theorem Coherent.oneScope (h : Coherent fuel σ) : OneScope fuel σ := by
  intro i hi n n' s s' hs hs'
  obtain ⟨a, ha⟩ := Option.ne_none_iff_exists'.mp hi
  have hkey : keyAt fuel σ.cluster.db i = some (scopeAt σ.cluster.db fuel i) := by
    rw [keyAt, ha]
    rfl
  exact Option.some.inj ((h.fences hs _ hkey).symm.trans (h.fences hs' _ hkey))

/-- Only a commit changes who acted last. -/
theorem step_last (fuel : Nat) (σ : Traffic) (ev : TrafficEvent) (i : Ino) :
    (σ.step fuel ev).last i = σ.last i ∨ ∃ id m fl u db', ev = .commit id m ∧
      σ.flights id = some fl ∧ fl.tx.exec m σ.cluster.db = .ok (u, db') ∧
      (σ.step fuel ev).last i = fl.lastAct fuel σ.cluster.db db' σ.last i := by
  cases ev with
  | commit id m =>
    simp only [Traffic.step]
    split
    · exact .inl rfl
    · rename_i fl hfl
      split
      · split
        · rename_i u db' hx
          exact .inr ⟨id, m, fl, u, db', rfl, hfl, hx, rfl⟩
        · exact .inl rfl
      · exact .inl rfl
  | acquire id env =>
    simp only [Traffic.step]
    split
    · exact .inl rfl
    · split
      · exact .inl rfl
      · split <;> exact .inl rfl
  | start id node op =>
    simp only [Traffic.step]
    split <;> exact .inl rfl
  | release | refresh | restart => exact .inl rfl

theorem Coherent.handedOver (h : Coherent fuel σ) {ev : TrafficEvent} (hok : KeysKept fuel σ ev) :
    HandedOver σ (σ.step fuel ev) := by
  intro i a a' ha ha' hne
  rcases step_last fuel σ ev i with hsame | ⟨id, m, fl, u, db', rfl, hfl, hx, he⟩
  · rw [hsame, ha] at ha'
    cases ha'
    exact absurd rfl hne
  · rw [he] at ha'
    rcases h.lastAct hfl hx hok ha' with ⟨hlast, -⟩ | ⟨hnode, -, -, s, hs, o, ho, howner⟩
    · rw [ha] at hlast
      cases hlast
      exact absurd rfl hne
    · obtain ⟨hscope, o', ho', hbefore⟩ := h.last i a ha _ hs
      cases hscope
      rw [ho] at ho'
      cases ho'
      refine ⟨o, ho, howner.trans hnode.symm, hbefore.2 ?_⟩
      rw [howner, ← hnode]
      exact hne

end OneScope

/-- **One scope for each inode.**  In every run, from any tables, of the operations of any nodes whose
    commits all meet the condition: at every moment all nodes fence an existing inode with the same
    scope; and whenever another node than before changes or moves an inode, the lease of its scope has
    changed hands since. -/
theorem one_scope (fuel : Nat) (db : Db) (evs : List TrafficEvent)
    (hok : Guarded (Traffic.step fuel) (KeysKept fuel) (.new db) evs) :
    OneScope fuel (run (Traffic.step fuel) (.new db) evs) ∧
      ∀ before ev after, evs = before ++ ev :: after →
        HandedOver (run (Traffic.step fuel) (.new db) before)
          (run (Traffic.step fuel) (.new db) (before ++ [ev])) := by
  have hcoherent : ∀ evs, Guarded (Traffic.step fuel) (KeysKept fuel) (.new db) evs →
      Coherent fuel (run (Traffic.step fuel) (.new db) evs) := fun evs hok =>
    invariant_of_guarded (Coherent fuel) (fun σ ev h hok => h.step hok) (coherent_new fuel db) hok
  refine ⟨(hcoherent evs hok).oneScope, fun before ev after hevs => ?_⟩
  subst hevs
  obtain ⟨hbefore, hev, -⟩ := guarded_append.mp hok
  rw [run_append]
  exact (hcoherent before hbefore).handedOver hev

/-! ### Runs without namespace operations -/

/-- Changes of data and attributes. -/
def FencedOp.movesNothing : FencedOp → Bool
  | .write .. | .truncate .. | .setAttr .. => true
  | _ => false

/-- An event that starts no operation but such a change. -/
def TrafficEvent.startsChange : TrafficEvent → Bool
  | .start _ _ op => op.movesNothing
  | _ => true

/-- A change moves no inode, so it keeps all keys. -/
theorem keyAt_of_movesNothing {op : FencedOp} (hop : op.movesNothing = true) {m : Memory} {u : Unit}
    {db db' : Db} (h : op.body.exec m db = .ok (u, db')) (fuel : Nat) (i : Ino) :
    keyAt fuel db' i = keyAt fuel db i := by
  have hparents : ∀ j, parentAt db' j = parentAt db j := by
    cases op with
    | write now r => exact writeTx_parents h
    | truncate now inode size => exact truncateTx_parents h
    | setAttr now inode set attr c => exact setAttrTx_parents h
    | _ => cases hop
  have hkey : ∀ db, keyAt fuel db i = (parentAt db i).map fun _ => scopeAt db fuel i := by
    intro db
    rw [parentAt, Option.map_map]
    rfl
  rw [hkey, hkey, hparents, scopeAt_congr hparents]

/-- The operations in flight are those that were started. -/
theorem step_flights {fuel : Nat} {σ : Traffic} {ev : TrafficEvent} {id : Nat} {fl : Flight}
    (h : (σ.step fuel ev).flights id = some fl) :
    (∃ fl₀, σ.flights id = some fl₀ ∧ fl.op = fl₀.op) ∨ ∃ node, ev = .start id node fl.op := by
  have hland : ∀ {τ : Traffic} {id'}, τ.flights = σ.flights → (τ.fly id' none).flights id = some fl →
      σ.flights id = some fl := by
    intro τ id' hτ hfl
    by_cases hid : id = id'
    · subst hid
      rw [fly_self] at hfl
      cases hfl
    · rw [fly_of_ne τ hid, hτ] at hfl
      exact hfl
  cases ev with
  | start id' node op =>
    simp only [Traffic.step] at h
    split at h
    · by_cases hid : id = id'
      · subst hid
        rw [fly_self] at h
        cases h
        exact .inr ⟨node, rfl⟩
      · rw [fly_of_ne σ hid] at h
        exact .inl ⟨fl, h, rfl⟩
    · exact .inl ⟨fl, h, rfl⟩
  | acquire id' env =>
    simp only [Traffic.step] at h
    split at h
    · exact .inl ⟨fl, h, rfl⟩
    · rename_i fl₀ hfl₀
      split at h
      · exact .inl ⟨fl, h, rfl⟩
      · split at h
        · by_cases hid : id = id'
          · subst hid
            rw [fly_self] at h
            cases h
            exact .inl ⟨fl₀, hfl₀, rfl⟩
          · rw [fly_of_ne _ hid] at h
            exact .inl ⟨fl, h, rfl⟩
        · exact .inl ⟨fl, hland rfl h, rfl⟩
  | commit id' m =>
    simp only [Traffic.step] at h
    split at h
    · exact .inl ⟨fl, h, rfl⟩
    · split at h
      · split at h
        · exact .inl ⟨fl, hland rfl h, rfl⟩
        · exact .inl ⟨fl, hland rfl h, rfl⟩
      · exact .inl ⟨fl, h, rfl⟩
  | release | refresh => exact .inl ⟨fl, h, rfl⟩
  | restart node => exact .inl ⟨fl, (Option.filter_eq_some_iff.mp h).1, rfl⟩

/-- Without operations on the namespace the condition is met. -/
theorem guarded_of_changes {fuel : Nat} {evs : List TrafficEvent}
    (hevs : ∀ ev ∈ evs, ev.startsChange = true) {σ : Traffic}
    (hσ : ∀ id fl, σ.flights id = some fl → fl.op.movesNothing = true) :
    Guarded (Traffic.step fuel) (KeysKept fuel) σ evs := by
  induction evs generalizing σ with
  | nil => trivial
  | cons ev evs ih =>
    refine ⟨?_, ih (fun ev hev => hevs ev (List.mem_cons_of_mem _ hev)) ?_⟩
    · cases ev with
      | commit id m =>
        intro fl u db' hfl hx i k' hk' hne
        rw [Flight.tx, exec_bind, andThen_eq_ok] at hx
        obtain ⟨_, db₁, hfence, hbody⟩ := hx
        obtain ⟨rfl, -⟩ := fenceInTx_ok hfence
        rw [keyAt_of_movesNothing (hσ id fl hfl) hbody] at hk'
        exact absurd hk' hne
      | _ => trivial
    · intro id fl hfl
      rcases step_flights hfl with ⟨fl₀, hfl₀, hop⟩ | ⟨node, hstart⟩
      · rw [hop]
        exact hσ id fl₀ hfl₀
      · have hchange := hevs ev List.mem_cons_self
        rw [hstart] at hchange
        exact hchange

/-! ### A subtree that changes its scope -/

/-- A node that meets no live peer and remembers no lease for long. -/
def atMs (nowMs : Int) : Env := ⟨nowMs, 10, fun _ => false, fun _ => .free, true⟩

/-- Write four bytes of a file, up to the commit. -/
def writeBegun (id : Nat) (node : String) (inode : Ino) (sliceId : Nat) (nowMs : Int) :
    List TrafficEvent :=
  [.start id node (.write ⟨1, 0⟩ ⟨inode, 0, 0, sliceId, 4, 0, 4⟩), .acquire id (atMs nowMs)]

/-- Node `b` writes a file after `a` has, once `a`'s lease is over. -/
def writesInTurn : List TrafficEvent :=
  writeBegun 0 "a" 2 7 0 ++ [.commit 0 .idle] ++ writeBegun 1 "b" 2 8 100 ++ [.commit 1 .idle]

theorem one_scope_writesInTurn :
    Guarded (Traffic.step 8) (KeysKept 8) (.new oneFileDb) writesInTurn ∧
      OneScope 8 (run (Traffic.step 8) (.new oneFileDb) writesInTurn) := by
  have hok : Guarded (Traffic.step 8) (KeysKept 8) (.new oneFileDb) writesInTurn :=
    guarded_of_changes (by decide) nofun
  exact ⟨hok, (one_scope 8 oneFileDb writesInTurn hok).1⟩

/-- A directory. -/
def directoryNode (inode parent : Ino) : Node :=
  { emptyFile inode with
    attr := { (emptyFile inode).attr with type := .directory, nlink := 2, parent := parent } }

/-- The directories `/x`, `/y` and `/x/d`, and the file `/x/d/f`. -/
def subtreeDb : Db :=
  let file := emptyFile 5
  edit .edge (fun _ => [⟨1, "x", 2, .directory⟩, ⟨1, "y", 3, .directory⟩, ⟨2, "d", 4, .directory⟩,
    ⟨4, "f", 5, .file⟩]) <|
  edit .node (fun rows => rows ++ [directoryNode 2 1, directoryNode 3 1, directoryNode 4 2,
    { file with attr := { file.attr with parent := 4 } }]) (Engine.bootstrapDb ⟨0, 0⟩)

/-- Node `a` writes `f`.  Its lease of `/x` runs out, `b` takes it and moves `d` from `/x` to `/y`.
    Then `a` takes the lease of `/x` again, and both nodes begin a write of `f`. -/
def subtreeMoved : List TrafficEvent :=
  writeBegun 0 "a" 5 7 0 ++ [.commit 0 .idle] ++
    [.start 1 "b" (.rename ⟨1, 0⟩ 2 "d" 3 "d" false false), .acquire 1 (atMs 100),
      .acquire 1 (atMs 100), .commit 1 .idle] ++
    writeBegun 2 "a" 5 8 200 ++ writeBegun 3 "b" 5 9 200

/-- **Two writers.**  Both nodes have a live lease, `a` of the scope it has memoized for `f` and `b` of
    the scope `f` is in, and both writes commit while the leases stay as they are. -/
theorem two_scopes_for_one_inode :
    let σ := run (Traffic.step 8) (.new subtreeDb) subtreeMoved
    let σ' := run (Traffic.step 8) σ [.commit 2 .idle, .commit 3 .idle]
    leaseAt σ.cluster.db "ino:2" = some ⟨"ino:2", "a", 210, 3⟩ ∧
      leaseAt σ.cluster.db "ino:3" = some ⟨"ino:3", "b", 210, 1⟩ ∧
      leaseAt σ'.cluster.db "ino:2" = leaseAt σ.cluster.db "ino:2" ∧
      leaseAt σ'.cluster.db "ino:3" = leaseAt σ.cluster.db "ino:3" ∧
      (σ.cluster.db .sliceRef).map SliceRef.sliceId = [7] ∧
      (σ'.cluster.db .sliceRef).map SliceRef.sliceId = [7, 8, 9] ∧
      ¬ OneScope 8 σ := by
  refine ⟨by decide, by decide, by decide, by decide, by decide, by decide, fun hone => ?_⟩
  have hscope : ∀ n s, (scopeOf ((run (Traffic.step 8) (.new subtreeDb) subtreeMoved).cluster.nodes
      n).cache (run (Traffic.step 8) (.new subtreeDb) subtreeMoved).cluster.db 8 5).map Prod.fst
        = some s → Fences 8 (run (Traffic.step 8) (.new subtreeDb) subtreeMoved) n 5 s := by
    intro n s h
    obtain ⟨⟨_, cache⟩, hs, rfl⟩ := Option.map_eq_some_iff.mp h
    exact .inl ⟨cache, hs⟩
  have hexists : nodeAt (run (Traffic.step 8) (.new subtreeDb) subtreeMoved).cluster.db 5 ≠ none := by
    decide
  exact absurd (hone 5 hexists "a" "b" "ino:2" "ino:3" (hscope "a" "ino:2" (by decide))
    (hscope "b" "ino:3" (by decide))) (by decide)

end MemoryLayer.Meta
