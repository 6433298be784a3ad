import MemoryLayer.Meta.Attributes
import MemoryLayer.Meta.Ownership
import MemoryLayer.Meta.Reach

namespace MemoryLayer.Meta

open Sql Sql.Tx

/-! # Fenced operations

What a node does before a write transaction: `acquireScope` of `meta/fence.go` resolves the scope of
an inode, and `Ensure` of `coord/owner.go` sees to it that the node has the lease of that scope.

- `FencedNode`: what a node remembers, the memoized scope keys and the generations of its leases.
- `Cluster`: the shared tables and the memory of every node.
- `Env`: what a call meets outside the tables, the clock and the liveness bucket.
- `Cluster.ensure`, `Cluster.acquireScope`: the calls.
- `fenceInTx`: the fences at the top of a write transaction.
- `LeasesOnly`: these calls change nothing but leases, and change them as leases may change.
- `FencedOp`: the operations that are fenced, the inodes whose scopes they acquire, and their bodies;
  none of them changes a lease.
-/

/-! ### Nodes -/

/-- What a node remembers about scopes. -/
structure FencedNode where
  cache : ScopeCache
  held : String → Option Int

/-- A node that has just started. -/
def FencedNode.new : FencedNode := ⟨fun _ => none, fun _ => none⟩

/-- The tables that all nodes share, and the memory of each node. -/
structure Cluster where
  db : Db
  nodes : String → FencedNode

/-- What a node learns from the liveness bucket about a scope.
    * `free`: there is no entry, or it is the node's own;
    * `silent`: a live peer does not answer the handoff request in time;
    * `declines`, `releases`: it answers. -/
inductive Liveness where
  | unreachable
  | free
  | silent
  | declines
  | releases (peer : String)

/-- A peer has given up the scope. -/
def Liveness.released : Liveness → Bool
  | .releases _ => true
  | _ => false

/-- What `Ensure` meets: the clock, whether a remembered lease has not run out locally, the liveness
    bucket, and whether the node's own entry can be published there. -/
structure Env where
  nowMs : Int
  ttlMs : Int
  fresh : String → Bool
  liveness : String → Liveness
  published : Bool

namespace Cluster

/-- Run a transaction; an error leaves the tables alone. -/
def withTx {α : Type} (c : Cluster) (m : Memory) (tx : MetaTx α) : Except Errno α × Cluster :=
  match tx.exec m c.db with
  | .ok (a, db) => (.ok a, { c with db := db })
  | .error e => (.error e, c)

/-- Remember, or forget, the generation of a lease. -/
def hold (c : Cluster) (node scopeKey : String) (gen : Option Int) : Cluster :=
  let n := c.nodes node
  let n := { n with held := Function.update n.held scopeKey gen }
  { c with nodes := Function.update c.nodes node n }

/-- Replace the memoized scope keys of a node. -/
def memoize (c : Cluster) (node : String) (cache : ScopeCache) : Cluster :=
  let n := { c.nodes node with cache := cache }
  { c with nodes := Function.update c.nodes node n }

/-- A node gives up a scope, as the answer to a handoff request. -/
def releaseScope (c : Cluster) (node scopeKey : String) : Cluster :=
  match (c.nodes node).held scopeKey with
  | none => c
  | some gen => ((c.withTx .idle (releaseOwnershipTx scopeKey node gen)).2).hold node scopeKey none

/-- Take or renew a lease, and publish it. -/
def acquire (c : Cluster) (node : String) (env : Env) (scopeKey : String) :
    Except Errno (Option Int) × Cluster :=
  match c.withTx .idle (acquireOrResumeTx scopeKey node env.nowMs env.ttlMs) with
  | (.error _, c) => (.error .eio, c)
  | (.ok (_, false), c) => (.ok none, c)
  | (.ok (l, true), c) =>
    if env.published then (.ok (some l.generation), c.hold node scopeKey (some l.generation))
    else (.error .eio, c)

/-- Make sure that the node has the lease of a scope: it remembers the lease, or takes it unless a
    live peer keeps it. -/
def ensure (c : Cluster) (node : String) (env : Env) (scopeKey : String) :
    Except Errno (Option Int) × Cluster :=
  match if env.fresh scopeKey then (c.nodes node).held scopeKey else none with
  | some gen => (.ok (some gen), c)
  | none => match env.liveness scopeKey with
    | .unreachable => (.error .eio, c)
    | .declines => (.ok none, c)
    | .releases peer => (c.releaseScope peer scopeKey).acquire node env scopeKey
    | .free | .silent => c.acquire node env scopeKey

/-- Resolve the scope of an inode and make sure that the node has its lease.  Answers with the key
    and the generation to fence the transaction with. -/
def acquireScope (c : Cluster) (fuel : Nat) (node : String) (env : Env) (inode : Ino) :
    Except Errno (String × Int) × Cluster :=
  match scopeOf (c.nodes node).cache c.db fuel inode with
  | none => (.error .eio, c)
  | some (scopeKey, cache) =>
    match (c.memoize node cache).ensure node env scopeKey with
    | (.error _, c) => (.error .eio, c)
    | (.ok none, c) => (.error .estale, c)
    | (.ok (some gen), c) => (.ok (scopeKey, gen), c)

end Cluster

/-- The scopes of a transaction, each once: when a rename has two, the second one is fenced only if it
    is another one. -/
def fencedScopes : List (String × Int) → List (String × Int)
  | [src, dst] => if dst.1 ≠ src.1 then [src, dst] else [src]
  | scopes => scopes

/-- The fences at the top of a write transaction. -/
def fenceInTx (node : String) (scopes : List (String × Int)) : MetaTx Unit :=
  each (fun s => checkFence s.1 node s.2) (fencedScopes scopes)

/-! ### Scope keys -/

/-- The scope key that a node without memoized keys computes. -/
def scopeAt (db : Db) (fuel : Nat) (inode : Ino) : Option String :=
  (scopeOf (fun _ => none) db fuel inode).map Prod.fst

variable {m : Memory} {db db' : Db} {u : Unit} {scopeKey node : String} {inode : Ino} {t : Table}

theorem scopeWalk_congr (h : ∀ j, parentAt db' j = parentAt db j) (inode : Ino)
    (fuel : Nat) (cur : Ino) : scopeWalk db' inode fuel cur = scopeWalk db inode fuel cur := by
  induction fuel generalizing cur with
  | zero => rfl
  | succ fuel ih =>
    simp only [scopeWalk, h, ih]

/-- Scope keys depend on the parents only. -/
theorem scopeAt_congr (h : ∀ j, parentAt db' j = parentAt db j) (fuel : Nat)
    (inode : Ino) : scopeAt db' fuel inode = scopeAt db fuel inode := by
  simp only [scopeAt, scopeOf, scopeWalk_congr h]

/-- `scopeOf` memoizes the key of its own inode at most, and the key that it answers. -/
theorem scopeOf_cache {cache cache' : ScopeCache} {fuel : Nat} {s : String}
    (h : scopeOf cache db fuel inode = some (s, cache')) :
    (∀ j, j ≠ inode → cache' j = cache j) ∧ (cache' inode = cache inode ∨ cache' inode = some s) := by
  unfold scopeOf at h
  split at h
  · cases h
    exact ⟨fun _ _ => rfl, .inl rfl⟩
  · split at h
    · cases h
      exact ⟨fun _ _ => rfl, .inl rfl⟩
    · obtain ⟨r, -, hr⟩ := Option.map_eq_some_iff.mp h
      obtain ⟨rfl, rfl⟩ := Prod.mk.inj hr
      split
      · exact ⟨fun j hj => Function.update_of_ne hj _ _, .inr (Function.update_self ..)⟩
      · exact ⟨fun _ _ => rfl, .inl rfl⟩

/-- What `scopeOf` answers is memoized, or what the walk says. -/
theorem scopeOf_fst {cache cache' : ScopeCache} {fuel : Nat} {s : String}
    (h : scopeOf cache db fuel inode = some (s, cache')) :
    inode ≠ rootInode ∧ cache inode = some s ∨ scopeAt db fuel inode = some s := by
  unfold scopeOf at h
  unfold scopeAt scopeOf
  split at h
  · rename_i hroot
    cases h
    rw [if_pos hroot]
    exact .inr rfl
  · rename_i hroot
    split at h
    · rename_i v hv
      cases h
      exact .inl ⟨hroot, hv⟩
    · obtain ⟨r, hr, hkey⟩ := Option.map_eq_some_iff.mp h
      obtain ⟨rfl, -⟩ := Prod.mk.inj hkey
      rw [if_neg hroot, hr]
      exact .inr rfl

/-! ### What the fence reads -/

/-- The node owns the scope at this generation. -/
def OwnsAt (db : Db) (node : String) (s : String × Int) : Prop :=
  ∃ o, leaseAt db s.1 = some o ∧ o.ownerNode = node ∧ o.generation = s.2

theorem checkFence_ok {gen : Int}
    (h : (checkFence scopeKey node gen).exec m db = .ok (u, db')) :
    db' = db ∧ OwnsAt db node (scopeKey, gen) := by
  rw [checkFence, exec_bind, exec_lockRows, andThen_ok, List.head?_filter] at h
  split at h
  · cases h
  · rename_i o ho
    rw [exec_require] at h
    split at h
    · rename_i hheld
      obtain ⟨-, rfl⟩ := Prod.mk.inj (Except.ok.inj h)
      exact ⟨rfl, o, ho, hheld⟩
    · cases h

theorem fenceInTx_ok {scopes : List (String × Int)}
    (h : (fenceInTx node scopes).exec m db = .ok (u, db')) :
    db' = db ∧ ∀ s ∈ fencedScopes scopes, OwnsAt db node s := by
  rw [fenceInTx] at h
  generalize fencedScopes scopes = distinct at h ⊢
  induction distinct with
  | nil =>
    obtain ⟨-, rfl⟩ := Prod.mk.inj (Except.ok.inj h)
    exact ⟨rfl, by simp⟩
  | cons s rest ih =>
    change (checkFence s.1 node s.2 >>= fun _ => each _ rest).exec m db = _ at h
    rw [exec_bind, andThen_eq_ok] at h
    obtain ⟨_, db₁, hfence, hrest⟩ := h
    obtain ⟨rfl, hs⟩ := checkFence_ok hfence
    obtain ⟨rfl, hall⟩ := ih hrest
    exact ⟨rfl, List.forall_mem_cons.mpr ⟨hs, hall⟩⟩

/-! ### What lease calls change -/

/-- A body that runs alone keeps the tables that it avoids. -/
theorem exec_avoids {α : Type} {tx : MetaTx α} (h : tx.Avoids t)
    {a : α} (hx : tx.exec m db = .ok (a, db')) : db' t = db t := by
  obtain ⟨_, pend, -, ⟨-, hpend⟩, rfl⟩ :=
    (Ensures.of_avoids (κ := RowKey) h [] id).exec (by simp [Fits]) hx
  exact hpend db

/-- A body that runs alone changes leases as it ensures. -/
theorem exec_evolves {α : Type} {tx : MetaTx α} (h : Ensures EvolvesLeases [] id tx)
    {a : α} (hx : tx.exec m db = .ok (a, db')) (scopeKey : String) :
    Evolves (leaseAt db scopeKey) (leaseAt db' scopeKey) := by
  obtain ⟨_, pend, hfits, hevolves, rfl⟩ := h.exec (by simp [Fits]) hx
  exact hevolves db hfits scopeKey

section Bodies

variable {s : String} {nowMs ttlMs generation expires : Int} {o : Ownership}

theorem acquireOrResumeTx_avoids (ht : t ≠ .ownership) :
    (acquireOrResumeTx scopeKey node nowMs ttlMs).Avoids t := by
  simp only [acquireOrResumeTx, avoids_bind, avoids_lockRows, true_and]
  intro found _
  split <;> simp [ht.symm]

theorem setExpiryTx_avoids (ht : t ≠ .ownership) :
    (setExpiryTx scopeKey node generation expires).Avoids t := by
  simp [setExpiryTx, ht.symm]

/-- An `UPDATE` of rows of one scope keeps the leases of the others. -/
theorem leaseAt_updated_of_ne {f : Ownership → Ownership} (hf : ∀ o, (f o).scopeKey = o.scopeKey)
    {p : Ownership → Bool} (hp : ∀ o, p o = true → o.scopeKey = scopeKey) (hs : s ≠ scopeKey)
    (db : Db) : leaseAt (edit .ownership (updated p f) db) s = leaseAt db s := by
  rw [leaseAt_updated hf]
  cases hl : leaseAt db s with
  | none => rfl
  | some o =>
    have hpo : ¬ p o = true := fun h => hs ((leaseAt_scope hl).symm.trans (hp o h))
    rw [Option.map_some, if_neg hpo]

theorem leaseAt_inserted_of_ne (hs : s ≠ o.scopeKey) (db : Db) :
    leaseAt (edit .ownership (inserted o) db) s = leaseAt db s := by
  rw [leaseAt, edit_self, inserted]
  split
  · rfl
  · have hnot : isScope s o = false := decide_eq_false (Ne.symm hs)
    rw [List.find?_append, List.find?_cons_of_neg (by rw [hnot]; decide), List.find?_nil,
      Option.or_none]
    rfl

theorem isScope_iff : isScope scopeKey o = true ↔ o.scopeKey = scopeKey :=
  decide_eq_true_iff

theorem acquireOrResumeTx_of_ne {r : Ownership × Bool}
    (h : (acquireOrResumeTx scopeKey node nowMs ttlMs).exec m db = .ok (r, db'))
    (hs : s ≠ scopeKey) : leaseAt db' s = leaseAt db s := by
  have hp : ∀ o, isScope scopeKey o = true → o.scopeKey = scopeKey := fun _ => isScope_iff.mp
  rw [acquireOrResumeTx, exec_bind, exec_lockRows, andThen_ok] at h
  split at h
  · rw [exec_bind, exec_insertOrFail, andThen_error_ite] at h
    obtain ⟨-, rfl⟩ := Prod.mk.inj (Except.ok.inj h.2)
    exact leaseAt_inserted_of_ne hs db
  · split at h
    · rw [exec_bind, exec_updateRows, andThen_ok] at h
      obtain ⟨-, rfl⟩ := Prod.mk.inj (Except.ok.inj h)
      refine leaseAt_updated_of_ne ?_ hp hs db
      exact fun _ => rfl
    · split at h
      · rw [exec_bind, exec_updateRows, andThen_ok] at h
        obtain ⟨-, rfl⟩ := Prod.mk.inj (Except.ok.inj h)
        refine leaseAt_updated_of_ne ?_ hp hs db
        exact fun _ => rfl
      · obtain ⟨-, rfl⟩ := Prod.mk.inj (Except.ok.inj h)
        rfl

theorem setExpiryTx_of_ne {r : Bool}
    (h : (setExpiryTx scopeKey node generation expires).exec m db = .ok (r, db'))
    (hs : s ≠ scopeKey) : leaseAt db' s = leaseAt db s := by
  rw [setExpiryTx, exec_bind, exec_updateRows, andThen_ok] at h
  obtain ⟨-, rfl⟩ := Prod.mk.inj (Except.ok.inj h)
  refine leaseAt_updated_of_ne ?_ ?_ hs db
  · exact fun _ => rfl
  · intro o ho
    exact (of_decide_eq_true ho).1

/-- A live lease of another node is refused. -/
theorem acquireOrResumeTx_refused (ho : leaseAt db scopeKey = some o)
    (howner : o.ownerNode ≠ node) (hlive : nowMs ≤ o.expiresUnixMs) :
    (acquireOrResumeTx scopeKey node nowMs ttlMs).exec m db = .ok ((o, false), db) := by
  rw [acquireOrResumeTx, exec_bind, exec_lockRows, andThen_ok, List.head?_filter]
  have ho : (db .ownership).find? (isScope scopeKey) = some o := ho
  rw [ho]
  simp only [howner, if_false, Int.not_lt.mpr hlive, exec_pure]

end Bodies

/-- The lease of one scope may have changed, and who remembers it; nothing else has. -/
structure LeasesOnly (scopeKey : String) (c c' : Cluster) : Prop where
  tables : ∀ t, t ≠ Table.ownership → c'.db t = c.db t
  evolves : ∀ s, Evolves (leaseAt c.db s) (leaseAt c'.db s)
  others : ∀ s, s ≠ scopeKey → leaseAt c'.db s = leaseAt c.db s
  caches : ∀ n, (c'.nodes n).cache = (c.nodes n).cache
  helds : ∀ n s, s ≠ scopeKey → (c'.nodes n).held s = (c.nodes n).held s

namespace LeasesOnly

variable {c c₁ c₂ : Cluster}

theorem refl (scopeKey : String) (c : Cluster) : LeasesOnly scopeKey c c :=
  ⟨fun _ _ => rfl, fun _ => Evolves.refl _, fun _ _ => rfl, fun _ => rfl, fun _ _ _ => rfl⟩

theorem trans (h : LeasesOnly scopeKey c c₁) (h' : LeasesOnly scopeKey c₁ c₂) :
    LeasesOnly scopeKey c c₂ where
  tables := fun t ht => (h'.tables t ht).trans (h.tables t ht)
  evolves := fun s => (h.evolves s).trans (h'.evolves s)
  others := fun s hs => (h'.others s hs).trans (h.others s hs)
  caches := fun n => (h'.caches n).trans (h.caches n)
  helds := fun n s hs => (h'.helds n s hs).trans (h.helds n s hs)

theorem hold (c : Cluster) (node scopeKey : String) (gen : Option Int) :
    LeasesOnly scopeKey c (c.hold node scopeKey gen) where
  tables := fun _ _ => rfl
  evolves := fun _ => Evolves.refl _
  others := fun _ _ => rfl
  caches := by
    intro n
    by_cases hn : n = node
    · simp [Cluster.hold, hn]
    · simp [Cluster.hold, Function.update_of_ne hn]
  helds := by
    intro n s hs
    by_cases hn : n = node
    · simp [Cluster.hold, hn, Function.update_of_ne hs]
    · simp [Cluster.hold, Function.update_of_ne hn]

/-- A transaction on one scope, whether or not it goes through. -/
theorem withTx {α : Type} {tx : MetaTx α} (hens : Ensures EvolvesLeases [] id tx)
    (havoids : ∀ t, t ≠ Table.ownership → tx.Avoids t) (m : Memory)
    (hothers : ∀ {db' : Db} {a : α}, tx.exec m c.db = .ok (a, db') →
      ∀ s, s ≠ scopeKey → leaseAt db' s = leaseAt c.db s) :
    LeasesOnly scopeKey c (c.withTx m tx).2 := by
  unfold Cluster.withTx
  split
  · rename_i a db' hx
    exact ⟨fun t ht => exec_avoids (havoids t ht) hx, exec_evolves hens hx, hothers hx, fun _ => rfl,
      fun _ _ _ => rfl⟩
  · exact refl scopeKey c

theorem releaseScope (c : Cluster) (node scopeKey : String) :
    LeasesOnly scopeKey c (c.releaseScope node scopeKey) := by
  unfold Cluster.releaseScope
  split
  · exact refl scopeKey c
  · refine trans (withTx (ensures_setExpiryTx _ _ _ _) (fun t ht => setExpiryTx_avoids ht) .idle ?_)
      (hold _ node scopeKey none)
    exact fun hx s hs => setExpiryTx_of_ne hx hs

theorem acquire (c : Cluster) (node : String) (env : Env) (scopeKey : String) :
    LeasesOnly scopeKey c (c.acquire node env scopeKey).2 := by
  have htx : LeasesOnly scopeKey c
      (c.withTx .idle (acquireOrResumeTx scopeKey node env.nowMs env.ttlMs)).2 :=
    withTx (ensures_acquireOrResumeTx _ _ _ _) (fun t ht => acquireOrResumeTx_avoids ht) .idle
      fun hx s hs => acquireOrResumeTx_of_ne hx hs
  unfold Cluster.acquire
  split
  · rename_i heq
    rw [heq] at htx
    exact htx
  · rename_i heq
    rw [heq] at htx
    exact htx
  · rename_i heq
    rw [heq] at htx
    split
    · exact htx.trans (hold _ node scopeKey _)
    · exact htx

/-- `Ensure` changes the lease of its scope at most. -/
theorem ensure (c : Cluster) (node : String) (env : Env) (scopeKey : String) :
    LeasesOnly scopeKey c (c.ensure node env scopeKey).2 := by
  unfold Cluster.ensure
  split
  · exact refl scopeKey c
  · split
    · exact refl scopeKey c
    · exact refl scopeKey c
    · exact (releaseScope c _ scopeKey).trans (acquire _ node env scopeKey)
    · exact acquire c node env scopeKey
    · exact acquire c node env scopeKey

end LeasesOnly

/-- A node that has not remembered the lease is refused while a peer has it and keeps it. -/
theorem ensure_refused {c : Cluster} {env : Env} {o : Ownership}
    (hheld : (c.nodes node).held scopeKey = none) (ho : leaseAt c.db scopeKey = some o)
    (howner : o.ownerNode ≠ node) (hlive : env.nowMs ≤ o.expiresUnixMs)
    (hkeeps : (env.liveness scopeKey).released = false) :
    (∀ gen, (c.ensure node env scopeKey).1 ≠ .ok (some gen)) ∧
      (c.ensure node env scopeKey).2 = c := by
  have hacquire : c.acquire node env scopeKey = (.ok none, c) := by
    rw [Cluster.acquire, Cluster.withTx, acquireOrResumeTx_refused ho howner hlive]
  unfold Cluster.ensure
  rw [hheld, ite_self]
  simp only
  split
  · exact ⟨nofun, rfl⟩
  · exact ⟨nofun, rfl⟩
  · rename_i peer hpeer
    rw [hpeer] at hkeeps
    cases hkeeps
  · rw [hacquire]
    exact ⟨nofun, rfl⟩
  · rw [hacquire]
    exact ⟨nofun, rfl⟩

/-- Everything `acquireScope` can do: the walk fails; or the node memoizes what `scopeOf` says, the
    lease of that scope changes at most, and an answer is for that scope. -/
theorem acquireScope_cases (c : Cluster) (fuel : Nat) (node : String) (env : Env) (inode : Ino) :
    (scopeOf (c.nodes node).cache c.db fuel inode = none ∧
      c.acquireScope fuel node env inode = (.error .eio, c)) ∨
    ∃ scopeKey cache c', scopeOf (c.nodes node).cache c.db fuel inode = some (scopeKey, cache) ∧
      c' = ((c.memoize node cache).ensure node env scopeKey).2 ∧
      LeasesOnly scopeKey (c.memoize node cache) c' ∧
      ((∃ e, c.acquireScope fuel node env inode = (.error e, c')) ∨
        ∃ gen, ((c.memoize node cache).ensure node env scopeKey).1 = .ok (some gen) ∧
          c.acquireScope fuel node env inode = (.ok (scopeKey, gen), c')) := by
  unfold Cluster.acquireScope
  cases hscope : scopeOf (c.nodes node).cache c.db fuel inode with
  | none => exact .inl ⟨rfl, rfl⟩
  | some r =>
    obtain ⟨scopeKey, cache⟩ := r
    refine .inr ⟨scopeKey, cache, _, rfl, rfl, LeasesOnly.ensure _ node env scopeKey, ?_⟩
    simp only
    split
    · rename_i heq
      exact .inl ⟨_, by rw [heq]⟩
    · rename_i heq
      exact .inl ⟨_, by rw [heq]⟩
    · rename_i gen c' heq
      exact .inr ⟨gen, by rw [heq], by rw [heq]⟩

/-! ### Operations -/

/-- The fenced operations. -/
inductive FencedOp where
  | write (now : Time) (r : SliceRef)
  | truncate (now : Time) (inode : Ino) (size : Nat)
  | setAttr (now : Time) (inode : Ino) (set : UInt16) (attr : Attr) (c : Option Context)
  | cloneRange (order : List SliceRef → List SliceRef) (srcIno dstIno : Ino)
      (srcIdx dstIdx nChunks : Nat)
  | clone (order : List SliceRef → List SliceRef) (now : Time) (srcIno dstIno : Ino)
  | create (now : Time) (inode parent : Ino) (name : String) (typ : FileType) (mode rdev : Nat)
      (target : String) (op : ChangeOp) (c : Context)
  | link (now : Time) (inode newParent : Ino) (newName : String)
  | unlink (now : Time) (parent : Ino) (name : String)
  | rmdir (now : Time) (parent : Ino) (name : String)
  | rename (now : Time) (parentSrc : Ino) (nameSrc : String) (parentDst : Ino) (nameDst : String)
      (noReplace reversed : Bool)
  | exchange (now : Time) (parentSrc : Ino) (nameSrc : String) (parentDst : Ino) (nameDst : String)
      (reversed : Bool)

namespace FencedOp

/-- The inodes whose scopes are acquired, in order. -/
def anchors : FencedOp → List Ino
  | .write _ r => [r.inode]
  | .truncate _ inode _ => [inode]
  | .setAttr _ inode .. => [inode]
  | .cloneRange _ _ dstIno .. => [dstIno]
  | .clone _ _ _ dstIno => [dstIno]
  | .create _ _ parent .. => [parent]
  | .link _ _ newParent _ => [newParent]
  | .unlink _ parent _ => [parent]
  | .rmdir _ parent _ => [parent]
  | .rename _ parentSrc _ parentDst .. => [parentSrc, parentDst]
  | .exchange _ parentSrc _ parentDst .. => [parentSrc, parentDst]

/-- The inode whose data or attributes are changed, when it is the one whose scope is acquired. -/
def subject : FencedOp → Option Ino
  | .write _ r => some r.inode
  | .truncate _ inode _ => some inode
  | .setAttr _ inode .. => some inode
  | .cloneRange _ _ dstIno .. => some dstIno
  | .clone _ _ _ dstIno => some dstIno
  | _ => none

/-- The transaction after the fences. -/
def body : FencedOp → MetaTx Unit
  | .write now r => writeTx now r
  | .truncate now inode size => truncateTx now inode size
  | .setAttr now inode set attr c => setAttrTx now inode set attr c
  | .cloneRange order srcIno dstIno srcIdx dstIdx nChunks =>
    cloneRangeTx order srcIno dstIno srcIdx dstIdx nChunks
  | .clone order now srcIno dstIno => cloneTx order now srcIno dstIno
  | .create now inode parent name typ mode rdev target op c => do
    let _ ← createTx now inode parent name typ mode rdev target op c
  | .link now inode newParent newName => do
    let _ ← linkTx now inode newParent newName
  | .unlink now parent name => do
    let _ ← unlinkTx now parent name
  | .rmdir now parent name => rmdirTx now parent name
  | .rename now parentSrc nameSrc parentDst nameDst noReplace reversed => do
    let _ ← renameTx now parentSrc nameSrc parentDst nameDst noReplace reversed
  | .exchange now parentSrc nameSrc parentDst nameDst reversed => do
    let _ ← renameExchangeTx now parentSrc nameSrc parentDst nameDst reversed

/-- A rename or exchange between two scopes flushes the memoized keys of its node. -/
def flushes (op : FencedOp) (scopes : List (String × Int)) : Bool :=
  match op, scopes with
  | .rename .., [src, dst] => src.1 ≠ dst.1
  | .exchange .., [src, dst] => src.1 ≠ dst.1
  | _, _ => false

theorem anchors_of_subject {op : FencedOp} {i : Ino} (h : op.subject = some i) : op.anchors = [i] := by
  cases op <;> cases h <;> rfl

end FencedOp

/-! ### No operation changes a lease -/

section Statements

variable (inode : Ino)

@[simp] theorem getAttr_avoids : (getAttr inode).Avoids .ownership := by simp [getAttr]

@[simp] theorem updateNode_avoids (f : Attr → Attr) : (updateNode inode f).Avoids .ownership := by
  simp [updateNode]

@[simp] theorem appendChangelog_avoids (op : ChangeOp) : (appendChangelog inode op).Avoids .ownership := by
  simp [appendChangelog]

@[simp] theorem changeLinks_avoids (now : Time) (d : Int) :
    (changeLinks now inode d).Avoids .ownership := by simp [changeLinks]

@[simp] theorem deleteNode_avoids : (deleteNode inode).Avoids .ownership := by simp [deleteNode]

@[simp] theorem deleteEntry_avoids (name : String) : (deleteEntry inode name).Avoids .ownership := by
  simp [deleteEntry]

@[simp] theorem lookupEntry_avoids (name : String) : (lookupEntry inode name).Avoids .ownership := by
  simp [lookupEntry]

@[simp] theorem requireEmpty_avoids : (requireEmpty inode).Avoids .ownership := by
  simp [requireEmpty]

theorem truncateTx_avoids (now : Time) (size : Nat) :
    (truncateTx now inode size).Avoids .ownership := by simp [truncateTx]

end Statements

theorem renameTx_avoids (now : Time) (parentSrc : Ino) (nameSrc : String) (parentDst : Ino)
    (nameDst : String) (noReplace reversed : Bool) :
    (renameTx now parentSrc nameSrc parentDst nameDst noReplace reversed).Avoids .ownership := by
  simp only [renameTx, avoids_bind, lookupEntry_avoids, avoids_selectRows, true_and]
  intro src _ found _
  split <;> simp [moveTx, replaceTx, replaceDirTx, replaceFileTx, applyDelta, touchParents]

/-- **No operation changes a lease.** -/
theorem FencedOp.body_avoids (op : FencedOp) : op.body.Avoids .ownership := by
  cases op <;> simp [body, writeTx_avoids, truncateTx_avoids, setAttrTx, cloneRangeTx, cloneTx, createTx,
    linkTx, unlinkTx, releaseInode, deleteInodeRows, rmdirTx, renameTx_avoids, renameExchangeTx, applyDelta,
    touchParents]

/-! ### Changes of data and attributes move no inode -/

section Parents

variable {now : Time}

/-- A change of one node's other attributes keeps all parents. -/
theorem parentAt_setNode {f : Attr → Attr} (hf : ∀ a, (f a).parent = a.parent) (i j : Ino) :
    parentAt (setNode i f db) j = parentAt db j := by
  rw [parentAt, nodeAt_setNode, parentAt]
  split
  · rename_i h
    rw [h, Option.map_map]
    exact congrArg (fun g => Option.map g _) (funext hf)
  · rfl

theorem parentAt_edit_of_ne (ht : Table.node ≠ t) (f : List (Row t) → List (Row t))
    (j : Ino) : parentAt (edit t f db) j = parentAt db j := by
  rw [parentAt, nodeAt_congr j (edit_of_ne ht f db), parentAt]

theorem writeTx_parents {r : SliceRef} (h : (writeTx now r).exec m db = .ok (u, db'))
    (j : Ino) : parentAt db' j = parentAt db j := by
  obtain ⟨cur, -, -, -, rfl⟩ := writeTx_ok h
  split
  · rfl
  · rw [written, parentAt_edit_of_ne (by decide), parentAt_setNode, parentAt_edit_of_ne (by decide)]
    exact fun _ => rfl

theorem truncateTx_parents {size : Nat}
    (h : (truncateTx now inode size).exec m db = .ok (u, db')) (j : Ino) :
    parentAt db' j = parentAt db j := by
  simp only [truncateTx, exec_bind, exec_getAttr] at h
  cases hc : nodeAt db inode with
  | none => simp [hc] at h
  | some cur =>
    simp only [hc, andThen_ok, exec_require, andThen_ite_error, exec_onlyIf] at h
    obtain ⟨-, h⟩ := h
    split at h
    all_goals
      simp only [exec_bind, exec_deleteRows, exec_updateRows, andThen_ok, exec_pure, exec_updateNode,
        exec_appendChangelog, Except.ok.injEq, Prod.mk.injEq, true_and] at h
      subst h
      rw [parentAt_edit_of_ne (by decide), parentAt_setNode]
    · rw [parentAt_edit_of_ne (by decide), parentAt_edit_of_ne (by decide)]
    all_goals exact fun _ => rfl

theorem setAttrTx_parents {set : UInt16} {attr : Attr}
    {c : Option Context} (h : (setAttrTx now inode set attr c).exec m db = .ok (u, db')) (j : Ino) :
    parentAt db' j = parentAt db j := by
  obtain ⟨cur, -, -, rfl⟩ := setAttrTx_ok h
  rw [parentAt_edit_of_ne (by decide), parentAt_setNode]
  exact fun _ => rfl

end Parents

end MemoryLayer.Meta
