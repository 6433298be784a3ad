import MemoryLayer.Edge.Capability
import MemoryLayer.Gateway.Objects

namespace MemoryLayer.Edge

open Calls
open Gateway (Instant Stores)
open Local (GoString text)

/-! # The policy stores of the edge, and its calls

Quotas and revocations, in memory or in PostgreSQL (`edge/policy.go`, `edge/pgpolicy.go`), and the calls
that the edge makes: on these stores, on the rate limiter, on the router of tenants, and through a gateway.

- `Quota`: what a tenant may store, and what is recorded of it.
- `Revocation`: the denylist.
- `Call`, `Ans`, `State`, `serve`: the calls, and what they do.
-/

/-! ### Quotas -/

/-- The limits, and the bytes and objects recorded for each tenant.  Both stores keep the same; only calls
    on PostgreSQL can fail. -/
structure Quota where
  pg : Bool
  maxBytes : Int
  maxObjects : Int
  bytes : GoString → Int
  count : GoString → Int

namespace Quota

/-- Admission asks the database only when there is a limit. -/
def asks (q : Quota) : Bool := q.pg && (0 < q.maxBytes || 0 < q.maxObjects)

/-- One more object of up to `addBytes` is within the limits. -/
def authorize (q : Quota) (tenant : GoString) (addBytes : Int) : Bool :=
  !(0 < q.maxObjects && q.maxObjects < q.count tenant + 1)
    && !(0 < q.maxBytes && q.maxBytes < q.bytes tenant + addBytes)

def recordPut (q : Quota) (tenant : GoString) (bytes : Int) : Quota :=
  { q with
    bytes := Function.update q.bytes tenant (q.bytes tenant + bytes)
    count := Function.update q.count tenant (q.count tenant + 1) }

/-- Neither number becomes negative. -/
def recordDelete (q : Quota) (tenant : GoString) (bytes : Int) : Quota :=
  { q with
    bytes := Function.update q.bytes tenant (max (q.bytes tenant - bytes) 0)
    count := Function.update q.count tenant (max (q.count tenant - 1) 0) }

end Quota

/-! ### Revocations -/

/-- The denylist: in memory an entry may have no end, and in PostgreSQL one without an end lasts for the
    retention window. -/
inductive Revocation where
  | memory (set : GoString → Option (Option Instant))
  | pg (retention : Int) (rows : GoString → Option Instant)

namespace Revocation

/-- Only calls on PostgreSQL can fail. -/
def mayFail : Revocation → Bool
  | .memory _ => false
  | .pg .. => true

def isRevoked (now : Instant) (jti : GoString) : Revocation → Bool
  | .memory set =>
    match set jti with
    | none => false
    | some none => true
    | some (some expiry) => now < expiry
  | .pg _ rows =>
    match rows jti with
    | none => false
    | some expiry => now < expiry

/-- A later revocation replaces an earlier one. -/
def revoke (now : Instant) (jti : GoString) (expiry : Option Instant) : Revocation → Revocation
  | .memory set => .memory (Function.update set jti (some expiry))
  | .pg retention rows => .pg retention (Function.update rows jti (some (expiry.getD (now + retention))))

/-- Only PostgreSQL has entries to remove. -/
def prune (now : Instant) : Revocation → Revocation
  | .memory set => .memory set
  | .pg retention rows => .pg retention fun jti => (rows jti).filter fun expiry => now < expiry

end Revocation

/-! ### Calls -/

/-- The calls of the edge. -/
inductive Call where
  | now
  | isRevoked (jti : GoString)
  | revoke (jti : GoString) (expiry : Option Instant)
  | allow (key : GoString)
  | route (tenant : GoString)
  | authorize (tenant : GoString) (addBytes : Int)
  | recordPut (tenant : GoString) (bytes : Int)
  | recordDelete (tenant : GoString) (bytes : Int)
  | gateway (c : Gateway.Call)
  deriving DecidableEq, Repr

/-- What they are answered; what a store has recorded or not, nobody is told. -/
@[reducible] def Ans : Call → Type
  | .now => Instant
  | .isRevoked _ | .allow _ | .route _ | .authorize .. => Bool
  | .revoke .. | .recordPut .. | .recordDelete .. => Unit
  | .gateway c => Gateway.Ans c

/-- Programs of the edge. -/
abbrev EdgeProg := Prog Ans

/-- A single call. -/
abbrev ask (c : Call) : EdgeProg (Ans c) := Prog.perform c

/-- What the gateway of a tenant does. -/
def viaGateway {α : Type} (x : Gateway.GwProg α) : EdgeProg α := x.embed Call.gateway fun _ a => a

/-- The stores behind the gateways, and the policy stores.  `faults` says which of the next calls on
    policy stores fail, and which of those on the rate limiter and on the router are refused. -/
structure State where
  stores : Stores
  quota : Quota
  revocation : Revocation
  faults : List Bool

namespace State

/-- Time passes. -/
def tick (s : State) : State := { s with stores := s.stores.tick }

/-- Whether the next call fails, if it can. -/
def faulty (s : State) (mayFail : Bool) : Bool := mayFail && s.faults.headD false

/-- The next call has failed or not. -/
def settle (s : State) (mayFail : Bool) : State :=
  { s with faults := if mayFail then s.faults.tail else s.faults }

end State

/-- The edge's surroundings serve a call.  When the store of revocations fails, a token counts as revoked; when
    the store of quotas fails, nothing more is admitted. -/
def serve (s : State) (c : Call) : Ans c × State :=
  match c with
  | .gateway c => ((Gateway.serve s.stores c).1, { s with stores := (Gateway.serve s.stores c).2 })
  | .now =>
    let s := s.tick
    (s.stores.now, s)
  | .isRevoked jti =>
    let s := s.tick
    (s.faulty s.revocation.mayFail || s.revocation.isRevoked s.stores.now jti, s.settle s.revocation.mayFail)
  | .revoke jti expiry =>
    let s := s.tick
    ((), { s.settle s.revocation.mayFail with
      revocation :=
        if s.faulty s.revocation.mayFail then s.revocation
        else s.revocation.revoke s.stores.now jti expiry })
  | .allow _ =>
    let s := s.tick
    (!s.faulty true, s.settle true)
  | .route tenant =>
    let s := s.tick
    (tenant ≠ [] && !s.faulty true, s.settle true)
  | .authorize tenant addBytes =>
    let s := s.tick
    (!s.faulty s.quota.asks && s.quota.authorize tenant addBytes, s.settle s.quota.asks)
  | .recordPut tenant bytes =>
    let s := s.tick
    ((), { s.settle s.quota.pg with
      quota := if s.faulty s.quota.pg then s.quota else s.quota.recordPut tenant bytes })
  | .recordDelete tenant bytes =>
    let s := s.tick
    ((), { s.settle s.quota.pg with
      quota := if s.faulty s.quota.pg then s.quota else s.quota.recordDelete tenant bytes })

end MemoryLayer.Edge
