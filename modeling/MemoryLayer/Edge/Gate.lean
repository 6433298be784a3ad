import MemoryLayer.Edge.Server
import MemoryLayer.Gateway.Within

namespace MemoryLayer.Edge

open Calls Prog
open Gateway (Instant)
open Local (GoString text)

/-! # The gate of the edge

Nothing that the edge does touches an object, unless the request has presented a capability for it.

- `verifyRequest_of`, `handle_of`, `mint_of`, …: what requests are put together from.
- `verifyRequest_only`, `handle_only`: the calls that requests make.
- `Minted`: claims that the edge has signed.
- `Permits`: a capability has been checked, in the calls that a request has made.
- `object_needs_capability`: a call about an object follows such checks, for this object.
-/

/-! ### The calls of requests -/

section Compositional

variable {Φ : ∀ {α : Type}, EdgeProg α → Prop} (hΦ : Compositional Φ)

include hΦ

theorem orDeny_of {α β : Type} {x : Gateway.GwProg (Except (Gateway.GwError BodyError) α)}
    {f : α → EdgeProg (Except Denial β)} (hx : Φ (viaGateway x)) (hf : ∀ a, Φ (f a)) : Φ (orDeny x f) := by
  refine hΦ.bind hx fun r => ?_
  cases r with
  | error e => exact hΦ.ret _
  | ok a => exact hf a

/-- The checks are put together from calls that are not about objects. -/
theorem verifyRequest_of (cfg : Config) (r : Request) (hnow : Φ (ask .now))
    (hrevoked : ∀ jti, Φ (ask (.isRevoked jti))) (hallow : ∀ key, Φ (ask (.allow key)))
    (hroute : ∀ tenant, Φ (ask (.route tenant))) : Φ (verifyRequest cfg r) := by
  unfold verifyRequest
  split
  · exact hΦ.ret _
  · refine hΦ.bind hnow fun now => ?_
    cases cfg.verifier.verify cfg.wire now r.presented with
    | error e => exact hΦ.ret _
    | ok c =>
      refine hΦ.bind (hrevoked _) fun revoked => ?_
      -- the checks between the calls end the request or do nothing
      repeat' split
      all_goals first
        | exact hΦ.ret _
        | refine hΦ.bind (hallow _) fun allowed => ?_
      split
      · refine hΦ.bind (hroute _) fun routed => ?_
        split <;> exact hΦ.ret _
      · exact hΦ.ret _

/-- The routes are put together from operations of the gateway on one object, and calls on the quota of its
    tenant. -/
theorem handle_of (cfg : Config) (r : Request) (c : Claims)
    (hget : Φ (viaGateway (Gateway.get (ε := BodyError) c.tenant r.ref)))
    (hhead : Φ (viaGateway (Gateway.head (ε := BodyError) c.tenant r.ref)))
    (hput : ∀ contentType body, Φ (viaGateway (Gateway.put (ε := BodyError) cfg.sha256 c.tenant r.ref
      contentType body)))
    (hdelete : Φ (viaGateway (Gateway.delete (ε := BodyError) c.tenant r.ref)))
    (hstage : ∀ opts, Φ (viaGateway (Gateway.mintRefWithOptions (ε := BodyError) c.tenant r.ref opts)))
    (hfinalize : Φ (viaGateway (Gateway.finalize (ε := BodyError) cfg.sha256 c.tenant r.ref)))
    (hauthorize : ∀ n, Φ (ask (.authorize c.tenant n))) (hrecord : ∀ n, Φ (ask (.recordPut c.tenant n)))
    (hforget : ∀ n, Φ (ask (.recordDelete c.tenant n))) : Φ (handle cfg r c) := by
  -- what is stored with another hash is deleted, in two of the routes
  have hchecked : ∀ (info : Gateway.ObjectInfo) (reply : Reply), Φ (if boundTo c info then do
        let _ ← ask (.recordPut c.tenant info.size)
        pure (.ok reply)
      else do
        let _ ← viaGateway (Gateway.delete (ε := BodyError) c.tenant r.ref)
        deny 403 "content hash does not match capability" : EdgeProg (Except Denial Reply)) := by
    intro info reply
    split
    · exact hΦ.bind (hrecord _) fun _ => hΦ.ret _
    · exact hΦ.bind hdelete fun _ => hΦ.ret _
  unfold handle
  cases r.route with
  | get =>
    refine orDeny_of hΦ hget fun got => ?_
    split <;> exact hΦ.ret _
  | head =>
    refine orDeny_of hΦ hhead fun info => ?_
    split <;> exact hΦ.ret _
  | put =>
    dsimp only
    unfold handlePut
    split
    · exact hΦ.ret _
    · split
      · exact hΦ.ret _
      · refine hΦ.bind (hauthorize _) fun admitted => ?_
        split
        · exact orDeny_of hΦ (hput _ _) fun info => hchecked info _
        · exact hΦ.ret _
  | delete =>
    refine hΦ.bind hhead fun found => ?_
    exact orDeny_of hΦ hdelete fun _ => hΦ.bind (hforget _) fun _ => hΦ.ret _
  | stage =>
    dsimp only
    unfold stage
    split
    · exact hΦ.ret _
    · refine hΦ.bind (hauthorize _) fun admitted => ?_
      split
      · exact orDeny_of hΦ (hstage _) fun upload => hΦ.ret _
      · exact hΦ.ret _
  | finalize => exact orDeny_of hΦ hfinalize fun info => hchecked info _

theorem serveRequest_of (cfg : Config) (r : Request) (hverify : Φ (verifyRequest cfg r))
    (hhandle : ∀ c, Φ (handle cfg r c)) : Φ (serveRequest cfg r) := by
  refine hΦ.bind (hΦ.bind hverify fun result => ?_) fun _ => hΦ.ret _
  cases result with
  | ok c => exact hhandle c
  | error d => exact hΦ.ret _

theorem mint_of (cfg : Config) (identity : Option (GoString × GoString)) (body : Option MintRequest)
    (newJTI : GoString) (hallow : ∀ key, Φ (ask (.allow key))) (hnow : Φ (ask .now)) :
    Φ (mint cfg identity body newJTI) := by
  unfold mint
  cases identity with
  | none => exact hΦ.ret _
  | some who =>
    refine hΦ.bind (hallow _) fun allowed => ?_
    split
    · cases body with
      | none => exact hΦ.ret _
      | some req =>
        dsimp only
        split
        · exact hΦ.ret _
        · exact hΦ.ret _
        · exact hΦ.bind hnow fun _ => hΦ.ret _
    · exact hΦ.ret _

theorem revoke_of (identified : Bool) (body : Option (GoString × Int))
    (hrevoke : ∀ jti expiry, Φ (ask (.revoke jti expiry))) : Φ (revoke identified body) := by
  unfold revoke
  split
  · exact hΦ.ret _
  · cases body with
    | none => exact hΦ.ret _
    | some target =>
      dsimp only
      split
      · exact hΦ.ret _
      · exact hΦ.bind (hrevoke _ _) fun _ => hΦ.ret _

end Compositional

/-- The checks make no calls but these. -/
theorem verifyRequest_only {P : Call → Prop} (cfg : Config) (r : Request) (hnow : P .now)
    (hrevoked : ∀ jti, P (.isRevoked jti)) (hallow : ∀ key, P (.allow key))
    (hroute : ∀ tenant, P (.route tenant)) : (verifyRequest cfg r).Only P :=
  verifyRequest_of (compositional_only P) cfg r (only_perform.mpr hnow)
    (fun jti => only_perform.mpr (hrevoked jti)) (fun key => only_perform.mpr (hallow key))
    fun tenant => only_perform.mpr (hroute tenant)

/-- The routes make calls about one object, and on the quota of its tenant. -/
theorem handle_only {P : Call → Prop} (cfg : Config) (r : Request) (c : Claims)
    (hgateway : ∀ call, Gateway.Within c.tenant r.ref call → P (.gateway call))
    (hstage : ∀ opts, (Gateway.mintRefWithOptions (ε := BodyError) c.tenant r.ref opts).Only
      fun call => P (.gateway call))
    (hauthorize : ∀ n, P (.authorize c.tenant n)) (hput : ∀ n, P (.recordPut c.tenant n))
    (hdelete : ∀ n, P (.recordDelete c.tenant n)) : (handle cfg r c).Only P := by
  have hwithin : ∀ {α : Type} {x : Gateway.GwProg α}, x.Only (Gateway.Within c.tenant r.ref) →
      (viaGateway x).Only P := fun hx => (hx.mono hgateway).embed
  exact handle_of (compositional_only P) cfg r c (hwithin (Gateway.get_within ..))
    (hwithin (Gateway.head_within ..)) (fun _ _ => hwithin (Gateway.putWithMeta_within ..))
    (hwithin (Gateway.delete_within ..)) (fun opts => (hstage opts).embed)
    (hwithin (Gateway.finalize_within ..)) (fun n => only_perform.mpr (hauthorize n))
    (fun n => only_perform.mpr (hput n)) fun n => only_perform.mpr (hdelete n)

/-! ### Claims that the edge has signed -/

/-- Some edge has signed the claims. -/
def Minted (c : Claims) : Prop :=
  ∃ cfg identity body newJTI s, ((mint cfg identity body newJTI).exec serve s).1 = .ok c

variable {cfg : Config} {r : Request} {c : Claims} {log more : List (State × Call)}

/-- No token is for a ref without a name, which would stand for a new one. -/
theorem Minted.ref_ne_nil (h : Minted c) : c.ref ≠ [] := by
  obtain ⟨cfg, identity, body, newJTI, s, h⟩ := h
  unfold mint at h
  cases identity with
  | none => cases h
  | some who =>
    dsimp only at h
    rw [exec_bind, exec_perform] at h
    split at h
    · cases body with
      | none => cases h
      | some req =>
        dsimp only at h
        split at h
        · cases h
        · cases h
        · rename_i hrefusal _
          rw [exec_bind, exec_perform, exec_pure] at h
          cases h
          change req.ref ≠ []
          intro href
          unfold MintRequest.refusal at hrefusal
          split at hrefusal
          · cases hrefusal
          · rw [if_pos href] at hrefusal
            cases hrefusal
    · cases h

/-! ### The checks -/

/-- The calls of a request have established that a capability covers it: in one of them the clock was read, and
    the presented token was valid then, and in one of them the denylist did not have it. -/
structure Permits (cfg : Config) (r : Request) (log : List (State × Call)) (c : Claims) : Prop where
  verified : ∃ s, (s, Call.now) ∈ log ∧ cfg.verifier.Accepts cfg.wire s.tick.stores.now r.presented c
  unrevoked : ∃ s, (s, Call.isRevoked c.jti) ∈ log
    ∧ s.tick.revocation.isRevoked s.tick.stores.now c.jti = false
  op : c.op = r.route.op
  ref : c.ref = r.ref
  principal : c.requireAuth = true → ∃ tenant subject, cfg.identify r = some (tenant, subject)
    ∧ matchesPrincipal c tenant subject = true

theorem Permits.mono (h : Permits cfg r log c) : Permits cfg r (log ++ more) c where
  verified := by
    obtain ⟨s, hs, haccepts⟩ := h.verified
    exact ⟨s, List.mem_append_left _ hs, haccepts⟩
  unrevoked := by
    obtain ⟨s, hs, hnot⟩ := h.unrevoked
    exact ⟨s, List.mem_append_left _ hs, hnot⟩
  op := h.op
  ref := h.ref
  principal := h.principal

theorem authBinding_eq_ok {c' : Claims} (h : authBinding cfg r c = .ok c') :
    c' = c ∧ (c.requireAuth = true → ∃ tenant subject, cfg.identify r = some (tenant, subject)
      ∧ matchesPrincipal c tenant subject = true) := by
  unfold authBinding at h
  split at h
  · cases hid : cfg.identify r with
    | none => simp [hid] at h
    | some who =>
      obtain ⟨tenant, subject⟩ := who
      rw [hid] at h
      dsimp only at h
      split at h
      · rename_i hmatch
        cases h
        exact ⟨rfl, fun _ => ⟨tenant, subject, rfl, hmatch⟩⟩
      · cases h
  · rename_i hauth
    cases h
    exact ⟨rfl, fun hrequired => absurd hrequired hauth⟩

/-- A request that passes the checks has a capability. -/
theorem permits_of_verifyRequest
    (h : Reaches serve (verifyRequest cfg r) log (.ret (.ok c))) : Permits cfg r log c := by
  unfold verifyRequest at h
  split at h
  · cases h.of_ret
  obtain ⟨s₁, log₁, hlog, h₁⟩ := h.of_perform
  have hnow : (serve s₁ .now).1 = s₁.tick.stores.now := rfl
  rw [hnow] at h₁
  cases hverify : cfg.verifier.verify cfg.wire s₁.tick.stores.now r.presented with
  | error e =>
    rw [hverify] at h₁
    cases h₁.of_ret
  | ok claims =>
    rw [hverify] at h₁
    obtain ⟨s₂, log₂, hlog₁, h₂⟩ := h₁.of_perform
    -- each check ends the request, or is passed
    split at h₂
    · cases h₂.of_ret
    rename_i hrevoked
    split at h₂
    · cases h₂.of_ret
    rename_i hop
    split at h₂
    · cases h₂.of_ret
    rename_i href
    split at h₂
    · cases h₂.of_ret
    obtain ⟨s₃, log₃, hlog₂, h₃⟩ := h₂.of_perform
    split at h₃
    · obtain ⟨s₄, log₄, hlog₃, h₄⟩ := h₃.of_perform
      split at h₄
      · obtain ⟨rfl, hprincipal⟩ := authBinding_eq_ok h₄.of_ret
        have hnot : (s₂.tick.faulty s₂.tick.revocation.mayFail
            || s₂.tick.revocation.isRevoked s₂.tick.stores.now c.jti) = false :=
          Bool.eq_false_iff.mpr hrevoked
        subst hlog hlog₁
        exact
          { verified := ⟨s₁, List.mem_cons_self .., Verifier.verify_eq_ok_iff.mp hverify⟩
            unrevoked := ⟨s₂, List.mem_cons_of_mem _ (List.mem_cons_self ..), (Bool.or_eq_false_iff.mp hnot).2⟩
            op := not_not.mp hop
            ref := not_not.mp href
            principal := hprincipal }
      · cases h₄.of_ret
    · cases h₃.of_ret

/-- A call that is not about objects. -/
def Call.isGateway : Call → Bool
  | .gateway _ => true
  | _ => false

theorem verifyRequest_isGateway (cfg : Config) (r : Request) :
    (verifyRequest cfg r).Only fun c => c.isGateway = false :=
  verifyRequest_only cfg r rfl (fun _ => rfl) (fun _ => rfl) fun _ => rfl

/-- **The gate.**  Signatures cannot be forged, so that tokens are valid only when the edge has signed them.
    Then a request that is about to call a store of its gateway, whatever other requests do in between, has
    presented a capability for this route, which was valid when the clock was read, and not on the denylist
    when that was read; and a principal that matches it, if it is bound to one.  The call is about no object
    but that of the tenant and the ref which the capability names. -/
theorem object_needs_capability (cfg : Config)
    (hunforgeable : ∀ now token c, cfg.verifier.Accepts cfg.wire now token c → Minted c) (r : Request)
    (log : List (State × Call)) (call : Gateway.Call) (k : Ans (.gateway call) → EdgeProg Reply)
    (hreaches : Reaches serve (serveRequest cfg r) log (.call (.gateway call) k)) :
    ∃ c, Permits cfg r log c ∧ Gateway.Within c.tenant c.ref call := by
  -- the call is one of the two parts of the request
  rcases hreaches.of_bind with ⟨k', hparts⟩ | ⟨_, _, _, _, _, hreply⟩
  · rcases hparts.of_bind with ⟨k'', hverify⟩ | ⟨before, after, result, rfl, hverify, hroute⟩
    · cases (verifyRequest_isGateway cfg r).of_reaches hverify
    · cases result with
      | error d => cases hroute
      | ok c =>
        have hpermits := permits_of_verifyRequest hverify
        obtain ⟨_, _, haccepts⟩ := hpermits.verified
        have href : r.ref ≠ [] := hpermits.ref ▸ (hunforgeable _ _ _ haccepts).ref_ne_nil
        have hwithin : ∀ g, Call.gateway call = .gateway g → Gateway.Within c.tenant r.ref g :=
          (handle_only (P := fun x => ∀ g, x = .gateway g → Gateway.Within c.tenant r.ref g) cfg r c
            (fun g hg g' heq => by cases heq; exact hg)
            (fun opts => (Gateway.mintRefWithOptions_within _ _ href opts).mono
              fun g hg g' heq => by cases heq; exact hg)
            nofun nofun
            nofun).of_reaches hroute
        exact ⟨c, hpermits.mono, hpermits.ref ▸ hwithin call rfl⟩
  · cases hreply

/-! ### An edge for examples -/

/-- An edge that knows a single token. -/
def oneToken (c : Claims) : Config where
  minter := ⟨text "k", text "edge"⟩
  verifier := ⟨fun kid => if kid = text "k" then some (text "pub") else none, text "edge"⟩
  wire := ⟨some, fun payload => if payload = text "grant" then some c else none,
    fun _ _ sig => sig = text "sig"⟩
  identify := headerIdentity
  confidential := false
  maxObjectSize := 0
  allowedContentTypes := []
  defaultTTL := ofUnix 900
  defaultRequireAuth := false
  shareableMaxTTL := ofUnix 300
  authBoundMaxTTL := ofUnix 3600
  sha256 := id

/-- A request that presents the token. -/
def tokenRequest (route : Route) (body : GoString) : Request :=
  ⟨route, text "r", text "grant.sig", [], [], [], [], body, false⟩

/-- What is asked for when the token is minted. -/
def tokenMint (op : Op) (contentHash : GoString) : MintRequest :=
  ⟨op, text "r", 0, [], contentHash, 0, none, []⟩

/-- The claims of the token. -/
def tokenClaims (op : Op) (contentHash : GoString) : Claims :=
  ⟨1, text "k", text "t", text "u", op, text "r", 0, [], contentHash, -30, 300, text "j", text "edge", false, []⟩

/-- Nothing is stored, and nothing will fail. -/
def unused : State :=
  ⟨.empty, ⟨false, 0, 0, fun _ => 0, fun _ => 0⟩, .memory fun _ => none, []⟩

/-- The edge reads no other claims. -/
theorem claims_of_oneToken {c' : Claims} {now : Instant} {token : GoString}
    (h : (oneToken c).verifier.Accepts (oneToken c).wire now token c') : c' = c := by
  obtain ⟨payload, sig, pub, hdecode, -, -⟩ := h.signed
  simp only [Wire.decode, Option.bind_eq_bind, Option.bind_eq_some_iff, Option.pure_def, Option.some.injEq,
    Prod.mk.injEq] at hdecode
  obtain ⟨parts, -, payload', -, sig', -, claims, hclaims, -, -, rfl⟩ := hdecode
  simp only [oneToken, Option.ite_none_right_eq_some, Option.some.injEq] at hclaims
  exact hclaims.2.symm

theorem minted_tokenClaims : Minted (tokenClaims .get []) :=
  ⟨oneToken (tokenClaims .get []), some (text "t", text "u"), some (tokenMint .get []), text "j", unused,
    by decide⟩

theorem object_needs_capability_get :
    ∃ c, Permits (oneToken (tokenClaims .get [])) (tokenRequest .get [])
        [(unused, .now), (unused, .isRevoked (text "j")), (unused, .allow (text "t:u")),
          (unused, .route (text "t"))] c
      ∧ Gateway.Within c.tenant c.ref (.refGet (text "t") (text "r")) :=
  object_needs_capability (oneToken (tokenClaims .get []))
    (fun _ _ _ haccepts => (claims_of_oneToken haccepts).symm ▸ minted_tokenClaims)
    (tokenRequest .get []) _ (.refGet (text "t") (text "r")) _ (.call (.call (.call (.call (.here _)))))

end MemoryLayer.Edge
