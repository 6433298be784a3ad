import MemoryLayer.Edge.Policy

namespace MemoryLayer.Edge

open Calls Prog
open Gateway (Instant ObjectInfo StagedUpload GwError)
open Local (GoString text)

/-! # The edge server

The routes of `edge/edge.go` that need a capability, and those that mint and revoke capabilities.

- `Config`, `Request`, `Reply`: how a server is set up, what it is asked, and what it answers.
- `verifyRequest`: the checks that all routes share.
- `handleGet`, `handleHead`, `handlePut`, `handleDelete`, `stage`, `finalize`: the routes.
- `serveRequest`, `mint`, `revoke`: requests.
- `Event`, `step`: requests one after another, with what happens around them.
-/

/-- The routes that need a capability. -/
inductive Route where
  | get
  | head
  | put
  | delete
  | stage
  | finalize
  deriving DecidableEq, Repr

/-- The operation that a route requires: on the data path it is the method. -/
def Route.op : Route → Op
  | .get => .get
  | .head => .head
  | .put => .put
  | .delete => .delete
  | .stage => .stage
  | .finalize => .finalize

/-- A request: the ref in its path, the capability in its query or its header, the identity that the proxy
    asserts, and the body; `broken` says that the body ends in an error. -/
structure Request where
  route : Route
  ref : GoString
  cap : GoString
  authorization : GoString
  tenantHeader : GoString
  subjectHeader : GoString
  contentType : GoString
  body : GoString
  broken : Bool
  deriving DecidableEq, Repr

/-- A refusal. -/
structure Denial where
  status : Nat
  reason : String
  deriving DecidableEq, Repr

/-- What a request is answered. -/
inductive Reply where
  | denied (d : Denial)
  | object (info : ObjectInfo) (content : GoString)
  | info (info : ObjectInfo)
  | created (info : ObjectInfo)
  | staged (upload : StagedUpload)
  | noContent
  deriving DecidableEq, Repr

/-- How a server is set up: who mints and who verifies tokens and how they are read, who asserts identities,
    whether existence is kept secret, the limits on uploads, and how long tokens last (in nanoseconds). -/
structure Config where
  minter : Minter
  verifier : Verifier
  wire : Wire
  identify : Request → Option (GoString × GoString)
  confidential : Bool
  maxObjectSize : Int
  allowedContentTypes : List GoString
  defaultTTL : Int
  defaultRequireAuth : Bool
  shareableMaxTTL : Int
  authBoundMaxTTL : Int
  sha256 : GoString → GoString

/-- The identity in the headers that the proxy sets. -/
def headerIdentity (r : Request) : Option (GoString × GoString) :=
  if r.tenantHeader = [] ∨ r.subjectHeader = [] then none else some (r.tenantHeader, r.subjectHeader)

/-- A refusal, of one part of a request. -/
def deny {α : Type} (status : Nat) (reason : String) : EdgeProg (Except Denial α) :=
  pure (.error ⟨status, reason⟩)

/-! ### The checks that all routes share -/

/-- The token of a request: in its query, or else in its header. -/
def Request.presented (r : Request) : GoString :=
  if r.cap ≠ [] then r.cap
  else if (text "Bearer ").isPrefixOf r.authorization then r.authorization.drop 7
  else []

/-- The live principal is the one that a capability is bound to. -/
def matchesPrincipal (c : Claims) (tenant subject : GoString) : Bool :=
  if c.matchMode = [] ∨ c.matchMode = text "exact" then tenant = c.tenant && subject = c.subject
  else if c.matchMode = text "same-tenant" then tenant = c.tenant
  else false

variable (cfg : Config)

/-- The check of the live principal. -/
def authBinding (r : Request) (c : Claims) : Except Denial Claims :=
  if c.requireAuth then
    match cfg.identify r with
    | none => .error ⟨403, "capability requires authenticated principal"⟩
    | some (tenant, subject) =>
      if matchesPrincipal c tenant subject then .ok c else .error ⟨403, "capability principal mismatch"⟩
  else .ok c

/-- The gate of every route that needs a capability. -/
def verifyRequest (r : Request) : EdgeProg (Except Denial Claims) :=
  if r.presented = [] then deny 401 "missing capability"
  else do
    let now ← ask .now
    match cfg.verifier.verify cfg.wire now r.presented with
    | .error _ => deny 401 "invalid capability"
    | .ok c =>
      if ← ask (.isRevoked c.jti) then deny 403 "capability revoked"
      else if c.op ≠ r.route.op then deny 403 "operation not permitted by capability"
      else if c.ref ≠ r.ref then deny 403 "ref not permitted by capability"
      else if r.route.op = .head ∧ cfg.confidential then deny 404 "not found"
      else if ← ask (.allow (c.tenant ++ text ":" ++ c.subject)) then
        if ← ask (.route c.tenant) then pure (authBinding cfg r c)
        else deny 500 "tenant routing failed"
      else deny 429 "rate limited"

/-! ### The routes -/

/-- Why reading the body of an upload fails. -/
inductive BodyError where
  | tooLarge
  | broken
  deriving DecidableEq, Repr

/-- The refusal for an error of the gateway. -/
def gatewayDenial : GwError BodyError → Denial
  | .notFound => ⟨404, "not found"⟩
  | .invalidRef => ⟨400, "invalid ref"⟩
  | .notStaged => ⟨409, "no pending staged upload"⟩
  | .integrity => ⟨409, "staged content failed integrity check"⟩
  | .body .tooLarge => ⟨413, "object exceeds size limit"⟩
  | .internal | .body .broken => ⟨500, "internal error"⟩

/-- An operation of the gateway; an error is the end of the request. -/
def orDeny {α β : Type} (x : Gateway.GwProg (Except (GwError BodyError) α))
    (f : α → EdgeProg (Except Denial β)) : EdgeProg (Except Denial β) := do
  match ← viaGateway x with
  | .error e => pure (.error (gatewayDenial e))
  | .ok a => f a

/-- The capability is not bound to other content. -/
def boundTo (c : Claims) (info : ObjectInfo) : Bool := c.contentHash = [] || info.contentHash = c.contentHash

def handleGet (c : Claims) (ref : GoString) : EdgeProg (Except Denial Reply) :=
  orDeny (Gateway.get c.tenant ref) fun got =>
    if boundTo c got.2 then pure (.ok (.object got.2 got.1)) else deny 412 "content changed"

def handleHead (c : Claims) (ref : GoString) : EdgeProg (Except Denial Reply) :=
  orDeny (Gateway.head c.tenant ref) fun info =>
    if boundTo c info then pure (.ok (.info info)) else deny 412 "content changed"

/-- The tighter one of the limits of the capability and of the edge. -/
def ceiling (c : Claims) : Int :=
  if 0 < cfg.maxObjectSize ∧ (c.maxSize = 0 ∨ cfg.maxObjectSize < c.maxSize) then cfg.maxObjectSize
  else c.maxSize

def contentTypeAllowed (contentType : GoString) : Bool :=
  cfg.allowedContentTypes.isEmpty || cfg.allowedContentTypes.contains contentType

/-- The body as it is read below a limit; there is none when the limit is not positive. -/
def limitedBody (limit : Int) (r : Request) : Except BodyError GoString :=
  if 0 < limit ∧ limit < r.body.length then .error .tooLarge
  else if r.broken then .error .broken
  else .ok r.body

/-- The content type of an upload. -/
def uploadType (r : Request) : GoString :=
  if r.contentType = [] then text "application/octet-stream" else r.contentType

/-- Admission, the upload, the check of its hash, and the record of it.  An upload with another hash than
    that of the capability is deleted again. -/
def handlePut (c : Claims) (r : Request) : EdgeProg (Except Denial Reply) :=
  if c.contentType ≠ [] ∧ uploadType r ≠ c.contentType then
    deny 403 "content type does not match capability"
  else if !contentTypeAllowed cfg (uploadType r) then deny 403 "content type not allowed"
  else do
    if ← ask (.authorize c.tenant (ceiling cfg c)) then
      orDeny (Gateway.put cfg.sha256 c.tenant r.ref (uploadType r) (limitedBody (ceiling cfg c) r)) fun info =>
        if boundTo c info then do
          let _ ← ask (.recordPut c.tenant info.size)
          pure (.ok (.created info))
        else do
          let _ ← viaGateway (Gateway.delete (ε := BodyError) c.tenant r.ref)
          deny 403 "content hash does not match capability"
    else deny 507 "quota exceeded"

/-- The size is looked up first, for the record. -/
def handleDelete (c : Claims) (ref : GoString) : EdgeProg (Except Denial Reply) := do
  let found ← viaGateway (Gateway.head (ε := BodyError) c.tenant ref)
  orDeny (Gateway.delete c.tenant ref) fun _ => do
    let _ ← ask (.recordDelete c.tenant (match found with | .ok info => info.size | .error _ => 0))
    pure (.ok .noContent)

/-- Admission, and the begin of an upload that bypasses the edge. -/
def stage (c : Claims) (ref : GoString) : EdgeProg (Except Denial Reply) :=
  if c.contentType ≠ [] ∧ !contentTypeAllowed cfg c.contentType then deny 403 "content type not allowed"
  else do
    if ← ask (.authorize c.tenant (ceiling cfg c)) then
      orDeny (Gateway.mintRefWithOptions c.tenant ref ⟨c.contentType, [], c.contentHash, 0⟩) fun upload =>
        pure (.ok (.staged upload))
    else deny 507 "quota exceeded"

/-- The end of such an upload, the check of its hash, and the record of it. -/
def finalize (c : Claims) (ref : GoString) : EdgeProg (Except Denial Reply) :=
  orDeny (Gateway.finalize cfg.sha256 c.tenant ref) fun info =>
    if boundTo c info then do
      let _ ← ask (.recordPut c.tenant info.size)
      pure (.ok (.info info))
    else do
      let _ ← viaGateway (Gateway.delete (ε := BodyError) c.tenant ref)
      deny 403 "content hash does not match capability"

/-- What a route does with a capability. -/
def handle (r : Request) (c : Claims) : EdgeProg (Except Denial Reply) :=
  match r.route with
  | .get => handleGet c r.ref
  | .head => handleHead c r.ref
  | .put => handlePut cfg c r
  | .delete => handleDelete c r.ref
  | .stage => stage cfg c r.ref
  | .finalize => finalize cfg c r.ref

/-- The reply for a part that may be a refusal. -/
def Reply.ofExcept : Except Denial Reply → Reply
  | .ok reply => reply
  | .error d => .denied d

/-- A request on a route that needs a capability. -/
def serveRequest (r : Request) : EdgeProg Reply :=
  Reply.ofExcept <$> (verifyRequest cfg r).orFail (handle cfg r)

/-! ### Minting and revocation -/

/-- A request for a capability, as it is decoded. -/
structure MintRequest where
  op : Op
  ref : GoString
  maxSize : Int
  contentType : GoString
  contentHash : GoString
  ttlSeconds : Int
  requireAuth : Option Bool
  matchMode : GoString
  deriving DecidableEq, Repr

/-- The binding to a principal that a request asks for. -/
def MintRequest.binding (req : MintRequest) : Except Denial (Bool × GoString) :=
  if req.requireAuth.getD cfg.defaultRequireAuth then
    if req.matchMode = [] ∨ req.matchMode = text "exact" then .ok (true, text "exact")
    else if req.matchMode = text "same-tenant" then .ok (true, text "same-tenant")
    else if req.matchMode = text "group" then .error ⟨400, "match_mode 'group' not yet supported"⟩
    else .error ⟨400, "invalid match_mode"⟩
  else .ok (false, [])

/-- How long a new token lasts; tokens without a binding last less long.  The product is one of 64 bits. -/
def MintRequest.ttl (req : MintRequest) (requireAuth : Bool) : Int :=
  let ttl := if 0 < req.ttlSeconds then Int.bmod (req.ttlSeconds * 1000000000) (2 ^ 64) else cfg.defaultTTL
  let limit := if requireAuth then cfg.authBoundMaxTTL else cfg.shareableMaxTTL
  if 0 < limit ∧ limit < ttl then limit else ttl

/-- What is wrong with the operation or the limits of a request for a capability. -/
def MintRequest.refusal (req : MintRequest) : Option Denial :=
  match req.op with
  | .other _ => some ⟨400, "invalid op"⟩
  | op =>
    if req.ref = [] then some ⟨400, "ref required"⟩
    else if op = .head ∧ cfg.confidential then
      some ⟨403, "existence checks disabled (confidential tenant)"⟩
    else if op = .put ∨ op = .stage then
      if req.contentType ≠ [] ∧ !contentTypeAllowed cfg req.contentType then
        some ⟨403, "content type not allowed"⟩
      else if 0 < cfg.maxObjectSize ∧ cfg.maxObjectSize < req.maxSize then
        some ⟨403, "max_size exceeds edge limit"⟩
      else none
    else none

/-- The claims of the token that the edge signs for an identity. -/
def mint (identity : Option (GoString × GoString)) (body : Option MintRequest)
    (newJTI : GoString) : EdgeProg (Except Denial Claims) :=
  match identity with
  | none => deny 401 "unauthenticated"
  | some (tenant, subject) => do
    if ← ask (.allow tenant) then
      match body with
      | none => deny 400 "invalid JSON body"
      | some req =>
        match req.refusal cfg, req.binding cfg with
        | some d, _ => pure (.error d)
        | none, .error d => pure (.error d)
        | none, .ok (requireAuth, matchMode) => do
          let now ← ask .now
          let c : Claims :=
            { ver := 0, keyID := [], tenant, subject, op := req.op, ref := req.ref, maxSize := req.maxSize,
              contentType := req.contentType, contentHash := req.contentHash, notBefore := 0, expiry := 0,
              jti := [], audience := [], requireAuth, matchMode }
          pure (.ok (cfg.minter.mint now newJTI c (req.ttl cfg requireAuth)))
    else deny 429 "rate limited"

/-- The end that an entry of the denylist is given, from seconds; what is not positive is none. -/
def revocationEnd (expiresAt : Int) : Option Instant :=
  if 0 < expiresAt then some (timeUnix expiresAt) else none

/-- Revoke a token, by its identifier and its expiry.  The reply does not depend on what the store has
    done. -/
def revoke (identified : Bool) (body : Option (GoString × Int)) : EdgeProg Reply :=
  if !identified then pure (.denied ⟨401, "unauthenticated"⟩)
  else
    match body with
    | none => pure (.denied ⟨400, "jti required"⟩)
    | some (jti, expiresAt) =>
      if jti = [] then pure (.denied ⟨400, "jti required"⟩)
      else do
        let _ ← ask (.revoke jti (revocationEnd expiresAt))
        pure .noContent

/-! ### Runs -/

/-- The maintenance of the denylist. -/
def State.prune (s : State) : State :=
  let s := s.tick
  { s.settle s.revocation.mayFail with
    revocation :=
      if s.faulty s.revocation.mayFail then s.revocation else s.revocation.prune s.stores.now }

/-- What can happen: requests, bytes that are put in the staging area, maintenance of the denylist, and a
    change of what will fail and of how fast time passes. -/
inductive Event where
  | request (r : Request)
  | mint (identity : Option (GoString × GoString)) (body : Option MintRequest) (newJTI : GoString)
  | revoke (identified : Bool) (body : Option (GoString × Int))
  | upload (stagingKey content : GoString)
  | prune
  | weather (storeFaults faults : List Bool) (ticks : List Nat)
  deriving DecidableEq, Repr

/-- One event. -/
def step (s : State) : Event → State
  | .request r => ((serveRequest cfg r).exec serve s).2
  | .mint identity body newJTI => ((mint cfg identity body newJTI).exec serve s).2
  | .revoke identified body => ((revoke identified body).exec serve s).2
  | .upload stagingKey content => { s with stores := s.stores.setStaged stagingKey (some content) }
  | .prune => s.prune
  | .weather storeFaults faults ticks =>
    { s with stores := { s.stores with faults := storeFaults, ticks }, faults }

end MemoryLayer.Edge
