import MemoryLayer.Snapshot.Dedup

namespace MemoryLayer.Controlplane

open Snapshot

/-! # The control plane

The requests that nodes send about the dedup index (`controlplane/index.go`, `controlplane/assoc.go`).  The
tenant is in the subject of a message, and the domain is in its payload.

- `tenantFromSubject`: the tenant of a message.
- `Codec`: how payloads are read.
- `handleLookup`, `handleRecord`, `handlePurge`, `handleAssociate`: the handlers, on any store of the index.
- `Rpc`, `request`: the call on the index that a message leads to.
- `remote_of_request`: the calls that messages can lead to.
-/

/-! ### Subjects -/

/-- A tenant may be a part of a subject. -/
def validateTenant (tenant : String) : Bool :=
  tenant ≠ "" && tenant.toList.all fun c => c ≠ '.' && c ≠ ' ' && c ≠ '*' && c ≠ '>'

/-- The tenant in a subject, which is given by its parts between dots. -/
def tenantFromSubject : List String → Option String
  | "blobgw" :: tenant :: _ :: _ => if validateTenant tenant then some tenant else none
  | _ => none

/-! ### Payloads -/

structure LookupBatchRequest where
  domain : String
  chunkHashes : List String
  deriving DecidableEq, Repr

structure RecordRequest where
  domain : String
  locations : List ChunkLocation
  deriving DecidableEq, Repr

structure PurgePacksRequest where
  domain : String
  packHashes : List String
  deriving DecidableEq, Repr

structure AssociateRequest where
  domain : String
  associations : List PackAssociation
  deriving DecidableEq, Repr

/-- How payloads are read; an error is a text. -/
structure Codec (D : Type) where
  lookup : D → Except String LookupBatchRequest
  record : D → Except String RecordRequest
  purge : D → Except String PurgePacksRequest
  associate : D → Except String AssociateRequest

/-- A message: its subject in parts, and its payload. -/
structure Msg (D : Type) where
  subject : List String
  data : D

/-- The replies; `refused` says that a pack is being reclaimed. -/
inductive Response where
  | locations (found : String → Option PackRef)
  | done
  | refused (error : String)
  | failed (error : String)

/-- The most hashes or locations in one request. -/
def maxChunkHashesPerBatch : Nat := 4000

def oversizeErr (what : String) (n limit : Nat) : String :=
  what ++ " batch too large: " ++ toString n ++ " > " ++ toString limit ++ " (split across requests)"

/-! ### Handlers -/

section Handlers

variable {D I R : Type}

/-- What a store answers, as a reply. -/
def respond : IndexAnswer → Response
  | .refs found => .locations found
  | .refused => .refused "snapshot: pack is being reclaimed"
  | _ => .done

/-- The checks that the handlers share.  The subject has to name a tenant, or there is no reply; the payload has
    to be read, and to name a domain.  The domain is not compared with the tenant. -/
def checked (decode : D → Except String R) (what : String) (domain : R → String)
    (toCall : R → Except String IndexCall) (msg : Msg D) : Except (Option Response) IndexCall :=
  match tenantFromSubject msg.subject with
  | none => .error none
  | some _ =>
    match decode msg.data with
    | .error e => .error (some (.failed ("decode " ++ what ++ " request: " ++ e)))
    | .ok req =>
      if domain req = "" then .error (some (.failed "empty domain"))
      else (toCall req).mapError fun e => some (.failed e)

/-- Refuse a batch that is too large. -/
def limited (what : String) (n : Nat) (c : IndexCall) : Except String IndexCall :=
  if maxChunkHashesPerBatch < n then .error (oversizeErr what n maxChunkHashesPerBatch) else .ok c

/-- The subjects that are about the index. -/
inductive Rpc where
  | lookup
  | record
  | purge
  | associate
  deriving DecidableEq, Repr

/-- The call on the store that a message leads to, or the reply when it leads to none.  Purges and
    associations may be of any size. -/
def request (codec : Codec D) : Rpc → Msg D → Except (Option Response) IndexCall
  | .lookup => checked codec.lookup "lookup" LookupBatchRequest.domain fun req =>
    limited "chunk hashes" req.chunkHashes.length (.lookupBatch req.domain req.chunkHashes)
  | .record => checked codec.record "record" RecordRequest.domain fun req =>
    limited "chunk locations" req.locations.length (.record req.domain req.locations)
  | .purge => checked codec.purge "purge" PurgePacksRequest.domain fun req =>
    .ok (.purgePacks req.domain req.packHashes)
  | .associate => checked codec.associate "associate" AssociateRequest.domain fun req =>
    .ok (.associate req.domain req.associations)

variable (codec : Codec D) (call : I → IndexCall → IndexAnswer × I)

/-- A message on one of the subjects. -/
def handle (rpc : Rpc) (msg : Msg D) (i : I) : Option Response × I :=
  match request codec rpc msg with
  | .error reply => (reply, i)
  | .ok c => (some (respond (call i c).1), (call i c).2)

def handleLookup : Msg D → I → Option Response × I := handle codec call .lookup

def handleRecord : Msg D → I → Option Response × I := handle codec call .record

def handlePurge : Msg D → I → Option Response × I := handle codec call .purge

def handleAssociate : Msg D → I → Option Response × I := handle codec call .associate

end Handlers

/-! ### The calls that messages lead to -/

/-- The domain of a call. -/
def callDomain : IndexCall → String
  | .lookup domain _ | .lookupBatch domain _ | .record domain _ | .purgePacks domain _ | .associate domain _
  | .dropContext domain _ | .hasAssociations domain _ | .walkLivePacks domain | .markObliterating domain _
  | .releaseMark domain _ | .commitObliterated domain _ | .markBackfilled domain | .isBackfilled domain
  | .recordPackSizes domain _ => domain

/-- The calls that nodes can cause. -/
inductive Remote : IndexCall → Prop where
  | lookupBatch (domain : String) (chunkHashes : List String) : Remote (.lookupBatch domain chunkHashes)
  | record (domain : String) (locs : List ChunkLocation) : Remote (.record domain locs)
  | purgePacks (domain : String) (packHashes : List String) : Remote (.purgePacks domain packHashes)
  | associate (domain : String) (assocs : List PackAssociation) : Remote (.associate domain assocs)

theorem checked_eq_ok {D R : Type} {decode : D → Except String R} {what : String} {domain : R → String}
    {toCall : R → Except String IndexCall} {msg : Msg D} {c : IndexCall}
    (h : checked decode what domain toCall msg = .ok c) : ∃ req, toCall req = .ok c := by
  unfold checked at h
  cases htenant : tenantFromSubject msg.subject with
  | none => simp [htenant] at h
  | some tenant =>
    rw [htenant] at h
    dsimp only at h
    cases hdecode : decode msg.data with
    | error e => simp [hdecode] at h
    | ok req =>
      rw [hdecode] at h
      dsimp only at h
      split at h
      · cases h
      · refine ⟨req, ?_⟩
        cases hcall : toCall req with
        | error e => simp [hcall, Except.mapError] at h
        | ok c' => simpa [hcall, Except.mapError] using h

theorem limited_eq_ok {what : String} {n : Nat} {c c' : IndexCall} (h : limited what n c = .ok c') :
    c = c' := by
  unfold limited at h
  split at h
  · cases h
  · exact Except.ok.inj h

/-- A message leads to no other calls. -/
theorem remote_of_request {D : Type} {codec : Codec D} {rpc : Rpc} {msg : Msg D} {c : IndexCall}
    (h : request codec rpc msg = .ok c) : Remote c := by
  cases rpc with
  | lookup =>
    obtain ⟨req, hreq⟩ := checked_eq_ok h
    exact limited_eq_ok hreq ▸ .lookupBatch ..
  | record =>
    obtain ⟨req, hreq⟩ := checked_eq_ok h
    exact limited_eq_ok hreq ▸ .record ..
  | purge =>
    obtain ⟨req, hreq⟩ := checked_eq_ok h
    exact Except.ok.inj hreq ▸ .purgePacks ..
  | associate =>
    obtain ⟨req, hreq⟩ := checked_eq_ok h
    exact Except.ok.inj hreq ▸ .associate ..

end MemoryLayer.Controlplane
