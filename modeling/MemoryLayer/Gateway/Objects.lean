import MemoryLayer.Gateway.Stores
import MemoryLayer.Lib.Decimal

namespace MemoryLayer.Gateway

open Calls Prog
open Local (GoString text)

/-! # The gateway

The operations of `gateway/gateway.go` as programs on the stores.

- `GwError`: the errors, with those of a body that is being read.
- `putWithMeta`, `setUserMeta`, `get`, `head`, `delete`: objects.
- `mintRefWithOptions`, `finalize`: uploads that are staged first.
-/

/-- The errors of a gateway; the last one is an error in reading the body. -/
inductive GwError (ε : Type) where
  | notFound
  | invalidRef
  | notStaged
  | integrity
  | internal
  | body (e : ε)
  deriving DecidableEq, Repr

variable {ε : Type}

/-! ### Metadata -/

/-- What the keys of user metadata begin with among the tags. -/
def metaTagPrefix : GoString := text "u."

def encodeUserTags (userMeta : Tags) : Tags := userMeta.map fun kv => (metaTagPrefix ++ kv.1, kv.2)

def decodeUserTags (tags : Tags) : Tags :=
  tags.filterMap fun kv =>
    if metaTagPrefix.isPrefixOf kv.1 then some (kv.1.drop metaTagPrefix.length, kv.2) else none

/-- Lay tags over others; one without a value deletes. -/
def overlayTags (tags overlay : Tags) : Tags :=
  (tags.filter fun kv => !(overlay.map Prod.fst).contains kv.1) ++ overlay.filter fun kv => kv.2 ≠ []

/-! ### Objects -/

section Objects

variable (sha256 : GoString → GoString)

/-- Store a body under a ref, with metadata.  A body that cannot be read leaves no version. -/
def putWithMeta (domain ref contentType : GoString) (userMeta : Tags) (body : Except ε GoString) :
    GwProg (Except (GwError ε) ObjectInfo) :=
  if ref = [] then pure (.error .invalidRef)
  else
    match body with
    | .error e => pure (.error (.body e))
    | .ok content => do
      match ← ask (.snapPut domain ref contentType (encodeUserTags userMeta) content) with
      | none => pure (.error .internal)
      | some version => do
        let now ← ask .clock
        let info : ObjectInfo :=
          { ref, domain, contentHash := sha256 content, size := content.length, contentType,
            createdAt := now, version, userMeta, pending := false, stagingKey := [], expectedHash := [],
            expectedSize := 0 }
        if ← ask (.refPut info) then pure (.ok info) else pure (.error .internal)

def put (domain ref contentType : GoString) (body : Except ε GoString) :
    GwProg (Except (GwError ε) ObjectInfo) :=
  putWithMeta sha256 domain ref contentType [] body

end Objects

/-- Write the newest version again, with other tags. -/
def updateLatestMeta (domain ref : GoString) (overlay : Tags) : GwProg (Except (GwError ε) Nat) := do
  match ← ask (.snapLatest domain ref) with
  | .failed => pure (.error .internal)
  | .absent => pure (.error .notFound)
  | .found snap => do
    match ← ask (.snapPut domain ref snap.format (overlayTags snap.tags overlay) snap.content) with
    | none => pure (.error .internal)
    | some version => pure (.ok version)

/-- The row of an object; what is only staged is none. -/
def finalRow (domain ref : GoString) : GwProg (Except (GwError ε) ObjectInfo) := do
  match ← ask (.refGet domain ref) with
  | .failed => pure (.error .internal)
  | .absent => pure (.error .notFound)
  | .found info => pure (if info.pending then .error .notFound else .ok info)

/-- Replace the metadata of an object: what it had is deleted, unless it is there again. -/
def setUserMeta (domain ref : GoString) (userMeta : Tags) : GwProg (Except (GwError ε) Unit) :=
  (finalRow domain ref).orFail fun info => do
    match ← ask (.snapMeta domain ref) with
    | .failed => pure (.error .internal)
    | .absent => pure (.error .notFound)
    | .found tags =>
      let overlay := encodeUserTags userMeta
      let stale := tags.filter fun kv =>
        metaTagPrefix.isPrefixOf kv.1 && !(overlay.map Prod.fst).contains kv.1
      (updateLatestMeta domain ref (overlay ++ stale.map fun kv => (kv.1, []))).orFail fun version => do
        if ← ask (.refPut { info with version, userMeta }) then pure (.ok ())
        else pure (.error .internal)

def get (domain ref : GoString) : GwProg (Except (GwError ε) (GoString × ObjectInfo)) :=
  (finalRow domain ref).orFail fun info => do
    match ← ask (.snapLatest domain ref) with
    | .failed => pure (.error .internal)
    | .absent => pure (.error .notFound)
    | .found snap => pure (.ok (snap.content, { info with userMeta := decodeUserTags snap.tags }))

def head (domain ref : GoString) : GwProg (Except (GwError ε) ObjectInfo) :=
  (finalRow domain ref).orFail fun info => do
    match ← ask (.snapMeta domain ref) with
    | .failed => pure (.error .internal)
    | .absent => pure (.error .notFound)
    | .found tags => pure (.ok { info with userMeta := decodeUserTags tags })

/-- Delete one version. -/
def deleteVersion (domain ref : GoString) (_ : Unit) (version : Nat) : GwProg (Except (GwError ε) Unit) := do
  if ← ask (.snapDelete domain ref version) then pure (.ok ()) else pure (.error .internal)

/-- Delete all versions of an object, and then its row. -/
def delete (domain ref : GoString) : GwProg (Except (GwError ε) Unit) := do
  match ← ask (.snapList domain ref) with
  | none => pure (.error .internal)
  | some versions =>
    (foldOrFail (deleteVersion domain ref) versions ()).orFail fun _ => do
      if ← ask (.refDelete domain ref) then pure (.ok ()) else pure (.error .internal)

/-! ### Staged uploads -/

/-- How an upload is to be staged. -/
structure MintOptions where
  contentType : GoString
  userMeta : Tags
  expectedHash : GoString
  expectedSize : Nat
  deriving DecidableEq, Repr

/-- Where and how to upload. -/
structure StagedUpload where
  ref : GoString
  stagingKey : GoString
  deriving DecidableEq, Repr

/-- A name with a number that is not used twice. -/
def idOf (stem : GoString) (n : Nat) : GoString := stem ++ text "-" ++ Decimal.digits (n + 1) n

/-- Begin an upload: its row is pending, and replaces the one there was. -/
def mintRefWithOptions (domain ref : GoString) (opts : MintOptions) :
    GwProg (Except (GwError ε) StagedUpload) := do
  let n ← ask .newID
  let ref := if ref = [] then idOf (text "ref") n else ref
  let stagingKey := domain ++ text "/staging/" ++ ref ++ text "/" ++ idOf (text "up") n
  if ← ask (.presignPut stagingKey) then do
    let now ← ask .clock
    let pending : ObjectInfo :=
      { ref, domain, contentHash := [], size := 0, contentType := opts.contentType, createdAt := now,
        version := 0, userMeta := opts.userMeta, pending := true, stagingKey,
        expectedHash := opts.expectedHash, expectedSize := opts.expectedSize }
    if ← ask (.refPut pending) then pure (.ok ⟨ref, stagingKey⟩) else pure (.error .internal)
  else pure (.error .internal)

/-- Hexadecimal digits in either case are the same. -/
def lower (s : GoString) : GoString := s.map fun c => if 65 ≤ c ∧ c ≤ 90 then c + 32 else c

/-- The staged bytes are what was expected, as far as something was. -/
def checkIntegrity (expectedHash : GoString) (expectedSize gotSize : Nat) (gotHash : GoString) : Bool :=
  (expectedSize = 0 || gotSize ≠ 0 && gotSize = expectedSize)
    && (expectedHash = [] || lower expectedHash = lower gotHash)

/-- Make an object of what is staged.  Bytes that are not as expected are taken back, as far as that can be
    done. -/
def finalize (sha256 : GoString → GoString) (domain ref : GoString) :
    GwProg (Except (GwError ε) ObjectInfo) := do
  match ← ask (.refGet domain ref) with
  | .failed => pure (.error .internal)
  | .absent => pure (.error .notFound)
  | .found info =>
    if !info.pending then pure (.ok info)
    else if info.stagingKey = [] then pure (.error .notStaged)
    else
      match ← ask (.stageOpen info.stagingKey) with
      | none => pure (.error .internal)
      | some content =>
        match ← ask (.snapPut domain ref info.contentType (encodeUserTags info.userMeta) content) with
        | none => pure (.error .internal)
        | some version =>
          if checkIntegrity info.expectedHash info.expectedSize content.length (sha256 content) then do
            let now ← ask .clock
            let final : ObjectInfo :=
              { info with
                ref, domain, contentHash := sha256 content, size := content.length, createdAt := now, version,
                pending := false, stagingKey := [] }
            if ← ask (.refPut final) then do
              let _ ← ask (.stageDelete info.stagingKey)
              pure (.ok final)
            else pure (.error .internal)
          else do
            let _ ← ask (.snapDelete domain ref version)
            let _ ← ask (.stageDelete info.stagingKey)
            pure (.error .integrity)

end MemoryLayer.Gateway
