import MemoryLayer.Gateway.Stores
import Mathlib.Algebra.Order.Ring.Int
import Mathlib.Algebra.Order.Ring.Nat

namespace MemoryLayer.Edge

open Gateway (Instant)
open Local (GoString text)

/-! # Capabilities

A capability is a signed grant for one operation on one ref of one tenant (`capability/capability.go`).
Base64, JSON and the signature scheme are given by `Wire`.

- `Op`, `Claims`: what is granted.
- `Minter.mint`: the claims of a new token.
- `Verifier.verify`: which tokens are accepted, and what they grant.
-/

/-- The operation of a capability; a token can name others than the six. -/
inductive Op where
  | put
  | get
  | head
  | delete
  | stage
  | finalize
  | other (name : GoString)
  deriving DecidableEq, Repr

/-- What a capability grants. -/
structure Claims where
  ver : Int
  keyID : GoString
  tenant : GoString
  subject : GoString
  op : Op
  ref : GoString
  maxSize : Int
  contentType : GoString
  contentHash : GoString
  notBefore : Int
  expiry : Int
  jti : GoString
  audience : GoString
  requireAuth : Bool
  matchMode : GoString
  deriving DecidableEq, Repr

/-- Why a token is refused. -/
inductive VerifyError where
  | malformed
  | version
  | unknownKey
  | badSignature
  | badAudience
  | notYetValid
  | expired
  deriving DecidableEq, Repr

/-- The current version of claims. -/
def version : Int := 1

/-- The seconds of an instant. -/
def unix (t : Instant) : Int := t / 1000000000

/-- The instant of a number of seconds. -/
def ofUnix (seconds : Int) : Instant := seconds * 1000000000

/-- The seconds from the year 1 to 1970. -/
def unixToInternal : Int := 62135596800

/-- The instant that `time.Unix` makes of a 64-bit number of seconds.  It counts from the year 1, and the sum
    wraps around, so that very late instants become very early ones. -/
def timeUnix (seconds : Int) : Instant :=
  ofUnix (Int.bmod (seconds + unixToInternal) (2 ^ 64) - unixToInternal)

/-- Before the sum wraps around, it is the instant. -/
theorem timeUnix_eq {seconds : Int} (hpos : 0 < seconds) (hfits : seconds + unixToInternal < 2 ^ 63) :
    timeUnix seconds = ofUnix seconds := by
  unfold unixToInternal at hfits
  unfold timeUnix unixToInternal
  have hsum : Int.bmod (seconds + 62135596800) (2 ^ 64) = seconds + 62135596800 :=
    Int.bmod_eq_of_le (by omega) (by omega)
  rw [hsum, Int.add_sub_cancel]

theorem ofUnix_unix_le (t : Instant) : ofUnix (unix t) ≤ t := Int.ediv_mul_le t (by decide)

/-! ### Tokens -/

/-- How tokens are read: base64, JSON and the check of a signature. -/
structure Wire where
  unb64 : GoString → Option GoString
  unmarshal : GoString → Option Claims
  verifies : (pub payload sig : GoString) → Bool

/-- The two parts of a token, at its first dot; neither may be empty. -/
def splitToken (token : GoString) : Option (GoString × GoString) :=
  let payload := token.takeWhile fun c => c ≠ 46
  match token.dropWhile fun c => c ≠ 46 with
  | [] => none
  | _ :: sig => if payload = [] ∨ sig = [] then none else some (payload, sig)

/-- Who mints tokens. -/
structure Minter where
  kid : GoString
  audience : GoString
  deriving DecidableEq, Repr

/-- The claims of a new token. -/
def Minter.mint (m : Minter) (now : Instant) (newJTI : GoString) (c : Claims) (ttl : Int) : Claims :=
  { c with
    ver := version
    keyID := m.kid
    audience := m.audience
    notBefore := if c.notBefore = 0 then unix (now - ofUnix 30) else c.notBefore
    expiry := unix (now + ttl)
    jti := if c.jti = [] then newJTI else c.jti }

/-- Who verifies tokens: the keys that are registered, and the audience. -/
structure Verifier where
  keys : GoString → Option GoString
  audience : GoString

/-- The payload of a token, its signature, and the claims in the payload. -/
def Wire.decode (wire : Wire) (token : GoString) : Option (GoString × GoString × Claims) := do
  let (payload64, sig64) ← splitToken token
  let payload ← wire.unb64 payload64
  let sig ← wire.unb64 sig64
  let c ← wire.unmarshal payload
  pure (payload, sig, c)

/-- Decode and authenticate a token. -/
def Verifier.verify (v : Verifier) (wire : Wire) (now : Instant) (token : GoString) :
    Except VerifyError Claims :=
  match wire.decode token with
  | none => .error .malformed
  | some (payload, sig, c) =>
    if c.ver ≠ version then .error .version
    else
      match v.keys c.keyID with
      | none => .error .unknownKey
      | some pub =>
        if !wire.verifies pub payload sig then .error .badSignature
        else if c.audience ≠ v.audience then .error .badAudience
        else if unix now < c.notBefore then .error .notYetValid
        else if c.expiry ≤ unix now then .error .expired
        else .ok c

/-- The token is signed under a registered key, is for this audience, and is in its time. -/
structure Verifier.Accepts (v : Verifier) (wire : Wire) (now : Instant) (token : GoString) (c : Claims) :
    Prop where
  signed : ∃ payload sig pub, wire.decode token = some (payload, sig, c) ∧ v.keys c.keyID = some pub
    ∧ wire.verifies pub payload sig = true
  current : c.ver = version
  audience : c.audience = v.audience
  begun : c.notBefore ≤ unix now
  unexpired : unix now < c.expiry

/-- **What verification means.** -/
theorem Verifier.verify_eq_ok_iff {v : Verifier} {wire : Wire} {now : Instant} {token : GoString}
    {c : Claims} : v.verify wire now token = .ok c ↔ v.Accepts wire now token c := by
  unfold Verifier.verify
  constructor
  · intro h
    cases hdecode : wire.decode token with
    | none => simp [hdecode] at h
    | some parts =>
      obtain ⟨payload, sig, claims⟩ := parts
      rw [hdecode] at h
      dsimp only at h
      by_cases hver : claims.ver = version
      · rw [if_neg (not_not.mpr hver)] at h
        cases hkey : v.keys claims.keyID with
        | none => simp [hkey] at h
        | some pub =>
          rw [hkey] at h
          simp only [Bool.not_eq_true', ite_eq_iff, reduceCtorEq, and_false, false_or, Bool.not_eq_false,
            not_not, Int.not_lt, Int.not_le, Except.ok.injEq, ne_eq] at h
          obtain ⟨hverifies, haudience, hbegun, hunexpired, rfl⟩ := h
          exact ⟨⟨payload, sig, pub, hdecode, hkey, hverifies⟩, hver, haudience, hbegun, hunexpired⟩
      · simp [hver] at h
  · rintro ⟨⟨payload, sig, pub, hdecode, hkey, hverifies⟩, hver, haudience, hbegun, hunexpired⟩
    simp [hdecode, hver, hkey, hverifies, haudience, Int.not_lt.mpr hbegun, Int.not_le.mpr hunexpired]

end MemoryLayer.Edge
