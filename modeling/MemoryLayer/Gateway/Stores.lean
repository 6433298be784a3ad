import MemoryLayer.Lib.Prog
import MemoryLayer.Local.Path
import Mathlib.Data.List.AList

namespace MemoryLayer.Gateway

open Local (GoString text)

/-! # The stores behind a gateway

A gateway keeps an object in two places: the index of refs has a row for it, and the snapshot store has
versions of its bytes.  Uploads that are not yet objects are in a staging area.  The gateway makes its
calls on these stores one after another, and every call may fail.

- `ObjectInfo`, `Snap`: a row of the index, and a version.
- `Call`, `Ans`: the calls of a gateway on its stores.
- `Stores`, `act`, `serve`: what the calls do, and which of them fail.
-/

/-- Nanoseconds since 1970. -/
abbrev Instant := Int

/-- Tags or metadata, one value for each key. -/
abbrev Tags := List (GoString × GoString)

/-- A row of the index. -/
structure ObjectInfo where
  ref : GoString
  domain : GoString
  contentHash : GoString
  size : Nat
  contentType : GoString
  createdAt : Instant
  version : Nat
  userMeta : Tags
  pending : Bool
  stagingKey : GoString
  expectedHash : GoString
  expectedSize : Nat
  deriving DecidableEq, Repr

/-- A version of an object in the snapshot store. -/
structure Snap where
  version : Nat
  format : GoString
  tags : Tags
  content : GoString
  deriving DecidableEq, Repr

/-- What a store says about something that it may not have. -/
inductive Got (α : Type) where
  | failed
  | absent
  | found (a : α)
  deriving DecidableEq, Repr

/-- What an option says when the call does not fail. -/
def Got.ofOption {α : Type} : Option α → Got α
  | none => .absent
  | some a => .found a

/-! ### Calls -/

/-- The calls on the index of refs, on the snapshot store and on the staging area; and the clock, and
    numbers that are not used twice. -/
inductive Call where
  | clock
  | newID
  | refGet (domain ref : GoString)
  | refPut (info : ObjectInfo)
  | refDelete (domain ref : GoString)
  | refList (domain stem : GoString)
  | snapPut (domain ref format : GoString) (tags : Tags) (content : GoString)
  | snapLatest (domain ref : GoString)
  | snapMeta (domain ref : GoString)
  | snapList (domain ref : GoString)
  | snapDelete (domain ref : GoString) (version : Nat)
  | presignPut (stagingKey : GoString)
  | stageOpen (stagingKey : GoString)
  | stageDelete (stagingKey : GoString)
  deriving DecidableEq, Repr

/-- What a call is answered; `false` and `none` are errors.  Versions are listed newest first. -/
@[reducible] def Ans : Call → Type
  | .clock => Instant
  | .newID => Nat
  | .refGet .. => Got ObjectInfo
  | .refPut .. => Bool
  | .refDelete .. => Bool
  | .refList .. => Option (List ObjectInfo)
  | .snapPut .. => Option Nat
  | .snapLatest .. => Got Snap
  | .snapMeta .. => Got Tags
  | .snapList .. => Option (List Nat)
  | .snapDelete .. => Bool
  | .presignPut .. => Bool
  | .stageOpen .. => Option GoString
  | .stageDelete .. => Bool

/-- Programs of a gateway. -/
abbrev GwProg := Calls.Prog Ans

/-- A single call. -/
abbrev ask (c : Call) : GwProg (Ans c) := Calls.Prog.perform c

/-! ### The stores -/

/-- The rows by domain, the versions by domain and ref, oldest first, and what is staged.  `minted` is the
    next number; `faults` says which of the next calls that can fail do so, and `ticks` how much time passes
    before each of the next calls. -/
structure Stores where
  rows : GoString → AList fun _ : GoString => ObjectInfo
  snaps : GoString → GoString → List Snap
  staged : GoString → Option GoString
  now : Instant
  minted : Nat
  faults : List Bool
  ticks : List Nat

variable (s : Stores)

namespace Stores

/-- Stores that nobody has used. -/
def empty : Stores := ⟨fun _ => ∅, fun _ _ => [], fun _ => none, 0, 1, [], []⟩

/-- The row of a ref. -/
def row (domain ref : GoString) : Option ObjectInfo := (s.rows domain).lookup ref

def setRows (domain : GoString) (rows : AList fun _ : GoString => ObjectInfo) : Stores :=
  { s with rows := Function.update s.rows domain rows }

def setSnaps (domain ref : GoString) (snaps : List Snap) : Stores :=
  { s with snaps := Function.update s.snaps domain (Function.update (s.snaps domain) ref snaps) }

def setStaged (stagingKey : GoString) (content : Option GoString) : Stores :=
  { s with staged := Function.update s.staged stagingKey content }

/-- Time passes. -/
def tick : Stores := { s with now := s.now + s.ticks.headD 0, ticks := s.ticks.tail }

/-- The next call fails, if it can. -/
def fault : Bool := s.faults.headD false

/-- The next call has failed or not. -/
def settle : Stores := { s with faults := s.faults.tail }

/-- The newest version. -/
def latest (domain ref : GoString) : Option Snap := (s.snaps domain ref).getLast?

end Stores

/-- A call that does not fail. -/
def act : (c : Call) → Ans c × Stores
  | .clock => (s.now, s)
  | .newID => (s.minted, { s with minted := s.minted + 1 })
  | .refGet domain ref => (.ofOption (s.row domain ref), s)
  | .refPut info => (true, s.setRows info.domain ((s.rows info.domain).insert info.ref info))
  | .refDelete domain ref => (true, s.setRows domain ((s.rows domain).erase ref))
  | .refList domain stem =>
    (some (((s.rows domain).entries.map Sigma.snd).filter fun info => stem.isPrefixOf info.ref), s)
  | .snapPut domain ref format tags content =>
    (some s.minted,
      { s.setSnaps domain ref (s.snaps domain ref ++ [⟨s.minted, format, tags, content⟩]) with
        minted := s.minted + 1 })
  | .snapLatest domain ref => (.ofOption (s.latest domain ref), s)
  | .snapMeta domain ref => (.ofOption ((s.latest domain ref).map Snap.tags), s)
  | .snapList domain ref => (some ((s.snaps domain ref).reverse.map Snap.version), s)
  | .snapDelete domain ref version =>
    (true, s.setSnaps domain ref ((s.snaps domain ref).filter fun snap => snap.version ≠ version))
  | .presignPut _ => (true, s)
  | .stageOpen stagingKey => (s.staged stagingKey, s)
  | .stageDelete stagingKey => (true, s.setStaged stagingKey none)

/-- What a call is answered that fails; some cannot. -/
def Call.failed : (c : Call) → Option (Ans c)
  | .clock | .newID => none
  | .refGet .. | .snapLatest .. | .snapMeta .. => some .failed
  | .refList .. | .snapPut .. | .snapList .. | .stageOpen .. => some none
  | .refPut .. | .refDelete .. | .snapDelete .. | .presignPut .. | .stageDelete .. => some false

/-- The stores serve a call: one that fails changes nothing. -/
def serve (c : Call) : Ans c × Stores :=
  match c.failed with
  | none => act s.tick c
  | some answer => if s.fault then (answer, s.tick.settle) else act s.tick.settle c

@[simp] theorem act_now (c : Call) : (act s c).2.now = s.now := by
  cases c <;> rfl

/-- Time passes before a call, and not while it is served. -/
@[simp] theorem serve_now (c : Call) : (serve s c).2.now = s.tick.now := by
  unfold serve
  split
  · exact act_now _ c
  · split
    · rfl
    · exact act_now _ c

end MemoryLayer.Gateway
