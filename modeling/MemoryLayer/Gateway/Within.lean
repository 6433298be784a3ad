import MemoryLayer.Gateway.Objects

namespace MemoryLayer.Gateway

open Calls Prog
open Local (GoString text)

/-! # What the operations of a gateway touch

- `Call.object`, `Call.writes`: the object whose row or versions a call reads or changes, or changes.
- `Within`: the call is about one object, or about none.
- `get_only`, `head_only`, `delete_only`: the calls of operations.
- `putWithMeta_within`, `get_within`, …: an operation on a ref is about the object with that ref.
-/

variable {ε : Type} {c : Call}

/-- The object that a call is about, by domain and ref. -/
def Call.object : Call → Option (GoString × GoString)
  | .refGet domain ref | .refDelete domain ref | .snapPut domain ref .. | .snapLatest domain ref
  | .snapMeta domain ref | .snapList domain ref | .snapDelete domain ref _ => some (domain, ref)
  | .refPut info => some (info.domain, info.ref)
  | .refList .. | .clock | .newID | .presignPut _ | .stageOpen _ | .stageDelete _ => none

/-- The object that a call changes. -/
def Call.writes : Call → Option (GoString × GoString)
  | .refDelete domain ref | .snapPut domain ref .. | .snapDelete domain ref _ => some (domain, ref)
  | .refPut info => some (info.domain, info.ref)
  | _ => none

/-- The call is about no other object than this one. -/
def Within (domain ref : GoString) (c : Call) : Prop :=
  (∀ o ∈ c.object, o = (domain, ref)) ∧ ∀ d stem, c ≠ .refList d stem

/-- A call about the object itself is within it. -/
theorem within_of_object {domain ref : GoString} (h : c.object = some (domain, ref)) :
    Within domain ref c := by
  refine ⟨fun o ho => ?_, fun d stem hc => ?_⟩
  · rw [h] at ho
    exact (Option.some.inj ho).symm
  · subst hc
    cases h

/-- So is one about no object at all. -/
theorem within_of_none {domain ref : GoString} (h : c.object = none)
    (hlist : ∀ d stem, c ≠ .refList d stem) : Within domain ref c := by
  refine ⟨fun o ho => ?_, hlist⟩
  rw [h] at ho
  cases ho

theorem object_of_writes {o : GoString × GoString} (h : o ∈ c.writes) : o ∈ c.object := by
  cases c <;> first | exact h | cases h

/-- It changes no other object. -/
theorem Within.ne {domain ref : GoString} (hc : Within domain ref c) {object : GoString × GoString}
    (h : object ≠ (domain, ref)) : ∀ o ∈ c.writes, object ≠ o := by
  intro o ho
  rw [hc.1 o (object_of_writes ho)]
  exact h

section Operations

variable (domain ref : GoString)

theorem putWithMeta_within (sha256 : GoString → GoString) (contentType : GoString) (userMeta : Tags)
    (body : Except ε GoString) :
    (putWithMeta sha256 domain ref contentType userMeta body).Only (Within domain ref) := by
  unfold putWithMeta
  split
  · trivial
  · cases body with
    | error e => trivial
    | ok content =>
      refine Only.ask (within_of_object rfl) fun version => ?_
      cases version with
      | none => trivial
      | some version =>
        refine Only.ask (within_of_none rfl (by simp)) fun now => ?_
        refine Only.ask (within_of_object rfl) fun stored => ?_
        cases stored <;> trivial

section Only

variable {domain ref} {P : Call → Prop}

section

variable (hget : P (.refGet domain ref))

include hget

theorem finalRow_only : (finalRow (ε := ε) domain ref).Only P := by
  refine Only.ask hget fun row => ?_
  cases row <;> trivial

theorem get_only (hlatest : P (.snapLatest domain ref)) :
    (get (ε := ε) domain ref).Only P := by
  refine (finalRow_only hget).orFail fun info => ?_
  refine Only.ask hlatest fun snap => ?_
  cases snap <;> trivial

theorem head_only (hmeta : P (.snapMeta domain ref)) :
    (head (ε := ε) domain ref).Only P := by
  refine (finalRow_only hget).orFail fun info => ?_
  refine Only.ask hmeta fun tags => ?_
  cases tags <;> trivial

end

theorem delete_only (hlist : P (.snapList domain ref)) (hsnap : ∀ version, P (.snapDelete domain ref version))
    (hrow : P (.refDelete domain ref)) : (delete (ε := ε) domain ref).Only P := by
  refine Only.ask hlist fun versions => ?_
  cases versions with
  | none => trivial
  | some versions =>
    refine (Only.foldOrFail (fun _ version => ?_) versions ()).orFail fun _ => ?_
    · refine Only.ask (hsnap version) fun deleted => ?_
      cases deleted <;> trivial
    · refine Only.ask hrow fun deleted => ?_
      cases deleted <;> trivial

end Only

theorem get_within : (get (ε := ε) domain ref).Only (Within domain ref) :=
  get_only (within_of_object rfl) (within_of_object rfl)

theorem head_within : (head (ε := ε) domain ref).Only (Within domain ref) :=
  head_only (within_of_object rfl) (within_of_object rfl)

theorem delete_within : (delete (ε := ε) domain ref).Only (Within domain ref) :=
  delete_only (within_of_object rfl) (fun _ => within_of_object rfl) (within_of_object rfl)

/-- The row of an upload has the ref that is given, or a new one. -/
theorem mintRefWithOptions_only {P : Call → Prop} (opts : MintOptions) (hid : P .newID)
    (hpresign : ∀ stagingKey, P (.presignPut stagingKey)) (hclock : P .clock)
    (hrow : ∀ info : ObjectInfo, info.domain = domain → (ref ≠ [] → info.ref = ref) → P (.refPut info)) :
    (mintRefWithOptions (ε := ε) domain ref opts).Only P := by
  refine Only.ask hid fun n => Only.ask (hpresign _) fun presigned => ?_
  cases presigned with
  | false => trivial
  | true =>
    refine Only.ask hclock fun now => Only.ask (hrow _ rfl fun href => if_neg href) fun stored => ?_
    cases stored <;> trivial

/-- A ref that is given is kept. -/
theorem mintRefWithOptions_within (href : ref ≠ []) (opts : MintOptions) :
    (mintRefWithOptions (ε := ε) domain ref opts).Only (Within domain ref) :=
  mintRefWithOptions_only domain ref opts (within_of_none rfl (by simp)) (fun _ => within_of_none rfl (by simp))
    (within_of_none rfl (by simp)) fun info hdomain hkept =>
      within_of_object (by rw [Call.object, hdomain, hkept href])

theorem mintRefWithOptions_domain (opts : MintOptions) :
    (mintRefWithOptions (ε := ε) domain ref opts).Only fun c => ∀ o ∈ c.writes, o.1 = domain :=
  mintRefWithOptions_only domain ref opts nofun nofun
    nofun fun info hdomain _ o ho => by cases ho; exact hdomain

theorem finalize_within (sha256 : GoString → GoString) :
    (finalize (ε := ε) sha256 domain ref).Only (Within domain ref) := by
  refine Only.ask (within_of_object rfl) fun row => ?_
  cases row with
  | failed => trivial
  | absent => trivial
  | found info =>
    dsimp only
    split
    · trivial
    · split
      · trivial
      · refine Only.ask (within_of_none rfl (by simp)) fun staged => ?_
        cases staged with
        | none => trivial
        | some content =>
          refine Only.ask (within_of_object rfl) fun version => ?_
          cases version with
          | none => trivial
          | some version =>
            dsimp only
            split
            · refine Only.ask (within_of_none rfl (by simp)) fun now => ?_
              refine Only.ask (within_of_object rfl) fun stored => ?_
              cases stored with
              | false => trivial
              | true => exact Only.ask (within_of_none rfl (by simp)) fun _ => trivial
            · refine Only.ask (within_of_object rfl) fun _ => ?_
              exact Only.ask (within_of_none rfl (by simp)) fun _ => trivial

end Operations

end MemoryLayer.Gateway
