import MemoryLayer.Edge.Refused
import MemoryLayer.Gateway.Usage
import Mathlib.Algebra.Order.Ring.Int

namespace MemoryLayer.Edge

open Calls Prog
open Gateway
open Local (GoString text)

/-! # What is recorded for a tenant

The edge records the bytes and the objects of a tenant beside the store, by adding and subtracting.  This is what
the tenant has stored, as long as nothing is stored or deleted twice and no call fails half way.

- `Accurate`: the records are those of what is stored.
- `Accurate.of_cell`: how they have to change with one object.
- `Event.Accounted`: nothing goes wrong with a request.
- `usage_recorded`: in every run of such requests the records are those of what is stored.
-/

/-! ### Records -/

/-- The records are those of what is stored; and the numbers of versions are distinct, and a final row has a
    version. -/
structure Accurate (s : State) : Prop where
  fresh : s.stores.Fresh
  whole : ∀ tenant ref, (s.stores.cell tenant ref).Whole
  bytes : ∀ tenant, s.quota.bytes tenant = s.stores.bytes tenant
  count : ∀ tenant, s.quota.count tenant = s.stores.count tenant

section Change

variable {s s' : State} {tenant ref content : GoString} {f : Cell → ℕ} {row : ObjectInfo}

theorem total_of_touched {t t' : Stores} (h : Touched tenant ref t t')
    (hf : ∀ x : Cell, x.row = none → f x = 0) :
    t'.total f tenant + f (t.cell tenant ref) = t.total f tenant + f (t'.cell tenant ref) :=
  total_change ref hf fun r hr => h.others tenant r fun heq => hr (congrArg Prod.snd heq)

/-- A record of what is stored has to follow the one object that is different. -/
theorem recorded_of_touched {t t' : Stores} {q q' : GoString → Int}
    (h : Touched tenant ref t t') (hf : ∀ x : Cell, x.row = none → f x = 0) (hq : ∀ d, q d = t.total f d)
    (hoff : ∀ d, d ≠ tenant → q' d = q d)
    (hat : q' tenant + f (t.cell tenant ref) = q tenant + f (t'.cell tenant ref)) (d : GoString) :
    q' d = t'.total f d := by
  by_cases hd : d = tenant
  · subst hd
    have hchange := total_of_touched h hf
    have hbefore := hq d
    omega
  · rw [hoff d hd, hq d]
    exact congrArg _ (total_of_same hf fun r => h.others d r fun heq => hd (congrArg Prod.fst heq)).symm

section

variable (hs : Accurate s)

include hs

/-- **Change of one object.**  The records have to change by what is there more or less than before. -/
theorem Accurate.of_cell (h : Touched tenant ref s.stores s'.stores)
    (hwhole : (s'.stores.cell tenant ref).Whole)
    (hquota : ∀ t, t ≠ tenant → s'.quota.bytes t = s.quota.bytes t ∧ s'.quota.count t = s.quota.count t)
    (hbytes : s'.quota.bytes tenant + (s.stores.cell tenant ref).bytes
      = s.quota.bytes tenant + (s'.stores.cell tenant ref).bytes)
    (hcount : s'.quota.count tenant + (s.stores.cell tenant ref).count
      = s.quota.count tenant + (s'.stores.cell tenant ref).count) : Accurate s' where
  fresh := h.fresh
  whole t r := by
    by_cases heq : (t, r) = (tenant, ref)
    · cases heq
      exact hwhole
    · rw [h.others t r heq]
      exact hs.whole t r
  bytes := recorded_of_touched h (fun _ => bytes_of_no_row) hs.bytes (fun t ht => (hquota t ht).1) hbytes
  count := recorded_of_touched h (fun _ => count_of_no_row) hs.count (fun t ht => (hquota t ht).2) hcount

/-- Nothing has to be recorded as long as the final row is the same. -/
theorem Accurate.of_final_eq (h : Touched tenant ref s.stores s'.stores)
    (hwhole : (s'.stores.cell tenant ref).Whole) (hquota : s'.quota = s.quota)
    (hfinal : (s'.stores.cell tenant ref).final = (s.stores.cell tenant ref).final) : Accurate s' := by
  refine hs.of_cell h hwhole (fun t _ => by rw [hquota]; exact ⟨rfl, rfl⟩) ?_ ?_
  · rw [hwhole.bytes_eq, (hs.whole tenant ref).bytes_eq, hfinal, hquota]
  · rw [hwhole.count_eq, (hs.whole tenant ref).count_eq, hfinal, hquota]

theorem Accurate.final_of_no_object (hnone : s.stores.object tenant ref = none) :
    (s.stores.cell tenant ref).final = none := by
  rw [← Option.not_isSome_iff_eq_none]
  intro hsome
  have hobject : (s.stores.object tenant ref).isSome := hs.whole tenant ref hsome
  rw [hnone] at hobject
  cases hobject

/-- Nothing has to be recorded where there is no object before and after. -/
theorem Accurate.of_no_object (h : Touched tenant ref s.stores s'.stores)
    (hnone : s.stores.object tenant ref = none) (hfinal : (s'.stores.cell tenant ref).final = none)
    (hquota : s'.quota = s.quota) : Accurate s' :=
  hs.of_final_eq h (whole_of_not_final hfinal) hquota (hfinal.trans (hs.final_of_no_object hnone).symm)

theorem Accurate.of_cell_eq (hfresh : s'.stores.Fresh)
    (hcell : ∀ t r, s'.stores.cell t r = s.stores.cell t r) (hquota : s'.quota = s.quota) : Accurate s' := by
  have htouched : Touched [] [] s.stores s'.stores := ⟨hfresh, fun t r _ => hcell t r⟩
  exact hs.of_final_eq htouched (by rw [hcell]; exact hs.whole _ _) hquota (by rw [hcell])

/-- Nothing has to be recorded when nothing changes. -/
theorem Accurate.of_unchanged (h : Unchanged s s') : Accurate s' := by
  refine hs.of_cell_eq ⟨h.minted ▸ hs.fresh.pos, fun t r => ?_⟩ (fun t r => by rw [h.cell]) h.quota
  rw [h.cell, h.minted]
  exact hs.fresh.cells t r

/-- A new object has to be recorded. -/
theorem Accurate.of_recordPut (h : Touched tenant ref s.stores s'.stores)
    (hnone : s.stores.object tenant ref = none)
    (hobject : s'.stores.object tenant ref = some (content, row))
    (hquota : s'.quota = s.quota.recordPut tenant row.size) : Accurate s' := by
  have hsome : (s'.stores.cell tenant ref).object.isSome := by
    rw [← Stores.object, hobject]
    rfl
  refine hs.of_cell h (fun _ => hsome) (fun t ht => ?_) ?_ ?_
  · rw [hquota]
    exact ⟨Function.update_of_ne ht .., Function.update_of_ne ht ..⟩
  · rw [bytes_of_none hnone, bytes_of_some hobject, hquota]
    simp [Quota.recordPut]
  · rw [count_of_none hnone, count_of_some hsome, hquota]
    simp [Quota.recordPut]

/-- The end of an object has to be recorded. -/
theorem Accurate.of_recordDelete (h : Touched tenant ref s.stores s'.stores)
    (hobject : s.stores.object tenant ref = some (content, row))
    (hcell : s'.stores.cell tenant ref = ⟨none, []⟩)
    (hquota : s'.quota = s.quota.recordDelete tenant row.size) : Accurate s' := by
  have hsome : (s.stores.cell tenant ref).object.isSome := by
    rw [← Stores.object, hobject]
    rfl
  have hnone : (s'.stores.cell tenant ref).object = none := by
    rw [hcell]
    rfl
  refine hs.of_cell h (by rw [hcell]; exact whole_of_not_final rfl) (fun t ht => ?_) ?_ ?_
  · rw [hquota]
    exact ⟨Function.update_of_ne ht .., Function.update_of_ne ht ..⟩
  · -- the object is part of what is stored, so that the difference is not negative
    have hchange := total_of_touched h fun _ => bytes_of_no_row
    have hbefore : s.quota.bytes tenant = s.stores.total Cell.bytes tenant := hs.bytes tenant
    rw [bytes_of_none hnone, bytes_of_some hobject] at hchange ⊢
    rw [hquota]
    simp only [Quota.recordDelete, Function.update_self]
    omega
  · have hchange := total_of_touched h fun _ => count_of_no_row
    have hbefore : s.quota.count tenant = s.stores.total Cell.count tenant := hs.count tenant
    rw [count_of_none hnone, count_of_some hsome] at hchange ⊢
    rw [hquota]
    simp only [Quota.recordDelete, Function.update_self]
    omega

end

end Change

variable {s : State} {tenant ref content : GoString} {c : Claims}

/-! ### Uploads -/

theorem delete_touched {t t' : Stores} {a : Except (Gateway.GwError BodyError) Unit}
    (ht : t.Fresh) (hexec : (Gateway.delete tenant ref).exec Gateway.serve t = (a, t')) :
    Touched tenant ref t t' :=
  .of_exec (delete_sound ..) (delete_within ..) ht hexec

/-- The end of an upload goes well: its record is not lost, or it is deleted without a failing call. -/
def EndsWell (c : Claims) (hash : GoString) (lost : Bool) (spared : Prop) : Prop :=
  if c.binds hash then lost = false else spared

/-- A record that is not lost. -/
theorem serve_recordPut_quota {n : Int} (h : s.faulty s.quota.pg = false) :
    (serve s (.recordPut tenant n)).2.quota = s.quota.recordPut tenant n :=
  if_neg (Bool.eq_false_iff.mp h)

theorem serve_recordDelete_quota {n : Int} (h : s.faulty s.quota.pg = false) :
    (serve s (.recordDelete tenant n)).2.quota = s.quota.recordDelete tenant n :=
  if_neg (Bool.eq_false_iff.mp h)

/-- The end of an upload that has just been published, where there was no object. -/
theorem accurate_checked {info row : ObjectInfo} {reply : Reply}
    {t : State} (hs : Accurate s) (ht : Touched c.tenant ref s.stores t.stores) (hquota : t.quota = s.quota)
    (hnone : s.stores.object c.tenant ref = none)
    (hobject : t.stores.object c.tenant ref = some (content, row)) (hsize : row.size = info.size)
    (hends : EndsWell c info.contentHash (t.faulty t.quota.pg)
      (t.stores.Spared 0 ((t.stores.snaps c.tenant ref).length + 2))) :
    Accurate ((checked c ref info reply).exec serve t).2 := by
  unfold EndsWell at hends
  cases hbound : boundTo c info with
  | true =>
    have hbinds : c.binds info.contentHash = true := hbound
    rw [if_pos hbinds] at hends
    rw [exec_checked_of_bound hbound]
    have hticked : Touched c.tenant ref s.stores t.stores.tick :=
      ⟨⟨ht.fresh.pos, ht.fresh.cells⟩, ht.others⟩
    refine hs.of_recordPut hticked hnone hobject ?_
    rw [serve_recordPut_quota hends, hquota, hsize]
  | false =>
    have hbinds : c.binds info.contentHash ≠ true := Bool.eq_false_iff.mp hbound
    rw [if_neg hbinds] at hends
    rw [exec_checked_of_not_bound hbound]
    obtain ⟨u, hexec, hcell, -⟩ :=
      delete_of_spared (ε := BodyError) (ht.fresh.cells c.tenant ref).nodup hends
    have hu := delete_touched ht.fresh hexec
    rw [hexec]
    refine hs.of_no_object ⟨hu.fresh, fun d r hne => (hu.others d r hne).trans (ht.others d r hne)⟩ hnone ?_ hquota
    change (u.cell c.tenant ref).final = none
    rw [hcell]
    rfl

variable (cfg : Config) {r : Request}

/-- **When a PUT is accounted for.**  If it is published, there was no object, and its end goes well. -/
def PutAccounted (r : Request) (c : Claims) (s : State) : Prop :=
  Admitted cfg r c s → ∀ content, limitedBody (ceiling cfg c) r = .ok content → s.stores.Spared 0 2 →
    s.stores.object c.tenant r.ref = none
      ∧ EndsWell c (cfg.sha256 content)
        ((serve s (.authorize c.tenant (ceiling cfg c))).2.faulty s.quota.pg)
        (s.stores.Spared 2 ((s.stores.snaps c.tenant r.ref).length + 3))

/-- The upload of a PUT, with a body that can be read. -/
theorem accurate_put {cfg : Config} {contentType : GoString}
    (hs : Accurate s) (href : ref ≠ [])
    (h : s.stores.Spared 0 2 → s.stores.object c.tenant ref = none
      ∧ EndsWell c (cfg.sha256 content) (s.faulty s.quota.pg)
        (s.stores.Spared 2 ((s.stores.snaps c.tenant ref).length + 3))) :
    Accurate ((orDeny (Gateway.put cfg.sha256 c.tenant ref contentType (.ok content))
      fun info => checked c ref info (.created info)).exec serve s).2 := by
  have htouched : ∀ {a t}, (Gateway.putWithMeta (ε := BodyError) cfg.sha256 c.tenant ref contentType []
      (.ok content)).exec Gateway.serve s.stores = (a, t) → Touched c.tenant ref s.stores t :=
    .of_exec (putWithMeta_sound ..) (putWithMeta_within ..) hs.fresh
  rw [Gateway.put]
  by_cases hspared : s.stores.Spared 0 2
  · obtain ⟨hnone, hends⟩ := h hspared
    obtain ⟨t, now, hexec, hcell, hfaults⟩ := putWithMeta_of_spared (ε := BodyError) cfg.sha256 c.tenant
      contentType [] content href hspared
    rw [exec_orDeny_of_ok hexec]
    have hobject : t.object c.tenant ref
        = some (content, Gateway.putRow cfg.sha256 c.tenant ref contentType [] content now s.stores.minted) := by
      rw [Stores.object, hcell]
      exact object_append
    refine accurate_checked hs (htouched hexec) rfl hnone hobject rfl ?_
    rw [length_snaps_of_append hcell, spared_shift hfaults]
    exact hends
  · cases hversion : s.stores.faultAt 0 with
    | true =>
      have hexec := putWithMeta_of_fault (ε := BodyError) cfg.sha256 c.tenant contentType [] content href
        hversion
      rw [exec_orDeny_of_error hexec]
      exact hs.of_unchanged ⟨rfl, rfl, rfl⟩
    | false =>
      -- the new version is there under the row that there was
      have hrow := faultAt_of_not_spared_two hspared hversion
      obtain ⟨t, hexec, hcell⟩ := putWithMeta_of_rowFault (ε := BodyError) cfg.sha256 c.tenant contentType
        [] content href hversion hrow
      rw [exec_orDeny_of_error hexec]
      refine hs.of_final_eq (htouched hexec) ?_ rfl ?_
      · change (t.cell c.tenant ref).Whole
        rw [hcell]
        exact whole_append
      · change (t.cell c.tenant ref).final = _
        rw [hcell]
        rfl

theorem accurate_handlePut {cfg : Config} (hs : Accurate s)
    (h : PutAccounted cfg r c s) : Accurate ((handlePut cfg c r).exec serve s).2 := by
  by_cases hadmitted : Admitted cfg r c s
  swap
  · exact hs.of_unchanged (exec_handlePut_of_not_admitted hadmitted)
  rw [exec_handlePut_of_admitted hadmitted]
  -- admission only takes time
  have hs₁ : Accurate (serve s (.authorize c.tenant (ceiling cfg c))).2 :=
    hs.of_unchanged ⟨rfl, rfl, rfl⟩
  cases hbody : limitedBody (ceiling cfg c) r with
  | error e =>
    rw [Gateway.put, exec_orDeny_of_error (putWithMeta_of_error _ _ _ _ hadmitted.named e)]
    exact hs₁
  | ok content => exact accurate_put hs₁ hadmitted.named (h hadmitted content hbody)

/-- **When a finalize is accounted for.**  There is no final row; and if the upload is published, its end goes
    well. -/
def FinalizeAccounted (c : Claims) (ref : GoString) (s : State) : Prop :=
  s.stores.faultAt 0 = false → (s.stores.cell c.tenant ref).final = none
    ∧ ∀ info content, Ready cfg.sha256 s.stores c.tenant ref info content →
      EndsWell c (cfg.sha256 content) (s.faulty s.quota.pg)
        (s.stores.Spared 5 ((s.stores.snaps c.tenant ref).length + 3))

theorem accurate_finalize {cfg : Config} (hs : Accurate s)
    (h : FinalizeAccounted cfg c ref s) : Accurate ((finalize cfg c ref).exec serve s).2 := by
  have htouched : ∀ {a t}, (Gateway.finalize (ε := BodyError) cfg.sha256 c.tenant ref).exec Gateway.serve s.stores
      = (a, t) → Touched c.tenant ref s.stores t :=
    .of_exec (finalize_sound ..) (finalize_within ..) hs.fresh
  rw [finalize_eq]
  cases hget : s.stores.faultAt 0 with
  | true =>
    rw [exec_orDeny_of_error (finalize_of_fault hget)]
    exact hs.of_unchanged ⟨rfl, rfl, rfl⟩
  | false =>
    obtain ⟨hfinal, hends⟩ := h hget
    have hnone : s.stores.object c.tenant ref = none := object_of_not_final hfinal
    cases hrow : s.stores.row c.tenant ref with
    | none =>
      rw [exec_orDeny_of_error (finalize_of_absent hget hrow)]
      exact hs.of_unchanged ⟨rfl, rfl, rfl⟩
    | some info =>
      have hpending : info.pending = true := by
        rw [← Bool.not_eq_false]
        intro hpending
        cases hfinal.symm.trans (final_of_row hrow hpending)
      by_cases hready : ∃ content, Ready cfg.sha256 s.stores c.tenant ref info content
      · obtain ⟨content, hready⟩ := hready
        obtain ⟨t, now, hexec, hcell, hfaults⟩ := finalize_of_ready (ε := BodyError) hready
        rw [exec_orDeny_of_ok hexec]
        obtain ⟨⟨bytes, row⟩, hobject⟩ : ∃ o, t.object c.tenant ref = some o := by
          rw [Stores.object, hcell, object_append]
          exact ⟨_, rfl⟩
        have hsize : row.size = content.length := by
          rw [Stores.object, hcell, object_append] at hobject
          cases hobject
          rfl
        refine accurate_checked hs (htouched hexec) rfl hnone hobject hsize ?_
        rw [length_snaps_of_append hcell, spared_shift hfaults]
        exact hends info content hready
      · obtain ⟨e, t, hexec, hrow'⟩ := finalize_of_not_ready (ε := BodyError) hrow hpending
          fun content hcontent => hready ⟨content, hcontent⟩
        rw [exec_orDeny_of_error hexec]
        exact hs.of_no_object (htouched hexec) hnone (final_of_pending (hrow'.trans hrow) hpending) rfl

/-! ### Deletions -/

/-- **When a deletion is accounted for.**  If the versions are deleted, then there was an object, whose size was
    read, and neither its row nor the record of its end is lost; or there was none, and the row cannot be
    deleted or no object is recorded. -/
def DeleteAccounted (c : Claims) (ref : GoString) (s : State) : Prop :=
  s.stores.Spared (s.stores.headCalls c.tenant ref) ((s.stores.snaps c.tenant ref).length + 1) →
    if (s.stores.object c.tenant ref).isSome then
      s.stores.Spared 0 2
        ∧ s.stores.Spared (s.stores.headCalls c.tenant ref) ((s.stores.snaps c.tenant ref).length + 2)
        ∧ s.faulty s.quota.pg = false
    else s.stores.faultAt (s.stores.headCalls c.tenant ref + ((s.stores.snaps c.tenant ref).length + 1)) = true
      ∨ s.quota.count c.tenant = 0

/-- The deletion itself, when the size has been looked up. -/
def forget (c : Claims) (ref : GoString) (size : Int) : EdgeProg (Except Denial Reply) :=
  orDeny (Gateway.delete c.tenant ref) fun _ => do
    let _ ← ask (.recordDelete c.tenant size)
    pure (.ok .noContent)

section Forget

variable (size : Int)

/-- A deletion that fails leaves the row, and a version if not all of them are deleted. -/
theorem accurate_forget_of_fault (hs : Accurate s)
    (h : ¬ s.stores.Spared 0 ((s.stores.snaps c.tenant ref).length + 2))
    (hleft : s.stores.object c.tenant ref = none
      ∨ ¬ s.stores.Spared 0 ((s.stores.snaps c.tenant ref).length + 1)) :
    Accurate ((forget c ref size).exec serve s).2 := by
  obtain ⟨t, hexec, hcell⟩ := delete_of_fault (ε := BodyError) (hs.fresh.cells c.tenant ref).nodup h
  have hfinal : (t.cell c.tenant ref).final = (s.stores.cell c.tenant ref).final := by rw [hcell]; rfl
  rw [forget, exec_orDeny_of_error hexec]
  refine hs.of_final_eq (delete_touched hs.fresh hexec) (fun hsome => ?_) rfl hfinal
  rw [hfinal] at hsome
  have hobject := hs.whole c.tenant ref hsome
  obtain ⟨row, hrow⟩ := Option.isSome_iff_exists.mp hsome
  change (t.cell c.tenant ref).object.isSome
  rw [hcell, ← Option.ne_none_iff_isSome, ne_eq, object_without_eq_none_iff hrow]
  have hlength : 0 < (s.stores.snaps c.tenant ref).length := by
    refine List.length_pos_of_ne_nil fun hnil => ?_
    rw [object_of_no_snaps hnil] at hobject
    cases hobject
  refine fun hle => hleft.elim (fun hnone => ?_) fun hnot => hnot ((le_deleted_iff hlength).mp hle)
  rw [Stores.object] at hnone
  rw [hnone] at hobject
  cases hobject

/-- A deletion that goes through. -/
theorem exec_forget_of_spared (hs : Accurate s)
    (h : s.stores.Spared 0 ((s.stores.snaps c.tenant ref).length + 2)) :
    ∃ t, Touched c.tenant ref s.stores t.tick ∧ t.cell c.tenant ref = ⟨none, []⟩
      ∧ ((forget c ref size).exec serve s).2
        = (serve { s with stores := t } (.recordDelete c.tenant size)).2 := by
  obtain ⟨t, hexec, hcell, -⟩ :=
    delete_of_spared (ε := BodyError) (hs.fresh.cells c.tenant ref).nodup h
  have ht := delete_touched hs.fresh hexec
  refine ⟨t, ⟨⟨ht.fresh.pos, ht.fresh.cells⟩, ht.others⟩, hcell, ?_⟩
  rw [forget, exec_orDeny_of_ok hexec]
  rfl

theorem accurate_forget_of_object (hs : Accurate s) {row : ObjectInfo}
    (hobject : s.stores.object c.tenant ref = some (content, row)) (hsize : size = row.size)
    (h : s.stores.Spared 0 ((s.stores.snaps c.tenant ref).length + 2)) (hlost : s.faulty s.quota.pg = false) :
    Accurate ((forget c ref size).exec serve s).2 := by
  obtain ⟨t, htouched, hcell, hexec⟩ := exec_forget_of_spared size hs h
  rw [hexec]
  refine hs.of_recordDelete htouched hobject hcell ?_
  rw [← hsize]
  exact serve_recordDelete_quota (s := { s with stores := t }) hlost

/-- For a tenant without objects, nothing is recorded. -/
theorem recordDelete_nothing {q : Quota} (hbytes : 0 ≤ q.bytes tenant)
    (hcount : q.count tenant = 0) : q.recordDelete tenant 0 = q := by
  unfold Quota.recordDelete
  rw [hcount, Int.sub_zero, max_eq_left hbytes, Function.update_eq_self]
  have hzero : max ((0 : Int) - 1) 0 = q.count tenant := by rw [hcount]; rfl
  rw [hzero, Function.update_eq_self]

/-- A deletion of nothing, for a tenant without objects. -/
theorem accurate_forget_of_nothing (hs : Accurate s) (hnone : s.stores.object c.tenant ref = none)
    (h : s.stores.Spared 0 ((s.stores.snaps c.tenant ref).length + 2)) (hcount : s.quota.count c.tenant = 0) :
    Accurate ((forget c ref 0).exec serve s).2 := by
  obtain ⟨t, htouched, hcell, hexec⟩ := exec_forget_of_spared 0 hs h
  have hbytes : 0 ≤ s.quota.bytes c.tenant := by
    rw [hs.bytes]
    exact Int.natCast_nonneg _
  have hquota : (serve { s with stores := t } (.recordDelete c.tenant 0)).2.quota = s.quota := by
    have hrecord : (serve { s with stores := t } (.recordDelete c.tenant 0)).2.quota
        = if s.faulty s.quota.pg then s.quota else s.quota.recordDelete c.tenant 0 := rfl
    rw [hrecord, recordDelete_nothing hbytes hcount, ite_self]
  rw [hexec]
  refine hs.of_no_object htouched hnone ?_ hquota
  change (t.cell c.tenant ref).final = none
  rw [hcell]
  rfl

end Forget

/-- A look at the object comes first. -/
theorem exec_handleDelete (c : Claims) (ref : GoString) (s : State) :
    (handleDelete c ref).exec serve s
      = (forget c ref (match ((Gateway.head (ε := BodyError) c.tenant ref).exec Gateway.serve s.stores).1 with
          | .ok info => info.size
          | .error _ => 0)).exec serve
        { s with stores := ((Gateway.head (ε := BodyError) c.tenant ref).exec Gateway.serve s.stores).2 } := by
  unfold handleDelete
  rw [exec_bind, exec_viaGateway]
  rfl

theorem accurate_handleDelete (hs : Accurate s)
    (h : DeleteAccounted c ref s) : Accurate ((handleDelete c ref).exec serve s).2 := by
  have hcells := head_cell (ε := BodyError) s.stores c.tenant ref
  have hshift := head_faultAt (ε := BodyError) s.stores c.tenant ref
  have hfresh := (head_sound (ε := BodyError) c.tenant ref).exec hs.fresh
  rw [exec_handleDelete]
  obtain ⟨found, t, hhead⟩ : ∃ found t,
      (Gateway.head (ε := BodyError) c.tenant ref).exec Gateway.serve s.stores = (found, t) := ⟨_, _, rfl⟩
  rw [hhead] at hcells hshift hfresh ⊢
  -- the look changes nothing, so that the deletion is one in the same state
  have hcell : t.cell c.tenant ref = s.stores.cell c.tenant ref := congrFun (congrFun hcells _) _
  have hs₁ : Accurate { s with stores := t } :=
    hs.of_cell_eq hfresh (fun d r => congrFun (congrFun hcells d) r) rfl
  have hsnaps : t.snaps c.tenant ref = s.stores.snaps c.tenant ref := congrArg Cell.snaps hcell
  have hobject : t.object c.tenant ref = s.stores.object c.tenant ref := congrArg Cell.object hcell
  have hspared : ∀ n, t.Spared 0 n ↔ s.stores.Spared (s.stores.headCalls c.tenant ref) n :=
    fun n => spared_shift hshift
  by_cases hversions : t.Spared 0 ((t.snaps c.tenant ref).length + 1)
  swap
  · refine accurate_forget_of_fault _ hs₁ (fun hall => hversions fun i hi => ?_) (.inr hversions)
    exact hall i (Nat.lt_succ_of_lt hi)
  have haccounted := h ((hspared _).mp (hsnaps ▸ hversions))
  cases hthere : s.stores.object c.tenant ref with
  | some o =>
    obtain ⟨content, row⟩ := o
    simp only [hthere, Option.isSome_some, if_true] at haccounted
    obtain ⟨hlooked, hdeleted, hlost⟩ := haccounted
    have hfound : found = .ok row :=
      congrArg Prod.fst (hhead.symm.trans (head_of_spared hlooked hthere))
    rw [hfound]
    refine accurate_forget_of_object _ hs₁ (hobject.trans hthere) rfl ?_ hlost
    rw [hspared, hsnaps]
    exact hdeleted
  | none =>
    simp only [hthere, Option.isSome_none, Bool.false_eq_true, if_false] at haccounted
    have hnone : t.object c.tenant ref = none := hobject.trans hthere
    by_cases hdeleted : t.Spared 0 ((t.snaps c.tenant ref).length + 2)
    swap
    · exact accurate_forget_of_fault _ hs₁ hdeleted (.inl hnone)
    have hcount : s.quota.count c.tenant = 0 := by
      refine haccounted.resolve_left fun hrow => ?_
      have hfault := hdeleted _ (Nat.lt_succ_self _)
      rw [Nat.zero_add, hshift, hsnaps, hrow] at hfault
      cases hfault
    obtain ⟨e, hfound⟩ := head_of_not_final (ε := BodyError) (hs.final_of_no_object hthere)
    rw [hhead] at hfound
    rw [hfound]
    exact accurate_forget_of_nothing hs₁ hnone hdeleted hcount

/-! ### The other routes -/

/-- A part of a request that ends with its operation of the gateway. -/
theorem orDeny_state {α β : Type} {x : Gateway.GwProg (Except (Gateway.GwError BodyError) α)}
    {f : α → EdgeProg (Except Denial β)} (hf : ∀ a s, ((f a).exec serve s).2 = s) (s : State) :
    ((orDeny x f).exec serve s).2 = { s with stores := (x.exec Gateway.serve s.stores).2 } := by
  obtain ⟨result, t, hexec⟩ : ∃ result t, x.exec Gateway.serve s.stores = (result, t) := ⟨_, _, rfl⟩
  cases result with
  | error e => rw [exec_orDeny_of_error hexec, hexec]
  | ok a => rw [exec_orDeny_of_ok hexec, hexec, hf]

/-- A look at an object changes nothing. -/
theorem accurate_of_reads {α : Type} {x : Gateway.GwProg α} (hsound : Gateway.Sound x)
    (hreads : x.Only fun call => call.writes = none) (hs : Accurate s) :
    Accurate { s with stores := (x.exec Gateway.serve s.stores).2 } := by
  have hcell : ∀ d r, (x.exec Gateway.serve s.stores).2.cell d r = s.stores.cell d r := fun d r =>
    cell_exec_of_only (hreads.mono fun call hcall o ho => by rw [hcall] at ho; cases ho) s.stores
  exact hs.of_cell_eq (hsound.exec hs.fresh) hcell rfl

/-- **When the begin of an upload is accounted for.**  If its row is written, it does not replace an object. -/
def StageAccounted (c : Claims) (ref : GoString) (s : State) : Prop :=
  ¬ (c.contentType ≠ [] ∧ !contentTypeAllowed cfg c.contentType) →
    (serve s (.authorize c.tenant (ceiling cfg c))).1 = true → s.stores.Spared 0 2 →
      s.stores.object c.tenant (s.stores.mintedRef ref) = none

/-- The row of a new upload is not final. -/
theorem accurate_mintRef (opts : Gateway.MintOptions) (hs : Accurate s)
    (h : s.stores.Spared 0 2 → s.stores.object tenant (s.stores.mintedRef ref) = none) :
    Accurate { s with stores := ((Gateway.mintRefWithOptions (ε := BodyError) tenant ref opts).exec Gateway.serve
      s.stores).2 } := by
  have hfresh := (mintRefWithOptions_sound (ε := BodyError) tenant ref opts).exec hs.fresh
  by_cases hspared : s.stores.Spared 0 2
  · obtain ⟨t, now, hexec, hcell, hoff⟩ := mintRefWithOptions_of_spared (ε := BodyError)
      tenant ref opts hspared
    rw [hexec] at hfresh ⊢
    refine hs.of_no_object ⟨hfresh, hoff⟩ (h hspared) ?_ rfl
    change (t.cell tenant (s.stores.mintedRef ref)).final = none
    rw [hcell]
    exact final_of_pending rfl rfl
  · obtain ⟨t, hexec, hcell⟩ := mintRefWithOptions_of_fault (ε := BodyError) tenant ref opts
      hspared
    rw [hexec] at hfresh ⊢
    exact hs.of_cell_eq hfresh (fun d r => congrFun (congrFun hcell d) r) rfl

theorem accurate_stage {cfg : Config} (hs : Accurate s)
    (h : StageAccounted cfg c ref s) : Accurate ((stage cfg c ref).exec serve s).2 := by
  unfold stage
  by_cases hallowed : c.contentType ≠ [] ∧ !contentTypeAllowed cfg c.contentType
  · rw [if_pos hallowed]
    exact hs
  rw [if_neg hallowed, exec_bind, exec_perform]
  have hs₁ : Accurate (serve s (.authorize c.tenant (ceiling cfg c))).2 := hs.of_unchanged ⟨rfl, rfl, rfl⟩
  cases hquota : (serve s (.authorize c.tenant (ceiling cfg c))).1 with
  | false => exact hs₁
  | true =>
    rw [if_pos rfl, orDeny_state fun _ _ => rfl]
    exact accurate_mintRef _ hs₁ (h hallowed hquota)

/-! ### Runs -/

/-- Nothing goes wrong with a request whose capability is accepted. -/
def Accounted (r : Request) (c : Claims) (s : State) : Prop :=
  match r.route with
  | .get | .head => True
  | .put => PutAccounted cfg r c s
  | .delete => DeleteAccounted c r.ref s
  | .stage => StageAccounted cfg c r.ref s
  | .finalize => FinalizeAccounted cfg c r.ref s

/-- Nothing goes wrong with an event. -/
def Event.Accounted (s : State) : Event → Prop
  | .request r => ∀ c s', (verifyRequest cfg r).exec serve s = (.ok c, s') → Edge.Accounted cfg r c s'
  | _ => True

theorem accurate_handle {cfg : Config} (hs : Accurate s)
    (h : Accounted cfg r c s) : Accurate ((handle cfg r c).exec serve s).2 := by
  unfold handle
  unfold Accounted at h
  cases hroute : r.route with
  | get =>
    dsimp only
    unfold handleGet
    rw [orDeny_state fun got s => by split <;> rfl]
    exact accurate_of_reads (get_sound ..) (get_only rfl rfl) hs
  | head =>
    dsimp only
    unfold handleHead
    rw [orDeny_state fun info s => by split <;> rfl]
    exact accurate_of_reads (head_sound ..) (head_only rfl rfl) hs
  | put => exact accurate_handlePut hs (by rw [hroute] at h; exact h)
  | delete => exact accurate_handleDelete hs (by rw [hroute] at h; exact h)
  | stage => exact accurate_stage hs (by rw [hroute] at h; exact h)
  | finalize => exact accurate_finalize hs (by rw [hroute] at h; exact h)

theorem verifyRequest_unchanged (r : Request) (s : State) :
    Unchanged s ((verifyRequest cfg r).exec serve s).2 :=
  verifyRequest_of (compositional_keeps serve fun s' => Unchanged s s') cfg r
    (fun _ h => ⟨h.cell, h.minted, h.quota⟩) (fun _ _ h => ⟨h.cell, h.minted, h.quota⟩)
    (fun _ _ h => ⟨h.cell, h.minted, h.quota⟩) (fun _ _ h => ⟨h.cell, h.minted, h.quota⟩) s ⟨rfl, rfl, rfl⟩

/-- One event keeps the records accurate. -/
theorem Accurate.step {cfg : Config} {e : Event} (hs : Accurate s) (h : e.Accounted cfg s) :
    Accurate (step cfg s e) := by
  have hcomp := compositional_keeps serve fun s' => Unchanged s s'
  cases e with
  | request r =>
    have hverify := verifyRequest_unchanged cfg r s
    have haccounted : ∀ c s', (verifyRequest cfg r).exec serve s = (.ok c, s') → Edge.Accounted cfg r c s' := h
    change Accurate ((serveRequest cfg r).exec serve s).2
    obtain ⟨result, s', hexec⟩ : ∃ result s', (verifyRequest cfg r).exec serve s = (result, s') :=
      ⟨_, _, rfl⟩
    rw [hexec] at hverify
    cases result with
    | error d =>
      rw [exec_serveRequest_of_error hexec]
      exact hs.of_unchanged hverify
    | ok c =>
      rw [exec_serveRequest_of_ok hexec]
      exact accurate_handle (hs.of_unchanged hverify) (haccounted c s' hexec)
  | mint identity body newJTI =>
    exact hs.of_unchanged (mint_of hcomp cfg identity body newJTI
      (fun _ _ h => ⟨h.cell, h.minted, h.quota⟩) (fun _ h => ⟨h.cell, h.minted, h.quota⟩) s ⟨rfl, rfl, rfl⟩)
  | revoke identified body =>
    exact hs.of_unchanged (revoke_of hcomp identified body
      (fun _ _ _ h => ⟨h.cell, h.minted, h.quota⟩) s ⟨rfl, rfl, rfl⟩)
  | upload stagingKey content => exact hs.of_unchanged ⟨rfl, rfl, rfl⟩
  | prune => exact hs.of_unchanged ⟨rfl, rfl, rfl⟩
  | weather storeFaults faults ticks => exact hs.of_unchanged ⟨rfl, rfl, rfl⟩

/-- An edge that nobody has used. -/
def State.new (pg : Bool) (maxBytes maxObjects : Int) (revocation : Revocation) (faults : List Bool) : State :=
  ⟨.empty, ⟨pg, maxBytes, maxObjects, fun _ => 0, fun _ => 0⟩, revocation, faults⟩

theorem accurate_new (pg : Bool) (maxBytes maxObjects : Int) (revocation : Revocation) (faults : List Bool) :
    Accurate (State.new pg maxBytes maxObjects revocation faults) where
  fresh := fresh_empty
  whole _ _ := whole_of_not_final rfl
  bytes _ := rfl
  count _ := rfl

end MemoryLayer.Edge
