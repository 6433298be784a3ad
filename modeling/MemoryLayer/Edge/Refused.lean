import MemoryLayer.Edge.Gate
import MemoryLayer.Gateway.Fresh
import MemoryLayer.Gateway.Outcomes

namespace MemoryLayer.Edge

open Calls Prog
open Gateway
open Local (GoString text)

/-! # Uploads that are refused

A PUT or a finalize that is answered with an error should leave the object as it was.  It does not always: the
hash of an upload is compared with that of the capability only when the upload has replaced the object.

- `exec_viaGateway`, `exec_orDeny_of_ok`, …: the parts of a request that go through the gateway.
- `PutHarmless`, `FinalizeHarmless`: when nothing goes wrong.
- `fresh_run`: the numbers of versions are distinct in every run.
- `refused_keeps_object_iff`: an upload that is refused leaves the object as it was, exactly then.
-/

/-! ### Operations of the gateway in a request -/

/-- The gateway's part of the state is all that its operations read and change. -/
theorem exec_viaGateway {α : Type} (x : Gateway.GwProg α) (s : State) :
    (viaGateway x).exec serve s
      = ((x.exec Gateway.serve s.stores).1, { s with stores := (x.exec Gateway.serve s.stores).2 }) :=
  exec_embed State.stores (fun s stores => { s with stores }) (fun _ _ => rfl) (fun _ _ _ => rfl)
    (fun _ => rfl) (fun _ _ => ⟨rfl, rfl⟩) x s

section OrDeny

variable {α β : Type} {x : Gateway.GwProg (Except (GwError BodyError) α)} {f : α → EdgeProg (Except Denial β)}
  {s : State} {t : Stores}

theorem exec_orDeny_of_error {e : GwError BodyError} (h : x.exec Gateway.serve s.stores = (.error e, t)) :
    (orDeny x f).exec serve s = (.error (gatewayDenial e), { s with stores := t }) := by
  unfold orDeny
  rw [exec_bind, exec_viaGateway, h]
  rfl

theorem exec_orDeny_of_ok {a : α} (h : x.exec Gateway.serve s.stores = (.ok a, t)) :
    (orDeny x f).exec serve s = (f a).exec serve { s with stores := t } := by
  unfold orDeny
  rw [exec_bind, exec_viaGateway, h]

end OrDeny

/-- The end of an upload: one whose hash is not that of the capability is deleted. -/
def checked (c : Claims) (ref : GoString) (info : ObjectInfo) (reply : Reply) : EdgeProg (Except Denial Reply) :=
  if boundTo c info then do
    let _ ← ask (.recordPut c.tenant info.size)
    pure (.ok reply)
  else do
    let _ ← viaGateway (Gateway.delete (ε := BodyError) c.tenant ref)
    deny 403 "content hash does not match capability"

variable {reply : Reply} {tenant ref : GoString} {s s' : State} {r : Request} {d : Denial} {cfg : Config}
  {c : Claims} {info : ObjectInfo}

theorem exec_checked_of_bound (h : boundTo c info = true) :
    (checked c ref info reply).exec serve s = (.ok reply, (serve s (.recordPut c.tenant info.size)).2) := by
  unfold checked
  rw [if_pos h]
  rfl

theorem exec_checked_of_not_bound (h : boundTo c info = false) :
    (checked c ref info reply).exec serve s
      = (.error ⟨403, "content hash does not match capability"⟩, { s with
          stores := ((Gateway.delete (ε := BodyError) c.tenant ref).exec Gateway.serve s.stores).2 }) := by
  unfold checked deny
  rw [if_neg (by rw [h]; exact Bool.false_ne_true), exec_bind, exec_viaGateway]
  rfl

/-- A call that is not about objects lets time pass in the stores. -/
theorem serve_stores {c : Call} (hc : c.isGateway = false) (s : State) : (serve s c).2.stores = s.stores.tick := by
  cases c with
  | gateway c => cases hc
  | _ => rfl

/-- What time does not change in the stores is the same after such calls. -/
theorem stores_of_only {α β : Type} {x : EdgeProg α} (hx : x.Only fun c => c.isGateway = false)
    (f : Stores → β) (hf : ∀ t, f t.tick = f t) (s : State) : f (x.exec serve s).2.stores = f s.stores := by
  induction x generalizing s with
  | ret a => rfl
  | call c k ih =>
    change f ((k (serve s c).1).exec serve (serve s c).2).2.stores = _
    rw [ih _ (hx.2 _), serve_stores hx.1, hf]

/-- If the answer is an error, the object is the one there was. -/
def Keeps (tenant ref : GoString) (s : State) (out : Except Denial Reply × State) : Prop :=
  ∀ d, Reply.ofExcept out.1 = .denied d → out.2.stores.object tenant ref = s.stores.object tenant ref

/-- An answer that is no error says nothing about the object. -/
theorem keeps_of_ok (hreply : ∀ d, reply ≠ .denied d) :
    Keeps tenant ref s (.ok reply, s') :=
  fun d hd => absurd hd (hreply d)

theorem keeps_error_iff :
    Keeps tenant ref s (.error d, s') ↔ s'.stores.object tenant ref = s.stores.object tenant ref :=
  ⟨fun h => h d rfl, fun h _ _ => h⟩

/-- The hash is not another one than that of the capability. -/
def Claims.binds (c : Claims) (hash : GoString) : Bool := c.contentHash = [] || hash = c.contentHash

/-- An upload has replaced the object.  If its hash is not the right one, this can be undone only if there was
    no object: as long as a version is left, its row is the new one. -/
theorem keeps_checked_iff {row : ObjectInfo} {t : State}
    {snaps : List Gateway.Snap} {snap : Gateway.Snap} (hreply : ∀ d, reply ≠ .denied d) (ht : t.stores.Fresh)
    (hcell : t.stores.cell c.tenant ref = ⟨some row, snaps ++ [snap]⟩) (hfinal : row.pending = false)
    (hne : ∀ content old, s.stores.object c.tenant ref = some (content, old) → old.version ≠ row.version) :
    Keeps c.tenant ref s ((checked c ref info reply).exec serve t)
      ↔ c.binds info.contentHash = true
        ∨ (s.stores.object c.tenant ref = none
          ∧ t.stores.Spared 0 ((t.stores.snaps c.tenant ref).length + 1)) := by
  cases hbound : boundTo c info with
  | true =>
    rw [exec_checked_of_bound hbound]
    exact iff_of_true (keeps_of_ok hreply) (.inl hbound)
  | false =>
    have hbinds : c.binds info.contentHash = false := hbound
    have hobject := object_delete (ε := BodyError) (ht.cells c.tenant ref).nodup
    have hlength : 0 < (t.stores.snaps c.tenant ref).length := by
      rw [length_snaps_of_append hcell]
      exact Nat.succ_pos _
    rw [exec_checked_of_not_bound hbound, keeps_error_iff, hbinds]
    refine (Eq.congr_left hobject).trans ?_
    simp only [Bool.false_eq_true, false_or]
    rw [← le_deleted_iff hlength]
    cases hold : s.stores.object c.tenant ref with
    | none =>
      simp only [true_and]
      exact object_without_eq_none_iff (by rw [hcell]; exact final_of_row rfl hfinal) _
    | some old =>
      refine iff_of_false (fun heq => ?_) fun h => by cases h.1
      obtain ⟨row', hrow', hversion⟩ := exists_row_of_object heq
      rw [hcell] at hrow'
      cases hrow'
      exact hne old.1 old.2 hold hversion.symm

/-! ### PUT -/

/-- A PUT passes what is checked before the upload. -/
structure Admitted (cfg : Config) (r : Request) (c : Claims) (s : State) : Prop where
  named : r.ref ≠ []
  matching : ¬ (c.contentType ≠ [] ∧ uploadType r ≠ c.contentType)
  allowed : contentTypeAllowed cfg (uploadType r) = true
  quota : (serve s (.authorize c.tenant (ceiling cfg c))).1 = true

/-- **When a PUT is harmless.**  The upload does not begin, or the version cannot be written; or the row cannot
    be written, and there is no object or one with these bytes and no metadata; or the hash is the right
    one; or there is no object, and the upload can be deleted again. -/
def PutHarmless (cfg : Config) (r : Request) (c : Claims) (s : State) : Prop :=
  Admitted cfg r c s → ∀ content, limitedBody (ceiling cfg c) r = .ok content → s.stores.faultAt 0 = false →
    if s.stores.faultAt 1 then
      ((s.stores.cell c.tenant r.ref).withBytes content).object = s.stores.object c.tenant r.ref
    else c.binds (cfg.sha256 content) = true
      ∨ (s.stores.object c.tenant r.ref = none ∧ s.stores.Spared 2 ((s.stores.snaps c.tenant r.ref).length + 2))

theorem exec_handlePut_of_admitted (h : Admitted cfg r c s) :
    (handlePut cfg c r).exec serve s
      = (orDeny (Gateway.put cfg.sha256 c.tenant r.ref (uploadType r) (limitedBody (ceiling cfg c) r))
          fun info => checked c r.ref info (.created info)).exec serve
        (serve s (.authorize c.tenant (ceiling cfg c))).2 := by
  unfold handlePut
  rw [if_neg h.matching, h.allowed, if_neg (by decide), exec_bind, exec_perform, h.quota]
  rfl

/-- Nothing is stored or recorded. -/
structure Unchanged (s s' : State) : Prop where
  cell : s'.stores.cell = s.stores.cell
  minted : s'.stores.minted = s.stores.minted
  quota : s'.quota = s.quota

/-- What is not admitted changes nothing. -/
theorem exec_handlePut_of_not_admitted
    (h : ¬ Admitted cfg r c s) : Unchanged s ((handlePut cfg c r).exec serve s).2 := by
  unfold handlePut
  by_cases hmatching : c.contentType ≠ [] ∧ uploadType r ≠ c.contentType
  · rw [if_pos hmatching]
    exact ⟨rfl, rfl, rfl⟩
  rw [if_neg hmatching]
  cases hallowed : contentTypeAllowed cfg (uploadType r) with
  | false => exact ⟨rfl, rfl, rfl⟩
  | true =>
    rw [if_neg (by decide), exec_bind, exec_perform]
    cases hquota : (serve s (.authorize c.tenant (ceiling cfg c))).1 with
    | false => exact ⟨rfl, rfl, rfl⟩
    | true =>
      have hnamed : r.ref = [] := not_not.mp fun hnamed => h ⟨hnamed, hmatching, hallowed, hquota⟩
      rw [if_pos rfl, hnamed, Gateway.put, exec_orDeny_of_error (putWithMeta_of_unnamed ..)]
      exact ⟨rfl, rfl, rfl⟩

/-- An object has an older number than what is published next. -/
theorem version_ne_minted {s : Stores} {domain content : GoString} (hs : s.Fresh)
    (hobject : s.object domain ref = some (content, info)) : info.version ≠ s.minted := by
  obtain ⟨row, hrow, hsame⟩ := exists_row_of_object hobject
  exact hsame ▸ ((hs.cells domain ref).row row hrow).ne

/-- The upload of a PUT, with a body that can be read. -/
theorem keeps_put_iff (cfg : Config) (c : Claims) (contentType content : GoString)
    (hs : s.stores.Fresh) (href : ref ≠ []) :
    Keeps c.tenant ref s ((orDeny (Gateway.put cfg.sha256 c.tenant ref contentType (.ok content))
        fun info => checked c ref info (.created info)).exec serve s)
      ↔ (s.stores.faultAt 0 = false →
        if s.stores.faultAt 1 then
          ((s.stores.cell c.tenant ref).withBytes content).object = s.stores.object c.tenant ref
        else c.binds (cfg.sha256 content) = true ∨ (s.stores.object c.tenant ref = none
          ∧ s.stores.Spared 2 ((s.stores.snaps c.tenant ref).length + 2))) := by
  cases hversion : s.stores.faultAt 0 with
  | true =>
    have hput := putWithMeta_of_fault (ε := BodyError) cfg.sha256 c.tenant contentType [] content
      href hversion
    rw [Gateway.put, exec_orDeny_of_error hput, keeps_error_iff]
    exact iff_of_true rfl nofun
  | false =>
    simp only [true_implies]
    cases hrow : s.stores.faultAt 1 with
    | true =>
      -- the row there was has the new bytes
      obtain ⟨t, hput, hcell⟩ := putWithMeta_of_rowFault (ε := BodyError) cfg.sha256 c.tenant
        contentType [] content href hversion hrow
      rw [Gateway.put, exec_orDeny_of_error hput, keeps_error_iff, if_pos rfl]
      have hobject : t.object c.tenant ref = ((s.stores.cell c.tenant ref).withBytes content).object := by
        rw [object_withBytes, Stores.object, hcell]
        exact object_append
      rw [hobject]
    | false =>
      have hspared : s.stores.Spared 0 2 := spared_two.mpr ⟨hversion, hrow⟩
      obtain ⟨t, now, hput, hcell, hfaults⟩ := putWithMeta_of_spared (ε := BodyError) cfg.sha256
        c.tenant contentType [] content href hspared
      have hfresh := (putWithMeta_sound (ε := BodyError) cfg.sha256 c.tenant ref contentType []
        (.ok content)).exec hs
      rw [hput] at hfresh
      rw [Gateway.put, exec_orDeny_of_ok hput, if_neg Bool.false_ne_true,
        keeps_checked_iff (by simp) hfresh hcell rfl fun _ _ hold => version_ne_minted hs hold,
        length_snaps_of_append hcell, spared_shift hfaults]
      rfl

/-- A PUT that is answered with an error leaves the object as it was, exactly when it is harmless. -/
theorem handlePut_keeps_iff (cfg : Config) (r : Request) (c : Claims) (s : State) (hs : s.stores.Fresh) :
    Keeps c.tenant r.ref s ((handlePut cfg c r).exec serve s) ↔ PutHarmless cfg r c s := by
  by_cases hadmitted : Admitted cfg r c s
  swap
  · refine iff_of_true (fun d _ => ?_) fun h => absurd h hadmitted
    unfold Stores.object
    rw [(exec_handlePut_of_not_admitted hadmitted).cell]
  rw [exec_handlePut_of_admitted hadmitted, PutHarmless, forall_prop_of_true hadmitted]
  -- admission only takes time
  have hs₁ : (serve s (.authorize c.tenant (ceiling cfg c))).2.stores.Fresh := ⟨hs.pos, hs.cells⟩
  cases hbody : limitedBody (ceiling cfg c) r with
  | error e =>
    rw [Gateway.put, exec_orDeny_of_error (putWithMeta_of_error _ _ _ _ hadmitted.named e),
      keeps_error_iff]
    exact iff_of_true rfl nofun
  | ok content =>
    refine (keeps_put_iff cfg c (uploadType r) content hs₁ hadmitted.named).trans ?_
    exact ⟨fun h content' heq => by cases heq; exact h, fun h => h content rfl⟩

/-! ### Finalize -/

/-- **When a finalize is harmless.**  The row cannot be read; or it is final, and its hash is the right one or
    the versions that a deletion leaves stand for the same object; or it is that of a staged upload, which
    cannot be published or has the right hash or can be deleted again. -/
def FinalizeHarmless (cfg : Config) (c : Claims) (ref : GoString) (s : Stores) : Prop :=
  s.faultAt 0 = false →
    (∀ info ∈ (s.cell c.tenant ref).final, c.binds info.contentHash = true
      ∨ ((s.cell c.tenant ref).without (s.deleted 1 (s.snaps c.tenant ref).length)).object
        = s.object c.tenant ref)
    ∧ ∀ info content, Ready cfg.sha256 s c.tenant ref info content →
      c.binds (cfg.sha256 content) = true ∨ s.Spared 5 ((s.snaps c.tenant ref).length + 2)

theorem finalize_eq : finalize cfg c ref
    = orDeny (Gateway.finalize cfg.sha256 c.tenant ref) fun info => checked c ref info (.info info) := rfl

/-- A row that is final already: only a deletion can change the object. -/
theorem keeps_finalize_of_final (hs : s.stores.Fresh) (hget : s.stores.faultAt 0 = false)
    (hrow : s.stores.row c.tenant ref = some info) (hfinal : info.pending = false) :
    Keeps c.tenant ref s ((finalize cfg c ref).exec serve s)
      ↔ c.binds info.contentHash = true
        ∨ ((s.stores.cell c.tenant ref).without
            (s.stores.deleted 1 (s.stores.snaps c.tenant ref).length)).object
          = s.stores.object c.tenant ref := by
  have hs₁ : s.stores.tick.settle.Fresh := ⟨hs.pos, hs.cells⟩
  rw [finalize_eq, exec_orDeny_of_ok (finalize_of_final hget hrow hfinal)]
  cases hbound : boundTo c info with
  | true =>
    rw [exec_checked_of_bound hbound]
    exact iff_of_true (keeps_of_ok (by simp)) (.inl hbound)
  | false =>
    have hbinds : c.binds info.contentHash = false := hbound
    have hobject := object_delete (ε := BodyError) (s := s.stores.tick.settle)
      (hs₁.cells c.tenant ref).nodup
    rw [Stores.deleted, spares_shift (faultAt_tick_settle _)] at hobject
    rw [exec_checked_of_not_bound hbound, keeps_error_iff, hbinds]
    refine (Eq.congr_left hobject).trans ?_
    simp only [Bool.false_eq_true, false_or]
    rfl

/-- The row of a staged upload: there is no object before. -/
theorem keeps_finalize_of_pending (hs : s.stores.Fresh) (hrow : s.stores.row c.tenant ref = some info)
    (hpending : info.pending = true) :
    Keeps c.tenant ref s ((finalize cfg c ref).exec serve s)
      ↔ ∀ content, Ready cfg.sha256 s.stores c.tenant ref info content →
        c.binds (cfg.sha256 content) = true ∨ s.stores.Spared 5 ((s.stores.snaps c.tenant ref).length + 2) := by
  have hnone : s.stores.object c.tenant ref = none :=
    object_of_not_final (final_of_pending hrow hpending)
  rw [finalize_eq]
  by_cases hready : ∃ content, Ready cfg.sha256 s.stores c.tenant ref info content
  · obtain ⟨content, hready⟩ := hready
    obtain ⟨t, now, hexec, hcell, hfaults⟩ := finalize_of_ready (ε := BodyError) hready
    have hfresh := (finalize_sound (ε := BodyError) cfg.sha256 c.tenant ref).exec hs
    rw [hexec] at hfresh
    rw [exec_orDeny_of_ok hexec, keeps_checked_iff (by simp) hfresh hcell rfl (by simp [hnone]),
      length_snaps_of_append hcell, spared_shift hfaults]
    simp only [hnone, true_and]
    refine ⟨fun h content' hready' => ?_, fun h => h content hready⟩
    -- what is staged is there only once
    cases hready.staged.symm.trans hready'.staged
    exact h
  · have hnot : ∀ content, ¬ Ready cfg.sha256 s.stores c.tenant ref info content :=
      fun content h => hready ⟨content, h⟩
    obtain ⟨e, t, hexec, hrow'⟩ := finalize_of_not_ready (ε := BodyError) hrow hpending hnot
    have hnone' : t.object c.tenant ref = none :=
      object_of_not_final (final_of_pending (hrow'.trans hrow) hpending)
    rw [exec_orDeny_of_error hexec, keeps_error_iff]
    exact iff_of_true (hnone'.trans hnone.symm) fun content h => absurd h (hnot content)

/-- A finalize that is answered with an error leaves the object as it was, exactly when it is harmless. -/
theorem finalize_keeps_iff (hs : s.stores.Fresh) :
    Keeps c.tenant ref s ((finalize cfg c ref).exec serve s) ↔ FinalizeHarmless cfg c ref s.stores := by
  cases hget : s.stores.faultAt 0 with
  | true =>
    rw [finalize_eq, exec_orDeny_of_error (finalize_of_fault hget), keeps_error_iff]
    exact iff_of_true rfl fun h => by rw [hget] at h; cases h
  | false =>
    rw [FinalizeHarmless, forall_prop_of_true hget]
    cases hrow : s.stores.row c.tenant ref with
    | none =>
      rw [finalize_eq, exec_orDeny_of_error (finalize_of_absent hget hrow), keeps_error_iff]
      refine iff_of_true rfl ⟨fun info hinfo => ?_, fun info content hready => ?_⟩
      · rw [Stores.cell, hrow] at hinfo
        cases hinfo
      · cases hrow.symm.trans hready.row
    | some info =>
      cases hpending : info.pending with
      | false =>
        have hfinal : (s.stores.cell c.tenant ref).final = some info := final_of_row hrow hpending
        rw [keeps_finalize_of_final hs hget hrow hpending, hfinal]
        refine ⟨fun h => ⟨fun info' hinfo => ?_, fun info' content hready => ?_⟩, fun h => h.1 info rfl⟩
        · cases hinfo
          exact h
        · cases hrow.symm.trans hready.row
          cases hpending.symm.trans hready.pending
      | true =>
        have hfinal : (s.stores.cell c.tenant ref).final = none := final_of_pending hrow hpending
        rw [keeps_finalize_of_pending hs hrow hpending, hfinal]
        refine ⟨fun h => ⟨by simp, fun info' content hready => ?_⟩,
          fun h content => h.2 info content⟩
        cases hrow.symm.trans hready.row
        exact h content hready

/-! ### Requests -/

theorem exec_serveRequest_of_error (h : (verifyRequest cfg r).exec serve s = (.error d, s')) :
    (serveRequest cfg r).exec serve s = (.denied d, s') := by
  unfold serveRequest orFail
  rw [exec_map, exec_bind, h]
  rfl

theorem exec_serveRequest_of_ok (h : (verifyRequest cfg r).exec serve s = (.ok c, s')) :
    (serveRequest cfg r).exec serve s
      = (Reply.ofExcept ((handle cfg r c).exec serve s').1, ((handle cfg r c).exec serve s').2) := by
  unfold serveRequest orFail
  rw [exec_map, exec_bind, h]

/-- Nothing goes wrong with an upload whose capability is accepted. -/
def Harmless (cfg : Config) (r : Request) (c : Claims) (s : State) : Prop :=
  match r.route with
  | .put => PutHarmless cfg r c s
  | .finalize => FinalizeHarmless cfg c r.ref s.stores
  | _ => True

theorem handle_keeps_iff (hs : s.stores.Fresh)
    (hroute : r.route = .put ∨ r.route = .finalize) :
    Keeps c.tenant r.ref s ((handle cfg r c).exec serve s) ↔ Harmless cfg r c s := by
  unfold handle Harmless
  rcases hroute with hroute | hroute
  · rw [hroute]
    exact handlePut_keeps_iff cfg r c s hs
  · rw [hroute]
    exact finalize_keeps_iff hs

/-- What a gateway's program keeps, is kept when the edge runs it. -/
theorem viaGateway_keeps {α : Type} {x : Gateway.GwProg α} (Inv : Stores → Prop)
    (hx : ∀ t, Inv t → Inv (x.exec Gateway.serve t).2) (s : State) (hs : Inv s.stores) :
    Inv ((viaGateway x).exec serve s).2.stores := by
  rw [exec_viaGateway]
  exact hx s.stores hs

/-- The routes leave other objects alone, if beginning an upload does. -/
theorem handle_cell_of_ne (hne : (tenant, ref) ≠ (c.tenant, r.ref))
    (hstage : ∀ opts, (Gateway.mintRefWithOptions (ε := BodyError) c.tenant r.ref opts).Only
      fun call => ∀ o ∈ call.writes, (tenant, ref) ≠ o) (s : State) :
    ((handle cfg r c).exec serve s).2.stores.cell tenant ref = s.stores.cell tenant ref := by
  have hkeep : ∀ {α : Type} {x : Gateway.GwProg α},
      (x.Only fun call => ∀ o ∈ call.writes, (tenant, ref) ≠ o) →
      ∀ s' : State, s'.stores.cell tenant ref = s.stores.cell tenant ref →
        ((viaGateway x).exec serve s').2.stores.cell tenant ref = s.stores.cell tenant ref := fun hx =>
    viaGateway_keeps (fun t => t.cell tenant ref = s.stores.cell tenant ref) fun t ht =>
      (cell_exec_of_only hx t).trans ht
  have hwithin : ∀ {α : Type} {x : Gateway.GwProg α}, x.Only (Gateway.Within c.tenant r.ref) →
      x.Only fun call => ∀ o ∈ call.writes, (tenant, ref) ≠ o := fun hx => hx.mono fun _ h => h.ne hne
  exact handle_of (compositional_keeps serve fun s' => s'.stores.cell tenant ref = s.stores.cell tenant ref)
    cfg r c (hkeep (hwithin (get_within ..))) (hkeep (hwithin (head_within ..)))
    (fun _ _ => hkeep (hwithin (putWithMeta_within ..))) (hkeep (hwithin (delete_within ..)))
    (fun opts => hkeep (hstage opts)) (hkeep (hwithin (finalize_within ..)))
    (fun _ _ hs => hs) (fun _ _ hs => hs) (fun _ _ hs => hs) s rfl

/-- The routes leave the objects of other tenants alone. -/
theorem handle_cell_of_tenant_ne (ref : GoString)
    (hne : tenant ≠ c.tenant) (s : State) :
    ((handle cfg r c).exec serve s).2.stores.cell tenant ref = s.stores.cell tenant ref := by
  refine handle_cell_of_ne (fun heq => hne (congrArg Prod.fst heq)) (fun opts => ?_) s
  refine (mintRefWithOptions_domain c.tenant r.ref opts).mono fun call hcall o ho heq => hne ?_
  rw [← hcall o ho, ← heq]

theorem verifyRequest_fresh (cfg : Config) (r : Request) (hs : s.stores.Fresh) :
    ((verifyRequest cfg r).exec serve s).2.stores.Fresh :=
  verifyRequest_of (compositional_keeps serve fun s => s.stores.Fresh) cfg r
    (fun _ hs => ⟨hs.pos, hs.cells⟩) (fun _ _ hs => ⟨hs.pos, hs.cells⟩) (fun _ _ hs => ⟨hs.pos, hs.cells⟩)
    (fun _ _ hs => ⟨hs.pos, hs.cells⟩) s hs

theorem handle_fresh (cfg : Config) (r : Request) (c : Claims) (hs : s.stores.Fresh) :
    ((handle cfg r c).exec serve s).2.stores.Fresh := by
  have htick : ∀ s : State, s.stores.Fresh → s.stores.tick.Fresh := fun _ hs => ⟨hs.pos, hs.cells⟩
  have hsound : ∀ {α : Type} {x : Gateway.GwProg α}, Gateway.Sound x →
      ∀ s : State, s.stores.Fresh → ((viaGateway x).exec serve s).2.stores.Fresh :=
    fun hx => viaGateway_keeps Stores.Fresh fun _ ht => hx.exec ht
  exact handle_of (compositional_keeps serve fun s => s.stores.Fresh) cfg r c
    (hsound (get_sound ..)) (hsound (head_sound ..))
    (fun _ _ => hsound (putWithMeta_sound ..)) (hsound (delete_sound ..))
    (fun _ => hsound (mintRefWithOptions_sound ..)) (hsound (finalize_sound ..))
    (fun _ => htick) (fun _ => htick) (fun _ => htick) s hs

/-- **Distinct numbers** are kept in every run of an edge. -/
theorem fresh_run (cfg : Config) (hs : s.stores.Fresh) (events : List Event) :
    (Runs.run (step cfg) s events).stores.Fresh := by
  refine Runs.invariant_of_step (fun s : State => s.stores.Fresh) (fun s e hs => ?_) hs events
  have htick : ∀ s : State, s.stores.Fresh → s.stores.tick.Fresh := fun _ hs => ⟨hs.pos, hs.cells⟩
  have hcomp := compositional_keeps serve fun s => s.stores.Fresh
  cases e with
  | request r =>
    exact serveRequest_of hcomp cfg r (fun s hs => verifyRequest_fresh cfg r hs)
      (fun c s hs => handle_fresh cfg r c hs) s hs
  | mint identity body newJTI => exact mint_of hcomp cfg identity body newJTI (fun _ => htick) htick s hs
  | revoke identified body => exact revoke_of hcomp identified body (fun _ _ => htick) s hs
  | upload stagingKey content => exact ⟨hs.pos, hs.cells⟩
  | prune => exact htick s hs
  | weather storeFaults faults ticks => exact ⟨hs.pos, hs.cells⟩

end MemoryLayer.Edge
