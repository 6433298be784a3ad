import MemoryLayer.Csi.MountManager

namespace MemoryLayer.Csi

open Runs

/-! # Holders

Which targets hold which domains, through relaunches, restarts and failures.  A mount that is found dead
is relaunched with the holders it had, but when the launch fails or cannot be recorded the holders are
forgotten, and at a restart a dead mount is dropped with its holders.

- `Holds`: the target is recorded as a holder of the domain.
- `Node.Recorded`: holders are recorded, and mounts are torn down only when they have none.
- `Event.Carries`: the event forgets no holders.
- `holders_recorded`: **holders stay recorded in every run of events that forget none.**
-/

/-- The target `h.2` is recorded as a holder of the domain `h.1`. -/
def Holds (domains : Domains) (h : String × String) : Prop :=
  ∃ mount, domains.lookup h.1 = some mount ∧ h.2 ∈ mount.refs

/-- Holders are recorded, in the manager when it is serving and in the state file; and mounts are torn down
    only when they have none. -/
structure Node.Recorded (s : Node) : Prop where
  known : s.up = true → ∀ h ∈ s.held, Holds s.domains h
  stored : ∀ h ∈ s.held, Holds s.state h
  unheld : ∀ torn ∈ s.tornDown, torn.2 = []

/-- **Events that forget no holders**: a dead mount that has holders is relaunched and recorded, and at a
    restart the mounts found dead, before a probe fails, have no holders. -/
def Event.Carries (s : Node) : Event → Bool
  | .acquire domain _ a => !s.up || (s.domains.lookup domain).isNone || a.probe ≠ some false
    || s.holders domain = [] || a.launch = .ready && a.persists
  | .restart loads order found _ => !loads
    || ((order.1 s.state.keys).takeWhile fun domain => (found domain).probe.isSome).all fun domain =>
      s.holders domain = [] || (found domain).probe ≠ some false
  | .release .. | .grace .. | .write .. | .upload .. | .die .. => true

/-! ### Holders of a domain -/

variable {s : Node} {domain target : String} {mount : DomainMount} {order : MapOrder}
  {linger persists : Bool} {found : String → Adoption} {h : String × String} {domains : Domains}
  {a : Acquisition} {t : Teardown}

theorem mem_holders :
    target ∈ s.holders domain ↔ (domain, target) ∈ s.held := by
  simp [Node.holders]

theorem ne_of_holders_nil (hnone : s.holders domain = []) :
    ∀ h ∈ s.held, h.1 ≠ domain := by
  rintro ⟨owner, target⟩ hh rfl
  have := mem_holders.mpr hh
  rw [hnone] at this
  exact absurd this List.not_mem_nil

/-- A domain whose holders are all recorded has none when none is recorded. -/
theorem holders_nil (hknown : ∀ h ∈ s.held, Holds s.domains h)
    (hnone : ∀ mount, s.domains.lookup domain = some mount → mount.refs = []) : s.holders domain = [] := by
  refine List.eq_nil_iff_forall_not_mem.mpr fun target htarget => ?_
  obtain ⟨mount, hlookup, href⟩ := hknown _ (mem_holders.mp htarget)
  rw [hnone mount hlookup] at href
  exact absurd href List.not_mem_nil

theorem holds_insert (hother : h.1 ≠ domain → Holds domains h) (hself : h.1 = domain → h.2 ∈ mount.refs) :
    Holds (domains.insert domain mount) h := by
  by_cases hdomain : h.1 = domain
  · exact ⟨mount, by rw [hdomain, AList.lookup_insert], hself hdomain⟩
  · obtain ⟨other, hlookup, href⟩ := hother hdomain
    exact ⟨other, by rw [AList.lookup_insert_ne hdomain]; exact hlookup, href⟩

theorem holds_erase (hne : h.1 ≠ domain) :
    Holds (domains.erase domain) h ↔ Holds domains h := by
  unfold Holds
  rw [AList.lookup_erase_ne hne]

/-! ### What the operations keep -/

theorem Node.Recorded.on (h : s.Recorded) (m : Machine) : (s.on m).Recorded :=
  ⟨h.known, h.stored, h.unheld⟩

/-- Mounts that nobody holds may be torn down for good. -/
theorem unheld_note (hunheld : ∀ torn ∈ s.tornDown, torn.2 = [])
    (hnone : s.holders domain = []) : ∀ torn ∈ (s.note domain).tornDown, torn.2 = [] := by
  intro torn htorn
  rcases List.mem_append.mp htorn with htorn | htorn
  · exact hunheld torn htorn
  · rw [List.mem_singleton.mp htorn]
    exact hnone

theorem Node.Recorded.note (h : s.Recorded) (hnone : s.holders domain = []) :
    (s.note domain).Recorded :=
  ⟨h.known, h.stored, unheld_note h.unheld hnone⟩

theorem Node.Recorded.insert (h : s.Recorded) (mount : DomainMount)
    (hrefs : ∀ target ∈ s.holders domain, target ∈ mount.refs) : (s.insert domain mount).Recorded := by
  refine ⟨fun hup holding hh => holds_insert (fun _ => h.known hup holding hh) ?_, h.stored, h.unheld⟩
  rintro rfl
  exact hrefs _ (mem_holders.mpr hh)

theorem Node.Recorded.erase (h : s.Recorded) (hnone : s.holders domain = []) :
    (s.erase domain).Recorded :=
  ⟨fun hup holding hh => (holds_erase (ne_of_holders_nil hnone holding hh)).mpr (h.known hup holding hh),
    h.stored, h.unheld⟩

theorem Node.Recorded.persistLocked (h : s.Recorded) (hup : s.up = true) (persists : Bool) :
    (s.persistLocked persists).Recorded := by
  unfold Node.persistLocked
  split
  · exact ⟨h.known, h.known hup, h.unheld⟩
  · exact h

/-- The mount is recorded, in the manager and in the state file, with the holders it had and the target. -/
theorem recorded_insert_grant (hothers : ∀ h ∈ s.held, h.1 ≠ domain → Holds s.domains h)
    (hunheld : ∀ torn ∈ s.tornDown, torn.2 = []) (hrefs : ∀ holder ∈ s.holders domain, holder ∈ mount.refs)
    (htarget : target ∈ mount.refs) :
    (((s.insert domain mount).persistLocked true).grant domain target).Recorded := by
  have hall : ∀ h ∈ (domain, target) :: s.held, Holds (s.domains.insert domain mount) h := by
    intro h hh
    rcases List.mem_cons.mp hh with rfl | hheld
    · exact holds_insert (fun hne => absurd rfl hne) fun _ => htarget
    · refine holds_insert (hothers h hheld) ?_
      rintro rfl
      exact hrefs _ (mem_holders.mpr hheld)
  exact ⟨fun _ => hall, hall, hunheld⟩

theorem recorded_install (h : s.Recorded) (hup : s.up = true)
    (htarget : target ∈ mount.refs)
    (hnone : s.holders domain = []) : (install s domain target mount a).Recorded := by
  have hrefs : ∀ holder ∈ s.holders domain, holder ∈ mount.refs := by
    rw [hnone]
    exact fun holder hholder => absurd hholder List.not_mem_nil
  unfold install
  split
  · exact recorded_insert_grant (fun holding hh _ => h.known hup holding hh) h.unheld hrefs htarget
  · exact (((h.insert _ hrefs).note hnone).on _).erase hnone

theorem recorded_acquire (h : s.Recorded) (hup : s.up = true)
    (hcarries : (Event.acquire domain target a).Carries s = true) :
    (acquire s domain target a).Recorded := by
  have hknown := h.known hup
  unfold acquire
  cases hlookup : s.domains.lookup domain with
  | none =>
    -- a domain without a mount has no holders
    have hnone : s.holders domain = [] := holders_nil hknown fun mount hmount => by simp [hlookup] at hmount
    dsimp only
    cases startLocked s.machine domain a.launch with
    | mk pid m =>
      cases pid with
      | none =>
        refine Node.Recorded.on ?_ m
        split
        · exact h
        · exact h.note hnone
      | some pid => exact recorded_install (h.on m) hup (List.mem_singleton_self target) hnone
  | some mount =>
    have hrefs : ∀ holder ∈ s.holders domain, holder ∈ mount.refs.insert target := by
      intro holder hholder
      obtain ⟨found, hfound, href⟩ := hknown _ (mem_holders.mp hholder)
      rw [hlookup] at hfound
      cases hfound
      exact List.mem_insert_of_mem href
    dsimp only
    cases hprobe : a.probe with
    | none => exact h
    | some live =>
      cases live with
      | true =>
        dsimp only
        split
        · exact recorded_insert_grant (fun holding hh _ => hknown holding hh) h.unheld hrefs
            List.mem_insert_self
        · exact h.insert _ hrefs
      | false =>
        simp only [Event.Carries, hup, hlookup, hprobe, Bool.or_eq_true, Bool.and_eq_true, decide_eq_true_eq,
          Bool.not_true, Option.isNone_some, ne_eq, not_true_eq_false, decide_false, Bool.false_eq_true,
          or_self, false_or] at hcarries
        dsimp only
        rcases hcarries with hnone | ⟨hready, hpersists⟩
        · -- nobody holds the dead mount
          have hdropped := (h.on (teardownLocked s.machine domain mount.pid a.old).2).erase hnone
          cases startLocked _ domain a.launch with
          | mk pid m =>
            cases pid with
            | none => exact (hdropped.note hnone).on m
            | some pid => exact recorded_install (hdropped.on m) hup List.mem_insert_self hnone
        · -- the holders are carried over to the new mount
          rw [hready]
          unfold startLocked install
          dsimp only
          rw [if_pos hpersists]
          refine recorded_insert_grant (fun holding hh hne => ?_) h.unheld hrefs List.mem_insert_self
          exact (holds_erase hne).mpr (hknown holding hh)

/-- A mount that nobody holds may be torn down, and that changes nothing else. -/
theorem recorded_teardownIdle (h : s.Recorded) (hnone : s.holders domain = [])
    (mount : DomainMount) (t : Teardown) :
    (teardownIdle s domain mount t).2.Recorded ∧ (teardownIdle s domain mount t).2.up = s.up
      ∧ (teardownIdle s domain mount t).2.held = s.held := by
  unfold teardownIdle
  cases teardownLocked s.machine domain mount.pid t with
  | mk ok m =>
    cases ok with
    | false => exact ⟨(h.note hnone).on m, rfl, rfl⟩
    | true => exact ⟨((h.note hnone).on m).erase hnone, rfl, rfl⟩

theorem lookup_of_ownerLocked
    (howner : ownerLocked s target order = some (domain, mount)) : s.domains.lookup domain = some mount := by
  obtain ⟨owner, -, hfound⟩ := List.exists_of_findSome?_eq_some howner
  cases hlookup : s.domains.lookup owner with
  | none => simp [hlookup] at hfound
  | some found =>
    rw [hlookup] at hfound
    dsimp only at hfound
    split at hfound
    · cases hfound
      exact hlookup
    · cases hfound

theorem recorded_release (h : s.Recorded) (hup : s.up = true)
    :
    (release linger s target order t persists).Recorded := by
  unfold release
  dsimp only
  -- the target is no longer a holder, whatever comes of the release
  have hdropped : ({ s with held := s.held.filter fun h => h.2 ≠ target } : Node).Recorded :=
    ⟨fun hup holding hh => h.known hup holding (List.mem_of_mem_filter hh),
      fun holding hh => h.stored holding (List.mem_of_mem_filter hh), h.unheld⟩
  cases howner : ownerLocked { s with held := s.held.filter fun h => h.2 ≠ target } target order with
  | none => exact hdropped
  | some owned =>
    obtain ⟨domain, mount⟩ := owned
    dsimp only
    have hlookup := lookup_of_ownerLocked howner
    have hrefs : ∀ holder ∈ ({ s with held := s.held.filter fun h => h.2 ≠ target } : Node).holders domain,
        holder ∈ mount.refs.filter fun r => r ≠ target := by
      intro holder hholder
      obtain ⟨hheld, hne⟩ := List.mem_filter.mp (mem_holders.mp hholder)
      obtain ⟨found, hfound, href⟩ := h.known hup _ hheld
      rw [hlookup] at hfound
      cases hfound
      exact List.mem_filter.mpr ⟨href, hne⟩
    have hinserted := hdropped.insert ⟨mount.pid, mount.refs.filter fun r => r ≠ target⟩ hrefs
    split
    · exact hinserted.persistLocked hup persists
    · rename_i hlast
      rw [not_or, not_not] at hlast
      have hnone := List.eq_nil_iff_forall_not_mem.mpr fun holder hholder =>
        absurd (hlast.1 ▸ hrefs holder hholder) List.not_mem_nil
      obtain ⟨hrec, hup', hheld⟩ := recorded_teardownIdle hinserted hnone
        ⟨mount.pid, mount.refs.filter fun r => r ≠ target⟩ t
      cases hr : teardownIdle _ domain _ t with
      | mk ok s' =>
        rw [hr] at hrec hup' hheld
        cases ok with
        | false =>
          refine hrec.insert _ fun holder hholder => ?_
          rw [mem_holders, hheld, ← mem_holders] at hholder
          exact absurd (hnone ▸ hholder) List.not_mem_nil
        | true => exact hrec.persistLocked (hup'.trans hup) persists

theorem recorded_graceTeardown (h : s.Recorded) (hup : s.up = true)
    : (graceTeardown s domain t persists).Recorded := by
  unfold graceTeardown
  cases hlookup : s.domains.lookup domain with
  | none => exact h
  | some mount =>
    dsimp only
    split
    · exact h
    · rename_i hidle
      have hnone : s.holders domain = [] := by
        refine holders_nil (h.known hup) fun found hfound => ?_
        rw [hlookup] at hfound
        cases hfound
        exact not_not.mp hidle
      obtain ⟨hrec, hup', -⟩ := recorded_teardownIdle h hnone mount t
      cases hr : teardownIdle s domain mount t with
      | mk ok s' =>
        rw [hr] at hrec hup'
        cases ok with
        | false => exact hrec
        | true => exact hrec.persistLocked (hup'.trans hup) persists

/-! ### Restarts -/

/-- Taking over the domains changes neither the state file nor who holds what.  Mounts that are dropped
    have no holders, and when no probe fails the holders of the state file are known again. -/
structure Adopted (s s' : Node) (ok : Bool) (order : List String) : Prop where
  state : s'.state = s.state
  held : s'.held = s.held
  up : s'.up = s.up
  unheld : ∀ torn ∈ s'.tornDown, torn.2 = []
  known : ok = true → ∀ h ∈ s.held, Holds s.state h → (h.1 ∈ order ∨ Holds s.domains h) → Holds s'.domains h

theorem adopted_adoptAll (order : List String) :
    ∀ {s : Node}, (∀ torn ∈ s.tornDown, torn.2 = []) → (∀ domain ∈ order, domain ∈ s.state) →
      ((order.takeWhile fun domain => (found domain).probe.isSome).all fun domain =>
        s.holders domain = [] || (found domain).probe ≠ some false) = true →
      Adopted s (adoptAll found s order).2 (adoptAll found s order).1 order := by
  induction order with
  | nil =>
    intro s hunheld _ _
    exact ⟨rfl, rfl, rfl, hunheld, fun _ h _ _ hh => hh.resolve_left List.not_mem_nil⟩
  | cons domain rest ih =>
    intro s hunheld hkeys hdead
    obtain ⟨mount, hlookup⟩ := Option.isSome_iff_exists.mp (AList.lookup_isSome.mpr (hkeys domain List.mem_cons_self))
    have hrest : ∀ d ∈ rest, d ∈ s.state := fun d hd => hkeys d (List.mem_cons_of_mem _ hd)
    unfold adoptAll
    rw [hlookup]
    dsimp only
    cases hprobe : (found domain).probe with
    | none => exact ⟨rfl, rfl, rfl, hunheld, fun hok => absurd hok Bool.false_ne_true⟩
    | some live =>
      rw [List.takeWhile_cons, if_pos (by rw [hprobe]; rfl), List.all_cons, Bool.and_eq_true] at hdead
      cases live with
      | true =>
        have hrec := ih (s := s.insert domain mount) hunheld hrest hdead.2
        refine ⟨hrec.state, hrec.held, hrec.up, hrec.unheld, fun hok h hh hstored horder => ?_⟩
        refine hrec.known hok h hh hstored ?_
        by_cases hdomain : h.1 = domain
        · refine .inr (holds_insert (fun hne => absurd hdomain hne) fun _ => ?_)
          obtain ⟨found', hfound, href⟩ := hstored
          rw [hdomain, hlookup] at hfound
          cases hfound
          exact href
        · rcases horder with horder | hholds
          · exact .inl ((List.mem_cons.mp horder).resolve_left hdomain)
          · exact .inr (holds_insert (fun _ => hholds) fun heq => absurd heq hdomain)
      | false =>
        have hnone : s.holders domain = [] := by simpa [hprobe] using hdead.1
        have hrec := fun m => ih (s := (s.note domain).on m) (unheld_note hunheld hnone) hrest hdead.2
        refine ⟨(hrec _).state, (hrec _).held, (hrec _).up, (hrec _).unheld, fun hok h hh hstored horder => ?_⟩
        refine (hrec _).known hok h hh hstored (horder.imp_left fun hmem => ?_)
        exact (List.mem_cons.mp hmem).resolve_left (ne_of_holders_nil hnone h hh)

/-- A mount is torn down in the same way whether or not the manager is serving. -/
theorem teardownIdle_up (s : Node) (domain : String) (mount : DomainMount) (t : Teardown) (up : Bool) :
    (teardownIdle { s with up := up } domain mount t).2 = { (teardownIdle s domain mount t).2 with up := up } := by
  unfold teardownIdle
  dsimp only
  cases teardownLocked s.machine domain mount.pid t with
  | mk ok m => cases ok <;> rfl

theorem recorded_adoptIdle (linger : Bool) (found : String → Adoption) (order : List String) :
    ∀ {s : Node}, ({ s with up := true } : Node).Recorded →
      ({ adoptIdle linger found s order with up := true } : Node).Recorded
        ∧ (adoptIdle linger found s order).up = s.up := by
  induction order with
  | nil =>
    intro s h
    exact ⟨h, rfl⟩
  | cons domain rest ih =>
    intro s h
    unfold adoptIdle
    cases hlookup : s.domains.lookup domain with
    | none => exact ih h
    | some mount =>
      dsimp only
      by_cases hkeep : mount.refs ≠ [] ∨ linger = true
      · rw [if_pos hkeep]
        exact ih h
      · rw [if_neg hkeep]
        rw [not_or, not_not] at hkeep
        have hnone : s.holders domain = [] := by
          refine holders_nil (h.known rfl) fun found hfound => ?_
          rw [hlookup] at hfound
          cases hfound
          exact hkeep.1
        obtain ⟨hrec, -, -⟩ := recorded_teardownIdle h hnone mount (found domain).idle
        rw [teardownIdle_up] at hrec
        obtain ⟨hdone, hup⟩ := ih hrec
        refine ⟨hdone, hup.trans ?_⟩
        have hself := congrArg Node.up (teardownIdle_up s domain mount (found domain).idle s.up)
        exact hself

theorem recorded_adopt (h : s.Recorded) {loads : Bool}
    (hcarries : (Event.restart loads order found persists).Carries s = true) :
    (adopt linger s loads order found persists).Recorded := by
  unfold adopt
  unfold Event.Carries at hcarries
  dsimp only at hcarries ⊢
  cases loads with
  | false => exact ⟨fun hup => absurd hup Bool.false_ne_true, h.stored, h.unheld⟩
  | true =>
    rw [Bool.not_true, Bool.false_or] at hcarries
    rw [if_pos rfl]
    have hkeys : ∀ domain ∈ order.1 s.state.keys, domain ∈ s.state :=
      fun domain hdomain => AList.mem_keys.mpr ((order.2 s.state.keys).mem_iff.mp hdomain)
    have hall := adopted_adoptAll (s := { s with up := false, domains := ∅ }) _ h.unheld hkeys hcarries
    cases hr : adoptAll found { s with up := false, domains := ∅ } (order.1 s.state.keys) with
    | mk ok s' =>
      rw [hr] at hall
      have hstored : ∀ holding ∈ s'.held, Holds s'.state holding := by
        rw [hall.held, hall.state]
        exact h.stored
      cases ok with
      | false => exact ⟨fun hup => absurd (hall.up.symm.trans hup) Bool.false_ne_true, hstored, hall.unheld⟩
      | true =>
        dsimp only
        have hknown : ∀ holding ∈ s'.held, Holds s'.domains holding := by
          intro holding hh
          rw [hall.held] at hh
          obtain ⟨mount, hlookup, -⟩ := h.stored holding hh
          have hkey : holding.1 ∈ s.state := AList.lookup_isSome.mp (by rw [hlookup]; rfl)
          have horder := (order.2 s.state.keys).mem_iff.mpr (AList.mem_keys.mp hkey)
          exact hall.known rfl holding hh (h.stored holding hh) (.inl horder)
        have hready : ({ s' with up := true } : Node).Recorded := ⟨fun _ => hknown, hstored, hall.unheld⟩
        obtain ⟨hidle, hup⟩ := recorded_adoptIdle linger found (order.1 s'.domains.keys) hready
        split
        · exact hidle.persistLocked rfl true
        · exact ⟨fun hup' => absurd (hall.up.symm.trans (hup.symm.trans hup')) Bool.false_ne_true,
            hidle.stored, hidle.unheld⟩

/-! ### Runs -/

/-- **One event**: an event that forgets no holders keeps them recorded. -/
theorem recorded_step (h : s.Recorded) {e : Event} (hcarries : e.Carries s = true) :
    (s.step linger e).Recorded := by
  cases e with
  | acquire domain target a =>
    unfold Node.step
    dsimp only
    split
    · rename_i hup
      exact recorded_acquire h hup hcarries
    · exact h
  | release target order t persists =>
    unfold Node.step
    dsimp only
    split
    · rename_i hup
      exact recorded_release h hup
    · exact h
  | grace domain t persists =>
    unfold Node.step
    dsimp only
    split
    · rename_i hup
      exact recorded_graceTeardown h hup
    · exact h
  | restart loads order found persists => exact recorded_adopt h hcarries
  | write pid w => exact h.on _
  | upload pid w => exact h.on _
  | die pid => exact h.on _

theorem recorded_fresh : Node.fresh.Recorded :=
  ⟨fun _ _ hh => absurd hh List.not_mem_nil, fun _ hh => absurd hh List.not_mem_nil,
    fun _ htorn => absurd htorn List.not_mem_nil⟩

/-- **Holders stay recorded.** In every run of events that forget no holders, the targets that were told they
    hold a domain, and were not released since, are recorded as its holders; and a mount is torn down for
    good only when it has none. -/
theorem holders_recorded (linger : Bool) (events : List Event)
    (hcarries : Guarded (Node.step linger) (fun s e => e.Carries s = true) Node.fresh events) :
    (run (Node.step linger) Node.fresh events).Recorded :=
  invariant_of_guarded Node.Recorded (fun _ _ hrec hok => recorded_step hrec hok) recorded_fresh hcarries

/-- An acquisition in which the probe and the launch go in this way, and the rest goes well. -/
def launching (probe : Option Bool) (launch : Launch) : Acquisition :=
  ⟨probe, ⟨.exited true, true⟩, launch, true, ⟨.exited true, true⟩⟩

/-- A dead mount is relaunched, and the manager is restarted. -/
def carriedRun : List Event :=
  [.acquire "d" "t" (launching none .ready), .die 1, .acquire "d" "u" (launching (some false) .ready),
   .restart true .inserted (fun _ => ⟨some true, ⟨.exited true, true⟩, ⟨.exited true, true⟩⟩) true,
   .release "u" .inserted ⟨.exited true, true⟩ true]

theorem holders_recorded_carried : (run (Node.step false) Node.fresh carriedRun).Recorded :=
  holders_recorded false carriedRun (by decide)

/-- A dead mount is not relaunched, since there is no process. -/
def failedRelaunchRun : List Event :=
  [.acquire "d" "t" (launching none .ready), .die 1, .acquire "d" "u" (launching (some false) .failed)]

theorem holder_lost_in_relaunch :
    ("d", "t") ∈ (run (Node.step false) Node.fresh failedRelaunchRun).held
      ∧ (run (Node.step false) Node.fresh failedRelaunchRun).up = true
      ∧ (run (Node.step false) Node.fresh failedRelaunchRun).domains.lookup "d" = none
      ∧ (run (Node.step false) Node.fresh failedRelaunchRun).tornDown = [("d", ["t"])] := by
  decide

end MemoryLayer.Csi
