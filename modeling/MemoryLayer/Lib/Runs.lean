import Mathlib.Logic.Relation

namespace Runs

/-! # Runs of a transition system

General facts about systems that take one step after another.  A system is a step function
`step : S → A → S` that is total: a step that does not apply leaves the state alone.

- `run`: the state after a list of actions.
- `Guarded`: every action of a run meets a condition on the state it starts in.
- `invariant_of_step`: the invariant rule, from one step to a whole run.
- `invariant_of_guarded`: the same rule when a step keeps the invariant only under its condition.
- `answers`, `answers_eq_of_simulation`: systems whose steps answer, and two that answer alike.
- `observed`, `observed_eq_answers`: what an observer is answered among others, and alone.
-/

variable {S A : Type*}

/-- The state after the actions `as`, taken one after another from `s`. -/
def run (step : S → A → S) (s : S) : List A → S
  | [] => s
  | a :: as => run step (step s a) as

@[simp] theorem run_nil (step : S → A → S) (s : S) : run step s [] = s := rfl

@[simp] theorem run_cons (step : S → A → S) (s : S) (a : A) (as : List A) :
    run step s (a :: as) = run step (step s a) as := rfl

theorem run_append (step : S → A → S) (s : S) (as bs : List A) :
    run step s (as ++ bs) = run step (run step s as) bs := by
  induction as generalizing s with
  | nil => rfl
  | cons a as ih => exact ih (step s a)

/-- Every action of the run meets `ok` in the state it starts in. -/
def Guarded (step : S → A → S) (ok : S → A → Prop) (s : S) : List A → Prop
  | [] => True
  | a :: as => ok s a ∧ Guarded step ok (step s a) as

/-- The condition of a run can be evaluated action by action. -/
instance decidableGuarded (step : S → A → S) (ok : S → A → Prop) [∀ s a, Decidable (ok s a)] :
    ∀ (s : S) (as : List A), Decidable (Guarded step ok s as)
  | _, [] => .isTrue trivial
  | s, a :: as =>
    have := decidableGuarded step ok (step s a) as
    inferInstanceAs (Decidable (ok s a ∧ Guarded step ok (step s a) as))

variable {step : S → A → S} {ok : S → A → Prop} {s : S} {as : List A}

/-- A run is guarded exactly when its beginning and its end are. -/
theorem guarded_append {bs : List A} :
    Guarded step ok s (as ++ bs) ↔ Guarded step ok s as ∧ Guarded step ok (run step s as) bs := by
  induction as generalizing s with
  | nil => simp [Guarded]
  | cons a as ih => simp only [List.cons_append, Guarded, run_cons, ih, and_assoc]

/-- A condition on actions alone. -/
theorem guarded_of_forall {ok : A → Prop} (h : ∀ a ∈ as, ok a) (s : S) :
    Guarded step (fun _ a => ok a) s as := by
  induction as generalizing s with
  | nil => trivial
  | cons a as ih => exact ⟨h a (List.mem_cons_self ..), ih (fun b hb => h b (List.mem_cons_of_mem _ hb)) _⟩

/-- **The guarded invariant rule.**  An invariant that one step keeps when the step meets `ok`
    holds after every run whose steps all meet `ok`. -/
theorem invariant_of_guarded (Inv : S → Prop)
    (hstep : ∀ s a, Inv s → ok s a → Inv (step s a)) (hs : Inv s)
    (hok : Guarded step ok s as) : Inv (run step s as) := by
  induction as generalizing s with
  | nil => exact hs
  | cons a as ih => exact ih (hstep s a hs hok.1) hok.2

/-- **The invariant rule.**  An invariant that every step keeps holds after every run. -/
theorem invariant_of_step (Inv : S → Prop)
    (hstep : ∀ s a, Inv s → Inv (step s a)) (hs : Inv s) (as : List A) :
    Inv (run step s as) := by
  induction as generalizing s with
  | nil => exact hs
  | cons a as ih => exact ih (hstep s a hs)

/-! ### Steps that answer -/

variable {T O : Type*}

/-- What the actions `as` are answered, taken one after another from `s`. -/
def answers (step : S → A → O × S) (s : S) : List A → List O
  | [] => []
  | a :: as => (step s a).1 :: answers step (step s a).2 as

/-- **Simulation.**  Two systems answer a run alike when a relation between their states makes them
    answer each step alike, and each step of the run, which may have to meet `ok`, keeps it. -/
theorem answers_eq_of_simulation {f : S → A → O × S} {g : T → A → O × T}
    (R : S → T → Prop)
    (hstep : ∀ s t a, R s t → ok s a → (f s a).1 = (g t a).1 ∧ R (f s a).2 (g t a).2) {t : T}
    (h : R s t) (hok : Guarded (fun s a => (f s a).2) ok s as) :
    answers f s as = answers g t as := by
  induction as generalizing s t with
  | nil => rfl
  | cons a as ih =>
    obtain ⟨hanswer, hnext⟩ := hstep s t a h hok.1
    rw [answers, answers, hanswer, ih hnext hok.2]

/-- What an observer is answered to its own actions, among those of others. -/
def observed (step : S → A → O × S) (mine : A → Bool) (s : S) : List A → List O
  | [] => []
  | a :: as =>
    if mine a then (step s a).1 :: observed step mine (step s a).2 as
    else observed step mine (step s a).2 as

/-- **Noninterference.**  A relation says that two states look alike to an observer.  If its own actions are
    answered alike and keep the relation, and those of others keep it without a counterpart, then the observer
    is answered as if the others had not been there. -/
theorem observed_eq_answers {step : S → A → O × S} {mine : A → Bool} (R : S → S → Prop)
    (hmine : ∀ s t a, R s t → mine a = true → ok s a →
      (step s a).1 = (step t a).1 ∧ R (step s a).2 (step t a).2)
    (hothers : ∀ s t a, R s t → mine a = false → ok s a → R (step s a).2 t) {t : S} (h : R s t)
    (hok : Guarded (fun s a => (step s a).2) ok s as) :
    observed step mine s as = answers step t (as.filter mine) := by
  induction as generalizing s t with
  | nil => rfl
  | cons a as ih =>
    cases ha : mine a with
    | true =>
      obtain ⟨hanswer, hnext⟩ := hmine s t a h ha hok.1
      rw [observed, if_pos ha, List.filter_cons_of_pos ha, answers, hanswer, ih hnext hok.2]
    | false =>
      have hnot : ¬ mine a = true := Bool.eq_false_iff.mp ha
      rw [observed, if_neg hnot, List.filter_cons_of_neg hnot, ih (hothers s t a h ha hok.1) hok.2]

end Runs
