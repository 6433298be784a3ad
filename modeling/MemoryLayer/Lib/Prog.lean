import Mathlib.Data.List.Basic
import MemoryLayer.Lib.Runs

namespace Calls

/-! # Programs that call a service

A program is a tree of calls: what it does next depends on the answers.  A service answers a call and
moves on to its next state.  A program can be executed alone, be cut off after some calls, or run in
a pool with others, one call at a time.

- `Prog`: programs, with `Monad` structure.
- `fold`, `orFail`, `foldOrFail`: loops, and programs and loops that end when a part fails.
- `exec`, `cut`: execution alone, to the end or for some calls.
- `Only`: all calls of a program, whatever it is answered, are of some kind.
- `Compositional`: properties of programs that hold of what is put together from programs with them.
- `Reaches`: where a program can get to while others call the service as well.
- `Rules`, `Meets`: obligations on the calls of a program, given what it has done so far.
- `Along`: what holds before every call of an execution.
- `Meets.exec`, `Meets.exec_along`, `Meets.cut_along`: what holds after the execution of a program
  that meets its obligations.
- `Pool`, `Pool.invariant_of_good`: programs that run against one service, one call at a time.
-/

variable {C δ D : Type} {A : C → Type} {S G E α β γ : Type} {xs : List γ} {B : D → Type} {ι : C → D}
  {back : ∀ c, B (ι c) → A c} {a : α} {b : β}

/-- A program over the calls `C`, where a call `c` is answered in `A c`. -/
inductive Prog (A : C → Type) (α : Type) : Type where
  | ret (a : α)
  | call (c : C) (k : A c → Prog A α)

namespace Prog

/-- Run one program after another. -/
protected def bind : Prog A α → (α → Prog A β) → Prog A β
  | .ret a, f => f a
  | .call c k, f => .call c fun a => (k a).bind f

instance : Monad (Prog A) where
  pure := Prog.ret
  bind := Prog.bind

/-- A single call. -/
def perform (c : C) : Prog A (A c) := .call c .ret

/-- Run one program after another, unless the first one fails. -/
def orFail {ε : Type} (x : Prog A (Except ε α)) (f : α → Prog A (Except ε β)) :
    Prog A (Except ε β) :=
  x >>= fun
    | .ok a => f a
    | .error e => pure (.error e)

/-- A loop that ends when one round fails. -/
def foldOrFail {ε : Type} (f : β → γ → Prog A (Except ε β)) : List γ → β → Prog A (Except ε β)
  | [], b => pure (.ok b)
  | x :: xs, b => (f b x).orFail (foldOrFail f xs)

/-- A loop. -/
def fold (f : β → γ → Prog A β) : List γ → β → Prog A β
  | [], b => pure b
  | x :: xs, b => f b x >>= fold f xs

/-- A program on a service that is part of a larger one: `ι` finds its calls there, and `back` reads the
    answers. -/
def embed {D : Type} {B : D → Type} (ι : C → D) (back : ∀ c, B (ι c) → A c) : Prog A α → Prog B α
  | .ret a => .ret a
  | .call c k => .call (ι c) fun b => (k (back c b)).embed ι back

theorem bind_assoc (x : Prog A α) (f : α → Prog A β) (g : β → Prog A γ) :
    (x >>= f) >>= g = x >>= fun a => f a >>= g := by
  change (x.bind f).bind g = x.bind fun a => (f a).bind g
  induction x with
  | ret a => rfl
  | call c k ih => exact congrArg (Prog.call c) (funext ih)

variable {ε : Type} {g : G} {x : Prog A α} {Q : G → α → Prop} {good : S → C → Prop} {s : S}
  {R : G → S → Prop} {F : G → ε → Prop} {f : α → Prog A β}

theorem orFail_assoc (x : Prog A (Except ε α)) (f : α → Prog A (Except ε β))
    (g : β → Prog A (Except ε γ)) : (x.orFail f).orFail g = x.orFail fun a => (f a).orFail g := by
  unfold orFail
  rw [bind_assoc]
  congr 1
  funext r
  cases r <;> rfl

/-- A loop over two lists is one loop after the other. -/
theorem foldOrFail_append (f : β → γ → Prog A (Except ε β)) (xs ys : List γ) (b : β) :
    foldOrFail f (xs ++ ys) b = (foldOrFail f xs b).orFail (foldOrFail f ys) := by
  induction xs generalizing b with
  | nil => rfl
  | cons x xs ih =>
    rw [List.cons_append, foldOrFail, foldOrFail, orFail_assoc]
    congr 1
    funext b
    exact ih b

theorem foldOrFail_map (f : β → δ → Prog A (Except ε β)) (g : γ → δ) (xs : List γ)
    (b : β) : foldOrFail f (xs.map g) b = foldOrFail (fun b x => f b (g x)) xs b := by
  induction xs generalizing b with
  | nil => rfl
  | cons x xs ih =>
    rw [List.map_cons, foldOrFail, foldOrFail]
    congr 1
    funext b
    exact ih b

/-- A loop of loops is one loop. -/
theorem foldOrFail_flatMap (f : β → δ → Prog A (Except ε β)) (g : γ → List δ)
    (xs : List γ) (b : β) :
    foldOrFail (fun b x => foldOrFail f (g x) b) xs b = foldOrFail f (xs.flatMap g) b := by
  induction xs generalizing b with
  | nil => rfl
  | cons x xs ih =>
    rw [List.flatMap_cons, foldOrFail_append, foldOrFail]
    congr 1
    funext b
    exact ih b

/-! ### Execution alone -/

/-- Execute a program, with nobody else calling. -/
def exec (serve : S → (c : C) → A c × S) : Prog A α → S → α × S
  | .ret a, s => (a, s)
  | .call c k, s => (k (serve s c).1).exec serve (serve s c).2

/-- The state after at most `n` calls of a program. -/
def cut (serve : S → (c : C) → A c × S) : Nat → Prog A α → S → S
  | 0, _, s => s
  | _ + 1, .ret _, s => s
  | n + 1, .call c k, s => (k (serve s c).1).cut serve n (serve s c).2

@[simp] theorem exec_pure (serve : S → (c : C) → A c × S) (a : α) (s : S) :
    (pure a : Prog A α).exec serve s = (a, s) := rfl

@[simp] theorem exec_perform (serve : S → (c : C) → A c × S) (c : C) (s : S) :
    (perform c : Prog A (A c)).exec serve s = serve s c := rfl

/-- The second program runs on the state the first one left. -/
@[simp] theorem exec_bind (serve : S → (c : C) → A c × S) (x : Prog A α) (f : α → Prog A β) (s : S) :
    (x >>= f).exec serve s = (f (x.exec serve s).1).exec serve (x.exec serve s).2 := by
  change (x.bind f).exec serve s = _
  induction x generalizing s with
  | ret a => rfl
  | call c k ih => exact ih _ _

/-- **Parts of a service.**  A program on a part of a service is executed there, and leaves the rest as it
    is. -/
theorem exec_embed {T : Type}
    {serve : S → (c : C) → A c × S} {serve' : T → (d : D) → B d × T} (part : T → S)
    (replace : T → S → T) (hpart : ∀ t s, part (replace t s) = s)
    (hreplace : ∀ t s s', replace (replace t s) s' = replace t s') (hself : ∀ t, replace t (part t) = t)
    (hserve : ∀ t c, back c (serve' t (ι c)).1 = (serve (part t) c).1
      ∧ (serve' t (ι c)).2 = replace t (serve (part t) c).2) (x : Prog A α) (t : T) :
    (x.embed ι back).exec serve' t = ((x.exec serve (part t)).1, replace t (x.exec serve (part t)).2) := by
  induction x generalizing t with
  | ret a => rw [embed, exec, exec, hself]
  | call c k ih =>
    obtain ⟨hanswer, hstate⟩ := hserve t c
    rw [embed, exec, ih, exec, hanswer, hstate, hpart, hreplace]

@[simp] theorem exec_map (serve : S → (c : C) → A c × S) (f : α → β) (x : Prog A α) (s : S) :
    (f <$> x).exec serve s = (f (x.exec serve s).1, (x.exec serve s).2) :=
  exec_bind serve x (pure ∘ f) s

/-! ### Kinds of calls -/

/-- Whatever the program is answered, its calls are among `P`. -/
def Only (P : C → Prop) : Prog A α → Prop
  | .ret _ => True
  | .call c k => P c ∧ ∀ a, (k a).Only P

section Only

variable {P : C → Prop}

@[simp] theorem only_pure (a : α) : (pure a : Prog A α).Only P := trivial

@[simp] theorem only_perform {c : C} : (perform c : Prog A (A c)).Only P ↔ P c :=
  ⟨fun h => h.1, fun h => ⟨h, fun _ => trivial⟩⟩

theorem only_of_forall (h : ∀ c, P c) (x : Prog A α) : x.Only P := by
  induction x with
  | ret a => trivial
  | call c k ih => exact ⟨h c, ih⟩

theorem Only.mono {Q : C → Prop} (hx : x.Only P) (h : ∀ c, P c → Q c) : x.Only Q := by
  induction x with
  | ret a => trivial
  | call c k ih => exact ⟨h c hx.1, fun a => ih a (hx.2 a)⟩

theorem Only.bind (hx : x.Only P) (hf : ∀ a, (f a).Only P) :
    (x >>= f).Only P := by
  change (x.bind f).Only P
  induction x with
  | ret a => exact hf a
  | call c k ih => exact ⟨hx.1, fun a => ih a (hx.2 a)⟩

theorem Only.ask {c : C} {k : A c → Prog A α} (hc : P c) (hk : ∀ a, (k a).Only P) : (perform c >>= k).Only P :=
  ⟨hc, hk⟩

theorem Only.orFail {x : Prog A (Except ε α)} {f : α → Prog A (Except ε β)} (hx : x.Only P)
    (hf : ∀ a, (f a).Only P) : (x.orFail f).Only P := by
  refine hx.bind fun r => ?_
  cases r with
  | ok a => exact hf a
  | error e => trivial

theorem Only.foldOrFail {f : β → γ → Prog A (Except ε β)} (hf : ∀ b x, (f b x).Only P)
    (xs : List γ) (b : β) : (foldOrFail f xs b).Only P := by
  induction xs generalizing b with
  | nil => trivial
  | cons x xs ih => exact (hf b x).orFail ih

theorem Only.embed {P : D → Prop}
    (hx : x.Only fun c => P (ι c)) : (x.embed ι back).Only P := by
  induction x with
  | ret a => trivial
  | call c k ih => exact ⟨hx.1, fun b => ih _ (hx.2 _)⟩

end Only

/-- A property of programs that holds of what is put together from programs with it. -/
structure Compositional (Φ : ∀ {α : Type}, Prog A α → Prop) : Prop where
  ret : ∀ {α : Type} (a : α), Φ (pure a : Prog A α)
  bind : ∀ {α β : Type} {x : Prog A α} {f : α → Prog A β}, Φ x → (∀ a, Φ (f a)) → Φ (x >>= f)

theorem compositional_only (P : C → Prop) : Compositional fun {α : Type} (x : Prog A α) => x.Only P where
  ret _ := trivial
  bind hx hf := hx.bind hf

/-- To keep an invariant is such a property. -/
theorem compositional_keeps (serve : S → (c : C) → A c × S) (Inv : S → Prop) :
    Compositional fun {α : Type} (x : Prog A α) => ∀ s, Inv s → Inv (x.exec serve s).2 where
  ret _ _ hs := hs
  bind hx hf s hs := by
    rw [exec_bind]
    exact hf _ _ (hx s hs)

/-! ### Execution among others -/

/-- The program gets from `x` to `y` by the calls of the log, each made in the state beside it.  Between two
    calls the state can change in any way. -/
inductive Reaches (serve : S → (c : C) → A c × S) : Prog A α → List (S × C) → Prog A α → Prop where
  | here (x : Prog A α) : Reaches serve x [] x
  | call {c : C} {k : A c → Prog A α} {s : S} {log : List (S × C)} {y : Prog A α}
      (h : Reaches serve (k (serve s c).1) log y) : Reaches serve (.call c k) ((s, c) :: log) y

section Reaches

variable {serve : S → (c : C) → A c × S} {log : List (S × C)} {c : C} {k : A c → Prog A β}

/-- A program that has ended made its first call in some state. -/
theorem Reaches.of_perform {f : A c → Prog A α} (h : Reaches serve (perform c >>= f) log (.ret a)) :
    ∃ s rest, log = (s, c) :: rest ∧ Reaches serve (f (serve s c).1) rest (.ret a) := by
  change Reaches serve (.call c f) log (.ret a) at h
  cases h with
  | call h => exact ⟨_, _, rfl, h⟩

/-- A program that has ended has got no further. -/
theorem Reaches.of_ret {b : α} (h : Reaches serve (.ret a : Prog A α) log (.ret b)) : a = b := by
  cases h
  rfl

/-- The next call of two programs in sequence is one of the first, or the first has ended. -/
theorem Reaches.of_bind (h : Reaches serve (x >>= f) log (.call c k)) :
    (∃ k' : A c → Prog A α, Reaches serve x log (.call c k'))
      ∨ ∃ before after a, log = before ++ after ∧ Reaches serve x before (.ret a)
        ∧ Reaches serve (f a) after (.call c k) := by
  change Reaches serve (x.bind f) log (.call c k) at h
  induction x generalizing log with
  | ret a => exact .inr ⟨[], log, a, rfl, .here _, h⟩
  | call d next ih =>
    cases h with
    | here => exact .inl ⟨next, .here _⟩
    | call h =>
      rcases ih _ h with ⟨k', hk⟩ | ⟨before, after, a, rfl, hx, hf⟩
      · exact .inl ⟨k', .call hk⟩
      · exact .inr ⟨_ :: before, after, a, rfl, .call hx, hf⟩

theorem Only.of_reaches {P : C → Prop} {x : Prog A β} (hx : x.Only P)
    (h : Reaches serve x log (.call c k)) : P c := by
  induction x generalizing log with
  | ret a => cases h
  | call d next ih =>
    cases h with
    | here => exact hx.1
    | call h => exact ih _ (hx.2 _) h

end Reaches

/-! ### Obligations -/

/-- What a program may count on and what it owes, given a record of type `G` of what it has done:
    the answers that a call can get, the calls that it may make, and the record afterwards. -/
structure Rules (A : C → Type) (G : Type) where
  allows : G → (c : C) → A c → Prop
  ok : G → C → Prop
  next : G → (c : C) → A c → G

/-- Whatever allowed answers the program gets, it makes its calls when it may, and ends with `Q`. -/
def Meets (rules : Rules A G) : Prog A α → G → (G → α → Prop) → Prop
  | .ret a, g, Q => Q g a
  | .call c k, g, Q =>
    rules.ok g c ∧ ∀ a, rules.allows g c a → (k a).Meets rules (rules.next g c a) Q

variable {rules : Rules A G}

@[simp] theorem meets_pure :
    (pure a : Prog A α).Meets rules g Q ↔ Q g a := Iff.rfl

@[simp] theorem meets_perform {c : C} {Q : G → A c → Prop} :
    (perform c : Prog A (A c)).Meets rules g Q
      ↔ rules.ok g c ∧ ∀ a, rules.allows g c a → Q (rules.next g c a) a := Iff.rfl

/-- **Sequencing.**  The second program starts with the record the first one left. -/
@[simp] theorem meets_bind {Q : G → β → Prop} :
    (x >>= f).Meets rules g Q ↔ x.Meets rules g fun g a => (f a).Meets rules g Q := by
  change (x.bind f).Meets rules g Q ↔ _
  induction x generalizing g with
  | ret a => exact Iff.rfl
  | call c k ih => exact and_congr_right fun _ => forall_congr' fun a => imp_congr_right fun _ => ih a

/-- One call, and what follows its answer. -/
theorem Meets.ask {c : C} {k : A c → Prog A α} (hc : rules.ok g c)
    (hk : ∀ a, rules.allows g c a → (k a).Meets rules (rules.next g c a) Q) :
    (perform c >>= k).Meets rules g Q :=
  meets_bind.mpr ⟨hc, hk⟩

theorem Meets.mono {R : G → α → Prop} (h : x.Meets rules g Q)
    (hQR : ∀ g a, Q g a → R g a) : x.Meets rules g R := by
  induction x generalizing g with
  | ret a => exact hQR g a h
  | call c k ih => exact ⟨h.1, fun a ha => ih a (h.2 a ha)⟩

/-- A program meets other rules as well that allow fewer answers, with what is known of the record. -/
theorem Meets.refine {rules' : Rules A G} (Inv : G → Prop) (hnext : rules'.next = rules.next)
    (hallows : ∀ g c a, Inv g → rules'.allows g c a → rules.allows g c a ∧ Inv (rules.next g c a))
    (hok : ∀ g c, Inv g → rules.ok g c → rules'.ok g c) (h : x.Meets rules g Q) (hg : Inv g) :
    x.Meets rules' g fun g a => Inv g ∧ Q g a := by
  induction x generalizing g with
  | ret a => exact ⟨hg, h⟩
  | call c k ih =>
    refine ⟨hok g c hg h.1, fun a ha => ?_⟩
    obtain ⟨hallowed, hg'⟩ := hallows g c a hg ha
    rw [hnext]
    exact ih a (h.2 a hallowed) hg'

/-- A program that may fail ends with `Q`, or fails with `F`. -/
def Ends {ε : Type} (Q : G → α → Prop) (F : G → ε → Prop) (g : G) : Except ε α → Prop
  | .ok a => Q g a
  | .error e => F g e

/-- Sequencing, where a failure of the first program is one of the whole. -/
theorem Meets.orFail {x : Prog A (Except ε α)} {f : α → Prog A (Except ε β)}
    {R : G → β → Prop} (hx : x.Meets rules g (Ends Q F))
    (hf : ∀ g a, Q g a → (f a).Meets rules g (Ends R F)) :
    (x.orFail f).Meets rules g (Ends R F) := by
  rw [Prog.orFail, meets_bind]
  refine hx.mono fun g r hr => ?_
  cases r with
  | ok a => exact hf g a hr
  | error e => exact hr

theorem Meets.ends {x : Prog A (Except ε α)} {R : G → α → Prop}
    (h : x.Meets rules g (Ends Q F)) (hQR : ∀ g a, Q g a → R g a) : x.Meets rules g (Ends R F) := by
  refine h.mono fun g r hr => ?_
  cases r with
  | ok a => exact hQR g a hr
  | error e => exact hr

/-- **The loop rule.**  An invariant that says how much of the list is done. -/
theorem Meets.foldOrFail {f : β → γ → Prog A (Except ε β)} {R : G → β → Prop}
    (Inv : List γ → List γ → G → β → Prop)
    (hstep : ∀ done x todo g b, Inv done (x :: todo) g b →
      (f b x).Meets rules g (Ends (fun g b => Inv (done ++ [x]) todo g b) F))
    (hstart : Inv [] xs g b) (hend : ∀ g b, Inv xs [] g b → R g b) :
    (foldOrFail f xs b).Meets rules g (Ends R F) := by
  have hloop : ∀ todo done g b, done ++ todo = xs → Inv done todo g b →
      (Prog.foldOrFail f todo b).Meets rules g (Ends R F) := by
    intro todo
    induction todo with
    | nil =>
      intro done g b hxs h
      rw [List.append_nil] at hxs
      exact hend g b (hxs ▸ h)
    | cons x todo ih =>
      intro done g b hxs h
      refine (hstep done x todo g b h).orFail fun g b hb => ih (done ++ [x]) g b ?_ hb
      rw [List.append_assoc]
      exact hxs
  exact hloop xs [] g b rfl hstart

/-- The loop rule, for an invariant that does not depend on how much is done. -/
theorem Meets.fold {f : β → γ → Prog A β} (Inv : G → β → Prop)
    (hstep : ∀ x ∈ xs, ∀ g b, Inv g b → (f b x).Meets rules g Inv) (h : Inv g b) :
    (fold f xs b).Meets rules g Inv := by
  induction xs generalizing g b with
  | nil => exact h
  | cons x xs ih =>
    rw [Prog.fold, meets_bind]
    refine (hstep x (List.mem_cons_self ..) g b h).mono fun g b hb => ?_
    exact ih (fun y hy => hstep y (List.mem_cons_of_mem _ hy)) hb

variable {serve : S → (c : C) → A c × S}

/-- A service answers as the rules allow, and keeps a relation between record and state, as long as
    the calls are made in states that are good for them. -/
def ServesWhile (good : S → C → Prop) (rules : Rules A G) (serve : S → (c : C) → A c × S)
    (R : G → S → Prop) : Prop :=
  ∀ g s c, R g s → rules.ok g c → good s c →
    rules.allows g c (serve s c).1 ∧ R (rules.next g c (serve s c).1) (serve s c).2

/-- A service that does so for all calls. -/
def Serves (rules : Rules A G) (serve : S → (c : C) → A c × S) (R : G → S → Prop) : Prop :=
  ∀ g s c, R g s → rules.ok g c →
    rules.allows g c (serve s c).1 ∧ R (rules.next g c (serve s c).1) (serve s c).2

/-- Every call of an execution is made in a state that is good for it. -/
def Along (serve : S → (c : C) → A c × S) (good : S → C → Prop) : Prog A α → S → Prop
  | .ret _, _ => True
  | .call c k, s => good s c ∧ (k (serve s c).1).Along serve good (serve s c).2

instance decidableAlong (good : S → C → Prop) [∀ s c, Decidable (good s c)] :
    (x : Prog A α) → (s : S) → Decidable (x.Along serve good s)
  | .ret _, _ => isTrue trivial
  | .call c k, s => @instDecidableAnd _ _ _ (decidableAlong good (k (serve s c).1) (serve s c).2)

theorem along_of_forall (h : ∀ s c, good s c) (x : Prog A α) (s : S) :
    x.Along serve good s := by
  induction x generalizing s with
  | ret a => trivial
  | call c k ih => exact ⟨h s c, ih _ _⟩

theorem Only.along {P : C → Prop} (hx : x.Only P)
    (h : ∀ s c, P c → good s c) (s : S) : x.Along serve good s := by
  induction x generalizing s with
  | ret a => trivial
  | call c k ih => exact ⟨h s c hx.1, ih _ (hx.2 _) _⟩

/-- What good calls keep holds after an execution whose calls are all good. -/
theorem invariant_of_along (Inv : S → Prop)
    (hstep : ∀ s c, Inv s → good s c → Inv (serve s c).2)
    (hgood : x.Along serve good s) (hs : Inv s) : Inv (x.exec serve s).2 := by
  induction x generalizing s with
  | ret a => exact hs
  | call c k ih => exact ih _ hgood.2 (hstep s c hs hgood.1)

/-- **Execution.**  A program that meets its obligations ends in a state that fits its record. -/
theorem Meets.exec_along (hserve : ServesWhile good rules serve R)
    (h : x.Meets rules g Q) (hgood : x.Along serve good s) (hR : R g s) :
    ∃ g', R g' (x.exec serve s).2 ∧ Q g' (x.exec serve s).1 := by
  induction x generalizing g s with
  | ret a => exact ⟨g, hR, h⟩
  | call c k ih =>
    obtain ⟨ha, hR'⟩ := hserve g s c hR h.1 hgood.1
    exact ih _ (h.2 _ ha) hgood.2 hR'

/-- **Interruption.**  Wherever the program is cut off, the state fits its record there. -/
theorem Meets.cut_along (hserve : ServesWhile good rules serve R)
    (h : x.Meets rules g Q) (hgood : x.Along serve good s) (hR : R g s) (n : Nat) :
    ∃ g', R g' (x.cut serve n s) := by
  induction n generalizing x g s with
  | zero => exact ⟨g, hR⟩
  | succ n ih =>
    cases x with
    | ret a => exact ⟨g, hR⟩
    | call c k =>
      obtain ⟨ha, hR'⟩ := hserve g s c hR h.1 hgood.1
      exact ih (h.2 _ ha) hgood.2 hR'

/-- Execution with a service for all calls. -/
theorem Meets.exec (hserve : Serves rules serve R)
    (h : x.Meets rules g Q) (hR : R g s) :
    ∃ g', R g' (x.exec serve s).2 ∧ Q g' (x.exec serve s).1 :=
  h.exec_along (fun g s c hR hok _ => hserve g s c hR hok)
    (along_of_forall (fun _ _ => trivial) x s) hR

end Prog

/-! ### Programs in a pool -/

/-- A program in a pool, with the calls it has made and their answers. -/
structure Thread (A : C → Type) (α : Type) where
  log : List ((c : C) × A c)
  prog : Prog A α

/-- A service and the programs that call it. -/
structure Pool (S : Type) (A : C → Type) (α : Type) where
  state : S
  threads : List (Thread A α)

/-- What can happen in a pool: a program joins, one makes its next call, or the environment acts. -/
inductive Action (A : C → Type) (α E : Type) where
  | start (p : Prog A α)
  | next (i : Nat)
  | other (e : E)

namespace Pool

/-- One step of a pool; a program that has ended makes no more calls. -/
def step (serve : S → (c : C) → A c × S) (env : S → E → S) (σ : Pool S A α) :
    Action A α E → Pool S A α
  | .start p => { σ with threads := σ.threads ++ [⟨[], p⟩] }
  | .next i =>
    match σ.threads[i]? with
    | some ⟨log, .call c k⟩ =>
      ⟨(serve σ.state c).2,
        σ.threads.set i ⟨log ++ [⟨c, (serve σ.state c).1⟩], k (serve σ.state c).1⟩⟩
    | _ => σ
  | .other e => { σ with state := env σ.state e }

/-- The call that a program makes next. -/
def pending (σ : Pool S A α) (i : Nat) : Option C :=
  match σ.threads[i]? with
  | some ⟨_, .call c _⟩ => some c
  | _ => none

/-- A call is made, or the environment acts, in a state that is good for it. -/
def Good (good : S → C → Prop) (fits : S → E → Prop) (σ : Pool S A α) : Action A α E → Prop
  | .start _ => True
  | .next i => ∀ c ∈ σ.pending i, good σ.state c
  | .other e => fits σ.state e

instance (good : S → C → Prop) (fits : S → E → Prop) [∀ s c, Decidable (good s c)]
    [∀ s e, Decidable (fits s e)] (σ : Pool S A α) : ∀ a, Decidable (Good good fits σ a)
  | .start _ => .isTrue trivial
  | .next i => inferInstanceAs (Decidable (∀ c ∈ σ.pending i, good σ.state c))
  | .other e => inferInstanceAs (Decidable (fits σ.state e))

/-- **Pools.**  What good calls and a fitting environment keep, holds of the service in every run of a
    pool where there is nothing else. -/
theorem invariant_of_good {serve : S → (c : C) → A c × S} {env : S → E → S} {good : S → C → Prop}
    {fits : S → E → Prop} (Inv : S → Prop) (hcall : ∀ s c, Inv s → good s c → Inv (serve s c).2)
    (henv : ∀ s e, Inv s → fits s e → Inv (env s e)) {σ : Pool S A α} (hσ : Inv σ.state)
    {actions : List (Action A α E)}
    (hgood : Runs.Guarded (step serve env) (Good good fits) σ actions) :
    Inv (Runs.run (step serve env) σ actions).state := by
  refine Runs.invariant_of_guarded (fun σ : Pool S A α => Inv σ.state) (fun σ a hσ ha => ?_) hσ hgood
  cases a with
  | start p => exact hσ
  | other e => exact henv _ e hσ ha
  | next i =>
    unfold step
    dsimp only
    split
    · rename_i log c k hthread
      exact hcall _ c hσ (ha c (by rw [pending, hthread]; rfl))
    · exact hσ

end Pool

end Calls
