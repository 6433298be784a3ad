import Mathlib.Logic.Relation
import Mathlib.Logic.Function.Basic

namespace Forest

open Relation

/-! # Parent pointers

A partial map `up : α → Option α` read as parent pointers, with a root.  Following the pointers
from an element must end: at the root, or at an element that has no pointer.

* `Above up x y` — `y` is reached from `x` by following pointers (`y` is `x` or an ancestor);
* `follow up k x` — the element reached after `k` pointers;
* `Grounded up r x` — following pointers from `x` ends;
* `grounded_set` — moving one element under a place it is not above keeps everything grounded;
* `grounded_erase` — so does removing an element;
* `not_above_of_set` — moving an element under a place it is above cuts it off from the root;
* `Grounded.above_root` — where no pointer dangles, everything grounded reaches the root.
-/

variable {α : Type*} {C : α → Prop} {q' : Option α}

/-- `y` is reached from `x` by following parent pointers. -/
def Above (up : α → Option α) : α → α → Prop := ReflTransGen fun x y => up x = some y

/-- Following parent pointers from an element ends at the root or at an element without one. -/
inductive Grounded (up : α → Option α) (r : α) : α → Prop
  | root : Grounded up r r
  | missing {x : α} (h : up x = none) : Grounded up r x
  | step {x p : α} (h : up x = some p) (hp : Grounded up r p) : Grounded up r x

variable {up : α → Option α} {r s x y p q : α}

theorem Above.refl (x : α) : Above up x x := ReflTransGen.refl

theorem Above.head (h : up x = some p) (hp : Above up p y) : Above up x y :=
  ReflTransGen.head h hp

/-- The first pointer on the way to another element is the only one there is. -/
theorem Above.tail_of_ne (h : Above up x y) (hne : x ≠ y) (hx : up x = some p) : Above up p y := by
  rcases ReflTransGen.cases_head h with rfl | ⟨c, hc, hcy⟩
  · exact absurd rfl hne
  · obtain rfl : c = p := Option.some.inj (hc.symm.trans hx)
    exact hcy

/-- The way up is the same for two maps that agree on it. -/
theorem Above.congr {up' : α → Option α} (h : Above up x y)
    (hagree : ∀ z, Above up x z → up' z = up z) : Above up' x y := by
  induction h using ReflTransGen.head_induction_on with
  | refl => exact Above.refl y
  | head hz hrest ih =>
    refine Above.head ((hagree _ (Above.refl _)).trans hz) (ih fun w hw => ?_)
    exact hagree w (Above.head hz hw)

/-- The element reached after `k` pointers. -/
def follow (up : α → Option α) : Nat → α → Option α
  | 0, x => some x
  | k + 1, x => (up x).bind (follow up k)

/-- The way up is finite. -/
theorem above_iff_follow : Above up x y ↔ ∃ k, follow up k x = some y := by
  constructor
  · intro h
    induction h using ReflTransGen.head_induction_on with
    | refl => exact ⟨0, rfl⟩
    | head hz _ ih =>
      obtain ⟨k, hk⟩ := ih
      exact ⟨k + 1, by rw [follow, hz, Option.bind_some, hk]⟩
  · rintro ⟨k, hk⟩
    induction k generalizing x with
    | zero => exact Option.some.inj hk ▸ Above.refl x
    | succ k ih =>
      obtain ⟨z, hz, hk⟩ := Option.bind_eq_some_iff.mp hk
      exact Above.head hz (ih hk)

/-- A set closed under pointers is not left on the way up. -/
theorem Above.closed (hC : ∀ z w, C z → up z = some w → C w) (h : Above up x y)
    (hx : C x) : C y := by
  induction h with
  | refl => exact hx
  | tail _ hstep ih => exact hC _ _ ih hstep

/-- A root that points to itself leads nowhere else. -/
theorem eq_of_above_root (hr : up r = some r) (h : Above up r y) : y = r := by
  induction h with
  | refl => rfl
  | tail _ hstep ih =>
    rw [ih, hr] at hstep
    exact (Option.some.inj hstep).symm

/-- Two elements cannot be above each other below the root. -/
theorem Grounded.not_cycle (hg : Grounded up r x) (hr : up r = some r) (hxy : Above up x y)
    (hy : up y = some x) : y = r := by
  induction hg generalizing y with
  | root => exact eq_of_above_root hr hxy
  | @missing x h =>
    rcases ReflTransGen.cases_head hxy with rfl | ⟨c, hc, -⟩
    · rw [h] at hy
      cases hy
    · rw [h] at hc
      cases hc
  | @step x p h hp ih =>
    by_cases hne : x = y
    · subst hne
      obtain rfl : p = x := Option.some.inj (h.symm.trans hy)
      exact ih (Above.refl p) h
    · -- the cycle through `x` is also a cycle through `p`
      have hpx : Above up p x := (Above.tail_of_ne hxy hne h).tail hy
      have hxr : x = r := ih hpx h
      subst hxr
      obtain rfl : p = x := Option.some.inj (h.symm.trans hr)
      exact ih (Above.tail_of_ne hxy hne h) hy

section Update

variable [DecidableEq α]

/-- The way up after the pointer of `s` changed is an old one, or passes `s`. -/
theorem above_of_set (h : Above (Function.update up s q') x y) :
    Above up x y ∨ Above up x s := by
  induction h using ReflTransGen.head_induction_on with
  | refl => exact .inl (Above.refl y)
  | @head z w hz _ ih =>
    by_cases hzs : z = s
    · exact .inr (hzs ▸ Above.refl z)
    · rw [Function.update_of_ne hzs] at hz
      exact ih.imp (Above.head hz) (Above.head hz)

/-- Without the pointer of `s` there are no new ways up. -/
theorem above_of_erase (h : Above (Function.update up s none) x y) : Above up x y := by
  refine ReflTransGen.mono (fun z w hz => ?_) _ _ h
  by_cases hzs : z = s
  · rw [hzs, Function.update_self] at hz
    cases hz
  · rwa [Function.update_of_ne hzs] at hz

/-- A way up that does not pass `s` stays when the pointer of `s` changes. -/
theorem Above.update (h : Above up x y) (hs : ¬ Above up x s) :
    Above (Function.update up s q') x y := by
  refine h.congr fun z hz => Function.update_of_ne ?_ ..
  rintro rfl
  exact hs hz

/-- **Moving an element.**  When `s` is not at or above `q`, giving it the parent `q` keeps
    everything grounded. -/
theorem grounded_set (hall : ∀ x, Grounded up r x) (hq : ¬ Above up q s) (x : α) :
    Grounded (Function.update up s (some q)) r x := by
  -- what is not below `s` keeps its way up
  have hkeep : ∀ z, Grounded up r z → ¬ Above up z s →
      Grounded (Function.update up s (some q)) r z := by
    intro z hz
    induction hz with
    | root => exact fun _ => .root
    | @missing z h =>
      intro hzs
      have hne : z ≠ s := fun h' => hzs (h' ▸ Above.refl z)
      exact .missing (by rw [Function.update_of_ne hne, h])
    | @step z p h _ ih =>
      intro hzs
      have hne : z ≠ s := fun h' => hzs (h' ▸ Above.refl z)
      exact .step (by rw [Function.update_of_ne hne, h]) (ih fun hps => hzs (Above.head h hps))
  have hs : Grounded (Function.update up s (some q)) r s :=
    .step (Function.update_self ..) (hkeep q (hall q) hq)
  -- what is below `s` leads to `s`
  induction hall x with
  | root => exact .root
  | @missing z h =>
    by_cases hz : z = s
    · exact hz ▸ hs
    · exact .missing (by rw [Function.update_of_ne hz, h])
  | @step z p h _ ih =>
    by_cases hz : z = s
    · exact hz ▸ hs
    · exact .step (by rw [Function.update_of_ne hz, h]) ih

/-- **Removing an element.**  What led through it now ends there. -/
theorem grounded_erase (hall : ∀ x, Grounded up r x) (x : α) :
    Grounded (Function.update up s none) r x := by
  induction hall x with
  | root => exact .root
  | @missing z h =>
    refine .missing ?_
    by_cases hz : z = s
    · rw [hz, Function.update_self]
    · rw [Function.update_of_ne hz, h]
  | @step z p h _ ih =>
    by_cases hz : z = s
    · exact .missing (by rw [hz, Function.update_self])
    · exact .step (by rw [Function.update_of_ne hz, h]) ih

/-- **Moving an element below itself.**  When `s` is at or above `q`, giving it the parent `q` cuts
    it off from the root. -/
theorem not_above_of_set (hr : up r = some r) (hsr : s ≠ r) (hq : Above up q s) :
    ¬ Above (Function.update up s (some q)) s r := by
  -- the way to `s` is not changed
  have hback : ∀ z, Above up z s → Above (Function.update up s (some q)) z s := by
    intro z hz
    induction hz using ReflTransGen.head_induction_on with
    | refl => exact Above.refl s
    | @head z w hz _ ih =>
      by_cases hzs : z = s
      · exact hzs ▸ Above.refl z
      · exact Above.head (by rw [Function.update_of_ne hzs, hz]) ih
  -- so every element reached from `s` leads back to `s`
  have hloop : ∀ y, Above (Function.update up s (some q)) s y →
      Above (Function.update up s (some q)) y s := by
    intro y hy
    induction hy with
    | refl => exact Above.refl s
    | @tail z w _ hz ih =>
      by_cases hzs : z = s
      · rw [hzs, Function.update_self] at hz
        exact Option.some.inj hz ▸ hback q hq
      · exact ih.tail_of_ne hzs hz
  intro hroot
  refine hsr (eq_of_above_root ?_ (hloop r hroot))
  rw [Function.update_of_ne hsr.symm, hr]

end Update

/-- **Reaching the root.**  From a set closed under pointers in which no pointer is missing,
    everything grounded reaches the root. -/
theorem Grounded.above_root (hC : ∀ z, C z → ∃ w, up z = some w ∧ C w)
    (hg : Grounded up r x) (hx : C x) : Above up x r := by
  induction hg with
  | root => exact Above.refl r
  | @missing z h =>
    obtain ⟨w, hw, -⟩ := hC z hx
    rw [h] at hw
    cases hw
  | @step z p h _ ih =>
    obtain ⟨w, hw, hCw⟩ := hC z hx
    obtain rfl : w = p := Option.some.inj (hw.symm.trans h)
    exact Above.head h (ih hCw)

end Forest
