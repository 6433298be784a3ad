import Mathlib.Data.List.Induction

namespace Layers

/-! # Layers

A list of layers, each covering some positions.  At a position the last layer that covers it shows.

* `top covers ls x` — the layer that shows at `x`;
* `top_append`, `top_map`, `top_filter` — what shows after layers were added, changed or removed.
-/

variable {α ι : Type*} (covers : α → ι → Bool)

/-- The last layer that covers a position. -/
def top (ls : List α) (x : ι) : Option α := ls.reverse.find? fun r => covers r x

variable {covers} {ls ls' : List α} {x : ι} {r : α}

@[simp] theorem top_nil : top covers [] x = none := rfl

/-- Newer layers come first. -/
theorem top_append : top covers (ls ++ ls') x = (top covers ls' x).or (top covers ls x) := by
  simp [top]

theorem top_concat : top covers (ls ++ [r]) x = if covers r x then some r else top covers ls x := by
  rw [top_append]
  cases h : covers r x <;> simp [top, h]

theorem top_eq_none : top covers ls x = none ↔ ∀ r ∈ ls, covers r x = false := by
  simp [top]

theorem top_mem (h : top covers ls x = some r) : r ∈ ls :=
  List.mem_reverse.mp (List.mem_of_find?_eq_some h)

theorem top_covers (h : top covers ls x = some r) : covers r x = true :=
  List.find?_some (p := fun r => covers r x) h

/-- Removing layers that do not cover a position changes nothing there. -/
theorem top_filter {p : α → Bool} (h : ∀ r ∈ ls, covers r x = true → p r = true) :
    top covers (ls.filter p) x = top covers ls x := by
  induction ls using List.reverseRecOn with
  | nil => rfl
  | append_singleton ls r ih =>
    have hls := ih fun r' hr' => h r' (List.mem_append_left _ hr')
    rw [List.filter_append, top_append, top_concat, hls]
    cases hr : covers r x with
    | true =>
      simp [h r (by simp) hr, top, hr]
    | false =>
      cases hp : p r <;> simp [hp, top, hr]

/-- Changing layers so that each covers a position as before changes what shows there alike. -/
theorem top_map {f : α → α} (h : ∀ r ∈ ls, covers (f r) x = covers r x) :
    top covers (ls.map f) x = (top covers ls x).map f := by
  induction ls using List.reverseRecOn with
  | nil => rfl
  | append_singleton ls r ih =>
    rw [List.map_append, List.map_singleton, top_concat, top_concat, h r (by simp),
      ih fun r' hr' => h r' (List.mem_append_left _ hr')]
    split <;> rfl

end Layers
