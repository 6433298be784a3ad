import Mathlib.Data.List.Induction
import Mathlib.Data.List.Sort

namespace Sinking

/-! # Insertion sort by swaps

A list is sorted in place, from the left: each element is swapped with its left neighbour as long as
that one has the larger key.  The part that is in order already is held in reverse, so that the
neighbour is its head.

* `sinkSort` — the sort;
* `sinkSort_eq` — it is the sort that inserts from the right, also where keys are equal.
-/

variable {α : Type*} {key : α → Nat}

/-- Sort by a key, by swaps. -/
def sinkSort (key : α → Nat) (l : List α) : List α :=
  (l.foldl (fun sorted x => sorted.orderedInsert (fun x y => ¬ key x < key y) x) []).reverse

/-- An element that goes behind its equals and one that goes before them do not get in each other's
    way. -/
theorem orderedInsert_comm (x y : α) (l : List α) :
    (l.orderedInsert (fun x y => key x ≤ key y) y).orderedInsert (fun x y => key x < key y) x
      = (l.orderedInsert (fun x y => key x < key y) x).orderedInsert (fun x y => key x ≤ key y) y := by
  induction l with
  | nil => grind
  | cons z l ih => grind

/-- In a sorted list the swaps stop right behind the last element that is not larger. -/
theorem orderedInsert_reverse (x : α) {l : List α} (h : l.Pairwise fun x y => key x ≤ key y) :
    (l.reverse.orderedInsert (fun x y => ¬ key x < key y) x).reverse
      = l.orderedInsert (fun x y => key x < key y) x := by
  induction l using List.reverseRecOn with
  | nil => rfl
  | append_singleton l z ih =>
    obtain ⟨hl, -, hz⟩ := List.pairwise_append.mp h
    rw [List.reverse_concat, List.orderedInsert_cons]
    by_cases hx : key x < key z
    · have hgo : (l ++ [z]).orderedInsert (fun x y => key x < key y) x
          = l.orderedInsert (fun x y => key x < key y) x ++ [z] := by
        clear * - hx
        induction l <;> grind
      rw [if_neg (by simpa using hx), List.reverse_cons, ih hl, hgo]
    · have hle : ∀ y ∈ l, key y ≤ key x := fun y hy =>
        (hz y hy z (List.mem_singleton_self z)).trans (Nat.not_lt.mp hx)
      have hstop : (l ++ [z]).orderedInsert (fun x y => key x < key y) x = l ++ [z] ++ [x] := by
        clear * - hx hle
        induction l <;> grind
      rw [if_pos hx, hstop]
      simp

/-- **Swaps and insertions.**  Both sorts keep elements of one key in their order. -/
theorem sinkSort_eq (l : List α) : sinkSort key l = l.insertionSort fun x y => key x ≤ key y := by
  have : Std.Total fun x y : α => key x ≤ key y := ⟨fun x y => Nat.le_total (key x) (key y)⟩
  have : IsTrans α fun x y => key x ≤ key y := ⟨fun _ _ _ => Nat.le_trans⟩
  -- the last element goes in behind those that come before it
  have hlast : ∀ (l : List α) x, (l ++ [x]).insertionSort (fun x y => key x ≤ key y)
      = (l.insertionSort fun x y => key x ≤ key y).orderedInsert (fun x y => key x < key y) x := by
    intro l x
    induction l with
    | nil => rfl
    | cons y l ih =>
      rw [List.cons_append, List.insertionSort_cons, ih, List.insertionSort_cons, orderedInsert_comm]
  induction l using List.reverseRecOn with
  | nil => rfl
  | append_singleton l x ih =>
    rw [hlast, ← orderedInsert_reverse x (List.pairwise_insertionSort _ l), ← ih]
    simp [sinkSort]

end Sinking
