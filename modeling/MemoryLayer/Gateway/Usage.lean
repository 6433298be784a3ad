import MemoryLayer.Gateway.Cell
import Mathlib.Algebra.Order.BigOperators.Group.Finset

namespace MemoryLayer.Gateway

open Local (GoString text)
open scoped BigOperators

/-! # What is stored in a domain

The number of objects of a domain and their size, as sums over the rows.

- `Cell.bytes`, `Cell.count`: what one ref stands for.
- `Cell.Whole`: a final row has a version, so that the object has the size of its row.
- `Stores.total`: the sum over a domain.
- `total_change`: how the sum changes with one ref.
-/

/-- The size of the object, or nothing. -/
def Cell.bytes (x : Cell) : ℕ :=
  match x.object with
  | none => 0
  | some (_, info) => info.size

/-- One for an object. -/
def Cell.count (x : Cell) : ℕ := if x.object.isSome then 1 else 0

/-- A sum over the refs of a domain. -/
def Stores.total (s : Stores) (f : Cell → ℕ) (domain : GoString) : ℕ :=
  ∑ ref ∈ (s.rows domain).keys.toFinset, f (s.cell domain ref)

/-- The size of all objects of a domain. -/
def Stores.bytes (s : Stores) (domain : GoString) : ℕ := s.total Cell.bytes domain

/-- The number of objects of a domain. -/
def Stores.count (s : Stores) (domain : GoString) : ℕ := s.total Cell.count domain

variable {x : Cell}

theorem object_of_no_row (h : x.row = none) : x.object = none :=
  object_of_not_final (by rw [Cell.final, h]; rfl)

theorem bytes_of_none (h : x.object = none) : x.bytes = 0 := by
  unfold Cell.bytes
  rw [h]

theorem count_of_none (h : x.object = none) : x.count = 0 := by
  unfold Cell.count
  rw [h]
  rfl

theorem bytes_of_some {content : GoString} {info : ObjectInfo} (h : x.object = some (content, info)) :
    x.bytes = info.size := by
  unfold Cell.bytes
  rw [h]

theorem count_of_some (h : x.object.isSome) : x.count = 1 := by
  unfold Cell.count
  rw [if_pos h]

theorem bytes_of_no_row (h : x.row = none) : x.bytes = 0 := bytes_of_none (object_of_no_row h)

theorem count_of_no_row (h : x.row = none) : x.count = 0 := count_of_none (object_of_no_row h)

/-- A final row has a version. -/
def Cell.Whole (x : Cell) : Prop := x.final.isSome → x.object.isSome

theorem whole_of_not_final (h : x.final = none) : x.Whole := by
  intro hsome
  rw [h] at hsome
  cases hsome

theorem whole_append {row : Option ObjectInfo} {snaps : List Snap} {snap : Snap} :
    Cell.Whole ⟨row, snaps ++ [snap]⟩ := by
  intro hsome
  rw [object_append, Option.isSome_map]
  exact hsome

/-- Then the size of the object is that of the row. -/
theorem Cell.Whole.bytes_eq (h : x.Whole) : x.bytes = (x.final.map ObjectInfo.size).getD 0 := by
  cases hfinal : x.final with
  | none => exact bytes_of_none (object_of_not_final hfinal)
  | some row =>
    obtain ⟨⟨content, info⟩, hobject⟩ := Option.isSome_iff_exists.mp (h (hfinal ▸ rfl))
    obtain ⟨row', snap, hfinal', -, -, rfl⟩ := object_eq_some_iff.mp hobject
    cases hfinal.symm.trans hfinal'
    rw [bytes_of_some hobject]
    rfl

theorem Cell.Whole.count_eq (h : x.Whole) : x.count = if x.final.isSome then 1 else 0 := by
  cases hfinal : x.final with
  | none => exact count_of_none (object_of_not_final hfinal)
  | some row => exact count_of_some (h (hfinal ▸ rfl))

/-- Two functions differ at one place, and each is zero outside of a set. -/
theorem sum_change {K : Type} [DecidableEq K] {f g : K → ℕ} {S T : Finset K} (k : K)
    (hoff : ∀ j, j ≠ k → g j = f j) (hS : ∀ j, j ∉ S → f j = 0) (hT : ∀ j, j ∉ T → g j = 0) :
    ∑ j ∈ T, g j + f k = ∑ j ∈ S, f j + g k := by
  -- both sums can be taken over the same set
  have hf : ∑ j ∈ S, f j = ∑ j ∈ insert k (S ∪ T), f j := by
    refine Finset.sum_subset (fun j hj => ?_) fun j _ hj => hS j hj
    exact Finset.mem_insert_of_mem (Finset.mem_union_left _ hj)
  have hg : ∑ j ∈ T, g j = ∑ j ∈ insert k (S ∪ T), g j := by
    refine Finset.sum_subset (fun j hj => ?_) fun j _ hj => hT j hj
    exact Finset.mem_insert_of_mem (Finset.mem_union_right _ hj)
  have hrest : ∑ j ∈ (insert k (S ∪ T)).erase k, g j = ∑ j ∈ (insert k (S ∪ T)).erase k, f j :=
    Finset.sum_congr rfl fun j hj => hoff j (Finset.ne_of_mem_erase hj)
  rw [hf, hg, ← Finset.add_sum_erase _ f (Finset.mem_insert_self k _),
    ← Finset.add_sum_erase _ g (Finset.mem_insert_self k _), hrest]
  omega

section Total

variable {s s' : Stores} {f : Cell → ℕ} {domain : GoString}

theorem zero_of_not_mem_keys (hf : ∀ x : Cell, x.row = none → f x = 0) (s : Stores) (ref : GoString)
    (h : ref ∉ (s.rows domain).keys.toFinset) : f (s.cell domain ref) = 0 := by
  refine hf _ ?_
  exact AList.lookup_eq_none.mpr fun hmem => h (List.mem_toFinset.mpr hmem)

/-- **Change of one ref.**  The sum changes by what the ref stands for. -/
theorem total_change (ref : GoString) (hf : ∀ x : Cell, x.row = none → f x = 0)
    (hoff : ∀ r, r ≠ ref → s'.cell domain r = s.cell domain r) :
    s'.total f domain + f (s.cell domain ref) = s.total f domain + f (s'.cell domain ref) :=
  sum_change ref (fun r hr => by rw [hoff r hr]) (zero_of_not_mem_keys hf s) (zero_of_not_mem_keys hf s')

/-- Nothing changes in a domain when none of its refs does. -/
theorem total_of_same (hf : ∀ x : Cell, x.row = none → f x = 0)
    (h : ∀ r, s'.cell domain r = s.cell domain r) : s'.total f domain = s.total f domain := by
  have hchange : s'.total f domain + f (s.cell domain []) = s.total f domain + f (s'.cell domain []) :=
    total_change [] hf fun r _ => h r
  rw [h []] at hchange
  omega

end Total

end MemoryLayer.Gateway
