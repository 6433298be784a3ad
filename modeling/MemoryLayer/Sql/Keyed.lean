import Mathlib.Data.List.Nodup
import Mathlib.Data.List.Perm.Basic

namespace Sql

/-! # Rows under a key

A table is a list of rows; a key is a function of the row.  What the three kinds of change of a
table do to the row found under a key, and to the other rows.

- `find?_map_key`, `find?_filter_keys`, `find?_append_key`: the row found after an update, a
  deletion and an insertion.
- `filter_key_eq_toList`: with unique keys, at most one row is found.
- `perm_cons_filter_key`, `map_key_perm`: with unique keys, a table is the row under a key
  together with the rows under the other keys.
-/

variable {R κ : Type} [DecidableEq κ] (key : R → κ) {l : List R} {r : R}

/-- An update of the row under `k` is seen under `k` only. -/
theorem find?_map_key {f : R → R} (hf : ∀ r, key (f r) = key r) (l : List R) (k j : κ) :
    (l.map fun r => if key r = k then f r else r).find? (fun r => key r = j)
      = if j = k then (l.find? fun r => key r = k).map f else l.find? fun r => key r = j := by
  induction l with
  | nil => simp
  | cons r l ih =>
    by_cases hr : key r = k <;> by_cases hj : j = k <;> by_cases hrj : key r = j <;>
      simp_all

/-- A deletion of the rows under some keys is seen under those keys only. -/
theorem find?_filter_keys (gone : κ → Bool) (l : List R) (j : κ) :
    (l.filter fun r => !gone (key r)).find? (fun r => key r = j)
      = if gone j then none else l.find? fun r => key r = j := by
  induction l with
  | nil => simp
  | cons r l ih =>
    by_cases hr : gone (key r) = true <;> by_cases hj : gone j = true <;> by_cases hrj : key r = j <;>
      simp_all

theorem find?_filter_key (l : List R) (k j : κ) :
    (l.filter fun r => !decide (key r = k)).find? (fun r => key r = j)
      = if j = k then none else l.find? fun r => key r = j := by
  simpa using find?_filter_keys key (fun x => decide (x = k)) l j

/-- An inserted row is seen under its own key, when nothing was there before. -/
theorem find?_append_key (l : List R) (r : R) (j : κ) :
    (l ++ [r]).find? (fun x => key x = j)
      = (l.find? fun x => key x = j).or (if key r = j then some r else none) := by
  rw [List.find?_append]
  by_cases h : key r = j <;> simp [h]

variable {key}

section

variable (hl : (l.map key).Nodup)

include hl

/-- Under unique keys, the row of a key is the only one with that key. -/
theorem find?_key_eq_some (hr : r ∈ l) :
    l.find? (fun x => key x = key r) = some r := by
  induction l with
  | nil => cases hr
  | cons x l ih =>
    rw [List.map_cons, List.nodup_cons] at hl
    rcases List.mem_cons.mp hr with rfl | hr
    · simp
    · have hne : key x ≠ key r := by
        intro h
        exact hl.1 (h ▸ List.mem_map_of_mem hr)
      rw [List.find?_cons, decide_eq_false hne]
      exact ih hl.2 hr

/-- Under unique keys, at most one row is found under a key. -/
theorem filter_key_eq_toList (k : κ) :
    l.filter (fun r => key r = k) = (l.find? fun r => key r = k).toList := by
  induction l with
  | nil => rfl
  | cons x l ih =>
    rw [List.map_cons, List.nodup_cons] at hl
    by_cases hx : key x = k
    · have hnone : l.filter (fun r => key r = k) = [] := by
        refine List.filter_eq_nil_iff.mpr fun r hr hk => hl.1 ?_
        rw [hx, ← of_decide_eq_true hk]
        exact List.mem_map_of_mem hr
      simp [hx, hnone]
    · simp [hx, ih hl.2]

/-- **Taking a row out.**  With unique keys, a table is the row found under `k` and the rows under
    the other keys. -/
theorem perm_cons_filter_key {k : κ}
    (h : l.find? (fun x => key x = k) = some r) :
    l.Perm (r :: l.filter fun x => !decide (key x = k)) := by
  induction l with
  | nil => cases h
  | cons x l ih =>
    rw [List.map_cons, List.nodup_cons] at hl
    by_cases hx : key x = k
    · -- the row is at the head, and no other row has its key
      obtain rfl : x = r := by simpa [hx] using h
      have hrest : (l.filter fun y => !decide (key y = k)) = l := by
        refine List.filter_eq_self.mpr fun y hy => ?_
        have : key y ≠ k := fun hk => hl.1 (hx ▸ hk ▸ List.mem_map_of_mem hy)
        simpa using this
      simp [hx, hrest]
    · have h' : l.find? (fun y => key y = k) = some r := by simpa [hx] using h
      rw [List.filter_cons_of_pos (by simpa using hx)]
      exact ((ih hl.2 h').cons x).trans (List.Perm.swap _ _ _)

/-- **Replacing a row.**  With unique keys, an update under `k` exchanges one row. -/
theorem map_key_perm {k : κ}
    (h : l.find? (fun x => key x = k) = some r) (f : R → R) :
    (l.map fun x => if key x = k then f x else x).Perm
      (f r :: l.filter fun x => !decide (key x = k)) := by
  have hr : key r = k := by simpa using List.find?_some h
  refine ((perm_cons_filter_key hl h).map _).trans ?_
  rw [List.map_cons, if_pos hr]
  refine List.Perm.cons _ (List.Perm.of_eq ?_)
  refine (List.map_congr_left fun x hx => ?_).trans (List.map_id _)
  rw [if_neg (by simpa using (List.mem_filter.mp hx).2)]
  rfl

end

end Sql
