import MemoryLayer.Gateway.Within

namespace MemoryLayer.Gateway

open Calls Prog
open Local (GoString text)

/-! # One object in the stores

What the stores have under a domain and a ref: a row, and versions.  Together they stand for an object, or for
none while the row is pending or there is no version.

- `Cell`, `Cell.object`: what there is under a ref, and the object that it stands for.
- `cell_exec_of_only`: a program leaves objects alone that its calls do not write.
- `faultAt`, `Spared`: which of the next calls fail.
-/

variable {ε α : Type} {c : Call} {content : GoString} {answer : Ans c} {snap : Snap}

/-- The row and the versions under a ref. -/
structure Cell where
  row : Option ObjectInfo
  snaps : List Snap
  deriving DecidableEq, Repr

/-- The row, when it is not that of an upload which is only staged. -/
def Cell.final (x : Cell) : Option ObjectInfo := x.row.filter fun info => !info.pending

/-- The object: its row has to be final, and its bytes and metadata are those of the newest version. -/
def Cell.object (x : Cell) : Option (GoString × ObjectInfo) := do
  let info ← x.final
  let snap ← x.snaps.getLast?
  pure (snap.content, { info with userMeta := decodeUserTags snap.tags })

/-- The row with other bytes, and without user metadata. -/
def Cell.withBytes (x : Cell) (content : GoString) : Cell := ⟨x.row, [⟨0, [], [], content⟩]⟩

/-- What is under a ref. -/
def Stores.cell (s : Stores) (domain ref : GoString) : Cell := ⟨s.row domain ref, s.snaps domain ref⟩

/-- The object under a ref. -/
def Stores.object (s : Stores) (domain ref : GoString) : Option (GoString × ObjectInfo) :=
  (s.cell domain ref).object

@[simp] theorem cell_tick (s : Stores) : s.tick.cell = s.cell := rfl

@[simp] theorem cell_settle (s : Stores) : s.settle.cell = s.cell := rfl

variable {row : Option ObjectInfo} {info : ObjectInfo} {snaps : List Snap} {x : Cell}

theorem final_of_row (hrow : row = some info)
    (h : info.pending = false) : (⟨row, snaps⟩ : Cell).final = some info := by
  rw [Cell.final, hrow, Option.filter_some, h]
  rfl

theorem final_of_pending
    (hrow : row = some info) (h : info.pending = true) : (⟨row, snaps⟩ : Cell).final = none := by
  rw [Cell.final, hrow, Option.filter_some, h]
  rfl

theorem object_append :
    (⟨row, snaps ++ [snap]⟩ : Cell).object
      = (⟨row, snaps⟩ : Cell).final.map fun info =>
          (snap.content, { info with userMeta := decodeUserTags snap.tags }) := by
  unfold Cell.object Cell.final
  rw [List.getLast?_append_of_ne_nil _ (List.cons_ne_nil _ _)]
  cases row.filter fun info => !info.pending <;> rfl

theorem object_withBytes (x : Cell) (content : GoString) :
    (x.withBytes content).object = x.final.map fun info => (content, { info with userMeta := [] }) := by
  unfold Cell.object Cell.withBytes Cell.final
  cases x.row.filter fun info => !info.pending <;> rfl

/-- An object has a final row and a newest version. -/
theorem object_eq_some_iff :
    x.object = some (content, info) ↔ ∃ row snap, x.final = some row ∧ x.snaps.getLast? = some snap
      ∧ content = snap.content ∧ info = { row with userMeta := decodeUserTags snap.tags } := by
  unfold Cell.object
  constructor
  · intro h
    obtain ⟨row, hfinal, hrest⟩ := Option.bind_eq_some_iff.mp h
    obtain ⟨snap, hsnap, hpure⟩ := Option.bind_eq_some_iff.mp hrest
    cases hpure
    exact ⟨row, snap, hfinal, hsnap, rfl, rfl⟩
  · rintro ⟨row, snap, hfinal, hsnap, rfl, rfl⟩
    rw [hfinal, hsnap]
    rfl

/-- The number of an object is that of its row. -/
theorem exists_row_of_object
    (h : x.object = some (content, info)) : ∃ row ∈ x.row, row.version = info.version := by
  obtain ⟨row, snap, hfinal, -, -, rfl⟩ := object_eq_some_iff.mp h
  exact ⟨row, (Option.filter_eq_some_iff.mp hfinal).1, rfl⟩

theorem object_of_no_snaps (h : x.snaps = []) : x.object = none := by
  unfold Cell.object
  rw [h]
  cases x.final <;> rfl

/-- There is no object while there is no final row. -/
theorem object_of_not_final (h : x.final = none) : x.object = none := by
  unfold Cell.object
  rw [h]
  rfl

/-- One more version. -/
theorem length_snaps_of_append {s : Stores} {domain ref : GoString}
    (h : s.cell domain ref = ⟨row, snaps ++ [snap]⟩) :
    (s.snaps domain ref).length = snaps.length + 1 := by
  have hsnaps : s.snaps domain ref = snaps ++ [snap] := congrArg Cell.snaps h
  rw [hsnaps, List.length_append, List.length_singleton]

/-! ### Calls -/

section Calls

variable {s : Stores} {domain ref domain' ref' : GoString}

theorem act_snapPut_cell (s : Stores) (domain ref format : GoString) (tags : Tags) (content : GoString) :
    (act s (.snapPut domain ref format tags content)).2.cell domain ref
      = ⟨s.row domain ref, s.snaps domain ref ++ [⟨s.minted, format, tags, content⟩]⟩ := by
  simp [act, Stores.cell, Stores.setSnaps, Stores.row]

theorem act_refPut_cell (s : Stores) (info : ObjectInfo) :
    (act s (.refPut info)).2.cell info.domain info.ref = ⟨some info, s.snaps info.domain info.ref⟩ := by
  simp [act, Stores.cell, Stores.setRows, Stores.row]

theorem act_refDelete_cell (s : Stores) (domain ref : GoString) :
    (act s (.refDelete domain ref)).2.cell domain ref = ⟨none, s.snaps domain ref⟩ := by
  simp [act, Stores.cell, Stores.setRows, Stores.row]

theorem act_snapDelete_cell (s : Stores) (domain ref : GoString) (version : Nat) :
    (act s (.snapDelete domain ref version)).2.cell domain ref
      = ⟨s.row domain ref, (s.snaps domain ref).filter fun snap => snap.version ≠ version⟩ := by
  simp [act, Stores.cell, Stores.setSnaps, Stores.row]

theorem cell_setRows_of_ne {rows : AList fun _ : GoString => ObjectInfo}
    (h : (domain', ref') ≠ (domain, ref)) (hrows : ∀ x, x ≠ ref → rows.lookup x = (s.rows domain).lookup x) :
    (s.setRows domain rows).cell domain' ref' = s.cell domain' ref' := by
  unfold Stores.cell Stores.setRows Stores.row
  by_cases hdomain : domain' = domain
  · subst hdomain
    have href : ref' ≠ ref := fun href => h (by rw [href])
    simp [hrows ref' href]
  · simp [hdomain]

theorem cell_setSnaps_of_ne (h : (domain', ref') ≠ (domain, ref)) :
    (s.setSnaps domain ref snaps).cell domain' ref' = s.cell domain' ref' := by
  unfold Stores.cell Stores.setSnaps Stores.row
  by_cases hdomain : domain' = domain
  · subst hdomain
    have href : ref' ≠ ref := fun href => h (by rw [href])
    simp [href]
  · simp [hdomain]

/-- A call leaves an object alone that it does not write. -/
theorem act_cell_of_ne (h : ∀ o ∈ c.writes, (domain, ref) ≠ o) :
    (act s c).2.cell domain ref = s.cell domain ref := by
  cases c with
  | refPut info => exact cell_setRows_of_ne (h _ rfl) fun x hx => AList.lookup_insert_ne hx
  | refDelete d r => exact cell_setRows_of_ne (h _ rfl) fun x hx => AList.lookup_erase_ne hx
  | snapPut d r format tags content => exact cell_setSnaps_of_ne (s := s) (h _ rfl)
  | snapDelete d r version => exact cell_setSnaps_of_ne (h _ rfl)
  | _ => rfl

/-- What a call does not change, and time does not, is the same after the call whether it fails or not. -/
theorem serve_eq_of_act (f : Stores → α) (htick : f s.tick = f s)
    (hsettle : f s.tick.settle = f s) (hact : ∀ s', f (act s' c).2 = f s') : f (serve s c).2 = f s := by
  unfold serve
  split
  · exact (hact s.tick).trans htick
  · split
    · exact hsettle
    · exact (hact s.tick.settle).trans hsettle

theorem serve_cell_of_ne (h : ∀ o ∈ c.writes, (domain, ref) ≠ o) :
    (serve s c).2.cell domain ref = s.cell domain ref :=
  serve_eq_of_act (fun s => s.cell domain ref) rfl rfl fun _ => act_cell_of_ne h

end Calls

/-- **Other objects.**  A program leaves an object alone that its calls do not write. -/
theorem cell_exec_of_only {x : GwProg α} {domain ref : GoString}
    (hx : x.Only fun c => ∀ o ∈ c.writes, (domain, ref) ≠ o) (s : Stores) :
    (x.exec serve s).2.cell domain ref = s.cell domain ref := by
  induction x generalizing s with
  | ret a => rfl
  | call c k ih =>
    change ((k (serve s c).1).exec serve (serve s c).2).2.cell domain ref = _
    rw [ih _ (hx.2 _), serve_cell_of_ne hx.1]

/-! ### Calls that fail -/

section Faults

variable {s : Stores} {domain ref : GoString}

/-- Whether the call fails that comes after `k` others that can. -/
def Stores.faultAt (s : Stores) (k : Nat) : Bool := s.faults.getD k false

/-- Of the calls that can fail, `n` do not that come after `k` others. -/
def Stores.Spared (s : Stores) (k n : Nat) : Prop := ∀ i < n, s.faultAt (k + i) = false

instance (s : Stores) (k n : Nat) : Decidable (s.Spared k n) :=
  inferInstanceAs (Decidable (∀ i < n, s.faultAt (k + i) = false))

@[simp] theorem faultAt_tick (s : Stores) (k : Nat) : s.tick.faultAt k = s.faultAt k := rfl

@[simp] theorem faultAt_settle (s : Stores) (k : Nat) : s.settle.faultAt k = s.faultAt (k + 1) := by
  unfold Stores.faultAt Stores.settle
  cases s.faults <;> rfl

@[simp] theorem act_faultAt (s : Stores) (c : Call) (k : Nat) : (act s c).2.faultAt k = s.faultAt k := by
  cases c <;> rfl

theorem serve_of_fault (hc : c.failed = some answer) (h : s.faultAt 0 = true) :
    serve s c = (answer, s.tick.settle) := by
  have hfault : s.fault = true := by
    rw [← h]
    unfold Stores.fault Stores.faultAt
    cases s.faults <;> rfl
  unfold serve
  rw [hc]
  exact if_pos hfault

theorem serve_of_spared (hc : c.failed = some answer) (h : s.faultAt 0 = false) :
    serve s c = act s.tick.settle c := by
  have hfault : ¬ s.fault = true := by
    rw [Bool.not_eq_true, ← h]
    unfold Stores.fault Stores.faultAt
    cases s.faults <;> rfl
  unfold serve
  rw [hc]
  exact if_neg hfault

/-- Calls that do not fail, one after another. -/
theorem spared_add {k m n : Nat} : s.Spared k (m + n) ↔ s.Spared k m ∧ s.Spared (k + m) n := by
  constructor
  · intro h
    refine ⟨fun i hi => h i (by omega), fun i hi => ?_⟩
    rw [Nat.add_assoc]
    exact h (m + i) (by omega)
  · rintro ⟨hfirst, hrest⟩ i hi
    by_cases him : i < m
    · exact hfirst i him
    · rw [← hrest (i - m) (by omega)]
      congr 1
      omega

theorem spared_succ {k n : Nat} : s.Spared k (n + 1) ↔ s.faultAt k = false ∧ s.Spared (k + 1) n := by
  rw [Nat.add_comm, spared_add]
  refine and_congr_left' ⟨fun h => h 0 Nat.one_pos, fun h i hi => ?_⟩
  rw [Nat.lt_one_iff.mp hi]
  exact h

theorem spared_zero {k : Nat} : s.Spared k 0 := fun i hi => absurd hi (Nat.not_lt_zero i)

theorem spared_two : s.Spared 0 2 ↔ s.faultAt 0 = false ∧ s.faultAt 1 = false := by
  rw [spared_succ, spared_succ]
  exact ⟨fun h => ⟨h.1, h.2.1⟩, fun h => ⟨h.1, h.2, spared_zero⟩⟩

/-- If the first call does not fail, the second one does. -/
theorem faultAt_of_not_spared_two (h : ¬ s.Spared 0 2) (hfirst : s.faultAt 0 = false) : s.faultAt 1 = true := by
  rw [← Bool.not_eq_false]
  exact fun hsecond => h (spared_two.mpr ⟨hfirst, hsecond⟩)

theorem spared_shift {s' : Stores} {j k n : Nat} (h : ∀ i, s'.faultAt i = s.faultAt (j + i)) :
    s'.Spared k n ↔ s.Spared (j + k) n := by
  unfold Stores.Spared
  simp only [h, Nat.add_assoc]

theorem finalRow_of_spared (h : s.faultAt 0 = false) :
    (finalRow (ε := ε) domain ref).exec serve s
      = (match (s.cell domain ref).final with
          | none => .error .notFound
          | some info => .ok info, s.tick.settle) := by
  have hget : act s.tick.settle (.refGet domain ref) = (.ofOption (s.row domain ref), s.tick.settle) := rfl
  unfold finalRow Stores.cell Cell.final
  rw [exec_bind, exec_perform, serve_of_spared rfl h, hget]
  cases s.row domain ref with
  | none => rfl
  | some info => cases hpending : info.pending <;> simp [Got.ofOption, Option.filter, hpending]

theorem finalRow_of_fault (h : s.faultAt 0 = true) :
    (finalRow (ε := ε) domain ref).exec serve s = (.error .internal, s.tick.settle) := by
  unfold finalRow
  rw [exec_bind, exec_perform, serve_of_fault rfl h]
  rfl

end Faults

end MemoryLayer.Gateway
