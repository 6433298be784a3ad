import Mathlib.Logic.Function.Basic
import Mathlib.Data.List.Basic

namespace Sql

/-! # SQL transactions as programs

A transaction body is a program over the tables of a schema: it may read rows, update, delete
and insert rows, read memory outside the database, and give up with an error.  The program is
a tree (`Tx`), so that it can be executed alone (`Tx.exec`, one transaction at a time) or cut
into its statements and interleaved with others.

- `Db`: the committed tables, one list of rows per table, in insertion order.
- `Tx`: the statements of a transaction, with `Monad` structure.
- `Tx.exec`: serial execution; an error discards every change (rollback).
- `exec_bind`: execution of a sequence of statements, from which the simp set follows.
-/

variable {τ γ : Type} {ρ : τ → Type} {ε μ α β : Type}

/-- The rows of every table, in the order they were inserted. -/
abbrev Db (ρ : τ → Type) := (t : τ) → List (ρ t)

/-- When two rows of a table violate a primary key or another uniqueness constraint. -/
class Constraints (ρ : τ → Type) where
  clash : (t : τ) → ρ t → ρ t → Bool

export Constraints (clash)

/-- The row locks a `SELECT` can ask for: `FOR SHARE` and `FOR UPDATE`. -/
inductive Mode where
  | share
  | update
  deriving DecidableEq, Repr

/-- A transaction body: its statements, each followed by what it does with the answer.
    * `lock` is `SELECT ... FOR SHARE` or `FOR UPDATE`;
    * `update` answers with the rows it wrote (`RETURNING`), `delete` with their number;
    * `insert` is `INSERT ... ON CONFLICT DO NOTHING` and answers whether the row was inserted;
    * `upsert` is `INSERT ... ON CONFLICT DO UPDATE`, with the change of a conflicting row;
    * `ask` reads memory that is not part of the database. -/
inductive Tx (ρ : τ → Type) (ε μ α : Type) : Type where
  | ret (a : α)
  | fail (e : ε)
  | select (t : τ) (p : ρ t → Bool) (k : List (ρ t) → Tx ρ ε μ α)
  | lock (mode : Mode) (t : τ) (p : ρ t → Bool) (k : List (ρ t) → Tx ρ ε μ α)
  | update (t : τ) (p : ρ t → Bool) (f : ρ t → ρ t) (k : List (ρ t) → Tx ρ ε μ α)
  | delete (t : τ) (p : ρ t → Bool) (k : Nat → Tx ρ ε μ α)
  | insert (t : τ) (r : ρ t) (k : Bool → Tx ρ ε μ α)
  | upsert (t : τ) (r : ρ t) (g : ρ t → ρ t) (k : Tx ρ ε μ α)
  | ask (k : μ → Tx ρ ε μ α)

namespace Tx

/-- Run one transaction body after another. -/
protected def bind : Tx ρ ε μ α → (α → Tx ρ ε μ β) → Tx ρ ε μ β
  | .ret a, f => f a
  | .fail e, _ => .fail e
  | .select t p k, f => .select t p fun rows => (k rows).bind f
  | .lock mode t p k, f => .lock mode t p fun rows => (k rows).bind f
  | .update t p g k, f => .update t p g fun rows => (k rows).bind f
  | .delete t p k, f => .delete t p fun n => (k n).bind f
  | .insert t r k, f => .insert t r fun ok => (k ok).bind f
  | .upsert t r g k, f => .upsert t r g (k.bind f)
  | .ask k, f => .ask fun m => (k m).bind f

instance : Monad (Tx ρ ε μ) where
  pure := Tx.ret
  bind := Tx.bind

/-! ### Single statements -/

/-- `SELECT ... WHERE p`. -/
def selectRows (t : τ) (p : ρ t → Bool) : Tx ρ ε μ (List (ρ t)) := .select t p .ret

/-- `SELECT ... WHERE p FOR SHARE` or `FOR UPDATE`. -/
def lockRows (mode : Mode) (t : τ) (p : ρ t → Bool) : Tx ρ ε μ (List (ρ t)) := .lock mode t p .ret

/-- `UPDATE ... WHERE p RETURNING *`. -/
def updateRows (t : τ) (p : ρ t → Bool) (f : ρ t → ρ t) : Tx ρ ε μ (List (ρ t)) := .update t p f .ret

/-- `DELETE ... WHERE p`. -/
def deleteRows (t : τ) (p : ρ t → Bool) : Tx ρ ε μ Nat := .delete t p .ret

/-- `INSERT ... ON CONFLICT DO NOTHING`. -/
def insertRow (t : τ) (r : ρ t) : Tx ρ ε μ Bool := .insert t r .ret

/-- `INSERT ... ON CONFLICT DO UPDATE`. -/
def upsertRow (t : τ) (r : ρ t) (g : ρ t → ρ t) : Tx ρ ε μ Unit := .upsert t r g (.ret ())

/-- Memory outside the database, as it is when the statement runs. -/
def memory : Tx ρ ε μ μ := .ask .ret

/-- Continue only when `c` holds. -/
def require (c : Prop) [Decidable c] (e : ε) : Tx ρ ε μ Unit := if c then .ret () else .fail e

/-- A body that only runs when `c` holds. -/
def onlyIf (c : Prop) [Decidable c] (x : Tx ρ ε μ Unit) : Tx ρ ε μ Unit := if c then x else .ret ()

/-- A plain `INSERT`: a conflicting row is an error. -/
def insertOrFail (t : τ) (r : ρ t) (e : ε) : Tx ρ ε μ Unit :=
  .insert t r fun ok => if ok then .ret () else .fail e

/-- The first row found, or an error when there is none. -/
def rowOrFail (t : τ) (p : ρ t → Bool) (e : ε) : Tx ρ ε μ (ρ t) :=
  .select t p fun found => match found.head? with
    | some r => .ret r
    | none => .fail e

/-- The first row an update wrote, or an error when it wrote none. -/
def setOrFail (t : τ) (p : ρ t → Bool) (f : ρ t → ρ t) (e : ε) : Tx ρ ε μ (ρ t) :=
  .update t p f fun written => match written.head? with
    | some r => .ret r
    | none => .fail e

/-- `INSERT ... SELECT ... ON CONFLICT DO NOTHING`: one insert per row, in the given order. -/
def insertRows (t : τ) : List (ρ t) → Tx ρ ε μ Unit
  | [] => .ret ()
  | r :: rs => .insert t r fun _ => insertRows t rs

/-- One body for each element of a list, in order. -/
def each {γ : Type} (f : γ → Tx ρ ε μ Unit) : List γ → Tx ρ ε μ Unit
  | [] => .ret ()
  | x :: xs => (f x).bind fun _ => each f xs

/-! ### Serial execution -/

/-- Continue an execution unless it was rolled back. -/
def andThen (x : Except ε (α × Db ρ)) (f : α → Db ρ → Except ε (β × Db ρ)) :
    Except ε (β × Db ρ) :=
  match x with
  | .ok (a, db) => f a db
  | .error e => .error e

@[simp] theorem andThen_ok (a : α) (db : Db ρ) (f : α → Db ρ → Except ε (β × Db ρ)) :
    andThen (.ok (a, db)) f = f a db := rfl

@[simp] theorem andThen_error (e : ε) (f : α → Db ρ → Except ε (β × Db ρ)) :
    andThen (.error e) f = .error e := rfl

variable {f : α → Db ρ → Except ε (β × Db ρ)} {r : β × Db ρ} {x : α × Db ρ}

/-- A sequence of statements succeeds exactly when its parts do. -/
theorem andThen_eq_ok {x : Except ε (α × Db ρ)}
    : andThen x f = .ok r ↔ ∃ a db, x = .ok (a, db) ∧ f a db = .ok r := by
  match x with
  | .ok (a, db) => simp
  | .error e => simp

theorem andThen_assoc (x : Except ε (α × Db ρ)) (f : α → Db ρ → Except ε (β × Db ρ))
    (g : β → Db ρ → Except ε (γ × Db ρ)) :
    andThen (andThen x f) g = andThen x fun a db => andThen (f a db) g := by
  match x with
  | .ok (a, db) => rfl
  | .error e => rfl

/-- A check that holds lets the rest run. -/
@[simp] theorem andThen_ite_error {c : Prop} [Decidable c] {e : ε}
    :
    andThen (if c then .ok x else .error e) f = .ok r ↔ c ∧ f x.1 x.2 = .ok r := by
  split <;> simp [andThen, *]

/-- A check that fails lets nothing run. -/
@[simp] theorem andThen_error_ite {c : Prop} [Decidable c] {e : ε}
    :
    andThen (if c then .error e else .ok x) f = .ok r ↔ ¬ c ∧ f x.1 x.2 = .ok r := by
  split <;> simp [andThen, *]

section Exec

variable [DecidableEq τ]

/-- Change one table. -/
def edit (t : τ) (f : List (ρ t) → List (ρ t)) (db : Db ρ) : Db ρ :=
  Function.update db t (f (db t))

@[simp] theorem edit_self (t : τ) (f : List (ρ t) → List (ρ t)) (db : Db ρ) :
    edit t f db t = f (db t) := Function.update_self ..

@[simp] theorem edit_of_ne {s t : τ} (h : s ≠ t) (f : List (ρ t) → List (ρ t)) (db : Db ρ) :
    edit t f db s = db s := Function.update_of_ne h ..

theorem edit_edit (t : τ) (f g : List (ρ t) → List (ρ t)) (db : Db ρ) :
    edit t g (edit t f db) = edit t (fun rs => g (f rs)) db := by
  unfold edit
  rw [Function.update_self, Function.update_idem]

variable {t : τ} {p : ρ t → Bool} {rs : List (ρ t)}

/-- The table after `UPDATE`. -/
def updated (p : ρ t → Bool) (f : ρ t → ρ t) (rs : List (ρ t)) : List (ρ t) :=
  rs.map fun r => if p r then f r else r

/-- The table after `DELETE`. -/
def deleted (p : ρ t → Bool) (rs : List (ρ t)) : List (ρ t) :=
  rs.filter fun r => !p r

omit [DecidableEq τ] in
theorem mem_updated {f : ρ t → ρ t} {x : ρ t} :
    x ∈ updated p f rs ↔ ∃ r ∈ rs, (if p r then f r else r) = x := List.mem_map

omit [DecidableEq τ] in
theorem mem_deleted {x : ρ t} :
    x ∈ deleted p rs ↔ x ∈ rs ∧ p x = false := by
  simp [deleted]

/-- An update that finds no row changes nothing. -/
theorem edit_updated_eq_self (f : ρ t → ρ t) {db : Db ρ}
    (h : (db t).filter p = []) : edit t (updated p f) db = db := by
  have hsame : updated p f (db t) = db t := by
    refine (List.map_congr_left fun r hr => ?_).trans (List.map_id _)
    rw [if_neg (List.filter_eq_nil_iff.mp h r hr)]
    rfl
  rw [edit, hsame, Function.update_eq_self]

variable [Constraints ρ]

/-- The table after `INSERT ... ON CONFLICT DO NOTHING`. -/
def inserted (r : ρ t) (rs : List (ρ t)) : List (ρ t) :=
  if rs.any (clash t r) then rs else rs ++ [r]

omit [DecidableEq τ] in
theorem mem_of_mem_inserted {r x : ρ t} (h : x ∈ inserted r rs) :
    x ∈ rs ∨ x = r := by
  unfold inserted at h
  split at h
  · exact .inl h
  · simpa using h

/-- The table after `INSERT ... ON CONFLICT DO UPDATE`. -/
def upserted (r : ρ t) (g : ρ t → ρ t) (rs : List (ρ t)) : List (ρ t) :=
  if rs.any (clash t r) then updated (clash t r) g rs else rs ++ [r]

/-- Execute a transaction alone: its answer and the tables after the commit, or the error it was
    rolled back with. -/
def exec (m : μ) : Tx ρ ε μ α → Db ρ → Except ε (α × Db ρ)
  | .ret a, db => .ok (a, db)
  | .fail e, _ => .error e
  | .select t p k, db => (k ((db t).filter p)).exec m db
  | .lock _ t p k, db => (k ((db t).filter p)).exec m db
  | .update t p f k, db => (k (((db t).filter p).map f)).exec m (edit t (updated p f) db)
  | .delete t p k, db => (k ((db t).countP p)).exec m (edit t (deleted p) db)
  | .insert t r k, db => (k (!(db t).any (clash t r))).exec m (edit t (inserted r) db)
  | .upsert t r g k, db => k.exec m (edit t (upserted r g) db)
  | .ask k, db => (k m).exec m db

section

variable (m : μ)

/-- **Sequencing.**  The second body runs on the tables the first one left. -/
@[simp] theorem exec_bind (x : Tx ρ ε μ α) (f : α → Tx ρ ε μ β) (db : Db ρ) :
    (x >>= f).exec m db = andThen (x.exec m db) fun a db' => (f a).exec m db' := by
  change (x.bind f).exec m db = _
  induction x generalizing db with
  | ret a => rfl
  | fail e => rfl
  | select t p k ih => exact ih _ _
  | lock mode t p k ih => exact ih _ _
  | update t p g k ih => exact ih _ _
  | delete t p k ih => exact ih _ _
  | insert t r k ih => exact ih _ _
  | upsert t r g k ih => exact ih _
  | ask k ih => exact ih _ _

@[simp] theorem exec_pure (a : α) (db : Db ρ) :
    (pure a : Tx ρ ε μ α).exec m db = .ok (a, db) := rfl

@[simp] theorem exec_selectRows (t : τ) (p : ρ t → Bool) (db : Db ρ) :
    (selectRows t p : Tx ρ ε μ _).exec m db = .ok ((db t).filter p, db) := rfl

@[simp] theorem exec_lockRows (mode : Mode) (t : τ) (p : ρ t → Bool) (db : Db ρ) :
    (lockRows mode t p : Tx ρ ε μ _).exec m db = .ok ((db t).filter p, db) := rfl

@[simp] theorem exec_upsertRow (t : τ) (r : ρ t) (g : ρ t → ρ t) (db : Db ρ) :
    (upsertRow t r g : Tx ρ ε μ Unit).exec m db = .ok ((), edit t (upserted r g) db) := rfl

@[simp] theorem exec_updateRows (t : τ) (p : ρ t → Bool) (f : ρ t → ρ t) (db : Db ρ) :
    (updateRows t p f : Tx ρ ε μ _).exec m db
      = .ok (((db t).filter p).map f, edit t (updated p f) db) := rfl

@[simp] theorem exec_deleteRows (t : τ) (p : ρ t → Bool) (db : Db ρ) :
    (deleteRows t p : Tx ρ ε μ _).exec m db
      = .ok ((db t).countP p, edit t (deleted p) db) := rfl

@[simp] theorem exec_insertRow (t : τ) (r : ρ t) (db : Db ρ) :
    (insertRow t r : Tx ρ ε μ _).exec m db
      = .ok (!(db t).any (clash t r), edit t (inserted r) db) := rfl

@[simp] theorem exec_memory (db : Db ρ) :
    (memory : Tx ρ ε μ μ).exec m db = .ok (m, db) := rfl

@[simp] theorem exec_require (c : Prop) [Decidable c] (e : ε) (db : Db ρ) :
    (require c e : Tx ρ ε μ Unit).exec m db = if c then .ok ((), db) else .error e := by
  unfold require
  split <;> rfl

@[simp] theorem exec_onlyIf (c : Prop) [Decidable c] (x : Tx ρ ε μ Unit) (db : Db ρ) :
    (onlyIf c x).exec m db = if c then x.exec m db else .ok ((), db) := by
  unfold onlyIf
  split <;> rfl

@[simp] theorem exec_insertOrFail (t : τ) (r : ρ t) (e : ε) (db : Db ρ) :
    (insertOrFail t r e : Tx ρ ε μ Unit).exec m db
      = if (db t).any (clash t r) then .error e else .ok ((), edit t (inserted r) db) := by
  simp only [insertOrFail, exec]
  cases (db t).any (clash t r) <;> rfl

@[simp] theorem exec_rowOrFail (t : τ) (p : ρ t → Bool) (e : ε) (db : Db ρ) :
    (rowOrFail t p e : Tx ρ ε μ _).exec m db
      = match (db t).find? p with
        | some r => .ok (r, db)
        | none => .error e := by
  simp only [rowOrFail, exec, List.head?_filter]
  cases (db t).find? p <;> rfl

@[simp] theorem exec_setOrFail (t : τ) (p : ρ t → Bool) (f : ρ t → ρ t) (e : ε)
    (db : Db ρ) :
    (setOrFail t p f e : Tx ρ ε μ _).exec m db
      = match (db t).find? p with
        | some r => .ok (f r, edit t (updated p f) db)
        | none => .error e := by
  simp only [setOrFail, exec, List.head?_map, List.head?_filter]
  cases (db t).find? p <;> rfl

/-- Inserting rows one by one is a fold over the table. -/
@[simp] theorem exec_insertRows (t : τ) (rs : List (ρ t)) (db : Db ρ) :
    (insertRows t rs : Tx ρ ε μ Unit).exec m db
      = .ok ((), edit t (fun acc => rs.foldl (fun acc r => inserted r acc) acc) db) := by
  induction rs generalizing db with
  | nil => simp [insertRows, exec, edit]
  | cons r rs ih => simp only [insertRows, exec, ih, List.foldl_cons, edit, Function.update_self,
      Function.update_idem]

end

/-- A loop of bodies that cannot fail is a fold over the tables. -/
theorem exec_each {m : μ} {f : γ → Tx ρ ε μ Unit} {g : γ → Db ρ → Db ρ}
    (h : ∀ x db, (f x).exec m db = .ok ((), g x db)) (xs : List γ) (db : Db ρ) :
    (each f xs).exec m db = .ok ((), xs.foldl (fun acc x => g x acc) db) := by
  induction xs generalizing db with
  | nil => rfl
  | cons x xs ih =>
    change (f x >>= fun _ => each f xs).exec m db = _
    rw [exec_bind, h, andThen_ok, ih, List.foldl_cons]

end Exec

end Tx

end Sql
