import MemoryLayer.Sql.Session

namespace Sql

open Tx Runs

/-! # Proof outlines for concurrent transactions

What can be said about a transaction body when other transactions commit between its statements.
The rows it has locked stay as it saw them, and nothing else does.

- `Snap`, `Fits`: what a transaction saw when it locked rows, and the tables that agree with it.
- `Ensures`: a body reaches its commit only with a property of what it saw and what it changes,
  whatever is committed in between; `Ensures.bind` follows the sequence of statements.
- `Tx.Avoids`: bodies that do not change a table.
- `Server.Follows`: every running transaction is on a proof outline, which is an invariant.
-/

variable {τ : Type} {ρ : τ → Type} {ε μ α β S C κ : Type} {st : Statement ρ ε μ α κ} {f : α → Tx ρ ε μ β}
  {x : Tx ρ ε μ α} {a : α} {m : μ}

/-- Rows that a transaction has locked, and the committed tables at that moment. -/
structure Snap (ρ : τ → Type) (κ : Type) where
  keys : List κ
  db : Db ρ

/-- A body that has no statement left. -/
def Tx.ended : Tx ρ ε μ α → Bool
  | .ret _ => true
  | .fail _ => true
  | _ => false

/-! ### Tables that a body does not change -/

/-- The body never updates, deletes or inserts rows of the table `t`. -/
def Tx.Avoids (t : τ) : Tx ρ ε μ α → Prop
  | .ret _ => True
  | .fail _ => True
  | .select _ _ k => ∀ rs, (k rs).Avoids t
  | .lock _ _ _ k => ∀ rs, (k rs).Avoids t
  | .update t' _ _ k => t' ≠ t ∧ ∀ rs, (k rs).Avoids t
  | .delete t' _ k => t' ≠ t ∧ ∀ n, (k n).Avoids t
  | .insert t' _ k => t' ≠ t ∧ ∀ ok, (k ok).Avoids t
  | .upsert t' _ _ k => t' ≠ t ∧ k.Avoids t
  | .ask k => ∀ m, (k m).Avoids t

/-- Some answers let the body return `b`. -/
def Tx.Yields (b : α) : Tx ρ ε μ α → Prop
  | .ret a => a = b
  | .fail _ => False
  | .select _ _ k => ∃ rs, (k rs).Yields b
  | .lock _ _ _ k => ∃ rs, (k rs).Yields b
  | .update _ _ _ k => ∃ rs, (k rs).Yields b
  | .delete _ _ k => ∃ n, (k n).Yields b
  | .insert _ _ k => ∃ ok, (k ok).Yields b
  | .upsert _ _ _ k => k.Yields b
  | .ask k => ∃ m, (k m).Yields b

variable {t t' : τ}

/-- One body after another: the second one counts for what the first one returns. -/
@[simp] theorem Tx.avoids_bind :
    (x >>= f).Avoids t ↔ x.Avoids t ∧ ∀ a, x.Yields a → (f a).Avoids t := by
  change (x.bind f).Avoids t ↔ _
  induction x with
  | ret a => simp [Tx.bind, Avoids, Yields]
  | fail e => simp [Tx.bind, Avoids, Yields]
  | _ =>
    simp only [Tx.bind, Avoids, Yields, *]
    grind

@[simp] theorem Tx.avoids_pure (a : α) : (pure a : Tx ρ ε μ α).Avoids t := trivial

@[simp] theorem Tx.avoids_ite {c : Prop} [Decidable c] {y : Tx ρ ε μ α} :
    (if c then x else y).Avoids t ↔ (c → x.Avoids t) ∧ (¬ c → y.Avoids t) := by
  split <;> simp [*]

@[simp] theorem Tx.avoids_memory : (memory : Tx ρ ε μ μ).Avoids t := fun _ => trivial

@[simp] theorem Tx.avoids_rowOrFail (p : ρ t' → Bool) (e : ε) :
    (rowOrFail t' p e : Tx ρ ε μ _).Avoids t := by
  intro rs
  dsimp only
  split <;> trivial

@[simp] theorem Tx.avoids_require (c : Prop) [Decidable c] (e : ε) :
    (require c e : Tx ρ ε μ Unit).Avoids t := by
  unfold require
  split <;> trivial

@[simp] theorem Tx.avoids_onlyIf (c : Prop) [Decidable c] {x : Tx ρ ε μ Unit} (hx : x.Avoids t) :
    (onlyIf c x).Avoids t := by
  unfold onlyIf
  split
  · exact hx
  · trivial

@[simp] theorem Tx.avoids_selectRows (p : ρ t' → Bool) : (selectRows t' p : Tx ρ ε μ _).Avoids t :=
  fun _ => trivial

@[simp] theorem Tx.avoids_lockRows (mode : Mode) (p : ρ t' → Bool) :
    (lockRows mode t' p : Tx ρ ε μ _).Avoids t := fun _ => trivial

@[simp] theorem Tx.avoids_each {γ : Type} {f : γ → Tx ρ ε μ Unit} (h : ∀ x, (f x).Avoids t)
    (xs : List γ) : (each f xs).Avoids t := by
  induction xs with
  | nil => trivial
  | cons x xs ih => exact avoids_bind.mpr ⟨h x, fun _ _ => ih⟩

section Other

variable (h : t' ≠ t)

include h

@[simp] theorem Tx.avoids_insertOrFail (r : ρ t') (e : ε) :
    (insertOrFail t' r e : Tx ρ ε μ Unit).Avoids t := by
  refine ⟨h, fun ok => ?_⟩
  cases ok <;> trivial

@[simp] theorem Tx.avoids_insertRow (r : ρ t') : (insertRow t' r : Tx ρ ε μ _).Avoids t :=
  ⟨h, fun _ => trivial⟩

@[simp] theorem Tx.avoids_updateRows (p : ρ t' → Bool) (f : ρ t' → ρ t') :
    (updateRows t' p f : Tx ρ ε μ _).Avoids t := ⟨h, fun _ => trivial⟩

@[simp] theorem Tx.avoids_deleteRows (p : ρ t' → Bool) : (deleteRows t' p : Tx ρ ε μ _).Avoids t :=
  ⟨h, fun _ => trivial⟩

@[simp] theorem Tx.avoids_setOrFail (p : ρ t' → Bool) (f : ρ t' → ρ t') (e : ε) :
    (setOrFail t' p f e : Tx ρ ε μ _).Avoids t := by
  refine ⟨h, fun rs => ?_⟩
  dsimp only
  split <;> trivial

@[simp] theorem Tx.avoids_insertRows (rs : List (ρ t')) :
    (insertRows t' rs : Tx ρ ε μ Unit).Avoids t := by
  induction rs with
  | nil => trivial
  | cons r rs ih => exact ⟨h, fun _ => ih⟩

end Other

/-! ### Proof outlines -/

variable [DecidableEq τ] [∀ t, DecidableEq (ρ t)] [Constraints ρ] [Keys ρ κ] [DecidableEq κ]

/-- Tables in which the locked rows are as they were. -/
def Fits (snaps : List (Snap ρ κ)) (db : Db ρ) : Prop :=
  ∀ sn ∈ snaps, ∀ k ∈ sn.keys, SameRow k sn.db db

/-- The body is committed only with `Q` of its answer, its locked rows and its changes.  Before every
    statement others may commit anything that fits the locks. -/
inductive Ensures (Q : α → List (Snap ρ κ) → (Db ρ → Db ρ) → Prop) :
    List (Snap ρ κ) → (Db ρ → Db ρ) → Tx ρ ε μ α → Prop where
  | ret {snaps : List (Snap ρ κ)} {pend : Db ρ → Db ρ} {a : α} (h : Q a snaps pend) :
      Ensures Q snaps pend (.ret a)
  | fail {snaps : List (Snap ρ κ)} {pend : Db ρ → Db ρ} {e : ε} : Ensures Q snaps pend (.fail e)
  | next {snaps : List (Snap ρ κ)} {pend : Db ρ → Db ρ} {tx : Tx ρ ε μ α}
      (hlive : tx.ended = false)
      (h : ∀ m db st, Fits snaps db → tx.statement m (pend db) = some st →
        Ensures Q (⟨st.keys, db⟩ :: snaps) (fun db => st.change (pend db)) st.rest) :
      Ensures Q snaps pend tx

variable {tx : Tx ρ ε μ α}

namespace Ensures

variable {Q : α → List (Snap ρ κ) → (Db ρ → Db ρ) → Prop} {snaps : List (Snap ρ κ)}
  {pend : Db ρ → Db ρ}

/-- At its commit a body has its property. -/
theorem of_ret (h : Ensures Q snaps pend (.ret a : Tx ρ ε μ α)) : Q a snaps pend := by
  cases h with
  | ret h => exact h
  | next hlive => cases hlive

/-- After a statement the rest of the body is on its outline. -/
theorem after (h : Ensures Q snaps pend tx) {db : Db ρ}
    (hfits : Fits snaps db) (hst : tx.statement m (pend db) = some st) :
    Ensures Q (⟨st.keys, db⟩ :: snaps) (fun db => st.change (pend db)) st.rest := by
  cases h with
  | ret h => cases hst
  | fail => cases hst
  | next hlive h => exact h m db st hfits hst

/-- A weaker property. -/
theorem mono {Q' : α → List (Snap ρ κ) → (Db ρ → Db ρ) → Prop}
    (h : Ensures Q snaps pend tx) (hQ : ∀ a snaps pend, Q a snaps pend → Q' a snaps pend) :
    Ensures Q' snaps pend tx := by
  induction h with
  | ret h => exact .ret (hQ _ _ _ h)
  | fail => exact .fail
  | next hlive _ ih => exact .next hlive ih

omit [DecidableEq κ] in
/-- The statements of a sequence are those of its first part, until that part ends. -/
theorem statement_bind (m : μ) (view : Db ρ) (x : Tx ρ ε μ α) (f : α → Tx ρ ε μ β)
    (hlive : x.ended = false) :
    (x.bind f).statement m view = (x.statement m view).map fun st : Statement ρ ε μ α κ =>
      ⟨st.awaits, st.keys, st.mode, st.dirty, st.change, st.rest.bind f⟩ := by
  cases x with
  | ret a => cases hlive
  | fail e => cases hlive
  | insert t r k =>
    simp only [Tx.bind, Tx.statement, Option.map_some]
    split <;> rfl
  | upsert t r g k =>
    simp only [Tx.bind, Tx.statement, Option.map_some]
    split <;> rfl
  | _ => rfl

/-- **Sequencing.**  The second body starts with what the first one saw and changed. -/
theorem bind {Q' : β → List (Snap ρ κ) → (Db ρ → Db ρ) → Prop}
    (hx : Ensures Q snaps pend x)
    (hf : ∀ a snaps pend, Q a snaps pend → Ensures Q' snaps pend (f a)) :
    Ensures Q' snaps pend (x >>= f) := by
  change Ensures Q' snaps pend (x.bind f)
  induction hx with
  | ret h => exact hf _ _ _ h
  | fail => exact .fail
  | @next snaps pend tx hlive h ih =>
    refine .next ?_ ?_
    · cases tx <;> first | rfl | cases hlive
    · intro m db st hfits hst
      rw [statement_bind m _ tx f hlive] at hst
      obtain ⟨st', hst', rfl⟩ := Option.map_eq_some_iff.mp hst
      exact ih m db st' hfits hst'

/-- **Serial execution.**  A body that runs alone has the property it ensures, and changes the tables
    as it says. -/
theorem exec (h : Ensures Q snaps pend tx) {db db' : Db ρ}
    (hfits : Fits snaps db) (hexec : tx.exec m (pend db) = .ok (a, db')) :
    ∃ snaps' pend', Fits snaps' db ∧ Q a snaps' pend' ∧ db' = pend' db := by
  induction h with
  | @ret snaps pend a' hQ =>
    obtain ⟨rfl, rfl⟩ := Prod.mk.inj (Except.ok.inj hexec)
    exact ⟨snaps, pend, hfits, hQ, rfl⟩
  | fail => cases hexec
  | @next snaps pend tx hlive h ih =>
    have hsome : ∃ st : Statement ρ ε μ α κ, tx.statement m (pend db) = some st := by
      cases tx <;> first | exact ⟨_, rfl⟩ | cases hlive
    obtain ⟨st, hst⟩ := hsome
    refine ih m db st hfits hst ?_ ?_
    · intro sn hsn k hk
      rcases List.mem_cons.mp hsn with rfl | hsn
      · exact SameRow.refl k db
      · exact hfits sn hsn k hk
    · rw [← exec_statement hst]
      exact hexec

variable (snaps pend)

/-- `SELECT ... FOR SHARE` or `FOR UPDATE`: the rows found are locked. -/
theorem lockRows (mode : Mode) (t : τ) (p : ρ t → Bool) :
    Ensures (fun found snaps' pend' => ∃ db, Fits snaps db ∧ found = (pend db t).filter p ∧
      snaps' = ⟨keysOf t found, db⟩ :: snaps ∧ pend' = pend) snaps pend
      (Tx.lockRows mode t p : Tx ρ ε μ _) := by
  refine .next rfl fun m db st hfits hst => ?_
  cases hst
  exact .ret ⟨db, hfits, rfl, rfl, rfl⟩

/-- `UPDATE`: the rows found are locked and changed. -/
theorem updateRows (t : τ) (p : ρ t → Bool) (f : ρ t → ρ t) :
    Ensures (fun _ snaps' pend' => ∃ db rs, Fits snaps db ∧ rs = (pend db t).filter p ∧
      snaps' = ⟨keysOf t (rs ++ rs.map f), db⟩ :: snaps ∧
      pend' = fun db => edit t (updated (fun r => r ∈ rs) f) (pend db)) snaps pend
      (Tx.updateRows t p f : Tx ρ ε μ _) := by
  refine .next rfl fun m db st hfits hst => ?_
  cases hst
  exact .ret ⟨db, _, hfits, rfl, rfl, rfl⟩

/-- `INSERT`: no row was in the way, and the new row is locked. -/
theorem insertOrFail (t : τ) (r : ρ t) (e : ε) :
    Ensures (fun _ snaps' pend' => ∃ db, Fits snaps db ∧ (pend db t).any (clash t r) = false ∧
      snaps' = ⟨keysOf t [r], db⟩ :: snaps ∧
      pend' = fun db => edit t (inserted r) (pend db)) snaps pend
      (Tx.insertOrFail t r e : Tx ρ ε μ Unit) := by
  refine .next rfl fun m db st hfits hst => ?_
  simp only [Tx.insertOrFail, Tx.statement, Option.some.injEq] at hst
  subst hst
  split
  · exact .fail
  · rename_i hc
    exact .ret ⟨db, hfits, Bool.eq_false_iff.mpr hc, rfl, rfl⟩

end Ensures

/-! ### Statements and executions -/

omit [DecidableEq κ] in
/-- Neither does a statement of such a body. -/
theorem statement_avoids (h : tx.Avoids t) {view : Db ρ}
    (hst : tx.statement m view = some st) :
    st.rest.Avoids t ∧ ∀ db, st.change db t = db t := by
  cases tx with
  | ret a => cases hst
  | fail e => cases hst
  | select t' p k =>
    cases hst
    exact ⟨h _, fun _ => rfl⟩
  | lock mode t' p k =>
    cases hst
    exact ⟨h _, fun _ => rfl⟩
  | update t' p f k =>
    cases hst
    exact ⟨h.2 _, fun _ => edit_of_ne (Ne.symm h.1) ..⟩
  | delete t' p k =>
    cases hst
    exact ⟨h.2 _, fun _ => edit_of_ne (Ne.symm h.1) ..⟩
  | insert t' r k =>
    simp only [Tx.statement, Option.some.injEq] at hst
    subst hst
    split
    · exact ⟨h.2 _, fun _ => rfl⟩
    · exact ⟨h.2 _, fun _ => edit_of_ne (Ne.symm h.1) ..⟩
  | upsert t' r g k =>
    simp only [Tx.statement, Option.some.injEq] at hst
    subst hst
    split
    · exact ⟨h.2, fun _ => edit_of_ne (Ne.symm h.1) ..⟩
    · exact ⟨h.2, fun _ => edit_of_ne (Ne.symm h.1) ..⟩
  | ask k =>
    cases hst
    exact ⟨h _, fun _ => rfl⟩

omit [DecidableEq κ] in
/-- Induction on the statements that are left. -/
theorem statement_induction {P : Tx ρ ε μ α → Prop} (hret : ∀ a, P (.ret a))
    (hfail : ∀ e, P (.fail e))
    (hnext : ∀ tx, tx.ended = false →
      (∀ m view (st : Statement ρ ε μ α κ), tx.statement m view = some st → P st.rest) → P tx)
    (tx : Tx ρ ε μ α) : P tx := by
  induction tx with
  | ret a => exact hret a
  | fail e => exact hfail e
  | select t p k ih =>
    refine hnext _ rfl fun m view st hst => ?_
    cases hst
    exact ih _
  | lock mode t p k ih =>
    refine hnext _ rfl fun m view st hst => ?_
    cases hst
    exact ih _
  | update t p f k ih =>
    refine hnext _ rfl fun m view st hst => ?_
    cases hst
    exact ih _
  | delete t p k ih =>
    refine hnext _ rfl fun m view st hst => ?_
    cases hst
    exact ih _
  | insert t r k ih =>
    refine hnext _ rfl fun m view st hst => ?_
    simp only [Tx.statement, Option.some.injEq] at hst
    subst hst
    split <;> exact ih _
  | upsert t r g k ih =>
    refine hnext _ rfl fun m view st hst => ?_
    simp only [Tx.statement, Option.some.injEq] at hst
    subst hst
    split <;> exact ih
  | ask k ih =>
    refine hnext _ rfl fun m view st hst => ?_
    cases hst
    exact ih _

/-- A body that does not change a table keeps its locks and leaves the table alone. -/
theorem Ensures.of_avoids (h : tx.Avoids t) (snaps : List (Snap ρ κ))
    (pend : Db ρ → Db ρ) :
    Ensures (fun _ snaps' pend' => snaps ⊆ snaps' ∧ ∀ db, pend' db t = pend db t) snaps pend tx := by
  revert snaps pend h
  apply statement_induction (P := fun tx => tx.Avoids t → ∀ snaps pend, Ensures _ snaps pend tx)
  · exact fun a _ snaps pend => .ret ⟨List.Subset.refl _, fun _ => rfl⟩
  · exact fun e _ snaps pend => .fail
  · intro tx hlive ih h snaps pend
    refine .next hlive fun m db st _ hst => ?_
    obtain ⟨hrest, hchange⟩ := statement_avoids h hst
    refine (ih m _ st hst hrest (⟨st.keys, db⟩ :: snaps) _).mono ?_
    rintro a snaps' pend' ⟨hsub, heq⟩
    refine ⟨fun sn hsn => hsub (List.mem_cons_of_mem _ hsn), fun db => ?_⟩
    rw [heq, hchange]

/-! ### Servers on which every transaction follows an outline -/

namespace Server

variable [DecidableEq S]

/-- Every running transaction is on its outline: it holds the locks it relies on, the committed
    tables fit them, and the rest of its body ensures its property. -/
def Follows (Q : C → α → List (Snap ρ κ) → (Db ρ → Db ρ) → Prop) (σ : Server ρ ε μ α S C κ) : Prop :=
  ∀ s tx, σ.txs s = some tx → ∃ snaps : List (Snap ρ κ),
    (∀ sn ∈ snaps, ∀ k ∈ sn.keys, ∃ l ∈ σ.locks, l.holder = s ∧ l.key = k) ∧
      Fits snaps σ.rows ∧ Ensures (Q tx.call) snaps tx.pending tx.body

variable {Q : C → α → List (Snap ρ κ) → (Db ρ → Db ρ) → Prop} {body : C → Tx ρ ε μ α}
  {σ : Server ρ ε μ α S C κ}

omit [DecidableEq S] in
theorem follows_start (rows : Db ρ) : (start rows : Server ρ ε μ α S C κ).Follows Q := by
  intro s tx h
  cases h

/-- The locks of a session are there as long as it does not end its transaction itself. -/
theorem lock_kept {s : S} {ev : SessionEvent μ C} {l : Lock S κ} (hl : l ∈ σ.locks)
    (hs : l.holder ≠ s) : l ∈ (σ.step body (s, ev)).locks := by
  have hfinish : l ∈ (σ.finish s).locks := List.mem_filter.mpr ⟨hl, decide_eq_true hs⟩
  rcases step_cases body σ s ev with he | ⟨call, -, he⟩ | ⟨tx, -, he⟩ | ⟨m, tx, a, -, -, -, he⟩ |
    ⟨m, tx, st, -, -, hw, he⟩ <;> rw [he]
  · exact hl
  · exact hl
  · exact hfinish
  · exact hfinish
  · rw [Server.execute, hw, if_neg Bool.false_ne_true]
    exact List.mem_append_right _ hl

/-- A step changes the transaction of its own session only. -/
theorem step_txs_of_ne {s s' : S} (hs : s' ≠ s) (ev : SessionEvent μ C) :
    (σ.step body (s, ev)).txs s' = σ.txs s' := by
  rcases step_cases body σ s ev with he | ⟨call, -, he⟩ | ⟨tx, -, he⟩ | ⟨m, tx, a, -, -, -, he⟩ |
    ⟨m, tx, st, -, -, hw, he⟩ <;> rw [he]
  · exact put_of_ne σ hs _
  · exact finish_of_ne σ hs
  · exact finish_of_ne σ hs
  · rw [Server.execute, hw, if_neg Bool.false_ne_true]
    exact put_of_ne σ hs _

/-- **The outline rule.**  When the body of every call ensures its property, every running
    transaction stays on its outline. -/
theorem Follows.step (hbody : ∀ call, Ensures (Q call) [] id (body call)) (hsound : σ.Sound)
    (h : σ.Follows Q) (ev : S × SessionEvent μ C) : (σ.step body ev).Follows Q := by
  obtain ⟨s, ev⟩ := ev
  intro s' tx' htx'
  by_cases hs : s' = s
  · subst hs
    rcases step_cases body σ s' ev with he | ⟨call, -, he⟩ | ⟨tx, -, he⟩ | ⟨m, tx, a, -, -, -, he⟩ |
      ⟨m, tx, st, htx, hst, hw, he⟩ <;> rw [he] at htx' ⊢
    · exact h s' tx' htx'
    · rw [put_self] at htx'
      cases htx'
      exact ⟨[], by simp, by simp [Fits], hbody call⟩
    · rw [finish_self] at htx'
      cases htx'
    · rw [show (σ.commit s' tx a).txs s' = none from finish_self σ s'] at htx'
      cases htx'
    · rw [Server.execute, hw, if_neg Bool.false_ne_true] at htx' ⊢
      obtain rfl : tx.after st = tx' :=
        Option.some.inj ((put_self σ s' (tx.after st)).symm.trans htx')
      obtain ⟨snaps, hlocks, hfits, hens⟩ := h s' tx htx
      refine ⟨⟨st.keys, σ.rows⟩ :: snaps, ?_, ?_, hens.after hfits hst⟩
      · intro sn hsn k hk
        rcases List.mem_cons.mp hsn with rfl | hsn
        · exact ⟨⟨k, s', st.mode, st.dirty⟩,
            List.mem_append_left _ (List.mem_map.mpr ⟨k, hk, rfl⟩), rfl, rfl⟩
        · obtain ⟨l, hl, hholder, hkey⟩ := hlocks sn hsn k hk
          exact ⟨l, List.mem_append_right _ hl, hholder, hkey⟩
      · intro sn hsn k hk
        rcases List.mem_cons.mp hsn with rfl | hsn
        · exact SameRow.refl k σ.rows
        · exact hfits sn hsn k hk
  · rw [step_txs_of_ne hs] at htx'
    obtain ⟨snaps, hlocks, hfits, hens⟩ := h s' tx' htx'
    refine ⟨snaps, ?_, ?_, hens⟩
    · intro sn hsn k hk
      obtain ⟨l, hl, hholder, hkey⟩ := hlocks sn hsn k hk
      exact ⟨l, lock_kept hl (by rw [hholder]; exact hs), hholder, hkey⟩
    · -- the rows this session relies on are locked, so the step of another keeps them
      intro sn hsn k hk
      obtain ⟨l, hl, hholder, rfl⟩ := hlocks sn hsn k hk
      have hkeep := hsound.stable body hl (s := s) (by rw [hholder]; exact hs) ev
      exact (hfits sn hsn l.key hk).trans hkeep.symm

omit [DecidableEq S] in
/-- A transaction at its commit has its property, for tables that fit what it saw. -/
theorem Follows.commit (h : σ.Follows Q) {s : S} {tx : Running ρ ε μ α C} (htx : σ.txs s = some tx)
    (ha : tx.body = .ret a) :
    ∃ snaps : List (Snap ρ κ), Fits snaps σ.rows ∧ Q tx.call a snaps tx.pending := by
  obtain ⟨snaps, -, hfits, hens⟩ := h s tx htx
  rw [ha] at hens
  exact ⟨snaps, hfits, hens.of_ret⟩

end Server

end Sql
