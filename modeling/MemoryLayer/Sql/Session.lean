import MemoryLayer.Lib.Runs
import MemoryLayer.Sql.Tx

namespace Sql

open Tx Runs

/-! # Concurrent transactions

Transaction bodies that run at the isolation level READ COMMITTED, one statement at a time and in
any interleaving.  A statement sees what is committed when it runs, and the changes of its own
transaction.  A statement that locks or changes rows waits for the locks of others; row locks are
held to the end of the transaction.

- `Keys`: the key under which a row is locked.
- `Statement`, `Tx.statement`: what the next statement of a body locks, changes and answers.
- `Server`, `Server.step`: the committed tables, the running transactions and the locks, and one
  step of a session.
- `Server.Sound`: what locks guarantee.
- `Server.validated`, `serial_of_validated`: commits that change what the transaction alone, run at
  that moment, would have changed.
-/

/-- The key under which a row is locked; a row that no other transaction can find has none. -/
class Keys {τ : Type} (ρ : τ → Type) (κ : outParam Type) where
  key : (t : τ) → ρ t → Option κ

variable {τ : Type} {ρ : τ → Type} {ε μ α β S C κ : Type} {t : τ} {rs : List (ρ t)} {tx : Tx ρ ε μ α}
  {m : μ} {s s' : S}

/-- The keys of some rows. -/
def keysOf [Keys ρ κ] (t : τ) (rs : List (ρ t)) : List κ := rs.filterMap (Keys.key t)

/-! ### Statements -/

/-- What one statement of a transaction does.
    * It waits while another transaction is changing a row of `awaits`, or has a lock on a row of
      `keys` that excludes `mode`;
    * then it locks the rows of `keys`, which are `dirty` when it changes them;
    * it makes the change `change`, and the body goes on with `rest`. -/
structure Statement (ρ : τ → Type) (ε μ α κ : Type) where
  awaits : List κ
  keys : List κ
  mode : Mode
  dirty : Bool
  change : Db ρ → Db ρ
  rest : Tx ρ ε μ α

namespace Statement

/-- A statement that locks and changes nothing. -/
def read (rest : Tx ρ ε μ α) : Statement ρ ε μ α κ := ⟨[], [], .share, false, id, rest⟩

/-- A statement that changes rows with the keys `keys`. -/
def write (awaits keys : List κ) (change : Db ρ → Db ρ) (rest : Tx ρ ε μ α) :
    Statement ρ ε μ α κ := ⟨awaits, keys, .update, true, change, rest⟩

end Statement

/-! ### The server -/

/-- A row lock: who holds it, and whether the holder has changed the row. -/
structure Lock (S κ : Type) where
  key : κ
  holder : S
  mode : Mode
  dirty : Bool
  deriving DecidableEq, Repr

/-- A running transaction: the call it serves, the rest of its body, and its changes so far. -/
structure Running (ρ : τ → Type) (ε μ α C : Type) where
  call : C
  body : Tx ρ ε μ α
  pending : Db ρ → Db ρ

/-- A transaction after a statement. -/
def Running.after (tx : Running ρ ε μ α C) (st : Statement ρ ε μ α κ) : Running ρ ε μ α C :=
  { tx with body := st.rest, pending := fun db => st.change (tx.pending db) }

/-- A database server: the committed tables, the running transaction of each session, the row locks,
    and the calls that were committed, with their answers. -/
structure Server (ρ : τ → Type) (ε μ α S C κ : Type) where
  rows : Db ρ
  txs : S → Option (Running ρ ε μ α C)
  locks : List (Lock S κ)
  log : List (C × α)

/-- What a session can do: begin a transaction for a call, execute the next statement or the commit,
    or lose the transaction. -/
inductive SessionEvent (μ C : Type) where
  | begin (call : C)
  | next (m : μ)
  | cancel

namespace Server

variable [DecidableEq S]

/-- A session goes on with its transaction. -/
def put (σ : Server ρ ε μ α S C κ) (s : S) (tx : Running ρ ε μ α C) : Server ρ ε μ α S C κ :=
  { σ with txs := Function.update σ.txs s (some tx) }

/-- The end of a session's transaction: its locks are released. -/
def finish (σ : Server ρ ε μ α S C κ) (s : S) : Server ρ ε μ α S C κ :=
  { σ with txs := Function.update σ.txs s none, locks := σ.locks.filter fun l => l.holder ≠ s }

/-- A server with nothing running. -/
def start (rows : Db ρ) : Server ρ ε μ α S C κ := ⟨rows, fun _ => none, [], []⟩

section

variable (σ : Server ρ ε μ α S C κ)

@[simp] theorem put_self (s : S) (tx : Running ρ ε μ α C) :
    (σ.put s tx).txs s = some tx := Function.update_self ..

theorem put_of_ne (h : s' ≠ s) (tx : Running ρ ε μ α C) :
    (σ.put s tx).txs s' = σ.txs s' := Function.update_of_ne h ..

@[simp] theorem finish_self (s : S) : (σ.finish s).txs s = none :=
  Function.update_self ..

theorem finish_of_ne (h : s' ≠ s) :
    (σ.finish s).txs s' = σ.txs s' := Function.update_of_ne h ..

end

end Server

/-! ### Rows under a key -/

variable {k : κ}

section Keyed

variable [Keys ρ κ]

/-- Whether a row has a key. -/
def hasKey (t : τ) (k : κ) [DecidableEq κ] (r : ρ t) : Bool := Keys.key t r = some k

/-- Two databases have the same rows under a key. -/
def SameRow [DecidableEq κ] (k : κ) (db db' : Db ρ) : Prop :=
  ∀ t, (db t).filter (hasKey t k) = (db' t).filter (hasKey t k)

variable [DecidableEq κ]

theorem SameRow.refl (k : κ) (db : Db ρ) : SameRow k db db := fun _ => rfl

theorem SameRow.symm {db db' : Db ρ} (h : SameRow k db db') : SameRow k db' db :=
  fun t => (h t).symm

theorem SameRow.trans {db₁ db₂ db₃ : Db ρ} (h : SameRow k db₁ db₂)
    (h' : SameRow k db₂ db₃) : SameRow k db₁ db₃ := fun t => (h t).trans (h' t)

theorem hasKey_of_not_mem {r : ρ t} (h : k ∉ keysOf t rs)
    (hr : r ∈ rs) : hasKey t k r = false := by
  apply decide_eq_false
  intro hk
  exact h (List.mem_filterMap.mpr ⟨r, hr, hk⟩)

end Keyed

/-! ### Execution -/

section Semantics

variable [DecidableEq τ] [∀ t, DecidableEq (ρ t)] [Constraints ρ] [Keys ρ κ]

/-- The next statement of a body that sees the tables `view`; a body that has ended has none.
    A change is made to the very rows that were found. -/
def Tx.statement (m : μ) (view : Db ρ) : Tx ρ ε μ α → Option (Statement ρ ε μ α κ)
  | .ret _ => none
  | .fail _ => none
  | .select t p k => some (.read (k ((view t).filter p)))
  | .lock mode t p k =>
    let rs := (view t).filter p
    some ⟨[], keysOf t rs, mode, false, id, k rs⟩
  | .update t p f k =>
    let rs := (view t).filter p
    some (.write [] (keysOf t (rs ++ rs.map f)) (edit t (updated (fun r => r ∈ rs) f)) (k (rs.map f)))
  | .delete t p k =>
    let rs := (view t).filter p
    some (.write [] (keysOf t rs) (edit t (deleted fun r => r ∈ rs)) (k rs.length))
  | .insert t r k =>
    some (if (view t).any (clash t r) then { Statement.read (k false) with awaits := keysOf t [r] }
      else .write (keysOf t [r]) (keysOf t [r]) (edit t (inserted r)) (k true))
  | .upsert t r g k =>
    let rs := (view t).filter (clash t r)
    some (if rs = [] then .write (keysOf t [r]) (keysOf t [r]) (edit t (inserted r)) k
      else .write (keysOf t [r]) (keysOf t (rs ++ rs.map g)) (edit t (updated (fun r => r ∈ rs) g)) k)
  | .ask k => some (.read (k m))

variable (body : C → Tx ρ ε μ α)

namespace Server

variable [DecidableEq S] [DecidableEq κ]

/-- Another session's lock is in the way of a statement. -/
def waits (σ : Server ρ ε μ α S C κ) (s : S) (st : Statement ρ ε μ α κ) : Bool :=
  σ.locks.any fun l => l.holder ≠ s ∧
    (l.key ∈ st.awaits ∧ l.dirty ∨ l.key ∈ st.keys ∧ (st.mode = .update ∨ l.mode = .update))

/-- Execute a statement; one that has to wait changes nothing. -/
def execute (σ : Server ρ ε μ α S C κ) (s : S) (tx : Running ρ ε μ α C)
    (st : Statement ρ ε μ α κ) : Server ρ ε μ α S C κ :=
  if σ.waits s st then σ
  else
    { σ.put s (tx.after st) with
      locks := st.keys.map (fun k => ⟨k, s, st.mode, st.dirty⟩) ++ σ.locks }

/-- Commit a transaction. -/
def commit (σ : Server ρ ε μ α S C κ) (s : S) (tx : Running ρ ε μ α C) (a : α) :
    Server ρ ε μ α S C κ :=
  { σ.finish s with rows := tx.pending σ.rows, log := σ.log ++ [(tx.call, a)] }

/-- Go on with a running transaction: commit it, roll it back, or execute its next statement. -/
def next (σ : Server ρ ε μ α S C κ) (s : S) (tx : Running ρ ε μ α C) (m : μ) :
    Server ρ ε μ α S C κ :=
  match tx.body with
  | .ret a => σ.commit s tx a
  | .fail _ => σ.finish s
  | body => match body.statement m (tx.pending σ.rows) with
    | some st => σ.execute s tx st
    | none => σ

/-- One step of a session; `body` is the transaction of a call. -/
def step (σ : Server ρ ε μ α S C κ) (ev : S × SessionEvent μ C) :
    Server ρ ε μ α S C κ :=
  match ev.2, σ.txs ev.1 with
  | .begin call, none => σ.put ev.1 ⟨call, body call, id⟩
  | .next m, some tx => σ.next ev.1 tx m
  | .cancel, some _ => σ.finish ev.1
  | _, _ => σ

/-- A session executes its next `n` statements. -/
def statements (m : μ) (s : S) (n : Nat) : List (S × SessionEvent μ C) :=
  List.replicate n (s, .next m)

/-- Everything a step can do. -/
theorem step_cases (σ : Server ρ ε μ α S C κ) (s : S)
    (ev : SessionEvent μ C) :
    σ.step body (s, ev) = σ ∨
    (∃ call, σ.txs s = none ∧ σ.step body (s, ev) = σ.put s ⟨call, body call, id⟩) ∨
    (∃ tx, σ.txs s = some tx ∧ σ.step body (s, ev) = σ.finish s) ∨
    (∃ m tx a, ev = .next m ∧ σ.txs s = some tx ∧ tx.body = .ret a ∧
      σ.step body (s, ev) = σ.commit s tx a) ∨
    ∃ m tx st, σ.txs s = some tx ∧ tx.body.statement m (tx.pending σ.rows) = some st ∧
      σ.waits s st = false ∧ σ.step body (s, ev) = σ.execute s tx st := by
  have hwait : ∀ {m tx st}, σ.txs s = some tx →
      tx.body.statement m (tx.pending σ.rows) = some st →
      σ.execute s tx st = σ ∨ ∃ m tx' st', σ.txs s = some tx' ∧
        tx'.body.statement m (tx'.pending σ.rows) = some st' ∧ σ.waits s st' = false ∧
        σ.execute s tx st = σ.execute s tx' st' := by
    intro m tx st htx hst
    cases hw : σ.waits s st with
    | true => exact .inl (by rw [execute, if_pos hw])
    | false => exact .inr ⟨m, tx, st, htx, hst, hw, rfl⟩
  cases htx : σ.txs s with
  | none =>
    cases ev with
    | begin call => exact .inr (.inl ⟨call, rfl, by simp only [step, htx]⟩)
    | next m => exact .inl (by simp only [step, htx])
    | cancel => exact .inl (by simp only [step, htx])
  | some tx =>
    cases ev with
    | begin call => exact .inl (by simp only [step, htx])
    | cancel => exact .inr (.inr (.inl ⟨tx, rfl, by simp only [step, htx]⟩))
    | next m =>
      have hstep : σ.step body (s, .next m) = σ.next s tx m := by simp only [step, htx]
      rw [hstep, next]
      split
      · rename_i a ha
        exact .inr (.inr (.inr (.inl ⟨m, tx, a, rfl, rfl, ha, rfl⟩)))
      · exact .inr (.inr (.inl ⟨tx, rfl, rfl⟩))
      · split
        · rename_i st hst
          rcases hwait htx hst with h | h
          · exact .inl h
          · rw [htx] at h
            exact .inr (.inr (.inr (.inr h)))
        · exact .inl rfl

end Server

/-! ### What a statement leaves alone -/

variable [DecidableEq κ]

omit [∀ t, DecidableEq (ρ t)] [Constraints ρ] in
/-- A change of one table that keeps the rows under a key. -/
theorem sameRow_edit {f : List (ρ t) → List (ρ t)}
    (h : ∀ rows, (f rows).filter (hasKey t k) = rows.filter (hasKey t k)) (db : Db ρ) :
    SameRow k (edit t f db) db := by
  intro t'
  by_cases ht : t' = t
  · subst ht
    rw [edit_self, h]
  · rw [edit_of_ne ht]

omit [DecidableEq τ] [Constraints ρ] in
theorem filter_updated {f : ρ t → ρ t}
    (h : k ∉ keysOf t (rs ++ rs.map f)) (rows : List (ρ t)) :
    (updated (fun r => r ∈ rs) f rows).filter (hasKey t k) = rows.filter (hasKey t k) := by
  induction rows with
  | nil => rfl
  | cons r rows ih =>
    simp only [updated, List.map_cons, decide_eq_true_eq] at ih ⊢
    by_cases hr : r ∈ rs
    · have hold : hasKey t k r = false := hasKey_of_not_mem h (List.mem_append_left _ hr)
      have hnew : hasKey t k (f r) = false :=
        hasKey_of_not_mem h (List.mem_append_right _ (List.mem_map_of_mem hr))
      simp only [hr, if_true, List.filter_cons, hold, hnew, ih, Bool.false_eq_true, if_false]
    · simp only [hr, if_false, List.filter_cons, ih]

omit [DecidableEq τ] [Constraints ρ] in
theorem filter_deleted (h : k ∉ keysOf t rs)
    (rows : List (ρ t)) :
    (deleted (fun r => r ∈ rs) rows).filter (hasKey t k) = rows.filter (hasKey t k) := by
  rw [deleted, List.filter_filter]
  apply List.filter_congr
  intro r _
  by_cases hr : r ∈ rs
  · simp [hasKey_of_not_mem h hr]
  · simp [hr]

omit [DecidableEq τ] [∀ t, DecidableEq (ρ t)] in
theorem filter_inserted {r : ρ t} (h : k ∉ keysOf t [r]) (rows : List (ρ t)) :
    (inserted r rows).filter (hasKey t k) = rows.filter (hasKey t k) := by
  unfold inserted
  split
  · rfl
  · rw [List.filter_append, List.filter_singleton, hasKey_of_not_mem h List.mem_cons_self]
    simp

variable {st : Statement ρ ε μ α κ}

/-- **Frame.**  A statement keeps the rows under every key that it does not lock for a change. -/
theorem statement_frame {view : Db ρ}
    (h : tx.statement m view = some st) (hk : st.mode = .update → k ∉ st.keys) (db : Db ρ) :
    SameRow k (st.change db) db := by
  cases tx with
  | ret a => cases h
  | fail e => cases h
  | select t p c =>
    cases h
    exact SameRow.refl k db
  | lock mode t p c =>
    cases h
    exact SameRow.refl k db
  | update t p f c =>
    cases h
    exact sameRow_edit (filter_updated (hk rfl)) db
  | delete t p c =>
    cases h
    exact sameRow_edit (filter_deleted (hk rfl)) db
  | insert t r c =>
    simp only [Tx.statement, Option.some.injEq] at h
    subst h
    split at hk
    · rename_i hc
      rw [if_pos hc]
      exact SameRow.refl k db
    · rename_i hc
      rw [if_neg hc]
      exact sameRow_edit (filter_inserted (hk rfl)) db
  | upsert t r g c =>
    simp only [Tx.statement, Option.some.injEq] at h
    subst h
    split at hk
    · rename_i hc
      rw [if_pos hc]
      exact sameRow_edit (filter_inserted (hk rfl)) db
    · rename_i hc
      rw [if_neg hc]
      exact sameRow_edit (filter_updated (hk rfl)) db
  | ask c =>
    cases h
    exact SameRow.refl k db

/-! ### Running alone -/

omit [DecidableEq τ] [Constraints ρ] in
theorem updated_filter (p : ρ t → Bool) (f : ρ t → ρ t) (rows : List (ρ t)) :
    updated (fun r => r ∈ rows.filter p) f rows = updated p f rows := by
  refine List.map_congr_left fun r hr => ?_
  simp [hr]

omit [DecidableEq τ] [Constraints ρ] in
theorem deleted_filter (p : ρ t → Bool) (rows : List (ρ t)) :
    deleted (fun r => r ∈ rows.filter p) rows = deleted p rows := by
  refine List.filter_congr fun r hr => ?_
  simp [hr]

omit [DecidableEq κ] in
/-- A body that runs alone executes its statements one after another. -/
theorem exec_statement {db : Db ρ}
    (h : tx.statement m db = some st) : tx.exec m db = st.rest.exec m (st.change db) := by
  cases tx with
  | ret a => cases h
  | fail e => cases h
  | select t p k =>
    cases h
    rfl
  | lock mode t p k =>
    cases h
    rfl
  | update t p f k =>
    cases h
    simp only [Statement.write, exec, edit, updated_filter]
  | delete t p k =>
    cases h
    simp only [Statement.write, exec, edit, deleted_filter, List.countP_eq_length_filter]
  | insert t r k =>
    simp only [Tx.statement, Option.some.injEq] at h
    subst h
    split
    · rename_i hc
      simp [Statement.read, exec, edit, inserted, hc]
    · rename_i hc
      simp [Statement.write, exec, hc]
  | upsert t r g k =>
    simp only [Tx.statement, Option.some.injEq] at h
    subst h
    have hiff : (db t).filter (clash t r) = [] ↔ (db t).any (clash t r) = false := by
      rw [List.filter_eq_nil_iff, List.any_eq_false]
    split
    · rename_i hc
      simp [Statement.write, exec, edit, inserted, upserted, hiff.mp hc]
    · rename_i hc
      have hany : (db t).any (clash t r) = true := by
        rw [← Bool.not_eq_false]
        exact fun h => hc (hiff.mpr h)
      simp only [Statement.write, exec, edit, upserted, hany, if_true, updated_filter]
  | ask k =>
    cases h
    rfl

/-! ### What locks guarantee -/

variable {σ : Server ρ ε μ α S C κ}

namespace Server

variable [DecidableEq S]

/-- Locks exclude each other, and a transaction changes only what it has locked. -/
structure Sound (σ : Server ρ ε μ α S C κ) : Prop where
  exclusive : ∀ l ∈ σ.locks, ∀ l' ∈ σ.locks, l.key = l'.key → l.holder ≠ l'.holder →
    l.mode = .share ∧ l'.mode = .share
  frame : ∀ s tx, σ.txs s = some tx → ∀ k, (∀ l ∈ σ.locks, l.holder = s → l.key = k →
    l.mode = .share) → ∀ db, SameRow k (tx.pending db) db

omit [DecidableEq τ] [∀ t, DecidableEq (ρ t)] [Constraints ρ] [DecidableEq S] in
theorem sound_start (rows : Db ρ) : (start rows : Server ρ ε μ α S C κ).Sound where
  exclusive := fun _ hl => absurd hl List.not_mem_nil
  frame := nofun

omit [DecidableEq τ] [∀ t, DecidableEq (ρ t)] [Constraints ρ] in
theorem Sound.begin (h : σ.Sound) (s : S) (call : C)
    (body : Tx ρ ε μ α) : (σ.put s ⟨call, body, id⟩).Sound where
  exclusive := h.exclusive
  frame := by
    intro s' tx htx k hk db
    by_cases hs : s' = s
    · subst hs
      rw [put_self] at htx
      cases htx
      exact SameRow.refl k db
    · rw [put_of_ne σ hs] at htx
      exact h.frame s' tx htx k hk db

omit [DecidableEq τ] [∀ t, DecidableEq (ρ t)] [Constraints ρ] in
theorem Sound.finish (h : σ.Sound) (s : S) : (σ.finish s).Sound where
  exclusive := fun l hl l' hl' =>
    h.exclusive l (List.mem_of_mem_filter hl) l' (List.mem_of_mem_filter hl')
  frame := by
    intro s' tx htx k hk db
    by_cases hs : s' = s
    · subst hs
      rw [finish_self] at htx
      cases htx
    · rw [finish_of_ne σ hs] at htx
      refine h.frame s' tx htx k ?_ db
      -- the locks of a session that goes on are still there
      intro l hl hholder hkey
      refine hk l (List.mem_filter.mpr ⟨hl, ?_⟩) hholder hkey
      rw [decide_eq_true_eq, hholder]
      exact hs

omit [DecidableEq τ] [∀ t, DecidableEq (ρ t)] [Constraints ρ] in
theorem Sound.commit (h : σ.Sound) (s : S)
    (tx : Running ρ ε μ α C) (a : α) : (σ.commit s tx a).Sound :=
  ⟨(h.finish s).exclusive, (h.finish s).frame⟩

/-- A statement that runs locks nothing that is locked by others in an excluding mode. -/
theorem Sound.execute (h : σ.Sound) {tx : Running ρ ε μ α C}
    (htx : σ.txs s = some tx)
    (hst : tx.body.statement m (tx.pending σ.rows) = some st) (hw : σ.waits s st = false) :
    (σ.execute s tx st).Sound := by
  rw [Server.execute, hw, if_neg Bool.false_ne_true]
  have hfree : ∀ l ∈ σ.locks, l.holder ≠ s → l.key ∈ st.keys →
      st.mode = .share ∧ l.mode = .share := by
    intro l hl hholder hkey
    rw [waits, List.any_eq_false] at hw
    have hl := hw l hl
    rw [decide_eq_true_eq] at hl
    have hmodes : ¬ (st.mode = .update ∨ l.mode = .update) := fun h => hl ⟨hholder, .inr ⟨hkey, h⟩⟩
    constructor
    · cases hm : st.mode with
      | share => rfl
      | update => exact absurd (.inl hm) hmodes
    · cases hm : l.mode with
      | share => rfl
      | update => exact absurd (.inr hm) hmodes
  constructor
  · intro l hl l' hl' hkey hholder
    rcases List.mem_append.mp hl with hl | hl <;> rcases List.mem_append.mp hl' with hl' | hl'
    · obtain ⟨k, -, rfl⟩ := List.mem_map.mp hl
      obtain ⟨k', -, rfl⟩ := List.mem_map.mp hl'
      exact absurd rfl hholder
    · obtain ⟨k, hk, rfl⟩ := List.mem_map.mp hl
      exact hfree l' hl' (Ne.symm hholder) (hkey ▸ hk)
    · obtain ⟨k, hk, rfl⟩ := List.mem_map.mp hl'
      have hkey : l.key = k := hkey
      exact (hfree l hl hholder (hkey.symm ▸ hk)).symm
    · exact h.exclusive l hl l' hl' hkey hholder
  · intro s' tx' htx' k hk db
    by_cases hs : s' = s
    · subst hs
      obtain rfl : tx.after st = tx' := Option.some.inj ((put_self σ s' (tx.after st)).symm.trans htx')
      apply (statement_frame hst _ (tx.pending db)).trans
      · exact h.frame s' tx htx k (fun l hl => hk l (List.mem_append_right _ hl)) db
      · intro hmode hkeys
        have hnew := hk ⟨k, s', st.mode, st.dirty⟩
          (List.mem_append_left _ (List.mem_map.mpr ⟨k, hkeys, rfl⟩)) rfl rfl
        rw [hmode] at hnew
        cases hnew
    · have htx' := (put_of_ne σ hs (tx.after st)).symm.trans htx'
      exact h.frame s' tx' htx' k (fun l hl => hk l (List.mem_append_right _ hl)) db

/-- Every step keeps the guarantees. -/
theorem Sound.step (h : σ.Sound)
    (ev : S × SessionEvent μ C) : (σ.step body ev).Sound := by
  obtain ⟨s, ev⟩ := ev
  rcases step_cases body σ s ev with hs | ⟨call, -, hs⟩ | ⟨tx, -, hs⟩ | ⟨m, tx, a, -, -, -, hs⟩ |
    ⟨m, tx, st, htx, hst, hw, hs⟩ <;> rw [hs]
  · exact h
  · exact h.begin s call (body call)
  · exact h.finish s
  · exact h.commit s tx a
  · exact h.execute htx hst hw

/-- **Stability.**  What a session has locked, no other session changes. -/
theorem Sound.stable (h : σ.Sound)
    {l : Lock S κ} (hl : l ∈ σ.locks) (hs : l.holder ≠ s) (ev : SessionEvent μ C) :
    SameRow l.key (σ.step body (s, ev)).rows σ.rows := by
  rcases step_cases body σ s ev with he | ⟨call, -, he⟩ | ⟨tx, -, he⟩ | ⟨m, tx, a, -, htx, -, he⟩ |
    ⟨m, tx, st, -, -, hw, he⟩ <;> rw [he]
  · exact SameRow.refl _ _
  · exact SameRow.refl _ _
  · exact SameRow.refl _ _
  · -- the session that commits has no lock on the row, or only a shared one
    refine h.frame s tx htx l.key ?_ σ.rows
    intro l' hl' hholder hkey
    exact (h.exclusive l hl l' hl' hkey.symm (by rw [hholder]; exact hs)).2
  · rw [Server.execute, hw, if_neg Bool.false_ne_true]
    exact SameRow.refl _ _

end Server

/-! ### Validated commits -/

namespace Server

variable [DecidableEq S] {O : Type} [DecidableEq O]

/-- The commit of a transaction changes what the transaction alone, run on the tables as they are
    now, would change: seen through `obs`, the tables are the same. -/
def validated (obs : Db ρ → O) (σ : Server ρ ε μ α S C κ)
    (ev : S × SessionEvent μ C) : Bool :=
  match ev.2, σ.txs ev.1 with
  | .next m, some tx =>
    match tx.body with
    | .ret _ =>
      match (body tx.call).exec m σ.rows with
      | .ok (_, db) => obs db = obs (tx.pending σ.rows)
      | .error _ => false
    | _ => true
  | _, _ => true

/-- **Serial reasoning.**  In a run whose commits are all validated, a property of the committed
    tables and calls holds throughout when every call, executed alone, keeps it.  The run may be
    restricted by further conditions. -/
theorem serial_of_validated {body : C → Tx ρ ε μ α} {obs : Db ρ → O}
    {ok : Server ρ ε μ α S C κ → S × SessionEvent μ C → Prop}
    (hval : ∀ σ ev, ok σ ev → σ.validated body obs ev = true) (Inv : Db ρ → List (C × α) → Prop)
    (hcall : ∀ σ s m tx a a' db', ok σ (s, .next m) → σ.txs s = some tx → tx.body = .ret a →
      Inv σ.rows σ.log → (body tx.call).exec m σ.rows = .ok (a', db') →
      obs db' = obs (tx.pending σ.rows) → Inv (tx.pending σ.rows) (σ.log ++ [(tx.call, a)]))
    (h : Inv σ.rows σ.log) {evs : List (S × SessionEvent μ C)}
    (hok : Guarded (step body) ok σ evs) :
    Inv (run (step body) σ evs).rows (run (step body) σ evs).log := by
  refine invariant_of_guarded (fun σ => Inv σ.rows σ.log) ?_ h hok
  intro σ ⟨s, ev⟩ h hok
  rcases step_cases body σ s ev with he | ⟨call, -, he⟩ | ⟨tx, -, he⟩ |
    ⟨m, tx, a, rfl, htx, ha, he⟩ | ⟨m, tx, st, -, -, hw, he⟩ <;> rw [he]
  · exact h
  · exact h
  · exact h
  · have hvalidated := hval σ _ hok
    simp only [validated, htx, ha] at hvalidated
    split at hvalidated
    · rename_i a' db' hexec
      exact hcall σ s m tx a a' db' hok htx ha h hexec (of_decide_eq_true hvalidated)
    · cases hvalidated
  · rw [Server.execute, hw, if_neg Bool.false_ne_true]
    exact h

end Server

end Semantics

end Sql
