import MemoryLayer.Pgindex.Agree
import MemoryLayer.Controlplane.Server

namespace MemoryLayer.Pgindex

open Sql Sql.Tx Snapshot
open Controlplane (Remote callDomain)

/-! # The rows of one domain

Every row of the index has a domain, which is part of its key.  A call that nodes can cause reads and changes
rows of its own domain only.

- `restrict`: the tables with the rows of one domain only.
- `call_restrict`: a call does on these rows what it does on all, and leaves the others alone.
-/

/-- The domain of a row. -/
def rowDomain : (t : Table) → Row t → String
  | .packManifest, r => r.domain
  | .packs, r => r.domain
  | .packAssoc, r => r.domain
  | .backfill, r => r.domain

/-- The rows of a domain. -/
def ofDomain (d : String) (t : Table) (rows : List (Row t)) : List (Row t) :=
  rows.filter fun r => rowDomain t r = d

/-- The tables with the rows of a domain. -/
def restrict (d : String) (db : Db) : Db := fun t => ofDomain d t (db t)

section Rows

variable {d e : String} {t : Table} {rows rs : List (Row t)} {p : Row t → Bool} {r : Row t}

/-- Rows with the same key are of the same domain. -/
theorem rowDomain_of_clash {s : Row t} (h : clash t r s = true) : rowDomain t r = rowDomain t s := by
  have hkey : rowKey t r = rowKey t s := by simpa [clash] using h
  cases t <;> simp_all [rowKey, rowDomain]

/-- A search among the rows of a domain. -/
theorem filter_ofDomain (hp : ∀ r, p r = true → rowDomain t r = d) :
    (ofDomain d t rows).filter p = rows.filter p := by
  unfold ofDomain
  rw [List.filter_filter]
  refine List.filter_congr fun r _ => ?_
  cases hr : p r with
  | false => rfl
  | true => simp [hp r hr]

/-- A change of a table within a domain: it changes the rows of the domain as it would change them
    alone, and no others. -/
def Within (d : String) (f : List (Row t) → List (Row t)) : Prop :=
  ∀ rows, ofDomain d t (f rows) = f (ofDomain d t rows)
    ∧ ∀ e, e ≠ d → ofDomain e t (f rows) = ofDomain e t rows

theorem within_inserted (hr : rowDomain t r = d) : Within d (inserted r) := by
  intro rows
  -- a row that clashes is in the domain
  have hany : (ofDomain d t rows).any (clash t r) = rows.any (clash t r) := by
    unfold ofDomain
    rw [List.any_filter]
    refine congrArg rows.any (funext fun s => ?_)
    cases hs : clash t r s with
    | false => simp
    | true => simp [← rowDomain_of_clash hs, hr]
  unfold inserted
  rw [hany]
  split
  · exact ⟨rfl, fun e _ => rfl⟩
  · exact ⟨by simp [ofDomain, hr], fun e he => by simp [ofDomain, hr, he.symm]⟩

theorem within_insertRows (hrs : ∀ r ∈ rs, rowDomain t r = d) :
    Within d fun rows => rs.foldl (fun acc r => inserted r acc) rows := by
  induction rs with
  | nil => exact fun rows => ⟨rfl, fun e _ => rfl⟩
  | cons r rs ih =>
    intro rows
    obtain ⟨hone, hother⟩ := within_inserted (hrs r (List.mem_cons_self ..)) rows
    obtain ⟨hrest, hothers⟩ := ih (fun s hs => hrs s (List.mem_cons_of_mem _ hs)) (inserted r rows)
    exact ⟨hrest.trans (by rw [hone]; rfl), fun e he => (hothers e he).trans (hother e he)⟩

theorem within_deleted (hp : ∀ r, p r = true → rowDomain t r = d) : Within d (deleted p) := by
  intro rows
  unfold ofDomain deleted
  simp only [List.filter_filter]
  refine ⟨List.filter_congr fun r _ => Bool.and_comm .., fun e he => List.filter_congr fun r _ => ?_⟩
  cases hr : p r with
  | false => simp
  | true => simp [hp r hr, he.symm]

theorem restrict_edit {f : List (Row t) → List (Row t)} (h : Within d f) (db : Db) :
    restrict d (edit t f db) = edit t f (restrict d db)
      ∧ ∀ e, e ≠ d → restrict e (edit t f db) = restrict e db := by
  unfold restrict
  refine ⟨funext fun u => ?_, fun e he => funext fun u => ?_⟩ <;> by_cases hu : u = t
  · subst hu
    simp only [edit_self, (h _).1]
  · simp only [edit_of_ne hu]
  · subst hu
    simp only [edit_self, (h _).2 e he]
  · simp only [edit_of_ne hu]

end Rows

/-! ### Calls -/

/-- The state of a pack is in its domain. -/
theorem stateIn_ofDomain (packs : List PackRow) (d p : String) :
    stateIn (ofDomain d .packs packs) d p = stateIn packs d p := by
  have hdomain : ∀ r : PackRow, isPack d p r = true → r.domain = d := by
    intro r hr
    simp only [isPack, decide_eq_true_eq] at hr
    exact hr.1
  have hrows : (ofDomain d .packs packs).filter (isPack d p) = packs.filter (isPack d p) :=
    filter_ofDomain (t := .packs) hdomain
  unfold stateIn
  rw [← List.head?_filter, ← List.head?_filter, hrows]

theorem manifestRow_domain {d : String} {locs : List ChunkLocation} :
    ∀ r ∈ locs.map (manifestRow d), rowDomain .packManifest r = d := by
  intro r hr
  obtain ⟨loc, -, rfl⟩ := List.mem_map.mp hr
  rfl

theorem assocRow_domain {d : String} {assocs : List PackAssociation} :
    ∀ r ∈ assocs.map (assocRow d), rowDomain .packAssoc r = d := by
  intro r hr
  obtain ⟨as, -, rfl⟩ := List.mem_map.mp hr
  rfl

/-- **A call on the rows of its domain.**  It is answered as on all rows, changes them as it does there,
    and leaves the rows of other domains alone. -/
theorem call_restrict {c : IndexCall} (hc : Remote c) (db : Db) :
    (call (restrict (callDomain c) db) c).1 = (call db c).1
      ∧ (call (restrict (callDomain c) db) c).2 = restrict (callDomain c) (call db c).2
      ∧ ∀ e, e ≠ callDomain c → restrict e (call db c).2 = restrict e db := by
  cases hc with
  | lookupBatch d hashes =>
    simp only [call, serve, lookupBatchTx, callDomain]
    by_cases hnil : hashes = []
    · simp [hnil]
    · simp only [if_neg hnil, joinStored, exec_bind, exec_selectRows, andThen_ok, exec_pure, List.filter_true,
        implies_true, and_true]
      have hrows : (ofDomain d .packManifest (db .packManifest)).filter
            (fun r => r.domain = d ∧ r.chunkHash ∈ hashes)
          = (db .packManifest).filter fun r => r.domain = d ∧ r.chunkHash ∈ hashes :=
        filter_ofDomain fun r hr => (of_decide_eq_true hr).1
      simp only [restrict, hrows, stateIn_ofDomain]
  | record d locs =>
    simp only [call, serve, recordTx, callDomain, exec_insertRows, true_and]
    exact (restrict_edit (within_insertRows manifestRow_domain) db).imp_left Eq.symm
  | purgePacks d packs =>
    simp only [call, serve, purgePacksTx, purgeManifestTx, purgeRowsTx, callDomain, exec_bind, exec_deleteRows,
      andThen_ok, exec_pure, true_and]
    have hmanifest := restrict_edit (d := d) (within_deleted (t := .packManifest) (p := fun r =>
      r.domain = d ∧ r.packHash ∈ packs) fun r hr => (of_decide_eq_true hr).1) db
    have hpacks := restrict_edit (d := d) (within_deleted (t := .packs) (p := fun r =>
      r.domain = d ∧ r.packHash ∈ packs) fun r hr => (of_decide_eq_true hr).1)
    exact ⟨by rw [(hpacks _).1, hmanifest.1], fun e he => ((hpacks _).2 e he).trans (hmanifest.2 e he)⟩
  | associate d assocs =>
    simp only [call, callDomain]
    by_cases hnil : assocs = []
    · simp [hnil]
    · -- the check finds the same rows, so both are refused or neither
      have hrows : (ofDomain d .packs (db .packs)).filter
            (fun r => r.domain = d ∧ r.packHash ∈ assocs.map PackAssociation.packHash ∧ r.state ≠ .stored)
          = (db .packs).filter fun r =>
            r.domain = d ∧ r.packHash ∈ assocs.map PackAssociation.packHash ∧ r.state ≠ .stored :=
        filter_ofDomain fun r hr => (of_decide_eq_true hr).1
      simp only [if_neg hnil, serve, associateTx, exec_bind, exec_lockRows, andThen_ok, exec_require]
      rw [show restrict d db .packs = ofDomain d .packs (db .packs) from rfl, hrows]
      by_cases hbad : (db .packs).filter (fun r =>
          r.domain = d ∧ r.packHash ∈ assocs.map PackAssociation.packHash ∧ r.state ≠ .stored) = []
      · simp only [hbad, if_true, andThen_ok, exec_insertRows, true_and]
        exact (restrict_edit (t := .packAssoc) (within_insertRows assocRow_domain) db).imp_left Eq.symm
      · simp only [hbad, if_false, andThen_error, implies_true, and_self]

end MemoryLayer.Pgindex
