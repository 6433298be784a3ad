import MemoryLayer.Sql.Keyed
import MemoryLayer.Pgindex.Store

namespace MemoryLayer.Pgindex

open Sql Sql.Tx Snapshot Runs MemoryDedupStore

/-! # The two dedup indexes agree

The store in PostgreSQL answers as the store in memory does, as long as packs are purged only while
they are stored.  A purge of a marked pack takes the mark along in PostgreSQL and leaves it in
memory.

- `found`: the row under a primary key, and what each kind of statement does to it.
- `Agrees`: the tables hold what the maps hold, which is the simulation relation.
- `agrees_call`: one call is answered alike and keeps the relation.
- `stores_agree`: so does every run.
-/

/-! ### The row under a primary key -/

/-- The row under a key. -/
def found (t : Table) (rows : List (Row t)) (k : RowKey) : Option (Row t) :=
  rows.find? fun r => rowKey t r = k

/-- No two rows of the table have the same key. -/
def Unique (t : Table) (rows : List (Row t)) : Prop := (rows.map (rowKey t)).Nodup

section Found

variable {t : Table} {rows : List (Row t)} {g : Row t → Row t} {k : RowKey}

theorem rowKey_of_found {r : Row t} (h : found t rows k = some r) : rowKey t r = k := by
  simpa using List.find?_some h

theorem found_isSome : (found t rows k).isSome ↔ ∃ r ∈ rows, rowKey t r = k := by
  simp [found, List.find?_isSome]

theorem any_clash (r : Row t) : rows.any (clash t r) = (found t rows (rowKey t r)).isSome := by
  rw [Bool.eq_iff_iff, found_isSome, List.any_eq_true]
  simp only [clash, decide_eq_true_eq, eq_comm (a := rowKey t r)]

/-- An insertion is seen under its own key, when nothing was there. -/
theorem found_inserted (r : Row t) (k : RowKey) :
    found t (inserted r rows) k
      = (found t rows k).or (if rowKey t r = k then some r else none) := by
  unfold inserted
  rw [any_clash]
  split
  · rename_i hthere
    split
    · rename_i hk
      rw [hk] at hthere
      obtain ⟨s, hs⟩ := Option.isSome_iff_exists.mp hthere
      rw [hs, Option.some_or]
    · rw [Option.or_none]
  · exact find?_append_key (rowKey t) rows r k

/-- With unique keys, a deletion takes the row under a key or leaves it. -/
theorem found_deleted (hu : Unique t rows) (p : Row t → Bool) (k : RowKey) :
    found t (deleted p rows) k = (found t rows k).filter fun r => !p r := by
  rw [found, deleted, ← List.head?_filter, List.filter_comm, filter_key_eq_toList hu, found]
  cases rows.find? fun r => rowKey t r = k with
  | none => rfl
  | some r => cases hp : p r <;> simp [hp, Option.filter]

/-- An update that keeps the keys rewrites the row under a key or leaves it. -/
theorem found_updated (p : Row t → Bool) {f : Row t → Row t}
    (hf : ∀ r, rowKey t (f r) = rowKey t r) (k : RowKey) :
    found t (updated p f rows) k = (found t rows k).map fun r => if p r then f r else r := by
  have hkey : ∀ r, rowKey t (if p r then f r else r) = rowKey t r := by
    intro r
    split
    · exact hf r
    · rfl
  unfold found updated
  rw [List.find?_map]
  simp only [Function.comp_def, hkey]

/-- An upsert rewrites the row under its key, or inserts it. -/
theorem found_upserted (r : Row t) (hg : ∀ r, rowKey t (g r) = rowKey t r)
    (k : RowKey) :
    found t (upserted r g rows) k
      = if rowKey t r = k then some ((found t rows k).elim r g) else found t rows k := by
  unfold upserted
  rw [any_clash]
  split
  · rename_i hthere
    rw [found_updated _ hg]
    split
    · rename_i hk
      rw [hk] at hthere
      obtain ⟨s, hs⟩ := Option.isSome_iff_exists.mp hthere
      have hclash : clash t r s = true := by simp [clash, hk, rowKey_of_found hs]
      simp [hs, hclash]
    · rename_i hk
      cases hs : found t rows k with
      | none => rfl
      | some s =>
        have hclash : clash t r s = false := by simpa [clash, rowKey_of_found hs] using hk
        simp [hclash]
  · rename_i hnot
    have happ : found t (rows ++ [r]) k
        = (found t rows k).or (if rowKey t r = k then some r else none) :=
      find?_append_key (rowKey t) rows r k
    rw [happ]
    split
    · rename_i hk
      rw [hk, Option.not_isSome_iff_eq_none] at hnot
      rw [hnot]
      rfl
    · exact Option.or_none

section

variable (hu : Unique t rows)

include hu

theorem Unique.inserted (r : Row t) : Unique t (inserted r rows) := by
  unfold Sql.Tx.inserted
  rw [any_clash]
  split
  · exact hu
  · rename_i hnot
    rw [Unique, List.map_append, List.map_singleton, ← List.concat_eq_append]
    refine List.Nodup.concat (fun hk => hnot (found_isSome.mpr ?_)) hu
    simpa using hk

theorem Unique.deleted (p : Row t → Bool) : Unique t (deleted p rows) :=
  hu.sublist (List.filter_sublist.map _)

theorem Unique.updated (p : Row t → Bool) {f : Row t → Row t}
    (hf : ∀ r, rowKey t (f r) = rowKey t r) : Unique t (updated p f rows) := by
  have hkeys : (Sql.Tx.updated p f rows).map (rowKey t) = rows.map (rowKey t) := by
    rw [Sql.Tx.updated, List.map_map]
    refine List.map_congr_left fun r _ => ?_
    rw [Function.comp_apply]
    split
    · exact hf r
    · rfl
  rw [Unique, hkeys]
  exact hu

theorem Unique.upserted (r : Row t)
    (hg : ∀ r, rowKey t (g r) = rowKey t r) : Unique t (upserted r g rows) := by
  unfold Sql.Tx.upserted
  split
  · exact hu.updated _ hg
  · rename_i hnot
    have h := hu.inserted r
    rwa [Sql.Tx.inserted, if_neg hnot] at h

end

end Found

/-! ### What the tables and the maps have in common -/

/-- The rows that a lookup and a join look for are the ones under a key. -/
theorem isChunk_eq (d h : String) :
    isChunk d h = fun r => decide (rowKey .packManifest r = .packManifest d h) := by
  funext r
  simp [isChunk, rowKey]

theorem isPack_eq (d p : String) :
    isPack d p = fun r => decide (rowKey .packs r = .packs d p) := by
  funext r
  simp [isPack, rowKey]

theorem stateIn_eq (rows : List PackRow) (d p : String) :
    stateIn rows d p = ((found .packs rows (.packs d p)).map PackRow.state).getD .stored := by
  rw [stateIn, isPack_eq]
  rfl

/-- The tables hold what the maps hold. -/
structure Agrees (m : MemoryDedupStore) (db : Db) : Prop where
  unique : ∀ t, Unique t (db t)
  refs : ∀ d h, (found .packManifest (db .packManifest) (.packManifest d h)).map ManifestRow.ref
    = m.byDom d h
  states : ∀ d p, stateIn (db .packs) d p = (m.assoc d).stateOf p
  byPack : ∀ d p c, c ∈ (m.assoc d).byPack p ↔ ⟨d, p, c⟩ ∈ db .packAssoc
  byContext : ∀ d p c, p ∈ (m.assoc d).byContext c ↔ ⟨d, p, c⟩ ∈ db .packAssoc
  fills : ∀ d, (m.assoc d).backfilled = true ↔ ⟨d⟩ ∈ db .backfill

theorem agrees_empty : Agrees .empty emptyDb where
  unique _ := List.nodup_nil
  refs _ _ := rfl
  states _ _ := rfl
  byPack _ _ _ := by simp [emptyDb, MemoryDedupStore.empty, MemAssoc.empty]
  byContext _ _ _ := by simp [emptyDb, MemoryDedupStore.empty, MemAssoc.empty]
  fills _ := by simp [emptyDb, MemoryDedupStore.empty, MemAssoc.empty]

/-- A change of one table keeps the other keys unique. -/
theorem unique_edit {db : Db} (hu : ∀ t, Unique t (db t)) {t : Table}
    {f : List (Row t) → List (Row t)} (hf : Unique t (f (db t))) (s : Table) :
    Unique s (edit t f db s) := by
  by_cases h : s = t
  · subst h
    rw [edit_self]
    exact hf
  · rw [edit_of_ne h]
    exact hu s

/-! ### Queries -/

variable (d : String) {f : List PackRow → List PackRow} {s : PackState} {r : PackRow}

section Queries

variable {m : MemoryDedupStore} {db : Db} (h : Agrees m db)

include h

/-- A pack has a holder in memory exactly when it has a row. -/
theorem Agrees.byPack_ne_nil {d p : String} :
    (m.assoc d).byPack p ≠ [] ↔ ∃ r ∈ db .packAssoc, isOf d p r = true := by
  constructor
  · intro hne
    obtain ⟨c, hc⟩ := List.exists_mem_of_ne_nil _ hne
    exact ⟨_, (h.byPack d p c).mp hc, by simp [isOf]⟩
  · rintro ⟨⟨d', p', c⟩, hr, hof⟩
    obtain ⟨rfl, rfl⟩ : d' = d ∧ p' = p := by simpa [isOf] using hof
    exact List.ne_nil_of_mem ((h.byPack ..).mpr hr)

/-- The rows of a chunk that survive the join are the location that memory hands out. -/
theorem Agrees.filter_isChunk (d c : String) :
    (((db .packManifest).filter (isChunk d c)).filter fun r =>
        stateIn (db .packs) d r.packHash = .stored).map ManifestRow.ref
      = (m.lookup d c).toList := by
  rw [isChunk_eq, filter_key_eq_toList (h.unique .packManifest), MemoryDedupStore.lookup,
    ← h.refs, found]
  cases (db .packManifest).find? fun r => rowKey .packManifest r = .packManifest d c with
  | none => rfl
  | some r =>
    have hstate := h.states d r.packHash
    by_cases hs : (m.assoc d).stateOf r.packHash = .stored <;>
      simp [hstate, hs, ManifestRow.ref, MemoryDedupStore.packUnavailable, Option.filter]

theorem Agrees.lookup (d c : String) :
    call db (.lookup d c) = (.ref (m.lookup d c), db) := by
  have hrows := h.filter_isChunk d c
  simp only [call, serve, lookupTx, joinStored, exec_bind, exec_selectRows, andThen_ok, exec_pure,
    ← List.head?_map, List.filter_true, hrows, Option.head?_toList]

theorem Agrees.lookupBatch (cs : List String) :
    call db (.lookupBatch d cs) = (.refs (m.lookupBatch d cs), db) := by
  simp only [call, serve, lookupBatchTx]
  by_cases hcs : cs = []
  · subst hcs
    simp only [if_true, exec_pure]
    congr 2
  · simp only [if_neg hcs, joinStored, exec_bind, exec_selectRows, andThen_ok, exec_pure,
      List.filter_true]
    congr 2
    funext c
    rw [← List.head?_filter, List.filter_reverse, ← List.head?_map, List.map_reverse,
      MemoryDedupStore.lookupBatch]
    -- the rows of one chunk are at most one, so their order does not matter
    have hrows : (((db .packManifest).filter fun r => r.domain = d ∧ r.chunkHash ∈ cs).filter fun r =>
          stateIn (db .packs) d r.packHash = .stored).filter (fun r => r.chunkHash = c)
        = if c ∈ cs then ((db .packManifest).filter (isChunk d c)).filter fun r =>
            stateIn (db .packs) d r.packHash = .stored else [] := by
      split
      · rename_i hc
        simp only [List.filter_filter]
        congr 1
        funext r
        by_cases hr : r.chunkHash = c <;> simp [isChunk, hr, hc, and_comm]
      · rename_i hc
        simp only [List.filter_eq_nil_iff, List.mem_filter, decide_eq_true_eq]
        rintro r ⟨⟨-, -, hr⟩, -⟩ rfl
        exact hc hr
    rw [hrows]
    split
    · rw [h.filter_isChunk]
      cases m.lookup d c <;> rfl
    · rfl

theorem Agrees.hasAssociations (ps : List String) :
    call db (.hasAssociations d ps) = (.held (m.hasAssociations d ps), db) := by
  simp only [call, serve, hasAssociationsTx, exec_bind, exec_selectRows, andThen_ok, exec_pure]
  congr 2
  funext p
  rw [MemoryDedupStore.hasAssociations]
  by_cases hp : p ∈ ps
  · rw [if_pos hp, if_pos hp, Option.some_inj, decide_eq_decide, h.byPack_ne_nil]
    simp only [List.mem_map, List.mem_filter, isOf, decide_eq_true_eq]
    constructor
    · rintro ⟨r, ⟨hr, hd, -⟩, heq⟩
      exact ⟨r, hr, hd, heq⟩
    · rintro ⟨r, hr, hd, heq⟩
      exact ⟨r, ⟨hr, hd, heq ▸ hp⟩, heq⟩
  · rw [if_neg hp, if_neg hp]

theorem Agrees.walkLivePacks :
    call db (.walkLivePacks d) = (.packs {p | m.livePack d p = true}, db) := by
  simp only [call, serve, walkLivePacksTx, exec_bind, exec_selectRows, andThen_ok, exec_pure]
  congr 2
  ext p
  simp only [Set.mem_ofPred_eq, MemoryDedupStore.livePack, decide_eq_true_eq, h.byPack_ne_nil]
  simp [isOf, and_assoc, and_left_comm]

theorem Agrees.isBackfilled :
    call db (.isBackfilled d) = (.flag (m.isBackfilled d), db) := by
  simp only [call, serve, isBackfilledTx, exec_bind, exec_selectRows, andThen_ok, exec_pure]
  congr 2
  rw [MemoryDedupStore.isBackfilled, Bool.eq_iff_iff, h.fills, decide_eq_true_eq]
  constructor
  · intro hne
    obtain ⟨⟨e⟩, he⟩ := List.exists_mem_of_ne_nil _ hne
    obtain ⟨hmem, hd⟩ := List.mem_filter.mp he
    obtain rfl : e = d := of_decide_eq_true hd
    exact hmem
  · intro hmem
    exact List.ne_nil_of_mem (List.mem_filter.mpr ⟨hmem, by simp⟩)

end Queries

/-! ### Changes of the locations -/

/-- A batch of insertions is seen under the keys where nothing was. -/
theorem found_insertRows {t : Table} (rs rows : List (Row t)) (k : RowKey) :
    found t (rs.foldl (fun acc r => inserted r acc) rows) k = (found t rows k).or (found t rs k) := by
  induction rs generalizing rows with
  | nil => simp [found]
  | cons r rs ih =>
    rw [List.foldl_cons, ih, found_inserted, Option.or_assoc]
    congr 1
    by_cases hk : rowKey t r = k <;> simp [found, hk]

theorem unique_insertRows {t : Table} (rs : List (Row t)) {rows : List (Row t)}
    (hu : Unique t rows) : Unique t (rs.foldl (fun acc r => inserted r acc) rows) := by
  induction rs generalizing rows with
  | nil => exact hu
  | cons r rs ih => exact ih (hu.inserted r)

theorem mem_insertRows {rs rows : List AssocRow} {r : AssocRow} :
    r ∈ rs.foldl (fun acc r => inserted (ρ := Row) (t := .packAssoc) r acc) rows
      ↔ r ∈ rows ∨ r ∈ rs := by
  -- the key of an association is all of it
  have hmem : ∀ l : List AssocRow, r ∈ l ↔ (found .packAssoc l (rowKey .packAssoc r)).isSome := by
    intro l
    rw [found_isSome]
    constructor
    · intro hr
      exact ⟨r, hr, rfl⟩
    · rintro ⟨⟨d, p, c⟩, hs, hk⟩
      obtain ⟨rfl, rfl, rfl⟩ : d = r.domain ∧ p = r.packHash ∧ c = r.context := by
        simpa [rowKey] using hk
      exact hs
  rw [hmem, hmem rows, hmem rs, found_insertRows, Option.isSome_or, Bool.or_eq_true]

theorem mem_map_assocRow {d p c : String} {assocs : List PackAssociation} :
    (⟨d, p, c⟩ : AssocRow) ∈ assocs.map (assocRow d) ↔ ⟨p, c⟩ ∈ assocs := by
  constructor
  · intro hr
    obtain ⟨⟨p', c'⟩, has, heq⟩ := List.mem_map.mp hr
    obtain ⟨rfl, rfl⟩ : p' = p ∧ c' = c := by simpa [assocRow] using heq
    exact has
  · intro has
    exact List.mem_map.mpr ⟨_, has, rfl⟩

section Changes

variable {m m' : MemoryDedupStore} {db : Db} (h : Agrees m db)

include h

/-- A change of the locations, in the table and in the map. -/
theorem Agrees.withRefs {f : List ManifestRow → List ManifestRow}
    (hassoc : m'.assoc = m.assoc) (hu : Unique .packManifest (f (db .packManifest)))
    (hrefs : ∀ d c, (found .packManifest (f (db .packManifest)) (.packManifest d c)).map
      ManifestRow.ref = m'.byDom d c) : Agrees m' (edit .packManifest f db) where
  unique := unique_edit h.unique hu
  refs d c := by simpa using hrefs d c
  states d p := by simpa [hassoc] using h.states d p
  byPack d p c := by simpa [hassoc] using h.byPack d p c
  byContext d p c := by simpa [hassoc] using h.byContext d p c
  fills d := by simpa [hassoc] using h.fills d

/-- A change of the states. -/
theorem Agrees.withStates
    (hbyDom : m'.byDom = m.byDom) (hbyPack : ∀ d, (m'.assoc d).byPack = (m.assoc d).byPack)
    (hbyContext : ∀ d, (m'.assoc d).byContext = (m.assoc d).byContext)
    (hfills : ∀ d, (m'.assoc d).backfilled = (m.assoc d).backfilled)
    (hu : Unique .packs (f (db .packs)))
    (hstates : ∀ d p, stateIn (f (db .packs)) d p = (m'.assoc d).stateOf p) :
    Agrees m' (edit .packs f db) where
  unique := unique_edit h.unique hu
  refs d c := by simpa [hbyDom] using h.refs d c
  states d p := by simpa using hstates d p
  byPack d p c := by simpa [hbyPack] using h.byPack d p c
  byContext d p c := by simpa [hbyContext] using h.byContext d p c
  fills d := by simpa [hfills] using h.fills d

/-- A change of the associations of a domain. -/
theorem Agrees.withAssocs {e : String} {a : MemAssoc} {f : List AssocRow → List AssocRow}
    (hstate : a.state = (m.assoc e).state) (hfill : a.backfilled = (m.assoc e).backfilled)
    (hu : Unique .packAssoc (f (db .packAssoc)))
    (hother : ∀ r : AssocRow, r.domain ≠ e → (r ∈ f (db .packAssoc) ↔ r ∈ db .packAssoc))
    (hbyPack : ∀ p c, c ∈ a.byPack p ↔ ⟨e, p, c⟩ ∈ f (db .packAssoc))
    (hbyContext : ∀ p c, p ∈ a.byContext c ↔ ⟨e, p, c⟩ ∈ f (db .packAssoc)) :
    Agrees (m.setAssoc e a) (edit .packAssoc f db) where
  unique := unique_edit h.unique hu
  refs d c := by simpa using h.refs d c
  states d p := by
    rw [edit_of_ne (by decide), h.states, assoc_setAssoc]
    split
    · rename_i hd
      rw [hd, MemAssoc.stateOf, MemAssoc.stateOf, hstate]
    · rfl
  byPack d p c := by
    rw [edit_self, assoc_setAssoc]
    split
    · rename_i hd
      rw [hd, hbyPack]
    · rename_i hd
      rw [h.byPack, hother _ hd]
  byContext d p c := by
    rw [edit_self, assoc_setAssoc]
    split
    · rename_i hd
      rw [hd, hbyContext]
    · rename_i hd
      rw [h.byContext, hother _ hd]
  fills d := by
    rw [edit_of_ne (by decide), ← h.fills, assoc_setAssoc]
    split
    · rename_i hd
      rw [hd, hfill]
    · rfl

theorem Agrees.record (locs : List ChunkLocation) :
    (call db (.record d locs)).1 = .done ∧ Agrees (m.record d locs) (call db (.record d locs)).2 := by
  simp only [call, serve, recordTx, exec_insertRows, true_and]
  refine h.withRefs rfl (unique_insertRows _ (h.unique _)) fun d' c => ?_
  have hnew : ((found .packManifest (locs.map (manifestRow d)) (.packManifest d' c)).map
      ManifestRow.ref) = if d' = d then
        (locs.find? fun loc => loc.chunkHash = c).map ChunkLocation.ref else none := by
    rw [found, List.find?_map, Option.map_map]
    by_cases hd : d' = d
    · subst hd
      simp only [Function.comp_def, rowKey, manifestRow, RowKey.packManifest.injEq, true_and, if_true]
      rfl
    · simp [rowKey, manifestRow, Function.comp_def, hd, Ne.symm hd]
  rw [found_insertRows, Option.map_or, h.refs, hnew, MemoryDedupStore.record]
  by_cases hd : d' = d
  · subst hd
    simp [foldl_recordOne]
  · simp [hd]

/-- The first statement of a purge does what the purge in memory does. -/
theorem Agrees.purgeManifest (ps : List String) :
    Agrees (m.purgePacks d ps) (edit .packManifest
      (deleted (ρ := Row) (t := .packManifest) fun r => r.domain = d ∧ r.packHash ∈ ps) db) := by
  refine h.withRefs rfl ((h.unique _).deleted _) fun d' c => ?_
  rw [found_deleted (h.unique _), MemoryDedupStore.purgePacks]
  have href := h.refs d' c
  cases hrow : found .packManifest (db .packManifest) (.packManifest d' c) with
  | none =>
    rw [hrow, Option.map_none] at href
    by_cases hd : d' = d
    · subst hd
      simp [← href]
    · simp [hd, ← href]
  | some r =>
    obtain ⟨hdom, -⟩ : r.domain = d' ∧ r.chunkHash = c := by
      simpa [rowKey] using rowKey_of_found hrow
    rw [hrow, Option.map_some] at href
    by_cases hd : d' = d
    · subst hd
      by_cases hp : r.packHash ∈ ps <;> simp [← href, hdom, hp, Option.filter, ManifestRow.ref]
    · simp [← href, hdom, hd, Option.filter]

/-- **Purging stored packs.**  The second statement removes rows that say what no row says too. -/
theorem Agrees.purgePacks {d : String} {ps : List String}
    (hstored : ∀ p ∈ ps, (m.assoc d).stateOf p = .stored) :
    (call db (.purgePacks d ps)).1 = .done
      ∧ Agrees (m.purgePacks d ps) (call db (.purgePacks d ps)).2 := by
  simp only [call, serve, purgePacksTx, purgeManifestTx, purgeRowsTx, exec_bind, exec_deleteRows,
    andThen_ok, exec_pure, true_and]
  have hfirst := h.purgeManifest d ps
  refine hfirst.withStates rfl (fun _ => rfl) (fun _ => rfl) (fun _ => rfl)
    ((hfirst.unique _).deleted _) fun d' p => ?_
  have hstate := hfirst.states d' p
  rw [stateIn_eq] at hstate
  rw [stateIn_eq, found_deleted (hfirst.unique _)]
  cases hrow : found .packs _ (.packs d' p) with
  | none =>
    rw [hrow] at hstate
    exact hstate
  | some r =>
    obtain ⟨rfl, rfl⟩ : r.domain = d' ∧ r.packHash = p := by
      simpa [rowKey] using rowKey_of_found hrow
    rw [hrow] at hstate
    by_cases hp : r.domain = d ∧ r.packHash ∈ ps
    · have hs : ((m.purgePacks d ps).assoc d).stateOf r.packHash = .stored := hstored _ hp.2
      simpa [hp, Option.filter] using hs.symm
    · simpa [hp, Option.filter] using hstate

/-- The sizes that PostgreSQL keeps do not show. -/
theorem Agrees.recordPackSizes (sizes : List PackSize) :
    (call db (.recordPackSizes d sizes)).1 = .done ∧ Agrees m (call db (.recordPackSizes d sizes)).2 := by
  simp only [call, serve, recordPackSizesTx]
  rw [exec_each fun _ _ => exec_upsertRow ..]
  refine ⟨rfl, ?_⟩
  induction sizes generalizing db with
  | nil => exact h
  | cons ps sizes ih =>
    refine ih (h.withStates rfl (fun _ => rfl) (fun _ => rfl) (fun _ => rfl)
      ((h.unique _).upserted _ fun _ => rfl) fun d' p => ?_)
    rw [← h.states, stateIn_eq, stateIn_eq, found_upserted]
    · split
      · cases found .packs (db .packs) (.packs d' p) <;> rfl
      · rfl
    · exact fun _ => rfl

/-! ### Changes of the associations -/

/-- The check of `Associate` finds a row exactly when a pack is not stored. -/
theorem Agrees.anyUnstored (assocs : List PackAssociation) :
    (db .packs).filter (fun r => r.domain = d ∧ r.packHash ∈ assocs.map PackAssociation.packHash
        ∧ r.state ≠ .stored) = []
      ↔ (assocs.any fun as => (m.assoc d).stateOf as.packHash ≠ .stored) = false := by
  simp only [List.filter_eq_nil_iff, decide_eq_true_eq, List.any_eq_false, ← h.states, stateIn_eq]
  constructor
  · rintro hno as has hs
    cases hrow : found .packs (db .packs) (.packs d as.packHash) with
    | none => simp [hrow] at hs
    | some r =>
      obtain ⟨hd, hp⟩ : r.domain = d ∧ r.packHash = as.packHash := by
        simpa [rowKey] using rowKey_of_found hrow
      refine hno r (List.mem_of_find?_eq_some hrow) ⟨hd, ?_, by simpa [hrow] using hs⟩
      exact List.mem_map.mpr ⟨as, has, hp.symm⟩
  · rintro hno r hr ⟨hd, hp, hs⟩
    obtain ⟨as, has, hp⟩ := List.mem_map.mp hp
    have hrow : found .packs (db .packs) (.packs d as.packHash) = some r := by
      rw [hp, ← hd]
      exact find?_key_eq_some (h.unique .packs) hr
    exact hno as has (by simpa [hrow] using hs)

theorem Agrees.associate (assocs : List PackAssociation) :
    (call db (.associate d assocs)).1 = (m.call (.associate d assocs)).1
      ∧ Agrees (m.call (.associate d assocs)).2 (call db (.associate d assocs)).2 := by
  simp only [call, MemoryDedupStore.call, MemoryDedupStore.associate, MemAssoc.associate]
  by_cases hnil : assocs = []
  · simp only [hnil, if_true, true_and]
    exact h
  · simp only [if_neg hnil, serve, associateTx, exec_bind, exec_lockRows, andThen_ok, exec_require,
      h.anyUnstored]
    cases hany : assocs.any fun as => (m.assoc d).stateOf as.packHash ≠ .stored with
    | true =>
      simp only [Bool.true_eq_false, if_false, if_true, andThen_error, true_and]
      exact h
    | false =>
      simp only [if_true, andThen_ok, exec_insertRows, Bool.false_eq_true, if_false, true_and]
      refine h.withAssocs (by simp) (by simp) (unique_insertRows _ (h.unique _)) ?_ ?_ ?_
      · intro r hd
        rw [mem_insertRows, or_iff_left]
        intro hr
        obtain ⟨as, -, rfl⟩ := List.mem_map.mp hr
        exact hd rfl
      · intro p c
        rw [MemAssoc.mem_byPack_foldl_insert, mem_insertRows, h.byPack, mem_map_assocRow]
      · intro p c
        rw [MemAssoc.mem_byContext_foldl_insert, mem_insertRows, h.byContext, mem_map_assocRow]

/-- The rows that a context loses are those with its name. -/
theorem Agrees.dropContext (d c : String) :
    (call db (.dropContext d c)).1 = (m.call (.dropContext d c)).1
      ∧ Agrees (m.call (.dropContext d c)).2 (call db (.dropContext d c)).2 := by
  simp only [call, MemoryDedupStore.call, serve, dropContextTx, exec_bind, exec_lockRows, andThen_ok,
    exec_deleteRows, exec_pure]
  have hpacks : ∀ p, p ∈ ((db .packAssoc).filter (isContext d c)).map AssocRow.packHash
      ↔ p ∈ (m.assoc d).byContext c := by
    intro p
    simp only [h.byContext, List.mem_map, List.mem_filter, isContext, decide_eq_true_eq]
    constructor
    · rintro ⟨r, ⟨hr, rfl, rfl⟩, rfl⟩
      exact hr
    · intro hr
      exact ⟨_, ⟨hr, rfl, rfl⟩, rfl⟩
  have hrest : ∀ r : AssocRow, r ∈ deleted (ρ := Row) (t := .packAssoc)
      (fun r => decide (r ∈ (db .packAssoc).filter (isContext d c))) (db .packAssoc)
        ↔ r ∈ db .packAssoc ∧ ¬ (r.domain = d ∧ r.context = c) := by
    intro r
    simp only [mem_deleted, List.mem_filter, isContext, decide_eq_true_eq, decide_eq_false_iff_not,
      not_and]
    tauto
  simp only [m.dropContext_eq]
  refine ⟨congrArg _ (Set.ext hpacks), h.withAssocs rfl rfl ((h.unique _).deleted _) ?_ ?_ ?_⟩
  · intro r hd
    rw [hrest, and_iff_left]
    exact fun hr => hd hr.1
  · intro p c'
    rw [hrest, ← h.byPack, MemAssoc.dropContext]
    dsimp only
    split
    · simp [List.mem_filter]
    · rename_i hp
      -- the two maps hold the same pairs, so the pack does not have the context either
      rw [iff_self_and]
      rintro hc' ⟨-, rfl⟩
      exact hp ((h.byContext ..).mpr ((h.byPack ..).mp hc'))
  · intro p c'
    rw [hrest, ← h.byContext, MemAssoc.dropContext]
    by_cases hc : c' = c
    · subst hc
      simp
    · simp [hc]

/-! ### Changes of the marks -/

/-- A new state of one pack. -/
theorem Agrees.withState {d p : String}
    (hu : Unique .packs (f (db .packs)))
    (hstates : ∀ d' p', stateIn (f (db .packs)) d' p'
      = if d' = d ∧ p' = p then s else stateIn (db .packs) d' p') :
    Agrees (m.setAssoc d ((m.assoc d).setState p s)) (edit .packs f db) := by
  have hassoc : ∀ e, (m.setAssoc d ((m.assoc d).setState p s)).assoc e
      = if e = d then (m.assoc e).setState p s else m.assoc e := by
    intro e
    rw [assoc_setAssoc]
    split
    · rename_i he
      rw [he]
    · rfl
  refine h.withStates rfl ?_ ?_ ?_ hu ?_
  · intro e
    rw [hassoc]
    split <;> rfl
  · intro e
    rw [hassoc]
    split <;> rfl
  · intro e
    rw [hassoc]
    split <;> rfl
  · intro e q
    rw [hstates, hassoc, h.states]
    by_cases he : e = d
    · simp [he, MemAssoc.stateOf_setState]
    · simp [he]

/-- The row of a pack says its state. -/
theorem Agrees.state_of_found {d p : String}
    (hrow : found .packs (db .packs) (.packs d p) = some r) : r.state = (m.assoc d).stateOf p := by
  rw [← h.states, stateIn_eq, hrow]
  rfl

/-- Only a pack that is stored can be without a row. -/
theorem Agrees.exists_found {d p : String} (hs : (m.assoc d).stateOf p ≠ .stored) :
    ∃ r, found .packs (db .packs) (.packs d p) = some r := by
  rw [← h.states, stateIn_eq] at hs
  cases hrow : found .packs (db .packs) (.packs d p) with
  | none =>
    rw [hrow] at hs
    exact absurd rfl hs
  | some r => exact ⟨r, rfl⟩

/-- A conditional update of a pack in another state finds nothing. -/
theorem Agrees.filter_isPackIn {d p : String} (hs : (m.assoc d).stateOf p ≠ s) :
    (db .packs).filter (isPackIn s d p) = [] := by
  rw [List.filter_eq_nil_iff]
  intro r hr hin
  obtain ⟨⟨rfl, rfl⟩, rfl⟩ : (r.domain = d ∧ r.packHash = p) ∧ r.state = s := by
    simpa [isPackIn, isPack] using hin
  exact hs (h.state_of_found (find?_key_eq_some (h.unique .packs) hr)).symm

/-- A conditional update of a pack in the state asked for gives it the new one. -/
theorem Agrees.setMark {d p : String} (s' : PackState)
    (hrow : found .packs (db .packs) (.packs d p) = some r) :
    (db .packs).filter (isPackIn r.state d p) ≠ []
      ∧ Agrees (m.setAssoc d ((m.assoc d).setState p s'))
        (edit .packs (updated (ρ := Row) (t := .packs) (isPackIn r.state d p)
          (PackRow.withState s')) db) := by
  obtain ⟨hd, hp⟩ : r.domain = d ∧ r.packHash = p := by simpa [rowKey] using rowKey_of_found hrow
  have hin : isPackIn r.state d p r = true := by simp [isPackIn, isPack, hd, hp]
  refine ⟨List.ne_nil_of_mem (List.mem_filter.mpr ⟨List.mem_of_find?_eq_some hrow, hin⟩), ?_⟩
  refine h.withState ((h.unique _).updated _ fun _ => rfl) fun d' p' => ?_
  rw [stateIn_eq, stateIn_eq, found_updated]
  · by_cases hkey : d' = d ∧ p' = p
    · obtain ⟨rfl, rfl⟩ := hkey
      simp [hrow, hin, PackRow.withState]
    · rw [if_neg hkey]
      cases hother : found .packs (db .packs) (.packs d' p') with
      | none => rfl
      | some q =>
        obtain ⟨hd', hp'⟩ : q.domain = d' ∧ q.packHash = p' := by
          simpa [rowKey] using rowKey_of_found hother
        have hout : isPackIn r.state d p q = false := by
          simp only [isPackIn, isPack, hd', hp', hkey]
          simp
        simp [hout]
  · exact fun _ => rfl

/-- The mark goes on a stored pack, in a new row or in the one it has. -/
theorem Agrees.exec_markObliterating (d p : String) :
    ∃ won db', (markObliteratingTx d p).exec () db = .ok (won, db')
      ∧ won = (m.markObliterating d p).1 ∧ Agrees (m.markObliterating d p).2 db' := by
  simp only [markObliteratingTx, exec_bind, exec_insertRow, andThen_ok,
    MemoryDedupStore.markObliterating, MemAssoc.markObliterating]
  cases hrow : found .packs (db .packs) (.packs d p) with
  | none =>
    have hs : (m.assoc d).stateOf p = .stored := by
      by_contra hs
      obtain ⟨r, hr⟩ := h.exists_found hs
      rw [hrow] at hr
      cases hr
    have hany : (db .packs).any (clash (ρ := Row) Table.packs ⟨d, p, 0, .obliterating⟩) = false := by
      rw [any_clash]
      exact Option.isSome_eq_false_iff.mpr (Option.isNone_iff_eq_none.mpr hrow)
    rw [hany, if_pos (by rfl), if_neg (by simp [hs])]
    refine ⟨_, _, exec_pure .., rfl, h.withState ((h.unique _).inserted _) fun d' p' => ?_⟩
    rw [stateIn_eq, stateIn_eq, found_inserted]
    by_cases hkey : d' = d ∧ p' = p
    · obtain ⟨rfl, rfl⟩ := hkey
      simp [hrow, rowKey]
    · have hne : rowKey .packs ⟨d, p, 0, .obliterating⟩ ≠ .packs d' p' := by
        simpa [rowKey, eq_comm] using hkey
      rw [if_neg hkey, if_neg hne, Option.or_none]
  | some r =>
    have hany : (db .packs).any (clash (ρ := Row) Table.packs ⟨d, p, 0, .obliterating⟩) = true := by
      rw [any_clash]
      exact Option.isSome_iff_exists.mpr ⟨r, hrow⟩
    have hsame : edit .packs (inserted (ρ := Row) (t := .packs) ⟨d, p, 0, .obliterating⟩) db = db := by
      rw [edit, inserted, if_pos hany, Function.update_eq_self]
    have hstate := h.state_of_found hrow
    rw [hany, hsame, if_neg (by decide)]
    simp only [exec_bind, exec_updateRows, andThen_ok, exec_pure]
    by_cases hs : (m.assoc d).stateOf p = .stored
    · obtain ⟨hwritten, hset⟩ := h.setMark .obliterating hrow
      rw [hstate, hs] at hwritten hset
      rw [if_neg (by simp [hs])]
      exact ⟨_, _, rfl, by simpa using hwritten, hset⟩
    · have hnone := h.filter_isPackIn hs
      rw [if_pos hs]
      refine ⟨_, _, rfl, by simp [hnone], ?_⟩
      rw [edit_updated_eq_self _ hnone, setAssoc_eq_self]
      exact h

theorem Agrees.markObliterating (d p : String) :
    (call db (.markObliterating d p)).1 = (m.call (.markObliterating d p)).1
      ∧ Agrees (m.call (.markObliterating d p)).2 (call db (.markObliterating d p)).2 := by
  obtain ⟨won, db', hexec, rfl, hagrees⟩ := h.exec_markObliterating d p
  simp only [call, serve, hexec, MemoryDedupStore.call, true_and]
  exact hagrees

theorem Agrees.releaseMark (d p : String) :
    (call db (.releaseMark d p)).1 = .done
      ∧ Agrees (m.releaseMark d p) (call db (.releaseMark d p)).2 := by
  simp only [call, serve, releaseMarkTx, exec_bind, exec_updateRows, andThen_ok, exec_pure, true_and,
    MemoryDedupStore.releaseMark, MemAssoc.releaseMark]
  by_cases hs : (m.assoc d).stateOf p = .obliterating
  · obtain ⟨r, hrow⟩ := h.exists_found (by rw [hs]; decide)
    have hset := (h.setMark .stored hrow).2
    rw [h.state_of_found hrow, hs] at hset
    rw [if_pos hs]
    exact hset
  · rw [if_neg hs, edit_updated_eq_self _ (h.filter_isPackIn hs), setAssoc_eq_self]
    exact h

theorem Agrees.commitObliterated (d p : String) :
    (call db (.commitObliterated d p)).1 = (m.call (.commitObliterated d p)).1
      ∧ Agrees (m.call (.commitObliterated d p)).2 (call db (.commitObliterated d p)).2 := by
  simp only [call, serve, commitObliteratedTx, exec_bind, exec_selectRows, exec_updateRows, andThen_ok,
    exec_pure, MemoryDedupStore.call, MemoryDedupStore.commitObliterated, MemAssoc.commitObliterated]
  have hheld : (db .packAssoc).filter (isOf d p) = [] ↔ (m.assoc d).byPack p = [] := by
    rw [← not_iff_not, ← ne_eq, ← ne_eq, h.byPack_ne_nil, ne_eq, List.filter_eq_nil_iff]
    simp
  by_cases hs : (m.assoc d).stateOf p = .obliterating
  · by_cases hnil : (m.assoc d).byPack p = []
    · obtain ⟨r, hrow⟩ := h.exists_found (by rw [hs]; decide)
      obtain ⟨hwritten, hset⟩ := h.setMark .obliterated hrow
      rw [h.state_of_found hrow, hs] at hwritten hset
      simp only [hheld.mpr hnil, and_true, Bool.decide_eq_true, hs, hnil, ne_eq, not_true_eq_false,
        if_false, List.map_eq_nil_iff, hwritten, not_false_eq_true, decide_true, true_and]
      exact hset
    · have hnone : (db .packs).filter (fun r => decide (isPackIn .obliterating d p r = true
          ∧ (db .packAssoc).filter (isOf d p) = [])) = [] := by
        simp [hheld, hnil]
      rw [edit_updated_eq_self _ hnone, hnone]
      simp only [hs, hnil, ne_eq, not_true_eq_false, if_false, not_false_eq_true, if_true,
        List.map_nil, decide_false, setAssoc_eq_self, true_and]
      exact h
  · have hnone : (db .packs).filter (fun r => decide (isPackIn .obliterating d p r = true
        ∧ (db .packAssoc).filter (isOf d p) = [])) = [] := by
      have hin := List.filter_eq_nil_iff.mp (h.filter_isPackIn hs)
      exact List.filter_eq_nil_iff.mpr fun r hr hq => hin r hr (of_decide_eq_true hq).1
    rw [edit_updated_eq_self _ hnone, hnone]
    simp only [hs, ne_eq, not_false_eq_true, if_true, not_true_eq_false,
      List.map_nil, decide_false, setAssoc_eq_self, true_and]
    exact h

theorem Agrees.markBackfilled :
    (call db (.markBackfilled d)).1 = .done
      ∧ Agrees (m.markBackfilled d) (call db (.markBackfilled d)).2 := by
  simp only [call, serve, markBackfilledTx, exec_upsertRow, true_and]
  have hmem : ∀ r : BackfillRow, r ∈ upserted (ρ := Row) (t := .backfill) ⟨d⟩ id (db .backfill)
      ↔ r ∈ db .backfill ∨ r = ⟨d⟩ := by
    intro r
    unfold upserted
    split
    · rename_i hthere
      have hd : (⟨d⟩ : BackfillRow) ∈ db .backfill := by
        obtain ⟨⟨e⟩, he, hk⟩ := List.any_eq_true.mp hthere
        obtain rfl : d = e := by simpa [clash, rowKey] using hk
        exact he
      have hsame : updated (ρ := Row) (t := .backfill) (clash (ρ := Row) Table.backfill ⟨d⟩) id
          (db .backfill) = db .backfill := by simp [updated]
      rw [hsame, iff_self_or]
      rintro rfl
      exact hd
    · rw [List.mem_append, List.mem_singleton]
  have hassoc : ∀ e, (m.markBackfilled d).assoc e
      = if e = d then { m.assoc e with backfilled := true } else m.assoc e := by
    intro e
    rw [MemoryDedupStore.markBackfilled, assoc_setAssoc]
    split
    · rename_i he
      rw [he]
    · rfl
  refine ⟨unique_edit h.unique ((h.unique _).upserted _ fun _ => rfl),
    fun e c => ?_, fun e p => ?_, fun e p c => ?_, fun e p c => ?_, fun e => ?_⟩
  · rw [edit_of_ne (by decide), h.refs]
    rfl
  · rw [edit_of_ne (by decide), h.states, hassoc]
    split <;> rfl
  · rw [edit_of_ne (by decide), ← h.byPack, hassoc]
    split <;> rfl
  · rw [edit_of_ne (by decide), ← h.byContext, hassoc]
    split <;> rfl
  · rw [edit_self, hmem, ← h.fills, hassoc]
    by_cases he : e = d <;> simp [he]

end Changes

/-! ### Runs -/

/-- A purge names stored packs only. -/
def PurgesStored (m : MemoryDedupStore) : IndexCall → Prop
  | .purgePacks d ps => ∀ p ∈ ps, (m.assoc d).stateOf p = .stored
  | _ => True

instance (m : MemoryDedupStore) : (c : IndexCall) → Decidable (PurgesStored m c)
  | .purgePacks d ps => inferInstanceAs (Decidable (∀ p ∈ ps, (m.assoc d).stateOf p = .stored))
  | .lookup .. | .lookupBatch .. | .record .. | .associate .. | .dropContext .. | .hasAssociations ..
  | .walkLivePacks .. | .markObliterating .. | .releaseMark .. | .commitObliterated ..
  | .markBackfilled .. | .isBackfilled .. | .recordPackSizes .. => .isTrue trivial

/-- One call is answered alike, and the tables keep holding what the maps hold. -/
theorem agrees_call {m : MemoryDedupStore} {db : Db} (h : Agrees m db) (c : IndexCall)
    (hok : PurgesStored m c) :
    (m.call c).1 = (call db c).1 ∧ Agrees (m.call c).2 (call db c).2 := by
  cases c with
  | lookup d c =>
    rw [h.lookup]
    exact ⟨rfl, h⟩
  | lookupBatch d cs =>
    rw [h.lookupBatch]
    exact ⟨rfl, h⟩
  | record d locs => exact (h.record d locs).imp_left Eq.symm
  | purgePacks d ps => exact (h.purgePacks hok).imp_left Eq.symm
  | associate d assocs => exact (h.associate d assocs).imp_left Eq.symm
  | dropContext d c => exact (h.dropContext d c).imp_left Eq.symm
  | hasAssociations d ps =>
    rw [h.hasAssociations]
    exact ⟨rfl, h⟩
  | walkLivePacks d =>
    rw [h.walkLivePacks]
    exact ⟨rfl, h⟩
  | markObliterating d p => exact (h.markObliterating d p).imp_left Eq.symm
  | releaseMark d p => exact (h.releaseMark d p).imp_left Eq.symm
  | commitObliterated d p => exact (h.commitObliterated d p).imp_left Eq.symm
  | markBackfilled d => exact (h.markBackfilled d).imp_left Eq.symm
  | isBackfilled d =>
    rw [h.isBackfilled]
    exact ⟨rfl, h⟩
  | recordPackSizes d sizes => exact (h.recordPackSizes d sizes).imp_left Eq.symm

/-- **The two indexes answer alike.**  In every run that purges only stored packs, from empty stores,
    each call is answered the same way. -/
theorem stores_agree {calls : List IndexCall}
    (hok : Guarded (fun m c => (MemoryDedupStore.call m c).2) PurgesStored .empty calls) :
    answers MemoryDedupStore.call .empty calls = answers call emptyDb calls :=
  answers_eq_of_simulation Agrees (fun _ _ c h hok => agrees_call h c hok) agrees_empty hok

/-- A run that reclaims a pack, but purges it only after taking the mark back. -/
theorem stores_agree_released :
    answers MemoryDedupStore.call .empty
        [.record "d" [⟨"c", "p", 0, 3⟩], .markObliterating "d" "p", .lookup "d" "c",
          .releaseMark "d" "p", .purgePacks "d" ["p"], .associate "d" [⟨"p", "x"⟩]]
      = answers call emptyDb
        [.record "d" [⟨"c", "p", 0, 3⟩], .markObliterating "d" "p", .lookup "d" "c",
          .releaseMark "d" "p", .purgePacks "d" ["p"], .associate "d" [⟨"p", "x"⟩]] :=
  stores_agree (by decide)

/-- The end of every reclamation: the pack is given up, purged, and packed afresh.  Memory refuses the
    new association for ever, PostgreSQL has forgotten the mark. -/
theorem stores_differ_after_purge :
    (answers MemoryDedupStore.call .empty
        [.markObliterating "d" "p", .commitObliterated "d" "p", .purgePacks "d" ["p"],
          .associate "d" [⟨"p", "x"⟩]]).getLast? = some .refused
      ∧ (answers call emptyDb
        [.markObliterating "d" "p", .commitObliterated "d" "p", .purgePacks "d" ["p"],
          .associate "d" [⟨"p", "x"⟩]]).getLast? = some .done :=
  ⟨rfl, rfl⟩

end MemoryLayer.Pgindex
