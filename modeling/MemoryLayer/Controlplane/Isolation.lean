import MemoryLayer.Pgindex.Domains

namespace MemoryLayer.Controlplane

open Snapshot Pgindex Sql.Tx

/-! # Tenants of one control plane

A message on a subject of a tenant is to read and change only what is in the tenant's own domain.  The handlers
take the domain from the payload, so that this holds for some messages only.

- `Confined`: what is read and changed is in one domain.
- `DomainStore`: a store that keeps domains apart, as both stores do.
- `confined_iff`: the messages that are confined.
- `messages_confined_iff`: these are the messages that name the tenant's own domain, or say nothing.
- `tenants_apart`: when all messages are so, no tenant can tell that there are others.
-/

variable {D I V : Type} {call : I → IndexCall → IndexAnswer × I} {view : I → String → V}

/-- The reply and the new state of a domain depend on the state of this domain only, and the other domains stay
    as they are. -/
structure Confined (view : I → String → V) (f : I → Option Response × I) (d : String) : Prop where
  reads : ∀ i j, view i d = view j d → (f i).1 = (f j).1 ∧ view (f i).2 d = view (f j).2 d
  others : ∀ i e, e ≠ d → view (f i).2 e = view i e

/-- A call with nothing in it. -/
def Vacuous : IndexCall → Bool
  | .lookupBatch _ chunkHashes => chunkHashes = []
  | .record _ locs => locs = []
  | .purgePacks _ packHashes => packHashes = []
  | .associate _ assocs => assocs = []
  | _ => false

/-- A store that keeps domains apart: calls that nodes can cause are about their own domain.  Those with nothing
    in them do nothing, and the others can be told from doing nothing. -/
structure DomainStore (call : I → IndexCall → IndexAnswer × I) (view : I → String → V) : Prop where
  reads : ∀ {c}, Remote c → ∀ i j, view i (callDomain c) = view j (callDomain c) →
    (call i c).1 = (call j c).1 ∧ view (call i c).2 (callDomain c) = view (call j c).2 (callDomain c)
  others : ∀ {c}, Remote c → ∀ i e, e ≠ callDomain c → view (call i c).2 e = view i e
  vacuous : ∀ {c}, Remote c → Vacuous c = true → ∃ a, ∀ i, call i c = (a, i)
  effective : ∀ {c}, Remote c → Vacuous c = false →
    (∃ i, view (call i c).2 (callDomain c) ≠ view i (callDomain c))
      ∨ ∃ i j, (∀ e, e ≠ callDomain c → view i e = view j e) ∧ respond (call i c).1 ≠ respond (call j c).1

/-- A message is confined to a domain exactly when it leads to no call, or to one on this domain, or to one with
    nothing in it. -/
theorem confined_iff (h : DomainStore call view) (codec : Codec D) (rpc : Rpc) (msg : Msg D) (d : String) :
    Confined view (handle codec call rpc msg) d
      ↔ ∀ c, request codec rpc msg = .ok c → callDomain c = d ∨ Vacuous c = true := by
  cases hrequest : request codec rpc msg with
  | error reply =>
    have hsame : ∀ i : I, handle codec call rpc msg i = (reply, i) := fun i => by rw [handle, hrequest]
    refine ⟨nofun, fun _ => ⟨fun i j hij => ?_, fun i e _ => ?_⟩⟩
    · rw [hsame, hsame]
      exact ⟨rfl, hij⟩
    · rw [hsame]
  | ok c =>
    have hremote := remote_of_request hrequest
    have hcall : ∀ i : I, handle codec call rpc msg i = (some (respond (call i c).1), (call i c).2) :=
      fun i => by rw [handle, hrequest]
    constructor
    · intro hconfined c' hc'
      cases hc'
      by_contra hnot
      obtain ⟨hdomain, hvacuous⟩ := not_or.mp hnot
      -- a call on another domain changes it, or tells something about it
      rcases h.effective hremote (Bool.eq_false_iff.mpr hvacuous) with ⟨i, hi⟩ | ⟨i, j, hij, hreplies⟩
      · have hother := hconfined.others i (callDomain c) hdomain
        rw [hcall] at hother
        exact hi hother
      · have hread := (hconfined.reads i j (hij d (Ne.symm hdomain))).1
        rw [hcall, hcall] at hread
        exact hreplies (Option.some.inj hread)
    · intro hharmless
      rcases hharmless c rfl with rfl | hvacuous
      · refine ⟨fun i j hij => ?_, fun i e he => ?_⟩
        · obtain ⟨hanswer, hview⟩ := h.reads hremote i j hij
          rw [hcall, hcall, hanswer]
          exact ⟨rfl, hview⟩
        · rw [hcall]
          exact h.others hremote i e he
      · obtain ⟨a, ha⟩ := h.vacuous hremote hvacuous
        refine ⟨fun i j hij => ?_, fun i e _ => ?_⟩
        · rw [hcall, hcall, ha, ha]
          exact ⟨rfl, hij⟩
        · rw [hcall, ha]

/-! ### The store in memory -/

/-- What the store in memory has of a domain. -/
def memView (m : MemoryDedupStore) (d : String) : (String → Option PackRef) × MemAssoc :=
  (m.byDom d, m.assoc d)

variable (d chunkHash packHash : String)

/-- A store with one chunk. -/
def oneChunk : MemoryDedupStore :=
  MemoryDedupStore.empty.record d [⟨chunkHash, ⟨packHash, 0, 0⟩⟩]

theorem memView_oneChunk_of_ne {d e chunkHash packHash : String} (h : e ≠ d) :
    memView (oneChunk d chunkHash packHash) e = memView .empty e := by
  simp [memView, oneChunk, MemoryDedupStore.record, Function.update_of_ne h, MemoryDedupStore.empty]

theorem byDom_oneChunk :
    (oneChunk d chunkHash packHash).byDom d chunkHash = some ⟨packHash, 0, 0⟩ := by
  simp [oneChunk, MemoryDedupStore.record, MemoryDedupStore.recordOne, MemoryDedupStore.empty]

/-- Without associations, what is recorded is found. -/
theorem lookup_of_assoc_empty {m : MemoryDedupStore} {d : String} (h : m.assoc d = .empty) (chunkHash : String) :
    m.lookup d chunkHash = m.byDom d chunkHash := by
  have hstored : ∀ packHash, m.packUnavailable d packHash = false := by
    intro packHash
    simp [MemoryDedupStore.packUnavailable, h, MemAssoc.stateOf, MemAssoc.empty]
  unfold MemoryDedupStore.lookup
  cases m.byDom d chunkHash <;> simp [hstored]

theorem lookup_oneChunk :
    (oneChunk d chunkHash packHash).lookup d chunkHash = some ⟨packHash, 0, 0⟩ :=
  (lookup_of_assoc_empty rfl _).trans (byDom_oneChunk ..)

/-- The first location of a batch is found in a store that had none. -/
theorem byDom_record_empty (d : String) (loc : ChunkLocation) (rest : List ChunkLocation) :
    (MemoryDedupStore.empty.record d (loc :: rest)).byDom d loc.chunkHash = some loc.ref := by
  simp only [MemoryDedupStore.record, Function.update_self, MemoryDedupStore.foldl_recordOne]
  simp [MemoryDedupStore.empty]

theorem byDom_purge_oneChunk (rest : List String) :
    ((oneChunk d chunkHash packHash).purgePacks d (packHash :: rest)).byDom d chunkHash = none := by
  simp [MemoryDedupStore.purgePacks, byDom_oneChunk]

theorem associate_empty (assocs : List PackAssociation) :
    MemAssoc.empty.associate assocs = some (assocs.foldl MemAssoc.insert .empty) := by
  simp [MemAssoc.associate, MemAssoc.stateOf, MemAssoc.empty]

/-- **The store in memory keeps domains apart.** -/
theorem domainStore_memory : DomainStore MemoryDedupStore.call memView where
  reads := by
    intro c hc i j hij
    obtain ⟨hdom, hassoc⟩ := Prod.mk.inj hij
    cases hc <;> simp only [callDomain] at hdom hassoc
    case lookupBatch d hashes =>
      refine ⟨congrArg IndexAnswer.refs (funext fun h => ?_), hij⟩
      simp only [MemoryDedupStore.lookupBatch, MemoryDedupStore.lookup, MemoryDedupStore.packUnavailable, hdom,
        hassoc]
    case record d locs =>
      simp [MemoryDedupStore.call, MemoryDedupStore.record, memView, callDomain, hdom, hassoc]
    case purgePacks d packs =>
      simp [MemoryDedupStore.call, MemoryDedupStore.purgePacks, memView, callDomain, hdom, hassoc]
    case associate d assocs =>
      simp only [MemoryDedupStore.call, MemoryDedupStore.associate, callDomain, hassoc]
      by_cases hnil : assocs = []
      · simp [hnil, memView, hdom, hassoc]
      · cases hresult : (j.assoc d).associate assocs <;> simp [hnil, memView, hdom, hassoc]
  others := by
    intro c hc i e he
    cases hc <;> simp only [callDomain] at he
    case lookupBatch d hashes => rfl
    case record d locs => simp [MemoryDedupStore.call, MemoryDedupStore.record, memView, he]
    case purgePacks d packs => simp [MemoryDedupStore.call, MemoryDedupStore.purgePacks, memView, he]
    case associate d assocs =>
      simp only [MemoryDedupStore.call, MemoryDedupStore.associate]
      by_cases hnil : assocs = []
      · simp [hnil]
      · cases (i.assoc d).associate assocs <;> simp [hnil, memView, MemoryDedupStore.assoc_setAssoc, he]
  vacuous := by
    intro c hc hvacuous
    cases hc <;> cases of_decide_eq_true hvacuous
    case lookupBatch d => exact ⟨.refs fun _ => none, fun i => rfl⟩
    case record d => exact ⟨.done, fun i => by simp [MemoryDedupStore.call, MemoryDedupStore.record]⟩
    case purgePacks d =>
      refine ⟨.done, fun i => ?_⟩
      have hsame : (fun h => (i.byDom d h).filter fun ref => ref.packHash ∉ []) = i.byDom d := by
        funext h
        cases i.byDom d h <;> rfl
      simp only [MemoryDedupStore.call, MemoryDedupStore.purgePacks, hsame, Function.update_eq_self]
    case associate d => exact ⟨.done, fun i => rfl⟩
  effective := by
    intro c hc hvacuous
    cases hc with
    | lookupBatch d hashes =>
      obtain ⟨h, rest, rfl⟩ := List.exists_cons_of_ne_nil (of_decide_eq_false hvacuous)
      refine .inr ⟨oneChunk d h "p", .empty, fun e he => memView_oneChunk_of_ne he, fun heq => ?_⟩
      have hfound := congrFun (Response.locations.inj heq) h
      simp only [MemoryDedupStore.lookupBatch, List.mem_cons, true_or, if_true, lookup_oneChunk] at hfound
      cases hfound
    | record d locs =>
      obtain ⟨loc, rest, rfl⟩ := List.exists_cons_of_ne_nil (of_decide_eq_false hvacuous)
      refine .inl ⟨.empty, fun heq => ?_⟩
      have hfound := congrFun (Prod.mk.inj heq).1 loc.chunkHash
      cases (byDom_record_empty d loc rest).symm.trans hfound
    | purgePacks d packs =>
      obtain ⟨p, rest, rfl⟩ := List.exists_cons_of_ne_nil (of_decide_eq_false hvacuous)
      refine .inl ⟨oneChunk d "c" p, fun heq => ?_⟩
      have hfound := congrFun (Prod.mk.inj heq).1 "c"
      cases (byDom_purge_oneChunk d "c" p rest).symm.trans (hfound.trans (byDom_oneChunk d "c" p))
    | associate d assocs =>
      obtain ⟨as, rest, rfl⟩ := List.exists_cons_of_ne_nil (of_decide_eq_false hvacuous)
      refine .inl ⟨.empty, fun heq => ?_⟩
      have hassoc : (MemoryDedupStore.empty.call (.associate d (as :: rest))).2.assoc d
          = (as :: rest).foldl MemAssoc.insert .empty := by
        simp only [MemoryDedupStore.call, MemoryDedupStore.associate, reduceCtorEq, if_false]
        rw [show MemoryDedupStore.empty.assoc d = MemAssoc.empty from rfl, associate_empty]
        exact MemoryDedupStore.assoc_setAssoc_self ..
      have hmem : as.context ∈ ((as :: rest).foldl MemAssoc.insert .empty).byPack as.packHash :=
        (MemAssoc.mem_byPack_foldl_insert ..).mpr (.inr (List.mem_cons_self ..))
      have hsame : (MemoryDedupStore.empty.call (.associate d (as :: rest))).2.assoc d = MemAssoc.empty :=
        (Prod.mk.inj heq).2
      rw [← hassoc, hsame] at hmem
      cases hmem

/-! ### The store in PostgreSQL -/

/-- What the tables have of a domain. -/
def pgView (db : Pgindex.Db) (d : String) : Pgindex.Db := Pgindex.restrict d db

/-- Stores that agree with tables which have the same of a domain find the same there. -/
theorem lookup_eq_of_pgView {m m' : MemoryDedupStore} {db db' : Pgindex.Db} (h : Pgindex.Agrees m db)
    (h' : Pgindex.Agrees m' db') {d : String} (hview : pgView db d = pgView db' d) (chunkHash : String) :
    m.lookup d chunkHash = m'.lookup d chunkHash := by
  have hanswer : (Pgindex.call db (.lookupBatch d [chunkHash])).1
      = (Pgindex.call db' (.lookupBatch d [chunkHash])).1 := by
    rw [← (call_restrict (.lookupBatch d [chunkHash]) db).1,
      ← (call_restrict (.lookupBatch d [chunkHash]) db').1]
    exact congrArg (fun v => (Pgindex.call v (.lookupBatch d [chunkHash])).1) hview
  rw [h.lookupBatch, h'.lookupBatch] at hanswer
  have hfound := congrFun (IndexAnswer.refs.inj hanswer) chunkHash
  simpa [MemoryDedupStore.lookupBatch] using hfound

/-- **The store in PostgreSQL keeps domains apart.** -/
theorem domainStore_pg : DomainStore Pgindex.call pgView where
  reads := by
    intro c hc i j hij
    obtain ⟨hi, hi', -⟩ := call_restrict hc i
    obtain ⟨hj, hj', -⟩ := call_restrict hc j
    have hsame : Pgindex.restrict (callDomain c) i = Pgindex.restrict (callDomain c) j := hij
    refine ⟨?_, ?_⟩
    · rw [← hi, ← hj, hsame]
    · unfold pgView
      rw [← hi', ← hj', hsame]
  others := by
    intro c hc i e he
    exact (call_restrict hc i).2.2 e he
  vacuous := by
    intro c hc hvacuous
    cases hc <;> cases of_decide_eq_true hvacuous
    case lookupBatch d => exact ⟨.refs fun _ => none, fun i => rfl⟩
    case record d => exact ⟨.done, fun i => rfl⟩
    case purgePacks d =>
      refine ⟨.done, fun i => ?_⟩
      have hnone : ∀ (t : Pgindex.Table) (p : Pgindex.Row t → Bool), (∀ r, p r = false) →
          Sql.Tx.edit t (Sql.Tx.deleted p) i = i := by
        intro t p hp
        simp [Sql.Tx.edit, Sql.Tx.deleted, hp]
      simp only [Pgindex.call, Pgindex.serve, Pgindex.purgePacksTx, Pgindex.purgeManifestTx,
        Pgindex.purgeRowsTx, exec_bind, exec_deleteRows, andThen_ok, exec_pure]
      rw [hnone .packManifest _ (by simp), hnone .packs _ (by simp)]
    case associate d => exact ⟨.done, fun i => rfl⟩
  effective := by
    intro c hc hvacuous
    cases hc with
    | lookupBatch d hashes =>
      obtain ⟨h, rest, rfl⟩ := List.exists_cons_of_ne_nil (of_decide_eq_false hvacuous)
      have hagrees := (agrees_empty.record d [⟨h, ⟨"p", 0, 0⟩⟩]).2
      refine .inr ⟨_, Pgindex.emptyDb,
        (call_restrict (.record d [⟨h, ⟨"p", 0, 0⟩⟩]) Pgindex.emptyDb).2.2,
        fun heq => ?_⟩
      rw [hagrees.lookupBatch, agrees_empty.lookupBatch] at heq
      have hfound := congrFun (Response.locations.inj heq) h
      have hchunk := lookup_oneChunk d h "p"
      unfold oneChunk at hchunk
      simp only [MemoryDedupStore.lookupBatch, List.mem_cons, true_or, if_true, hchunk] at hfound
      cases hfound
    | record d locs =>
      obtain ⟨loc, rest, rfl⟩ := List.exists_cons_of_ne_nil (of_decide_eq_false hvacuous)
      refine .inl ⟨Pgindex.emptyDb, fun heq => ?_⟩
      have hagrees := (agrees_empty.record d (loc :: rest)).2
      have hfound := lookup_eq_of_pgView (d := d) hagrees agrees_empty heq loc.chunkHash
      rw [lookup_of_assoc_empty rfl, byDom_record_empty] at hfound
      cases hfound
    | purgePacks d packs =>
      obtain ⟨p, rest, rfl⟩ := List.exists_cons_of_ne_nil (of_decide_eq_false hvacuous)
      have hagrees := (agrees_empty.record d [⟨"c", ⟨p, 0, 0⟩⟩]).2
      have hstored : ∀ q ∈ p :: rest, ((MemoryDedupStore.empty.record d [⟨"c", ⟨p, 0, 0⟩⟩]).assoc d).stateOf q
          = .stored := fun _ _ => rfl
      have hpurged := (hagrees.purgePacks hstored).2
      refine .inl ⟨(Pgindex.call Pgindex.emptyDb (.record d [⟨"c", ⟨p, 0, 0⟩⟩])).2, fun heq => ?_⟩
      have hfound := lookup_eq_of_pgView (d := d) hpurged hagrees heq "c"
      have hgone := byDom_purge_oneChunk d "c" p rest
      have hchunk := lookup_oneChunk d "c" p
      unfold oneChunk at hgone hchunk
      rw [lookup_of_assoc_empty rfl, hgone, hchunk] at hfound
      cases hfound
    | associate d assocs =>
      obtain ⟨as, rest, rfl⟩ := List.exists_cons_of_ne_nil (of_decide_eq_false hvacuous)
      refine .inl ⟨Pgindex.emptyDb, fun heq => ?_⟩
      have hafter : (Pgindex.call Pgindex.emptyDb (.associate d (as :: rest))).2 .packAssoc
          = ((as :: rest).map (Pgindex.assocRow d)).foldl
            (fun acc r => Sql.Tx.inserted (ρ := Pgindex.Row) (t := .packAssoc) r acc) [] := by
        simp only [Pgindex.call, reduceCtorEq, if_false, Pgindex.serve, Pgindex.associateTx, exec_bind,
          exec_lockRows, andThen_ok, exec_require, Pgindex.emptyDb, List.filter_nil, if_true,
          exec_insertRows, edit_self]
      have hmem : Pgindex.assocRow d as ∈ pgView (Pgindex.call Pgindex.emptyDb (.associate d (as :: rest))).2 d
          .packAssoc := by
        refine List.mem_filter.mpr ⟨?_, decide_eq_true rfl⟩
        rw [hafter]
        exact mem_insertRows.mpr (.inr (List.mem_map_of_mem (List.mem_cons_self ..)))
      have hsame : pgView (Pgindex.call Pgindex.emptyDb (.associate d (as :: rest))).2 d
          = pgView Pgindex.emptyDb d := heq
      rw [hsame] at hmem
      cases hmem

/-! ### Messages -/

/-- The message leads to no call, or to one on this domain, or to one with nothing in it. -/
def Harmless (codec : Codec D) (d : String) (rpc : Rpc) (msg : Msg D) : Prop :=
  ∀ c, request codec rpc msg = .ok c → callDomain c = d ∨ Vacuous c = true

/-- **Confined messages.**  Each tenant has a domain of its own.  A message on one of its subjects reads and
    changes only this domain, on either store, exactly when it is harmless. -/
theorem messages_confined_iff (codec : Codec D) (own : String → String) (rpc : Rpc) (msg : Msg D)
    (tenant : String) (_ : tenantFromSubject msg.subject = some tenant) :
    (Confined memView (handle codec MemoryDedupStore.call rpc msg) (own tenant)
        ↔ Harmless codec (own tenant) rpc msg)
      ∧ (Confined pgView (handle codec Pgindex.call rpc msg) (own tenant)
        ↔ Harmless codec (own tenant) rpc msg) :=
  ⟨confined_iff domainStore_memory codec rpc msg _, confined_iff domainStore_pg codec rpc msg _⟩

/-- A codec for one request to purge. -/
def purgeCodec : Codec Unit where
  lookup _ := .error ""
  record _ := .error ""
  purge _ := .ok ⟨"b", ["p"]⟩
  associate _ := .error ""

/-- The message of a tenant that carries the request. -/
def purgeMsg (tenant : String) : Msg Unit := ⟨["blobgw", tenant, "gc", "purge"], ()⟩

/-- The tenant whose domain it is may purge. -/
theorem messages_confined_iff_own :
    Confined memView (handle purgeCodec MemoryDedupStore.call .purge (purgeMsg "b")) "b"
      ∧ Confined pgView (handle purgeCodec Pgindex.call .purge (purgeMsg "b")) "b" := by
  have hharmless : Harmless purgeCodec "b" .purge (purgeMsg "b") := by
    intro c hc
    have hrequest : request purgeCodec .purge (purgeMsg "b") = .ok (.purgePacks "b" ["p"]) := rfl
    rw [hrequest] at hc
    cases hc
    exact .inl rfl
  obtain ⟨hmem, hpg⟩ := messages_confined_iff purgeCodec id .purge (purgeMsg "b") "b" rfl
  exact ⟨hmem.mpr hharmless, hpg.mpr hharmless⟩

/-- **Another tenant may, too.**  A message on the subject of `a` removes what `b` has in the index. -/
theorem other_tenant_purges :
    tenantFromSubject (purgeMsg "a").subject = some "a"
      ∧ (oneChunk "b" "c" "p").lookup "b" "c" = some ⟨"p", 0, 0⟩
      ∧ (handle purgeCodec MemoryDedupStore.call .purge (purgeMsg "a") (oneChunk "b" "c" "p")).2.lookup "b" "c"
        = none := by
  decide

/-! ### Runs -/

/-- **Tenants apart.**  Tenants have different domains, and all their messages are harmless.  Then the replies to a
    tenant are those it would get if the others sent nothing. -/
theorem tenants_apart
    (h : DomainStore call view) (codec : Codec D) (own : String → String) (hown : Function.Injective own)
    (msgs : List (Rpc × Msg D))
    (hharmless : ∀ m ∈ msgs, ∀ u ∈ tenantFromSubject m.2.subject, Harmless codec (own u) m.1 m.2)
    (tenant : String) (i : I) :
    Runs.observed (fun i (m : Rpc × Msg D) => handle codec call m.1 m.2 i)
        (fun m => tenantFromSubject m.2.subject = some tenant) i msgs
      = Runs.answers (fun i (m : Rpc × Msg D) => handle codec call m.1 m.2 i) i
        (msgs.filter fun m => tenantFromSubject m.2.subject = some tenant) := by
  -- two states look alike to a tenant when they have the same in its domain
  refine Runs.observed_eq_answers (fun i j => view i (own tenant) = view j (own tenant)) ?_ ?_ rfl
    (Runs.guarded_of_forall hharmless i)
  · intro i j m hij hmine hok
    have hconfined := (confined_iff h codec m.1 m.2 (own tenant)).mpr (hok tenant (of_decide_eq_true hmine))
    exact hconfined.reads i j hij
  · intro i j m hij hmine hok
    have hother : tenantFromSubject m.2.subject ≠ some tenant := of_decide_eq_false hmine
    refine Eq.trans ?_ hij
    cases htenant : tenantFromSubject m.2.subject with
    | none =>
      -- a message on no subject of a tenant is dropped
      have hdropped : handle codec call m.1 m.2 i = (none, i) := by
        cases hrpc : m.1 <;> simp only [handle, request, checked, htenant]
      rw [hdropped]
    | some u =>
      have hconfined := (confined_iff h codec m.1 m.2 (own u)).mpr (hok u htenant)
      refine hconfined.others i (own tenant) fun heq => hother ?_
      rw [htenant, hown heq]

/-- A request of `a` that cannot be read leaves the answer to `b`. -/
theorem tenants_apart_unread :
    Runs.observed (fun i m => handle purgeCodec MemoryDedupStore.call m.1 m.2 i)
      (fun m => tenantFromSubject m.2.subject = some "b") .empty
      [(.lookup, purgeMsg "a"), (.purge, purgeMsg "b")] = [some .done] := by
  refine tenants_apart domainStore_memory purgeCodec id Function.injective_id _ ?_ "b" .empty
  rintro m hm u hu c hc
  rcases List.mem_pair.mp hm with rfl | rfl
  · cases hc
  · cases hc
    exact .inl (Option.some.inj hu)

end MemoryLayer.Controlplane
