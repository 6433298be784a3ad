import Mathlib.Logic.Function.Basic
import Mathlib.Data.Set.Basic

namespace MemoryLayer.Snapshot

/-! # The dedup index and the pack associations

The interface of a durable dedup index (`snapshot/dedupindex.go`), its extension by associations and
reclamation marks (`snapshot/packassoc.go`), and the reference store in memory.  Maps are functions,
and a map that has no entry answers with the zero value.

- `PackRef`, `ChunkLocation`, `PackState`, `PackAssociation`: the data of the index.
- `MemAssoc`, `MemoryDedupStore`: the store in memory, with one method for each of the source.
- `IndexCall`, `IndexAnswer`, `MemoryDedupStore.call`: the calls on a store, and what they answer.
- `stateOf_setState`, `mem_byPack_insert` and the others: what each method does to each map.
-/

/-- Where a chunk lies within a pack. -/
structure PackRef where
  packHash : String
  offset : Int
  size : Int
  deriving DecidableEq, Repr

/-- A chunk and where it lies. -/
structure ChunkLocation where
  chunkHash : String
  ref : PackRef
  deriving DecidableEq, Repr

/-- The lifecycle of a pack. -/
inductive PackState where
  | stored
  | obliterating
  | obliterated
  deriving DecidableEq, Repr

/-- An owner's claim on a pack. -/
structure PackAssociation where
  packHash : String
  context : String
  deriving DecidableEq, Repr

/-- The physical size of a pack. -/
structure PackSize where
  packHash : String
  compressedBytes : Int
  deriving DecidableEq, Repr

/-! ### Associations of one domain -/

/-- The associations and marks of one domain: the contexts of a pack, the packs of a context, and
    the recorded states. -/
structure MemAssoc where
  byPack : String → List String
  byContext : String → List String
  state : String → Option PackState
  backfilled : Bool

namespace MemAssoc

/-- A domain that nobody has used. -/
def empty : MemAssoc := ⟨fun _ => [], fun _ => [], fun _ => none, false⟩

/-- A pack without a recorded state is stored. -/
def stateOf (a : MemAssoc) (packHash : String) : PackState := (a.state packHash).getD .stored

/-- Record one association. -/
def insert (a : MemAssoc) (as : PackAssociation) : MemAssoc :=
  { a with
    byPack := Function.update a.byPack as.packHash ((a.byPack as.packHash).insert as.context)
    byContext :=
      Function.update a.byContext as.context ((a.byContext as.context).insert as.packHash) }

/-- Record a batch of associations, or none of them when a pack is being reclaimed. -/
def associate (a : MemAssoc) (assocs : List PackAssociation) : Option MemAssoc :=
  if assocs.any fun as => a.stateOf as.packHash ≠ .stored then none
  else some (assocs.foldl insert a)

/-- Remove the associations of a context. -/
def dropContext (a : MemAssoc) (packContext : String) : MemAssoc :=
  let packs := a.byContext packContext
  { a with
    byPack := fun packHash =>
      if packHash ∈ packs then (a.byPack packHash).filter (· ≠ packContext) else a.byPack packHash
    byContext := Function.update a.byContext packContext [] }

/-- Record a state. -/
def setState (a : MemAssoc) (packHash : String) (s : PackState) : MemAssoc :=
  { a with state := Function.update a.state packHash (some s) }

/-- Publish the mark on a stored pack. -/
def markObliterating (a : MemAssoc) (packHash : String) : Bool × MemAssoc :=
  if a.stateOf packHash ≠ .stored then (false, a) else (true, a.setState packHash .obliterating)

/-- Take the mark back. -/
def releaseMark (a : MemAssoc) (packHash : String) : MemAssoc :=
  if a.stateOf packHash = .obliterating then a.setState packHash .stored else a

/-- Give up a marked pack that nobody is associated with. -/
def commitObliterated (a : MemAssoc) (packHash : String) : Bool × MemAssoc :=
  if a.stateOf packHash ≠ .obliterating then (false, a)
  else if a.byPack packHash ≠ [] then (false, a)
  else (true, a.setState packHash .obliterated)

section

variable (a : MemAssoc) (p : String)

theorem stateOf_setState (q : String) (s : PackState) :
    (a.setState p s).stateOf q = if q = p then s else a.stateOf q := by
  unfold stateOf setState
  by_cases h : q = p
  · simp [h]
  · simp [h, Function.update_of_ne]

@[simp] theorem byPack_setState (s : PackState) :
    (a.setState p s).byPack = a.byPack := rfl

@[simp] theorem byContext_setState (s : PackState) :
    (a.setState p s).byContext = a.byContext := rfl

@[simp] theorem backfilled_setState (s : PackState) :
    (a.setState p s).backfilled = a.backfilled := rfl

@[simp] theorem byPack_markObliterating :
    (a.markObliterating p).2.byPack = a.byPack := by
  unfold markObliterating
  split <;> rfl

@[simp] theorem byPack_releaseMark :
    (a.releaseMark p).byPack = a.byPack := by
  unfold releaseMark
  split <;> rfl

@[simp] theorem byPack_commitObliterated :
    (a.commitObliterated p).2.byPack = a.byPack := by
  unfold commitObliterated
  split
  · rfl
  · split <;> rfl

end

section

variable (assocs : List PackAssociation) (a : MemAssoc) (p c : String)

/-- The contexts of a pack after a batch of associations. -/
theorem mem_byPack_foldl_insert :
    c ∈ (assocs.foldl insert a).byPack p ↔ c ∈ a.byPack p ∨ ⟨p, c⟩ ∈ assocs := by
  induction assocs generalizing a with
  | nil => simp
  | cons as assocs ih =>
    rw [List.foldl_cons, ih, List.mem_cons, ← or_assoc]
    refine or_congr_left ?_
    obtain ⟨q, e⟩ := as
    by_cases hp : p = q
    · subst hp
      simp [insert, or_comm]
    · simp [insert, hp]

/-- The packs of a context after a batch of associations. -/
theorem mem_byContext_foldl_insert :
    p ∈ (assocs.foldl insert a).byContext c ↔ p ∈ a.byContext c ∨ ⟨p, c⟩ ∈ assocs := by
  induction assocs generalizing a with
  | nil => simp
  | cons as assocs ih =>
    rw [List.foldl_cons, ih, List.mem_cons, ← or_assoc]
    refine or_congr_left ?_
    obtain ⟨q, e⟩ := as
    by_cases hc : c = e
    · subst hc
      simp [insert, or_comm]
    · simp [insert, hc]

@[simp] theorem state_foldl_insert :
    (assocs.foldl insert a).state = a.state := by
  induction assocs generalizing a with
  | nil => rfl
  | cons as assocs ih => rw [List.foldl_cons, ih, insert]

@[simp] theorem backfilled_foldl_insert :
    (assocs.foldl insert a).backfilled = a.backfilled := by
  induction assocs generalizing a with
  | nil => rfl
  | cons as assocs ih => rw [List.foldl_cons, ih, insert]

end

end MemAssoc

/-! ### The store -/

/-- The store in memory, by domain: the locations of chunks, and the associations. -/
structure MemoryDedupStore where
  byDom : String → String → Option PackRef
  assoc : String → MemAssoc

variable (m : MemoryDedupStore)

namespace MemoryDedupStore

/-- A new store. -/
def empty : MemoryDedupStore := ⟨fun _ _ => none, fun _ => .empty⟩

variable (domain : String)

/-- Replace the associations of a domain. -/
def setAssoc (a : MemAssoc) : MemoryDedupStore :=
  { m with assoc := Function.update m.assoc domain a }

theorem assoc_setAssoc (d e : String) (a : MemAssoc) :
    (m.setAssoc d a).assoc e = if e = d then a else m.assoc e := Function.update_apply ..

@[simp] theorem assoc_setAssoc_self (d : String) (a : MemAssoc) :
    (m.setAssoc d a).assoc d = a := Function.update_self ..

@[simp] theorem byDom_setAssoc (d : String) (a : MemAssoc) :
    (m.setAssoc d a).byDom = m.byDom := rfl

@[simp] theorem setAssoc_eq_self (d : String) :
    m.setAssoc d (m.assoc d) = m := by
  simp [setAssoc]

/-- A pack that is being reclaimed, or was, must not be handed out. -/
def packUnavailable (domain packHash : String) : Bool :=
  (m.assoc domain).stateOf packHash ≠ .stored

/-- The location of a chunk, unless its pack is being reclaimed. -/
def lookup (domain chunkHash : String) : Option PackRef :=
  (m.byDom domain chunkHash).filter fun ref => !m.packUnavailable domain ref.packHash

/-- The locations of many chunks. -/
def lookupBatch (chunkHashes : List String)
    (chunkHash : String) : Option PackRef :=
  if chunkHash ∈ chunkHashes then m.lookup domain chunkHash else none

/-- One location; the first writer wins. -/
def recordOne (dom : String → Option PackRef) (loc : ChunkLocation) : String → Option PackRef :=
  if (dom loc.chunkHash).isSome then dom else Function.update dom loc.chunkHash (some loc.ref)

/-- The location of a chunk after a batch: the one it had, or the first one recorded. -/
theorem foldl_recordOne (locs : List ChunkLocation) (dom : String → Option PackRef) (h : String) :
    locs.foldl recordOne dom h
      = (dom h).or ((locs.find? fun loc => loc.chunkHash = h).map ChunkLocation.ref) := by
  induction locs generalizing dom with
  | nil => simp
  | cons loc locs ih =>
    rw [List.foldl_cons, ih, recordOne]
    by_cases hloc : loc.chunkHash = h
    · subst hloc
      cases hdom : dom loc.chunkHash <;> simp [hdom]
    · split
      · simp [hloc]
      · simp [hloc, Function.update_of_ne (Ne.symm hloc)]

/-- Record locations. -/
def record (locs : List ChunkLocation) :
    MemoryDedupStore :=
  { m with byDom := Function.update m.byDom domain (locs.foldl recordOne (m.byDom domain)) }

/-- The locations after a recording: those that were there, and those that were recorded. -/
theorem byDom_record {m : MemoryDedupStore} {d d' h : String} {locs : List ChunkLocation} {ref : PackRef}
    (hx : (m.record d locs).byDom d' h = some ref) :
    m.byDom d' h = some ref ∨ d' = d ∧ ∃ loc ∈ locs, loc.chunkHash = h ∧ loc.ref = ref := by
  by_cases hd : d' = d
  · subst hd
    simp only [record, Function.update_self] at hx
    rw [foldl_recordOne, Option.or_eq_some_iff] at hx
    refine hx.imp_right fun ⟨_, hx⟩ => ⟨rfl, ?_⟩
    obtain ⟨loc, hfind, hloc⟩ := Option.map_eq_some_iff.mp hx
    exact ⟨loc, List.mem_of_find?_eq_some hfind, by simpa using List.find?_some hfind, hloc⟩
  · simp only [record, Function.update_of_ne hd] at hx
    exact .inl hx

/-- Forget the locations in some packs. -/
def purgePacks (packHashes : List String) :
    MemoryDedupStore :=
  { m with
    byDom := Function.update m.byDom domain fun chunkHash =>
      (m.byDom domain chunkHash).filter fun ref => ref.packHash ∉ packHashes }

/-- Record associations; `false` is the error that a pack is being reclaimed. -/
def associate (assocs : List PackAssociation) :
    Bool × MemoryDedupStore :=
  if assocs = [] then (true, m)
  else match (m.assoc domain).associate assocs with
    | none => (false, m)
    | some a => (true, m.setAssoc domain a)

/-- Remove the associations of a context, answering with its packs. -/
def dropContext (domain packContext : String) :
    List String × MemoryDedupStore :=
  let packs := (m.assoc domain).byContext packContext
  if packs = [] then ([], m)
  else (packs, m.setAssoc domain ((m.assoc domain).dropContext packContext))

/-- Answering early for a context without packs changes nothing. -/
theorem dropContext_eq (d c : String) :
    m.dropContext d c = ((m.assoc d).byContext c, m.setAssoc d ((m.assoc d).dropContext c)) := by
  unfold dropContext
  by_cases hnil : (m.assoc d).byContext c = []
  · have hsame : (m.assoc d).dropContext c = m.assoc d := by
      simp only [MemAssoc.dropContext, hnil, List.not_mem_nil, if_false]
      rw [← hnil, Function.update_eq_self]
    rw [hsame, setAssoc_eq_self, if_pos hnil, hnil]
  · rw [if_neg hnil]

/-- Associations do not change the state of a pack. -/
theorem stateOf_associate (d : String) (assocs : List PackAssociation)
    (d' p : String) :
    ((m.associate d assocs).2.assoc d').stateOf p = (m.assoc d').stateOf p := by
  unfold associate
  split
  · rfl
  · cases h : (m.assoc d).associate assocs with
    | none => rfl
    | some a =>
      obtain ⟨-, ha⟩ := Option.ite_none_left_eq_some.mp h
      cases ha
      dsimp only
      rw [assoc_setAssoc]
      split
      · rename_i hd
        rw [hd, MemAssoc.stateOf, MemAssoc.state_foldl_insert]
        rfl
      · rfl

/-- Whether packs have associations. -/
def hasAssociations (packHashes : List String)
    (packHash : String) : Option Bool :=
  if packHash ∈ packHashes then some ((m.assoc domain).byPack packHash ≠ []) else none

/-- A pack with an association is live. -/
def livePack (domain packHash : String) : Bool :=
  (m.assoc domain).byPack packHash ≠ []

def markObliterating (domain packHash : String) :
    Bool × MemoryDedupStore :=
  let (won, a) := (m.assoc domain).markObliterating packHash
  (won, m.setAssoc domain a)

def releaseMark (domain packHash : String) : MemoryDedupStore :=
  m.setAssoc domain ((m.assoc domain).releaseMark packHash)

def commitObliterated (domain packHash : String) :
    Bool × MemoryDedupStore :=
  let (committed, a) := (m.assoc domain).commitObliterated packHash
  (committed, m.setAssoc domain a)

def markBackfilled : MemoryDedupStore :=
  m.setAssoc domain { m.assoc domain with backfilled := true }

def isBackfilled : Bool := (m.assoc domain).backfilled

end MemoryDedupStore

/-! ### Calls -/

/-- The calls on a store of chunk locations and associations.  Only some stores keep pack sizes. -/
inductive IndexCall where
  | lookup (domain chunkHash : String)
  | lookupBatch (domain : String) (chunkHashes : List String)
  | record (domain : String) (locs : List ChunkLocation)
  | purgePacks (domain : String) (packHashes : List String)
  | associate (domain : String) (assocs : List PackAssociation)
  | dropContext (domain packContext : String)
  | hasAssociations (domain : String) (packHashes : List String)
  | walkLivePacks (domain : String)
  | markObliterating (domain packHash : String)
  | releaseMark (domain packHash : String)
  | commitObliterated (domain packHash : String)
  | markBackfilled (domain : String)
  | isBackfilled (domain : String)
  | recordPackSizes (domain : String) (sizes : List PackSize)

/-- The answers; what comes in no specified order is a set, and `refused` is the error that a pack is
    being reclaimed. -/
inductive IndexAnswer where
  | ref (r : Option PackRef)
  | refs (rs : String → Option PackRef)
  | packs (ps : Set String)
  | held (hs : String → Option Bool)
  | flag (b : Bool)
  | done
  | refused

/-- The store in memory serves a call. -/
def MemoryDedupStore.call : IndexCall → IndexAnswer × MemoryDedupStore
  | .lookup domain chunkHash => (.ref (m.lookup domain chunkHash), m)
  | .lookupBatch domain chunkHashes => (.refs (m.lookupBatch domain chunkHashes), m)
  | .record domain locs => (.done, m.record domain locs)
  | .purgePacks domain packHashes => (.done, m.purgePacks domain packHashes)
  | .associate domain assocs =>
    match m.associate domain assocs with
    | (true, m) => (.done, m)
    | (false, m) => (.refused, m)
  | .dropContext domain packContext =>
    let (packs, m) := m.dropContext domain packContext
    (.packs {p | p ∈ packs}, m)
  | .hasAssociations domain packHashes => (.held (m.hasAssociations domain packHashes), m)
  | .walkLivePacks domain => (.packs {p | m.livePack domain p = true}, m)
  | .markObliterating domain packHash =>
    let (won, m) := m.markObliterating domain packHash
    (.flag won, m)
  | .releaseMark domain packHash => (.done, m.releaseMark domain packHash)
  | .commitObliterated domain packHash =>
    let (committed, m) := m.commitObliterated domain packHash
    (.flag committed, m)
  | .markBackfilled domain => (.done, m.markBackfilled domain)
  | .isBackfilled domain => (.flag (m.isBackfilled domain), m)
  | .recordPackSizes _ _ => (.done, m)

end MemoryLayer.Snapshot
