import MemoryLayer.Sql.Session
import MemoryLayer.Snapshot.Dedup

namespace MemoryLayer.Pgindex

open Sql Sql.Tx Snapshot

/-! # The dedup index in PostgreSQL

The tables and statements of `pgindex/pgindex.go` and `pgindex/packassoc.go`.  A method is a
transaction body, so that it can be executed alone or interleaved with others.  Columns that no
statement reads (time stamps) are left out.

- `Table`, `Row`: the four tables, with their primary keys.
- `lookupTx`, `recordTx`, `associateTx`, `markObliteratingTx` and the others: the methods.
- `call`: the store serves a call of the index, executed alone.
-/

/-! ### Tables -/

/-- The tables of the index. -/
inductive Table where
  | packManifest
  | packs
  | packAssoc
  | backfill
  deriving DecidableEq, Repr

/-- A row of `pack_manifest`: the location of a chunk. -/
structure ManifestRow where
  domain : String
  chunkHash : String
  packHash : String
  offsetB : Int
  lengthB : Int
  deriving DecidableEq, Repr

/-- A row of `packs`: the size of a pack and its lifecycle mark. -/
structure PackRow where
  domain : String
  packHash : String
  compressedPackBytes : Int
  state : PackState
  deriving DecidableEq, Repr

/-- A row of `pack_assoc`. -/
structure AssocRow where
  domain : String
  packHash : String
  context : String
  deriving DecidableEq, Repr

/-- A row of `pack_assoc_backfill`. -/
structure BackfillRow where
  domain : String
  deriving DecidableEq, Repr

/-- The rows of each table. -/
@[reducible] def Row : Table → Type
  | .packManifest => ManifestRow
  | .packs => PackRow
  | .packAssoc => AssocRow
  | .backfill => BackfillRow

/-- The primary keys. -/
inductive RowKey where
  | packManifest (domain chunkHash : String)
  | packs (domain packHash : String)
  | packAssoc (domain packHash context : String)
  | backfill (domain : String)
  deriving DecidableEq, Repr

/-- The primary key of a row. -/
def rowKey : (t : Table) → Row t → RowKey
  | .packManifest, r => .packManifest r.domain r.chunkHash
  | .packs, r => .packs r.domain r.packHash
  | .packAssoc, r => .packAssoc r.domain r.packHash r.context
  | .backfill, r => .backfill r.domain

instance : Constraints Row where
  clash t r s := rowKey t r = rowKey t s

instance : Keys Row RowKey where
  key t r := some (rowKey t r)

/-- The committed tables. -/
abbrev Db := Sql.Db Row

/-- The error that a pack is being reclaimed (`snapshot.ErrPackObliterating`). -/
inductive PgErr where
  | packObliterating
  deriving DecidableEq, Repr

/-- A transaction on the index. -/
abbrev PgTx := Tx Row PgErr Unit

/-- The tables as they are created. -/
def emptyDb : Db := fun _ => []

/-! ### Rows that statements look for -/

/-- The `pack_manifest` row of a chunk. -/
def isChunk (domain chunkHash : String) (r : ManifestRow) : Bool :=
  r.domain = domain ∧ r.chunkHash = chunkHash

/-- The `packs` row of a pack. -/
def isPack (domain packHash : String) (r : PackRow) : Bool :=
  r.domain = domain ∧ r.packHash = packHash

/-- The `packs` row of a pack, in a state. -/
def isPackIn (s : PackState) (domain packHash : String) (r : PackRow) : Bool :=
  isPack domain packHash r ∧ r.state = s

/-- `COALESCE(p.state, 'stored')` for the `packs` row that is joined to a pack. -/
def stateIn (packs : List PackRow) (domain packHash : String) : PackState :=
  ((packs.find? (isPack domain packHash)).map PackRow.state).getD .stored

/-- The location in a row. -/
def ManifestRow.ref (r : ManifestRow) : PackRef := ⟨r.packHash, r.offsetB, r.lengthB⟩

/-! ### Chunk locations -/

variable (domain : String)

/-- The chunk rows that a lookup finds, less those whose pack is not stored. -/
def joinStored (p : ManifestRow → Bool) : PgTx (List ManifestRow) := do
  let rows ← selectRows Table.packManifest p
  let packs ← selectRows Table.packs fun _ => true
  pure (rows.filter fun r => stateIn packs domain r.packHash = .stored)

def lookupTx (domain chunkHash : String) : PgTx (Option PackRef) := do
  let rows ← joinStored domain (isChunk domain chunkHash)
  pure (rows.head?.map ManifestRow.ref)

def lookupBatchTx (chunkHashes : List String) :
    PgTx (String → Option PackRef) := do
  if chunkHashes = [] then pure fun _ => none
  else do
    let rows ← joinStored domain fun r => r.domain = domain ∧ r.chunkHash ∈ chunkHashes
    -- a later row would overwrite an earlier one of the same chunk
    pure fun chunkHash => (rows.reverse.find? fun r => r.chunkHash = chunkHash).map ManifestRow.ref

/-- The row of a location. -/
def manifestRow (loc : ChunkLocation) : ManifestRow :=
  ⟨domain, loc.chunkHash, loc.ref.packHash, loc.ref.offset, loc.ref.size⟩

def recordTx (locs : List ChunkLocation) : PgTx Unit :=
  insertRows Table.packManifest (locs.map (manifestRow domain))

variable (packHashes : List String)

/-- The first statement of `PurgePacks`, which is a transaction of its own. -/
def purgeManifestTx : PgTx Unit := do
  let _ ← deleteRows Table.packManifest fun r => r.domain = domain ∧ r.packHash ∈ packHashes
  pure ()

/-- The second statement of `PurgePacks`: the row that carries the mark goes too. -/
def purgeRowsTx : PgTx Unit := do
  let _ ← deleteRows Table.packs fun r => r.domain = domain ∧ r.packHash ∈ packHashes
  pure ()

/-- Both statements of `PurgePacks`. -/
def purgePacksTx : PgTx Unit := do
  purgeManifestTx domain packHashes
  purgeRowsTx domain packHashes

def recordPackSizesTx (sizes : List PackSize) : PgTx Unit :=
  each (fun ps => upsertRow Table.packs ⟨domain, ps.packHash, ps.compressedBytes, .stored⟩
    fun r => { r with compressedPackBytes := ps.compressedBytes }) sizes

/-! ### Associations -/

/-- The row of an association. -/
def assocRow (as : PackAssociation) : AssocRow :=
  ⟨domain, as.packHash, as.context⟩

/-- Record associations.  The check locks only the rows that it finds, those of packs that are not
    stored. -/
def associateTx (assocs : List PackAssociation) : PgTx Unit := do
  let bad ← lockRows .share Table.packs fun r =>
    r.domain = domain ∧ r.packHash ∈ assocs.map PackAssociation.packHash ∧ r.state ≠ .stored
  require (bad = []) .packObliterating
  insertRows Table.packAssoc (assocs.map (assocRow domain))

/-- The associations of a context. -/
def isContext (domain packContext : String) (r : AssocRow) : Bool :=
  r.domain = domain ∧ r.context = packContext

/-- `DELETE ... RETURNING`: the rows found are locked and deleted. -/
def dropContextTx (domain packContext : String) : PgTx (List String) := do
  let rows ← lockRows .update Table.packAssoc (isContext domain packContext)
  let _ ← deleteRows Table.packAssoc fun r => r ∈ rows
  pure (rows.map AssocRow.packHash)

def hasAssociationsTx :
    PgTx (String → Option Bool) := do
  let rows ← selectRows Table.packAssoc fun r => r.domain = domain ∧ r.packHash ∈ packHashes
  pure fun packHash =>
    if packHash ∈ packHashes then some (packHash ∈ rows.map AssocRow.packHash) else none

def walkLivePacksTx : PgTx (List String) := do
  let rows ← selectRows Table.packAssoc fun r => r.domain = domain
  pure (rows.map AssocRow.packHash)

/-! ### Marks -/

/-- A new state for a pack row. -/
def PackRow.withState (s : PackState) (r : PackRow) : PackRow := { r with state := s }

/-- `INSERT ... ON CONFLICT DO UPDATE ... WHERE state = 'stored' RETURNING`: a new row, or the mark on
    a row that is stored. -/
def markObliteratingTx (domain packHash : String) : PgTx Bool := do
  let new ← insertRow Table.packs ⟨domain, packHash, 0, .obliterating⟩
  if new then pure true
  else do
    let written ← updateRows Table.packs (isPackIn .stored domain packHash)
      (PackRow.withState .obliterating)
    pure (written ≠ [])

def releaseMarkTx (domain packHash : String) : PgTx Unit := do
  let _ ← updateRows Table.packs (isPackIn .obliterating domain packHash)
    (PackRow.withState .stored)
  pure ()

/-- The associations of a pack. -/
def isOf (domain packHash : String) (r : AssocRow) : Bool :=
  r.domain = domain ∧ r.packHash = packHash

/-- `UPDATE ... WHERE state = 'obliterating' AND NOT EXISTS (...) RETURNING`: the associations are
    those of the moment the statement begins, and it may have to wait for the row. -/
def commitObliteratedTx (domain packHash : String) : PgTx Bool := do
  let assocs ← selectRows Table.packAssoc (isOf domain packHash)
  let written ← updateRows Table.packs
    (fun r => isPackIn .obliterating domain packHash r ∧ assocs = [])
    (PackRow.withState .obliterated)
  pure (written ≠ [])

def markBackfilledTx : PgTx Unit :=
  upsertRow Table.backfill ⟨domain⟩ id

def isBackfilledTx : PgTx Bool := do
  let rows ← selectRows Table.backfill fun r => r.domain = domain
  pure (rows ≠ [])

/-! ### Calls executed alone -/

/-- Execute a body alone; an error rolls it back. -/
def serve {α : Type} (tx : PgTx α) (answer : α → IndexAnswer) (db : Db) : IndexAnswer × Db :=
  match tx.exec () db with
  | .ok (a, db') => (answer a, db')
  | .error .packObliterating => (.refused, db)

/-- The store serves a call. -/
def call (db : Db) : IndexCall → IndexAnswer × Db
  | .lookup domain chunkHash => serve (lookupTx domain chunkHash) .ref db
  | .lookupBatch domain chunkHashes => serve (lookupBatchTx domain chunkHashes) .refs db
  | .record domain locs => serve (recordTx domain locs) (fun _ => .done) db
  | .purgePacks domain packHashes => serve (purgePacksTx domain packHashes) (fun _ => .done) db
  | .associate domain assocs =>
    if assocs = [] then (.done, db) else serve (associateTx domain assocs) (fun _ => .done) db
  | .dropContext domain packContext =>
    serve (dropContextTx domain packContext) (fun ps => .packs {p | p ∈ ps}) db
  | .hasAssociations domain packHashes => serve (hasAssociationsTx domain packHashes) .held db
  | .walkLivePacks domain => serve (walkLivePacksTx domain) (fun ps => .packs {p | p ∈ ps}) db
  | .markObliterating domain packHash => serve (markObliteratingTx domain packHash) .flag db
  | .releaseMark domain packHash => serve (releaseMarkTx domain packHash) (fun _ => .done) db
  | .commitObliterated domain packHash => serve (commitObliteratedTx domain packHash) .flag db
  | .markBackfilled domain => serve (markBackfilledTx domain) (fun _ => .done) db
  | .isBackfilled domain => serve (isBackfilledTx domain) .flag db
  | .recordPackSizes domain sizes => serve (recordPackSizesTx domain sizes) (fun _ => .done) db

end MemoryLayer.Pgindex
