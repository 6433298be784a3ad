import Mathlib.Data.List.Basic

namespace MemoryLayer.Snapshot

/-! # Blob IDs

How chunk and pack blobs are named, listed and recognised (`store_chunked.go`, `chunked_gc.go`).  The
store keeps a blob under a string; the rest of the development works with the parts of an ID.

- `BlobId`, `BlobId.render`: the parts of an ID and the string.
- `packBlobID`, `chunkBlobID`, `tenantPrefix`, `parsePackID`: the functions of the source.
- `Listing`, `Listing.covers`: which IDs a listing finds.
- `render_injective`, `parsePackID_render`, `start_prefix_render`: for hashes as SHA-256 gives them, the
  parts say what the strings say.
-/

/-- A chunk of its own, or a pack of chunks. -/
inductive BlobKind where
  | chunk
  | pack
  deriving DecidableEq, Repr

/-- The first word of an ID. -/
def BlobKind.word : BlobKind → String
  | .chunk => "chunk"
  | .pack => "pack"

/-- The parts of an ID. -/
structure BlobId where
  kind : BlobKind
  segment : String
  hash : String
  deriving DecidableEq, Repr

/-- The ID as the blob store has it. -/
def BlobId.render (id : BlobId) : String := id.kind.word ++ "-" ++ id.segment ++ "-" ++ id.hash

/-- The empty tenant is written as an underscore. -/
def tenantSegment (tenant : String) : String := if tenant = "" then "_" else tenant

def packBlobID (tenant hash : String) : BlobId := ⟨.pack, tenantSegment tenant, hash⟩

def chunkBlobID (tenant hash : String) : BlobId := ⟨.chunk, tenantSegment tenant, hash⟩

/-- What a tenant's listing asks for (`chunkTenantPrefix`, `packTenantPrefix`). -/
def tenantPrefix (kind : BlobKind) (tenant : String) : String :=
  kind.word ++ "-" ++ tenantSegment tenant ++ "-"

/-- A hexadecimal digit. -/
def isHexDigit (c : Char) : Bool :=
  ('0' ≤ c && c ≤ '9') || ('a' ≤ c && c ≤ 'f') || ('A' ≤ c && c ≤ 'F')

def isHex (s : List Char) : Bool := s ≠ [] && s.all isHexDigit

def sha256HexLen : Nat := 64

/-- Parse from the right: the hash has a fixed width, and the domain may contain hyphens. -/
def parsePackID (id : String) : Option (String × String) :=
  if "pack-".toList <+: id.toList then
    let rest := id.toList.drop 5
    if rest.length < sha256HexLen + 1 then none
    else
      let sep := rest.length - sha256HexLen - 1
      let hash := rest.drop (sep + 1)
      if rest[sep]? ≠ some '-' then none
      else if isHex hash then some (String.ofList (rest.take sep), String.ofList hash) else none
  else none

/-- A hash as SHA-256 gives it. -/
def IsSha (hash : String) : Prop := hash.toList.length = sha256HexLen ∧ isHex hash.toList = true

/-- What `parsePackID` finds in an ID whose hash is one. -/
def BlobId.packParts (id : BlobId) : Option (String × String) :=
  match id.kind with
  | .pack => some (id.segment, id.hash)
  | .chunk => none

/-- What is asked of a listing: all blobs of a kind, or those of one tenant. -/
inductive Listing where
  | all (kind : BlobKind)
  | ofTenant (kind : BlobKind) (tenant : String)
  deriving DecidableEq, Repr

/-- The string that the IDs of a listing begin with. -/
def Listing.start : Listing → String
  | .all kind => kind.word ++ "-"
  | .ofTenant kind tenant => tenantPrefix kind tenant

/-! ### Strings and parts -/

theorem BlobId.toList_render (id : BlobId) :
    id.render.toList
      = id.kind.word.toList ++ ('-' :: (id.segment.toList ++ '-' :: id.hash.toList)) := by
  simp [BlobId.render]

theorem not_mem_of_isHex {s : List Char} (h : isHex s = true) : '-' ∉ s := by
  intro hmem
  rw [isHex, Bool.and_eq_true, List.all_eq_true] at h
  exact absurd (h.2 _ hmem) (by decide)

/-- The last hyphen is where the hash begins. -/
theorem append_hyphen_inj {s t g h : List Char} (hg : '-' ∉ g) (hh : '-' ∉ h)
    (heq : s ++ '-' :: g = t ++ '-' :: h) : s = t ∧ g = h := by
  induction s generalizing t with
  | nil =>
    cases t with
    | nil => exact ⟨rfl, by simpa using heq⟩
    | cons y t =>
      obtain ⟨-, rfl⟩ := List.cons.inj heq
      exact absurd (by simp) hg
  | cons x s ih =>
    cases t with
    | nil =>
      obtain ⟨-, rfl⟩ := List.cons.inj heq
      exact absurd (by simp) hh
    | cons y t =>
      obtain ⟨rfl, htail⟩ := List.cons.inj heq
      obtain ⟨rfl, rfl⟩ := ih htail
      exact ⟨rfl, rfl⟩

theorem word_append_inj {k l : BlobKind} {s t : List Char}
    (h : k.word.toList ++ '-' :: s = l.word.toList ++ '-' :: t) : k = l ∧ s = t := by
  cases k <;> cases l <;> simp [BlobKind.word] at h ⊢ <;> exact h

/-- **Different IDs are different strings.** -/
theorem render_injective {id id' : BlobId} (hid : IsSha id.hash) (hid' : IsSha id'.hash)
    (h : id.render = id'.render) : id = id' := by
  have h := congrArg String.toList h
  rw [BlobId.toList_render, BlobId.toList_render] at h
  obtain ⟨hkind, h⟩ := word_append_inj h
  obtain ⟨hseg, hhash⟩ := append_hyphen_inj (not_mem_of_isHex hid.2) (not_mem_of_isHex hid'.2) h
  obtain ⟨kind, segment, hash⟩ := id
  obtain ⟨kind', segment', hash'⟩ := id'
  cases hkind
  cases String.toList_inj.mp hseg
  cases String.toList_inj.mp hhash
  rfl

/-- A name followed by a hyphen begins an ID's segment or is all of it. -/
theorem startsWith_hyphen {s t h : List Char} (hh : '-' ∉ h) :
    s ++ ['-'] <+: t ++ '-' :: h ↔ t = s ∨ s ++ ['-'] <+: t := by
  induction s generalizing t with
  | nil =>
    cases t with
    | nil => simp
    | cons y t => simp
  | cons x s ih =>
    cases t with
    | nil =>
      simp only [List.cons_append, List.nil_append, List.cons_prefix_cons, List.prefix_nil]
      constructor
      · rintro ⟨-, hs⟩
        exact absurd (hs.subset (by simp)) hh
      · rintro (h | h) <;> cases h
    | cons y t =>
      simp only [List.cons_append, List.cons_prefix_cons, ih, List.cons.injEq]
      constructor
      · rintro ⟨rfl, h | h⟩
        · exact .inl ⟨rfl, h⟩
        · exact .inr ⟨rfl, h⟩
      · rintro (⟨rfl, h⟩ | ⟨rfl, h⟩)
        · exact ⟨rfl, .inl h⟩
        · exact ⟨rfl, .inr h⟩

/-- An ID is in a tenant's listing: it has the tenant's segment, or one that begins with it and a
    hyphen. -/
def BlobId.listedFor (tenant : String) (id : BlobId) : Bool :=
  id.segment = tenantSegment tenant
    ∨ (tenantSegment tenant ++ "-").toList <+: id.segment.toList

/-- **What a tenant's listing finds.** -/
theorem startsWith_render {id : BlobId} (hid : IsSha id.hash) (tenant : String) :
    (tenantPrefix id.kind tenant).toList <+: id.render.toList ↔ id.listedFor tenant = true := by
  have hlisting : (tenantPrefix id.kind tenant).toList
      = id.kind.word.toList ++ ('-' :: ((tenantSegment tenant).toList ++ ['-'])) := by
    simp [tenantPrefix]
  rw [hlisting, BlobId.toList_render, List.prefix_append_right_inj, List.cons_prefix_cons,
    startsWith_hyphen (not_mem_of_isHex hid.2)]
  simp [BlobId.listedFor, String.toList_inj]

/-- The IDs of a listing. -/
def Listing.covers : Listing → BlobId → Bool
  | .all kind, id => id.kind = kind
  | .ofTenant kind tenant, id => id.kind = kind ∧ id.listedFor tenant

/-- **What a listing finds.** -/
theorem start_prefix_render {id : BlobId} (hid : IsSha id.hash) (listing : Listing) :
    listing.start.toList <+: id.render.toList ↔ listing.covers id = true := by
  obtain ⟨kind, segment, hash⟩ := id
  cases listing with
  | all kind' =>
    rw [Listing.start, BlobId.toList_render]
    cases kind <;> cases kind' <;> simp [BlobKind.word, Listing.covers]
  | ofTenant kind' tenant =>
    by_cases hkind : kind = kind'
    · subst hkind
      rw [Listing.start, startsWith_render hid]
      simp [Listing.covers]
    · have hstart : (Listing.ofTenant kind' tenant).start.toList
          = kind'.word.toList ++ ('-' :: ((tenantSegment tenant).toList ++ ['-'])) := by
        simp [Listing.start, tenantPrefix]
      rw [hstart, BlobId.toList_render]
      cases kind <;> cases kind' <;> simp [BlobKind.word, Listing.covers] at hkind ⊢

end MemoryLayer.Snapshot
