import MemoryLayer.Gateway.Cell

namespace MemoryLayer.Gateway

open Calls Prog
open Local (GoString text)

/-! # What operations leave of an object

The results of the operations on one ref, by the calls of theirs that fail.

- `exec_deleteVersions`: the loop of a deletion, newest version first.
- `delete_of_spared`, `delete_of_fault`, `object_delete`: a deletion.
- `putWithMeta_of_fault`, `putWithMeta_of_rowFault`, `putWithMeta_of_spared`: a put.
- `head_of_spared`, `head_faultAt`: a look at an object.
- `mintRefWithOptions_of_fault`, `mintRefWithOptions_of_spared`: the begin of a staged upload.
- `Ready`, `finalize_of_ready`, `finalize_of_not_ready`, `finalize_of_final`: the end of a staged upload.
-/

variable {ε : Type} {s : Stores} {domain ref : GoString} {xs : List Snap}

/-! ### Deletion -/

/-- How many calls that can fail do not, until one does, of the next `n` after `j` others. -/
def Stores.spares (s : Stores) : Nat → Nat → Nat
  | _, 0 => 0
  | j, n + 1 => if s.faultAt j then 0 else s.spares (j + 1) n + 1

theorem spares_eq_iff {j n : Nat} : s.spares j n = n ↔ s.Spared j n := by
  induction n generalizing j with
  | zero => exact iff_of_true rfl spared_zero
  | succ n ih =>
    rw [Stores.spares, spared_succ, ← ih]
    cases s.faultAt j <;> simp

theorem spares_shift {s' : Stores} {j : Nat} (h : ∀ i, s'.faultAt i = s.faultAt (j + i)) (k n : Nat) :
    s'.spares k n = s.spares (j + k) n := by
  induction n generalizing k with
  | zero => rfl
  | succ n ih => rw [Stores.spares, Stores.spares, h, ih, Nat.add_assoc]

/-- How many of `n` versions a deletion removes that begins after `j` calls: the first call lists them. -/
def Stores.deleted (s : Stores) (j n : Nat) : Nat := s.spares j (n + 1) - 1

/-- What is left without the newest versions. -/
def Cell.without (x : Cell) (k : Nat) : Cell := ⟨x.row, (x.snaps.reverse.drop k).reverse⟩

theorem faultAt_tick_settle (s : Stores) (k : Nat) : s.tick.settle.faultAt k = s.faultAt (1 + k) := by
  rw [faultAt_settle, faultAt_tick, Nat.add_comm]

/-- A call that can fail has settled whether it does. -/
theorem serve_faultAt {c : Call} {answer : Ans c} (hc : c.failed = some answer) (s : Stores) (k : Nat) :
    (serve s c).2.faultAt k = s.faultAt (1 + k) := by
  cases h : s.faultAt 0 with
  | true => rw [serve_of_fault hc h, faultAt_tick_settle]
  | false => rw [serve_of_spared hc h, act_faultAt, faultAt_tick_settle]

/-- Deleting the newest version, when this does not fail. -/
theorem deleteVersion_of_spared {x : Snap} (hsnaps : s.snaps domain ref = (x :: xs).reverse)
    (hnodup : ((x :: xs).map Snap.version).Nodup) (h : s.faultAt 0 = false) :
    ∃ s', (deleteVersion (ε := ε) domain ref () x.version).exec serve s = (.ok (), s')
      ∧ s'.cell domain ref = ⟨s.row domain ref, xs.reverse⟩ ∧ ∀ k, s'.faultAt k = s.faultAt (1 + k) := by
  have hact : (act s.tick.settle (.snapDelete domain ref x.version)).1 = true := rfl
  refine ⟨(act s.tick.settle (.snapDelete domain ref x.version)).2, ?_, ?_, fun k => ?_⟩
  · unfold deleteVersion
    rw [exec_bind, exec_perform, serve_of_spared rfl h, hact]
    rfl
  · have hcell : s.tick.settle.snaps domain ref = (x :: xs).reverse := hsnaps
    rw [List.map_cons, List.nodup_cons] at hnodup
    have hothers : xs.filter (fun snap => snap.version ≠ x.version) = xs := by
      rw [List.filter_eq_self]
      intro y hy
      have hne : y.version ≠ x.version := fun heq => hnodup.1 (heq ▸ List.mem_map_of_mem hy)
      simpa using hne
    rw [act_snapDelete_cell, hcell, List.filter_reverse, List.filter_cons_of_neg (by simp), hothers]
    rfl
  · rw [act_faultAt, faultAt_tick_settle]

theorem deleteVersion_of_fault {version : Nat} (h : s.faultAt 0 = true) :
    (deleteVersion (ε := ε) domain ref () version).exec serve s = (.error .internal, s.tick.settle) := by
  unfold deleteVersion
  rw [exec_bind, exec_perform, serve_of_fault rfl h]
  rfl

/-- **The loop of a deletion.**  The versions are deleted newest first, until a call fails. -/
theorem exec_deleteVersions (hsnaps : s.snaps domain ref = xs.reverse)
    (hnodup : (xs.map Snap.version).Nodup) :
    ∃ s', (foldOrFail (deleteVersion (ε := ε) domain ref) (xs.map Snap.version) ()).exec serve s
        = (if s.spares 0 xs.length = xs.length then .ok () else .error .internal, s')
      ∧ s'.cell domain ref = ⟨s.row domain ref, (xs.drop (s.spares 0 xs.length)).reverse⟩
      ∧ (s.Spared 0 xs.length → ∀ k, s'.faultAt k = s.faultAt (xs.length + k)) := by
  induction xs generalizing s with
  | nil => exact ⟨s, rfl, congrArg (Cell.mk _) hsnaps, fun _ k => by rw [List.length_nil, Nat.zero_add]⟩
  | cons x xs ih =>
    rw [List.map_cons, foldOrFail, orFail, exec_bind, List.length_cons, Stores.spares, spared_succ]
    cases hfirst : s.faultAt 0 with
    | true =>
      rw [deleteVersion_of_fault hfirst]
      exact ⟨s.tick.settle, rfl, congrArg (Cell.mk _) hsnaps, fun h => by cases h.1⟩
    | false =>
      obtain ⟨s₁, hexec₁, hcell₁, hfaults₁⟩ := deleteVersion_of_spared (ε := ε) hsnaps hnodup hfirst
      obtain ⟨s₂, hexec₂, hcell₂, hfaults₂⟩ := ih (congrArg Cell.snaps hcell₁) (List.nodup_cons.mp hnodup).2
      have hrow : s₁.row domain ref = s.row domain ref := congrArg Cell.row hcell₁
      rw [spares_shift hfaults₁] at hexec₂ hcell₂
      rw [spared_shift hfaults₁] at hfaults₂
      rw [hexec₁, if_neg Bool.false_ne_true]
      refine ⟨s₂, ?_, hrow ▸ hcell₂, fun hspared k => ?_⟩
      · simpa using hexec₂
      · rw [hfaults₂ hspared.2, hfaults₁]
        congr 1
        omega

/-- The end of a deletion. -/
def deleteRow (domain ref : GoString) : GwProg (Except (GwError ε) Unit) := do
  if ← ask (.refDelete domain ref) then pure (.ok ()) else pure (.error .internal)

section

variable (hnodup : ((s.snaps domain ref).map Snap.version).Nodup)

include hnodup

/-- A deletion whose versions can be listed comes to the row when all of them are deleted. -/
theorem exec_delete_of_listed (h : s.faultAt 0 = false) :
    ∃ s', s'.cell domain ref = (s.cell domain ref).without (s.spares 1 (s.snaps domain ref).length)
      ∧ (s.Spared 1 (s.snaps domain ref).length →
        ∀ k, s'.faultAt k = s.faultAt ((s.snaps domain ref).length + 1 + k))
      ∧ (delete (ε := ε) domain ref).exec serve s
        = if s.spares 1 (s.snaps domain ref).length = (s.snaps domain ref).length then
            (deleteRow domain ref).exec serve s'
          else (.error .internal, s') := by
  let xs := (s.snaps domain ref).reverse
  have hxs : s.tick.settle.snaps domain ref = xs.reverse := (List.reverse_reverse _).symm
  have hlength : xs.length = (s.snaps domain ref).length := List.length_reverse
  have hnodup' : (xs.map Snap.version).Nodup := by
    rw [List.map_reverse, List.nodup_reverse]
    exact hnodup
  obtain ⟨s', hexec, hcell, hfaults⟩ := exec_deleteVersions (ε := ε) hxs hnodup'
  rw [spares_shift (faultAt_tick_settle s), hlength] at hexec hcell
  rw [spared_shift (faultAt_tick_settle s), hlength] at hfaults
  refine ⟨s', hcell, fun hspared k => ?_, ?_⟩
  · rw [hfaults hspared, faultAt_tick_settle, Nat.add_comm _ 1, Nat.add_assoc]
  · have hact : act s.tick.settle (.snapList domain ref) = (some (xs.map Snap.version), s.tick.settle) := rfl
    unfold delete
    rw [exec_bind, exec_perform, serve_of_spared rfl h, hact]
    dsimp only
    rw [orFail, exec_bind, hexec, Nat.add_zero]
    by_cases hall : s.spares 1 (s.snaps domain ref).length = (s.snaps domain ref).length
    · rw [if_pos hall, if_pos hall]
      rfl
    · rw [if_neg hall, if_neg hall]
      rfl

/-- **Deletion.**  When no call fails, nothing is left. -/
theorem delete_of_spared (h : s.Spared 0 ((s.snaps domain ref).length + 2)) :
    ∃ s', (delete (ε := ε) domain ref).exec serve s = (.ok (), s') ∧ s'.cell domain ref = ⟨none, []⟩
      ∧ ∀ k, s'.faultAt k = s.faultAt ((s.snaps domain ref).length + 2 + k) := by
  have hversions : s.Spared 0 ((s.snaps domain ref).length + 1) := fun i hi => h i (Nat.lt_succ_of_lt hi)
  obtain ⟨hlist, hrest⟩ := spared_succ.mp hversions
  obtain ⟨s', hcell, hfaults, hexec⟩ := exec_delete_of_listed (ε := ε) hnodup hlist
  have hrow : s'.faultAt 0 = false := by
    rw [hfaults hrest, ← h _ (Nat.lt_succ_self _)]
    congr 1
    omega
  have hact : (act s'.tick.settle (.refDelete domain ref)).1 = true := rfl
  rw [hexec, if_pos (spares_eq_iff.mpr hrest), deleteRow]
  refine ⟨(act s'.tick.settle (.refDelete domain ref)).2, ?_, ?_, fun k => ?_⟩
  · rw [exec_bind, exec_perform, serve_of_spared rfl hrow, hact]
    rfl
  · have hsnaps : s'.tick.settle.snaps domain ref = [] := by
      refine (congrArg Cell.snaps hcell).trans ?_
      rw [spares_eq_iff.mpr hrest]
      exact congrArg List.reverse (List.drop_eq_nil_of_le List.length_reverse.le)
    rw [act_refDelete_cell, hsnaps]
  · rw [act_faultAt, faultAt_tick_settle, hfaults hrest]
    congr 1
    omega

/-- When a call fails, the row is left, with the versions that are not deleted before. -/
theorem delete_of_fault (h : ¬ s.Spared 0 ((s.snaps domain ref).length + 2)) :
    ∃ s', (delete (ε := ε) domain ref).exec serve s = (.error .internal, s')
      ∧ s'.cell domain ref = (s.cell domain ref).without (s.deleted 0 (s.snaps domain ref).length) := by
  rw [Stores.deleted, Stores.spares]
  cases hlist : s.faultAt 0 with
  | true =>
    refine ⟨s.tick.settle, ?_, congrArg (Cell.mk _) (List.reverse_reverse _).symm⟩
    unfold delete
    rw [exec_bind, exec_perform, serve_of_fault rfl hlist]
    rfl
  | false =>
    obtain ⟨s', hcell, hfaults, hexec⟩ := exec_delete_of_listed (ε := ε) hnodup hlist
    rw [hexec]
    split
    · rename_i hall
      have hrest := spares_eq_iff.mp hall
      have hrow : s'.faultAt 0 = true := by
        rw [hfaults hrest, ← Bool.not_eq_false]
        intro hspared
        refine h (spared_succ.mpr ⟨hlist, fun i hi => ?_⟩)
        rcases Nat.lt_succ_iff_lt_or_eq.mp hi with hi | rfl
        · exact hrest i hi
        · rw [← hspared]
          congr 1
          omega
      refine ⟨s'.tick.settle, ?_, hcell⟩
      rw [deleteRow, exec_bind, exec_perform, serve_of_fault rfl hrow]
      rfl
    · exact ⟨s', rfl, hcell⟩

/-- No version is left in the end, or some of the older ones. -/
theorem object_delete :
    ((delete (ε := ε) domain ref).exec serve s).2.object domain ref
      = ((s.cell domain ref).without (s.deleted 0 (s.snaps domain ref).length)).object := by
  by_cases h : s.Spared 0 ((s.snaps domain ref).length + 2)
  · obtain ⟨s', hexec, hcell, -⟩ := delete_of_spared (ε := ε) hnodup h
    have hall : s.deleted 0 (s.snaps domain ref).length = (s.snaps domain ref).length := by
      rw [Stores.deleted, spares_eq_iff.mpr fun i hi => h i (Nat.lt_succ_of_lt hi)]
      rfl
    rw [hexec, hall, Stores.object, hcell]
    refine (object_of_no_snaps ?_).symm
    exact congrArg List.reverse (List.drop_eq_nil_of_le List.length_reverse.le)
  · obtain ⟨s', hexec, hcell⟩ := delete_of_fault (ε := ε) hnodup h
    rw [hexec, Stores.object, hcell]

end

/-- All versions are deleted, if there are any, when the calls for them do not fail. -/
theorem le_deleted_iff {j n : Nat} (hn : 0 < n) : n ≤ s.deleted j n ↔ s.Spared j (n + 1) := by
  have hle : ∀ j m, s.spares j m ≤ m := fun j m => by
    induction m generalizing j with
    | zero => exact Nat.le_refl 0
    | succ m ih =>
      rw [Stores.spares]
      split
      · exact Nat.zero_le _
      · exact Nat.succ_le_succ (ih (j + 1))
  rw [← spares_eq_iff, Stores.deleted]
  have := hle j (n + 1)
  omega

/-- With a final row, there is an object as long as there is a version. -/
theorem object_without_eq_none_iff {x : Cell} {row : ObjectInfo} (h : x.final = some row) (k : Nat) :
    (x.without k).object = none ↔ x.snaps.length ≤ k := by
  have hobject : (x.without k).object = (x.without k).snaps.getLast?.map fun snap =>
      (snap.content, { row with userMeta := decodeUserTags snap.tags }) := by
    have hfinal : (x.without k).final = some row := h
    unfold Cell.object
    rw [hfinal]
    cases (x.without k).snaps.getLast? <;> rfl
  rw [hobject, Option.map_eq_none_iff, List.getLast?_eq_none_iff, Cell.without, List.reverse_eq_nil_iff,
    List.drop_eq_nil_iff, List.length_reverse]

/-! ### Puts -/

/-- A version that is written, and the clock is read after it. -/
theorem serve_snapPut_of_spared (domain ref format : GoString) (tags : Tags) (content : GoString)
    (h : s.faultAt 0 = false) :
    ∃ s', serve s (.snapPut domain ref format tags content) = (some s.minted, s')
      ∧ s'.cell domain ref = ⟨s.row domain ref, s.snaps domain ref ++ [⟨s.minted, format, tags, content⟩]⟩
      ∧ ∀ k, s'.tick.faultAt k = s.faultAt (1 + k) := by
  refine ⟨(act s.tick.settle (.snapPut domain ref format tags content)).2, serve_of_spared rfl h, ?_,
    fun k => ?_⟩
  · exact act_snapPut_cell s.tick.settle domain ref format tags content
  · rw [faultAt_tick, act_faultAt, faultAt_tick_settle]

/-- The row that a put writes. -/
def putRow (sha256 : GoString → GoString) (domain ref contentType : GoString) (userMeta : Tags)
    (content : GoString) (now : Instant) (version : Nat) : ObjectInfo :=
  { ref, domain, contentHash := sha256 content, size := content.length, contentType, createdAt := now, version,
    userMeta, pending := false, stagingKey := [], expectedHash := [], expectedSize := 0 }

section Put

variable (sha256 : GoString → GoString) (domain contentType : GoString) (userMeta : Tags) (content : GoString)

theorem putWithMeta_of_unnamed (body : Except ε GoString) :
    (putWithMeta sha256 domain [] contentType userMeta body).exec serve s = (.error .invalidRef, s) := by
  unfold putWithMeta
  rw [if_pos rfl]
  rfl

section

variable (href : ref ≠ [])

include href

theorem putWithMeta_of_error (e : ε) :
    (putWithMeta sha256 domain ref contentType userMeta (.error e)).exec serve s = (.error (.body e), s) := by
  unfold putWithMeta
  rw [if_neg href]
  rfl

theorem putWithMeta_of_fault (h : s.faultAt 0 = true) :
    (putWithMeta (ε := ε) sha256 domain ref contentType userMeta (.ok content)).exec serve s
      = (.error .internal, s.tick.settle) := by
  unfold putWithMeta
  rw [if_neg href]
  dsimp only
  rw [exec_bind, exec_perform, serve_of_fault rfl h]
  rfl

/-- The stores after the new version is written. -/
theorem exec_put_of_versioned (h : s.faultAt 0 = false) :
    ∃ s' now, s'.cell domain ref = ⟨s.row domain ref,
          s.snaps domain ref ++ [⟨s.minted, contentType, encodeUserTags userMeta, content⟩]⟩
      ∧ (∀ k, s'.faultAt k = s.faultAt (1 + k))
      ∧ (putWithMeta (ε := ε) sha256 domain ref contentType userMeta (.ok content)).exec serve s
        = (do if ← ask (.refPut (putRow sha256 domain ref contentType userMeta content now s.minted)) then
                pure (.ok (putRow sha256 domain ref contentType userMeta content now s.minted))
              else pure (.error .internal) : GwProg (Except (GwError ε) ObjectInfo)).exec serve s' := by
  obtain ⟨s', hput, hcell, hfaults⟩ := serve_snapPut_of_spared domain ref contentType (encodeUserTags userMeta)
    content h
  refine ⟨s'.tick, s'.tick.now, hcell, hfaults, ?_⟩
  unfold putWithMeta
  rw [if_neg href]
  dsimp only
  rw [exec_bind, exec_perform, hput]
  rfl

/-- When the row cannot be written, the new version is there under the old row. -/
theorem putWithMeta_of_rowFault (h : s.faultAt 0 = false) (hrow : s.faultAt 1 = true) :
    ∃ s', (putWithMeta (ε := ε) sha256 domain ref contentType userMeta (.ok content)).exec serve s
        = (.error .internal, s')
      ∧ s'.cell domain ref = ⟨s.row domain ref,
          s.snaps domain ref ++ [⟨s.minted, contentType, encodeUserTags userMeta, content⟩]⟩ := by
  obtain ⟨s', now, hcell, hfaults, hexec⟩ := exec_put_of_versioned (ε := ε) sha256 domain contentType userMeta
    content href h
  refine ⟨s'.tick.settle, ?_, hcell⟩
  rw [hexec, exec_bind, exec_perform, serve_of_fault rfl ((hfaults 0).trans hrow)]
  rfl

/-- **Puts.**  When no call fails, the row is that of the newest version. -/
theorem putWithMeta_of_spared (h : s.Spared 0 2) :
    ∃ s' now, (putWithMeta (ε := ε) sha256 domain ref contentType userMeta (.ok content)).exec serve s
        = (.ok (putRow sha256 domain ref contentType userMeta content now s.minted), s')
      ∧ s'.cell domain ref = ⟨some (putRow sha256 domain ref contentType userMeta content now s.minted),
          s.snaps domain ref ++ [⟨s.minted, contentType, encodeUserTags userMeta, content⟩]⟩
      ∧ ∀ k, s'.faultAt k = s.faultAt (2 + k) := by
  obtain ⟨s', now, hcell, hfaults, hexec⟩ := exec_put_of_versioned (ε := ε) sha256 domain contentType userMeta
    content href (h 0 Nat.two_pos)
  let row := putRow sha256 domain ref contentType userMeta content now s.minted
  have hrow : s'.faultAt 0 = false := (hfaults 0).trans (h 1 Nat.one_lt_two)
  have hanswer : (act s'.tick.settle (.refPut row)).1 = true := rfl
  refine ⟨(act s'.tick.settle (.refPut row)).2, now, ?_, ?_, fun k => ?_⟩
  · rw [hexec, exec_bind, exec_perform, serve_of_spared rfl hrow, hanswer]
    rfl
  · have hsnaps : s'.tick.settle.snaps domain ref
        = s.snaps domain ref ++ [⟨s.minted, contentType, encodeUserTags userMeta, content⟩] :=
      congrArg Cell.snaps hcell
    rw [← hsnaps]
    exact act_refPut_cell s'.tick.settle row
  · rw [act_faultAt, faultAt_tick_settle, hfaults]
    congr 1
    omega

end

end Put

/-! ### The end of staged uploads -/

section Finalize

variable {sha256 : GoString → GoString} {info : ObjectInfo} {content : GoString}

/-- The row that the end of a staged upload writes. -/
def finalizedRow (sha256 : GoString → GoString) (domain ref : GoString) (info : ObjectInfo) (content : GoString)
    (now : Instant) (version : Nat) : ObjectInfo :=
  { info with
    ref, domain, contentHash := sha256 content, size := content.length, createdAt := now, version,
    pending := false, stagingKey := [] }

/-- An upload is staged and as expected, and no call fails until its row is written. -/
structure Ready (sha256 : GoString → GoString) (s : Stores) (domain ref : GoString) (info : ObjectInfo)
    (content : GoString) : Prop where
  row : s.row domain ref = some info
  pending : info.pending = true
  named : info.stagingKey ≠ []
  staged : s.staged info.stagingKey = some content
  spared : s.Spared 0 4
  integrity : checkIntegrity info.expectedHash info.expectedSize content.length (sha256 content) = true

theorem finalize_of_fault (h : s.faultAt 0 = true) :
    (finalize (ε := ε) sha256 domain ref).exec serve s = (.error .internal, s.tick.settle) := by
  unfold finalize
  rw [exec_bind, exec_perform, serve_of_fault rfl h]
  rfl

theorem act_refGet (s : Stores) : act s (.refGet domain ref) = (.ofOption (s.row domain ref), s) := rfl

theorem finalize_of_absent (h : s.faultAt 0 = false) (hrow : s.row domain ref = none) :
    (finalize (ε := ε) sha256 domain ref).exec serve s = (.error .notFound, s.tick.settle) := by
  have hrow' : s.tick.settle.row domain ref = none := hrow
  unfold finalize
  rw [exec_bind, exec_perform, serve_of_spared rfl h, act_refGet, hrow']
  rfl

/-- What is final already is returned as it is. -/
theorem finalize_of_final (h : s.faultAt 0 = false) (hrow : s.row domain ref = some info)
    (hfinal : info.pending = false) :
    (finalize (ε := ε) sha256 domain ref).exec serve s = (.ok info, s.tick.settle) := by
  have hrow' : s.tick.settle.row domain ref = some info := hrow
  unfold finalize
  rw [exec_bind, exec_perform, serve_of_spared rfl h, act_refGet, hrow']
  simp [Got.ofOption, hfinal]

/-- What follows when the staged bytes are there. -/
def publishStaged (sha256 : GoString → GoString) (domain ref : GoString) (info : ObjectInfo)
    (content : GoString) : GwProg (Except (GwError ε) ObjectInfo) := do
  match ← ask (.snapPut domain ref info.contentType (encodeUserTags info.userMeta) content) with
  | none => pure (.error .internal)
  | some version =>
    if checkIntegrity info.expectedHash info.expectedSize content.length (sha256 content) then do
      let now ← ask .clock
      if ← ask (.refPut (finalizedRow sha256 domain ref info content now version)) then do
        let _ ← ask (.stageDelete info.stagingKey)
        pure (.ok (finalizedRow sha256 domain ref info content now version))
      else pure (.error .internal)
    else do
      let _ ← ask (.snapDelete domain ref version)
      let _ ← ask (.stageDelete info.stagingKey)
      pure (.error .integrity)

/-- A staged upload is ended when its bytes can be read. -/
theorem exec_finalize_of_opened (h : s.Spared 0 2) (hrow : s.row domain ref = some info)
    (hpending : info.pending = true) (hnamed : info.stagingKey ≠ [])
    (hstaged : s.staged info.stagingKey = some content) :
    (finalize (ε := ε) sha256 domain ref).exec serve s
      = (publishStaged sha256 domain ref info content).exec serve s.tick.settle.tick.settle := by
  have hrow' : s.tick.settle.row domain ref = some info := hrow
  have hopen : s.tick.settle.faultAt 0 = false := (faultAt_tick_settle s 0).trans (h 1 Nat.one_lt_two)
  have hstaged' : act s.tick.settle.tick.settle (.stageOpen info.stagingKey)
      = (some content, s.tick.settle.tick.settle) := Prod.ext hstaged rfl
  unfold finalize
  rw [exec_bind, exec_perform, serve_of_spared rfl (h 0 Nat.two_pos), act_refGet, hrow']
  simp only [Got.ofOption, hpending, Bool.not_true, Bool.false_eq_true, if_false, if_neg hnamed]
  rw [exec_bind, exec_perform, serve_of_spared rfl hopen, hstaged']
  rfl

/-- One that is not even opened changes nothing. -/
theorem finalize_of_unopened (hrow : s.row domain ref = some info) (hpending : info.pending = true)
    (h : ¬ (s.Spared 0 2 ∧ info.stagingKey ≠ [] ∧ (s.staged info.stagingKey).isSome)) :
    ∃ e s', (finalize (ε := ε) sha256 domain ref).exec serve s = (.error e, s')
      ∧ s'.cell domain ref = s.cell domain ref := by
  have hrow' : s.tick.settle.row domain ref = some info := hrow
  cases hget : s.faultAt 0 with
  | true => exact ⟨_, _, finalize_of_fault hget, rfl⟩
  | false =>
    unfold finalize
    rw [exec_bind, exec_perform, serve_of_spared rfl hget, act_refGet, hrow']
    simp only [Got.ofOption, hpending, Bool.not_true, Bool.false_eq_true, if_false]
    by_cases hnamed : info.stagingKey = []
    · rw [if_pos hnamed]
      exact ⟨_, _, rfl, rfl⟩
    rw [if_neg hnamed, exec_bind, exec_perform]
    cases hopen : s.faultAt 1 with
    | true =>
      rw [serve_of_fault rfl ((faultAt_tick_settle s 0).trans hopen)]
      exact ⟨_, _, rfl, rfl⟩
    | false =>
      rw [serve_of_spared rfl ((faultAt_tick_settle s 0).trans hopen)]
      have hspared : s.Spared 0 2 := spared_two.mpr ⟨hget, hopen⟩
      have hnone : s.staged info.stagingKey = none := by
        rw [← Option.not_isSome_iff_eq_none]
        exact fun hsome => h ⟨hspared, hnamed, hsome⟩
      have hstaged : act s.tick.settle.tick.settle (.stageOpen info.stagingKey)
          = (none, s.tick.settle.tick.settle) := Prod.ext hnone rfl
      rw [hstaged]
      exact ⟨_, _, rfl, rfl⟩

theorem serve_stageDelete_cell (s : Stores) (domain ref stagingKey : GoString) :
    (serve s (.stageDelete stagingKey)).2.cell domain ref = s.cell domain ref :=
  serve_eq_of_act (fun s => s.cell domain ref) rfl rfl fun _ => rfl

theorem serve_snapDelete_row (s : Stores) (domain ref : GoString) (version : Nat) :
    (serve s (.snapDelete domain ref version)).2.row domain ref = s.row domain ref :=
  serve_eq_of_act (fun s => s.row domain ref) rfl rfl fun _ => rfl

/-- The row is written, unless a call fails or the bytes are not as expected. -/
theorem publishStaged_of_fault (h : ¬ (s.Spared 0 2
      ∧ checkIntegrity info.expectedHash info.expectedSize content.length (sha256 content) = true)) :
    ∃ e s', (publishStaged (ε := ε) sha256 domain ref info content).exec serve s = (.error e, s')
      ∧ s'.row domain ref = s.row domain ref := by
  unfold publishStaged
  rw [exec_bind, exec_perform]
  cases hput : s.faultAt 0 with
  | true =>
    rw [serve_of_fault rfl hput]
    exact ⟨_, _, rfl, rfl⟩
  | false =>
    obtain ⟨written, hwritten, hcell, hfaults⟩ := serve_snapPut_of_spared domain ref info.contentType
      (encodeUserTags info.userMeta) content hput
    have hkept : written.row domain ref = s.row domain ref := congrArg Cell.row hcell
    have hclock : serve written .clock = (written.tick.now, written.tick) := rfl
    rw [hwritten]
    dsimp only
    split
    · rename_i hintegrity
      have hrow := faultAt_of_not_spared_two (fun hspared => h ⟨hspared, hintegrity⟩) hput
      rw [exec_bind, exec_perform, hclock, exec_bind, exec_perform,
        serve_of_fault rfl ((hfaults 0).trans hrow)]
      exact ⟨_, _, rfl, hkept⟩
    · -- the new version is taken back, or not: the row is as it was
      rw [exec_bind, exec_perform, exec_bind, exec_perform]
      refine ⟨_, _, rfl, ?_⟩
      have hcell := serve_stageDelete_cell (serve written (.snapDelete domain ref s.minted)).2 domain ref
        info.stagingKey
      exact (congrArg Cell.row hcell).trans ((serve_snapDelete_row ..).trans hkept)

theorem publishStaged_of_spared (domain ref : GoString) (h : s.Spared 0 2)
    (hintegrity : checkIntegrity info.expectedHash info.expectedSize content.length (sha256 content) = true) :
    ∃ s' now, (publishStaged (ε := ε) sha256 domain ref info content).exec serve s
        = (.ok (finalizedRow sha256 domain ref info content now s.minted), s')
      ∧ s'.cell domain ref = ⟨some (finalizedRow sha256 domain ref info content now s.minted),
          s.snaps domain ref ++ [⟨s.minted, info.contentType, encodeUserTags info.userMeta, content⟩]⟩
      ∧ ∀ k, s'.faultAt k = s.faultAt (3 + k) := by
  obtain ⟨written, hwritten, hcell, hfaults⟩ := serve_snapPut_of_spared domain ref info.contentType
    (encodeUserTags info.userMeta) content (h 0 Nat.two_pos)
  have hclock : serve written .clock = (written.tick.now, written.tick) := rfl
  let row := finalizedRow sha256 domain ref info content written.tick.now s.minted
  let final := (act written.tick.tick.settle (.refPut row)).2
  have hstored : act written.tick.tick.settle (.refPut row) = (true, final) := rfl
  have hrow : written.tick.faultAt 0 = false := (hfaults 0).trans (h 1 Nat.one_lt_two)
  refine ⟨(serve final (.stageDelete info.stagingKey)).2, written.tick.now, ?_, ?_, fun k => ?_⟩
  · unfold publishStaged
    rw [exec_bind, exec_perform, hwritten]
    dsimp only
    rw [if_pos hintegrity, exec_bind, exec_perform, hclock, exec_bind, exec_perform,
      serve_of_spared rfl hrow, hstored]
    rfl
  · have hsnaps : written.snaps domain ref = s.snaps domain ref
        ++ [⟨s.minted, info.contentType, encodeUserTags info.userMeta, content⟩] :=
      congrArg Cell.snaps hcell
    rw [serve_stageDelete_cell, ← hsnaps]
    exact act_refPut_cell written.tick.tick.settle row
  · rw [serve_faultAt rfl, act_faultAt, faultAt_tick_settle, hfaults]
    congr 1
    omega

theorem faultAt_tick_settle_twice (s : Stores) (k : Nat) :
    s.tick.settle.tick.settle.faultAt k = s.faultAt (2 + k) := by
  rw [faultAt_tick_settle, faultAt_tick_settle, ← Nat.add_assoc]

/-- **The end of a staged upload.**  When it is ready, the row is that of the newest version. -/
theorem finalize_of_ready (h : Ready sha256 s domain ref info content) :
    ∃ s' now, (finalize (ε := ε) sha256 domain ref).exec serve s
        = (.ok (finalizedRow sha256 domain ref info content now s.minted), s')
      ∧ s'.cell domain ref = ⟨some (finalizedRow sha256 domain ref info content now s.minted),
          s.snaps domain ref ++ [⟨s.minted, info.contentType, encodeUserTags info.userMeta, content⟩]⟩
      ∧ ∀ k, s'.faultAt k = s.faultAt (5 + k) := by
  have hspared : s.Spared 0 2 ∧ s.Spared (0 + 2) 2 := spared_add.mp h.spared
  have hpublish : s.tick.settle.tick.settle.Spared 0 2 :=
    (spared_shift (faultAt_tick_settle_twice s)).mpr hspared.2
  obtain ⟨s', now, hexec, hcell, hfaults⟩ :=
    publishStaged_of_spared (ε := ε) domain ref hpublish h.integrity
  refine ⟨s', now, ?_, hcell, fun k => ?_⟩
  · rw [exec_finalize_of_opened hspared.1 h.row h.pending h.named h.staged]
    exact hexec
  · rw [hfaults, faultAt_tick_settle_twice]
    congr 1
    omega

/-- When it is not, the row stays as it is. -/
theorem finalize_of_not_ready (hrow : s.row domain ref = some info) (hpending : info.pending = true)
    (h : ∀ content, ¬ Ready sha256 s domain ref info content) :
    ∃ e s', (finalize (ε := ε) sha256 domain ref).exec serve s = (.error e, s')
      ∧ s'.row domain ref = s.row domain ref := by
  by_cases hopened : s.Spared 0 2 ∧ info.stagingKey ≠ [] ∧ (s.staged info.stagingKey).isSome
  · obtain ⟨hspared, hnamed, hsome⟩ := hopened
    obtain ⟨content, hstaged⟩ := Option.isSome_iff_exists.mp hsome
    rw [exec_finalize_of_opened hspared hrow hpending hnamed hstaged]
    apply publishStaged_of_fault
    rintro ⟨hpublish, hintegrity⟩
    -- the first two calls open the bytes, and the next two publish them
    have hall : s.Spared 0 4 := spared_add.mpr ⟨hspared, (spared_shift (faultAt_tick_settle_twice s)).mp hpublish⟩
    exact h content ⟨hrow, hpending, hnamed, hstaged, hall, hintegrity⟩
  · have hunopened : ∃ e s', (finalize (ε := ε) sha256 domain ref).exec serve s = (.error e, s')
        ∧ s'.cell domain ref = s.cell domain ref := finalize_of_unopened hrow hpending hopened
    obtain ⟨e, s', hexec, hcell⟩ := hunopened
    exact ⟨e, s', hexec, congrArg Cell.row hcell⟩

end Finalize

/-! ### Looking at an object -/

/-- How many calls a look at an object makes: it ends when there is no final row. -/
def Stores.headCalls (s : Stores) (domain ref : GoString) : Nat :=
  if s.faultAt 0 = false ∧ (s.cell domain ref).final.isSome then 2 else 1

theorem act_snapMeta (s : Stores) :
    act s (.snapMeta domain ref) = (.ofOption ((s.latest domain ref).map Snap.tags), s) := rfl

theorem head_of_spared (h : s.Spared 0 2) {content : GoString} {info : ObjectInfo}
    (hobject : s.object domain ref = some (content, info)) :
    (head (ε := ε) domain ref).exec serve s = (.ok info, s.tick.settle.tick.settle) := by
  obtain ⟨row, snap, hfinal, hsnap, -, rfl⟩ := object_eq_some_iff.mp hobject
  have hmeta : s.tick.settle.faultAt 0 = false := (faultAt_tick_settle s 0).trans (h 1 Nat.one_lt_two)
  have hlatest : s.tick.settle.tick.settle.latest domain ref = some snap := hsnap
  unfold head orFail
  rw [exec_bind, finalRow_of_spared (h 0 Nat.two_pos), hfinal]
  dsimp only
  rw [exec_bind, exec_perform, serve_of_spared rfl hmeta, act_snapMeta, hlatest]
  rfl

/-- Without a final row there is nothing to see. -/
theorem head_of_not_final (h : (s.cell domain ref).final = none) :
    ∃ e, ((head (ε := ε) domain ref).exec serve s).1 = .error e := by
  unfold head orFail
  rw [exec_bind]
  cases hget : s.faultAt 0 with
  | true =>
    rw [finalRow_of_fault hget]
    exact ⟨_, rfl⟩
  | false =>
    rw [finalRow_of_spared hget, h]
    exact ⟨_, rfl⟩

theorem head_cell (s : Stores) (domain ref : GoString) :
    ((head (ε := ε) domain ref).exec serve s).2.cell = s.cell := by
  ext d r : 2
  apply cell_exec_of_only
  exact head_only nofun nofun

theorem head_faultAt (s : Stores) (domain ref : GoString) (k : Nat) :
    ((head (ε := ε) domain ref).exec serve s).2.faultAt k = s.faultAt (s.headCalls domain ref + k) := by
  unfold head orFail Stores.headCalls
  rw [exec_bind]
  cases hget : s.faultAt 0 with
  | true =>
    rw [finalRow_of_fault hget, if_neg fun h => by cases h.1]
    exact faultAt_tick_settle s k
  | false =>
    rw [finalRow_of_spared hget]
    cases hfinal : (s.cell domain ref).final with
    | none =>
      rw [if_neg fun h => by cases h.2]
      exact faultAt_tick_settle s k
    | some info =>
      rw [if_pos ⟨rfl, rfl⟩]
      dsimp only
      rw [exec_bind, exec_perform]
      have hmeta := serve_faultAt (c := .snapMeta domain ref) rfl s.tick.settle k
      rw [faultAt_tick_settle, ← Nat.add_assoc] at hmeta
      cases (serve s.tick.settle (.snapMeta domain ref)).1 <;> exact hmeta

/-! ### Beginning an upload -/

/-- The ref of a new upload. -/
def Stores.mintedRef (s : Stores) (ref : GoString) : GoString :=
  if ref = [] then idOf (text "ref") s.minted else ref

/-- The key under which the bytes of an upload are staged. -/
def Stores.mintedKey (s : Stores) (domain ref : GoString) : GoString :=
  domain ++ text "/staging/" ++ s.mintedRef ref ++ text "/" ++ idOf (text "up") s.minted

/-- The row of a new upload. -/
def Stores.mintedRow (s : Stores) (domain ref : GoString) (opts : MintOptions) (now : Instant) : ObjectInfo :=
  { ref := s.mintedRef ref, domain, contentHash := [], size := 0, contentType := opts.contentType,
    createdAt := now, version := 0, userMeta := opts.userMeta, pending := true,
    stagingKey := s.mintedKey domain ref, expectedHash := opts.expectedHash, expectedSize := opts.expectedSize }

/-- When a call fails, no row is written. -/
theorem mintRefWithOptions_of_fault (domain ref : GoString) (opts : MintOptions) (h : ¬ s.Spared 0 2) :
    ∃ s', (mintRefWithOptions (ε := ε) domain ref opts).exec serve s = (.error .internal, s')
      ∧ s'.cell = s.cell := by
  let s₁ := (serve s .newID).2
  have hnew : serve s .newID = (s.minted, s₁) := rfl
  have hfaults : ∀ k, s₁.faultAt k = s.faultAt k := fun _ => rfl
  unfold mintRefWithOptions
  rw [exec_bind, exec_perform, hnew, exec_bind, exec_perform]
  cases hpresign : s.faultAt 0 with
  | true =>
    rw [serve_of_fault rfl ((hfaults 0).trans hpresign)]
    exact ⟨_, rfl, rfl⟩
  | false =>
    have hrow := faultAt_of_not_spared_two h hpresign
    have hclock : serve s₁.tick.settle .clock = (s₁.tick.settle.tick.now, s₁.tick.settle.tick) := rfl
    have hfault : s₁.tick.settle.tick.faultAt 0 = true := (faultAt_tick_settle s₁ 0).trans hrow
    rw [serve_of_spared rfl ((hfaults 0).trans hpresign)]
    change ∃ s', exec serve (ask .clock >>= _) s₁.tick.settle = _ ∧ _
    rw [exec_bind, exec_perform, hclock, exec_bind, exec_perform, serve_of_fault rfl hfault]
    exact ⟨_, rfl, rfl⟩

/-- Otherwise the row is pending, and replaces the one there was. -/
theorem mintRefWithOptions_of_spared (domain ref : GoString) (opts : MintOptions) (h : s.Spared 0 2) :
    ∃ s' now, (mintRefWithOptions (ε := ε) domain ref opts).exec serve s
        = (.ok ⟨s.mintedRef ref, s.mintedKey domain ref⟩, s')
      ∧ s'.cell domain (s.mintedRef ref)
        = ⟨some (s.mintedRow domain ref opts now), s.snaps domain (s.mintedRef ref)⟩
      ∧ ∀ d r, (d, r) ≠ (domain, s.mintedRef ref) → s'.cell d r = s.cell d r := by
  let s₁ := (serve s .newID).2
  have hnew : serve s .newID = (s.minted, s₁) := rfl
  have hclock : serve s₁.tick.settle .clock = (s₁.tick.settle.tick.now, s₁.tick.settle.tick) := rfl
  have hpresign : s₁.faultAt 0 = false := h 0 Nat.two_pos
  let row := s.mintedRow domain ref opts s₁.tick.settle.tick.now
  let s₂ := s₁.tick.settle.tick.tick.settle
  have hfault : s₁.tick.settle.tick.faultAt 0 = false :=
    (faultAt_tick_settle s₁ 0).trans (h 1 Nat.one_lt_two)
  refine ⟨(act s₂ (.refPut row)).2, s₁.tick.settle.tick.now, ?_, act_refPut_cell s₂ row, fun d r hne => ?_⟩
  · unfold mintRefWithOptions
    rw [exec_bind, exec_perform, hnew, exec_bind, exec_perform, serve_of_spared rfl hpresign]
    change exec serve (ask .clock >>= _) s₁.tick.settle = _
    rw [exec_bind, exec_perform, hclock, exec_bind, exec_perform, serve_of_spared rfl hfault]
    rfl
  · exact act_cell_of_ne (s := s₂) (c := .refPut row) fun o ho => by cases ho; exact hne

end MemoryLayer.Gateway
