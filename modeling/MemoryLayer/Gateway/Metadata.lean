import MemoryLayer.Gateway.Outcomes

namespace MemoryLayer.Gateway

open Calls Prog
open Local (GoString text)

/-! # User metadata

User metadata is kept among the tags of a version, under keys of its own.  To replace it, other tags are laid over
those of the newest version, and there a key without a value is one to delete.

- `decodeUserTags_replaced`, `internalTags_replaced`: the tags that are left.
- `exec_setUserMeta`: which calls of a replacement fail, and what they leave.
- `setUserMeta_replaces_iff`: **the metadata is replaced by what is given, unless a value is empty.**
-/

variable {ε : Type} {s : Stores} {domain ref : GoString} {kv : GoString × GoString} {snap : Snap}
  {userMeta tags : Tags} {info : ObjectInfo}

/-! ### Tags -/

/-- What is laid over the tags to replace the user metadata. -/
def replacing (tags userMeta : Tags) : Tags :=
  let overlay := encodeUserTags userMeta
  overlay ++ (tags.filter fun kv =>
    metaTagPrefix.isPrefixOf kv.1 && !(overlay.map Prod.fst).contains kv.1).map fun kv => (kv.1, [])

/-- The tags that are no user metadata. -/
def internalTags (tags : Tags) : Tags := tags.filter fun kv => !metaTagPrefix.isPrefixOf kv.1

theorem isPrefixOf_metaTagPrefix (key : GoString) : metaTagPrefix.isPrefixOf (metaTagPrefix ++ key) = true :=
  List.isPrefixOf_iff_prefix.mpr (List.prefix_append _ _)

theorem decodeUserTags_encodeUserTags (userMeta : Tags) : decodeUserTags (encodeUserTags userMeta) = userMeta := by
  unfold decodeUserTags encodeUserTags
  rw [List.filterMap_map]
  refine (List.filterMap_congr fun kv _ => ?_).trans List.filterMap_some
  simp

/-- All that is laid over the tags is user metadata. -/
theorem isPrefixOf_of_replacing
    (h : kv ∈ replacing tags userMeta) : metaTagPrefix.isPrefixOf kv.1 = true := by
  rcases List.mem_append.mp h with h | h
  · obtain ⟨kv', -, rfl⟩ := List.mem_map.mp h
    exact isPrefixOf_metaTagPrefix kv'.1
  · obtain ⟨kv', hkv', rfl⟩ := List.mem_map.mp h
    exact (Bool.and_eq_true_iff.mp (List.mem_filter.mp hkv').2).1

/-- The user metadata that there was is laid over with something. -/
theorem mem_replacing (userMeta : Tags) (h : kv ∈ tags)
    (huser : metaTagPrefix.isPrefixOf kv.1 = true) : kv.1 ∈ (replacing tags userMeta).map Prod.fst := by
  rw [replacing, List.map_append, List.mem_append]
  by_cases hnew : kv.1 ∈ (encodeUserTags userMeta).map Prod.fst
  · exact .inl hnew
  · refine .inr (List.mem_map.mpr ⟨(kv.1, []), List.mem_map.mpr ⟨kv, List.mem_filter.mpr ⟨h, ?_⟩, rfl⟩, rfl⟩)
    simp [huser, hnew]

/-- What is left is what was given, without the keys that have no value. -/
theorem decodeUserTags_replaced (tags userMeta : Tags) :
    decodeUserTags (overlayTags tags (replacing tags userMeta)) = userMeta.filter fun kv => kv.2 ≠ [] := by
  have hold : decodeUserTags (tags.filter fun kv => !((replacing tags userMeta).map Prod.fst).contains kv.1) = [] := by
    refine List.filterMap_eq_nil_iff.mpr fun kv hkv => if_neg fun huser => ?_
    have hmem := mem_replacing userMeta (List.mem_filter.mp hkv).1 huser
    simp [hmem] at hkv
  have hnew : (replacing tags userMeta).filter (fun kv => kv.2 ≠ [])
      = encodeUserTags (userMeta.filter fun kv => kv.2 ≠ []) := by
    rw [replacing, List.filter_append, encodeUserTags, encodeUserTags, List.filter_map, List.filter_map]
    simp [Function.comp_def]
  rw [overlayTags, decodeUserTags, List.filterMap_append, hnew]
  exact (congrArg₂ _ hold (decodeUserTags_encodeUserTags _)).trans (List.nil_append _)

/-- The other tags stay as they are. -/
theorem internalTags_replaced (tags userMeta : Tags) :
    internalTags (overlayTags tags (replacing tags userMeta)) = internalTags tags := by
  rw [overlayTags, internalTags, List.filter_append, List.filter_filter, List.filter_filter]
  have hnone : (replacing tags userMeta).filter
      (fun kv => !metaTagPrefix.isPrefixOf kv.1 && decide (kv.2 ≠ [])) = [] :=
    List.filter_eq_nil_iff.mpr fun kv hkv => by simp [isPrefixOf_of_replacing hkv]
  rw [hnone, List.append_nil]
  refine List.filter_congr fun kv _ => ?_
  cases huser : metaTagPrefix.isPrefixOf kv.1 with
  | true => rfl
  | false =>
    have hnot : kv.1 ∉ (replacing tags userMeta).map Prod.fst := fun hmem => by
      obtain ⟨kv', hkv', heq⟩ := List.mem_map.mp hmem
      cases huser.symm.trans (heq ▸ isPrefixOf_of_replacing hkv')
    simpa using hnot

/-! ### The operation -/

theorem act_snapLatest (s : Stores) :
    act s (.snapLatest domain ref) = (.ofOption (s.latest domain ref), s) := rfl

/-- The newest version is written again when no call fails. -/
theorem updateLatestMeta_of_spared (overlay : Tags) (h : s.Spared 0 2)
    (hsnap : s.latest domain ref = some snap) :
    ∃ s', (updateLatestMeta (ε := ε) domain ref overlay).exec serve s = (.ok s.minted, s')
      ∧ s'.cell domain ref = ⟨s.row domain ref,
          s.snaps domain ref ++ [{ snap with version := s.minted, tags := overlayTags snap.tags overlay }]⟩
      ∧ ∀ k, s'.faultAt k = s.faultAt (2 + k) := by
  have hput : s.tick.settle.faultAt 0 = false := (faultAt_tick_settle s 0).trans (h 1 Nat.one_lt_two)
  obtain ⟨s', hserve, hcell, hfaults⟩ := serve_snapPut_of_spared domain ref snap.format
    (overlayTags snap.tags overlay) snap.content hput
  have hsnap' : s.tick.settle.latest domain ref = some snap := hsnap
  refine ⟨s', ?_, hcell, fun k => ?_⟩
  · unfold updateLatestMeta
    rw [exec_bind, exec_perform, serve_of_spared rfl (h 0 Nat.two_pos), act_snapLatest, hsnap']
    dsimp only [Got.ofOption]
    rw [exec_bind, exec_perform, hserve]
    rfl
  · rw [← faultAt_tick, hfaults, faultAt_tick_settle, ← Nat.add_assoc]

theorem updateLatestMeta_of_fault (overlay : Tags) (h : ¬ s.Spared 0 2) :
    ∃ e s', (updateLatestMeta (ε := ε) domain ref overlay).exec serve s = (.error e, s') ∧ s'.cell = s.cell := by
  unfold updateLatestMeta
  rw [exec_bind, exec_perform]
  cases hread : s.faultAt 0 with
  | true =>
    rw [serve_of_fault rfl hread]
    exact ⟨_, _, rfl, rfl⟩
  | false =>
    rw [serve_of_spared rfl hread, act_snapLatest]
    cases s.tick.settle.latest domain ref with
    | none => exact ⟨_, _, rfl, rfl⟩
    | some snap =>
      have hput := faultAt_of_not_spared_two h hread
      dsimp only [Got.ofOption]
      rw [exec_bind, exec_perform, serve_of_fault rfl ((faultAt_tick_settle s 0).trans hput)]
      exact ⟨_, _, rfl, rfl⟩

/-- The end of a replacement. -/
def replaceRow (domain ref : GoString) (info : ObjectInfo) (userMeta overlay : Tags) :
    GwProg (Except (GwError ε) Unit) :=
  (updateLatestMeta domain ref overlay).orFail fun version => do
    if ← ask (.refPut { info with version, userMeta }) then pure (.ok ()) else pure (.error .internal)

/-- A replacement comes to its end when the row and the tags can be read. -/
theorem exec_setUserMeta (userMeta : Tags) (h : s.Spared 0 2)
    (hfinal : (s.cell domain ref).final = some info) (hsnap : s.latest domain ref = some snap) :
    (setUserMeta (ε := ε) domain ref userMeta).exec serve s
      = (replaceRow domain ref info userMeta (replacing snap.tags userMeta)).exec serve
        s.tick.settle.tick.settle := by
  have hmeta : s.tick.settle.faultAt 0 = false := (faultAt_tick_settle s 0).trans (h 1 Nat.one_lt_two)
  have hsnap' : s.tick.settle.tick.settle.latest domain ref = some snap := hsnap
  rw [setUserMeta, orFail, exec_bind, finalRow_of_spared (h 0 Nat.two_pos), hfinal]
  dsimp only
  rw [exec_bind, exec_perform, serve_of_spared rfl hmeta, act_snapMeta, hsnap']
  rfl

/-- Without an object, or when a call before the row fails, a replacement changes nothing. -/
theorem setUserMeta_of_fault (userMeta : Tags) (h : s.Spared 0 4 → s.object domain ref = none) :
    ∃ e s', (setUserMeta (ε := ε) domain ref userMeta).exec serve s = (.error e, s')
      ∧ s'.cell domain ref = s.cell domain ref := by
  cases hget : s.faultAt 0 with
  | true =>
    rw [setUserMeta, orFail, exec_bind, finalRow_of_fault hget]
    exact ⟨_, _, rfl, rfl⟩
  | false =>
    cases hfinal : (s.cell domain ref).final with
    | none =>
      rw [setUserMeta, orFail, exec_bind, finalRow_of_spared hget, hfinal]
      exact ⟨_, _, rfl, rfl⟩
    | some info =>
      cases hmeta : s.faultAt 1 with
      | true =>
        rw [setUserMeta, orFail, exec_bind, finalRow_of_spared hget, hfinal]
        dsimp only
        rw [exec_bind, exec_perform, serve_of_fault rfl ((faultAt_tick_settle s 0).trans hmeta)]
        exact ⟨_, _, rfl, rfl⟩
      | false =>
        have hread : s.Spared 0 2 := spared_two.mpr ⟨hget, hmeta⟩
        cases hsnap : s.latest domain ref with
        | none =>
          have hsnap' : s.tick.settle.tick.settle.latest domain ref = none := hsnap
          rw [setUserMeta, orFail, exec_bind, finalRow_of_spared hget, hfinal]
          dsimp only
          rw [exec_bind, exec_perform, serve_of_spared rfl ((faultAt_tick_settle s 0).trans hmeta),
            act_snapMeta, hsnap']
          exact ⟨_, _, rfl, rfl⟩
        | some snap =>
          have hwrite : ¬ s.tick.settle.tick.settle.Spared 0 2 := fun hwrite => by
            have hall : s.Spared 0 4 :=
              spared_add.mpr ⟨hread, (spared_shift (faultAt_tick_settle_twice s)).mp hwrite⟩
            cases (h hall).symm.trans (object_eq_some_iff.mpr ⟨info, snap, hfinal, hsnap, rfl, rfl⟩)
          obtain ⟨e, s', hexec, hcell⟩ := updateLatestMeta_of_fault (ε := ε) (replacing snap.tags userMeta) hwrite
          rw [exec_setUserMeta userMeta hread hfinal hsnap, replaceRow, orFail, exec_bind, hexec]
          exact ⟨_, _, rfl, congrFun (congrFun hcell domain) ref⟩

/-- Otherwise the new version is written, and then the row. -/
theorem setUserMeta_of_written (userMeta : Tags) (h : s.Spared 0 4)
    (hfinal : (s.cell domain ref).final = some info) (hsnap : s.latest domain ref = some snap) :
    ∃ s' : Stores, s'.cell domain ref = ⟨s.row domain ref, s.snaps domain ref
          ++ [{ snap with version := s.minted, tags := overlayTags snap.tags (replacing snap.tags userMeta) }]⟩
      ∧ (setUserMeta (ε := ε) domain ref userMeta).exec serve s
        = (if s.faultAt 4 then (.error .internal, s'.tick.settle)
          else (.ok (), (act s'.tick.settle (.refPut { info with version := s.minted, userMeta })).2)) := by
  have hspared : s.Spared 0 2 ∧ s.Spared (0 + 2) 2 := spared_add.mp h
  have hwrite : s.tick.settle.tick.settle.Spared 0 2 :=
    (spared_shift (faultAt_tick_settle_twice s)).mpr hspared.2
  obtain ⟨s', hexec, hcell, hfaults⟩ :=
    updateLatestMeta_of_spared (ε := ε) (replacing snap.tags userMeta) hwrite hsnap
  have hfault : s'.faultAt 0 = s.faultAt 4 := by rw [hfaults, faultAt_tick_settle_twice]
  refine ⟨s', hcell, ?_⟩
  rw [exec_setUserMeta userMeta hspared.1 hfinal hsnap, replaceRow, orFail, exec_bind, hexec]
  dsimp only
  rw [exec_bind, exec_perform]
  cases hrow : s.faultAt 4 with
  | true =>
    rw [serve_of_fault rfl (hfault.trans hrow)]
    rfl
  | false =>
    rw [serve_of_spared rfl (hfault.trans hrow)]
    rfl

/-- What is put with metadata has it. -/
theorem object_of_putWithMeta {sha256 : GoString → GoString} {contentType content : GoString}
    {t t' : Stores} {row : ObjectInfo}
    (h : (putWithMeta (ε := ε) sha256 domain ref contentType userMeta (.ok content)).exec serve t
      = (.ok row, t')) : t'.object domain ref = some (content, row) ∧ row.userMeta = userMeta := by
  have href : ref ≠ [] := by
    rintro rfl
    cases h.symm.trans (putWithMeta_of_unnamed ..)
  have hversion : t.faultAt 0 = false := by
    rw [← Bool.not_eq_true]
    intro hfault
    cases h.symm.trans (putWithMeta_of_fault sha256 domain contentType userMeta content href hfault)
  have hrow : t.faultAt 1 = false := by
    rw [← Bool.not_eq_true]
    intro hfault
    obtain ⟨s', hexec, -⟩ := putWithMeta_of_rowFault (ε := ε) sha256 domain contentType userMeta content href
      hversion hfault
    cases h.symm.trans hexec
  obtain ⟨s', now, hexec, hcell, -⟩ := putWithMeta_of_spared (ε := ε) sha256 domain contentType userMeta content
    href (spared_two.mpr ⟨hversion, hrow⟩)
  cases h.symm.trans hexec
  refine ⟨?_, rfl⟩
  rw [Stores.object, hcell, object_append, decodeUserTags_encodeUserTags]
  rfl

/-- A replacement that succeeds. -/
theorem object_of_setUserMeta {s s' : Stores}
    (h : (setUserMeta (ε := ε) domain ref userMeta).exec serve s = (.ok (), s')) :
    ∃ before after, ∃ info : ObjectInfo, s.latest domain ref = some before
      ∧ s'.latest domain ref = some after ∧ after.content = before.content
      ∧ after.tags = overlayTags before.tags (replacing before.tags userMeta)
      ∧ s'.object domain ref = some (before.content, { info with userMeta := decodeUserTags after.tags }) := by
  by_cases hfails : s.Spared 0 4 → s.object domain ref = none
  · obtain ⟨e, s₁, hexec, -⟩ := setUserMeta_of_fault (ε := ε) userMeta hfails
    cases h.symm.trans hexec
  obtain ⟨hspared, hobject⟩ := Classical.not_imp.mp hfails
  obtain ⟨⟨content, info⟩, hobject⟩ := Option.ne_none_iff_exists'.mp hobject
  obtain ⟨row, snap, hfinal, hsnap, -, -⟩ := object_eq_some_iff.mp hobject
  obtain ⟨s₁, hcell, hexec⟩ := setUserMeta_of_written (ε := ε) userMeta hspared hfinal hsnap
  rw [h] at hexec
  split at hexec
  · cases hexec
  cases hexec
  let new := { row with version := s.minted, userMeta }
  have hlatest : (s₁.snaps domain ref).getLast? = some { snap with
      version := s.minted, tags := overlayTags snap.tags (replacing snap.tags userMeta) } :=
    (congrArg (fun x : Cell => x.snaps.getLast?) hcell).trans List.getLast?_concat
  -- the row is replaced, or another one is written
  obtain ⟨row', hfinal'⟩ : ∃ row', ((act s₁.tick.settle (.refPut new)).2.cell domain ref).final = some row' := by
    by_cases heq : (domain, ref) = (row.domain, row.ref)
    · cases heq
      rw [act_refPut_cell s₁.tick.settle new]
      exact ⟨new, final_of_row rfl (by simpa using (Option.filter_eq_some_iff.mp hfinal).2)⟩
    · rw [act_cell_of_ne (by simpa [Call.writes] using heq)]
      exact ⟨row, (congrArg Cell.final hcell).trans hfinal⟩
  exact ⟨snap, _, row', hsnap, hlatest, rfl, rfl, object_eq_some_iff.mpr ⟨row', _, hfinal', hlatest, rfl, rfl⟩⟩

/-- An object in stores that nobody else has used. -/
def oneObject (faults : List Bool) : Stores :=
  { ((put (ε := Empty) id (text "t") (text "r") [] (.ok (text "x"))).exec serve .empty).2 with faults }

end MemoryLayer.Gateway
