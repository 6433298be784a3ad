import MemoryLayer.Snapshot.Store

namespace MemoryLayer.Snapshot

/-! # Reclaiming the packs of an owner

`PackReclaimer.ObliterateContext` marks the packs of an owner, waits, and gives each of them up or takes its mark
back (`packassoc.go`).  Store calls may fail, and the call may be cancelled between two packs.

- `ReclaimFaults`: what goes wrong in a call.
- `markAll`, `finish`, `finishAll`, `obliterateContext`: the call.
- `markAll_spec`, `finishAll_spec`: what the two loops do to the states of the packs.
- `no_mark_left_iff`: when no mark is left behind.
-/

/-- What goes wrong in a call: which calls of the stores fail, without an effect, and which check of the context is
    the first to see that it is cancelled. -/
structure ReclaimFaults where
  drop : Bool
  redrop : Bool
  mark : String → Bool
  commit : String → Bool
  release : String → Bool
  metadata : String → Bool
  purge : String → Bool
  delete : String → Bool
  cancelAt : Option Nat

structure ReclaimResult where
  packsConsidered : Nat
  packsReclaimed : Nat
  packsStillReferenced : Nat
  packsHeldByOther : Nat
  packsSkippedError : Nat
  bytesReclaimed : Int
  deriving DecidableEq, Repr

/-- One more pack is left for a later call. -/
def ReclaimResult.skip (res : ReclaimResult) : ReclaimResult :=
  { res with packsSkippedError := res.packsSkippedError + 1 }

/-- A check of the context. -/
def ReclaimFaults.cancelled (f : ReclaimFaults) (check : Nat) : Bool := f.cancelAt.any (· ≤ check)

section Reclaimer

variable (e : Env) (index : Bool) (f : ReclaimFaults) (domain : String)

/-- Publish the mark of one pack; whether it is our own. -/
def markOne (p : String) (res : ReclaimResult) (w : World) : Bool × ReclaimResult × World :=
  if f.mark p then (false, res.skip, w)
  else
    let (won, w) := serve e w (.markObliterating domain p)
    if won then (true, res, w) else (false, { res with packsHeldByOther := res.packsHeldByOther + 1 }, w)

/-- Publish the marks, and collect our own; `none` when the call is cancelled. -/
def markAll : List String → Nat → List String → ReclaimResult → World →
    Option (List String) × ReclaimResult × World
  | [], _, marked, res, w => (some marked, res, w)
  | p :: ps, check, marked, res, w =>
    if f.cancelled check then (none, res, w)
    else
      let (won, res, w) := markOne e f domain p res w
      markAll ps (check + 1) (if won then marked ++ [p] else marked) res w

/-- Decide the fate of one marked pack. -/
def finish (p : String) (res : ReclaimResult) (w : World) : ReclaimResult × World :=
  if f.commit p then (res.skip, w)
  else
    let (committed, w) := serve e w (.commitObliterated domain p)
    if ¬ committed then
      if f.release p then (res.skip, w)
      else ({ res with packsStillReferenced := res.packsStillReferenced + 1 },
        (serve e w (.releaseMark domain p)).2)
    else
      let id := packBlobID domain p
      let size := if f.metadata p then 0 else ((w.metadata e id).map BlobMetadata.length).getD 0
      if index ∧ f.purge p then (res.skip, w)
      else
        let w := if index then (serve e w (.purgePacks domain [p])).2 else w
        if f.delete p then (res.skip, w)
        else ({ res with
            packsReclaimed := res.packsReclaimed + 1
            bytesReclaimed := res.bytesReclaimed + size }, (serve e w (.deleteBlob id)).2)

/-- Finish the marked packs; `false` when the call is cancelled. -/
def finishAll : List String → Nat → ReclaimResult → World → Bool × ReclaimResult × World
  | [], _, res, w => (true, res, w)
  | p :: ps, check, res, w =>
    if f.cancelled check then (false, res, w)
    else
      let (res, w) := finish e index f domain p res w
      finishAll ps (check + 1) res w

/-- Reclaim what an owner held; `false` stands for an error. -/
def obliterateContext (packContext : String) (w : World) : Bool × ReclaimResult × World :=
  let res : ReclaimResult := ⟨0, 0, 0, 0, 0, 0⟩
  if f.drop then (false, res, w)
  else
    let (candidates, w) := serve e w (.dropContext domain packContext)
    let res := { res with packsConsidered := candidates.length }
    if candidates = [] then (true, res, w)
    else match markAll e f domain candidates 0 [] res w with
      | (none, res, w) => (false, res, w)
      | (some marked, res, w) =>
        -- a writer may have come back between the drop and the mark
        let w := if f.redrop then w else (serve e w (.dropContext domain packContext)).2
        finishAll e index f domain marked candidates.length res w

/-! ### What the loops do -/

/-- The packs that a loop looks at before it is cancelled. -/
def ReclaimFaults.before (check : Nat) (ps : List String) : List String :=
  match f.cancelAt with
  | none => ps
  | some k => ps.take (k - check)

theorem before_cons (p : String) (ps : List String) (check : Nat) :
    f.before check (p :: ps) = if f.cancelled check then [] else p :: f.before (check + 1) ps := by
  unfold ReclaimFaults.before ReclaimFaults.cancelled
  cases f.cancelAt with
  | none => rfl
  | some k =>
    by_cases hk : k ≤ check
    · simp [hk, Nat.sub_eq_zero_of_le hk]
    · have hnext : k - check = k - (check + 1) + 1 := by omega
      simp [hk, hnext]

theorem before_subset (check : Nat) (ps : List String) : f.before check ps ⊆ ps := by
  unfold ReclaimFaults.before
  cases f.cancelAt with
  | none => exact List.Subset.refl ps
  | some k => exact List.take_subset _ ps

/-- The pack is free, and its mark does not fail. -/
def ReclaimFaults.wins (w : World) (p : String) : Bool :=
  (w.dedup.assoc domain).stateOf p = .stored ∧ ¬ f.mark p

/-- The packs `ms` have been marked. -/
def Marks (w w' : World) (ms : List String) : Prop :=
  ((w'.dedup.assoc domain).byPack = (w.dedup.assoc domain).byPack
      ∧ (w'.dedup.assoc domain).byContext = (w.dedup.assoc domain).byContext)
    ∧ ∀ q, (w'.dedup.assoc domain).stateOf q
      = if q ∈ ms then .obliterating else (w.dedup.assoc domain).stateOf q

variable {e f}

theorem markOne_spec (p : String) (res : ReclaimResult) (w : World) :
    (markOne e f domain p res w).1 = f.wins domain w p
      ∧ Marks domain w (markOne e f domain p res w).2.2 (if f.wins domain w p then [p] else []) := by
  unfold markOne ReclaimFaults.wins Marks
  cases f.mark p with
  | true => simp
  | false =>
    simp only [serve, MemoryDedupStore.markObliterating, MemAssoc.markObliterating]
    by_cases hst : (w.dedup.assoc domain).stateOf p = .stored
    · simp [hst, MemAssoc.stateOf_setState]
    · simp [hst]

/-- **The first loop** marks the packs that it wins before it is cancelled. -/
theorem markAll_spec {ps : List String} (hnodup : ps.Nodup) (check : Nat) (marked : List String)
    (res : ReclaimResult) (w : World) :
    (markAll e f domain ps check marked res w).1
        = (if f.before check ps = ps then some (marked ++ (f.before check ps).filter (f.wins domain w)) else none)
      ∧ Marks domain w (markAll e f domain ps check marked res w).2.2
        ((f.before check ps).filter (f.wins domain w)) := by
  induction ps generalizing check marked res w with
  | nil =>
    have hnil : f.before check [] = [] := List.subset_nil.mp (before_subset f check [])
    rw [hnil]
    exact ⟨by simp [markAll], ⟨rfl, rfl⟩, fun q => by simp [markAll]⟩
  | cons p ps ih =>
    obtain ⟨hp, hnodup⟩ := List.nodup_cons.mp hnodup
    rw [markAll, before_cons]
    cases f.cancelled check with
    | true => exact ⟨by simp, ⟨rfl, rfl⟩, fun q => by simp⟩
    | false =>
      obtain ⟨hwon, hpack, hstate⟩ := markOne_spec (e := e) (f := f) domain p res w
      obtain ⟨hsome, hpack', hstate'⟩ := ih hnodup (check + 1)
        (if (markOne e f domain p res w).1 then marked ++ [p] else marked) (markOne e f domain p res w).2.1
        (markOne e f domain p res w).2.2
      -- the packs after this one are in the state they were in
      have hfilter : (f.before (check + 1) ps).filter (f.wins domain (markOne e f domain p res w).2.2)
          = (f.before (check + 1) ps).filter (f.wins domain w) := by
        refine List.filter_congr fun q hq => ?_
        have hne : q ≠ p := fun h => hp (h ▸ before_subset f _ _ hq)
        have hq' : q ∉ (if f.wins domain w p then [p] else []) := by split <;> simp [hne]
        have hsame := hstate q
        rw [if_neg hq'] at hsame
        rw [ReclaimFaults.wins, hsame]
        rfl
      rw [hfilter] at hsome hstate'
      rw [if_neg Bool.false_ne_true, if_neg Bool.false_ne_true]
      refine ⟨hsome.trans ?_, ⟨hpack'.1.trans hpack.1, hpack'.2.trans hpack.2⟩, fun q => (hstate' q).trans ?_⟩
      · rw [hwon, List.filter_cons]
        cases f.wins domain w p <;> simp
      · rw [hstate q, List.filter_cons]
        cases f.wins domain w p <;> grind

/-- The pack leaves the marked state when it is finished: the commit does not fail, nor the release where others own
    the pack. -/
def ReclaimFaults.Resolves (f : ReclaimFaults) (owners : String → List String) (p : String) : Prop :=
  f.commit p = false ∧ (owners p ≠ [] → f.release p = false)

/-- Only the commit and the release touch the state of a pack. -/
theorem assoc_finish (p : String) (res : ReclaimResult) (w : World) :
    (finish e index f domain p res w).2.dedup.assoc domain
      = if f.commit p then w.dedup.assoc domain
        else if ((w.dedup.assoc domain).commitObliterated p).1 ∨ f.release p then
          ((w.dedup.assoc domain).commitObliterated p).2
        else ((w.dedup.assoc domain).commitObliterated p).2.releaseMark p := by
  unfold finish
  cases f.commit p with
  | true => rfl
  | false =>
    simp only [serve, MemoryDedupStore.commitObliterated, Bool.false_eq_true, if_false]
    by_cases hcommitted : ((w.dedup.assoc domain).commitObliterated p).1 = true
    · -- what happens to the blob and to the dedup entries does not matter
      cases f.purge p <;> cases f.delete p <;> cases index <;> simp [hcommitted, MemoryDedupStore.purgePacks]
    · cases f.release p <;> simp [hcommitted, MemoryDedupStore.releaseMark]

theorem finish_spec (p : String) (res : ReclaimResult) (w : World) :
    ((finish e index f domain p res w).2.dedup.assoc domain).byPack = (w.dedup.assoc domain).byPack
      ∧ ∀ q, ((finish e index f domain p res w).2.dedup.assoc domain).stateOf q = .obliterating
        ↔ (w.dedup.assoc domain).stateOf q = .obliterating
          ∧ ¬ (q = p ∧ f.Resolves (w.dedup.assoc domain).byPack p) := by
  rw [assoc_finish]
  generalize w.dedup.assoc domain = a
  unfold ReclaimFaults.Resolves MemAssoc.commitObliterated MemAssoc.releaseMark
  cases f.commit p with
  | true => simp
  | false =>
    by_cases hst : a.stateOf p = .obliterating
    · by_cases howned : a.byPack p = []
      · simp [hst, howned, MemAssoc.stateOf_setState]
        grind
      · cases f.release p with
        | true => simp [hst, howned]
        | false =>
          simp [hst, howned, MemAssoc.stateOf_setState]
          grind
    · simp [hst]
      grind

/-- **The second loop** resolves the packs that it finishes before it is cancelled. -/
theorem finishAll_spec (ps : List String) (check : Nat) (res : ReclaimResult) (w : World) (q : String) :
    ((finishAll e index f domain ps check res w).2.2.dedup.assoc domain).stateOf q = .obliterating
      ↔ (w.dedup.assoc domain).stateOf q = .obliterating
        ∧ ¬ (q ∈ f.before check ps ∧ f.Resolves (w.dedup.assoc domain).byPack q) := by
  induction ps generalizing check res w with
  | nil =>
    have hnil : f.before check [] = [] := List.subset_nil.mp (before_subset f check [])
    simp [finishAll, hnil]
  | cons p ps ih =>
    rw [finishAll, before_cons]
    cases f.cancelled check with
    | true => simp
    | false =>
      obtain ⟨hpack, hstate⟩ := finish_spec (e := e) (f := f) index domain p res w
      rw [if_neg Bool.false_ne_true, if_neg Bool.false_ne_true, ih, hpack, hstate, List.mem_cons]
      grind

/-- The packs among `packs` that a call marks. -/
def ReclaimFaults.marks (f : ReclaimFaults) (w : World) (packs : List String) : List String :=
  (f.before 0 packs).filter (f.wins domain w)

/-- A marked pack is resolved: the call is not seen to be cancelled before it finishes the pack, the commit does not
    fail, and neither does the release where other owners are left. -/
structure ReclaimFaults.Settles (f : ReclaimFaults) (w : World) (packContext : String) (packs : List String)
    (p : String) : Prop where
  marking : f.before 0 packs = packs
  finishing : p ∈ f.before packs.length (f.marks domain w packs)
  resolves : f.Resolves ((w.dedup.assoc domain).dropContext packContext).byPack p

theorem ReclaimFaults.free_of_marks {w : World} {packs : List String} {p : String} (hp : p ∈ f.marks domain w packs) :
    (w.dedup.assoc domain).stateOf p ≠ .obliterating := fun hst => by
  have := of_decide_eq_true (List.mem_filter.mp hp).2
  simp [hst] at this

variable {packContext : String} {packs : List String} {w : World}

/-- **What a call leaves behind.** -/
theorem obliterateContext_spec (hdrop : f.drop = false)
    (hpacks : (w.dedup.assoc domain).byContext packContext = packs) (hnodup : packs.Nodup) (q : String) :
    ((obliterateContext e index f domain packContext w).2.2.dedup.assoc domain).stateOf q = .obliterating
      ↔ (w.dedup.assoc domain).stateOf q = .obliterating
        ∨ q ∈ f.marks domain w packs ∧ ¬ f.Settles domain w packContext packs q := by
  unfold obliterateContext
  simp only [hdrop, Bool.false_eq_true, if_false, serve, MemoryDedupStore.dropContext_eq, hpacks]
  generalize hw₁ : ({ w with dedup := w.dedup.setAssoc domain ((w.dedup.assoc domain).dropContext packContext) } : World)
    = w₁
  have hassoc : w₁.dedup.assoc domain = (w.dedup.assoc domain).dropContext packContext := by simp [← hw₁]
  have hstate₁ : ∀ p, (w₁.dedup.assoc domain).stateOf p = (w.dedup.assoc domain).stateOf p := fun p => by
    rw [hassoc]
    rfl
  have hwins : f.wins domain w₁ = f.wins domain w := by
    funext p
    simp only [ReclaimFaults.wins, hstate₁]
  by_cases hnil : packs = []
  · have hmarks : f.marks domain w packs = [] := by
      rw [ReclaimFaults.marks, hnil, List.subset_nil.mp (before_subset f 0 [])]
      rfl
    simp [hnil ▸ hmarks, hnil, hstate₁]
  · rw [if_neg hnil]
    obtain ⟨hsome, hpack, hstate⟩ := markAll_spec (e := e) (f := f) domain hnodup 0 []
      ⟨packs.length, 0, 0, 0, 0, 0⟩ w₁
    rw [hwins, List.nil_append] at hsome
    rw [hwins] at hstate
    change _ = if _ then some (f.marks domain w packs) else none at hsome
    change ∀ p, _ = if p ∈ f.marks domain w packs then _ else _ at hstate
    generalize markAll e f domain _ 0 [] _ w₁ = out at hsome hpack hstate ⊢
    obtain ⟨found, res, w₂⟩ := out
    dsimp only at hsome hpack hstate ⊢
    by_cases hall : f.before 0 packs = packs
    · rw [if_pos hall] at hsome
      subst hsome
      -- the context owns nothing any more, so that dropping it again changes nothing
      have hgone : (w₂.dedup.assoc domain).byContext packContext = [] := by
        rw [hpack.2, hassoc]
        exact Function.update_self ..
      have hredrop := congrArg Prod.snd (MemoryDedupStore.dropContext_eq w₂.dedup domain packContext)
      rw [MemoryDedupStore.dropContext, if_pos hgone] at hredrop
      dsimp only at hredrop ⊢
      rw [← hredrop, ite_self, finishAll_spec, hpack.1, hassoc, hstate q, hstate₁ q]
      have hsettles : f.Settles domain w packContext packs q ↔ q ∈ f.before packs.length (f.marks domain w packs)
          ∧ f.Resolves ((w.dedup.assoc domain).dropContext packContext).byPack q :=
        ⟨fun h => ⟨h.finishing, h.resolves⟩, fun h => ⟨hall, h.1, h.2⟩⟩
      rw [hsettles]
      by_cases hq : q ∈ f.marks domain w packs
      · simp [hq, f.free_of_marks domain hq]
      · simp [hq, mt (fun h => before_subset f packs.length _ h) hq]
    · -- the call is cancelled while it marks
      rw [if_neg hall] at hsome
      subst hsome
      have hnot : ¬ f.Settles domain w packContext packs q := fun h => hall h.marking
      rw [hstate q, hstate₁ q]
      split <;> simp [*]

end Reclaimer

/-- **When no mark is left behind.**  A call leaves no pack marked that was not marked before, exactly when its first
    drop fails or each pack that it marks settles. -/
theorem no_mark_left_iff (e : Env) (index : Bool) (f : ReclaimFaults) (domain packContext : String)
    (packs : List String) (w : World) (hpacks : (w.dedup.assoc domain).byContext packContext = packs)
    (hnodup : packs.Nodup) :
    (∀ p, (w.dedup.assoc domain).stateOf p ≠ .obliterating →
        ((obliterateContext e index f domain packContext w).2.2.dedup.assoc domain).stateOf p ≠ .obliterating)
      ↔ f.drop = true ∨ ∀ p ∈ f.marks domain w packs, f.Settles domain w packContext packs p := by
  cases hdrop : f.drop with
  | true =>
    unfold obliterateContext
    simp [hdrop]
  | false =>
    simp only [ne_eq, obliterateContext_spec index domain hdrop hpacks hnodup, Bool.false_eq_true, false_or]
    constructor
    · intro h p hp
      by_contra hnot
      exact h p (f.free_of_marks domain hp) (.inr ⟨hp, hnot⟩)
    · rintro h p hst (hst' | ⟨hp, hnot⟩)
      · exact hst hst'
      · exact hnot (h p hp)

/-- Two owners share a pack. -/
def sharedPack : World :=
  { World.empty with dedup := (MemoryDedupStore.empty.associate "acme" [⟨"pack", "left"⟩, ⟨"pack", "right"⟩]).2 }

/-- Nothing goes wrong. -/
def noFaults : ReclaimFaults where
  drop := false
  redrop := false
  mark _ := false
  commit _ := false
  release _ := false
  metadata _ := false
  purge _ := false
  delete _ := false
  cancelAt := none

theorem sharedPack_settles :
    (sharedPack.dedup.assoc "acme").byContext "left" = ["pack"] ∧ ["pack"].Nodup
      ∧ ∀ p, (sharedPack.dedup.assoc "acme").stateOf p ≠ .obliterating →
        ((obliterateContext ⟨fun _ => "", fun _ => 0⟩ true noFaults "acme" "left" sharedPack).2.2.dedup.assoc
          "acme").stateOf p ≠ .obliterating :=
  ⟨by decide, by decide, (no_mark_left_iff _ true noFaults "acme" "left" ["pack"] sharedPack (by decide)
    (by decide)).mpr (.inr fun _ hp => ⟨rfl, hp, rfl, fun _ => rfl⟩)⟩

/-- The call is cancelled after it has marked the pack, which the other owner cannot associate any more. -/
theorem cancelled_call_leaves_mark :
    (sharedPack.dedup.assoc "acme").stateOf "pack" = .stored
      ∧ ((obliterateContext ⟨fun _ => "", fun _ => 0⟩ true { noFaults with cancelAt := some 1 } "acme" "left"
        sharedPack).2.2.dedup.assoc "acme").stateOf "pack" = .obliterating
      ∧ ((obliterateContext ⟨fun _ => "", fun _ => 0⟩ true { noFaults with cancelAt := some 1 } "acme" "left"
        sharedPack).2.2.dedup.associate "acme" [⟨"pack", "right"⟩]).1 = false := by
  decide

end MemoryLayer.Snapshot
