import Mathlib.Data.List.Sort
import MemoryLayer.Lib.Layers
import MemoryLayer.Meta.Tables

namespace MemoryLayer.Fileio

open Meta

/-! # Overlaying the slices of a chunk

The resolution of overlapping slices on read (`fileio/fileio.go`): the newest slice wins, and what
no slice covers is a hole.  Positions are `uint32` in the source; sums that could wrap are taken
modulo `2 ^ 32`.

- `subtract`, `addCovered`: sets of positions as lists of intervals.
- `resolve`: the segments of a window.
- `mem_subtractLoop`, `addCovered_spec`: what they compute, as sets.
- `Resolves`, `resolve_spec`: the segments cover the window one after the other, and each shows the
  newest slice at its positions, or a hole where there is none.
-/

/-- A resolved piece of a window: its bytes come from slice `id` from `srcOff` on; `id = 0` is a
    hole. -/
structure Seg where
  start : Nat
  stop : Nat
  id : Nat
  srcOff : Nat
  deriving DecidableEq, Repr

/-- The interval of positions from `a` up to `b`. -/
structure Iv where
  a : Nat
  b : Nat
  deriving DecidableEq, Repr

/-- The loop of `subtract` from position `cur` on. -/
def subtractLoop (b : Nat) : Nat → List Iv → List Iv
  | cur, [] => if cur < b then [⟨cur, b⟩] else []
  | cur, c :: covered =>
    if c.b ≤ cur ∨ c.a ≥ b then subtractLoop b cur covered
    else
      (if c.a > cur then [⟨cur, min c.a b⟩] else []) ++
        let cur := if c.b > cur then c.b else cur
        if cur ≥ b then [] else subtractLoop b cur covered

/-- The parts of an interval that are in no covered interval. -/
def subtract (a b : Nat) (covered : List Iv) : List Iv := subtractLoop b a covered

/-- The merging loop of `addCovered`; `merged` is in reverse order. -/
def mergeLoop : List Iv → List Iv → List Iv
  | merged, [] => merged.reverse
  | [], c :: covered => mergeLoop [c] covered
  | m :: merged, c :: covered =>
    if c.a ≤ m.b then
      mergeLoop ((if c.b > m.b then { m with b := c.b } else m) :: merged) covered
    else mergeLoop (c :: m :: merged) covered

/-- Insert an interval into a sorted, merged set. -/
def addCovered (covered : List Iv) (a b : Nat) : List Iv :=
  mergeLoop [] (List.insertionSort (fun c d : Iv => c.a ≤ d.a) (covered ++ [⟨a, b⟩]))

/-- The loop of `resolve` over the slices, newest first. -/
def resolveLoop (lo hi : Nat) : List SliceRef → List Iv × List Seg → List Iv × List Seg
  | [], acc => acc
  | s :: slices, (covered, out) =>
    let a := if s.pos < lo then lo else s.pos
    let b := (s.pos + s.slen) % 2 ^ 32
    let b := if b > hi then hi else b
    if a ≥ b then resolveLoop lo hi slices (covered, out)
    else
      let gs := subtract a b covered
      resolveLoop lo hi slices (gs.foldl (fun covered g => addCovered covered g.a g.b) covered,
        out ++ gs.map fun g => ⟨g.a, g.b, s.sliceId, (s.soff + (g.a - s.pos)) % 2 ^ 32⟩)

/-- The segments of the window from `lo` up to `hi`, by the slices in write order. -/
def resolve (slices : List SliceRef) (lo hi : Nat) : List Seg :=
  if lo ≥ hi then []
  else
    let (covered, out) := resolveLoop lo hi slices.reverse ([], [])
    List.insertionSort (fun s t : Seg => s.start ≤ t.start)
      (out ++ (subtract lo hi covered).map fun g => ⟨g.a, g.b, 0, 0⟩)

/-! ### Sets of positions -/

/-- A position is in one of the intervals. -/
def Covered (covered : List Iv) (x : Nat) : Prop := ∃ c ∈ covered, c.a ≤ x ∧ x < c.b

/-- The intervals are in the order of their first positions. -/
def Ordered (covered : List Iv) : Prop := covered.Pairwise fun c d => c.a ≤ d.a

/-- No interval is empty. -/
def Filled (covered : List Iv) : Prop := ∀ c ∈ covered, c.a < c.b

variable {covered covered' : List Iv} {x b lo hi cur a : Nat} {done slices : List SliceRef} {out : List Seg}
  {s : SliceRef} {g : Seg}

@[simp, grind =] theorem covered_nil : Covered [] x ↔ False := by
  simp [Covered]

@[grind =] theorem covered_cons {c : Iv} :
    Covered (c :: covered) x ↔ (c.a ≤ x ∧ x < c.b) ∨ Covered covered x := by
  simp [Covered]

@[grind =] theorem covered_append :
    Covered (covered ++ covered') x ↔ Covered covered x ∨ Covered covered' x := by
  simp only [Covered, List.mem_append, or_and_right, exists_or]

theorem covered_perm (h : covered.Perm covered') :
    Covered covered x ↔ Covered covered' x := by
  unfold Covered
  simp only [h.mem_iff]

/-- **Subtraction.**  The positions of `[cur, b)` that are not covered. -/
theorem mem_subtractLoop (h : Ordered covered) :
    Covered (subtractLoop b cur covered) x ↔ (cur ≤ x ∧ x < b) ∧ ¬ Covered covered x := by
  induction covered generalizing cur with
  | nil => grind [subtractLoop]
  | cons c covered ih =>
    obtain ⟨hc, hrest⟩ := List.pairwise_cons.mp h
    -- what is left of `c` is left of everything covered
    have hleft : x < c.a → ¬ Covered covered x := by
      rintro hx ⟨d, hd, hdx, -⟩
      have := hc d hd
      omega
    unfold subtractLoop
    by_cases hskip : c.b ≤ cur ∨ c.a ≥ b
    · rw [if_pos hskip, ih hrest, covered_cons]
      grind
    · have hcb : c.b > cur := by omega
      simp only [if_neg hskip, if_pos hcb]
      have hih : Covered (subtractLoop b c.b covered) x ↔ _ := ih hrest
      grind

/-- The parts come one after the other, none of them empty. -/
theorem subtractLoop_apart (hne : Filled covered) :
    (∀ g ∈ subtractLoop b cur covered, cur ≤ g.a ∧ g.a < g.b) ∧
      (subtractLoop b cur covered).Pairwise fun g g' => g.b ≤ g'.a := by
  induction covered generalizing cur with
  | nil => grind [subtractLoop]
  | cons c covered ih =>
    have hc := hne c List.mem_cons_self
    have hrest : Filled covered := fun d hd => hne d (List.mem_cons_of_mem _ hd)
    unfold subtractLoop
    by_cases hskip : c.b ≤ cur ∨ c.a ≥ b
    · rw [if_pos hskip]
      exact ih hrest
    · have hcb : c.b > cur := by omega
      simp only [if_neg hskip, if_pos hcb]
      have hih : (∀ g ∈ subtractLoop b c.b covered, _) ∧ _ := ih hrest
      grind

/-- The merging loop keeps the set and the order, when everything merged so far is left of what is
    to come. -/
theorem mergeLoop_spec (merged : List Iv) (hm : (merged.Pairwise fun c d => d.a ≤ c.a))
    (hc : Ordered covered) (hmc : ∀ m ∈ merged, ∀ c ∈ covered, m.a ≤ c.a)
    (hne : Filled (merged ++ covered)) :
    (Ordered (mergeLoop merged covered) ∧ Filled (mergeLoop merged covered)) ∧
      ∀ x, Covered (mergeLoop merged covered) x ↔ Covered merged x ∨ Covered covered x := by
  unfold Ordered Filled at *
  induction covered generalizing merged with
  | nil =>
    rw [mergeLoop.eq_def]
    refine ⟨⟨List.pairwise_reverse.mpr hm, by simpa using hne⟩, fun x => ?_⟩
    rw [covered_perm (List.reverse_perm merged)]
    simp
  | cons c covered ih =>
    cases merged with
    | nil => grind [mergeLoop]
    | cons m merged =>
      rw [List.pairwise_cons] at hc
      rw [mergeLoop]
      split
      · -- the two intervals become one, which starts where `m` does
        generalize hm' : (if c.b > m.b then { m with b := c.b } else m) = m'
        have hends : m'.a = m.a ∧ m'.b = max m.b c.b := by
          rw [← hm']
          split <;> simp only [true_and] <;> omega
        have h := ih (m' :: merged) (by grind [List.pairwise_cons]) hc.2 (by grind) (by grind)
        exact ⟨h.1, by grind⟩
      · have h := ih (c :: m :: merged) (by grind [List.pairwise_cons]) hc.2 (by grind) (by grind)
        exact ⟨h.1, by grind⟩

theorem addCovered_spec (hne : Filled covered) (hab : a < b) :
    (Ordered (addCovered covered a b) ∧ Filled (addCovered covered a b)) ∧
      ∀ x, Covered (addCovered covered a b) x ↔ Covered covered x ∨ (a ≤ x ∧ x < b) := by
  unfold addCovered
  have hsort : Ordered (List.insertionSort (fun c d : Iv => c.a ≤ d.a) (covered ++ [⟨a, b⟩])) := by
    have : Std.Total fun c d : Iv => c.a ≤ d.a := ⟨fun c d => Nat.le_total c.a d.a⟩
    have : IsTrans Iv fun c d => c.a ≤ d.a := ⟨fun _ _ _ => Nat.le_trans⟩
    exact List.pairwise_insertionSort _ _
  have hfilled : Filled ([] ++ List.insertionSort (fun c d : Iv => c.a ≤ d.a) (covered ++ [⟨a, b⟩])) := by
    intro c hc
    rw [List.nil_append, List.mem_insertionSort] at hc
    grind [Filled]
  have h := mergeLoop_spec [] (by simp) hsort (by simp) hfilled
  refine ⟨h.1, fun x => ?_⟩
  rw [h.2, covered_perm (List.perm_insertionSort _ _), covered_append, covered_cons]
  simp

/-- Inserting several intervals. -/
theorem foldl_addCovered_spec (hc : Ordered covered) (hne : Filled covered) {gs : List Iv}
    (hgs : Filled gs) :
    (Ordered (gs.foldl (fun covered g => addCovered covered g.a g.b) covered) ∧
        Filled (gs.foldl (fun covered g => addCovered covered g.a g.b) covered)) ∧
      ∀ x, Covered (gs.foldl (fun covered g => addCovered covered g.a g.b) covered) x ↔
        Covered covered x ∨ Covered gs x := by
  induction gs generalizing covered with
  | nil => simpa using ⟨hc, hne⟩
  | cons g gs ih =>
    obtain ⟨⟨hord, hfilled⟩, hmem⟩ := addCovered_spec hne (hgs g List.mem_cons_self)
    obtain ⟨hkept, hmem'⟩ := ih hord hfilled fun c hc => hgs c (List.mem_cons_of_mem _ hc)
    refine ⟨hkept, fun x => ?_⟩
    rw [List.foldl_cons, hmem', hmem, covered_cons, or_assoc]

/-! ### What resolution shows -/

/-- The slice covers a position of its chunk. -/
def atPos (s : SliceRef) (x : Nat) : Bool := s.pos ≤ x ∧ x < s.pos + s.slen

/-- The positions and offsets of a slice fit `uint32`. -/
def Fits (s : SliceRef) : Prop := s.pos + s.slen < 2 ^ 32 ∧ s.soff + s.slen < 2 ^ 32

/-- The segment shows the slice `s` at position `x`. -/
def Seg.Shows (g : Seg) (s : SliceRef) (x : Nat) : Prop :=
  g.id = s.sliceId ∧ g.srcOff + (x - g.start) = s.soff + (x - s.pos)

/-- The position is in the segment. -/
def Seg.Has (g : Seg) (x : Nat) : Prop := g.start ≤ x ∧ x < g.stop

/-- The segment is a part of the slice `s`. -/
def Seg.From (g : Seg) (s : SliceRef) : Prop :=
  g.id = s.sliceId ∧ s.pos ≤ g.start ∧ g.srcOff = (s.soff + (g.start - s.pos)) % 2 ^ 32

/-- The segments show each covered position once. -/
structure Tiles (covered : List Iv) (out : List Seg) : Prop where
  shown : ∀ x, (∃ g ∈ out, g.Has x) ↔ Covered covered x
  nonempty : ∀ g ∈ out, g.start < g.stop
  apart : out.Pairwise fun g g' => ∀ x, g.Has x → ¬ g'.Has x

/-- The parts of an interval that were not covered, as segments. -/
theorem Tiles.add (h : Tiles covered out) (hord : Ordered covered) (hne : Filled covered)
    {f : Iv → Seg} (hf : ∀ c, (f c).start = c.a ∧ (f c).stop = c.b)
    (hmem : ∀ x, Covered covered' x ↔ Covered covered x ∨ Covered (subtract a b covered) x) :
    Tiles covered' (out ++ (subtract a b covered).map f) := by
  obtain ⟨hparts, hpairs⟩ : (∀ g ∈ subtract a b covered, a ≤ g.a ∧ g.a < g.b) ∧ _ :=
    subtractLoop_apart hne
  have hhas : ∀ c x, (f c).Has x ↔ c.a ≤ x ∧ x < c.b := fun c x => by
    rw [Seg.Has, (hf c).1, (hf c).2]
  refine ⟨fun x => ?_, fun g hg => ?_, List.pairwise_append.mpr ⟨h.apart, ?_, ?_⟩⟩
  · rw [hmem, ← h.shown]
    simp only [List.mem_append, List.mem_map, or_and_right, exists_or, Covered]
    grind
  · rcases List.mem_append.mp hg with hg | hg
    · exact h.nonempty g hg
    · obtain ⟨c, hc, rfl⟩ := List.mem_map.mp hg
      rw [(hf c).1, (hf c).2]
      exact (hparts c hc).2
  · refine List.pairwise_map.mpr (hpairs.imp fun hle x hx hx' => ?_)
    rw [hhas] at hx hx'
    omega
  · intro g hg g' hg' x hx hx'
    obtain ⟨c, hc, rfl⟩ := List.mem_map.mp hg'
    -- a part has no position that was covered
    exact ((mem_subtractLoop hord).mp ⟨c, hc, (hhas c x).mp hx'⟩).2 ((h.shown x).mp ⟨g, hg, hx⟩)

/-- What the loop of `resolve` has reached after the slices `done`, newest first. -/
structure Resolved (lo hi : Nat) (done : List SliceRef) (covered : List Iv) (out : List Seg) :
    Prop where
  ordered : Ordered covered
  filled : Filled covered
  covered_iff : ∀ x, Covered covered x ↔ (lo ≤ x ∧ x < hi) ∧ ∃ s ∈ done, atPos s x = true
  tiles : Tiles covered out
  sound : ∀ g ∈ out, ∀ x, g.Has x → ∃ s, done.find? (atPos · x) = some s ∧ g.From s

section

variable (h : Resolved lo hi done covered out)

include h

/-- An older slice does not change what a segment shows. -/
theorem Resolved.sound_append (s : SliceRef) (hg : g ∈ out)
    (hx : g.Has x) : ∃ s', (done ++ [s]).find? (atPos · x) = some s' ∧ g.From s' := by
  obtain ⟨s', hs', hfrom⟩ := h.sound g hg x hx
  exact ⟨s', by rw [List.find?_append, hs', Option.some_or], hfrom⟩

/-- A slice that covers nothing of the window adds nothing. -/
theorem Resolved.skip
    (hs : ∀ x, lo ≤ x → x < hi → atPos s x = false) : Resolved lo hi (done ++ [s]) covered out := by
  refine ⟨h.ordered, h.filled, fun x => ?_, h.tiles, fun g hg x hx => h.sound_append s hg hx⟩
  rw [h.covered_iff]
  refine and_congr_right fun hx => ?_
  simp [hs x hx.1 hx.2]

/-- One slice of the loop. -/
theorem Resolved.add (ha : a = max s.pos lo) (hb : b = min (s.pos + s.slen) hi) :
    Resolved lo hi (done ++ [s])
      ((subtract a b covered).foldl (fun covered g => addCovered covered g.a g.b) covered)
      (out ++ (subtract a b covered).map fun g =>
        ⟨g.a, g.b, s.sliceId, (s.soff + (g.a - s.pos)) % 2 ^ 32⟩) := by
  have hparts : ∀ c ∈ subtract a b covered, a ≤ c.a ∧ c.a < c.b := (subtractLoop_apart h.filled).1
  obtain ⟨⟨hord, hne⟩, hmem⟩ := foldl_addCovered_spec h.ordered h.filled
    fun c (hc : c ∈ subtract a b covered) => (hparts c hc).2
  have hat : ∀ x, (a ≤ x ∧ x < b) ↔ (lo ≤ x ∧ x < hi) ∧ atPos s x = true := by
    intro x
    simp only [atPos, decide_eq_true_eq]
    omega
  refine ⟨hord, hne, fun x => ?_, h.tiles.add h.ordered h.filled (fun c => ⟨rfl, rfl⟩) hmem,
    fun g hg x hx => ?_⟩
  · rw [hmem, subtract, mem_subtractLoop h.ordered, hat, h.covered_iff]
    simp only [List.mem_append, List.mem_singleton, or_and_right, exists_or, exists_eq_left]
    by_cases hwin : lo ≤ x ∧ x < hi
    · simp only [hwin, true_and]
      by_cases hdone : ∃ s, s ∈ done ∧ atPos s x = true <;> simp [hdone]
    · simp [hwin]
  · rcases List.mem_append.mp hg with hg | hg
    · exact h.sound_append s hg hx
    · obtain ⟨c, hc, rfl⟩ := List.mem_map.mp hg
      obtain ⟨hab, hnew⟩ := (mem_subtractLoop h.ordered).mp ⟨c, hc, hx⟩
      obtain ⟨hwin, hsx⟩ := (hat x).mp hab
      -- no newer slice covers the position
      have hnone : done.find? (atPos · x) = none := by
        refine List.find?_eq_none.mpr fun s' hs' hsx' => hnew ?_
        exact (h.covered_iff x).mpr ⟨hwin, s', hs', hsx'⟩
      have hpos := (hparts c hc).1
      exact ⟨s, by simp [List.find?_append, hnone, hsx], rfl, by simp only; omega, rfl⟩

end

theorem resolveLoop_spec (hfits : ∀ s ∈ slices, s.pos + s.slen < 2 ^ 32)
    (h : Resolved lo hi done covered out) :
    Resolved lo hi (done ++ slices) (resolveLoop lo hi slices (covered, out)).1
      (resolveLoop lo hi slices (covered, out)).2 := by
  induction slices generalizing done covered out with
  | nil => simpa [resolveLoop] using h
  | cons s slices ih =>
    have hrest := fun s' hs' => hfits s' (List.mem_cons_of_mem _ hs')
    have ha : (if s.pos < lo then lo else s.pos) = max s.pos lo := by split <;> omega
    have hmod : (s.pos + s.slen) % 2 ^ 32 = s.pos + s.slen :=
      Nat.mod_eq_of_lt (hfits s List.mem_cons_self)
    have hb : (if s.pos + s.slen > hi then hi else s.pos + s.slen) = min (s.pos + s.slen) hi := by
      split <;> omega
    rw [resolveLoop, show done ++ s :: slices = done ++ [s] ++ slices by simp]
    simp only [hmod, ha, hb]
    split
    case isTrue hempty =>
      refine ih hrest (h.skip fun x hx hx' => ?_)
      simp only [atPos, decide_eq_false_iff_not]
      omega
    case isFalse => exact ih hrest (h.add rfl rfl)

/-- The segments of a window: in order and apart, covering the window, each position shown by the
    newest slice that covers it, or by a hole. -/
structure Resolves (slices : List SliceRef) (lo hi : Nat) (segs : List Seg) : Prop where
  nonempty : ∀ g ∈ segs, g.start < g.stop
  sorted : segs.Pairwise fun g g' => g.stop ≤ g'.start
  cover : ∀ x, (∃ g ∈ segs, g.Has x) ↔ lo ≤ x ∧ x < hi
  shows : ∀ g ∈ segs, ∀ x, g.Has x → match Layers.top atPos slices x with
    | some s => g.From s
    | none => g.id = 0

/-- **Resolution.** -/
theorem resolve_spec (hfits : ∀ s ∈ slices, s.pos + s.slen < 2 ^ 32) (lo hi : Nat) :
    Resolves slices lo hi (resolve slices lo hi) := by
  have hstart : Resolved lo hi [] [] [] :=
    ⟨.nil, by simp [Filled], by simp, ⟨by simp, by simp, .nil⟩, by simp⟩
  have hloop := resolveLoop_spec (fun s hs => hfits s (List.mem_reverse.mp hs)) hstart
  rw [List.nil_append] at hloop
  unfold resolve
  split
  case isTrue hempty => exact ⟨by simp, .nil, by simp; omega, by simp⟩
  case isFalse =>
    dsimp only
    generalize resolveLoop lo hi slices.reverse ([], []) = r at hloop ⊢
    obtain ⟨covered, out⟩ := r
    have htiles := hloop.tiles.add (a := lo) (b := hi) (f := fun g => ⟨g.a, g.b, 0, 0⟩) hloop.ordered
      hloop.filled (fun c => ⟨rfl, rfl⟩) fun x => covered_append
    have hperm := List.perm_insertionSort (fun s t : Seg => s.start ≤ t.start)
      (out ++ (subtract lo hi covered).map fun g => ⟨g.a, g.b, 0, 0⟩)
    have hwin : ∀ x, Covered (covered ++ subtract lo hi covered) x ↔ lo ≤ x ∧ x < hi := by
      intro x
      rw [covered_append, subtract, mem_subtractLoop hloop.ordered, hloop.covered_iff]
      tauto
    refine ⟨fun g hg => htiles.nonempty g (hperm.mem_iff.mp hg), ?_, fun x => ?_, fun g hg x hx => ?_⟩
    · -- in order of their starts, two segments that are apart do not overlap
      have : Std.Total fun s t : Seg => s.start ≤ t.start := ⟨fun s t => Nat.le_total s.start t.start⟩
      have : IsTrans Seg fun s t => s.start ≤ t.start := ⟨fun _ _ _ => Nat.le_trans⟩
      have hsort := List.pairwise_insertionSort (fun s t : Seg => s.start ≤ t.start)
        (out ++ (subtract lo hi covered).map fun g => ⟨g.a, g.b, 0, 0⟩)
      have hapart := htiles.apart.perm hperm.symm fun h x hx hx' => h x hx' hx
      refine (hsort.and hapart).imp_of_mem fun {g g'} hg hg' hboth => ?_
      have hne := htiles.nonempty g' (hperm.mem_iff.mp hg')
      by_contra hover
      exact hboth.2 g'.start ⟨hboth.1, by omega⟩ ⟨Nat.le_refl _, hne⟩
    · simp only [hperm.mem_iff, htiles.shown, hwin]
    · rcases List.mem_append.mp (hperm.mem_iff.mp hg) with hg | hg
      · obtain ⟨s, hs, hfrom⟩ := hloop.sound g hg x hx
        rw [Layers.top, hs]
        exact hfrom
      · obtain ⟨c, hc, rfl⟩ := List.mem_map.mp hg
        obtain ⟨hx, hnot⟩ := (mem_subtractLoop hloop.ordered).mp ⟨c, hc, hx⟩
        have hnone : Layers.top atPos slices x = none := by
          refine List.find?_eq_none.mpr fun s hs hsx => hnot ?_
          exact (hloop.covered_iff x).mpr ⟨hx, s, hs, hsx⟩
        rw [hnone]

/-- A part of a slice shows the slice's bytes, where their offsets fit `uint32`. -/
theorem Seg.From.shows (h : g.From s) (hs : Fits s) (hx : g.Has x) (hat : atPos s x = true) :
    g.Shows s x := by
  obtain ⟨hid, hpos, hoff⟩ := h
  obtain ⟨-, hfit⟩ := hs
  obtain ⟨hx, -⟩ := hx
  simp only [atPos, decide_eq_true_eq] at hat
  refine ⟨hid, ?_⟩
  rw [hoff, Nat.mod_eq_of_lt (by omega)]
  omega

end MemoryLayer.Fileio
