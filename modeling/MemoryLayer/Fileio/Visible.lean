import MemoryLayer.Lib.Sinking
import MemoryLayer.Fileio.Resolve

namespace MemoryLayer.Fileio

open Meta Sinking

/-! # The two resolvers

The bridge has a resolver of its own (`bridge/bridgefs.go`), which sorts by swaps where the read path
calls the library.

- `resolveVisible`: the segments of a window, by the bridge.
- `resolvers_agree`: the two return the same segments, and what these show.
-/

/-- Insert an interval into a sorted, merged set. -/
def addVisible (covered : List Iv) (a b : Nat) : List Iv :=
  mergeLoop [] (sinkSort Iv.a (covered ++ [⟨a, b⟩]))

/-- The loop of `resolveVisible` over the slices, newest first. -/
def resolveVisibleLoop (lo hi : Nat) : List SliceRef → List Iv × List Seg → List Iv × List Seg
  | [], acc => acc
  | s :: slices, (covered, out) =>
    let a := if s.pos < lo then lo else s.pos
    let b := (s.pos + s.slen) % 2 ^ 32
    let b := if b > hi then hi else b
    if a ≥ b then resolveVisibleLoop lo hi slices (covered, out)
    else
      let gs := subtract a b covered
      resolveVisibleLoop lo hi slices (gs.foldl (fun covered g => addVisible covered g.a g.b) covered,
        out ++ gs.map fun g => ⟨g.a, g.b, s.sliceId, (s.soff + (g.a - s.pos)) % 2 ^ 32⟩)

/-- The visible segments of the window from `lo` up to `hi`, by the slices in write order. -/
def resolveVisible (slices : List SliceRef) (lo hi : Nat) : List Seg :=
  if lo ≥ hi then []
  else
    let (covered, out) := resolveVisibleLoop lo hi slices.reverse ([], [])
    sinkSort Seg.start (out ++ (subtract lo hi covered).map fun g => ⟨g.a, g.b, 0, 0⟩)

theorem resolveVisibleLoop_eq (lo hi : Nat) (slices : List SliceRef) (acc : List Iv × List Seg) :
    resolveVisibleLoop lo hi slices acc = resolveLoop lo hi slices acc := by
  have hadd : addVisible = addCovered := by
    funext covered a b
    rw [addVisible, sinkSort_eq, addCovered]
  induction slices generalizing acc with
  | nil => rfl
  | cons s slices ih => simp only [resolveVisibleLoop, resolveLoop, ih, hadd]

/-- The offset in the slice, in `uint32`; without a wrap, as a number. -/
theorem Seg.From.offset {g : Seg} {s : SliceRef} {x : Nat} (h : g.From s) (hx : g.Has x)
    (hat : atPos s x = true) :
    (g.srcOff + (x - g.start)) % 2 ^ 32 = (s.soff + (x - s.pos)) % 2 ^ 32 ∧
      (s.soff + s.slen ≤ 2 ^ 32 → g.srcOff + (x - g.start) = s.soff + (x - s.pos)) := by
  obtain ⟨-, hpos, hoff⟩ := h
  obtain ⟨hx, -⟩ := hx
  simp only [atPos, decide_eq_true_eq] at hat
  have hsum : s.soff + (g.start - s.pos) + (x - g.start) = s.soff + (x - s.pos) := by omega
  rw [hoff]
  refine ⟨by rw [Nat.mod_add_mod, hsum], fun hfit => ?_⟩
  rw [Nat.mod_eq_of_lt (by omega), hsum]

/-- **The resolvers agree.**  On rows whose positions fit `uint32` both return the same segments.
    These are in order and apart and cover the window.  Each position is shown by the last row that
    covers it, at the row's offset and the distance from the row's start (in `uint32`, as the code
    adds them), and by a hole exactly when no row covers it. -/
theorem resolvers_agree (slices : List SliceRef) (lo hi : Nat)
    (hslices : ∀ s ∈ slices, s.pos + s.slen < 2 ^ 32 ∧ s.sliceId ≠ 0) :
    resolveVisible slices lo hi = resolve slices lo hi ∧
      (resolve slices lo hi).Pairwise (fun g g' => g.stop ≤ g'.start) ∧
      (∀ g ∈ resolve slices lo hi, g.start < g.stop) ∧
      (∀ x, (∃ g ∈ resolve slices lo hi, g.Has x) ↔ lo ≤ x ∧ x < hi) ∧
      ∀ g ∈ resolve slices lo hi, ∀ x, g.Has x →
        match Layers.top atPos slices x with
        | none => g.id = 0
        | some s => g.id = s.sliceId ∧ g.id ≠ 0 ∧
          (g.srcOff + (x - g.start)) % 2 ^ 32 = (s.soff + (x - s.pos)) % 2 ^ 32 ∧
            (s.soff + s.slen ≤ 2 ^ 32 → g.srcOff + (x - g.start) = s.soff + (x - s.pos)) := by
  have hspec := resolve_spec (fun s hs => (hslices s hs).1) lo hi
  refine ⟨?_, hspec.sorted, hspec.nonempty, hspec.cover, fun g hg x hx => ?_⟩
  · simp only [resolveVisible, resolve, resolveVisibleLoop_eq, sinkSort_eq]
  · have hshow := hspec.shows g hg x hx
    cases htop : Layers.top atPos slices x with
    | none => simpa only [htop] using hshow
    | some s =>
      simp only [htop] at hshow
      have hid := (hslices s (Layers.top_mem htop)).2
      exact ⟨hshow.1, hshow.1 ▸ hid, hshow.offset hx (Layers.top_covers htop)⟩

/-- A row over the middle of an older one, and a hole behind them. -/
theorem resolvers_agree_overlay :
    resolveVisible [⟨2, 0, 0, 7, 8, 0, 8⟩, ⟨2, 0, 2, 8, 4, 1, 3⟩] 1 10
        = [⟨1, 2, 7, 1⟩, ⟨2, 5, 8, 1⟩, ⟨5, 8, 7, 5⟩, ⟨8, 10, 0, 0⟩] ∧
      (resolve [⟨2, 0, 0, 7, 8, 0, 8⟩, ⟨2, 0, 2, 8, 4, 1, 3⟩] 1 10).Pairwise
        fun g g' => g.stop ≤ g'.start :=
  ⟨by decide, (resolvers_agree _ 1 10 (by decide)).2.1⟩

end MemoryLayer.Fileio
