import Mathlib.Data.List.Sort
import MemoryLayer.Lib.Runs

namespace MemoryLayer.Coord

open Runs

/-! # The change feed

The tail of the change log (`appendChangelog` and `ScanChangelog` of `meta/engine.go`, and
`RunPublisher` of `coord/changefeed.go`).  A row gets its number when it is inserted and is seen when
its transaction commits; the publisher polls with a cursor.

- `Changelog`: the committed rows, and those of transactions that did not end.
- `scanChangelog`: the rows behind a cursor.
- `Publisher`: the loop of the leader, one row of a query at a time.
- `InOrder`: a query starts while no row below one that it sees is uncommitted.
- `published_once`: **then every row that commits after the first scan is published once, at the
  latest by the next complete scan.**
- `overtaken_row_is_skipped`: without that, a row is skipped for good.
-/

/-! ### The log -/

/-- A row of `fs_changelog`. -/
structure ChangeEntry where
  lsn : Nat
  ino : Nat
  op : Nat
  payload : String
  ts : Nat
  deriving DecidableEq, Repr

/-- The table: the next serial number, the rows of transactions that did not end, and the committed
    rows. -/
structure Changelog where
  nextLsn : Nat
  held : List (Nat × ChangeEntry)
  rows : List ChangeEntry
  deriving DecidableEq, Repr

namespace Changelog

/-- Insert a row in a transaction. -/
def appendChangelog (l : Changelog) (tx ino op : Nat) (payload : String) (ts : Nat) : Changelog :=
  { l with nextLsn := l.nextLsn + 1, held := l.held ++ [(tx, ⟨l.nextLsn, ino, op, payload, ts⟩)] }

/-- The rows of a transaction. -/
def heldBy (l : Changelog) (tx : Nat) : List ChangeEntry :=
  (l.held.filter fun p => p.1 = tx).map Prod.snd

/-- Commit a transaction. -/
def commit (l : Changelog) (tx : Nat) : Changelog :=
  { l with held := l.held.filter fun p => p.1 ≠ tx, rows := l.rows ++ l.heldBy tx }

/-- Roll a transaction back; its numbers are not given out again. -/
def rollback (l : Changelog) (tx : Nat) : Changelog :=
  { l with held := l.held.filter fun p => p.1 ≠ tx }

/-- The committed rows behind a cursor, by number. -/
def scanChangelog (l : Changelog) (after : Nat) : List ChangeEntry :=
  (l.rows.filter fun r => after < r.lsn).insertionSort fun r s => r.lsn ≤ s.lsn

end Changelog

/-! ### The publisher -/

/-- What is sent for a row. -/
structure ChangeMsg where
  lsn : Nat
  ino : Nat
  op : Nat
  payload : String
  deriving DecidableEq, Repr

/-- The message of a row. -/
def ChangeEntry.msg (r : ChangeEntry) : ChangeMsg := ⟨r.lsn, r.ino, r.op, r.payload⟩

/-- The loop of the leader: whether the first scan is over, the rows of a running query that were
    not handed out yet, the cursor, and what was published. -/
structure Publisher where
  booted : Bool
  query : Option (List ChangeEntry)
  lastLSN : Nat
  published : List ChangeMsg
  deriving DecidableEq, Repr

namespace Publisher

/-- The rows that a running query still hands out. -/
def pending (p : Publisher) : List ChangeEntry := p.query.getD []

/-- Start a query. -/
def start (p : Publisher) (l : Changelog) : Publisher :=
  match p.query with
  | none => { p with query := some (l.scanChangelog p.lastLSN) }
  | some _ => p

/-- Handle one row of a query: the first scan only moves the cursor. -/
def row (p : Publisher) : Publisher :=
  match p.query with
  | some (r :: rs) =>
    { p with
      query := some rs
      lastLSN := if r.lsn > p.lastLSN then r.lsn else p.lastLSN
      published := if p.booted then p.published ++ [r.msg] else p.published }
  | _ => p

/-- The query ends, after its last row or with an error before. -/
def finish (p : Publisher) : Publisher :=
  match p.query with
  | some _ => { p with query := none, booted := true }
  | none => p

end Publisher

/-! ### Histories -/

/-- The log and its publisher, with the rows that committed after the first query started, and those
    among them that the last query had to see. -/
structure Feed where
  log : Changelog
  pub : Publisher
  late : List ChangeEntry
  due : List ChangeEntry
  deriving DecidableEq, Repr

/-- A step of a transaction or of the publisher. -/
inductive FeedEvent where
  | append (tx ino op : Nat) (payload : String) (ts : Nat)
  | commit (tx : Nat)
  | rollback (tx : Nat)
  | query
  | row
  | finish
  deriving DecidableEq, Repr

namespace Feed

/-- An empty table, and a publisher that did not scan yet. -/
def start : Feed := ⟨⟨1, [], []⟩, ⟨false, none, 0, []⟩, [], []⟩

/-- The first query was started. -/
def watching (w : Feed) : Bool := w.pub.booted || w.pub.query.isSome

/-- The feed after a step. -/
def step (w : Feed) : FeedEvent → Feed
  | .append tx ino op payload ts => { w with log := w.log.appendChangelog tx ino op payload ts }
  | .commit tx =>
    { w with
      log := w.log.commit tx
      late := if w.watching then w.late ++ w.log.heldBy tx else w.late }
  | .rollback tx => { w with log := w.log.rollback tx }
  | .query =>
    { w with
      pub := w.pub.start w.log
      due := if w.pub.query.isSome then w.due else w.late }
  | .row => { w with pub := w.pub.row }
  | .finish => { w with pub := w.pub.finish }

end Feed

/-- No query starts while a row is uncommitted whose number is below one that the query sees. -/
def InOrder (w : Feed) : FeedEvent → Prop
  | .query => ∀ p ∈ w.log.held, ∀ q ∈ w.log.rows, w.pub.lastLSN < q.lsn → q.lsn < p.2.lsn
  | _ => True

instance (w : Feed) : (ev : FeedEvent) → Decidable (InOrder w ev)
  | .query => inferInstanceAs (Decidable (∀ p ∈ w.log.held, ∀ q ∈ w.log.rows,
      w.pub.lastLSN < q.lsn → q.lsn < p.2.lsn))
  | .append .. | .commit _ | .rollback _ | .row | .finish => inferInstanceAs (Decidable True)

/-! ### What every history keeps -/

/-- Numbers are given out once, and in order. -/
structure Numbered (l : Changelog) : Prop where
  below : ∀ r ∈ l.rows ++ l.held.map Prod.snd, 0 < r.lsn ∧ r.lsn < l.nextLsn
  distinct : (l.rows ++ l.held.map Prod.snd).Pairwise fun r s => r.lsn ≠ s.lsn
  next : 0 < l.nextLsn

/-- The cursor overtakes no uncommitted row, and what it passed was published. -/
structure Tracked (w : Feed) : Prop where
  numbered : Numbered w.log
  cursor : w.pub.lastLSN < w.log.nextLsn
  held : ∀ p ∈ w.log.held, w.pub.lastLSN < p.2.lsn ∧ ∀ q ∈ w.pub.pending, q.lsn < p.2.lsn
  sorted : w.pub.pending.Pairwise fun q r => q.lsn < r.lsn
  pending : ∀ q ∈ w.pub.pending, w.pub.lastLSN < q.lsn ∧ q ∈ w.log.rows
  unseen : ∀ r ∈ w.log.rows, w.pub.lastLSN < r.lsn →
    r ∈ w.pub.pending ∨ ∀ q ∈ w.pub.pending, q.lsn < r.lsn
  idle : w.watching = false → w.late = []
  late : ∀ r ∈ w.late, r ∈ w.log.rows
  first : w.pub.booted = false → w.pub.published = [] ∧
    ∀ r ∈ w.late, w.pub.lastLSN < r.lsn ∧ ∀ q ∈ w.pub.pending, q.lsn < r.lsn
  passed : ∀ m ∈ w.pub.published, m.lsn ≤ w.pub.lastLSN
  once : ∀ r ∈ w.late, r.lsn ≤ w.pub.lastLSN → w.pub.published.count r.msg = 1
  due : w.pub.booted = true → ∀ rs, w.pub.query = some rs →
    ∀ r ∈ w.due, r ∈ w.late ∧ (r.lsn ≤ w.pub.lastLSN ∨ r ∈ rs)

/-! ### Transactions -/

variable {l : Changelog}

theorem Numbered.append (h : Numbered l) (tx ino op : Nat) (payload : String)
    (ts : Nat) : Numbered (l.appendChangelog tx ino op payload ts) := by
  have hrows : (l.appendChangelog tx ino op payload ts).rows
      ++ (l.appendChangelog tx ino op payload ts).held.map Prod.snd
      = (l.rows ++ l.held.map Prod.snd) ++ [⟨l.nextLsn, ino, op, payload, ts⟩] := by
    simp [Changelog.appendChangelog]
  constructor
  · intro r hr
    show 0 < r.lsn ∧ r.lsn < l.nextLsn + 1
    rw [hrows] at hr
    rcases List.mem_append.mp hr with hr | hr
    · exact ⟨(h.below r hr).1, Nat.lt_succ_of_lt (h.below r hr).2⟩
    · rw [List.mem_singleton.mp hr]
      exact ⟨h.next, Nat.lt_succ_self _⟩
  · rw [hrows]
    refine List.pairwise_append.mpr ⟨h.distinct, List.pairwise_singleton _ _, fun r hr s hs => ?_⟩
    rw [List.mem_singleton.mp hs]
    exact Nat.ne_of_lt (h.below r hr).2
  · exact Nat.succ_pos _

theorem mem_heldBy {tx : Nat} {r : ChangeEntry} :
    r ∈ l.heldBy tx ↔ ∃ p ∈ l.held, p.1 = tx ∧ p.2 = r := by
  simp [Changelog.heldBy, and_assoc]

theorem Numbered.commit (h : Numbered l) (tx : Nat) : Numbered (l.commit tx) := by
  -- the rows of the transaction only change sides
  have hperm : ((l.commit tx).rows ++ (l.commit tx).held.map Prod.snd).Perm
      (l.rows ++ l.held.map Prod.snd) := by
    rw [Changelog.commit, Changelog.heldBy, List.append_assoc, ← List.map_append]
    refine List.Perm.append_left _ (List.Perm.map _ ?_)
    simpa using List.filter_append_perm (fun p : Nat × ChangeEntry => decide (p.1 = tx)) l.held
  exact ⟨fun r hr => h.below r (hperm.subset hr), (hperm.pairwise_iff Ne.symm).mpr h.distinct, h.next⟩

theorem Numbered.rollback (h : Numbered l) (tx : Nat) :
    Numbered (l.rollback tx) := by
  have hsub : (l.rows ++ (l.rollback tx).held.map Prod.snd).Sublist
      (l.rows ++ l.held.map Prod.snd) :=
    (List.Sublist.refl _).append (List.filter_sublist.map _)
  exact ⟨fun r hr => h.below r (hsub.subset hr), h.distinct.sublist hsub, h.next⟩

variable {w : Feed}

theorem Tracked.append (h : Tracked w) (tx ino op : Nat) (payload : String) (ts : Nat) :
    Tracked (w.step (.append tx ino op payload ts)) := by
  refine { h with
    numbered := h.numbered.append tx ino op payload ts
    cursor := Nat.lt_succ_of_lt h.cursor
    held := fun p hp => ?_ }
  rcases List.mem_append.mp hp with hp | hp
  · exact h.held p hp
  · rw [List.mem_singleton.mp hp]
    refine ⟨h.cursor, fun q hq => ?_⟩
    exact (h.numbered.below q (List.mem_append_left _ (h.pending q hq).2)).2

theorem Tracked.commit (h : Tracked w) (tx : Nat) : Tracked (w.step (.commit tx)) := by
  have hnew : ∀ r ∈ w.log.heldBy tx, w.pub.lastLSN < r.lsn ∧ ∀ q ∈ w.pub.pending, q.lsn < r.lsn := by
    intro r hr
    obtain ⟨p, hp, -, rfl⟩ := mem_heldBy.mp hr
    exact h.held p hp
  have hlate : ∀ r ∈ (w.step (.commit tx)).late, r ∈ w.late ∨ r ∈ w.log.heldBy tx := by
    intro r hr
    simp only [Feed.step] at hr
    split at hr
    · exact List.mem_append.mp hr
    · exact .inl hr
  have hkept : ∀ r ∈ w.late, r ∈ (w.step (.commit tx)).late := by
    intro r hr
    simp only [Feed.step]
    split
    · exact List.mem_append_left _ hr
    · exact hr
  refine { h with
    numbered := h.numbered.commit tx
    held := fun p hp => h.held p (List.mem_of_mem_filter hp)
    pending := fun q hq => ⟨(h.pending q hq).1, List.mem_append_left _ (h.pending q hq).2⟩
    unseen := fun r hr hlt => ?_
    idle := fun hidle => ?_
    late := fun r hr => ?_
    first := fun hfirst => ⟨(h.first hfirst).1, fun r hr => ?_⟩
    once := fun r hr hle => ?_
    due := fun hbooted rs hrs r hr => ?_ }
  · rcases List.mem_append.mp hr with hr | hr
    · exact h.unseen r hr hlt
    · exact .inr (hnew r hr).2
  · have hwatch : w.watching = false := hidle
    simp only [Feed.step, hwatch]
    exact h.idle hwatch
  · rcases hlate r hr with hr | hr
    · exact List.mem_append_left _ (h.late r hr)
    · exact List.mem_append_right _ hr
  · rcases hlate r hr with hr | hr
    · exact (h.first hfirst).2 r hr
    · exact hnew r hr
  · rcases hlate r hr with hr | hr
    · exact h.once r hr hle
    · exact absurd hle (Nat.not_le.mpr (hnew r hr).1)
  · obtain ⟨hr, hor⟩ := h.due hbooted rs hrs r hr
    exact ⟨hkept r hr, hor⟩

theorem Tracked.rollback (h : Tracked w) (tx : Nat) :
    Tracked (w.step (.rollback tx)) :=
  { h with
    numbered := h.numbered.rollback tx
    held := fun p hp => h.held p (List.mem_of_mem_filter hp) }

/-! ### The publisher's steps -/

/-- A scan hands out the rows behind the cursor in the order of their numbers. -/
theorem scanChangelog_spec (h : Numbered l) (after : Nat) :
    (l.scanChangelog after).Pairwise (fun q r => q.lsn < r.lsn) ∧
      ∀ r, r ∈ l.scanChangelog after ↔ r ∈ l.rows ∧ after < r.lsn := by
  let le : ChangeEntry → ChangeEntry → Prop := fun r s => r.lsn ≤ s.lsn
  have htotal : Std.Total le := ⟨fun r s => Nat.le_total r.lsn s.lsn⟩
  have htrans : IsTrans ChangeEntry le := ⟨fun _ _ _ => Nat.le_trans⟩
  have hperm : (l.scanChangelog after).Perm (l.rows.filter fun r => after < r.lsn) :=
    List.perm_insertionSort le _
  refine ⟨?_, fun r => by rw [hperm.mem_iff, List.mem_filter, decide_eq_true_eq]⟩
  have hle : (l.scanChangelog after).Pairwise le := List.pairwise_insertionSort le _
  have hne : (l.scanChangelog after).Pairwise fun r s => r.lsn ≠ s.lsn := by
    refine (hperm.pairwise_iff Ne.symm).mpr (h.distinct.sublist ?_)
    exact List.filter_sublist.trans (List.sublist_append_left _ _)
  exact (hle.and hne).imp fun hboth => Nat.lt_of_le_of_ne hboth.1 hboth.2

theorem Tracked.query (h : Tracked w) (hin : InOrder w .query) :
    Tracked (w.step .query) := by
  cases hq : w.pub.query with
  | some rs =>
    have hsame : w.step .query = w := by
      simp only [Feed.step, Publisher.start, hq, Option.isSome_some, if_true]
    rw [hsame]
    exact h
  | none =>
    obtain ⟨hsorted, hmem⟩ := scanChangelog_spec h.numbered w.pub.lastLSN
    have hstep : w.step .query = { w with
        pub := { w.pub with query := some (w.log.scanChangelog w.pub.lastLSN) }, due := w.late } := by
      simp only [Feed.step, Publisher.start, hq]
      rfl
    rw [hstep]
    refine { h with
      held := fun p hp => ⟨(h.held p hp).1, fun q hq' => ?_⟩
      sorted := hsorted
      pending := fun q hq' => ((hmem q).mp hq').symm
      unseen := fun r hr hlt => .inl ((hmem r).mpr ⟨hr, hlt⟩)
      idle := fun hidle => ?_
      first := fun hfirst => ⟨(h.first hfirst).1, fun r hr => ?_⟩
      due := fun _ rs hrs r hr => ⟨hr, ?_⟩ }
    · obtain ⟨hrow, hlt⟩ := (hmem q).mp hq'
      exact hin p hp q hrow hlt
    · simp [Feed.watching] at hidle
    · -- before the first query nothing is late
      have hnone : w.late = [] := h.idle (by
        show (w.pub.booted || w.pub.query.isSome) = false
        have hbooted : w.pub.booted = false := hfirst
        rw [hbooted, hq]
        rfl)
      have hr' : r ∈ w.late := hr
      rw [hnone] at hr'
      cases hr'
    · obtain rfl := Option.some.inj hrs
      by_cases hle : r.lsn ≤ w.pub.lastLSN
      · exact .inl hle
      · exact .inr ((hmem r).mpr ⟨h.late r hr, Nat.lt_of_not_le hle⟩)

theorem Tracked.finish (h : Tracked w) : Tracked (w.step .finish) := by
  cases hq : w.pub.query with
  | none =>
    have hsame : w.step .finish = w := by
      simp only [Feed.step, Publisher.finish, hq]
    rw [hsame]
    exact h
  | some rs =>
    have hstep : w.step .finish = { w with pub := { w.pub with query := none, booted := true } } := by
      simp only [Feed.step, Publisher.finish, hq]
    rw [hstep]
    exact { h with
      held := fun p hp => ⟨(h.held p hp).1, nofun⟩
      sorted := List.Pairwise.nil
      pending := nofun
      unseen := fun r hr hlt => .inr nofun
      idle := nofun
      first := nofun
      due := nofun }

theorem Tracked.row (h : Tracked w) : Tracked (w.step .row) := by
  cases hq : w.pub.query with
  | none =>
    have hsame : w.step .row = w := by
      simp only [Feed.step, Publisher.row, hq]
    rw [hsame]
    exact h
  | some rs =>
    cases rs with
    | nil =>
      have hsame : w.step .row = w := by
        simp only [Feed.step, Publisher.row, hq]
      rw [hsame]
      exact h
    | cons r rs =>
      have hpending : w.pub.pending = r :: rs := by rw [Publisher.pending, hq, Option.getD_some]
      have hsorted := h.sorted
      have hbehind := h.pending
      have hheld := h.held
      have hunseen := h.unseen
      have hfirst := h.first
      rw [hpending] at hsorted hbehind hheld hunseen hfirst
      obtain ⟨hlt, hrow⟩ := hbehind r List.mem_cons_self
      obtain ⟨habove, htail⟩ := List.pairwise_cons.mp hsorted
      have hstep : w.step .row = { w with
          pub := { w.pub with
            query := some rs, lastLSN := r.lsn,
            published := if w.pub.booted then w.pub.published ++ [r.msg] else w.pub.published } } := by
        simp only [Feed.step, Publisher.row, hq]
        rw [if_pos hlt]
      rw [hstep]
      refine { h with
        cursor := (h.numbered.below r (List.mem_append_left _ hrow)).2
        held := fun p hp => ⟨(hheld p hp).2 r List.mem_cons_self,
          fun q hq' => (hheld p hp).2 q (List.mem_cons_of_mem _ hq')⟩
        sorted := htail
        pending := fun q hq' => ⟨habove q hq', (hbehind q (List.mem_cons_of_mem _ hq')).2⟩
        unseen := fun s hs hlt' => ?_
        idle := fun hidle => ?_
        first := fun hboot => ?_
        passed := fun m hm => ?_
        once := fun s hs hle => ?_
        due := fun hbooted rs' hrs s hs => ?_ }
      · have hlt' : r.lsn < s.lsn := hlt'
        rcases hunseen s hs (Nat.lt_trans hlt hlt') with hs' | hs'
        · rcases List.mem_cons.mp hs' with rfl | hs'
          · exact absurd hlt' (Nat.lt_irrefl _)
          · exact .inl hs'
        · exact .inr fun q hq' => hs' q (List.mem_cons_of_mem _ hq')
      · simp [Feed.watching] at hidle
      · have hboot' : w.pub.booted = false := hboot
        obtain ⟨hnone, hlate⟩ := hfirst hboot'
        refine ⟨by simp [hboot', hnone], fun s hs => ⟨(hlate s hs).2 r List.mem_cons_self, ?_⟩⟩
        exact fun q hq' => (hlate s hs).2 q (List.mem_cons_of_mem _ hq')
      · have hm' : m ∈ w.pub.published ∨ m = r.msg := by
          simp only at hm
          split at hm
          · simpa using hm
          · exact .inl hm
        rcases hm' with hm' | rfl
        · exact Nat.le_trans (h.passed m hm') (Nat.le_of_lt hlt)
        · exact Nat.le_refl _
      · -- the first scan passes no late row, and a later one publishes the row it passes
        have hle' : s.lsn ≤ r.lsn := hle
        cases hboot : w.pub.booted with
        | false =>
          exact absurd hle' (Nat.not_le.mpr (((hfirst hboot).2 s hs).2 r List.mem_cons_self))
        | true =>
          simp only [if_true]
          rw [List.count_append]
          by_cases hold : s.lsn ≤ w.pub.lastLSN
          · have hne : s.msg ≠ r.msg := by
              intro heq
              have hlsn : s.lsn = r.lsn := congrArg ChangeMsg.lsn heq
              omega
            rw [h.once s hs hold, List.count_singleton, if_neg (by simpa using Ne.symm hne)]
          · have heq : s = r := by
              rcases hunseen s (h.late s hs) (Nat.lt_of_not_le hold) with hs' | hs'
              · rcases List.mem_cons.mp hs' with hs' | hs'
                · exact hs'
                · exact absurd hle' (Nat.not_le.mpr (habove s hs'))
              · exact absurd hle' (Nat.not_le.mpr (hs' r List.mem_cons_self))
            have hnew : w.pub.published.count s.msg = 0 := by
              rw [List.count_eq_zero]
              intro hm
              exact hold (h.passed _ hm)
            rw [hnew, heq]
            simp
      · obtain rfl := Option.some.inj hrs
        obtain ⟨hs', hor⟩ := h.due hbooted _ hq s hs
        refine ⟨hs', ?_⟩
        rcases hor with hle | hmem
        · exact .inl (Nat.le_trans hle (Nat.le_of_lt hlt))
        · rcases List.mem_cons.mp hmem with rfl | hmem
          · exact .inl (Nat.le_refl _)
          · exact .inr hmem

theorem Tracked.step (ev : FeedEvent) (h : Tracked w) (hin : InOrder w ev) :
    Tracked (w.step ev) := by
  cases ev with
  | append tx ino op payload ts => exact h.append tx ino op payload ts
  | commit tx => exact h.commit tx
  | rollback tx => exact h.rollback tx
  | query => exact h.query hin
  | row => exact h.row
  | finish => exact h.finish

theorem tracked_start : Tracked Feed.start where
  numbered := ⟨nofun, List.Pairwise.nil, Nat.one_pos⟩
  cursor := Nat.one_pos
  held p hp := by cases hp
  sorted := List.Pairwise.nil
  pending q hq := by cases hq
  unseen r hr := by cases hr
  idle _ := rfl
  late r hr := by cases hr
  first _ := ⟨rfl, nofun⟩
  passed m hm := by cases hm
  once r hr := by cases hr
  due _ rs hrs := by cases hrs

/-! ### The results -/

/-- **Every late row is published once.**  In every history whose queries start in order, a row
    that committed after the first query started was published exactly once when the cursor is at
    it or beyond, and a complete scan leaves none unpublished that committed before the scan. -/
theorem published_once (evs : List FeedEvent) (hin : Guarded Feed.step InOrder Feed.start evs) :
    let w := run Feed.step Feed.start evs
    (∀ r ∈ w.late, r.lsn ≤ w.pub.lastLSN → w.pub.published.count r.msg = 1) ∧
      (w.pub.booted = true → w.pub.query = some [] →
        ∀ r ∈ w.due, r ∈ w.late ∧ w.pub.published.count r.msg = 1) := by
  intro w
  have htracked : Tracked w :=
    invariant_of_guarded Tracked (fun w ev h hev => h.step ev hev) tracked_start hin
  refine ⟨htracked.once, fun hbooted hquery r hr => ?_⟩
  obtain ⟨hlate, hle | hmem⟩ := htracked.due hbooted [] hquery r hr
  · exact ⟨hlate, htracked.once r hlate hle⟩
  · cases hmem

/-- Two rows whose transactions commit in the order of their numbers, and one that is rolled back
    between them. -/
theorem published_once_in_order :
    let w := run Feed.step Feed.start [.query, .finish, .append 1 2 1 "" 5, .append 2 3 1 "" 6,
      .append 3 4 1 "" 7, .commit 1, .rollback 2, .query, .row, .commit 3, .finish, .query, .row]
    w.due.map ChangeEntry.lsn = [1, 3] ∧
      ∀ r ∈ w.due, r ∈ w.late ∧ w.pub.published.count r.msg = 1 :=
  ⟨by decide, (published_once _ (by decide)).2 (by decide) (by decide)⟩

/-- **A row that is overtaken is skipped.**  The second row commits before the first; the scan that
    publishes it moves the cursor past the first, which no later scan sees. -/
theorem overtaken_row_is_skipped :
    let w := run Feed.step Feed.start [.query, .finish, .append 1 2 1 "" 5, .append 2 3 1 "" 6,
      .commit 2, .query, .row, .finish, .commit 1, .query]
    w.late.map ChangeEntry.lsn = [2, 1] ∧ w.pub.lastLSN = 2 ∧ w.pub.query = some [] ∧
      w.pub.published.map ChangeMsg.lsn = [2] := by
  decide

end MemoryLayer.Coord
