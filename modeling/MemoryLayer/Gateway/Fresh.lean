import MemoryLayer.Gateway.Cell

namespace MemoryLayer.Gateway

open Calls Prog
open Local (GoString text)

/-! # Numbers of versions

Versions are numbered from a counter, so that no two versions of an object have the same number.

- `Cell.Fresh`, `Stores.Fresh`: the numbers are distinct and below the counter.
- `act_fresh`: a call keeps this, if the row it writes has such a number too.
- `versionRules`: the numbers that a program knows.
- `Sound`, `Sound.exec`: programs that write no other numbers, and what they keep.
- `Touched`: what an operation on one object keeps.
-/

variable {ε α : Type} {s s' : Stores} {x : GwProg α} {n : Nat} {c : Call}

/-- The versions have distinct numbers, and these and that of the row are below `n`. -/
structure Cell.Fresh (n : Nat) (x : Cell) : Prop where
  nodup : (x.snaps.map Snap.version).Nodup
  snaps : ∀ snap ∈ x.snaps, snap.version < n
  row : ∀ info ∈ x.row, info.version < n

/-- All numbers are below the next one. -/
structure Stores.Fresh (s : Stores) : Prop where
  pos : 0 < s.minted
  cells : ∀ domain ref, (s.cell domain ref).Fresh s.minted

theorem fresh_empty : Stores.empty.Fresh where
  pos := Nat.one_pos
  cells _ _ :=
    { nodup := List.nodup_nil
      snaps := nofun
      row := nofun }

theorem Cell.Fresh.mono {m : Nat} {x : Cell} (h : x.Fresh m) (hmn : m ≤ n) : x.Fresh n where
  nodup := h.nodup
  snaps snap hsnap := (h.snaps snap hsnap).trans_le hmn
  row info hinfo := (h.row info hinfo).trans_le hmn

/-- A new version has the next number. -/
theorem Cell.Fresh.append {x : Cell} (h : x.Fresh n) (format : GoString) (tags : Tags)
    (content : GoString) : Cell.Fresh (n + 1) ⟨x.row, x.snaps ++ [⟨n, format, tags, content⟩]⟩ where
  nodup := by
    rw [List.map_append, List.nodup_append]
    refine ⟨h.nodup, List.nodup_singleton _, fun a ha b hb heq => ?_⟩
    obtain ⟨snap, hsnap, rfl⟩ := List.mem_map.mp ha
    cases List.mem_singleton.mp hb
    exact absurd heq (h.snaps snap hsnap).ne
  snaps snap hsnap := by
    rcases List.mem_append.mp hsnap with hold | hnew
    · exact Nat.lt_succ_of_lt (h.snaps snap hold)
    · cases List.mem_singleton.mp hnew
      exact Nat.lt_succ_self n
  row info hinfo := Nat.lt_succ_of_lt (h.row info hinfo)

/-- A call changes the counter and the object that it is about. -/
theorem Stores.Fresh.of_cell (hs : s.Fresh) (domain ref : GoString)
    (hminted : s.minted ≤ s'.minted)
    (hne : ∀ domain' ref', (domain', ref') ≠ (domain, ref) → s'.cell domain' ref' = s.cell domain' ref')
    (h : (s'.cell domain ref).Fresh s'.minted) : s'.Fresh where
  pos := hs.pos.trans_le hminted
  cells domain' ref' := by
    by_cases heq : (domain', ref') = (domain, ref)
    · cases heq
      exact h
    · rw [hne _ _ heq]
      exact (hs.cells domain' ref').mono hminted

/-- The number in a row that a call writes is below `n`. -/
def Call.Below (n : Nat) : Call → Prop
  | .refPut info => info.version < n
  | _ => True

theorem act_fresh (hs : s.Fresh) (hc : c.Below s.minted) : (act s c).2.Fresh := by
  cases c with
  | newID => exact ⟨Nat.succ_pos _, fun d r => (hs.cells d r).mono (Nat.le_succ _)⟩
  | refPut info =>
    refine hs.of_cell info.domain info.ref le_rfl
      (fun d r hne => act_cell_of_ne (Within.ne (within_of_object rfl) hne)) ?_
    have hcell := hs.cells info.domain info.ref
    rw [act_refPut_cell]
    exact ⟨hcell.nodup, hcell.snaps, fun row hrow => by cases hrow; exact hc⟩
  | refDelete domain ref =>
    refine hs.of_cell domain ref le_rfl
      (fun d r hne => act_cell_of_ne (Within.ne (within_of_object rfl) hne)) ?_
    have hcell := hs.cells domain ref
    rw [act_refDelete_cell]
    exact ⟨hcell.nodup, hcell.snaps, nofun⟩
  | snapPut domain ref format tags content =>
    refine hs.of_cell domain ref (Nat.le_succ _)
      (fun d r hne => act_cell_of_ne (Within.ne (within_of_object rfl) hne)) ?_
    rw [act_snapPut_cell]
    exact (hs.cells domain ref).append format tags content
  | snapDelete domain ref version =>
    refine hs.of_cell domain ref le_rfl
      (fun d r hne => act_cell_of_ne (Within.ne (within_of_object rfl) hne)) ?_
    have hcell := hs.cells domain ref
    rw [act_snapDelete_cell]
    exact
      { nodup := hcell.nodup.sublist (List.filter_sublist.map _)
        snaps := fun snap hsnap => hcell.snaps snap (List.mem_of_mem_filter hsnap)
        row := hcell.row }
  | stageDelete stagingKey => exact ⟨hs.pos, hs.cells⟩
  | _ => exact hs

theorem serve_fresh (hs : s.Fresh) (hc : c.Below s.minted) : (serve s c).2.Fresh := by
  have htick : s.tick.Fresh := ⟨hs.pos, hs.cells⟩
  have hsettle : s.tick.settle.Fresh := ⟨hs.pos, hs.cells⟩
  unfold serve
  split
  · exact act_fresh htick hc
  · split
    · exact hsettle
    · exact act_fresh hsettle hc

/-! ### Programs -/

/-- What a program knows after a call: the numbers in answers are below the counter. -/
def learn (n : Nat) : (c : Call) → Ans c → Nat
  | .refGet .., .found info => max n (info.version + 1)
  | .snapPut .., some version => max n (version + 1)
  | _, _ => n

/-- A program writes rows with numbers that it knows of. -/
def versionRules : Rules Ans Nat where
  allows _ _ _ := True
  ok n c := c.Below n
  next := learn

/-- The counter of the stores is above all that the program knows. -/
def Knows (n : Nat) (s : Stores) : Prop := n ≤ s.minted ∧ s.Fresh

theorem minted_le_act (s : Stores) (c : Call) : s.minted ≤ (act s c).2.minted := by
  cases c <;> first | exact le_rfl | exact Nat.le_succ _

theorem minted_le_serve (s : Stores) (c : Call) : s.minted ≤ (serve s c).2.minted := by
  unfold serve
  split
  · exact minted_le_act s.tick c
  · split
    · exact le_rfl
    · exact minted_le_act s.tick.settle c

/-- The answers do not have other numbers. -/
theorem learn_le (hn : n ≤ s.minted) (hs : s.Fresh) (c : Call) :
    learn n c (serve s c).1 ≤ (serve s c).2.minted := by
  have hgrow := hn.trans (minted_le_serve s c)
  cases hfault : s.faultAt 0 with
  | true =>
    cases c with
    | refGet domain ref => rw [serve_of_fault rfl hfault]; exact hn
    | snapPut domain ref format tags content => rw [serve_of_fault rfl hfault]; exact hn
    | _ => exact hgrow
  | false =>
    cases c with
    | refGet domain ref =>
      have hact : act s.tick.settle (.refGet domain ref)
          = (.ofOption (s.row domain ref), s.tick.settle) := rfl
      rw [serve_of_spared rfl hfault, hact]
      cases hrow : s.row domain ref with
      | none => exact hn
      | some info => exact max_le hn ((hs.cells domain ref).row info hrow)
    | snapPut domain ref format tags content =>
      rw [serve_of_spared rfl hfault]
      exact max_le (hn.trans (Nat.le_succ _)) le_rfl
    | _ => exact hgrow

theorem serves_knows : Serves versionRules serve Knows := by
  rintro n s c ⟨hn, hs⟩ hok
  refine ⟨trivial, learn_le hn hs c, serve_fresh hs ?_⟩
  cases c with
  | refPut info => exact Nat.lt_of_lt_of_le hok hn
  | _ => trivial

/-- A program that writes no number but `0` and those it is answered. -/
def Sound {α : Type} (x : GwProg α) : Prop := x.Meets versionRules 1 fun _ _ => True

/-- **Distinct numbers** are kept by such programs. -/
theorem Sound.exec (hx : Sound x) (hs : s.Fresh) :
    (x.exec serve s).2.Fresh := by
  obtain ⟨n, hknows, -⟩ := Meets.exec serves_knows hx ⟨hs.pos, hs⟩
  exact hknows.2

/-- So are they by programs that write no row. -/
theorem sound_of_only (hx : x.Only fun c => ∀ n, c.Below n) : Sound x := by
  unfold Sound
  generalize 1 = n
  induction x generalizing n with
  | ret a => trivial
  | call c k ih => exact ⟨hx.1 n, fun a _ => ih a (hx.2 a) _⟩

section Operations

variable (sha256 : GoString → GoString) (domain ref : GoString)

theorem get_sound : Sound (get (ε := ε) domain ref) :=
  sound_of_only (get_only (fun _ => trivial) fun _ => trivial)

theorem head_sound : Sound (head (ε := ε) domain ref) :=
  sound_of_only (head_only (fun _ => trivial) fun _ => trivial)

theorem delete_sound : Sound (delete (ε := ε) domain ref) :=
  sound_of_only (delete_only (fun _ => trivial) (fun _ _ => trivial) fun _ => trivial)

theorem putWithMeta_sound (contentType : GoString) (userMeta : Tags) (body : Except ε GoString) :
    Sound (putWithMeta sha256 domain ref contentType userMeta body) := by
  unfold Sound putWithMeta
  split
  · trivial
  · cases body with
    | error e => trivial
    | ok content =>
      refine Meets.ask trivial fun version _ => ?_
      cases version with
      | none => trivial
      | some version =>
        refine Meets.ask trivial fun now _ => ?_
        refine Meets.ask ?_ fun stored _ => ?_
        · exact (Nat.lt_succ_self version).trans_le (le_max_right ..)
        · cases stored <;> trivial

theorem mintRefWithOptions_sound (opts : MintOptions) :
    Sound (mintRefWithOptions (ε := ε) domain ref opts) := by
  refine Meets.ask trivial fun n _ => ?_
  refine Meets.ask trivial fun presigned _ => ?_
  cases presigned with
  | false => trivial
  | true =>
    refine Meets.ask trivial fun now _ => ?_
    refine Meets.ask Nat.one_pos fun stored _ => ?_
    cases stored <;> trivial

theorem finalize_sound : Sound (finalize (ε := ε) sha256 domain ref) := by
  refine Meets.ask trivial fun row _ => ?_
  cases row with
  | failed => trivial
  | absent => trivial
  | found info =>
    dsimp only
    split
    · trivial
    split
    · trivial
    refine Meets.ask trivial fun staged _ => ?_
    cases staged with
    | none => trivial
    | some content =>
      refine Meets.ask trivial fun version _ => ?_
      cases version with
      | none => trivial
      | some version =>
        dsimp only
        split
        · refine Meets.ask trivial fun now _ => ?_
          refine Meets.ask ?_ fun stored _ => ?_
          · exact (Nat.lt_succ_self version).trans_le (le_max_right ..)
          · cases stored with
            | false => trivial
            | true => exact Meets.ask trivial fun _ _ => trivial
        · refine Meets.ask trivial fun _ _ => ?_
          exact Meets.ask trivial fun _ _ => trivial

end Operations

/-! ### Operations on one object -/

/-- The objects under other refs are as they were, and the numbers are still distinct. -/
structure Touched (domain ref : GoString) (s s' : Stores) : Prop where
  fresh : s'.Fresh
  others : ∀ d r, (d, r) ≠ (domain, ref) → s'.cell d r = s.cell d r

theorem Touched.of_exec {a : α} {domain ref : GoString}
    (hsound : Sound x) (hwithin : x.Only (Within domain ref)) (hs : s.Fresh)
    (hexec : x.exec serve s = (a, s')) : Touched domain ref s s' := by
  have hfresh := hsound.exec hs
  rw [hexec] at hfresh
  refine ⟨hfresh, fun d r hne => ?_⟩
  rw [← cell_exec_of_only (hwithin.mono fun _ h => h.ne hne) s, hexec]

end MemoryLayer.Gateway
