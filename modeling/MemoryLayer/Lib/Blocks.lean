import Mathlib.Data.List.Flatten
import Mathlib.Order.Basic

namespace Blocks

/-! # A numbered sequence in named blocks

A sequence whose members carry numbers is kept in blocks, one after another, and a block is named
by a number too.

- `members`: the sequence, block after block.
- `Ordered`: numbers increase inside a block from its name on, and stay below the names of the
  blocks behind it.
- `Ordered.members`: **the numbers of the whole sequence increase.**
- `Ordered.grow`, `Ordered.start`, `Ordered.sublist`: growing the last block, starting a new one and
  leaving blocks out keep the order.
-/

variable {N R : Type*}

/-- The members of the blocks, block after block. -/
def members (bs : List (N × List R)) : List R := bs.flatMap Prod.snd

@[simp] theorem members_nil : members ([] : List (N × List R)) = [] := rfl

@[simp] theorem members_cons (b : N × List R) (bs : List (N × List R)) :
    members (b :: bs) = b.2 ++ members bs := List.flatMap_cons

@[simp] theorem members_append (bs cs : List (N × List R)) :
    members (bs ++ cs) = members bs ++ members cs := List.flatMap_append

theorem mem_members {bs : List (N × List R)} {r : R} :
    r ∈ members bs ↔ ∃ b ∈ bs, r ∈ b.2 := List.mem_flatMap

theorem members_sublist {bs cs : List (N × List R)} (h : bs.Sublist cs) :
    (members bs).Sublist (members cs) := h.flatMap Prod.snd

variable [Preorder N] (num : R → N)

/-- Numbers increase inside a block from its name on, and stay below the names of the blocks behind
    it. -/
structure Ordered (bs : List (N × List R)) : Prop where
  inside : ∀ b ∈ bs, b.2.Pairwise (fun r s => num r < num s) ∧ ∀ r ∈ b.2, b.1 ≤ num r
  across : bs.Pairwise fun b c => ∀ r ∈ b.2, num r < c.1

variable {num} {bs : List (N × List R)}

theorem Ordered.nil : Ordered num ([] : List (N × List R)) :=
  ⟨nofun, List.Pairwise.nil⟩

/-- **The numbers of the whole sequence increase.** -/
theorem Ordered.members (h : Ordered num bs) :
    (members bs).Pairwise fun r s => num r < num s := by
  induction bs with
  | nil => exact List.Pairwise.nil
  | cons b bs ih =>
    rw [members_cons, List.pairwise_append]
    have htail : Ordered num bs :=
      ⟨fun c hc => h.inside c (List.mem_cons_of_mem _ hc), (List.pairwise_cons.mp h.across).2⟩
    refine ⟨(h.inside b List.mem_cons_self).1, ih htail, fun r hr s hs => ?_⟩
    -- a later block's name stands between the two numbers
    obtain ⟨c, hc, hs⟩ := mem_members.mp hs
    have hlow := (List.pairwise_cons.mp h.across).1 c hc r hr
    exact lt_of_lt_of_le hlow ((htail.inside c hc).2 s hs)

theorem Ordered.sublist {cs : List (N × List R)} (h : Ordered num bs) (hsub : cs.Sublist bs) :
    Ordered num cs :=
  ⟨fun b hb => h.inside b (hsub.subset hb), h.across.sublist hsub⟩

/-- The last block grows by a number above its name and its members. -/
theorem Ordered.grow {n : N} {rs : List R} {r : R} (h : Ordered num (bs ++ [(n, rs)]))
    (hname : n ≤ num r) (habove : ∀ s ∈ rs, num s < num r) :
    Ordered num (bs ++ [(n, rs ++ [r])]) := by
  obtain ⟨hbs, -, hcross⟩ := List.pairwise_append.mp h.across
  have hlast := h.inside (n, rs) (by simp)
  refine ⟨fun b hb => ?_, ?_⟩
  · rcases List.mem_append.mp hb with hb | hb
    · exact h.inside b (List.mem_append_left _ hb)
    · rw [List.mem_singleton.mp hb]
      refine ⟨List.pairwise_append.mpr ⟨hlast.1, List.pairwise_singleton _ _, ?_⟩, ?_⟩
      · intro s hs r' hr'
        rw [List.mem_singleton.mp hr']
        exact habove s hs
      · intro s hs
        rcases List.mem_append.mp hs with hs | hs
        · exact hlast.2 s hs
        · rw [List.mem_singleton.mp hs]
          exact hname
  · refine List.pairwise_append.mpr ⟨hbs, List.pairwise_singleton _ _, fun b hb c hc s hs => ?_⟩
    rw [List.mem_singleton.mp hc]
    exact hcross b hb (n, rs) (by simp) s hs

/-- A new block starts with a name above every member. -/
theorem Ordered.start {n : N} (h : Ordered num bs)
    (habove : ∀ r ∈ Blocks.members bs, num r < n) : Ordered num (bs ++ [(n, [])]) := by
  refine ⟨fun b hb => ?_, ?_⟩
  · rcases List.mem_append.mp hb with hb | hb
    · exact h.inside b hb
    · rw [List.mem_singleton.mp hb]
      exact ⟨List.Pairwise.nil, nofun⟩
  · refine List.pairwise_append.mpr ⟨h.across, List.pairwise_singleton _ _, fun b hb c hc r hr => ?_⟩
    rw [List.mem_singleton.mp hc]
    exact habove r (mem_members.mpr ⟨b, hb, hr⟩)

end Blocks
