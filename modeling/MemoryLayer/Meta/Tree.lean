import MemoryLayer.Meta.Namespace

namespace MemoryLayer.Meta

open Forest

/-! # The directory tree

The changes of the namespace as operations, and when they keep it a tree.

* `Op`, `Op.apply` — an operation on the namespace;
* `Op.Ok` — when the operation applies: its entries are there, its parents are directories;
* `Op.Upward` — it moves no directory to a place at or below itself;
* `Tree` — the namespace is consistent and following parents ends;
* `Tree.reaches` — in a tree, every directory leads to the root;
* `Tree.apply`, `Tree.not_reaches` — an operation keeps a tree when it is upward, and cuts a
  directory off from the root when it is not.
-/

namespace Namespace

/-- The operations.  A move may replace an entry, with or without its inode. -/
inductive Op where
  | idle
  | create (i p : Ino) (n : String) (t : FileType)
  | link (i p : Ino) (n : String) (t : FileType)
  | unlink (d : Edge) (gone : Bool)
  | move (src : Edge) (p : Ino) (n : String)
  | replace (src dst : Edge) (gone : Bool)
  | exchange (src dst : Edge)

/-- The namespace after an operation. -/
def Op.apply (ns : Namespace) : Op → Namespace
  | .idle => ns
  | .create i p n t => ns.create i p n t
  | .link i p n t => ns.link i p n t
  | .unlink d gone => ns.unlink d gone
  | .move src p n => ns.move src p n
  | .replace src dst gone => (ns.unlink dst gone).move src dst.parent dst.name
  | .exchange src dst => ns.exchange src dst

/-- An entry may be removed: with its inode when that is its last entry and nothing is in it,
    alone when it is no directory. -/
def Removable (ns : Namespace) (d : Edge) (gone : Bool) : Prop :=
  ns.entry d.key = some d ∧
    if gone then ns.links d.inode = 1 ∧ ∀ d' ∈ ns.entries, d'.parent ≠ d.inode
    else d.type ≠ .directory

/-- The operation applies. -/
def Op.Ok (ns : Namespace) : Op → Prop
  | .idle => True
  | .create i p n _ => ns.IsDir p ∧ ns.entry (p, n) = none ∧ ns.node i = none
  | .link i p n t => ns.IsDir p ∧ ns.entry (p, n) = none ∧ t ≠ .directory ∧
      ∃ s, ns.node i = some s ∧ s.type = t
  | .unlink d gone => ns.Removable d gone
  | .move src p n => ns.entry src.key = some src ∧ ns.entry (p, n) = none ∧ ns.IsDir p
  | .replace src dst gone => ns.entry src.key = some src ∧ ns.Removable dst gone ∧
      src.inode ≠ dst.inode
  | .exchange src dst => ns.entry src.key = some src ∧ ns.entry dst.key = some dst ∧
      src.inode ≠ dst.inode

/-- No directory is moved to a place at or below itself. -/
def Op.Upward (ns : Namespace) : Op → Prop
  | .move src p _ => src.type = .directory → ¬ Above ns.up p src.inode
  | .replace src dst _ => src.type = .directory → ¬ Above ns.up dst.parent src.inode
  | .exchange src dst => (src.type = .directory → ¬ Above ns.up dst.parent src.inode) ∧
      (dst.type = .directory → ¬ Above ns.up src.parent dst.inode)
  | _ => True

/-! ### Consistency -/

variable {ns : Namespace} {gone : Bool}

variable {d src dst : Edge}

theorem unlink_consistent (h : ns.Consistent) (hd : ns.Removable d gone) :
    (ns.unlink d gone).Consistent := by
  obtain ⟨hentry, hrest⟩ := hd
  cases gone with
  | true => exact unlink_gone_consistent h hentry hrest.1 hrest.2
  | false => exact unlink_stays_consistent h hentry hrest

/-- Entries of different inodes have different keys. -/
theorem key_ne (hsrc : ns.entry src.key = some src)
    (hdst : ns.entry dst.key = some dst) (hne : src.inode ≠ dst.inode) : src.key ≠ dst.key := by
  intro heq
  rw [heq, hdst] at hsrc
  exact hne (congrArg Edge.inode (Option.some.inj hsrc)).symm

/-- Other entries stay when one is removed. -/
theorem entry_unlink {k : Ino × String} :
    (ns.unlink d gone).entry k = if k = d.key then none else ns.entry k := by
  have hrem : (ns.remove d.key).entry k = if k = d.key then none else ns.entry k :=
    Sql.find?_filter_key Edge.key ns.entries d.key k
  cases gone with
  | true => exact hrem
  | false => exact hrem

/-- The directory of a removed entry stays. -/
theorem isDir_unlink (h : ns.Consistent) (hd : ns.Removable d gone) :
    (ns.unlink d gone).IsDir d.parent := by
  obtain ⟨hentry, hrest⟩ := hd
  have hmem := entry_mem hentry
  cases gone with
  | true =>
    have hne : d.parent ≠ d.inode := hrest.2 d hmem
    exact (Keeps.of_eq (by simp [unlink, hne])).isDir (h.parents d hmem)
  | false => exact (Keeps.addLinks rfl).isDir (h.parents d hmem)

/-- **Every operation that applies keeps the namespace consistent.** -/
theorem Consistent.apply (h : ns.Consistent) {op : Op} (hop : op.Ok ns) :
    (op.apply ns).Consistent := by
  cases op with
  | idle => exact h
  | create i p n t => exact create_consistent h hop.1 hop.2.1 hop.2.2
  | link i p n t =>
    obtain ⟨hp, hfree, hfile, s, hs, rfl⟩ := hop
    exact link_consistent h hp hfree hs hfile
  | unlink d gone => exact unlink_consistent h hop
  | move src p n => exact move_consistent h hop.1 hop.2.1 hop.2.2
  | replace src dst gone =>
    obtain ⟨hsrc, hdst, hne⟩ := hop
    refine move_consistent (unlink_consistent h hdst) ?_ ?_ (isDir_unlink h hdst)
    · rw [entry_unlink, if_neg (key_ne hsrc hdst.1 hne)]
      exact hsrc
    · rw [entry_unlink]
      exact if_pos rfl
  | exchange src dst => exact exchange_consistent h hop.1 hop.2.1 hop.2.2

/-! ### Parent pointers after an operation -/

section Up

variable {i p : Ino} {n : String} {t : FileType} {s : Shape}

theorem up_put : (ns.put i s).up = Function.update ns.up i (some s.parent) := by
  funext j
  by_cases hj : j = i
  · simp [up, hj]
  · simp [up, hj]

theorem up_drop : (ns.drop i).up = Function.update ns.up i none := by
  funext j
  by_cases hj : j = i
  · simp [up, hj]
  · simp [up, hj]

theorem up_addLinks (d : Int) : (ns.modify i (Shape.addLinks d)).up = ns.up := by
  funext j
  by_cases hj : j = i
  · cases hn : ns.node i with
    | none => simp [up, hj, hn]
    | some s => simp [up, hj, hn]
  · simp [up, hj]

theorem up_setParent (hs : ns.node i = some s) :
    (ns.modify i fun s => { s with parent := p }).up = Function.update ns.up i (some p) := by
  funext j
  by_cases hj : j = i
  · simp [up, hj, hs]
  · simp [up, hj]

theorem up_create : (ns.create i p n t).up = Function.update ns.up i (some p) := up_put

theorem up_link : (ns.link i p n t).up = ns.up := up_addLinks 1

theorem up_unlink (d : Edge) (gone : Bool) : (ns.unlink d gone).up
    = if gone then Function.update ns.up d.inode none else ns.up := by
  cases gone with
  | true => exact up_drop
  | false => exact up_addLinks (-1)

theorem up_move (hs : ns.node src.inode = some s) :
    (ns.move src p n).up = Function.update ns.up src.inode (some p) := up_setParent hs

theorem up_exchange {s' : Shape} (hs : ns.node src.inode = some s)
    (hs' : ns.node dst.inode = some s') (hne : src.inode ≠ dst.inode) :
    (ns.exchange src dst).up = Function.update (Function.update ns.up src.inode (some dst.parent))
      dst.inode (some src.parent) := by
  have hdst : ((((ns.retarget src.key dst.inode dst.type).retarget dst.key src.inode
      src.type).modify src.inode fun s => { s with parent := dst.parent })).node dst.inode
      = some s' := by
    rw [modify_node, if_neg hne.symm]
    exact hs'
  rw [exchange, up_setParent hdst]
  exact congrArg (Function.update · dst.inode (some src.parent)) (up_setParent hs)

end Up

/-! ### The tree -/

/-- Following parents leads from every directory to the root. -/
def Reaches (ns : Namespace) : Prop := ∀ i, ns.IsDir i → Above ns.up i rootInode

/-- The namespace is consistent, and following parents ends. -/
structure Tree (ns : Namespace) : Prop where
  consistent : ns.Consistent
  grounded : ∀ i, Grounded ns.up rootInode i

namespace Consistent

variable (h : ns.Consistent)

include h

theorem up_root : ns.up rootInode = some rootInode := by
  obtain ⟨s, hs, -, hp⟩ := h.root
  rw [up, hs, Option.map_some, hp]

/-- A directory's parent is a directory. -/
theorem up_dir {i : Ino} (hi : ns.IsDir i) : ∃ w, ns.up i = some w ∧ ns.IsDir w := by
  by_cases hroot : i = rootInode
  · obtain ⟨s, hs, hdir, hp⟩ := h.root
    exact ⟨rootInode, hroot ▸ h.up_root, s, hs, hdir⟩
  · -- its only entry says where it is
    obtain ⟨s, hs, hdir⟩ := hi
    have hcount := h.count i s hs
    rw [expectedLinks, if_pos hdir, if_neg hroot] at hcount
    have hpos : 0 < ns.links i := by omega
    obtain ⟨d, hd, hdi⟩ := List.countP_pos_iff.mp hpos
    obtain rfl : d.inode = i := of_decide_eq_true hdi
    obtain ⟨s', hs', ht⟩ := h.typed d hd
    obtain rfl := Option.some.inj (hs.symm.trans hs')
    exact ⟨d.parent, h.home d hd (ht.symm.trans hdir), h.parents d hd⟩

theorem isDir_of_above {i j : Ino} (hi : ns.IsDir i) (hij : Above ns.up i j) : ns.IsDir j := by
  refine hij.closed (fun z w hz hw => ?_) hi
  obtain ⟨w', hw', hdir⟩ := h.up_dir hz
  obtain rfl := Option.some.inj (hw.symm.trans hw')
  exact hdir

/-- Nothing but a directory is above a directory. -/
theorem not_above_file (hd : d ∈ ns.entries) (hfile : d.type ≠ .directory) {p : Ino}
    (hp : ns.IsDir p) : ¬ Above ns.up p d.inode := by
  intro habove
  obtain ⟨s, hs, hdir⟩ := h.isDir_of_above hp habove
  obtain ⟨s', hs', ht⟩ := h.typed d hd
  obtain rfl := Option.some.inj (hs.symm.trans hs')
  exact hfile (ht.symm.trans hdir)

end Consistent

namespace Tree

variable (h : ns.Tree)

include h

/-- **In a tree, every directory leads to the root.** -/
theorem reaches : ns.Reaches := fun i hi =>
  (h.grounded i).above_root (fun _ hz => h.consistent.up_dir hz) hi

/-- An entry's inode is not above the directory the entry is in. -/
theorem not_above_self (hd : d ∈ ns.entries) : ¬ Above ns.up d.parent d.inode := by
  by_cases hdir : d.type = .directory
  · intro habove
    have hup := h.consistent.home d hd hdir
    have hroot := (h.grounded d.parent).not_cycle h.consistent.up_root habove hup
    exact h.consistent.inode_ne_root hd hroot
  · exact h.consistent.not_above_file hd hdir (h.consistent.parents d hd)

theorem unlink (hd : ns.Removable d gone) : (ns.unlink d gone).Tree := by
  refine ⟨unlink_consistent h.consistent hd, fun i => ?_⟩
  rw [up_unlink]
  cases gone with
  | true => exact grounded_erase h.grounded i
  | false => exact h.grounded i

theorem move {p : Ino} {n : String} (hsrc : ns.entry src.key = some src)
    (hfree : ns.entry (p, n) = none) (hp : ns.IsDir p)
    (hup : src.type = .directory → ¬ Above ns.up p src.inode) : (ns.move src p n).Tree := by
  refine ⟨move_consistent h.consistent hsrc hfree hp, fun i => ?_⟩
  have hmem := entry_mem hsrc
  obtain ⟨s, hs, -⟩ := h.consistent.typed src hmem
  have hnot : ¬ Above ns.up p src.inode := by
    by_cases hdir : src.type = .directory
    · exact hup hdir
    · exact h.consistent.not_above_file hmem hdir hp
  rw [up_move hs]
  exact grounded_set h.grounded hnot i

theorem exchange (hsrc : ns.entry src.key = some src)
    (hdst : ns.entry dst.key = some dst) (hne : src.inode ≠ dst.inode)
    (hup : (Op.exchange src dst).Upward ns) : (ns.exchange src dst).Tree := by
  refine ⟨exchange_consistent h.consistent hsrc hdst hne, fun i => ?_⟩
  have hmem := entry_mem hsrc
  have hmem' := entry_mem hdst
  obtain ⟨s, hs, -⟩ := h.consistent.typed src hmem
  obtain ⟨s', hs', -⟩ := h.consistent.typed dst hmem'
  have hnot : ¬ Above ns.up dst.parent src.inode := by
    by_cases hdir : src.type = .directory
    · exact hup.1 hdir
    · exact h.consistent.not_above_file hmem hdir (h.consistent.parents dst hmem')
  have hnot' : ¬ Above ns.up src.parent dst.inode := by
    by_cases hdir : dst.type = .directory
    · exact hup.2 hdir
    · exact h.consistent.not_above_file hmem' hdir (h.consistent.parents src hmem)
  rw [up_exchange hs hs' hne]
  -- the way up from the old place of `src` does not pass `src`, so the first move did not change it
  refine grounded_set (grounded_set h.grounded hnot) (fun habove => ?_) i
  rcases above_of_set habove with habove | habove
  · exact hnot' habove
  · exact h.not_above_self hmem habove

/-- **An operation that applies and is upward keeps a tree.** -/
theorem apply {op : Op} (hop : op.Ok ns) (hup : op.Upward ns) : (op.apply ns).Tree := by
  cases op with
  | idle => exact h
  | create i p n t =>
    refine ⟨h.consistent.apply hop, fun j => ?_⟩
    obtain ⟨hp, -, hi⟩ := hop
    have hnot : ¬ Above ns.up p i := by
      intro habove
      obtain ⟨s, hs, -⟩ := h.consistent.isDir_of_above hp habove
      rw [hi] at hs
      cases hs
    rw [Op.apply, up_create]
    exact grounded_set h.grounded hnot j
  | link i p n t =>
    refine ⟨h.consistent.apply hop, fun j => ?_⟩
    rw [Op.apply, up_link]
    exact h.grounded j
  | unlink d gone => exact h.unlink hop
  | move src p n => exact h.move hop.1 hop.2.1 hop.2.2 hup
  | replace src dst gone =>
    obtain ⟨hsrc, hdst, hne⟩ := hop
    refine (h.unlink hdst).move ?_ ?_ (isDir_unlink h.consistent hdst) fun hdir habove => ?_
    · rw [entry_unlink, if_neg (key_ne hsrc hdst.1 hne)]
      exact hsrc
    · rw [entry_unlink]
      exact if_pos rfl
    · refine hup hdir ?_
      rw [up_unlink] at habove
      cases gone with
      | true => exact above_of_erase habove
      | false => exact habove
  | exchange src dst => exact h.exchange hop.1 hop.2.1 hop.2.2 hup

/-- A directory moved to a place at or below itself no longer leads to the root. -/
theorem not_reaches_move {p : Ino} {n : String} (hsrc : ns.entry src.key = some src)
    (hdir : src.type = .directory) (habove : Above ns.up p src.inode) : ¬ (ns.move src p n).Reaches := by
  intro hall
  have hmem := entry_mem hsrc
  obtain ⟨s, hs, ht⟩ := h.consistent.typed src hmem
  have hnew : (ns.move src p n).IsDir src.inode :=
    ⟨{ s with parent := p }, by simp [Namespace.move, hs], ht.trans hdir⟩
  have hroot := hall src.inode hnew
  rw [up_move hs] at hroot
  exact not_above_of_set h.consistent.up_root (h.consistent.inode_ne_root hmem) habove hroot

/-- The same for the two places of an exchange. -/
theorem not_reaches_exchange (hsrc : ns.entry src.key = some src)
    (hdst : ns.entry dst.key = some dst) (hne : src.inode ≠ dst.inode)
    (hup : ¬ (Op.exchange src dst).Upward ns) : ¬ (ns.exchange src dst).Reaches := by
  intro hall
  have hmem := entry_mem hsrc
  have hmem' := entry_mem hdst
  obtain ⟨s, hs, ht⟩ := h.consistent.typed src hmem
  obtain ⟨s', hs', ht'⟩ := h.consistent.typed dst hmem'
  have hroot := h.consistent.inode_ne_root hmem
  have hroot' := h.consistent.inode_ne_root hmem'
  simp only [Op.Upward, not_and_or, Classical.not_imp, not_not] at hup
  rcases hup with ⟨hdir, habove⟩ | ⟨hdir, habove⟩
  · have hnew : (ns.exchange src dst).IsDir src.inode :=
      ⟨{ s with parent := dst.parent }, by simp [Namespace.exchange, hne, hs], ht.trans hdir⟩
    have hway := hall src.inode hnew
    rw [up_exchange hs hs' hne, Function.update_comm hne] at hway
    refine not_above_of_set ?_ hroot (habove.update (h.not_above_self hmem')) hway
    rw [Function.update_of_ne hroot'.symm, h.consistent.up_root]
  · have hnew : (ns.exchange src dst).IsDir dst.inode :=
      ⟨{ s' with parent := src.parent }, by simp [Namespace.exchange, hne.symm, hs'],
        ht'.trans hdir⟩
    have hway := hall dst.inode hnew
    rw [up_exchange hs hs' hne] at hway
    refine not_above_of_set ?_ hroot' (habove.update (h.not_above_self hmem)) hway
    rw [Function.update_of_ne hroot.symm, h.consistent.up_root]

/-- **An operation that is not upward cuts a directory off from the root.** -/
theorem not_reaches {op : Op} (hop : op.Ok ns) (hup : ¬ op.Upward ns) : ¬ (op.apply ns).Reaches := by
  cases op with
  | idle => exact absurd trivial hup
  | create => exact absurd trivial hup
  | link => exact absurd trivial hup
  | unlink => exact absurd trivial hup
  | move src p n =>
    obtain ⟨hdir, habove⟩ := Classical.not_imp.mp hup
    exact h.not_reaches_move hop.1 hdir (not_not.mp habove)
  | replace src dst gone =>
    obtain ⟨hdir, habove⟩ := Classical.not_imp.mp hup
    obtain ⟨hsrc, hdst, hne⟩ := hop
    refine (h.unlink hdst).not_reaches_move ?_ hdir ?_
    · rw [entry_unlink, if_neg (key_ne hsrc hdst.1 hne)]
      exact hsrc
    · rw [up_unlink]
      cases gone with
      | true => exact (not_not.mp habove).update (h.not_above_self (entry_mem hdst.1))
      | false => exact not_not.mp habove
  | exchange src dst => exact h.not_reaches_exchange hop.1 hop.2.1 hop.2.2 hup

end Tree

end Namespace

end MemoryLayer.Meta
