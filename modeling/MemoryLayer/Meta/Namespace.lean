import MemoryLayer.Sql.Keyed
import MemoryLayer.Lib.Forest
import MemoryLayer.Meta.Tables

namespace MemoryLayer.Meta

/-! # The namespace

What the `node` and `edge` tables are for: a tree of directories whose entries name inodes.  Times,
owners and modes are left out, and so are the link counts of directories.

* `Namespace` — the inodes and the entries;
* `create`, `link`, `unlink`, `move`, `exchange` — the changes that the operations make;
* `Consistent` — entries lead from directories to inodes, a directory has one entry, and the link
  count of everything else is the number of its entries;
* `create_consistent`, ... — each change keeps this.
-/

/-- What the namespace keeps of an inode; directories have no link count here. -/
structure Shape where
  type : FileType
  parent : Ino
  nlink : Int
  deriving DecidableEq

/-- Change the link count of anything that is not a directory. -/
def Shape.addLinks (d : Int) (s : Shape) : Shape :=
  if s.type = .directory then s else { s with nlink := s.nlink + d }

@[simp] theorem Shape.addLinks_type (d : Int) (s : Shape) : (s.addLinks d).type = s.type := by
  unfold addLinks
  split <;> rfl

@[simp] theorem Shape.addLinks_parent (d : Int) (s : Shape) : (s.addLinks d).parent = s.parent := by
  unfold addLinks
  split <;> rfl

/-- Inodes and directory entries. -/
@[ext] structure Namespace where
  node : Ino → Option Shape
  entries : List Edge

namespace Namespace

variable (ns : Namespace) {d' : Edge}

/-- The entry under a key. -/
def entry (k : Ino × String) : Option Edge := ns.entries.find? fun d => d.key = k

/-- The number of entries of an inode. -/
def links (i : Ino) : Nat := ns.entries.countP fun d => d.inode = i

/-- The parent pointers. -/
def up (i : Ino) : Option Ino := (ns.node i).map Shape.parent

/-! ### Changes -/

/-- A new inode. -/
def put (i : Ino) (s : Shape) : Namespace := { ns with node := Function.update ns.node i (some s) }

/-- An inode less. -/
def drop (i : Ino) : Namespace := { ns with node := Function.update ns.node i none }

/-- A changed inode. -/
def modify (i : Ino) (f : Shape → Shape) : Namespace :=
  { ns with node := Function.update ns.node i ((ns.node i).map f) }

/-- A new entry. -/
def add (d : Edge) : Namespace := { ns with entries := ns.entries ++ [d] }

/-- The entry under a key less. -/
def remove (k : Ino × String) : Namespace :=
  { ns with entries := ns.entries.filter fun d => !decide (d.key = k) }

/-- The entry under a key leads elsewhere. -/
def retarget (k : Ino × String) (i : Ino) (t : FileType) : Namespace :=
  { ns with entries := ns.entries.map fun d =>
      if d.key = k then { d with inode := i, type := t } else d }

/-- A new inode with its first entry. -/
def create (i p : Ino) (n : String) (t : FileType) : Namespace :=
  (ns.add ⟨p, n, i, t⟩).put i ⟨t, p, if t = .directory then 0 else 1⟩

/-- A further entry of an inode. -/
def link (i p : Ino) (n : String) (t : FileType) : Namespace :=
  (ns.add ⟨p, n, i, t⟩).modify i (Shape.addLinks 1)

/-- An entry less; `gone` says whether its inode goes with it. -/
def unlink (d : Edge) (gone : Bool) : Namespace :=
  if gone then (ns.remove d.key).drop d.inode
  else (ns.remove d.key).modify d.inode (Shape.addLinks (-1))

/-- An entry in another place. -/
def move (src : Edge) (p : Ino) (n : String) : Namespace :=
  ((ns.remove src.key).add ⟨p, n, src.inode, src.type⟩).modify src.inode
    fun s => { s with parent := p }

/-- Two entries in each other's place. -/
def exchange (src dst : Edge) : Namespace :=
  (((ns.retarget src.key dst.inode dst.type).retarget dst.key src.inode src.type).modify src.inode
    fun s => { s with parent := dst.parent }).modify dst.inode fun s => { s with parent := src.parent }

/-! ### Consistency -/

/-- An inode is an existing directory. -/
def IsDir (i : Ino) : Prop := ∃ s, ns.node i = some s ∧ s.type = .directory

/-- The number of entries an inode should have. -/
def expectedLinks (i : Ino) (s : Shape) : Int :=
  if s.type = .directory then (if i = rootInode then 0 else 1) else s.nlink

/-- The invariant of the namespace. -/
structure Consistent : Prop where
  /-- no two entries share parent and name -/
  keys : (ns.entries.map Edge.key).Nodup
  /-- the root is a directory and its own parent -/
  root : ∃ s, ns.node rootInode = some s ∧ s.type = .directory ∧ s.parent = rootInode
  /-- an entry leads to an inode of its type -/
  typed : ∀ d ∈ ns.entries, ∃ s, ns.node d.inode = some s ∧ s.type = d.type
  /-- a directory's parent is where its entry is -/
  home : ∀ d ∈ ns.entries, d.type = .directory → ns.up d.inode = some d.parent
  /-- every inode has the entries it should have -/
  count : ∀ i s, ns.node i = some s → (ns.links i : Int) = expectedLinks i s
  /-- an entry is in an existing directory -/
  parents : ∀ d ∈ ns.entries, ns.IsDir d.parent

/-! ### Entries and their number -/

section Entries

variable {ns : Namespace} {k : Ino × String} {d : Edge} {t : FileType}

theorem entry_mem (h : ns.entry k = some d) : d ∈ ns.entries := List.mem_of_find?_eq_some h

theorem key_ne_of_free (h : ns.entry k = none) (hd : d ∈ ns.entries) : d.key ≠ k := by
  simpa using List.find?_eq_none.mp h d hd

theorem mem_remove : d ∈ (ns.remove k).entries ↔ d ∈ ns.entries ∧ d.key ≠ k := by
  simp [remove]

theorem mem_add : d' ∈ (ns.add d).entries ↔ d' ∈ ns.entries ∨ d' = d := by
  simp [add]

theorem mem_retarget {i : Ino} (h : d ∈ (ns.retarget k i t).entries) :
    (d.key = k ∧ d.inode = i ∧ d.type = t) ∨ (d ∈ ns.entries ∧ d.key ≠ k) := by
  obtain ⟨e, he, rfl⟩ := List.mem_map.mp h
  split
  case isTrue hk => exact .inl ⟨hk, rfl, rfl⟩
  case isFalse hk => exact .inr ⟨he, hk⟩

theorem entry_retarget {k' : Ino × String} {i : Ino} (hk : k' ≠ k) :
    (ns.retarget k i t).entry k' = ns.entry k' := by
  have h := Sql.find?_map_key Edge.key (f := fun d => { d with inode := i, type := t })
    (fun _ => rfl) ns.entries k k'
  rw [if_neg hk] at h
  exact h

theorem links_add (d : Edge) (i : Ino) :
    (ns.add d).links i = ns.links i + if d.inode = i then 1 else 0 := by
  simp [links, add, List.countP_append, List.countP_singleton]

theorem links_pos (hd : d ∈ ns.entries) : 0 < ns.links d.inode :=
  List.countP_pos_iff.mpr ⟨d, hd, by simp⟩

section

variable (hk : (ns.entries.map Edge.key).Nodup)

include hk

theorem links_remove (hd : ns.entry k = some d) (i : Ino) :
    (ns.remove k).links i + (if d.inode = i then 1 else 0) = ns.links i := by
  have hperm := Sql.perm_cons_filter_key hk hd
  rw [links, links, hperm.countP_eq, List.countP_cons]
  simp [remove]

theorem links_retarget (hd : ns.entry k = some d) (i j : Ino)
    (t : FileType) :
    (ns.retarget k j t).links i + (if d.inode = i then 1 else 0)
      = ns.links i + if j = i then 1 else 0 := by
  have hperm := Sql.perm_cons_filter_key hk hd
  have hperm' := Sql.map_key_perm hk hd fun d => { d with inode := j, type := t }
  rw [links, links, hperm.countP_eq, List.countP_cons, retarget, hperm'.countP_eq,
    List.countP_cons]
  simp only [decide_eq_true_eq]
  omega

theorem keys_remove :
    ((ns.remove k).entries.map Edge.key).Nodup :=
  hk.sublist (List.filter_sublist.map Edge.key)

theorem keys_add (hd : ns.entry d.key = none) :
    ((ns.add d).entries.map Edge.key).Nodup := by
  rw [add, List.map_append, List.nodup_append]
  refine ⟨hk, by simp, ?_⟩
  intro x hx y hy
  obtain ⟨d', hd', rfl⟩ := List.mem_map.mp hx
  obtain rfl : y = d.key := by simpa using hy
  exact key_ne_of_free hd hd'

end

theorem keys_retarget {i : Ino} :
    (ns.retarget k i t).entries.map Edge.key = ns.entries.map Edge.key := by
  rw [retarget, List.map_map]
  refine List.map_congr_left fun d _ => ?_
  simp only [Function.comp]
  split <;> rfl

end Entries

namespace Consistent

variable {ns : Namespace} (h : ns.Consistent) {d : Edge}

include h

/-- No entry leads to the root. -/
theorem inode_ne_root (hd : d ∈ ns.entries) : d.inode ≠ rootInode := by
  intro hroot
  obtain ⟨s, hs, hdir, -⟩ := h.root
  have hcount := h.count _ s hs
  have hpos := links_pos hd
  rw [expectedLinks, if_pos hdir, if_pos rfl] at hcount
  rw [hroot] at hpos
  omega

/-- A directory has one entry. -/
theorem links_dir (hd : d ∈ ns.entries) (hdir : d.type = .directory) : ns.links d.inode = 1 := by
  obtain ⟨s, hs, ht⟩ := h.typed d hd
  have hcount := h.count _ s hs
  rw [expectedLinks, if_pos (ht.trans hdir), if_neg (h.inode_ne_root hd)] at hcount
  omega

/-- Once the last entry of an inode is removed, no entry leads to it. -/
theorem inode_ne_of_last (hd : ns.entry d.key = some d) (hlast : ns.links d.inode = 1)
    (hd' : d' ∈ (ns.remove d.key).entries) : d'.inode ≠ d.inode := by
  intro heq
  have hpos := links_pos hd'
  have hcount := links_remove h.keys hd d.inode
  rw [if_pos rfl] at hcount
  rw [heq] at hpos
  omega

/-- Entries are in directories only. -/
theorem parent_ne_of_file (hd : d ∈ ns.entries) (hfile : d.type ≠ .directory)
    (hd' : d' ∈ ns.entries) : d'.parent ≠ d.inode := by
  intro heq
  obtain ⟨s, hs, hdir⟩ := h.parents d' hd'
  obtain ⟨s', hs', ht⟩ := h.typed d hd
  rw [heq, hs'] at hs
  obtain rfl := Option.some.inj hs
  exact hfile (ht.symm.trans hdir)

/-- A second entry leads to a directory only if it is the first. -/
theorem dir_inode_ne (hsrc : ns.entry d.key = some d)
    (hd' : d' ∈ (ns.remove d.key).entries) (hdir : d'.type = .directory) :
    d'.inode ≠ d.inode := by
  intro heq
  have hmem := entry_mem hsrc
  have hmem' := (mem_remove.mp hd').1
  obtain ⟨s, hs, ht⟩ := h.typed d hmem
  obtain ⟨s', hs', ht'⟩ := h.typed d' hmem'
  rw [heq, hs] at hs'
  obtain rfl := Option.some.inj hs'
  exact h.inode_ne_of_last hsrc (h.links_dir hmem (ht.symm.trans (ht'.trans hdir))) hd' heq

end Consistent

/-! ### Inodes after a change -/

section Nodes

variable {ns : Namespace} {i j : Ino} {s : Shape} {f : Shape → Shape}

@[simp] theorem put_node : (ns.put i s).node j = if j = i then some s else ns.node j := by
  simp [put, Function.update_apply]

@[simp] theorem drop_node : (ns.drop i).node j = if j = i then none else ns.node j := by
  simp [drop, Function.update_apply]

@[simp] theorem modify_node :
    (ns.modify i f).node j = if j = i then (ns.node i).map f else ns.node j := by
  simp [modify, Function.update_apply]

@[simp] theorem add_node {d : Edge} : (ns.add d).node = ns.node := rfl
@[simp] theorem remove_node {k : Ino × String} : (ns.remove k).node = ns.node := rfl
@[simp] theorem retarget_node {k : Ino × String} {t : FileType} :
    (ns.retarget k i t).node = ns.node := rfl

@[simp] theorem put_entries : (ns.put i s).entries = ns.entries := rfl
@[simp] theorem drop_entries : (ns.drop i).entries = ns.entries := rfl
@[simp] theorem modify_entries : (ns.modify i f).entries = ns.entries := rfl

@[simp] theorem put_links : (ns.put i s).links j = ns.links j := rfl
@[simp] theorem drop_links : (ns.drop i).links j = ns.links j := rfl
@[simp] theorem modify_links : (ns.modify i f).links j = ns.links j := rfl

/-- A change of an inode that keeps its type is found again. -/
theorem modify_some (hs : ns.node j = some s) :
    (ns.modify i f).node j = some (if j = i then f s else s) := by
  rw [modify_node]
  split
  case isTrue h => rw [← h, hs, Option.map_some]
  case isFalse => exact hs

end Nodes

/-! ### Consistency is kept -/

/-- The inode `j` keeps its type and its parent. -/
def Keeps (ns ns' : Namespace) (j : Ino) : Prop :=
  ∀ s, ns.node j = some s →
    ∃ s', ns'.node j = some s' ∧ s'.type = s.type ∧ s'.parent = s.parent

section Keeps

variable {ns ns' : Namespace} {j : Ino}

theorem Keeps.of_eq (h : ns'.node j = ns.node j) : Keeps ns ns' j :=
  fun s hs => ⟨s, h.trans hs, rfl, rfl⟩

theorem Keeps.addLinks {i : Ino} {x : Int} (hn : ns'.node = ns.node) :
    Keeps ns (ns'.modify i (Shape.addLinks x)) j := by
  intro s hs
  refine ⟨_, modify_some (hn ▸ hs), ?_⟩
  split <;> simp

theorem Keeps.isDir (h : Keeps ns ns' j) (hj : ns.IsDir j) : ns'.IsDir j := by
  obtain ⟨s, hs, hdir⟩ := hj
  obtain ⟨s', hs', ht, -⟩ := h s hs
  exact ⟨s', hs', ht.trans hdir⟩

theorem Keeps.typed (h : Keeps ns ns' j) {t : FileType}
    (hj : ∃ s, ns.node j = some s ∧ s.type = t) : ∃ s, ns'.node j = some s ∧ s.type = t := by
  obtain ⟨s, hs, hst⟩ := hj
  obtain ⟨s', hs', ht, -⟩ := h s hs
  exact ⟨s', hs', ht.trans hst⟩

theorem Keeps.up (h : Keeps ns ns' j) {q : Ino} (hj : ns.up j = some q) : ns'.up j = some q := by
  obtain ⟨s, hs, hq⟩ := Option.map_eq_some_iff.mp hj
  obtain ⟨s', hs', -, hp⟩ := h s hs
  exact Option.map_eq_some_iff.mpr ⟨s', hs', hp.trans hq⟩

theorem Keeps.root (h : Keeps ns ns' rootInode)
    (hr : ∃ s, ns.node rootInode = some s ∧ s.type = .directory ∧ s.parent = rootInode) :
    ∃ s, ns'.node rootInode = some s ∧ s.type = .directory ∧ s.parent = rootInode := by
  obtain ⟨s, hs, hdir, hroot⟩ := hr
  obtain ⟨s', hs', ht, hp⟩ := h s hs
  exact ⟨s', hs', ht.trans hdir, hp.trans hroot⟩

end Keeps

section Preservation

variable {ns : Namespace} (h : ns.Consistent) {i p : Ino} {n : String} {t : FileType} {s : Shape}

include h

theorem create_consistent (hp : ns.IsDir p) (hfree : ns.entry (p, n) = none)
    (hi : ns.node i = none) : (ns.create i p n t).Consistent := by
  have hnew : (ns.create i p n t).node i = some ⟨t, p, if t = .directory then 0 else 1⟩ := by
    simp [create]
  have hne : ∀ j s, ns.node j = some s → j ≠ i := by
    rintro j s hs rfl
    rw [hi] at hs
    cases hs
  have hkeep : ∀ j, Keeps ns (ns.create i p n t) j := by
    intro j s hs
    exact ⟨s, by simp [create, hne j s hs, hs], rfl, rfl⟩
  -- the new inode had no entry
  have hzero : ns.links i = 0 := by
    by_contra hpos
    obtain ⟨d, hd, hdi⟩ := List.countP_pos_iff.mp (Nat.pos_of_ne_zero hpos)
    obtain ⟨s, hs, -⟩ := h.typed d hd
    exact hne _ s hs (of_decide_eq_true hdi)
  refine ⟨keys_add h.keys hfree, (hkeep _).root h.root, ?_, ?_, ?_, ?_⟩
  · intro d hd
    rcases mem_add.mp hd with hd | rfl
    · exact (hkeep _).typed (h.typed d hd)
    · exact ⟨_, hnew, rfl⟩
  · intro d hd hdir
    rcases mem_add.mp hd with hd | rfl
    · exact (hkeep _).up (h.home d hd hdir)
    · rw [up, hnew]
      rfl
  · intro j s hs
    have hlinks : (ns.create i p n t).links j = ns.links j + if i = j then 1 else 0 :=
      links_add ⟨p, n, i, t⟩ j
    rw [hlinks]
    by_cases hj : i = j
    · subst hj
      obtain rfl := Option.some.inj (hnew.symm.trans hs)
      obtain ⟨r, hr, -⟩ := h.root
      rw [hzero, if_pos rfl, expectedLinks]
      by_cases hd : t = .directory
      · simp [hd, (hne _ r hr).symm]
      · simp [hd]
    · rw [if_neg hj]
      exact h.count j s (by simpa [create, Ne.symm hj] using hs)
  · intro d hd
    rcases mem_add.mp hd with hd | rfl
    · exact (hkeep _).isDir (h.parents d hd)
    · exact (hkeep _).isDir hp

theorem link_consistent (hp : ns.IsDir p) (hfree : ns.entry (p, n) = none)
    (hs : ns.node i = some s) (hfile : s.type ≠ .directory) :
    (ns.link i p n s.type).Consistent := by
  have hkeep : ∀ j, Keeps ns (ns.link i p n s.type) j := fun j => Keeps.addLinks rfl
  refine ⟨keys_add h.keys hfree, (hkeep _).root h.root, ?_, ?_, ?_, ?_⟩
  · intro d hd
    rcases mem_add.mp hd with hd | rfl
    · exact (hkeep _).typed (h.typed d hd)
    · exact (hkeep _).typed ⟨s, hs, rfl⟩
  · intro d hd hdir
    rcases mem_add.mp hd with hd | rfl
    · exact (hkeep _).up (h.home d hd hdir)
    · exact absurd hdir hfile
  · intro j s' hs'
    have hlinks : (ns.link i p n s.type).links j = ns.links j + if i = j then 1 else 0 :=
      links_add ⟨p, n, i, s.type⟩ j
    rw [hlinks]
    by_cases hj : i = j
    · subst hj
      have hcount := h.count i s hs
      have hs'' : s.addLinks 1 = s' := by simpa [link, hs] using hs'
      subst hs''
      simp only [expectedLinks, Shape.addLinks, if_neg hfile] at hcount ⊢
      simp [hcount]
    · rw [if_neg hj]
      exact h.count j s' (by simpa [link, Ne.symm hj] using hs')
  · intro d hd
    rcases mem_add.mp hd with hd | rfl
    · exact (hkeep _).isDir (h.parents d hd)
    · exact (hkeep _).isDir hp

/-- Removing the last entry of an inode together with the inode. -/
theorem unlink_gone_consistent {d : Edge} (hd : ns.entry d.key = some d)
    (hlast : ns.links d.inode = 1) (hempty : ∀ d' ∈ ns.entries, d'.parent ≠ d.inode) :
    (ns.unlink d true).Consistent := by
  have hkeep : ∀ j, j ≠ d.inode → Keeps ns (ns.unlink d true) j := fun j hj =>
    Keeps.of_eq (by simp [unlink, hj])
  have hold : ∀ d' ∈ (ns.unlink d true).entries, d' ∈ ns.entries ∧ d'.inode ≠ d.inode :=
    fun d' hd' => ⟨(mem_remove.mp hd').1, h.inode_ne_of_last hd hlast hd'⟩
  refine ⟨keys_remove h.keys, ?_, ?_, ?_, ?_, ?_⟩
  · exact (hkeep _ (h.inode_ne_root (entry_mem hd)).symm).root h.root
  · intro d' hd'
    obtain ⟨hmem, hne⟩ := hold d' hd'
    exact (hkeep _ hne).typed (h.typed d' hmem)
  · intro d' hd' hdir
    obtain ⟨hmem, hne⟩ := hold d' hd'
    exact (hkeep _ hne).up (h.home d' hmem hdir)
  · intro j s hs
    have hj : j ≠ d.inode := by
      rintro rfl
      simp [unlink] at hs
    have hlinks : (ns.unlink d true).links j + (if d.inode = j then 1 else 0) = ns.links j :=
      links_remove h.keys hd j
    rw [if_neg hj.symm, Nat.add_zero] at hlinks
    rw [hlinks]
    exact h.count j s (by simpa [unlink, hj] using hs)
  · intro d' hd'
    have hmem := (hold d' hd').1
    exact (hkeep _ (hempty d' hmem)).isDir (h.parents d' hmem)

/-- Removing an entry of an inode that stays. -/
theorem unlink_stays_consistent {d : Edge} (hd : ns.entry d.key = some d)
    (hfile : d.type ≠ .directory) : (ns.unlink d false).Consistent := by
  have hkeep : ∀ j, Keeps ns (ns.unlink d false) j := fun j => Keeps.addLinks rfl
  refine ⟨keys_remove h.keys, (hkeep _).root h.root, ?_, ?_, ?_, ?_⟩
  · intro d' hd'
    exact (hkeep _).typed (h.typed d' (mem_remove.mp hd').1)
  · intro d' hd' hdir
    exact (hkeep _).up (h.home d' (mem_remove.mp hd').1 hdir)
  · intro j s hs
    have hlinks : (ns.unlink d false).links j + (if d.inode = j then 1 else 0) = ns.links j :=
      links_remove h.keys hd j
    by_cases hj : d.inode = j
    · subst hj
      obtain ⟨r, hr, ht⟩ := h.typed d (entry_mem hd)
      have hcount := h.count _ r hr
      have hs' : r.addLinks (-1) = s := by simpa [unlink, hr] using hs
      subst hs'
      have hfile' : r.type ≠ .directory := fun hdir => hfile (ht.symm.trans hdir)
      simp only [expectedLinks, Shape.addLinks, if_neg hfile', if_true] at hcount hlinks ⊢
      omega
    · rw [if_neg hj, Nat.add_zero] at hlinks
      rw [hlinks]
      exact h.count j s (by simpa [unlink, Ne.symm hj] using hs)
  · intro d' hd'
    exact (hkeep _).isDir (h.parents d' (mem_remove.mp hd').1)

theorem move_consistent {src : Edge} (hsrc : ns.entry src.key = some src)
    (hfree : ns.entry (p, n) = none) (hp : ns.IsDir p) : (ns.move src p n).Consistent := by
  have hkeep : ∀ j, j ≠ src.inode → Keeps ns (ns.move src p n) j := fun j hj =>
    Keeps.of_eq (by simp [move, hj])
  obtain ⟨r, hr, hrt⟩ := h.typed src (entry_mem hsrc)
  have hnew : (ns.move src p n).node src.inode = some { r with parent := p } := by
    simp [move, hr]
  -- types are kept everywhere
  have htype : ∀ j t, (∃ s, ns.node j = some s ∧ s.type = t) →
      ∃ s, (ns.move src p n).node j = some s ∧ s.type = t := by
    intro j t hj
    by_cases hjs : j = src.inode
    · obtain ⟨s, hs, ht⟩ := hj
      rw [hjs, hr] at hs
      obtain rfl := Option.some.inj hs
      rw [hjs]
      exact ⟨_, hnew, ht⟩
    · exact (hkeep j hjs).typed hj
  have hfree' : (ns.remove src.key).entry (p, n) = none := by
    refine List.find?_eq_none.mpr fun d hd => ?_
    simpa using key_ne_of_free hfree (mem_remove.mp hd).1
  refine ⟨keys_add (keys_remove h.keys) hfree', ?_, ?_, ?_, ?_, ?_⟩
  · exact (hkeep _ (h.inode_ne_root (entry_mem hsrc)).symm).root h.root
  · intro d hd
    rcases mem_add.mp hd with hd | rfl
    · exact htype _ _ (h.typed d (mem_remove.mp hd).1)
    · exact ⟨_, hnew, hrt⟩
  · intro d hd hdir
    rcases mem_add.mp hd with hd | rfl
    · exact (hkeep _ (h.dir_inode_ne hsrc hd hdir)).up (h.home d (mem_remove.mp hd).1 hdir)
    · rw [up, hnew]
      rfl
  · intro j s hs
    have hlinks : (ns.move src p n).links j = ns.links j := by
      have hrem := links_remove h.keys hsrc j
      have hadd : (ns.move src p n).links j
          = (ns.remove src.key).links j + if src.inode = j then 1 else 0 :=
        links_add ⟨p, n, src.inode, src.type⟩ j
      rw [hadd, hrem]
    rw [hlinks]
    by_cases hj : j = src.inode
    · subst hj
      obtain rfl := Option.some.inj (hnew.symm.trans hs)
      exact h.count _ r hr
    · exact h.count j s (by simpa [move, hj] using hs)
  · intro d hd
    rcases mem_add.mp hd with hd | rfl
    · exact htype _ _ (h.parents d (mem_remove.mp hd).1)
    · exact htype _ _ hp

omit h in
/-- The entries after an exchange: the two swapped ones, and the others. -/
theorem mem_exchange {src dst d : Edge} (hd : d ∈ (ns.exchange src dst).entries) :
    (d.parent = src.parent ∧ d.inode = dst.inode ∧ d.type = dst.type) ∨
      (d.parent = dst.parent ∧ d.inode = src.inode ∧ d.type = src.type) ∨
      (d ∈ ns.entries ∧ d.key ≠ src.key ∧ d.key ≠ dst.key) := by
  rcases mem_retarget hd with ⟨hk, hi, ht⟩ | ⟨hd, hk'⟩
  · exact .inr (.inl ⟨congrArg Prod.fst hk, hi, ht⟩)
  · rcases mem_retarget hd with ⟨hk, hi, ht⟩ | ⟨hd, hk⟩
    · exact .inl ⟨congrArg Prod.fst hk, hi, ht⟩
    · exact .inr (.inr ⟨hd, hk, hk'⟩)

theorem exchange_consistent {src dst : Edge} (hsrc : ns.entry src.key = some src)
    (hdst : ns.entry dst.key = some dst) (hne : src.inode ≠ dst.inode) :
    (ns.exchange src dst).Consistent := by
  have hkey : dst.key ≠ src.key := by
    intro heq
    rw [heq, hsrc] at hdst
    exact hne (congrArg Edge.inode (Option.some.inj hdst))
  obtain ⟨r, hr, hrt⟩ := h.typed src (entry_mem hsrc)
  obtain ⟨r', hr', hrt'⟩ := h.typed dst (entry_mem hdst)
  have hnew : (ns.exchange src dst).node src.inode = some { r with parent := dst.parent } := by
    simp [exchange, hne, hr]
  have hnew' : (ns.exchange src dst).node dst.inode = some { r' with parent := src.parent } := by
    simp [exchange, hne.symm, hr']
  have hkeep : ∀ j, j ≠ src.inode → j ≠ dst.inode → Keeps ns (ns.exchange src dst) j :=
    fun j hj hj' => Keeps.of_eq (by simp [exchange, hj, hj'])
  have htype : ∀ j t, (∃ s, ns.node j = some s ∧ s.type = t) →
      ∃ s, (ns.exchange src dst).node j = some s ∧ s.type = t := by
    rintro j t ⟨s, hs, ht⟩
    by_cases hj : j = src.inode
    · rw [hj, hr] at hs
      obtain rfl := Option.some.inj hs
      rw [hj]
      exact ⟨_, hnew, ht⟩
    · by_cases hj' : j = dst.inode
      · rw [hj', hr'] at hs
        obtain rfl := Option.some.inj hs
        rw [hj']
        exact ⟨_, hnew', ht⟩
      · exact (hkeep j hj hj').typed ⟨s, hs, ht⟩
  -- the parents are those of the entries before
  have hpar : ∀ d ∈ (ns.exchange src dst).entries, ns.IsDir d.parent := by
    intro d hd
    rcases mem_exchange hd with ⟨hp, -⟩ | ⟨hp, -⟩ | ⟨hmem, -⟩
    · exact hp ▸ h.parents src (entry_mem hsrc)
    · exact hp ▸ h.parents dst (entry_mem hdst)
    · exact h.parents d hmem
  refine ⟨?_, ?_, ?_, ?_, ?_, fun d hd => htype _ _ (hpar d hd)⟩
  · change (((ns.retarget _ _ _).retarget _ _ _).entries.map Edge.key).Nodup
    rw [keys_retarget, keys_retarget]
    exact h.keys
  · exact (hkeep _ (h.inode_ne_root (entry_mem hsrc)).symm
      (h.inode_ne_root (entry_mem hdst)).symm).root h.root
  · intro d hd
    rcases mem_exchange hd with ⟨-, hi, ht⟩ | ⟨-, hi, ht⟩ | ⟨hmem, -⟩
    · rw [hi, ht]
      exact ⟨_, hnew', hrt'⟩
    · rw [hi, ht]
      exact ⟨_, hnew, hrt⟩
    · exact htype _ _ (h.typed d hmem)
  · intro d hd hdir
    rcases mem_exchange hd with ⟨hp, hi, ht⟩ | ⟨hp, hi, ht⟩ | ⟨hmem, hk, hk'⟩
    · rw [up, hi, hnew', hp]
      rfl
    · rw [up, hi, hnew, hp]
      rfl
    · have hsrc' := h.dir_inode_ne hsrc (mem_remove.mpr ⟨hmem, hk⟩) hdir
      have hdst' := h.dir_inode_ne hdst (mem_remove.mpr ⟨hmem, hk'⟩) hdir
      exact (hkeep _ hsrc' hdst').up (h.home d hmem hdir)
  · intro j s hs
    have hlinks : (ns.exchange src dst).links j = ns.links j := by
      have hfirst := links_retarget h.keys hsrc j dst.inode dst.type
      have hdst' : (ns.retarget src.key dst.inode dst.type).entry dst.key = some dst :=
        (entry_retarget hkey).trans hdst
      have hsecond := links_retarget (by rw [keys_retarget]; exact h.keys) hdst' j src.inode src.type
      change ((ns.retarget _ _ _).retarget _ _ _).links j = _
      omega
    rw [hlinks]
    by_cases hj : j = src.inode
    · obtain rfl := Option.some.inj (hnew.symm.trans (hj ▸ hs))
      exact h.count j r (hj ▸ hr)
    · by_cases hj' : j = dst.inode
      · obtain rfl := Option.some.inj (hnew'.symm.trans (hj' ▸ hs))
        exact h.count j r' (hj' ▸ hr')
      · exact h.count j s (by simpa [exchange, hj, hj'] using hs)

end Preservation

end Namespace

end MemoryLayer.Meta
