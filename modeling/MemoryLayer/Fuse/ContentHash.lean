import MemoryLayer.Fileio.Reference

namespace MemoryLayer.Fuse

open Meta Fileio Runs

/-! # The content hash of a file

The bridge keeps a running hash of each file that is written (`fuse/contenthash.go`) and stores the
digest on the inode when a handle is closed (`fuse/bridge.go`).

- `HashState`: the running hash and its watermark; `note`, `invalidate`, `finalize`.
- `Bridge`, `Call`: the mount with its files, and the calls of the kernel.
- `Noticed`: a call changes no bytes behind the back of the hash.
- `hash_current`: **when every call is noticed and every handle is released, the stored hash is
  empty or that of the bytes.**
- `hash_stale_after_truncate`: a truncation of a file that was not written since it was opened is
  not noticed.
- `hashFile_eq`: streaming the file through the data path hashes the same bytes.
-/

/-! ### The running hash -/

/-- The running hash: the bytes it absorbed, its watermark, and whether it may be used. -/
structure HashState where
  absorbed : List UInt8
  hashedLen : Nat
  valid : Bool
  deriving DecidableEq, Repr

/-- A hash that absorbed nothing. -/
def newHashState : HashState := ⟨[], 0, true⟩

namespace HashState

/-- Fold a completed write in: at the watermark it is absorbed, elsewhere it spoils the hash. -/
def note (h : HashState) (offset : Nat) (data : List UInt8) : HashState :=
  if h.valid = false then h
  else if offset = h.hashedLen then
    { h with absorbed := h.absorbed ++ data, hashedLen := h.hashedLen + data.length }
  else if offset < h.hashedLen then { h with valid := false }
  else { h with valid := false }

/-- Force the file to be hashed again. -/
def invalidate (h : HashState) : HashState := { h with valid := false }

/-- The digest and the watermark, when the hash may be used. -/
def finalize (sha : List UInt8 → String) (h : HashState) : Option (String × Nat) :=
  if h.valid = false then none else some (sha h.absorbed, h.hashedLen)

end HashState

/-! ### The bridge -/

/-- A file: its bytes, and `node.content_hash`. -/
structure FileNode where
  bytes : List UInt8
  contentHash : String
  deriving DecidableEq, Repr

/-- The mount: the running hashes, the files and the number of open handles by inode. -/
structure Bridge where
  hashDisabled : Bool
  hashStates : Ino → Option HashState
  nodes : Ino → Option FileNode
  opens : Ino → Nat

/-- What fails while a hash is stored: reading the file again, or the update of the inode. -/
inductive HashFault where
  | none
  | hashFile
  | setContentHash
  deriving DecidableEq, Repr

namespace Bridge

/-- Give a file other bytes. -/
def setBytes (b : Bridge) (ino : Ino) (bytes : List UInt8) : Bridge :=
  { b with nodes := Function.update b.nodes ino ((b.nodes ino).map ({ · with bytes := bytes })) }

/-- The bytes of a file. -/
def bytesOf (b : Bridge) (ino : Ino) : List UInt8 := ((b.nodes ino).map FileNode.bytes).getD []

/-- Store a digest on the inode. -/
def setContentHash (b : Bridge) (ino : Ino) (digest : String) : Bridge :=
  { b with
    nodes := Function.update b.nodes ino ((b.nodes ino).map ({ · with contentHash := digest })) }

/-- Fold a completed write into the file's hash, starting one on first use. -/
def noteWriteHash (b : Bridge) (ino : Ino) (offset : Nat) (data : List UInt8) : Bridge :=
  if b.hashDisabled then b
  else
    { b with
      hashStates := Function.update b.hashStates ino
        (some (((b.hashStates ino).getD newHashState).note offset data)) }

/-- Spoil the file's hash, when there is one. -/
def invalidateHash (b : Bridge) (ino : Ino) : Bridge :=
  if b.hashDisabled then b
  else
    { b with
      hashStates := Function.update b.hashStates ino ((b.hashStates ino).map HashState.invalidate) }

/-- The digest of the running hash, when its watermark is the length of the file. -/
def fastDigest (sha : List UInt8 → String) (b : Bridge) (ino : Ino) (h : HashState) :
    Option String :=
  match h.finalize sha, b.nodes ino with
  | some (digest, hashedLen), some node => if node.bytes.length = hashedLen then some digest else none
  | _, _ => none

/-- Store the hash of a file that was written: that of the running hash, or of the whole file. -/
def finalizeHash (sha : List UInt8 → String) (b : Bridge) (ino : Ino) (fault : HashFault) :
    Bridge :=
  if b.hashDisabled then b
  else
    match b.hashStates ino with
    | none => b
    | some h =>
      match b.fastDigest sha ino h with
      | some digest => if fault = .setContentHash then b else b.setContentHash ino digest
      | none =>
        if fault = .none then b.setContentHash ino (sha (b.bytesOf ino)) else b

end Bridge

/-- A call of the kernel.  `write` leaves the first `n` bytes of its data in the file and may fail
    then; `copyFileRange` leaves the destination with some bytes and may fail then. -/
inductive Call where
  | create (ino : Ino)
  | open (ino : Ino)
  | write (ino : Ino) (offset : Nat) (data : List UInt8) (n : Nat) (ok : Bool)
  | setAttr (ino : Ino) (size : Nat) (ok : Bool)
  | copyFileRange (dst : Ino) (bytes : List UInt8) (ok : Bool)
  | flush (ino : Ino) (fault : HashFault)
  | fsync (ino : Ino)
  | release (ino : Ino) (fault : HashFault)
  deriving DecidableEq, Repr

/-- The bridge after a call. -/
def Bridge.step (sha : List UInt8 → String) (b : Bridge) : Call → Bridge
  | .create ino =>
    if (b.nodes ino).isSome then b
    else
      { b with
        nodes := Function.update b.nodes ino (some ⟨[], ""⟩)
        opens := Function.update b.opens ino (b.opens ino + 1) }
  | .open ino =>
    if (b.nodes ino).isSome then { b with opens := Function.update b.opens ino (b.opens ino + 1) }
    else b
  | .write ino offset data n ok =>
    let b' := b.setBytes ino (refWrite (b.bytesOf ino) offset (data.take n))
    if ok then b'.noteWriteHash ino offset (data.take n) else b'
  | .setAttr ino size ok =>
    if ok then (b.setBytes ino (refTruncate (b.bytesOf ino) size)).invalidateHash ino else b
  | .copyFileRange dst bytes ok =>
    if ok then (b.setBytes dst bytes).invalidateHash dst else b.setBytes dst bytes
  | .flush ino fault => b.finalizeHash sha ino fault
  | .fsync _ => b
  | .release ino fault =>
    let b' := b.finalizeHash sha ino fault
    { b' with
      hashStates := Function.update b'.hashStates ino none
      opens := Function.update b'.opens ino (b'.opens ino - 1) }

/-! ### What is noticed -/

variable (sha : List UInt8 → String) {g : FileNode → FileNode} {calls : List Call} {call : Call}

/-- The stored hash is empty or that of the bytes. -/
def FileNode.Current (node : FileNode) : Prop :=
  node.contentHash = "" ∨ node.contentHash = sha node.bytes

instance (node : FileNode) : Decidable (node.Current sha) := inferInstanceAs (Decidable (_ ∨ _))

/-- A change of the bytes that is not reported does not touch what the running hash absorbed; a file
    without one has no hash or keeps its bytes. -/
def Bridge.Unharmed (b : Bridge) (ino : Ino) (bytes : List UInt8) : Prop :=
  ∀ node ∈ b.nodes ino,
    match b.hashStates ino with
    | some h => h.valid = false ∨ h.absorbed <+: bytes
    | none => node.contentHash = "" ∨ bytes = node.bytes

/-- A change of the bytes that is reported to the running hash: a file without one has no hash or
    keeps its bytes. -/
def Bridge.Reported (b : Bridge) (ino : Ino) (bytes : List UInt8) : Prop :=
  ∀ node ∈ b.nodes ino, b.hashStates ino = none → node.contentHash = "" ∨ bytes = node.bytes

/-- The call comes through an open handle where it needs one, and no bytes change behind the back of
    the hash. -/
def Noticed (b : Bridge) : Call → Prop
  | .write ino offset data n ok => 0 < b.opens ino ∧
    (ok = false → b.Unharmed ino (refWrite (b.bytesOf ino) offset (data.take n)))
  | .setAttr ino size ok => ok = true → b.Reported ino (refTruncate (b.bytesOf ino) size)
  | .copyFileRange dst bytes ok => if ok then b.Reported dst bytes else b.Unharmed dst bytes
  | .release ino fault => 0 < b.opens ino ∧ (fault = .none ∨ b.hashStates ino = none ∨
    ∀ node ∈ b.nodes ino, node.Current sha)
  | _ => True

instance (b : Bridge) (ino : Ino) (bytes : List UInt8) : Decidable (b.Unharmed ino bytes) :=
  have (node : FileNode) : Decidable (match b.hashStates ino with
      | some h => h.valid = false ∨ h.absorbed <+: bytes
      | none => node.contentHash = "" ∨ bytes = node.bytes) :=
    match b.hashStates ino with
    | some h => inferInstanceAs (Decidable (h.valid = false ∨ h.absorbed <+: bytes))
    | none => inferInstanceAs (Decidable (node.contentHash = "" ∨ bytes = node.bytes))
  inferInstanceAs (Decidable (∀ node ∈ b.nodes ino, _))

instance (b : Bridge) (ino : Ino) (bytes : List UInt8) : Decidable (b.Reported ino bytes) :=
  inferInstanceAs (Decidable (∀ node ∈ b.nodes ino, _))

instance (b : Bridge) : (call : Call) → Decidable (Noticed sha b call)
  | .write _ _ _ _ _ => inferInstanceAs (Decidable (_ ∧ (_ → _)))
  | .setAttr _ _ _ => inferInstanceAs (Decidable (_ → _))
  | .copyFileRange _ _ true => inferInstanceAs (Decidable (b.Reported _ _))
  | .copyFileRange _ _ false => inferInstanceAs (Decidable (b.Unharmed _ _))
  | .release _ _ => inferInstanceAs (Decidable (_ ∧ (_ ∨ _ ∨ _)))
  | .create _ | .open _ | .flush _ _ | .fsync _ => inferInstanceAs (Decidable True)

/-! ### What every history keeps -/

/-- A running hash that may be used absorbed a first part of the file. -/
def HashState.Follows (h : HashState) (bytes : List UInt8) : Prop :=
  h.valid = true → h.hashedLen = h.absorbed.length ∧ h.absorbed <+: bytes

/-- What is kept for one file. -/
structure FileKept (b : Bridge) (ino : Ino) : Prop where
  untracked : b.hashStates ino = none → ∀ node ∈ b.nodes ino, node.Current sha
  tracked : ∀ h, b.hashStates ino = some h → ∀ node ∈ b.nodes ino, h.Follows node.bytes
  released : b.opens ino = 0 → b.hashStates ino = none
  present : 0 < b.opens ino → (b.nodes ino).isSome
  disabled : b.hashDisabled = true →
    b.hashStates ino = none ∧ ∀ node ∈ b.nodes ino, node.contentHash = ""

variable {sha}

theorem newHashState_follows (bytes : List UInt8) : newHashState.Follows bytes :=
  fun _ => ⟨rfl, List.nil_prefix⟩

variable {bytes : List UInt8} {f : Files}

/-- A write at the watermark is what comes next. -/
theorem prefix_refWrite {absorbed : List UInt8} (h : absorbed <+: bytes) (data : List UInt8) :
    absorbed ++ data <+: refWrite bytes absorbed.length data := by
  obtain ⟨rest, rfl⟩ := h
  unfold refWrite
  split
  case isTrue hnil =>
    rw [hnil, List.append_nil]
    exact List.prefix_append _ _
  case isFalse =>
    have hgap : absorbed.length - (absorbed ++ rest).length = 0 := by
      rw [List.length_append]
      omega
    rw [List.take_left, hgap, List.replicate_zero, List.append_nil]
    exact List.prefix_append _ _

theorem HashState.Follows.note {h : HashState} (hf : h.Follows bytes)
    (offset : Nat) (data : List UInt8) : (h.note offset data).Follows (refWrite bytes offset data) := by
  unfold HashState.note
  split
  case isTrue hinvalid =>
    intro hvalid
    rw [hinvalid] at hvalid
    cases hvalid
  case isFalse hvalid =>
    split
    case isTrue hoff =>
      intro _
      obtain ⟨hlen, hpart⟩ := hf (by simpa using hvalid)
      refine ⟨by simp [hlen], ?_⟩
      rw [hoff, hlen]
      exact prefix_refWrite hpart data
    case isFalse =>
      split
      · exact nofun
      · exact nofun

section Steps

variable {b : Bridge} {ino : Ino}

variable {node : FileNode} {bytes : List UInt8} {digest : String}

theorem bytesOf_eq (h : node ∈ b.nodes ino) : b.bytesOf ino = node.bytes := by
  rw [Bridge.bytesOf, Option.mem_def.mp h]
  rfl

/-- A file's node after a change of it. -/
theorem mem_update
    (h : node ∈ Function.update b.nodes ino ((b.nodes ino).map g) ino) : ∃ old ∈ b.nodes ino, node = g old := by
  rw [Function.update_self] at h
  obtain ⟨old, hold, rfl⟩ := Option.map_eq_some_iff.mp h
  exact ⟨old, hold, rfl⟩

theorem isSome_update :
    (Function.update b.nodes ino ((b.nodes ino).map g) ino).isSome = (b.nodes ino).isSome := by
  rw [Function.update_self, Option.isSome_map]

section

variable (h : FileKept sha b ino)

include h

/-- A change of the bytes that the hash is not told of. -/
theorem FileKept.unharmed (hquiet : b.Unharmed ino bytes) : FileKept sha (b.setBytes ino bytes) ino where
  untracked hnone node hnode := by
    obtain ⟨old, hold, rfl⟩ := mem_update hnode
    have hcase := hquiet old hold
    have hnone' : b.hashStates ino = none := hnone
    rw [hnone'] at hcase
    rcases hcase with hempty | rfl
    · exact .inl hempty
    · exact h.untracked hnone' old hold
  tracked hs hsome node hnode hvalid := by
    obtain ⟨old, hold, rfl⟩ := mem_update hnode
    have hcase := hquiet old hold
    have hsome' : b.hashStates ino = some hs := hsome
    rw [hsome'] at hcase
    rcases hcase with hinvalid | hpart
    · rw [hinvalid] at hvalid
      cases hvalid
    · exact ⟨(h.tracked hs hsome' old hold hvalid).1, hpart⟩
  released := h.released
  present hopen := isSome_update.trans (h.present hopen)
  disabled hdis := by
    refine ⟨(h.disabled hdis).1, fun node hnode => ?_⟩
    obtain ⟨old, hold, rfl⟩ := mem_update hnode
    exact (h.disabled hdis).2 old hold

theorem FileKept.unharmed_of_disabled (hdis : b.hashDisabled = true) :
    b.Unharmed ino bytes := by
  intro node hnode
  obtain ⟨hnone, hempty⟩ := h.disabled hdis
  rw [hnone]
  exact .inl (hempty node hnode)

/-- A change of the bytes after which the hash is spoiled. -/
theorem FileKept.reported (hreported : b.Reported ino bytes) :
    FileKept sha ((b.setBytes ino bytes).invalidateHash ino) ino := by
  unfold Bridge.invalidateHash
  split
  case isTrue hdis => exact h.unharmed (h.unharmed_of_disabled hdis)
  case isFalse hdis =>
    have hstate : Function.update b.hashStates ino ((b.hashStates ino).map HashState.invalidate) ino
        = (b.hashStates ino).map HashState.invalidate := Function.update_self ..
    refine ⟨fun hnone node hnode => ?_, fun hs hsome node hnode hvalid => ?_, fun hopen => ?_,
      fun hopen => isSome_update.trans (h.present hopen), fun hdis' => absurd hdis' hdis⟩
    · have hnone' : b.hashStates ino = none := Option.map_eq_none_iff.mp (hstate.symm.trans hnone)
      obtain ⟨old, hold, rfl⟩ := mem_update hnode
      rcases hreported old hold hnone' with hempty | rfl
      · exact .inl hempty
      · exact h.untracked hnone' old hold
    · obtain ⟨old, -, rfl⟩ := Option.map_eq_some_iff.mp (hstate.symm.trans hsome)
      cases hvalid
    · exact hstate.trans (by rw [h.released hopen]; rfl)

/-- A completed write. -/
theorem FileKept.written (hopen : 0 < b.opens ino) (offset : Nat)
    (data : List UInt8) :
    FileKept sha ((b.setBytes ino (refWrite (b.bytesOf ino) offset data)).noteWriteHash ino offset data)
      ino := by
  unfold Bridge.noteWriteHash
  split
  case isTrue hdis => exact h.unharmed (h.unharmed_of_disabled hdis)
  case isFalse hdis =>
    have hstate : Function.update b.hashStates ino
        (some (((b.hashStates ino).getD newHashState).note offset data)) ino
          = some (((b.hashStates ino).getD newHashState).note offset data) := Function.update_self ..
    refine ⟨fun hnone => ?_, fun hs hsome node hnode => ?_, fun hclosed => ?_,
      fun hopen => isSome_update.trans (h.present hopen), fun hdis' => absurd hdis' hdis⟩
    · cases hstate.symm.trans hnone
    · obtain rfl := Option.some.inj (hstate.symm.trans hsome)
      obtain ⟨old, hold, rfl⟩ := mem_update hnode
      rw [bytesOf_eq hold]
      refine HashState.Follows.note ?_ offset data
      cases hs : b.hashStates ino with
      | none => exact newHashState_follows _
      | some hs' => exact h.tracked hs' hs old hold
    · exact absurd hclosed (Nat.ne_of_gt hopen)

/-- The digest of the running hash is that of the file. -/
theorem FileKept.fastDigest {hs : HashState}
    (hsome : b.hashStates ino = some hs)
    (hfast : b.fastDigest sha ino hs = some digest) :
    ∀ node ∈ b.nodes ino, digest = sha node.bytes := by
  intro node hnode
  unfold Bridge.fastDigest HashState.finalize at hfast
  rw [Option.mem_def.mp hnode] at hfast
  cases hvalid : hs.valid with
  | false =>
    rw [hvalid] at hfast
    cases hfast
  | true =>
    rw [hvalid] at hfast
    obtain ⟨hlen, hpart⟩ := h.tracked hs hsome node hnode hvalid
    simp only [Bool.true_eq_false, if_false] at hfast
    split at hfast
    case isFalse => cases hfast
    case isTrue heq =>
      obtain rfl := Option.some.inj hfast
      rw [hpart.eq_of_length (by omega)]

end

/-- The hash is stored, or it is not and the file has no running hash or something failed. -/
theorem finalizeHash_cases (sha : List UInt8 → String) (b : Bridge) (ino : Ino) (fault : HashFault) :
    (b.finalizeHash sha ino fault = b ∧
        (b.hashDisabled = true ∨ b.hashStates ino = none ∨ fault ≠ .none)) ∨
      ∃ digest, b.finalizeHash sha ino fault = b.setContentHash ino digest ∧ b.hashDisabled = false ∧
        ((∃ hs, b.hashStates ino = some hs ∧ b.fastDigest sha ino hs = some digest) ∨
          digest = sha (b.bytesOf ino)) := by
  unfold Bridge.finalizeHash
  cases hdis : b.hashDisabled with
  | true => exact .inl ⟨rfl, .inl rfl⟩
  | false =>
    simp only [Bool.false_eq_true, if_false]
    cases hs : b.hashStates ino with
    | none => exact .inl ⟨rfl, .inr (.inl rfl)⟩
    | some state =>
      simp only
      cases hfast : b.fastDigest sha ino state with
      | some digest =>
        simp only
        split
        case isTrue hfault => exact .inl ⟨rfl, .inr (.inr (by rw [hfault]; decide))⟩
        case isFalse => exact .inr ⟨digest, rfl, trivial, .inl ⟨state, rfl, hfast⟩⟩
      | none =>
        simp only
        split
        case isTrue => exact .inr ⟨_, rfl, trivial, .inr rfl⟩
        case isFalse hfault => exact .inl ⟨rfl, .inr (.inr hfault)⟩

/-- Storing the hash of the bytes. -/
theorem FileKept.stamped (h : FileKept sha b ino) (hdis : b.hashDisabled = false)
    (hdigest : ∀ node ∈ b.nodes ino, digest = sha node.bytes) :
    FileKept sha (b.setContentHash ino digest) ino ∧
      ∀ node ∈ (b.setContentHash ino digest).nodes ino, node.Current sha := by
  have hcurrent : ∀ node ∈ (b.setContentHash ino digest).nodes ino, node.Current sha := by
    intro node hnode
    obtain ⟨old, hold, rfl⟩ := mem_update hnode
    exact .inr (hdigest old hold)
  refine ⟨⟨fun _ => hcurrent, fun hs hsome node hnode => ?_, h.released,
    fun hopen => isSome_update.trans (h.present hopen), fun hdis' => ?_⟩, hcurrent⟩
  · obtain ⟨old, hold, rfl⟩ := mem_update hnode
    exact h.tracked hs hsome old hold
  · have hdis'' : b.hashDisabled = true := hdis'
    rw [hdis] at hdis''
    cases hdis''

/-- What is kept when the hash is stored, and that it is current unless something failed. -/
theorem FileKept.flushed (h : FileKept sha b ino) (fault : HashFault) :
    FileKept sha (b.finalizeHash sha ino fault) ino ∧
      (fault = .none ∨ b.hashStates ino = none ∨ (∀ node ∈ b.nodes ino, node.Current sha) →
        ∀ node ∈ (b.finalizeHash sha ino fault).nodes ino, node.Current sha) := by
  rcases finalizeHash_cases sha b ino fault with ⟨heq, hnone⟩ | ⟨digest, heq, hdis, hdigest⟩
  · rw [heq]
    refine ⟨h, fun hfault => ?_⟩
    rcases hnone with hdis | hnone | hne
    · exact h.untracked (h.disabled hdis).1
    · exact h.untracked hnone
    · rcases hfault with hfault | hnone | hcurrent
      · exact absurd hfault hne
      · exact h.untracked hnone
      · exact hcurrent
  · rw [heq]
    have hsha : ∀ node ∈ b.nodes ino, digest = sha node.bytes := by
      intro node hnode
      rcases hdigest with ⟨hs, hsome, hfast⟩ | rfl
      · exact h.fastDigest hsome hfast node hnode
      · rw [bytesOf_eq hnode]
    exact (h.stamped hdis hsha).imp_right fun hcurrent _ => hcurrent

/-- The last thing a handle does: the hash is stored and the running hash dropped. -/
theorem FileKept.closed (h : FileKept sha b ino) {fault : HashFault}
    (hfault : fault = .none ∨ b.hashStates ino = none ∨ ∀ node ∈ b.nodes ino, node.Current sha) :
    FileKept sha (b.step sha (.release ino fault)) ino := by
  obtain ⟨hkept, hcurrent⟩ := h.flushed fault
  have hstate : (b.step sha (.release ino fault)).hashStates ino = none := Function.update_self ..
  have hopens : (b.step sha (.release ino fault)).opens ino
      = (b.finalizeHash sha ino fault).opens ino - 1 := Function.update_self ..
  refine ⟨fun _ => hcurrent hfault, fun hs hsome => ?_, fun _ => hstate, fun hopen => hkept.present ?_,
    fun hdis => ⟨hstate, (hkept.disabled hdis).2⟩⟩
  swap
  · rw [hopens] at hopen
    omega
  rw [hstate] at hsome
  cases hsome

/-- Nothing is changed of a file. -/
structure Same (b b' : Bridge) (ino : Ino) : Prop where
  disabled : b'.hashDisabled = b.hashDisabled
  states : b'.hashStates ino = b.hashStates ino
  node : b'.nodes ino = b.nodes ino
  opens : b'.opens ino = b.opens ino

theorem FileKept.of_same {b' : Bridge} (h : FileKept sha b ino) (hsame : Same b b' ino) : FileKept sha b' ino := by
  obtain ⟨hdis, hstate, hnode, hopen⟩ := hsame
  exact ⟨by rw [hstate, hnode]; exact h.untracked, by rw [hstate, hnode]; exact h.tracked,
    by rw [hstate, hopen]; exact h.released, by rw [hopen, hnode]; exact h.present,
    by rw [hdis, hstate, hnode]; exact h.disabled⟩

end Steps

/-- The file that a call is about. -/
def Call.ino : Call → Ino
  | .create ino | .open ino | .write ino .. | .setAttr ino .. | .copyFileRange ino .. | .flush ino _
  | .fsync ino | .release ino _ => ino

variable {b : Bridge} {ino : Ino}

theorem finalizeHash_other (sha : List UInt8 → String) (b : Bridge) {j : Ino} (fault : HashFault) (hj : j ≠ ino) :
    Same b (b.finalizeHash sha ino fault) j := by
  rcases finalizeHash_cases sha b ino fault with ⟨heq, -⟩ | ⟨digest, heq, -⟩
  · rw [heq]
    exact ⟨rfl, rfl, rfl, rfl⟩
  · rw [heq]
    exact ⟨rfl, rfl, Function.update_of_ne hj .., rfl⟩

/-- Other files keep their bytes, hashes and handles. -/
theorem step_other (sha : List UInt8 → String) (b : Bridge) (call : Call) {j : Ino} (hj : j ≠ call.ino) :
    Same b (b.step sha call) j := by
  cases call with
  | create ino =>
    simp only [Bridge.step]
    split
    · exact ⟨rfl, rfl, rfl, rfl⟩
    · exact ⟨rfl, rfl, Function.update_of_ne hj .., Function.update_of_ne hj ..⟩
  | «open» ino =>
    simp only [Bridge.step]
    split
    · exact ⟨rfl, rfl, rfl, Function.update_of_ne hj ..⟩
    · exact ⟨rfl, rfl, rfl, rfl⟩
  | write ino offset data n ok =>
    cases ok with
    | false => exact ⟨rfl, rfl, Function.update_of_ne hj .., rfl⟩
    | true =>
      simp only [Bridge.step, Bridge.noteWriteHash, if_true]
      split
      · exact ⟨rfl, rfl, Function.update_of_ne hj .., rfl⟩
      · exact ⟨rfl, Function.update_of_ne hj .., Function.update_of_ne hj .., rfl⟩
  | setAttr ino size ok =>
    cases ok with
    | false => exact ⟨rfl, rfl, rfl, rfl⟩
    | true =>
      simp only [Bridge.step, Bridge.invalidateHash, if_true]
      split
      · exact ⟨rfl, rfl, Function.update_of_ne hj .., rfl⟩
      · exact ⟨rfl, Function.update_of_ne hj .., Function.update_of_ne hj .., rfl⟩
  | copyFileRange dst bytes ok =>
    cases ok with
    | false => exact ⟨rfl, rfl, Function.update_of_ne hj .., rfl⟩
    | true =>
      simp only [Bridge.step, Bridge.invalidateHash, if_true]
      split
      · exact ⟨rfl, rfl, Function.update_of_ne hj .., rfl⟩
      · exact ⟨rfl, Function.update_of_ne hj .., Function.update_of_ne hj .., rfl⟩
  | flush ino fault => exact finalizeHash_other sha b fault hj
  | fsync ino => exact ⟨rfl, rfl, rfl, rfl⟩
  | release ino fault =>
    obtain ⟨hdis, hstates, hnode, hopens⟩ := finalizeHash_other sha b fault hj
    exact ⟨hdis, (Function.update_of_ne hj ..).trans hstates, hnode, (Function.update_of_ne hj ..).trans hopens⟩

theorem FileKept.step (h : FileKept sha b call.ino)
    (hnoticed : Noticed sha b call) : FileKept sha (b.step sha call) call.ino := by
  cases call with
  | create ino =>
    simp only [Bridge.step]
    split
    case isTrue => exact h
    case isFalse =>
      have hnode : ∀ node ∈ Function.update b.nodes ino (some ⟨[], ""⟩) ino, node = ⟨[], ""⟩ := by
        intro node hnode
        rw [Function.update_self] at hnode
        exact (Option.some.inj hnode).symm
      refine ⟨fun _ node hmem => ?_, fun hs hsome node hmem => ?_, fun hclosed => ?_, fun _ => ?_,
        fun hdis => ?_⟩
      · rw [hnode node hmem]
        exact .inl rfl
      · -- a file that is not there has no handle and no running hash
        have hclosed : b.opens ino = 0 := by
          by_contra hopen
          exact absurd (h.present (Nat.pos_of_ne_zero hopen)) ‹_›
        cases (h.released hclosed).symm.trans hsome
      · exact absurd ((Function.update_self ..).symm.trans hclosed) (Nat.succ_ne_zero _)
      · show (Function.update b.nodes ino _ ino).isSome = true
        rw [Function.update_self]
        rfl
      · exact ⟨(h.disabled hdis).1, fun node hmem => by rw [hnode node hmem]⟩
  | «open» ino =>
    simp only [Bridge.step]
    split
    · refine ⟨h.untracked, h.tracked, fun hclosed => ?_, fun _ => ‹_›, h.disabled⟩
      exact absurd ((Function.update_self ..).symm.trans hclosed) (Nat.succ_ne_zero _)
    · exact h
  | write ino offset data n ok =>
    cases ok with
    | false => exact h.unharmed (hnoticed.2 rfl)
    | true => exact h.written hnoticed.1 offset (data.take n)
  | setAttr ino size ok =>
    cases ok with
    | false => exact h
    | true => exact h.reported (hnoticed rfl)
  | copyFileRange dst bytes ok =>
    cases ok with
    | false => exact h.unharmed hnoticed
    | true => exact h.reported hnoticed
  | flush ino fault => exact (h.flushed fault).1
  | fsync ino => exact h
  | release ino fault => exact h.closed hnoticed.2

/-! ### The results -/

variable (sha)

/-- A file system that was just mounted: nothing is open, and the stored hashes are current. -/
structure Mounted (b : Bridge) : Prop where
  states : ∀ ino, b.hashStates ino = none
  opens : ∀ ino, b.opens ino = 0
  current : ∀ ino, ∀ node ∈ b.nodes ino, node.Current sha
  disabled : b.hashDisabled = true → ∀ ino, ∀ node ∈ b.nodes ino, node.contentHash = ""

theorem Mounted.kept (h : Mounted sha b) (ino : Ino) : FileKept sha b ino where
  untracked _ := h.current ino
  tracked hs hsome := by
    rw [h.states ino] at hsome
    cases hsome
  released _ := h.states ino
  present hopen := absurd (h.opens ino) (Nat.ne_of_gt hopen)
  disabled hdis := ⟨h.states ino, h.disabled hdis ino⟩

theorem FileKept.current (h : FileKept sha b ino) (hclosed : b.opens ino = 0) :
    ∀ node ∈ b.nodes ino, node.Current sha :=
  h.untracked (h.released hclosed)

theorem kept_run (hb : Mounted sha b)
    (hcalls : Guarded (Bridge.step sha) (Noticed sha) b calls) :
    ∀ ino, FileKept sha (run (Bridge.step sha) b calls) ino := by
  refine invariant_of_guarded (fun b => ∀ ino, FileKept sha b ino) (fun b call h hcall j => ?_)
    (Mounted.kept sha hb) hcalls
  by_cases hj : j = call.ino
  · rw [hj]
    exact (h call.ino).step hcall
  · exact (h j).of_same (step_other sha b call hj)

/-- **The stored hash.**  After every history of calls that are all noticed, a file without an open
    handle has an empty hash or that of its bytes. -/
theorem hash_current (b : Bridge) (hb : Mounted sha b) (calls : List Call)
    (hcalls : Guarded (Bridge.step sha) (Noticed sha) b calls) (ino : Ino) :
    let b' := run (Bridge.step sha) b calls
    b'.opens ino = 0 → ∀ node ∈ b'.nodes ino, node.Current sha :=
  (kept_run sha hb hcalls ino).current sha

/-- An empty file system. -/
def Bridge.empty : Bridge := ⟨false, fun _ => none, fun _ => none, fun _ => 0⟩

/-- A digest for runs: the number of bytes. -/
def sizeDigest (bytes : List UInt8) : String := toString bytes.length

/-- Two handles, one of which is released while the other still writes; the file is cut while it has
    a running hash. -/
theorem hash_current_two_handles :
    let b' := run (Bridge.step sizeDigest) Bridge.empty [.create 2, .open 2,
      .write 2 0 [1, 2, 3] 3 true, .release 2 .none, .write 2 3 [4] 1 true, .setAttr 2 2 true,
      .flush 2 .none, .release 2 .none]
    b'.nodes 2 = some ⟨[1, 2], "2"⟩ ∧ ∀ node ∈ b'.nodes 2, node.Current sizeDigest := by
  have hempty : Mounted sizeDigest Bridge.empty :=
    ⟨fun _ => rfl, fun _ => rfl, nofun, nofun⟩
  have hcalls : Guarded (Bridge.step sizeDigest) (Noticed sizeDigest) Bridge.empty [.create 2,
      .open 2, .write 2 0 [1, 2, 3] 3 true, .release 2 .none, .write 2 3 [4] 1 true,
      .setAttr 2 2 true, .flush 2 .none, .release 2 .none] := by decide
  exact ⟨by decide, hash_current sizeDigest Bridge.empty hempty _ hcalls 2 (by decide)⟩

/-- **A stale hash.**  A file is written and closed, opened again and cut to nothing: the truncation
    finds no running hash to spoil, so the old hash stays when the file is closed. -/
theorem hash_stale_after_truncate :
    let b' := run (Bridge.step sizeDigest) Bridge.empty [.create 2, .write 2 0 [1] 1 true,
      .flush 2 .none, .release 2 .none, .open 2, .setAttr 2 0 true, .flush 2 .none, .release 2 .none]
    b'.opens 2 = 0 ∧ b'.nodes 2 = some ⟨[], "1"⟩ ∧ ¬ FileNode.Current sizeDigest ⟨[], "1"⟩ := by
  refine ⟨by decide, by decide, ?_⟩
  rintro (h | h)
  · exact absurd h (by decide)
  · exact absurd h (by decide)

/-! ### Hashing through the data path -/

/-- The size of the pieces in which a file is hashed. -/
def hashStreamSize : Nat := 2 ^ 20

/-- The loop of `HashFile`: what the hash absorbs, piece by piece. -/
def hashLoop (f : Files) (ino : Ino) (fileLen : Nat) :
    Nat → Nat → List UInt8 → Except FileErr (List UInt8)
  | 0, _, absorbed => .ok absorbed
  | fuel + 1, off, absorbed =>
    if off < fileLen then
      match f.read ino off (min (fileLen - off) hashStreamSize) with
      | .error err => .error err
      | .ok buf =>
        if buf.length = 0 then .ok absorbed
        else hashLoop f ino fileLen fuel (off + buf.length) (absorbed ++ buf)
    else .ok absorbed

/-- The digest of a whole file. -/
def hashFile (f : Files) (ino : Ino) : Except FileErr String :=
  match f.engine.getAttr ino with
  | .error st => .error (.getAttr st)
  | .ok attr => (hashLoop f ino attr.length attr.length 0 []).map sha

theorem hashLoop_eq (h : Represents f ino bytes)
    (fuel off : Nat) (hfuel : bytes.length ≤ off + fuel) :
    hashLoop f ino bytes.length fuel off (bytes.take off) = .ok bytes := by
  induction fuel generalizing off with
  | zero => rw [hashLoop, List.take_of_length_le (by omega)]
  | succ fuel ih =>
    rw [hashLoop]
    split
    case isFalse hend => rw [List.take_of_length_le (by omega)]
    case isTrue hless =>
      have hpos : 0 < hashStreamSize := by decide
      generalize hashStreamSize = size at hpos
      rw [h.read]
      have hlen : ((bytes.drop off).take (min (bytes.length - off) size)).length
          = min (bytes.length - off) size := by
        rw [List.length_take, List.length_drop]
        omega
      simp only [hlen]
      rw [if_neg (by omega), ← List.take_add]
      exact ih _ (by omega)

/-- **Hashing a file.**  The loop of `HashFile` over the data path hashes exactly the bytes of the
    file. -/
theorem hashFile_eq (h : Represents f ino bytes) :
    hashFile sha f ino = .ok (sha bytes) := by
  obtain ⟨a, ha, -, hbytes⟩ := h.file
  have hlen : a.length = bytes.length := by rw [hbytes, length_tabulate]
  have hloop := hashLoop_eq h bytes.length 0 (by omega)
  rw [List.take_zero] at hloop
  rw [hashFile, getAttr_eq, ha.node]
  simp only [hlen, hloop]
  rfl

/-- What a call does to the data path. -/
def Call.onFiles (now : Time) (f : Files) : Call → Files
  | .write ino offset data _ _ => (f.write now ino offset data).2
  | .setAttr ino size _ => { f with engine := (f.engine.truncate now ino size).2 }
  | _ => f

/-- A call on an existing file that is not a copy, below `2 ^ 57` and without an error. -/
def Call.Plain : Call → Prop
  | .write _ offset data n ok => ok = true ∧ n = data.length ∧ offset + data.length ≤ 2 ^ 57
  | .setAttr _ size ok => ok = true ∧ size ≤ 2 ^ 57
  | .copyFileRange .. | .create _ => False
  | _ => True

theorem finalizeHash_bytes (b : Bridge) (ino : Ino) (fault : HashFault) {node : FileNode}
    (h : node ∈ (b.finalizeHash sha ino fault).nodes ino) :
    ∃ old ∈ b.nodes ino, node.bytes = old.bytes := by
  rcases finalizeHash_cases sha b ino fault with ⟨heq, -⟩ | ⟨digest, heq, -⟩
  · rw [heq] at h
    exact ⟨node, h, rfl⟩
  · rw [heq] at h
    obtain ⟨old, hold, rfl⟩ := mem_update h
    exact ⟨old, hold, rfl⟩

/-- The bytes of the bridge's file stay those of the data path. -/
theorem represents_call (now : Time) (hplain : call.Plain)
    (h : ∀ node ∈ b.nodes call.ino, Represents f call.ino node.bytes) :
    ∀ node ∈ (b.step sha call).nodes call.ino,
      Represents (call.onFiles now f) call.ino node.bytes := by
  intro node hnode
  cases call with
  | create ino => exact hplain.elim
  | copyFileRange dst bytes ok => exact hplain.elim
  | «open» ino =>
    simp only [Bridge.step] at hnode
    split at hnode
    · exact h node hnode
    · exact h node hnode
  | fsync ino => exact h node hnode
  | flush ino fault | release ino fault =>
    obtain ⟨old, hold, heq⟩ := finalizeHash_bytes sha b ino fault hnode
    rw [heq]
    exact h old hold
  | write ino offset data n ok =>
    obtain ⟨rfl, rfl, hend⟩ := hplain
    have hmem : node ∈ (b.setBytes ino (refWrite (b.bytesOf ino) offset data)).nodes ino := by
      simp only [Bridge.step, List.take_length, if_true, Bridge.noteWriteHash] at hnode
      split at hnode
      · exact hnode
      · exact hnode
    obtain ⟨old, hold, rfl⟩ := mem_update hmem
    obtain ⟨hids, a, ha, hlen, hbytes⟩ := h old hold
    obtain ⟨f', hwrite, hwrote⟩ := write_effect now ha hids hend
    have hfiles : (Call.write ino offset data data.length true).onFiles now f = f' :=
      congrArg Prod.snd hwrite
    rw [hfiles, bytesOf_eq hold, hbytes]
    exact represents_wrote ha hlen hend hwrote
  | setAttr ino size ok =>
    obtain ⟨rfl, hsize⟩ := hplain
    have hmem : node ∈ (b.setBytes ino (refTruncate (b.bytesOf ino) size)).nodes ino := by
      simp only [Bridge.step, if_true, Bridge.invalidateHash] at hnode
      split at hnode
      · exact hnode
      · exact hnode
    obtain ⟨old, hold, rfl⟩ := mem_update hmem
    obtain ⟨hids, a, ha, hlen, hbytes⟩ := h old hold
    obtain ⟨e', htrunc, hres⟩ := truncate_engine now (show FileOk f ino a from ha) hids size
    have hfiles : (Call.setAttr ino size true).onFiles now f = { f with engine := e' } := by
      rw [Call.onFiles, htrunc]
    rw [hfiles, bytesOf_eq hold, hbytes]
    exact represents_resized ha hsize hres

end MemoryLayer.Fuse
