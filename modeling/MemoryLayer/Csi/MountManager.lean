import MemoryLayer.Lib.Runs
import Mathlib.Data.List.AList

namespace MemoryLayer.Csi

/-! # The mount manager of a node

One daemon for each domain, with the targets that hold the domain.  The daemon stages the writes it
acknowledges in the directory of the domain and uploads them later.  The manager starts a daemon for the
first holder, stops it and removes the directory after the last one, and finds the daemons again from its
state file after a restart (`mountmanager.go`, `launcher_linux.go`).

What the operating system and the daemons answer is part of an event, so that every way a stop, a launch
or a write of the state file can end is an event of the model.

- `Machine`, `stopPID`, `teardownLocked`, `startLocked`: the daemons and the directories.
- `Node`: the manager, its state file and the machine.
- `acquire`, `release`, `graceTeardown`, `adopt`: the operations.
- `Event`, `Node.step`: what can happen on a node.
-/

/-! ### Daemons and directories -/

/-- A process that is running; its directory may have been removed. -/
structure Daemon where
  pid : Nat
  domain : String
  attached : Bool
  deriving DecidableEq, Repr

/-- The writes of a domain: those that were acknowledged, those that are uploaded, and those that are
    staged in its directory. -/
structure Disk where
  acked : List Nat
  uploaded : List Nat
  staged : List Nat
  deriving DecidableEq, Repr

/-- The processes, and the writes by domain. -/
structure Machine where
  daemons : List Daemon
  nextPid : Nat
  disks : String → Disk

namespace Machine

/-- The process with this number. -/
def daemon (m : Machine) (pid : Nat) : Option Daemon := m.daemons.find? fun d => d.pid = pid

/-- The process is gone. -/
def kill (m : Machine) (pid : Nat) : Machine := { m with daemons := m.daemons.filter fun d => d.pid ≠ pid }

/-- Change what is known of the writes of a domain. -/
def onDisk (m : Machine) (domain : String) (f : Disk → Disk) : Machine :=
  { m with disks := Function.update m.disks domain (f (m.disks domain)) }

/-- Upload what is staged. -/
def drain (m : Machine) (domain : String) : Machine :=
  m.onDisk domain fun disk => { disk with uploaded := disk.uploaded ++ disk.staged, staged := [] }

/-- A new process for a domain. -/
def spawn (m : Machine) (domain : String) : Machine :=
  { m with
    daemons := m.daemons ++ [⟨m.nextPid, domain, true⟩]
    nextPid := m.nextPid + 1 }

/-- Remove the directory of a domain, with all that is staged in it. -/
def removeDir (m : Machine) (domain : String) : Machine :=
  { m with
    daemons := m.daemons.map fun d => if d.domain = domain then { d with attached := false } else d
    disks := Function.update m.disks domain { m.disks domain with staged := [] } }

/-- A process acknowledges a write; it is staged, if there is a directory. -/
def write (m : Machine) (pid w : Nat) : Machine :=
  match m.daemon pid with
  | none => m
  | some d => m.onDisk d.domain fun disk =>
    { disk with
      acked := disk.acked ++ [w]
      staged := if d.attached then disk.staged ++ [w] else disk.staged }

/-- A process uploads a write that is staged. -/
def upload (m : Machine) (pid w : Nat) : Machine :=
  match m.daemon pid with
  | none => m
  | some d => m.onDisk d.domain fun disk =>
    if w ∈ disk.staged then
      { disk with uploaded := disk.uploaded ++ [w], staged := disk.staged.filter fun x => x ≠ w }
    else disk

end Machine

/-- How a process ends that is told to: by itself, after it has uploaded what is staged or without; killed
    at the deadline; killed because the caller gave up; or not at all, because it cannot be told. -/
inductive StopOutcome where
  | exited (drained : Bool)
  | killed
  | canceled
  | signalFailed
  deriving DecidableEq, Repr

/-- Stop a process, and whether that is a success; one that is gone is stopped. -/
def stopPID (m : Machine) (pid : Nat) (outcome : StopOutcome) : Bool × Machine :=
  match m.daemon pid with
  | none => (true, m)
  | some d =>
    match outcome with
    | .exited drained => (true, (if drained then m.drain d.domain else m).kill pid)
    | .killed => (true, m.kill pid)
    | .canceled => (false, m.kill pid)
    | .signalFailed => (false, m)

/-- How a teardown goes: the process stops in some way, and the directory is removed or not. -/
structure Teardown where
  stop : StopOutcome
  removes : Bool
  deriving DecidableEq, Repr

/-- Stop the process of a domain and remove its directory. -/
def teardownLocked (m : Machine) (domain : String) (pid : Nat) (t : Teardown) : Bool × Machine :=
  match stopPID m pid t.stop with
  | (false, m) => (false, m)
  | (true, m) => (true, if t.removes then m.removeDir domain else m)

/-- How a launch goes: there is no process; there is one, but it does not serve in time and is torn down
    again; or it serves. -/
inductive Launch where
  | failed
  | notReady (t : Teardown)
  | ready
  deriving DecidableEq, Repr

/-- Start a daemon for a domain. -/
def startLocked (m : Machine) (domain : String) : Launch → Option Nat × Machine
  | .failed => (none, m)
  | .notReady t => (none, (teardownLocked (m.spawn domain) domain m.nextPid t).2)
  | .ready => (some m.nextPid, m.spawn domain)

/-! ### The manager -/

/-- What is known of the mount of a domain: the process that serves it, and the targets that hold it.  The
    state file has the same. -/
structure DomainMount where
  pid : Nat
  refs : List String
  deriving DecidableEq, Repr

/-- Mounts by domain. -/
abbrev Domains := AList fun _ : String => DomainMount

/-- A node: whether the manager is serving, what it knows, what its state file says, and the machine.  Two
    fields are only for the record: which targets hold which domains, by what their callers were told and
    asked for, and which mounts were torn down for good, with their holders at that time. -/
structure Node where
  up : Bool
  domains : Domains
  state : Domains
  machine : Machine
  held : List (String × String)
  tornDown : List (String × List String)

namespace Node

/-- Nothing was ever mounted. -/
def fresh : Node := ⟨true, ∅, ∅, ⟨[], 1, fun _ => ⟨[], [], []⟩⟩, [], []⟩

/-- Write the state file; when that fails, it is as before. -/
def persistLocked (s : Node) (persists : Bool) : Node := if persists then { s with state := s.domains } else s

/-- The targets that hold a domain. -/
def holders (s : Node) (domain : String) : List String :=
  (s.held.filter fun h => h.1 = domain).map Prod.snd

/-- Note that a mount is torn down for good. -/
def note (s : Node) (domain : String) : Node :=
  { s with tornDown := s.tornDown ++ [(domain, s.holders domain)] }

/-- The caller is told that the target holds the domain. -/
def grant (s : Node) (domain target : String) : Node := { s with held := (domain, target) :: s.held }

def insert (s : Node) (domain : String) (mount : DomainMount) : Node :=
  { s with domains := s.domains.insert domain mount }

def erase (s : Node) (domain : String) : Node := { s with domains := s.domains.erase domain }

def on (s : Node) (m : Machine) : Node := { s with machine := m }

end Node

/-- How an acquisition goes: what the probe of the mount says, and then the teardown of a dead mount, the
    launch, the write of the state file, and the teardown when that fails. -/
structure Acquisition where
  probe : Option Bool
  old : Teardown
  launch : Launch
  persists : Bool
  rollback : Teardown

/-- Record the mount that was started; when the state file cannot be written, it is torn down again. -/
def install (s : Node) (domain target : String) (mount : DomainMount) (a : Acquisition) : Node :=
  if a.persists then ((s.insert domain mount).persistLocked true).grant domain target
  else ((s.insert domain mount).note domain).on
    (teardownLocked s.machine domain mount.pid a.rollback).2 |>.erase domain

/-- Mount the domain, unless it is, and record the target as a holder. -/
def acquire (s : Node) (domain target : String) (a : Acquisition) : Node :=
  match s.domains.lookup domain with
  | some mount =>
    match a.probe with
    | none => s
    | some true =>
      let s := s.insert domain { mount with refs := mount.refs.insert target }
      if a.persists then (s.persistLocked true).grant domain target else s
    | some false =>
      -- the mount is dead: launch again, for the holders there are
      let s := (s.on (teardownLocked s.machine domain mount.pid a.old).2).erase domain
      match startLocked s.machine domain a.launch with
      | (none, m) => (s.note domain).on m
      | (some pid, m) => install (s.on m) domain target ⟨pid, mount.refs.insert target⟩ a
  | none =>
    match startLocked s.machine domain a.launch with
    | (none, m) => (if a.launch = .failed then s else s.note domain).on m
    | (some pid, m) => install (s.on m) domain target ⟨pid, [target]⟩ a

/-- The order in which a map is iterated over. -/
abbrev MapOrder := { order : List String → List String // ∀ keys, (order keys).Perm keys }

/-- The order in which the keys were inserted. -/
def MapOrder.inserted : MapOrder := ⟨id, fun _ => .refl _⟩

/-- A domain that the target holds. -/
def ownerLocked (s : Node) (target : String) (order : MapOrder) : Option (String × DomainMount) :=
  (order.1 s.domains.keys).findSome? fun domain =>
    match s.domains.lookup domain with
    | some mount => if target ∈ mount.refs then some (domain, mount) else none
    | none => none

/-- Tear a mount down that nobody holds; when its process does not stop, it stays. -/
def teardownIdle (s : Node) (domain : String) (mount : DomainMount) (t : Teardown) : Bool × Node :=
  match teardownLocked s.machine domain mount.pid t with
  | (false, m) => (false, (s.note domain).on m)
  | (true, m) => (true, ((s.note domain).on m).erase domain)

/-- Drop the target as a holder; after the last one the mount is torn down, or lingers. -/
def release (linger : Bool) (s : Node) (target : String) (order : MapOrder) (t : Teardown)
    (persists : Bool) : Node :=
  let s := { s with held := s.held.filter fun h => h.2 ≠ target }
  match ownerLocked s target order with
  | none => s
  | some (domain, mount) =>
    let mount := { mount with refs := mount.refs.filter fun r => r ≠ target }
    let s := s.insert domain mount
    if mount.refs ≠ [] ∨ linger then s.persistLocked persists
    else
      match teardownIdle s domain mount t with
      | (false, s) => s.insert domain { mount with refs := [target] }
      | (true, s) => s.persistLocked persists

/-- The end of the time a mount lingers: it is torn down if nobody holds it. -/
def graceTeardown (s : Node) (domain : String) (t : Teardown) (persists : Bool) : Node :=
  match s.domains.lookup domain with
  | none => s
  | some mount =>
    if mount.refs ≠ [] then s
    else
      match teardownIdle s domain mount t with
      | (false, s) => s
      | (true, s) => s.persistLocked persists

/-- What a restarted manager finds of a domain: what the probe of the mount says, how the process of a dead
    mount stops and its directory is removed, and how an idle mount is torn down. -/
structure Adoption where
  probe : Option Bool
  dead : Teardown
  idle : Teardown

/-- Take over the domains of the state file: those with a live mount are known again, and the others are
    cleaned up, however their processes stop.  A probe that fails is an error. -/
def adoptAll (found : String → Adoption) : Node → List String → Bool × Node
  | s, [] => (true, s)
  | s, domain :: rest =>
    match s.state.lookup domain with
    | none => adoptAll found s rest
    | some mount =>
      match (found domain).probe with
      | none => (false, s)
      | some true => adoptAll found (s.insert domain mount) rest
      | some false =>
        let m := (stopPID s.machine mount.pid (found domain).dead.stop).2
        let m := if (found domain).dead.removes then m.removeDir domain else m
        adoptAll found ((s.note domain).on m) rest

/-- Tear down the mounts that nobody holds, unless they linger. -/
def adoptIdle (linger : Bool) (found : String → Adoption) : Node → List String → Node
  | s, [] => s
  | s, domain :: rest =>
    match s.domains.lookup domain with
    | none => adoptIdle linger found s rest
    | some mount =>
      if mount.refs ≠ [] ∨ linger then adoptIdle linger found s rest
      else adoptIdle linger found (teardownIdle s domain mount (found domain).idle).2 rest

/-- A restart: the manager knows nothing, and finds the domains of the state file again.  After an error it
    does not serve. -/
def adopt (linger : Bool) (s : Node) (loads : Bool) (order : MapOrder) (found : String → Adoption)
    (persists : Bool) : Node :=
  let down := { s with up := false, domains := ∅ }
  if loads then
    match adoptAll found down (order.1 s.state.keys) with
    | (false, s) => { s with domains := ∅ }
    | (true, s) =>
      let s := adoptIdle linger found s (order.1 s.domains.keys)
      if persists then { s.persistLocked true with up := true } else { s with domains := ∅ }
  else down

/-! ### Events -/

/-- What happens on a node: an operation of the manager, its restart, or something that a process does. -/
inductive Event where
  | acquire (domain target : String) (a : Acquisition)
  | release (target : String) (order : MapOrder) (t : Teardown) (persists : Bool)
  | grace (domain : String) (t : Teardown) (persists : Bool)
  | restart (loads : Bool) (order : MapOrder) (found : String → Adoption) (persists : Bool)
  | write (pid w : Nat)
  | upload (pid w : Nat)
  | die (pid : Nat)

/-- One event; a manager that is not serving does nothing. -/
def Node.step (linger : Bool) (s : Node) : Event → Node
  | .acquire domain target a => if s.up then acquire s domain target a else s
  | .release target order t persists => if s.up then release linger s target order t persists else s
  | .grace domain t persists => if s.up then graceTeardown s domain t persists else s
  | .restart loads order found persists => adopt linger s loads order found persists
  | .write pid w => s.on (s.machine.write pid w)
  | .upload pid w => s.on (s.machine.upload pid w)
  | .die pid => s.on (s.machine.kill pid)

end MemoryLayer.Csi
