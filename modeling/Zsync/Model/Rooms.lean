import Mathlib.Logic.Function.Basic
import Mathlib.Tactic.Common

/-! # `zsyncd.rs`: rooms and the sessions of the relay

A room lists the devices of a group that are connected. A member holds the two ends through which
the server reaches its session: the queue for payloads and the stop channel; both are named by the
session they belong to. A step of `serve_leaf` is what it does between two points at which another
session can run.

Beside the state, `RelayServer` keeps a history: which sessions were replaced by a later join of their
device, and which were kicked. Both count for every session of the device that has joined.
-/

namespace Zsync
set_option autoImplicit false
set_option maxHeartbeats 250000

structure Member where
  deviceId : String
  hostname : String
  peer : String
  tx : ℕ
  stop : ℕ
  deriving DecidableEq, Repr

structure LiveDevice where
  deviceId : String
  hostname : String
  peer : String
  deriving DecidableEq, Repr

structure Rooms where
  inner : String → Option (List Member)

namespace Rooms

def members (group : String) (rooms : Rooms) : List Member := (rooms.inner group).getD []

def setGroup (group : String) (members : Option (List Member)) (rooms : Rooms) : Rooms :=
  ⟨Function.update rooms.inner group members⟩

def isDevice (device : String) (m : Member) : Bool := m.deviceId = device

/-- The first member of the device is taken out and told to stop, and the new one is appended. Also
returns the stop channels that are told. -/
def join (group device hostname peer : String) (tx stop : ℕ) (rooms : Rooms) : Rooms × List ℕ :=
  let members := rooms.members group
  let old := (members.find? (isDevice device)).toList.map Member.stop
  let members := members.eraseP (isDevice device) ++ [⟨device, hostname, peer, tx, stop⟩]
  (rooms.setGroup group (some members), old)

def leave (group device : String) (rooms : Rooms) : Rooms :=
  match rooms.inner group with
  | none => rooms
  | some members =>
    let members := members.filter fun m => !isDevice device m
    rooms.setGroup group (if members = [] then none else some members)

/-- Whether a member was found, the rooms, and the stop channels that are told. -/
def kick (group device : String) (rooms : Rooms) : Bool × Rooms × List ℕ :=
  match rooms.inner group with
  | none => (false, rooms, [])
  | some members =>
    match members.find? (isDevice device) with
    | none => (false, rooms, [])
    | some m => (true, rooms.setGroup group (some (members.eraseP (isDevice device))), [m.stop])

def kickGroup (group : String) (rooms : Rooms) : Rooms × List ℕ :=
  match rooms.inner group with
  | none => (rooms, [])
  | some members => (rooms.setGroup group none, members.map Member.stop)

/-- The online count of a group. -/
def snapshot (group : String) (rooms : Rooms) : Option ℕ := (rooms.inner group).map List.length

/-- `Rooms::members`: the devices listed for a group. -/
def liveDevices (group : String) (rooms : Rooms) : Option (List LiveDevice) :=
  (rooms.inner group).map fun members => members.map fun m => ⟨m.deviceId, m.hostname, m.peer⟩

end Rooms

/-! ## `serve_leaf` -/

/-- How far a session has come. -/
inductive LeafPhase
  /-- Its `Join` was accepted; `Rooms::join` is next. -/
  | allowed
  /-- Writing `JoinAck` is next. -/
  | joined
  | looping
  /-- The loop is over; `Rooms::leave` is next. -/
  | leaving
  | done
  deriving DecidableEq, Repr

structure Leaf where
  group : String
  device : String
  hostname : String
  peer : String
  phase : LeafPhase
  deriving DecidableEq, Repr

structure RelayServer where
  rooms : Rooms
  /-- The stop channels that were told to stop. -/
  stopped : List ℕ
  sessions : ℕ → Option Leaf
  replaced : ℕ → Bool
  kicked : ℕ → Bool

inductive RelayEvent
  /-- An allowed `Join` of a connection was read. -/
  | allow (i : ℕ) (group device hostname peer : String)
  | join (i : ℕ)
  /-- Writing `JoinAck` succeeds or fails. -/
  | joinAck (i : ℕ) (ok : Bool)
  /-- The loop ends, for whatever reason. -/
  | finish (i : ℕ)
  | leave (i : ℕ)
  | kick (group device : String)
  | kickGroup (group : String)
  deriving DecidableEq, Repr

namespace RelayServer

def put (i : ℕ) (leaf : Leaf) (r : RelayServer) : RelayServer :=
  { r with sessions := Function.update r.sessions i (some leaf) }

/-- Session `i`, when it has come as far as `phase`. -/
def sessionAt (i : ℕ) (phase : LeafPhase) (r : RelayServer) : Option Leaf :=
  (r.sessions i).filter fun leaf => leaf.phase = phase

/-- Session `j` has joined and meets `p`. -/
def hasJoined (p : Leaf → Bool) (r : RelayServer) (j : ℕ) : Bool :=
  match r.sessions j with
  | some leaf => p leaf && leaf.phase ≠ .allowed
  | none => false

def sameDevice (group device : String) (leaf : Leaf) : Bool :=
  leaf.group = group && leaf.device = device

def join (i : ℕ) (leaf : Leaf) (r : RelayServer) : RelayServer :=
  let (rooms, told) := r.rooms.join leaf.group leaf.device leaf.hostname leaf.peer i i
  { r with
    rooms := rooms
    stopped := r.stopped ++ told
    replaced := fun j => r.replaced j || r.hasJoined (sameDevice leaf.group leaf.device) j
    sessions := Function.update r.sessions i (some { leaf with phase := .joined }) }

def leave (i : ℕ) (leaf : Leaf) (r : RelayServer) : RelayServer :=
  { r with
    rooms := r.rooms.leave leaf.group leaf.device
    sessions := Function.update r.sessions i (some { leaf with phase := .done }) }

def kick (group device : String) (r : RelayServer) : RelayServer :=
  let (_, rooms, told) := r.rooms.kick group device
  { r with
    rooms := rooms
    stopped := r.stopped ++ told
    kicked := fun j => r.kicked j || r.hasJoined (sameDevice group device) j }

def kickGroup (group : String) (r : RelayServer) : RelayServer :=
  let (rooms, told) := r.rooms.kickGroup group
  { r with
    rooms := rooms
    stopped := r.stopped ++ told
    kicked := fun j => r.kicked j || r.hasJoined (fun leaf => leaf.group = group) j }

def step (r : RelayServer) : RelayEvent → Option RelayServer
  | .allow i group device hostname peer =>
    if (r.sessions i).isNone then some (r.put i ⟨group, device, hostname, peer, .allowed⟩)
    else none
  | .join i => (r.sessionAt i .allowed).map fun leaf => r.join i leaf
  | .joinAck i ok =>
    -- `?` returns from `serve_leaf` without `Rooms::leave`.
    (r.sessionAt i .joined).map fun leaf =>
      r.put i { leaf with phase := if ok then .looping else .done }
  | .finish i => (r.sessionAt i .looping).map fun leaf => r.put i { leaf with phase := .leaving }
  | .leave i => (r.sessionAt i .leaving).map fun leaf => r.leave i leaf
  | .kick group device => some (r.kick group device)
  | .kickGroup group => some (r.kickGroup group)

end RelayServer
end Zsync
