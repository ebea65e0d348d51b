import Zsync.Model.Allowlist
import Zsync.Model.Framing
import Zsync.Model.Rooms

/-! # `zsyncd.rs`: connections before they have joined

The relay accepts a connection, waits for TLS and for a first frame, and looks the group of a `Join` up. Every
connection that is turned away is counted for its address, and after some of them the address is banned. What a
connection does between two points at which another one can run is one step; time passes in steps of its own.

* `ProbeTracker` : the counts and the bans.
* `Front` : everything but the allowlist. `sent` is what a client has received.
* `Server` : with the file and the cache of the allowlist. The file stays as it is.
-/

namespace Zsync
set_option autoImplicit false
set_option maxHeartbeats 250000
open Protocol Foundations Zsync.Group

/-! ## `ProbeTracker` -/

/-- Nanoseconds. -/
abbrev Instant := ℕ

abbrev IpAddr := String

def second : ℕ := 1000000000

def probeWindow : ℕ := 60 * second
def probeMaxFails : UInt32 := 8
def probeBan : ℕ := 10 * 60 * second

structure ProbeState where
  fails : UInt32
  window : Instant
  bannedUntil : Option Instant
  deriving DecidableEq, Repr

structure ProbeTracker where
  inner : IpAddr → Option ProbeState

namespace ProbeTracker

def new : ProbeTracker := ⟨fun _ => none⟩

def banned (now : Instant) (s : ProbeState) : Bool :=
  match s.bannedUntil with
  | some t => now < t
  | none => false

def gc (now : Instant) (p : ProbeTracker) : ProbeTracker :=
  ⟨fun ip => (p.inner ip).filter fun s => banned now s || decide (now - s.window ≤ probeWindow)⟩

/-- The clock is read twice. -/
def isBanned (now later : Instant) (ip : IpAddr) (p : ProbeTracker) : Bool × ProbeTracker :=
  let p := p.gc now
  (match p.inner ip with
    | some s => banned later s
    | none => false, p)

def fail (now : Instant) (ip : IpAddr) (p : ProbeTracker) : ProbeTracker :=
  let s := (p.inner ip).getD ⟨0, now, none⟩
  let s := if probeWindow < now - s.window then { s with fails := 0, window := now } else s
  let s := { s with fails := s.fails + 1 }
  let s := if probeMaxFails ≤ s.fails then { s with bannedUntil := some (now + probeBan) } else s
  ⟨Function.update p.inner ip (some s)⟩

def ok (ip : IpAddr) (p : ProbeTracker) : ProbeTracker := ⟨Function.update p.inner ip none⟩

end ProbeTracker

/-! ## Connections -/

namespace Handshake

structure Join where
  groupId : String
  deviceId : String
  hostname : String
  version : String
  deriving DecidableEq, Repr

structure JoinAck where
  ok : Bool
  message : String
  deriving DecidableEq, Repr

inductive Phase
  | tls
  | reading (r : Reading UInt8 Relay.FrameType)
  /-- Looking the group up is next. -/
  | asking (join : Join)
  /-- `ProbeTracker::fail` is next, and then the connection is closed. -/
  | refusing
  /-- `ProbeTracker::ok` is next. -/
  | allowed (gid : String) (join : Join)
  /-- `Rooms::join` is next. -/
  | joining (gid : String) (join : Join)
  /-- Writing `JoinAck` is next. -/
  | acking (gid : String)
  | joined (gid : String)
  | closed
  deriving DecidableEq, Repr

structure Conn where
  ip : IpAddr
  peer : String
  phase : Phase
  sent : Bytes
  deriving DecidableEq, Repr

structure Front where
  now : Instant
  probes : ProbeTracker
  rooms : Rooms
  /-- The stop channels that were told to stop. -/
  stopped : List ℕ
  conns : ℕ → Option Conn

inductive FrontEvent
  | tick (d : ℕ)
  /-- `pause` is the time between the two readings of the clock in `is_banned`. -/
  | accept (i : ℕ) (ip : IpAddr) (peer : String) (pause : ℕ)
  /-- TLS is there, or it fails or takes too long. -/
  | tls (i : ℕ) (ok : Bool)
  | recv (i : ℕ) (b : UInt8)
  /-- The stream ends, or the frame takes too long. -/
  | giveUp (i : ℕ)
  | ask (i : ℕ)
  | refuse (i : ℕ)
  | allow (i : ℕ)
  | join (i : ℕ)
  /-- So many bytes of `JoinAck` can be written. -/
  | joinAck (i : ℕ) (taken : ℕ)
  deriving DecidableEq, Repr

namespace Front

def put (i : ℕ) (c : Conn) (f : Front) : Front := { f with conns := Function.update f.conns i (some c) }

/-- Connection `i` goes on to `phase`. -/
def goes (i : ℕ) (c : Conn) (phase : Phase) (f : Front) : Front := f.put i { c with phase := phase }

def accept (i : ℕ) (ip : IpAddr) (peer : String) (pause : ℕ) (f : Front) : Front :=
  let (banned, probes) := f.probes.isBanned f.now (f.now + pause) ip
  let f := { f with now := f.now + pause, probes := probes }
  f.put i ⟨ip, peer, if banned then .closed else .tls, []⟩

variable [Json Join] [Json JoinAck]

omit [Json JoinAck] in
/-- What `serve_leaf` makes of the first frame. -/
def received (typ : Relay.FrameType) (payload : Bytes) : Phase :=
  if typ ≠ .join then .refusing
  else
    match Json.decode payload with
    | some join => .asking join
    | none => .refusing

omit [Json JoinAck] in
def fed : Fed UInt8 Relay.FrameType ProtoError → Phase
  | .more r => .reading r
  | .frame typ payload => received typ payload
  | .failed _ => .refusing

/-- `JoinAck` as it is written. -/
def ackBytes : Except ProtoError Bytes := Relay.frameBytes .joinAck (Json.encode (JoinAck.mk true ""))

def joinAck (i : ℕ) (c : Conn) (gid : String) (taken : ℕ) (f : Front) : Front :=
  match ackBytes with
  | .error _ => f.goes i c .closed
  | .ok bytes =>
    f.put i { c with
      sent := c.sent ++ bytes.take taken
      phase := if bytes.length ≤ taken then .joined gid else .closed }

def join (i : ℕ) (c : Conn) (gid : String) (join : Join) (f : Front) : Front :=
  let (rooms, told) := f.rooms.join gid join.deviceId join.hostname c.peer i i
  { f.goes i c (.acking gid) with rooms := rooms, stopped := f.stopped ++ told }

/-- Every step but looking a group up; `enabled` is the answer to that. -/
def step (enabled : String → Bool) (f : Front) : FrontEvent → Option Front
  | .tick d => some { f with now := f.now + d }
  | .accept i ip peer pause => if (f.conns i).isNone then some (f.accept i ip peer pause) else none
  | .tls i ok =>
    match f.conns i with
    | some c =>
      if c.phase = .tls then some (f.goes i c (if ok then .reading .fresh else .refusing)) else none
    | none => none
  | .recv i b =>
    match f.conns i with
    | some c =>
      match c.phase with
      | .reading r => some (f.goes i c (fed (r.feed Relay.relayCodec b)))
      | _ => none
    | none => none
  | .giveUp i =>
    match f.conns i with
    | some c =>
      match c.phase with
      | .reading _ => some (f.goes i c .refusing)
      | _ => none
    | none => none
  | .ask i =>
    match f.conns i with
    | some c =>
      match c.phase with
      | .asking join =>
        match parseGroupId join.groupId.toList with
        | .ok id =>
          some (f.goes i c (if enabled (hexEncode id) then .allowed (hexEncode id) join else .refusing))
        | .error _ => some (f.goes i c .refusing)
      | _ => none
    | none => none
  | .refuse i =>
    match f.conns i with
    | some c =>
      if c.phase = .refusing then some { f.goes i c .closed with probes := f.probes.fail f.now c.ip } else none
    | none => none
  | .allow i =>
    match f.conns i with
    | some c =>
      match c.phase with
      | .allowed gid join => some { f.goes i c (.joining gid join) with probes := f.probes.ok c.ip }
      | _ => none
    | none => none
  | .join i =>
    match f.conns i with
    | some c =>
      match c.phase with
      | .joining gid join => some (f.join i c gid join)
      | _ => none
    | none => none
  | .joinAck i taken =>
    match f.conns i with
    | some c =>
      match c.phase with
      | .acking gid => some (f.joinAck i c gid taken)
      | _ => none
    | none => none

/-- The step calls `Allowlist::get`. -/
def looksUp (f : Front) : FrontEvent → Bool
  | .ask i =>
    match f.conns i with
    | some ⟨_, _, .asking join, _⟩ => (parseGroupId join.groupId.toList).isOk
    | _ => false
  | _ => false

end Front
end Handshake

namespace Allowlist
variable {file : Option OnDisk} {a : Allowlist}

/-- `Allowlist::refresh`, while nobody changes the file. -/
def refresh (file : Option OnDisk) (a : Allowlist) : Allowlist :=
  let mtime := file.map OnDisk.mtime
  if a.fresh mtime then a
  else if mtime.isNone && file.isNone then .clear
  else .reload mtime file

/-- The cache has the content of the file. -/
theorem refresh_groups (h : Coherent file a) :
    (a.refresh file).groups = GroupMap.collect (loadGroups file) := by
  unfold refresh
  dsimp only
  split_ifs with hfresh hnone
  · obtain ⟨htime, hfull⟩ := Bool.and_eq_true_iff.mp hfresh
    exact h (of_decide_eq_true htime).symm (by simpa using hfull)
  · rw [Option.isNone_iff_eq_none.mp (Bool.and_eq_true_iff.mp hnone).2]
    rfl
  · rfl

theorem refresh_coherent (h : Coherent file a) : Coherent file (a.refresh file) :=
  fun _ _ => refresh_groups h

end Allowlist

namespace Handshake

structure Server where
  file : Option OnDisk
  allow : Allowlist
  coherent : Coherent file allow
  front : Front

namespace Server
variable [Json Join] [Json JoinAck]

omit [Json Join] [Json JoinAck] in
/-- `Allowlist::get`, and whether the group is enabled. -/
def enabled (s : Server) (id : String) : Bool :=
  (((s.allow.refresh s.file).groups.get id).map GroupRec.enabled).getD false

omit [Json Join] [Json JoinAck] in
/-- The state after a `get`. -/
def refreshed (s : Server) : Server :=
  { s with allow := s.allow.refresh s.file, coherent := Allowlist.refresh_coherent s.coherent }

def step (s : Server) (e : FrontEvent) : Option Server :=
  (s.front.step s.enabled e).map fun front =>
    { (if s.front.looksUp e then s.refreshed else s) with front := front }

end Server
end Handshake
end Zsync
