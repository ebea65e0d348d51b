import Zsync.Foundations.Utf8
import Zsync.Model.Handshake
import Zsync.Model.Ipc
import Zsync.Model.Net
import Zsync.Model.SessionLoops

/-! # `daemon.rs`: the task that keeps a peer connected

`maintain_tcp` and `maintain_relay` dial a peer again and again. A dial is one step here; what the network and
the peer answer during it is a `TcpIo` or a `RelayIo`, in which an error is its text. Between two dials the task
sleeps for `delay` seconds, and may be told to stop.

* `runTcpDial`, `runRelayDial` : what a dial returns, and what it notes in the status of the peer.
* `step` : the loop around the dials.
* `waited` : the waits between the dials, each with the dial before it.
-/

namespace Zsync
set_option autoImplicit false
set_option maxHeartbeats 250000
open Protocol Transport
open Handshake (JoinAck)
open Ipc (PeerStatus)

namespace Maintain

/-! ## `short_err` -/

/-- The longest front of the text that takes at most `n` bytes. -/
def takeBytes : ℕ → List Char → List Char
  | _, [] => []
  | n, c :: cs => if c.utf8Size ≤ n then c :: takeBytes (n - c.utf8Size) cs else []

def shortErr (s : String) : String :=
  if 200 < s.utf8ByteSize then String.ofList (takeBytes 200 s.toList) ++ "…" else s

/-! ## Dials -/

/-- What a dial returns, and the status it leaves. -/
structure Dialed where
  res : Except String Unit
  status : PeerStatus

def Dialed.connected (d : Dialed) : Bool := d.status.state = "connected"

/-- The names that `{:?}` prints. -/
def lanDebug : FrameType → String
  | .hello => "Hello"
  | .helloAck => "HelloAck"
  | .ping => "Ping"
  | .pong => "Pong"
  | .clip => "Clip"
  | .clipAck => "ClipAck"
  | .error => "Error"
  | .bye => "Bye"

def relayDebug : Relay.FrameType → String
  | .join => "Join"
  | .joinAck => "JoinAck"
  | .data => "Data"
  | .ping => "Ping"
  | .pong => "Pong"
  | .error => "Error"
  | .bye => "Bye"

/-- How a session ends after it was noted as connected, and the time of its last sync. -/
structure LoopEnd where
  res : Except String Unit
  lastSync : Option String

def LoopEnd.dialed (e : LoopEnd) (s : PeerStatus) : Dialed :=
  ⟨e.res, { s with lastSync := e.lastSync.orElse fun _ => s.lastSync }⟩

/-! ### `run_tcp_dial` -/

/-- What comes of `connect_peer`, `claim_live`, writing `Hello`, the frame that is read with the error of its JSON,
writing `HelloAck`, and `framed_loop`. -/
structure TcpIo where
  connect : Except String Unit
  claims : Bool
  hello : Except String Unit
  answer : Except String (FrameType × Bytes)
  json : String
  ack : Except String Unit
  loop : LoopEnd

section Tcp
variable [Json Hello]

def runTcpInit (io : TcpIo) (s : PeerStatus) : Dialed :=
  match io.hello, io.answer with
  | .error e, _ => ⟨.error e, s⟩
  | .ok (), .error e => ⟨.error e, s⟩
  | .ok (), .ok (typ, payload) =>
    if typ ≠ .helloAck ∧ typ ≠ .hello then ⟨.error ("expected HelloAck, got " ++ lanDebug typ), s⟩
    else
      match (Json.decode payload : Option Hello) with
      | none => ⟨.error io.json, s⟩
      | some remote =>
        let s := { s with
          state := "connected"
          remoteNode := some remote.nodeId
          remoteHost := some remote.hostname
          lastError := none }
        if typ = .hello then
          match io.ack with
          | .error e => ⟨.error e, s⟩
          | .ok () => io.loop.dialed s
        else io.loop.dialed s

def runTcpDial (io : TcpIo) (s : PeerStatus) : Dialed :=
  match io.connect with
  | .error e => ⟨.error e, s⟩
  | .ok () => if io.claims then runTcpInit io s else ⟨.ok (), s⟩

end Tcp

/-! ### `run_relay_dial` -/

structure ErrorMsg where
  code : String
  message : String
  deriving DecidableEq, Repr

/-- What comes of `claim_live`, everything from `connect_peer` to writing `Join`, the frame that is read with the
error of its JSON, and the loop of `run_relay_session`. -/
structure RelayIo where
  claims : Bool
  join : Except String Unit
  answer : Except String (Relay.FrameType × Bytes)
  json : String
  loop : LoopEnd

section Relay
variable [Json JoinAck] [Json ErrorMsg]

/-- What is wrong with the answer to `Join`. -/
def joinRefused (json : String) : Relay.FrameType × Bytes → Option String
  | (.joinAck, payload) =>
    match (Json.decode payload : Option JoinAck) with
    | none => some json
    | some ack => if ack.ok then none else some ("join rejected: " ++ ack.message)
  | (.error, payload) =>
    let err := ((Json.decode payload : Option ErrorMsg)).getD ⟨"error", String.ofList (Foundations.Json.lossy payload)⟩
    some ("join " ++ err.code ++ ": " ++ err.message)
  | (other, _) => some ("expected JoinAck, got " ++ relayDebug other)

def runRelaySession (target : PeerTarget) (nodeId : String) (io : RelayIo) (s : PeerStatus) : Dialed :=
  match target.relay with
  | none => ⟨.error "not a relay peer", s⟩
  | some peer =>
    if peer.key.isNone then ⟨.error "relay key not resolved", s⟩
    else
      match io.join, io.answer with
      | .error e, _ => ⟨.error e, s⟩
      | .ok (), .error e => ⟨.error e, s⟩
      | .ok (), .ok answer =>
        match joinRefused io.json answer with
        | some e => ⟨.error e, s⟩
        | none =>
          let s := { s with
            state := "connected"
            remoteHost := some (formatHostPort target.host target.port)
            lastError := none }
          match Group.senderFromNodeId nodeId with
          | .error e => ⟨.error e, s⟩
          | .ok _ => io.loop.dialed s

def runRelayDial (target : PeerTarget) (nodeId : String) (io : RelayIo) (s : PeerStatus) : Dialed :=
  if io.claims then runRelaySession target nodeId io s else ⟨.ok (), s⟩

end Relay

/-! ## The loop -/

/-- What the two loops differ in: whether a claimed key is waited for, and how the peer is dialled. -/
structure Dialer (ι : Type) where
  polls : Bool
  dial : ι → PeerStatus → Dialed

def maintainTcp [Json Hello] : Dialer TcpIo := ⟨true, runTcpDial⟩

def maintainRelay [Json JoinAck] [Json ErrorMsg] (target : PeerTarget) (nodeId : String) :
    Dialer RelayIo :=
  ⟨false, runRelayDial target nodeId⟩

inductive Point
  /-- At the top of the loop. -/
  | top
  | dialing
  /-- Asleep between two dials. -/
  | waiting
  /-- Asleep because the key is claimed. -/
  | polling
  | returned
  deriving DecidableEq, Repr

structure Maintained where
  point : Point
  /-- Seconds. -/
  delay : ℕ
  status : PeerStatus

inductive Event (ι : Type)
  /-- What the stop channel holds, and whether the key is claimed. -/
  | check (told claimed : Bool)
  /-- A dial returns, and the stop channel is looked at. -/
  | dial (io : ι) (told : Bool)
  /-- The sleep is over. -/
  | elapsed
  /-- The stop channel has changed. -/
  | notified (told : Bool)

/-- The wait between two dials, after the first of them. -/
structure Wait where
  dialed : Dialed
  seconds : ℕ

def maxDelay : ℕ := 30

/-- The status is the one that `spawn_peer` makes. -/
def start (uri : String) : Maintained := ⟨.top, 1, ⟨uri, "connecting", none, none, none, none⟩⟩

/-- The task goes to another point of its loop and notes a state. -/
def Maintained.goes (point : Point) (state : String) (s : Maintained) : Maintained :=
  { s with
    point := point
    status := { s.status with state := state } }

def Maintained.judged (d : Dialed) (s : Maintained) : Maintained :=
  match d.res with
  | .ok () => { s with
      delay := 1
      status := d.status }
  | .error e => { s with status := { d.status with lastError := some (shortErr e) } }

/-- The task is not asleep any more. -/
def Maintained.woken (s : Maintained) : Option Maintained :=
  match s.point with
  | .waiting => some { s with
      point := .top
      delay := min (s.delay * 2) maxDelay }
  | .polling => some { s with point := .top }
  | .top | .dialing | .returned => none

variable {ι : Type} (d : Dialer ι)

def step (s : Maintained) : Event ι → Option Maintained
  | .check told claimed =>
    if s.point = .top then
      some (if told then s.goes .returned "disconnected"
        else if d.polls && claimed then s.goes .polling "connected"
        else s.goes .dialing "connecting")
    else none
  | .dial io told =>
    if s.point = .dialing then
      let s := s.judged (d.dial io s.status)
      some (if told then s.goes .returned "disconnected" else s.goes .waiting "reconnecting")
    else none
  | .elapsed => s.woken
  | .notified told => if told then s.woken.map fun s => s.goes .returned "disconnected" else s.woken

/-- The wait that a step begins. -/
def waited (s : Maintained) : Event ι → Maintained → List Wait
  | .dial io _, t => if t.point = .waiting then [⟨d.dial io s.status, t.delay⟩] else []
  | .check _ _, _ | .elapsed, _ | .notified _, _ => []

end Maintain
end Zsync
