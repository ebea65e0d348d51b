import Zsync.Model.SessionLoops
import Zsync.Model.Traffic

/-! # Daemons around a relay

What `run_relay_session` of one daemon writes is read by `serve_leaf`, goes through the rooms of the relay, and is
written to the sessions of other daemons. Session `i` of the relay is the other end of loop `i` of the daemon
`home i`; a session without a home belongs to a stranger. TLS hands on the frames of one direction in order, and may
end anywhere.

* `RelayNet` : all loops of all daemons, the relay, and how much of each direction was read.
* `Hearing` : a clip that a relay session has opened, decoded, verified and handed to its hub.
-/

namespace Zsync
set_option autoImplicit false
set_option maxHeartbeats 250000
open Protocol Foundations

/-- The clip that the `Data` branch of `run_relay_session` hands to `apply_from`, and the peer it names. -/
def readVerified [Sha256] [Json ClipMeta] [Aead] (key : Vector UInt8 32) (groupId : Vector UInt8 16)
    (payload : Bytes) : Option (String × Clip) :=
  (readEnvelope key groupId payload).filter fun p => decide (Verified p.2)

/-- The frames that loop `i` has written, if it is a relay session. -/
def Loops.frames {σ : Type} (i : ℕ) (s : Loops σ) : List Bytes :=
  match s.loops i with
  | some l =>
    match l.kind with
    | .relay _ _ _ => l.written
    | .lan _ => []
  | none => []

structure Hearing where
  loop : ℕ
  /-- The session that had sent it to the relay. -/
  source : ℕ
  peer : String
  clip : Clip
  deriving DecidableEq

structure RelayNet (σ : Type) where
  daemon : ℕ → Loops σ
  relay : Traffic
  /-- How many frames of a loop the relay has read. -/
  up : ℕ → ℕ
  /-- How many payloads of a session its loop has read. -/
  down : ℕ → ℕ
  heard : List Hearing

inductive RelayNetEvent (σ : Type)
  | daemon (d : ℕ) (e : LoopsEvent σ)
  | relay (e : TrafficEvent)
  /-- The relay reads the next frame of loop `i`. -/
  | upload (i : ℕ)
  /-- A stranger sends `Data`. -/
  | stranger (i : ℕ) (payload : Bytes)
  /-- Loop `i` reads the next `Data` frame of its session. -/
  | download (i : ℕ) (io : LoopIo)

namespace RelayNet
variable {σ : Type}

def setDaemon (d : ℕ) (loops : Loops σ) (s : RelayNet σ) : RelayNet σ :=
  { s with daemon := Function.update s.daemon d loops }

/-- What loop `i` has handed to its hub of what session `j` had sent. -/
def heardFrom (i j : ℕ) (s : RelayNet σ) : List Clip :=
  (s.heard.filter fun h => h.loop = i ∧ h.source = j).map Hearing.clip

variable [Sha256] [Json ClipMeta] [Aead]

/-- What loop `i` hands to its hub of a payload. -/
def hearing (key : Vector UInt8 32) (groupId : Vector UInt8 16) (i : ℕ) (p : Parcel) : Option Hearing :=
  (readVerified key groupId p.payload).map fun q => ⟨i, p.source, q.1, q.2⟩

/-- What a session makes of a frame of the other side. -/
def serveFrame (i : ℕ) (relay : Traffic) : Except ProtoError ((Relay.FrameType × Bytes) × Bytes) → Option Traffic
  | .ok ((.data, payload), _) => relay.step (.data i payload)
  | .ok ((.ping, _), _) | .ok ((.pong, _), _) | .ok ((.join, _), _) | .ok ((.joinAck, _), _) =>
    if (relay.server.sessionAt i .looping).isSome ∧ relay.pending i = none then some relay else none
  | .ok ((.bye, _), _) | .ok ((.error, _), _) | .error _ => relay.step (.server (.finish i))

/-- The step reads what comes from the relay. -/
def readsData (home : ℕ → Option ℕ) (d : ℕ) : LoopsEvent σ → Bool
  | .relayFrame i (.ok (.data, _)) _ => home i = some d
  | _ => false

def step [Json ClipAck] [Json Hello] (home : ℕ → Option ℕ) (B : ℕ → Backend σ) (s : RelayNet σ) :
    RelayNetEvent σ → Option (RelayNet σ)
  | .daemon d e =>
    if readsData home d e then none else ((s.daemon d).step (B d) e).map fun loops => s.setDaemon d loops
  | .relay (.data _ _) => none
  | .relay e => (s.relay.step e).map fun relay => { s with relay := relay }
  | .upload i => do
    let d ← home i
    let frame ← ((s.daemon d).frames i)[s.up i]?
    let relay ← serveFrame i s.relay (Relay.readFrame frame)
    some { s with relay := relay, up := Function.update s.up i (s.up i + 1) }
  | .stranger i payload =>
    if home i = none then (s.relay.step (.data i payload)).map fun relay => { s with relay := relay } else none
  | .download i io => do
    let d ← home i
    let p ← (s.relay.written i)[s.down i]?
    let l ← (s.daemon d).running i
    let loops ← (s.daemon d).step (B d) (.relayFrame i (.ok (.data, p.payload)) io)
    let new := match l.kind with
      | .relay key groupId _ => hearing key groupId i p
      | .lan _ => none
    some { s.setDaemon d loops with
      down := Function.update s.down i (s.down i + 1)
      heard := s.heard ++ new.toList }

end RelayNet
end Zsync
