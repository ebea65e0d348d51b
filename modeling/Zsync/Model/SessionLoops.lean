import Zsync.Model.Fanout
import Zsync.Model.Group
import Zsync.Model.GroupLeaf

/-! # `daemon.rs`: the loops of all sessions of a daemon

The sessions of a daemon share its hub. Each of them is in `framed_loop`, under the node id of its peer, or
in `run_relay_session`, under the key and the id of a group and the sender bytes of this node. A step is one
branch of one `select!`; what the system answers in it is a `LoopIo`. Handling a frame takes the locks of the
hub one after the other, which is one step here.

Beside the state, a message in the broadcast channel carries where its clip came from, and `sent` lists which
loop has written which message.
-/

namespace Zsync
set_option autoImplicit false
set_option maxHeartbeats 250000
open Protocol Foundations

structure Hello where
  nodeId : String
  hostname : String
  os : String
  headless : Bool
  version : String
  maxBytes : ℕ
  deriving DecidableEq, Repr

/-- What `hub.hello` asks the system and the backend for. -/
structure HostInfo where
  hostname : String
  os : String
  headless : Bool
  version : String
  deriving DecidableEq, Repr

def Hub.hello {σ : Type} (host : HostInfo) (hub : Hub σ) : Hello :=
  ⟨hub.nodeId, host.hostname, host.os, host.headless, host.version, maxClip⟩

/-! ## `sender_from_node_id` -/

namespace Group

/-- The bytes of a `str`. -/
def utf8 (s : List Char) : Bytes := s.flatMap String.utf8EncodeChar

/-- `str::is_char_boundary`. -/
def isBoundary (bytes : Bytes) (i : ℕ) : Bool :=
  i = bytes.length || match bytes[i]? with
    | some b => b < 0x80 || 0xC0 ≤ b
    | none => false

/-- `u8::from_str_radix` of two bytes to the base 16. -/
def hexByte : Bytes → Option UInt8
  | [a, b] =>
    let digit := fun b : UInt8 => hexValue (Char.ofNat b.toNat)
    if a = 0x2B then (digit b).map UInt8.ofNat
    else (digit a).bind fun high => (digit b).map fun low => UInt8.ofNat (high * 16 + low)
  | _ => none

theorem hexByte_digits {x y : UInt8} {high low : ℕ} (hx : hexValue (Char.ofNat x.toNat) = some high)
    (hy : hexValue (Char.ofNat y.toNat) = some low) : hexByte [x, y] = some (UInt8.ofNat (high * 16 + low)) := by
  have hsign : x ≠ 0x2B := by
    rintro rfl
    cases hx
  rw [hexByte]
  dsimp only
  rw [if_neg hsign, hx, hy]
  rfl

def senderByte (bytes : Bytes) (i : ℕ) : Except String UInt8 :=
  if isBoundary bytes (i * 2) && isBoundary bytes (i * 2 + 2) then
    match hexByte ((bytes.drop (i * 2)).take 2) with
    | some byte => .ok byte
    | none => .error "invalid digit found in string"
  else .error "node_id must be ASCII hex"

def senderFromNodeId (nodeId : String) : Except String (Vector UInt8 16) :=
  let bytes := utf8 (trim nodeId.toList)
  if bytes.length < 32 then .error "node_id too short"
  else ((List.range 16).mapM (senderByte bytes)).map fun id => Vector.ofFn fun k => id.getD k 0

end Group

/-- `load_or_create_node_id`, unless writing the file fails. `file` is what was read of it, `random` what the
system's random generator gives. -/
def loadOrCreateNodeId (file : Option String) (random : Vector UInt8 16) : String :=
  match file with
  | some s =>
    let id := String.ofList (trim s.toList)
    if id ≠ "" then id else hexEncode random.toList
  | none => hexEncode random.toList

/-! ## The state -/

inductive LoopError
  | proto (e : ProtoError)
  | seal (e : String)
  | data (e : DataError)
  | hub (e : HubError)

inductive LoopKind
  /-- `framed_loop`, with `peer_id`. -/
  | lan (peerId : Option String)
  /-- `run_relay_session`, past its handshake. -/
  | relay (key : Vector UInt8 32) (groupId sender : Vector UInt8 16)
  deriving DecidableEq

structure SessionLoop where
  kind : LoopKind
  counter : ℕ
  lastSync : Option String
  /-- The bytes of each frame. -/
  written : List Bytes
  ended : Option (Except LoopError Unit)

/-- Where a clip came from. -/
inductive ClipSource
  | user
  | lan (peerId : Option String)
  | relay (sender : Vector UInt8 16)
  deriving DecidableEq

structure Message where
  out : Outbound
  source : ClipSource
  deriving DecidableEq

structure Loops (σ : Type) where
  hub : Hub σ
  tx : Channel ℕ Message
  loops : ℕ → Option SessionLoop
  sent : List (ℕ × Message)

structure LoopIo where
  now : ℕ
  unixNow : String
  nonce : Vector UInt8 24
  host : HostInfo
  /-- Whether a write succeeds. -/
  writes : Bool

/-- `frame` is what `read_frame` returned. -/
inductive LoopsEvent (σ : Type)
  | start (i : ℕ) (kind : LoopKind)
  /-- The stop channel changed; `told` is what it holds. -/
  | stop (i : ℕ) (told : Bool) (io : LoopIo)
  | ping (i : ℕ) (io : LoopIo)
  | recv (i : ℕ) (io : LoopIo)
  | lanFrame (i : ℕ) (frame : Except ProtoError (FrameType × Bytes)) (io : LoopIo)
  | relayFrame (i : ℕ) (frame : Except ProtoError (Relay.FrameType × Bytes)) (io : LoopIo)
  /-- `zsync copy`. -/
  | push (now : ℕ) (saves : Bool) (item : Item)
  /-- The watcher. -/
  | observe (now : ℕ) (saves : Bool) (item : Item)
  /-- Another program changes the clipboard. -/
  | put (clipboard : σ)

/-! ## One loop -/

namespace SessionLoop

def new (kind : LoopKind) : SessionLoop := ⟨kind, 0, none, [], none⟩

def finish (res : Except LoopError Unit) (l : SessionLoop) : SessionLoop := { l with ended := some res }

/-- Writing a frame that may be too large, or fail. Also tells whether it was written. -/
def write (io : LoopIo) (frame : Except ProtoError Bytes) (l : SessionLoop) : SessionLoop × Bool :=
  match frame with
  | .error e => (l.finish (.error (.proto e)), false)
  | .ok bytes =>
    if io.writes then ({ l with written := l.written ++ [bytes] }, true)
    else (l.finish (.error (.proto .io)), false)

def synced (io : LoopIo) (l : SessionLoop) : SessionLoop := { l with lastSync := some io.unixNow }

/-- `Bye` or `Ping` of a loop. -/
def bye (io : LoopIo) (l : SessionLoop) : SessionLoop :=
  let frame := match l.kind with
    | .lan _ => encodeFrame .bye []
    | .relay _ _ _ => Relay.frameBytes .bye []
  { l with
    written := (l.write io frame).1.written
    ended := some (.ok ()) }

def ping (io : LoopIo) (l : SessionLoop) : SessionLoop :=
  (l.write io (match l.kind with
    | .lan _ => encodeFrame .ping []
    | .relay _ _ _ => Relay.frameBytes .ping [])).1

section
variable [Json ClipMeta] [Aead]

/-- A message that was received from the broadcast channel. -/
def forward (io : LoopIo) (out : Outbound) (l : SessionLoop) : SessionLoop × Bool :=
  match l.kind with
  | .lan peerId =>
    if out.skip.isSome && out.skip = peerId then (l, false) else l.write io (encodeClip out.clip)
  | .relay key groupId sender =>
    if out.skip.isNone then
      let counter := (l.counter + 1) % 2 ^ 64
      let l := { l with counter := counter }
      match encodeClipBody out.clip with
      | .error e => (l.finish (.error (.proto e)), false)
      | .ok body =>
        match Group.sealEnvelope key groupId sender counter io.nonce body with
        | .error e => (l.finish (.error (.seal e)), false)
        | .ok env => l.write io (Relay.frameBytes .data env)
    else (l, false)

end
end SessionLoop

/-- A loop, the hub and what it emitted after a frame. -/
structure FrameRet (σ : Type) where
  loop : SessionLoop
  hub : Hub σ
  out : List Message

section Frames
variable {σ : Type} [Sha256] [Json ClipMeta] [Json ClipAck] [Json Hello] (B : Backend σ)

omit [Json ClipMeta] [Json ClipAck] [Json Hello] in
/-- `apply_from` where the peer is known, else `apply_remote`. -/
def Hub.applyOver (now : ℕ) (clip : Clip) (peerId : Option String) (hub : Hub σ) : Ret σ ClipAck :=
  match peerId with
  | some id => hub.applyFrom B now clip id
  | none => hub.applyRemote B now clip

/-- The `Clip` branch of `framed_loop`. -/
def onClip (peerId : Option String) (payload : Bytes) (io : LoopIo) (l : SessionLoop) (hub : Hub σ) :
    FrameRet σ :=
  let json := fun ack : ClipAck => encodeFrame .clipAck (Json.encode ack)
  match decodeClip payload with
  | .error _ => ⟨(l.write io (json ⟨"", false, "truncated"⟩)).1, hub, []⟩
  | .ok clip =>
    let ret := hub.applyOver B io.now clip peerId
    let out := ret.out.map fun out => ⟨out, .lan peerId⟩
    match ret.res with
    | .error e => ⟨l.finish (.error (.hub e)), ret.hub, out⟩
    | .ok ack =>
      match l.write io (json ack) with
      | (l, true) => ⟨if ack.ok then l.synced io else l, ret.hub, out⟩
      | (l, false) => ⟨l, ret.hub, out⟩

def onLanFrame (peerId : Option String) (frame : Except ProtoError (FrameType × Bytes)) (io : LoopIo)
    (l : SessionLoop) (hub : Hub σ) : FrameRet σ :=
  match frame with
  | .error e => ⟨l.finish (.error (.proto e)), hub, []⟩
  | .ok (.clip, payload) => onClip B peerId payload io l hub
  | .ok (.ping, payload) => ⟨(l.write io (encodeFrame .pong payload)).1, hub, []⟩
  | .ok (.pong, _) | .ok (.clipAck, _) | .ok (.helloAck, _) => ⟨l, hub, []⟩
  | .ok (.bye, _) | .ok (.error, _) => ⟨l.finish (.ok ()), hub, []⟩
  | .ok (.hello, _) =>
    ⟨(l.write io (encodeFrame .helloAck (Json.encode (hub.hello io.host)))).1, hub, []⟩

variable [Aead]

omit [Json ClipAck] [Json Hello] in
/-- `run_relay_session` after a frame: for `Data` it does what `onData` does, and notes the time unless the
clip was dropped. -/
def onRelayFrame (key : Vector UInt8 32) (groupId : Vector UInt8 16)
    (frame : Except ProtoError (Relay.FrameType × Bytes)) (io : LoopIo) (l : SessionLoop) (hub : Hub σ) :
    FrameRet σ :=
  match frame with
  | .error e => ⟨l.finish (.error (.proto e)), hub, []⟩
  | .ok (.data, payload) =>
    let ret := onData key groupId B io.now payload hub
    let source := match Group.openEnvelope key groupId payload with
      | .ok opened => ClipSource.relay opened.sender
      | .error _ => .user
    let l := match ret.res with
      | .error e => l.finish (.error (.data e))
      | .ok none => l
      | .ok (some _) => l.synced io
    ⟨l, ret.hub, ret.out.map fun out => ⟨out, source⟩⟩
  | .ok (.ping, payload) => ⟨(l.write io (Relay.frameBytes .pong payload)).1, hub, []⟩
  | .ok (.pong, _) | .ok (.joinAck, _) | .ok (.join, _) => ⟨l, hub, []⟩
  | .ok (.bye, _) | .ok (.error, _) => ⟨l.finish (.ok ()), hub, []⟩

end Frames

/-! ## All loops -/

namespace Loops
variable {σ : Type}

def idle (hub : Hub σ) : Loops σ := ⟨hub, Channel.new, fun _ => none, []⟩

/-- Loop `i`, unless it has ended. -/
def running (i : ℕ) (s : Loops σ) : Option SessionLoop :=
  (s.loops i).filter fun l => l.ended.isNone

def put (i : ℕ) (l : SessionLoop) (s : Loops σ) : Loops σ :=
  { s with loops := Function.update s.loops i (some l) }

def subscribe (i : ℕ) (s : Loops σ) : Loops σ :=
  { s with tx := s.tx.seek i s.tx.log.length (Nat.le_refl _) }

def emit (hub : Hub σ) (out : List Message) (s : Loops σ) : Loops σ :=
  { s with
    hub := hub
    tx := s.tx.sends out }

def handled (i : ℕ) (h : FrameRet σ) (s : Loops σ) : Loops σ := (s.emit h.hub h.out).put i h.loop

variable [Sha256] [Json ClipMeta] [Json ClipAck] [Json Hello] [Aead] (B : Backend σ)

def step (s : Loops σ) : LoopsEvent σ → Option (Loops σ)
  | .start i kind =>
    if (s.loops i).isNone then some ((s.subscribe i).put i (SessionLoop.new kind)) else none
  | .stop i told io => (s.running i).map fun l => s.put i (if told then l.bye io else l)
  | .ping i io => (s.running i).map fun l => s.put i (l.ping io)
  | .recv i io =>
    match s.running i, s.tx.recv broadcastCap i with
    | some l, some (.message m, tx) =>
      let (l, wrote) := l.forward io m.out
      some { s with
        tx := tx
        loops := Function.update s.loops i (some l)
        sent := if wrote then s.sent ++ [(i, m)] else s.sent }
    | some _, some (.lagged _, tx) => some { s with tx := tx }
    | _, _ => none
  | .lanFrame i frame io =>
    match s.running i with
    | some l =>
      match l.kind with
      | .lan peerId => some (s.handled i (onLanFrame B peerId frame io l s.hub))
      | .relay _ _ _ => none
    | none => none
  | .relayFrame i frame io =>
    match s.running i with
    | some l =>
      match l.kind with
      | .relay key groupId _ => some (s.handled i (onRelayFrame B key groupId frame io l s.hub))
      | .lan _ => none
    | none => none
  | .push now saves item =>
    let ret := s.hub.localPush B now saves item
    some (s.emit ret.hub (ret.out.map fun out => ⟨out, .user⟩))
  | .observe now saves item =>
    let ret := s.hub.localObserved now saves item
    some (s.emit ret.hub (ret.out.map fun out => ⟨out, .user⟩))
  | .put clipboard => some { s with hub := { s.hub with clipboard := clipboard } }

end Loops

/-- `serde_json::to_vec` of an answer and of a greeting. They are not read back here. -/
def ackText (a : ClipAck) : String :=
  "\x7b\"hash\":\"" ++ a.hash ++ "\",\"ok\":" ++ toString a.ok ++ ",\"reason\":\"" ++ a.reason ++ "\"\x7d"

def helloText (h : Hello) : String :=
  "\x7b\"node_id\":\"" ++ h.nodeId ++ "\",\"hostname\":\"" ++ h.hostname ++ "\",\"os\":\"" ++ h.os ++
    "\",\"headless\":" ++ toString h.headless ++ ",\"version\":\"" ++ h.version ++ "\",\"max_bytes\":" ++
    Nat.repr h.maxBytes ++ "\x7d"

abbrev sampleAckJson : Json ClipAck where
  encode := fun a => (ackText a).toUTF8.toList
  decode := fun _ => none

abbrev sampleHelloJson : Json Hello where
  encode := fun h => (helloText h).toUTF8.toList
  decode := fun _ => none

end Zsync
