import Zsync.Model.Hub
import Zsync.Model.Paste

/-! # `copy`, and the daemon behind its socket

`zsync copy` hands its bytes to a running daemon, whose hub sets the clipboard and sends the clip to the peers; where
none runs it sets the clipboard by itself.

* `Served.dispatch` : `dispatch`, over the hub and what it has sent. `connect` and `disconnect` are a parameter.
* `serve` : the loop of `handle_ipc`, with what the requests leave behind.
* `putViaDaemon`, `putDirect` : the two ways of `put_clipboard`.
-/

namespace Zsync
set_option autoImplicit false
set_option maxHeartbeats 250000
open Protocol Foundations

/-! ## Texts of errors -/

/-- `to_string` of the error; `io` is how the operating system describes its own. -/
def BackendError.text (io : Files.IoError → String) : BackendError → String
  | .payloadTooLarge => "clipboard payload exceeds 10MiB"
  | .io e => io e

def HubError.text (io : Files.IoError → String) : HubError → String
  | .payloadTooLarge => "clipboard payload exceeds 10MiB"
  | .backend e => e.text io
  | .persistSeq => "persist seq"

/-- A backend with everything that the daemon asks it. -/
structure Served (σ : Type) where
  backend : Backend σ
  name : String
  headless : Bool
  /-- `current_path`, as a text. -/
  currentPath : σ → String
  /-- How the operating system describes an error. -/
  io : Files.IoError → String

/-- The daemon as a process: its pid, its port and what it shows of its peers. -/
structure Process where
  pid : UInt32
  port : UInt16
  peers : List Ipc.PeerStatus

/-- The hub, and what it has put on its channel so far. -/
structure Serving (σ : Type) where
  hub : Hub σ
  sent : List Outbound

/-! ## The daemon -/

namespace Served
open Ipc
variable {σ : Type} (b : Served σ)

/-- What `paste` looks at. -/
def shown (s : σ) : Shown where
  get := (b.backend.get s).mapError (BackendError.text b.io)
  headless := b.headless
  currentPath := b.currentPath s

def collectStatus (p : Process) (hub : Hub σ) : StatusPayload :=
  let cur := match b.backend.get hub.clipboard with
    | .ok item => item
    | .error _ => none
  { daemonPid := p.pid
    nodeId := hub.nodeId
    clipboard := b.name
    headless := b.headless
    currentMime := cur.map Item.mime
    currentHash := cur.map Item.hash
    currentBytes := cur.map fun item => UInt64.ofNat item.data.length
    currentPath := shownPath (b.shown hub.clipboard)
    port := p.port
    peers := p.peers }

variable [Sha256]

/-- The `copy` branch of `dispatch`. -/
def dispatchCopy (now : ℕ) (saves : Bool) (req : Ipc.Request) (body : Bytes) (s : Serving σ) :
    (Ipc.Response × Bytes) × Serving σ :=
  let ret := s.hub.localPush b.backend now saves (Item.new (req.mime.getD "") body)
  let answer := match ret.res with
    | .ok _ => ({ Ipc.Response.none with ok := true }, [])
    | .error e => errResp (e.text b.io)
  (answer, ⟨ret.hub, s.sent ++ ret.out⟩)

/-- `others` are `connect` and `disconnect`, which leave the hub alone. -/
def dispatch (p : Process) (others : Ipc.Request → Ipc.Response × Bytes) (now : ℕ) (saves : Bool)
    (req : Ipc.Request) (body : Bytes) (s : Serving σ) : (Ipc.Response × Bytes) × Serving σ :=
  if req.action = "status" then
    (({ Ipc.Response.none with ok := true, status := some (b.collectStatus p s.hub) }, []), s)
  else if req.action = "connect" ∨ req.action = "disconnect" then (others req, s)
  else if req.action = "copy" then b.dispatchCopy now saves req body s
  else if req.action = "paste" then (dispatchPaste (b.shown s.hub.clipboard), s)
  else (errResp ("unknown action " ++ req.action), s)

end Served

namespace Ipc

/-- What the loop of `handle_ipc` writes for the messages that it reads, and what they leave behind. It ends where
an answer cannot be written. -/
def serve [SerdeJson] {τ : Type} (dispatch : Ipc.Request → Bytes → τ → (Ipc.Response × Bytes) × τ) :
    List (Ipc.Request × Bytes) → τ → Bytes × τ
  | [], s => ([], s)
  | (req, body) :: ms, s =>
    let ((resp, out), s) := dispatch req body s
    match writeMsg { resp with n := UInt64.ofNat out.length } out with
    | .error _ => ([], s)
    | .ok bytes =>
      let (rest, s) := serve dispatch ms s
      (bytes ++ rest, s)

/-- `Connection::roundtrip`, with what it leaves behind in the daemon. -/
def exchange [SerdeJson] {τ : Type} (dispatch : Ipc.Request → Bytes → τ → (Ipc.Response × Bytes) × τ)
    (req : Ipc.Request) (body : Bytes) (s : τ) : Except String Ipc.Response × τ :=
  match writeMsg req body with
  | .error e => (.error e, s)
  | .ok stream =>
    let (out, s) := serve dispatch ((messages Ipc.Request).all stream).1 s
    ((readResponse out).mapError IpcError.message, s)

end Ipc

/-! ## The command line -/

/-- Standard input is read up to one byte more than a clip may have; `none` is a terminal. -/
def readCopyPayload (stdin : Option Bytes) (text : List String) : Except String Bytes :=
  match stdin with
  | some input =>
    let buf := input.take (maxClip + 1)
    if maxClip < buf.length then .error "clipboard payload exceeds 10MiB" else .ok buf
  | none =>
    if text = [] then .error "nothing to copy; pipe data or pass text: echo hi | zsync c"
    else .ok (" ".intercalate text).toUTF8.toList

def copyReq (mime : String) : Ipc.Request := { Ipc.Request.none with action := "copy", mime := some mime }

namespace Served
open Ipc
variable {σ : Type} [Sha256] (b : Served σ)

def putViaDaemon [SerdeJson] (p : Process) (others : Ipc.Request → Ipc.Response × Bytes) (now : ℕ) (saves : Bool)
    (data : Bytes) (s : Serving σ) : Except String Unit × Serving σ :=
  if maxClip < data.length then (.error "clipboard payload exceeds 10MiB", s)
  else
    let (res, s) := exchange (b.dispatch p others now saves) (copyReq (detectMime data)) data s
    match res with
    | .error e => (.error e, s)
    | .ok resp => (if resp.ok then .ok () else .error (resp.error.getD "copy failed"), s)

omit [Sha256] in
def putDirect (data : Bytes) (s : σ) : Except String Unit × σ :=
  if maxClip < data.length then (.error "clipboard payload exceeds 10MiB", s)
  else
    match b.backend.set ⟨detectMime data, data, "", "", ""⟩ s with
    | (.ok _, s) => (.ok (), s)
    | (.error e, s) => (.error (e.text b.io), s)

end Served
end Zsync
