import Zsync.Model.Ipc

/-! # `paste`: through the daemon and without it

`zsync paste` asks a running daemon for the clipboard, and opens the clipboard itself where none runs. Both
ways end in a response, which `write_paste` shows.

* `handleIpc` : all that the daemon writes on a connection.
* `pasteViaDaemon`, `pasteDirect` : the response, or the error.
-/

namespace Zsync
set_option autoImplicit false
set_option maxHeartbeats 250000
open Protocol Foundations

/-- What `paste` looks at: `get`, `headless` and `current_path` of the backend. -/
structure Shown where
  get : Except String (Option Item)
  headless : Bool
  currentPath : String
  deriving DecidableEq

namespace Ipc

/-! ## The daemon -/

def errResp (msg : String) : Response × Bytes := ({ Response.none with ok := false, error := some msg }, [])

def shownPath (b : Shown) : Option String := if b.currentPath = "" then none else some b.currentPath

def shownName (item : Item) : Option String := if item.name = "" then none else some item.name

/-- The `paste` branch of `dispatch`. -/
def dispatchPaste (b : Shown) : Response × Bytes :=
  match b.get with
  | .ok (some item) =>
    ({ Response.none with
        ok := true
        mime := some item.mime
        path := shownPath b
        headless := some b.headless
        n := UInt64.ofNat item.data.length
        name := shownName item }, item.data)
  | .ok none => errResp "clipboard is empty"
  | .error e => errResp e

/-- `others` are the other branches. -/
def dispatch (b : Shown) (others : Request → Bytes → Response × Bytes) (req : Request) (body : Bytes) :
    Response × Bytes :=
  if req.action = "paste" then dispatchPaste b else others req body

variable [SerdeJson]

/-- The answers to the requests, up to one that cannot be written. -/
def answers (dispatch : Request → Bytes → Response × Bytes) : List (Request × Bytes) → Bytes
  | [] => []
  | (req, body) :: ms =>
    let (resp, out) := dispatch req body
    match writeMsg { resp with n := UInt64.ofNat out.length } out with
    | .error _ => []
    | .ok bytes => bytes ++ answers dispatch ms

/-- What `handle_ipc` writes on a connection on which it reads `stream`. -/
def handleIpc (dispatch : Request → Bytes → Response × Bytes) (stream : Bytes) : Bytes :=
  answers dispatch ((messages Request).all stream).1

/-! ## The command line -/

/-- `Connection::roundtrip`. -/
def roundtrip (dispatch : Request → Bytes → Response × Bytes) (req : Request) (body : Bytes) :
    Except String Response := do
  let stream ← writeMsg req body
  match readResponse (handleIpc dispatch stream) with
  | .ok resp => .ok resp
  | .error e => .error e.message

def pasteReq (wantPath wantContent : Bool) : Request :=
  { Request.none with action := "paste", pathOnly := some wantPath, contentOnly := some wantContent }

def pasteViaDaemon (b : Shown) (others : Request → Bytes → Response × Bytes) (wantPath wantContent : Bool) :
    Except String Response :=
  if wantPath && wantContent then .error "--path and --content are mutually exclusive"
  else do
    let resp ← roundtrip (dispatch b others) (pasteReq wantPath wantContent) []
    if resp.ok then .ok resp else .error (resp.error.getD "paste failed")

omit [SerdeJson] in
def pasteDirect (b : Shown) (wantPath wantContent : Bool) : Except String Response :=
  if wantPath && wantContent then .error "--path and --content are mutually exclusive"
  else
    match b.get with
    | .error e => .error e
    | .ok none => .error "clipboard is empty"
    | .ok (some item) => .ok { Response.none with
        ok := true
        mime := some item.mime
        n := UInt64.ofNat item.data.length
        path := shownPath b
        headless := some b.headless
        name := shownName item
        body := item.data }

end Ipc
end Zsync
