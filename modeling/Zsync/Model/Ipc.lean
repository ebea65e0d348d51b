import Zsync.Foundations.Json
import Zsync.Foundations.Lines
import Zsync.Model.Clipboard
import Zsync.Model.Group

/-! # `ipc.rs`: messages between the command line and the daemon

A message is a header as one line of JSON and a body of bytes, whose length is the field `n` of the header.
The crate `serde_json` is the parameter `SerdeJson`: how a value is printed and a text is parsed. What a
derived `Serialize` or `Deserialize` makes of a type is written out, by fields. A header becomes a
`serde_json::Value` before it is printed, whose objects are maps: their fields stand in the order of their names
(`Fields.sorted`), and `n` is put in its place among them. A reader looks every field up by its name. An absent
field and one that is `null` are the same to an `Option`.

* `FromFields`, `Header` : the types that are read, and those that `write_msg` is called with. A header that
  was patched with `n` is read back.
* `writeMsg`, `readLineJson`, `readExactBody`, `readResponse` : the functions of the source.
* `messages` : the reading loop of `handle_ipc`.
-/

namespace Zsync
set_option autoImplicit false
set_option maxHeartbeats 250000
open Protocol Foundations Foundations.Json

/-- `serde_json::to_string` and `serde_json::from_str`. -/
class SerdeJson where
  print : Value → List Char
  parse : List Char → Option Value

namespace SerdeJson
variable [SerdeJson] {v : Value}

/-- The value is printed on one line, and read back. -/
structure Keeps (v : Value) : Prop where
  oneLine : '\n' ∉ print v
  parse_print : parse (print v) = some v

/-- The value is printed in the compact form, and read back. -/
structure Compact (v : Value) : Prop where
  print_eq : print v = v.compact
  parse_compact : parse v.compact = some v

theorem Compact.keeps (h : Compact v) : Keeps v := by
  refine ⟨?_, ?_⟩
  · rw [h.print_eq]
    exact newline_notMem_compact v
  · rw [h.print_eq, h.parse_compact]

end SerdeJson

namespace Ipc

/-! ## The messages -/

structure Request where
  action : String
  uri : Option String
  mime : Option String
  n : UInt64
  pathOnly : Option Bool
  contentOnly : Option Bool
  originId : Option String
  seq : Option UInt64
  hash : Option String
  peerId : Option String
  deriving DecidableEq, Repr

structure PeerStatus where
  uri : String
  state : String
  remoteNode : Option String
  remoteHost : Option String
  lastSync : Option String
  lastError : Option String
  deriving DecidableEq, Repr

structure StatusPayload where
  daemonPid : UInt32
  nodeId : String
  clipboard : String
  headless : Bool
  currentMime : Option String
  currentHash : Option String
  currentBytes : Option UInt64
  currentPath : Option String
  port : UInt16
  peers : List PeerStatus
  deriving DecidableEq, Repr

structure Response where
  ok : Bool
  error : Option String
  status : Option StatusPayload
  mime : Option String
  n : UInt64
  path : Option String
  headless : Option Bool
  event : Option String
  originId : Option String
  seq : Option UInt64
  hash : Option String
  name : Option String
  /-- Not a part of the header. -/
  body : Bytes
  deriving DecidableEq, Repr

/-- `Request::default()` and `Response::default()`. -/
def Request.none : Request := ⟨"", .none, .none, 0, .none, .none, .none, .none, .none, .none⟩

def Response.none : Response :=
  ⟨false, .none, .none, .none, 0, .none, .none, .none, .none, .none, .none, .none, []⟩

/-! ### As JSON -/

open Serial Fields

def PeerStatus.entries (p : PeerStatus) : List (String × Option Value) :=
  [("uri", some (toValue p.uri)), ("state", some (toValue p.state)),
    ("remote_node", p.remoteNode.map toValue), ("remote_host", p.remoteHost.map toValue),
    ("last_sync", p.lastSync.map toValue), ("last_error", p.lastError.map toValue)]

def PeerStatus.ofFields (fields : Fields) : Option PeerStatus := do
  some ⟨← required "uri" fields, ← required "state" fields, ← optional "remote_node" fields,
    ← optional "remote_host" fields, ← optional "last_sync" fields, ← optional "last_error" fields⟩

/-- A field is read where it was written, in whatever order they stand. -/
theorem get_written {entries : List (String × Option Value)} {name : String} {o : Option Value}
    (hd : (entries.map Prod.fst).Nodup) (hm : (name, o) ∈ entries) : get name (sorted (present entries)) = o := by
  rw [get_sorted]
  exact get_present hd hm

theorem PeerStatus.read_entries (p : PeerStatus) : ofFields (sorted (present p.entries)) = some p := by
  have hd : (p.entries.map Prod.fst).Nodup := by simp [entries]
  have hget : ∀ {name o}, (name, o) ∈ p.entries → get name (sorted (present p.entries)) = o := get_written hd
  rw [ofFields, required_eq (x := p.uri) (hget (by simp [entries])),
    required_eq (x := p.state) (hget (by simp [entries])),
    optional_eq (o := p.remoteNode) (hget (by simp [entries])),
    optional_eq (o := p.remoteHost) (hget (by simp [entries])),
    optional_eq (o := p.lastSync) (hget (by simp [entries])),
    optional_eq (o := p.lastError) (hget (by simp [entries]))]
  rfl

instance : Serial PeerStatus where
  toValue := fun p => .obj (sorted (present p.entries))
  ofValue
    | .obj fields => PeerStatus.ofFields fields
    | _ => Option.none
  ofValue_toValue := PeerStatus.read_entries
  toValue_ne_null := by
    intro p h
    cases h

def StatusPayload.entries (s : StatusPayload) : List (String × Option Value) :=
  [("daemon_pid", some (toValue s.daemonPid)), ("node_id", some (toValue s.nodeId)),
    ("clipboard", some (toValue s.clipboard)), ("headless", some (toValue s.headless)),
    ("current_mime", s.currentMime.map toValue), ("current_hash", s.currentHash.map toValue),
    ("current_bytes", s.currentBytes.map toValue), ("current_path", s.currentPath.map toValue),
    ("port", some (toValue s.port)), ("peers", some (toValue s.peers))]

def StatusPayload.ofFields (fields : Fields) : Option StatusPayload := do
  some ⟨← required "daemon_pid" fields, ← required "node_id" fields, ← required "clipboard" fields,
    ← required "headless" fields, ← optional "current_mime" fields, ← optional "current_hash" fields,
    ← optional "current_bytes" fields, ← optional "current_path" fields, ← defaulted "port" 0 fields,
    ← defaulted "peers" [] fields⟩

theorem StatusPayload.read_entries (s : StatusPayload) : ofFields (sorted (present s.entries)) = some s := by
  have hd : (s.entries.map Prod.fst).Nodup := by simp [entries]
  have hget : ∀ {name o}, (name, o) ∈ s.entries → get name (sorted (present s.entries)) = o := get_written hd
  rw [ofFields, required_eq (x := s.daemonPid) (hget (by simp [entries])),
    required_eq (x := s.nodeId) (hget (by simp [entries])),
    required_eq (x := s.clipboard) (hget (by simp [entries])),
    required_eq (x := s.headless) (hget (by simp [entries])),
    optional_eq (o := s.currentMime) (hget (by simp [entries])),
    optional_eq (o := s.currentHash) (hget (by simp [entries])),
    optional_eq (o := s.currentBytes) (hget (by simp [entries])),
    optional_eq (o := s.currentPath) (hget (by simp [entries])),
    defaulted_eq (x := s.port) (hget (by simp [entries])),
    defaulted_eq (x := s.peers) (hget (by simp [entries]))]
  rfl

instance : Serial StatusPayload where
  toValue := fun s => .obj (sorted (present s.entries))
  ofValue
    | .obj fields => StatusPayload.ofFields fields
    | _ => Option.none
  ofValue_toValue := StatusPayload.read_entries
  toValue_ne_null := by
    intro p h
    cases h

/-! ### Headers -/

/-- A type that is read from an object. -/
class FromFields (η : Type) where
  ofFields : Fields → Option η

/-- A type of headers. `received n h` is what is read back of `h` after `n` was put into it. -/
class Header (η : Type) extends FromFields η where
  toFields : η → Fields
  received : UInt64 → η → η
  ofFields_patched : ∀ n h, ofFields (Fields.insert "n" (toValue n) (toFields h)) = some (received n h)

def Request.entries (r : Request) : List (String × Option Value) :=
  [("action", some (toValue r.action)), ("uri", r.uri.map toValue), ("mime", r.mime.map toValue),
    ("n", some (toValue r.n)), ("path_only", r.pathOnly.map toValue),
    ("content_only", r.contentOnly.map toValue), ("origin_id", r.originId.map toValue),
    ("seq", r.seq.map toValue), ("hash", r.hash.map toValue), ("peer_id", r.peerId.map toValue)]

def Request.ofFields (fields : Fields) : Option Request := do
  some ⟨← required "action" fields, ← optional "uri" fields, ← optional "mime" fields,
    ← defaulted "n" 0 fields, ← optional "path_only" fields, ← optional "content_only" fields,
    ← optional "origin_id" fields, ← optional "seq" fields, ← optional "hash" fields,
    ← optional "peer_id" fields⟩

/-- The other fields are not touched by the patch. -/
theorem get_patched {entries : List (String × Option Value)} {name : String} {o : Option Value} (v : Value)
    (hd : (entries.map Prod.fst).Nodup) (hne : name ≠ "n") (hm : (name, o) ∈ entries) :
    get name (Fields.insert "n" v (sorted (present entries))) = o := by
  rw [get_insert, if_neg hne]
  exact get_written hd hm

theorem Request.read_patched (n : UInt64) (r : Request) :
    ofFields (Fields.insert "n" (toValue n) (sorted (present r.entries))) = some { r with n := n } := by
  have hd : (r.entries.map Prod.fst).Nodup := by simp [entries]
  have hget : ∀ {name o}, name ≠ "n" → (name, o) ∈ r.entries →
      get name (Fields.insert "n" (toValue n) (sorted (present r.entries))) = o := get_patched (toValue n) hd
  have hn : get "n" (Fields.insert "n" (toValue n) (sorted (present r.entries))) = some (toValue n) := by
    rw [get_insert, if_pos rfl]
  rw [ofFields, required_eq (x := r.action) (hget (by decide) (by simp [entries])),
    optional_eq (o := r.uri) (hget (by decide) (by simp [entries])),
    optional_eq (o := r.mime) (hget (by decide) (by simp [entries])), defaulted_eq hn,
    optional_eq (o := r.pathOnly) (hget (by decide) (by simp [entries])),
    optional_eq (o := r.contentOnly) (hget (by decide) (by simp [entries])),
    optional_eq (o := r.originId) (hget (by decide) (by simp [entries])),
    optional_eq (o := r.seq) (hget (by decide) (by simp [entries])),
    optional_eq (o := r.hash) (hget (by decide) (by simp [entries])),
    optional_eq (o := r.peerId) (hget (by decide) (by simp [entries]))]
  rfl

instance : Header Request where
  toFields := fun r => sorted (present r.entries)
  ofFields := Request.ofFields
  received := fun n r => { r with n := n }
  ofFields_patched := Request.read_patched

def Response.entries (r : Response) : List (String × Option Value) :=
  [("ok", some (toValue r.ok)), ("error", r.error.map toValue), ("status", r.status.map toValue),
    ("mime", r.mime.map toValue), ("n", some (toValue r.n)), ("path", r.path.map toValue),
    ("headless", r.headless.map toValue), ("event", r.event.map toValue),
    ("origin_id", r.originId.map toValue), ("seq", r.seq.map toValue), ("hash", r.hash.map toValue),
    ("name", r.name.map toValue)]

def Response.ofFields (fields : Fields) : Option Response := do
  some ⟨← required "ok" fields, ← optional "error" fields, ← optional "status" fields,
    ← optional "mime" fields, ← defaulted "n" 0 fields, ← optional "path" fields,
    ← optional "headless" fields, ← optional "event" fields, ← optional "origin_id" fields,
    ← optional "seq" fields, ← optional "hash" fields, ← optional "name" fields, []⟩

theorem Response.read_patched (n : UInt64) (r : Response) :
    ofFields (Fields.insert "n" (toValue n) (sorted (present r.entries))) = some { r with n := n, body := [] } := by
  have hd : (r.entries.map Prod.fst).Nodup := by simp [entries]
  have hget : ∀ {name o}, name ≠ "n" → (name, o) ∈ r.entries →
      get name (Fields.insert "n" (toValue n) (sorted (present r.entries))) = o := get_patched (toValue n) hd
  have hn : get "n" (Fields.insert "n" (toValue n) (sorted (present r.entries))) = some (toValue n) := by
    rw [get_insert, if_pos rfl]
  rw [ofFields, required_eq (x := r.ok) (hget (by decide) (by simp [entries])),
    optional_eq (o := r.error) (hget (by decide) (by simp [entries])),
    optional_eq (o := r.status) (hget (by decide) (by simp [entries])),
    optional_eq (o := r.mime) (hget (by decide) (by simp [entries])), defaulted_eq hn,
    optional_eq (o := r.path) (hget (by decide) (by simp [entries])),
    optional_eq (o := r.headless) (hget (by decide) (by simp [entries])),
    optional_eq (o := r.event) (hget (by decide) (by simp [entries])),
    optional_eq (o := r.originId) (hget (by decide) (by simp [entries])),
    optional_eq (o := r.seq) (hget (by decide) (by simp [entries])),
    optional_eq (o := r.hash) (hget (by decide) (by simp [entries])),
    optional_eq (o := r.name) (hget (by decide) (by simp [entries]))]
  rfl

instance : Header Response where
  toFields := fun r => sorted (present r.entries)
  ofFields := Response.ofFields
  received := fun n r => { r with n := n, body := [] }
  ofFields_patched := Response.read_patched

/-! ## Reading and writing -/

inductive IpcError
  | closed
  | headerTooLarge
  | utf8
  | json
  | payloadTooLarge
  | eof
  | buffered
  deriving DecidableEq, Repr

def IpcError.message : IpcError → String
  | .closed => "ipc: connection closed"
  | .headerTooLarge => "ipc header too large"
  | .utf8 => "stream did not contain valid UTF-8"
  | .json => "ipc response json"
  | .payloadTooLarge => "ipc payload exceeds 10MiB"
  | .eof => "early eof"
  | .buffered => "ipc: unexpected buffered bytes after response body"

def newline : UInt8 := 10

def maxHeader : ℕ := 64 * 1024

section
variable {η : Type} [SerdeJson]

section
variable [Header η]

omit [SerdeJson] in
/-- The header as it is printed: with the length of the body as its `n`. -/
def patched (header : η) (body : Bytes) : Value :=
  .obj (Fields.insert "n" (toValue (UInt64.ofNat body.length)) (Header.toFields header))

/-- The header line. -/
def lineOf (header : η) (body : Bytes) : Bytes := utf8 (SerdeJson.print (patched header body))

/-- What `write_msg` puts on a stream that takes everything. -/
def writeMsg (header : η) (body : Bytes) : Except String Bytes :=
  if maxClip < body.length then .error "payload exceeds 10MiB"
  else .ok (lineOf header body ++ newline :: body)

end

/-- `serde_json::from_slice`. -/
def fromSlice (bytes : Bytes) : Option Value := (ofUtf8 bytes).bind SerdeJson.parse

omit [SerdeJson] in
/-- `v.get("n").and_then(as_u64).unwrap_or(0)`. -/
def lengthField : Value → ℕ
  | .obj fields =>
    match Fields.get "n" fields with
    | some (.num n) => if n < 2 ^ 64 then n else 0
    | _ => 0
  | _ => 0

omit [SerdeJson] in
/-- `serde_json::from_value`. -/
def fromValue (η : Type) [FromFields η] : Value → Option η
  | .obj fields => FromFields.ofFields fields
  | _ => Option.none

/-- The header, what its `n` says, and the rest of the stream. -/
def readLineJson (η : Type) [FromFields η] (s : Bytes) : Except IpcError ((η × ℕ) × Bytes) := do
  let (line, s) ← readLine newline maxHeader .closed .headerTooLarge s
  match fromSlice line with
  | Option.none => .error .json
  | some v =>
    match fromValue η v with
    | Option.none => .error .json
    | some header => .ok ((header, lengthField v), s)

omit [SerdeJson] in
def readExactBody (n : ℕ) (s : Bytes) : Except IpcError (Bytes × Bytes) :=
  if maxClip < n then .error .payloadTooLarge else readExact .eof n s

/-- One turn of the loop in `handle_ipc`, up to the dispatch. -/
def readMessage (η : Type) [FromFields η] (s : Bytes) : Except IpcError ((η × Bytes) × Bytes) := do
  let ((header, n), s) ← readLineJson η s
  let (body, s) ← readExactBody n s
  .ok ((header, body), s)

theorem readLineJson_shorter [FromFields η] {s rest : Bytes} {m : η × ℕ} (h : readLineJson η s = .ok (m, rest)) :
    rest.length < s.length := by
  unfold readLineJson at h
  cases hl : readLine newline maxHeader IpcError.closed IpcError.headerTooLarge s with
  | error e =>
    rw [hl] at h
    cases h
  | ok p =>
    obtain ⟨line, s'⟩ := p
    rw [hl] at h
    change (match fromSlice line with
      | Option.none => _
      | some v => _) = _ at h
    split at h
    · cases h
    · split at h
      · cases h
      · obtain ⟨-, rfl⟩ := Prod.mk.inj (Except.ok.inj h)
        exact readLineFrom_shorter newline maxHeader _ _ hl

theorem readMessage_shorter [FromFields η] {s rest : Bytes} {m : η × Bytes} (h : readMessage η s = .ok (m, rest)) :
    rest.length < s.length := by
  unfold readMessage at h
  cases hj : readLineJson η s with
  | error e =>
    rw [hj] at h
    cases h
  | ok p =>
    obtain ⟨⟨header, n⟩, s'⟩ := p
    have hlt := readLineJson_shorter hj
    rw [hj] at h
    change (readExactBody n s').bind _ = _ at h
    unfold readExactBody readExact at h
    split_ifs at h
    · cases h
    · cases h
    · obtain ⟨-, rfl⟩ := Prod.mk.inj (Except.ok.inj h)
      rw [List.length_drop]
      omega

/-- The loop of `handle_ipc`. -/
def messages (η : Type) [FromFields η] : Taker UInt8 (η × Bytes) IpcError where
  take := readMessage η
  shorter := readMessage_shorter

/-- `BufRead::read_line`: a line with its end, or what is left of the stream. -/
def bufLine (s : Bytes) : Bytes × Bytes :=
  match s.span fun b => b ≠ newline with
  | (line, []) => (line, [])
  | (line, b :: rest) => (line ++ [b], rest)

/-- `stream` is everything that the other side writes until it closes the connection. -/
def readResponse (stream : Bytes) : Except IpcError Response :=
  let (line, s) := bufLine stream
  if line = [] then .error .closed
  else
    match ofUtf8 line with
    | Option.none => .error .utf8
    | some text =>
      match (SerdeJson.parse (trim text)).bind (fromValue Response) with
      | Option.none => .error .json
      | some resp => do
        let (body, s) ← readExactBody resp.n.toNat s
        if s ≠ [] then .error .buffered else .ok { resp with body := body }

/-! ### What is written is read back -/

/-- A line that is short enough is read, and no more. -/
theorem readLineJson_line [FromFields η] {line : Bytes} {v : Value} {x : η} (hsep : newline ∉ line)
    (hfits : line.length ≤ maxHeader) (hv : fromSlice line = some v) (hx : fromValue η v = some x) (rest : Bytes) :
    readLineJson η (line ++ newline :: rest) = .ok ((x, lengthField v), rest) := by
  have hread := readLine_append newline maxHeader IpcError.closed IpcError.headerTooLarge hsep hfits rest
  rw [readLineJson, hread]
  change (match fromSlice line with
    | Option.none => _
    | some v => _) = _
  rw [hv]
  dsimp only
  rw [hx]

variable [Header η]

theorem newline_notMem_lineOf {header : η} {body : Bytes} (h : SerdeJson.Keeps (patched header body)) :
    newline ∉ lineOf header body := newline_notMem_utf8 h.oneLine

theorem fromSlice_lineOf {header : η} {body : Bytes} (h : SerdeJson.Keeps (patched header body)) :
    fromSlice (lineOf header body) = some (patched header body) := by
  rw [lineOf, fromSlice, ofUtf8_utf8, Option.bind_some, h.parse_print]

omit [SerdeJson] in
theorem fromValue_patched (header : η) (body : Bytes) :
    fromValue η (patched header body) = some (Header.received (UInt64.ofNat body.length) header) :=
  Header.ofFields_patched _ _

omit [SerdeJson] [Header η] in
/-- The length of a body that may be sent is a number that a header can hold. -/
theorem toNat_length {body : Bytes} (h : body.length ≤ maxClip) :
    (UInt64.ofNat body.length).toNat = body.length := by
  rw [UInt64.toNat_ofNat']
  exact Nat.mod_eq_of_lt (Nat.lt_of_le_of_lt h (by decide))

omit [SerdeJson] in
theorem lengthField_patched (header : η) {body : Bytes} (h : body.length ≤ maxClip) :
    lengthField (patched header body) = body.length := by
  have hlt : body.length < 2 ^ 64 := Nat.lt_of_le_of_lt h (by decide)
  have hn := toNat_length h
  have hget : Fields.get "n" (Fields.insert "n" (toValue (UInt64.ofNat body.length)) (Header.toFields header)) =
      some (.num body.length) := by
    rw [get_insert, if_pos rfl]
    exact congrArg (fun n => some (Value.num n)) hn
  rw [patched, lengthField, hget]
  exact if_pos hlt

/-- One message is taken off the front of a stream. -/
theorem readMessage_written {header : η} {body : Bytes} (h : SerdeJson.Keeps (patched header body))
    (hline : (lineOf header body).length ≤ maxHeader) (hbody : body.length ≤ maxClip) (rest : Bytes) :
    readMessage η (lineOf header body ++ newline :: body ++ rest) =
      .ok ((Header.received (UInt64.ofNat body.length) header, body), rest) := by
  have hexact : readExactBody body.length (body ++ rest) = .ok (body, rest) := by
    rw [readExactBody, if_neg (Nat.not_lt.mpr hbody), readExact_append]
  have hjson := readLineJson_line (newline_notMem_lineOf h) hline (fromSlice_lineOf h)
    (fromValue_patched header body) (body ++ rest)
  rw [lengthField_patched header hbody] at hjson
  rw [List.append_assoc, List.cons_append, readMessage, hjson]
  change (readExactBody body.length (body ++ rest)).bind _ = _
  rw [hexact]
  rfl

end
end Ipc
end Zsync
