import Zsync.Model.Ipc
import Zsync.Model.Rooms

/-! # `zsyncd.rs`: the admin socket of the relay

A request is one line and so is its answer. The daemon prints the answer, however long it is; the command reads
it with the reader for headers of messages.

* `dispatchAdmin` : the answer, and what a command makes of the rooms.
* `handleAdmin` : what the daemon writes on a connection.
* `adminRoundtrip` : what the command makes of it.

A hash map is iterated in an order of its own; the answer to `ls` and `status` is collected in two of them.
-/

namespace Zsync
set_option autoImplicit false
set_option maxHeartbeats 250000
open Foundations Foundations.Json

namespace Ipc
open Serial Fields

/-! ## Requests and answers -/

structure AdminReq where
  action : String
  groupId : Option String
  deviceId : Option String
  deriving DecidableEq, Repr

structure AdminResp where
  ok : Bool
  error : Option String
  online : Dict UInt64
  pid : Option UInt32
  port : Option UInt16
  members : Dict (List LiveDevice)
  deriving DecidableEq, Repr

/-- `AdminResp::default()`. -/
def AdminResp.none : AdminResp := ⟨false, .none, ⟨[]⟩, .none, .none, ⟨[]⟩⟩

/-! ### As JSON -/

def AdminReq.entries (r : AdminReq) : List (String × Option Value) :=
  [("action", some (toValue r.action)), ("group_id", some ((r.groupId.map toValue).getD .null)),
    ("device_id", some ((r.deviceId.map toValue).getD .null))]

def AdminReq.ofFields (fields : Fields) : Option AdminReq := do
  some ⟨← required "action" fields, ← optional "group_id" fields, ← optional "device_id" fields⟩

theorem AdminReq.read_entries (r : AdminReq) : ofFields (present r.entries) = some r := by
  have hd : (r.entries.map Prod.fst).Nodup := by simp [entries]
  have hget : ∀ {name o}, (name, o) ∈ r.entries → get name (present r.entries) = o := get_present hd
  rw [ofFields, required_eq (x := r.action) (hget (by simp [entries])),
    optional_null_eq (o := r.groupId) (hget (by simp [entries])),
    optional_null_eq (o := r.deviceId) (hget (by simp [entries]))]
  rfl

instance : FromFields AdminReq where
  ofFields := AdminReq.ofFields

def LiveDevice.entries (d : LiveDevice) : List (String × Option Value) :=
  [("device_id", some (toValue d.deviceId)), ("hostname", some (toValue d.hostname)),
    ("peer", some (toValue d.peer))]

def LiveDevice.ofFields (fields : Fields) : Option LiveDevice := do
  some ⟨← required "device_id" fields, ← defaulted "hostname" "" fields, ← defaulted "peer" "" fields⟩

theorem LiveDevice.read_entries (d : LiveDevice) : ofFields (present (entries d)) = some d := by
  have hd : ((entries d).map Prod.fst).Nodup := by simp [entries]
  have hget : ∀ {name o}, (name, o) ∈ entries d → get name (present (entries d)) = o := get_present hd
  rw [ofFields, required_eq (x := d.deviceId) (hget (by simp [entries])),
    defaulted_eq (x := d.hostname) (hget (by simp [entries])),
    defaulted_eq (x := d.peer) (hget (by simp [entries]))]
  rfl

instance : Serial LiveDevice where
  toValue := fun d => .obj (present (LiveDevice.entries d))
  ofValue
    | .obj fields => LiveDevice.ofFields fields
    | _ => Option.none
  ofValue_toValue := LiveDevice.read_entries
  toValue_ne_null := by
    intro d h
    cases h

def AdminResp.entries (r : AdminResp) : List (String × Option Value) :=
  [("ok", some (toValue r.ok)), ("error", r.error.map toValue), ("online", some (toValue r.online)),
    ("pid", r.pid.map toValue), ("port", r.port.map toValue), ("members", some (toValue r.members))]

def AdminResp.ofFields (fields : Fields) : Option AdminResp := do
  some ⟨← required "ok" fields, ← optional "error" fields, ← defaulted "online" ⟨[]⟩ fields,
    ← optional "pid" fields, ← optional "port" fields, ← defaulted "members" ⟨[]⟩ fields⟩

theorem AdminResp.read_entries (r : AdminResp) : ofFields (present r.entries) = some r := by
  have hd : (r.entries.map Prod.fst).Nodup := by simp [entries]
  have hget : ∀ {name o}, (name, o) ∈ r.entries → get name (present r.entries) = o := get_present hd
  rw [ofFields, required_eq (x := r.ok) (hget (by simp [entries])),
    optional_eq (o := r.error) (hget (by simp [entries])),
    defaulted_eq (x := r.online) (hget (by simp [entries])),
    optional_eq (o := r.pid) (hget (by simp [entries])),
    optional_eq (o := r.port) (hget (by simp [entries])),
    defaulted_eq (x := r.members) (hget (by simp [entries]))]
  rfl

instance : FromFields AdminResp where
  ofFields := AdminResp.ofFields

def AdminReq.value (r : AdminReq) : Value := .obj (present r.entries)

def AdminResp.value (r : AdminResp) : Value := .obj (present r.entries)

/-! ## The daemon -/

/-- The process and its port. -/
structure Listener where
  pid : UInt32
  port : UInt16

/-- `Rooms::snapshot` and `Rooms::members`. -/
def dispatchStatus (srv : Listener) (order order' : List String) (rooms : Rooms) : AdminResp :=
  { AdminResp.none with
    ok := true
    online := .listed order fun g => (rooms.snapshot g).map UInt64.ofNat
    pid := some srv.pid
    port := some srv.port
    members := .listed order' fun g => rooms.liveDevices g }

/-- The answer, the rooms and the stop channels that are told. -/
def dispatchAdmin (srv : Listener) (order order' : List String) (rooms : Rooms) (req : AdminReq) :
    AdminResp × Rooms × List ℕ :=
  if req.action = "ls" ∨ req.action = "status" then (dispatchStatus srv order order' rooms, rooms, [])
  else if req.action = "kick" then
    match req.groupId, req.deviceId with
    | some g, some d =>
      let (ok, rooms, told) := rooms.kick g d
      ({ AdminResp.none with ok := ok, error := if ok then .none else some "not connected" }, rooms, told)
    | _, _ => ({ AdminResp.none with error := some "missing group_id or device_id" }, rooms, [])
  else if req.action = "kick_group" then
    match req.groupId with
    | some g =>
      let (rooms, told) := rooms.kickGroup g
      ({ AdminResp.none with ok := true }, rooms, told)
    | .none => ({ AdminResp.none with error := some "missing group_id" }, rooms, [])
  else ({ AdminResp.none with error := some ("unknown action " ++ req.action) }, rooms, [])

variable [SerdeJson]

/-- A value on a line of its own. -/
def printed (v : Value) : Bytes := utf8 (SerdeJson.print v) ++ [newline]

/-- What is written on a connection on which `stream` is read. -/
def handleAdmin (srv : Listener) (order order' : List String) (rooms : Rooms) (stream : Bytes) : Bytes :=
  match readLineJson AdminReq stream with
  | .error _ => []
  | .ok ((req, _), _) => printed (dispatchAdmin srv order order' rooms req).1.value

/-! ## The command -/

/-- `answers` is the other side of the socket. -/
def adminRoundtrip (req : AdminReq) (answers : Bytes → Bytes) : Except IpcError AdminResp := do
  let ((resp, _), _) ← readLineJson AdminResp (answers (printed req.value))
  .ok resp

end Ipc
end Zsync
