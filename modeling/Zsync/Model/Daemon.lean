import Mathlib.Data.List.AList
import Mathlib.Data.Finset.Erase
import Mathlib.Data.Finset.Insert
import Zsync.Model.Config
import Zsync.Model.Net

/-! # `daemon.rs`: peers, live claims and IPC requests

`Runtime` holds what the requests `connect` and `disconnect` and the sessions share: the state file,
the map of peers, the set of live claims and the key directory. The order in which a hash map is
walked is the order of the association list, which is arbitrary.

A stop channel is named by the peer it was made for and a number, so that the channels of two peers
differ; `stopped` lists the channels that were told to stop.
-/

namespace Zsync
set_option autoImplicit false
set_option maxHeartbeats 250000
open Transport

abbrev StopChan := String × ℕ

instance : LawfulBEq StopChan := inferInstanceAs (LawfulBEq (String × ℕ))

structure Runtime where
  state : StateFile
  /-- The number of the stop channel of each peer. -/
  peers : AList fun _ : String => ℕ
  stopped : List StopChan
  channels : ℕ
  live : Finset String
  keys : String → Group.KeyFile

structure PeerTask where
  target : PeerTarget
  stop : StopChan
  deriving DecidableEq, Repr

/-- What the system answers during one request: writing `state.json` and writing a group key. -/
structure RequestIo where
  state : Except String Unit
  group : Except String Unit

inductive Request
  | connect (uri : Option String)
  | disconnect (uri : Option String)
  deriving DecidableEq, Repr

namespace Runtime

/-! ## The session side -/

/-- `claim_live`: whether `remote` was not claimed before. -/
def claimLive (remote : String) (rt : Runtime) : Bool × Runtime :=
  (remote ∉ rt.live, { rt with live := insert remote rt.live })

def releaseLive (remote : String) (rt : Runtime) : Runtime :=
  { rt with live := rt.live.erase remote }

def addPeer (uri : String) (rt : Runtime) : Runtime :=
  { rt with peers := rt.peers.insert uri rt.channels, channels := rt.channels + 1 }

def rememberIncoming (uri : String) (rt : Runtime) : Runtime :=
  match rt.peers.lookup uri with
  | some _ => rt
  | none => rt.addPeer uri

/-! ## Starting and stopping peers -/

variable [Base64]

/-- Tell the entry of `key` to stop, and remove it. -/
def dropPeer (key : String) (rt : Runtime) : Runtime :=
  match rt.peers.lookup key with
  | some chan => { rt with peers := rt.peers.erase key, stopped := (key, chan) :: rt.stopped }
  | none => rt

/-- The name under which `stop_peer` looks for `uri`. -/
def stopKey (uri : String) : String :=
  match parsePeer uri with
  | .ok target => target.uri
  | .error _ => displayUri uri

def stopPeer (uri : String) (rt : Runtime) : Runtime := rt.dropPeer (stopKey uri)

def stopPeers (uris : List String) (rt : Runtime) : Runtime :=
  uris.foldl (fun rt uri => rt.stopPeer uri) rt

def spawnPeer (io : RequestIo) (uri : String) (forceDial : Bool) (rt : Runtime) :
    Runtime × Option PeerTask :=
  match parsePeer uri with
  | .error _ => (rt, none)
  | .ok target =>
    match resolveRelay io.group target rt.keys with
    | (.error _, keys) => ({ rt with keys := keys }, none)
    | (.ok target, keys) =>
      let rt := { rt with keys := keys }
      let key := target.uri
      let start := fun rt : Runtime => (rt.addPeer key, some (PeerTask.mk target (key, rt.channels)))
      match rt.peers.lookup key with
      | none => start rt
      | some chan =>
        if (key, chan) ∈ rt.stopped then start rt
        else if forceDial then start (rt.dropPeer key)
        else (rt, none)

/-! ## IPC -/

structure Reply where
  res : Except String Unit
  rt : Runtime
  task : Option PeerTask

def connect (io : RequestIo) (uri : String) (rt : Runtime) : Reply :=
  match parsePeer uri with
  | .error e => ⟨.error e, rt, none⟩
  | .ok target =>
    match resolveRelay io.group target rt.keys with
    | (.error e, keys) => ⟨.error e, { rt with keys := keys }, none⟩
    | (.ok target, keys) =>
      let (_, state) := rt.state.upsertPeer io.state.isOk target.uri true
      let rt := { rt with keys := keys, state := state }
      match io.state with
      | .error e => ⟨.error e, rt, none⟩
      | .ok () =>
        let (rt, task) := rt.spawnPeer io target.uri true
        ⟨.ok (), rt, task⟩

def disconnect (io : RequestIo) (uri : Option String) (rt : Runtime) : Reply :=
  let (removed, state) := rt.state.removePeer io.state.isOk uri
  let rt := { rt with state := state }
  match io.state with
  | .error e => ⟨.error e, rt, none⟩
  | .ok () =>
    match removed.getD [] with
    | [] => ⟨.ok (), rt.stopPeers rt.peers.keys, none⟩
    | removed => ⟨.ok (), rt.stopPeers removed, none⟩

def dispatch (io : RequestIo) (rt : Runtime) : Request → Reply
  | .connect none => ⟨.error "missing uri", rt, none⟩
  | .connect (some uri) => rt.connect io uri
  | .disconnect uri => rt.disconnect io uri

end Runtime
end Zsync
