import Zsync.Model.Clipboard
import Zsync.Model.Config
import Zsync.Model.Suppress

/-! # `hub.rs`: observing, pushing and applying clips

A hub is generic in its backend. Each operation takes the instant `now` at which it runs and
`saves`, whether persisting the sequence number succeeds, and returns its result, the hub afterwards
and what it sent to the broadcast channel. The steps are in the order of the source.
-/

namespace Zsync
set_option autoImplicit false
set_option maxHeartbeats 250000
open Protocol

/-- `skip` is the ingress peer that must not receive this clip again. -/
structure Outbound where
  clip : Clip
  skip : Option String
  deriving DecidableEq, Repr

inductive HubError
  | payloadTooLarge
  | backend (e : BackendError)
  | persistSeq
  deriving DecidableEq, Repr

structure Hub (σ : Type) where
  nodeId : String
  clipboard : σ
  suppress : Suppress
  seen : SeenSeq
  state : StateFile

/-- What an operation returns, the hub it leaves, and what it emitted. -/
structure Ret (σ α : Type) where
  res : Except HubError α
  hub : Hub σ
  out : List Outbound

namespace Hub
variable {σ : Type}

def ringMax : ℕ := 64

def new (nodeId : String) (clipboard : σ) (state : StateFile) (suppressTtl : ℕ) : Hub σ where
  nodeId := nodeId
  clipboard := clipboard
  suppress := Suppress.new suppressTtl ringMax
  seen := SeenSeq.empty
  state := state

def suppressed (hub : Hub σ) (now : ℕ) (h : String) : Hub σ :=
  { hub with suppress := hub.suppress.add now h }

def pack (saves : Bool) (mime name : String) (data : Bytes) (h : String) (hub : Hub σ) :
    Except HubError Clip × Hub σ :=
  match hub.state.nextSeq saves with
  | (none, state) => (.error .persistSeq, { hub with state := state })
  | (some seq, state) =>
    let mime := if mime = "" then detectMime data else mime
    (.ok ⟨⟨hub.nodeId, seq, mime, h, data.length, name⟩, data⟩, { hub with state := state })

/-- Watcher path: content is already on the clipboard. -/
def localObserved [Sha256] (now : ℕ) (saves : Bool) (item : Item) (hub : Hub σ) :
    Ret σ (Option Clip) :=
  if item.data = [] then ⟨.ok none, hub, []⟩
  else if maxClip < item.data.length then ⟨.ok none, hub, []⟩
  else
    let h := if item.hash = "" then Protocol.hash item.data else item.hash
    if hub.suppress.has now h then ⟨.ok none, hub, []⟩
    else
      match (hub.suppressed now h).pack saves item.mime item.name item.data h with
      | (.error e, hub) => ⟨.error e, hub, []⟩
      | (.ok clip, hub) => ⟨.ok (some clip), hub, [⟨clip, none⟩]⟩

/-- `zsync copy`: write local clipboard then broadcast as our origin. -/
def localPush [Sha256] (B : Backend σ) (now : ℕ) (saves : Bool) (item : Item) (hub : Hub σ) :
    Ret σ Clip :=
  if maxClip < item.data.length then ⟨.error .payloadTooLarge, hub, []⟩
  else
    let item := { item with hash := if item.hash = "" then Protocol.hash item.data else item.hash }
    let hub := hub.suppressed now item.hash
    match B.set item hub.clipboard with
    | (.error e, clipboard) => ⟨.error (.backend e), { hub with clipboard := clipboard }, []⟩
    | (.ok stored, clipboard) =>
      let hub := { hub with clipboard := clipboard }.suppressed now stored.hash
      match hub.pack saves stored.mime stored.name stored.data stored.hash with
      | (.error e, hub) => ⟨.error e, hub, []⟩
      | (.ok clip, hub) => ⟨.ok clip, hub, [⟨clip, none⟩]⟩

def rejection (clip : Clip) : ProtoError → ClipAck
  | .tooLarge => ⟨clip.clipMeta.hash, false, "too-large"⟩
  | .sizeMismatch _ _ => ⟨clip.clipMeta.hash, false, "truncated"⟩
  | _ => ⟨clip.clipMeta.hash, false, "hash-mismatch"⟩

/-- The clipboard already holds content with the hash `h`. -/
def present (B : Backend σ) (h : String) (hub : Hub σ) : Bool :=
  match B.get hub.clipboard with
  | .ok (some cur) => cur.hash = h
  | _ => false

/-- The item that `apply_remote` hands to the backend. -/
def remoteItem (clip : Clip) : Item :=
  ⟨clip.clipMeta.mime, clip.data, clip.clipMeta.hash, "", clip.clipMeta.name⟩

def applyRemote [Sha256] (B : Backend σ) (now : ℕ) (clip : Clip) (hub : Hub σ) : Ret σ ClipAck :=
  match verifyClip clip with
  | .error e => ⟨.ok (rejection clip e), hub, []⟩
  | .ok () =>
    if clip.clipMeta.originId = hub.nodeId then ⟨.ok ⟨clip.clipMeta.hash, true, "own-origin"⟩, hub, []⟩
    else
      match hub.seen.accept clip.clipMeta.originId clip.clipMeta.seq with
      | (false, _) => ⟨.ok ⟨clip.clipMeta.hash, true, "duplicate"⟩, hub, []⟩
      | (true, seen) =>
        let hub := { hub with seen := seen }
        if hub.present B clip.clipMeta.hash then
          ⟨.ok ⟨clip.clipMeta.hash, true, "already-present"⟩,
            hub.suppressed now clip.clipMeta.hash, []⟩
        else
          let hub := hub.suppressed now clip.clipMeta.hash
          match B.set (remoteItem clip) hub.clipboard with
          | (.error e, clipboard) => ⟨.error (.backend e), { hub with clipboard := clipboard }, []⟩
          | (.ok stored, clipboard) =>
            ⟨.ok ⟨stored.hash, true, ""⟩,
              { hub with clipboard := clipboard }.suppressed now stored.hash, []⟩

/-- Apply a clip that arrived from `fromPeer`, then fan it out to every other peer. -/
def applyFrom [Sha256] (B : Backend σ) (now : ℕ) (clip : Clip) (fromPeer : String) (hub : Hub σ) :
    Ret σ ClipAck :=
  let ret := hub.applyRemote B now clip
  match ret.res with
  | .error _ => ret
  | .ok ack => { ret with out := if ack.ok then [⟨clip, some fromPeer⟩] else [] }

def snapshot (B : Backend σ) (hub : Hub σ) : Except HubError (Option Item) :=
  match B.get hub.clipboard with
  | .ok item => .ok item
  | .error e => .error (.backend e)

end Hub
end Zsync
