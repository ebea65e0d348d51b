import Zsync.Model.Group

/-! # `net.rs`: peer addresses

A peer is named by the canonical form of its address, `PeerTarget.uri`. A relay's canonical form is
the redacted URI, so that a key never reaches the state file.
-/

namespace Zsync
set_option autoImplicit false
set_option maxHeartbeats 250000

namespace Transport
open Zsync.Group

structure RelayPeer where
  groupId : Bytes
  key : Option Bytes
  deriving DecidableEq, Repr

structure PeerTarget where
  /-- Canonical id in state.json. Relay URIs never include the key. -/
  uri : String
  host : String
  port : ℕ
  relay : Option RelayPeer
  deriving DecidableEq, Repr

def splitHostPort : List Char → Except String (List Char × ℕ) :=
  splitBrackets fun s =>
    match rsplitOnce ':' s with
    | some (host, port) => if ':' ∈ host then .ok (s, defaultPort) else withPort host port
    | none => .ok (s, defaultPort)

def formatHostPort (host : String) (port : ℕ) : String :=
  if ':' ∈ host.toList then "[" ++ host ++ "]:" ++ toString port
  else host ++ ":" ++ toString port

def peerFromGroup (g : GroupUri) : PeerTarget :=
  ⟨g.redacted, g.host, g.port, some ⟨g.groupId, g.key⟩⟩

variable [Base64]

def parsePeer (raw : String) : Except String PeerTarget :=
  let raw := raw.toList.filter fun c => !isWhitespace c
  if raw = [] then .error "empty peer address"
  else if "ssh://".toList.isPrefixOf raw then
    .error "ssh:// is no longer supported; use `zsync connect <ip>`"
  else if "iroh://".toList.isPrefixOf raw || "endpoint".toList.isPrefixOf raw then
    .error "iroh is gone; use `zsync connect <ip>`"
  else if "zsync://".toList.isPrefixOf raw then (parseGroupUri raw).map peerFromGroup
  else do
    let (host, port) ← splitHostPort ((raw.dropPrefix? "tcp://".toList).getD raw)
    let host := String.ofList host
    if host = "" then .error "missing host"
    else .ok ⟨formatHostPort host port, host, port, none⟩

/-- Persist a newly imported key, or load one for a redacted `zsync://` URI. -/
def resolveRelay (io : Except String Unit) (target : PeerTarget) (dir : String → KeyFile) :
    Except String PeerTarget × (String → KeyFile) :=
  match target.relay with
  | none => (.ok target, dir)
  | some relay =>
    match relay.key with
    | some key =>
      let (res, dir) := saveGroupKey io relay.groupId key dir
      (res.map fun _ => target, dir)
    | none =>
      ((loadGroupKey relay.groupId dir).map fun key =>
        { target with relay := some { relay with key := some key } }, dir)

def displayUri (uri : String) : String :=
  match parseGroupUri uri.toList with
  | .ok g => g.redacted
  | .error _ => uri

end Transport
end Zsync
