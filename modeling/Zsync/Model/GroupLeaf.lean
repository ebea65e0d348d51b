import Zsync.Model.ClipBody
import Zsync.Model.Envelope
import Zsync.Model.Lifetime

/-! # `daemon.rs`: what a leaf makes of envelopes

A leaf opens what the relay hands it, decodes and verifies the clip, and gives it to its hub with the
sender as the peer it came from. The counter that the envelope carries is not looked at. When the
daemon is restarted, its hub starts afresh over the same `state.json`.

Beside the state, `GroupLeaf` keeps which clips were taken, from the relay or from anywhere else, by origin and
sequence number, in this life of the daemon and in earlier ones.
-/

namespace Zsync
set_option autoImplicit false
set_option maxHeartbeats 250000
open Protocol Foundations

inductive DataError
  | envelope (e : String)
  | clip (e : ProtoError)
  | hub (e : HubError)

/-- The answer, which is `none` for a dropped clip, the hub afterwards, and what was emitted. -/
structure DataRet (σ : Type) where
  res : Except DataError (Option ClipAck)
  hub : Hub σ
  out : List Outbound

section Data
variable {σ : Type} [Sha256] [Json ClipMeta] [Aead] (key : Vector UInt8 32) (groupId : Vector UInt8 16)

/-- The `Data` branch of `run_relay_session`. -/
def onData (B : Backend σ) (now : ℕ) (payload : Bytes) (hub : Hub σ) : DataRet σ :=
  match Group.openEnvelope key groupId payload with
  | .error e => ⟨.error (.envelope e), hub, []⟩
  | .ok opened =>
    match decodeClip opened.plaintext with
    | .error e => ⟨.error (.clip e), hub, []⟩
    | .ok clip =>
      match verifyClip clip with
      | .error _ => ⟨.ok none, hub, []⟩
      | .ok () =>
        let ret := hub.applyFrom B now clip (hexEncode opened.sender.toList)
        match ret.res with
        | .error e => ⟨.error (.hub e), ret.hub, ret.out⟩
        | .ok ack => ⟨.ok (some ack), ret.hub, ret.out⟩

omit [Sha256] in
/-- The sender and the clip of an envelope that can be read. -/
def readEnvelope (payload : Bytes) : Option (String × Clip) :=
  match Group.openEnvelope key groupId payload with
  | .error _ => none
  | .ok opened =>
    match decodeClip opened.plaintext with
    | .error _ => none
    | .ok clip => some (hexEncode opened.sender.toList, clip)

/-- What the relay can hand on: if it can be read, a leaf of the group has sealed it, and a leaf seals
only clips of its own. -/
structure SealedBytes where
  bytes : Bytes
  own : ∀ sender clip, readEnvelope key groupId bytes = some (sender, clip) →
    clip.clipMeta.originId = sender

/-- A clip of which the content was written to the clipboard, or found there. -/
structure Taken where
  origin : String
  seq : ℕ
  /-- It had come in an envelope, and was written. -/
  unsealed : Bool
  deriving DecidableEq

omit [Sha256] [Json ClipMeta] [Aead] in
/-- What `apply_remote` made of a clip, by its answer. -/
def takenBy (envelope : Bool) (origin : String) (clip : Clip) (ack : ClipAck) : List Taken :=
  if ack.ok && ack.reason = "" then [⟨origin, clip.clipMeta.seq, envelope⟩]
  else if ack.ok && ack.reason = "already-present" then [⟨origin, clip.clipMeta.seq, false⟩]
  else []

/-- The clip of an envelope. -/
def takenOf (payload : Bytes) (ret : DataRet σ) : List Taken :=
  match readEnvelope key groupId payload, ret.res with
  | some (sender, clip), .ok (some ack) => takenBy true sender clip ack
  | _, _ => []

omit [Json ClipMeta] [Aead] in
/-- The clip that another operation of the hub delivers. -/
def HubOp.taken (B : Backend σ) (now : ℕ) (hub : Hub σ) : HubOp σ → List Taken
  | .deliver clip _ =>
    match (hub.applyRemote B now clip).res with
    | .ok ack => takenBy false clip.clipMeta.originId clip ack
    | .error _ => []
  | _ => []

end Data

structure GroupLeaf (σ : Type) where
  hub : Hub σ
  now : ℕ
  ttl : ℕ
  taken : List Taken
  earlier : List Taken

inductive LeafEvent {σ : Type} [Json ClipMeta] [Aead] (key : Vector UInt8 32)
    (groupId : Vector UInt8 16)
  | data (e : SealedBytes key groupId)
  | op (o : HubOp σ)
  | tick
  /-- The daemon stops and starts again, and finds this clipboard. -/
  | restart (clipboard : σ)

namespace GroupLeaf
variable {σ : Type} [Sha256] [Json ClipMeta] [Aead] {key : Vector UInt8 32}
  {groupId : Vector UInt8 16}

/-- `Hub::new` over the state that `StateFile::open` reads. -/
def rebooted (clipboard : σ) (s : GroupLeaf σ) : Hub σ :=
  Hub.new s.hub.nodeId clipboard ⟨s.hub.state.disk, s.hub.state.disk⟩ s.ttl

def step (B : Backend σ) (s : GroupLeaf σ) :
    LeafEvent (σ := σ) key groupId → Option (GroupLeaf σ)
  | .data e =>
    let ret := onData key groupId B s.now e.bytes s.hub
    some { s with hub := ret.hub, taken := s.taken ++ takenOf key groupId e.bytes ret }
  | .op o => some { s with hub := o.run B s.now s.hub, taken := s.taken ++ o.taken B s.now s.hub }
  | .tick => some { s with now := s.now + 1 }
  | .restart clipboard =>
    some { s with hub := s.rebooted clipboard, taken := [], earlier := s.earlier ++ s.taken }

end GroupLeaf

/-! ## One envelope -/

section Data
variable {σ : Type} [Sha256] [Json ClipMeta] [Aead] {key : Vector UInt8 32}
  {groupId : Vector UInt8 16} {B : Backend σ} {now : ℕ} {payload : Bytes} {hub : Hub σ}

theorem onData_unreadable (B : Backend σ) (now : ℕ) (hub : Hub σ)
    (h : readEnvelope key groupId payload = none) :
    ∃ e, onData key groupId B now payload hub = ⟨.error e, hub, []⟩ := by
  unfold readEnvelope at h
  unfold onData
  cases ho : Group.openEnvelope key groupId payload with
  | error e => exact ⟨_, rfl⟩
  | ok opened =>
    rw [ho] at h
    dsimp only at h ⊢
    cases hd : decodeClip opened.plaintext with
    | error e => exact ⟨_, rfl⟩
    | ok clip =>
      rw [hd] at h
      cases h

theorem onData_readable (B : Backend σ) (now : ℕ) (hub : Hub σ) {sender : String} {clip : Clip}
    (h : readEnvelope key groupId payload = some (sender, clip)) :
    onData key groupId B now payload hub =
      match verifyClip clip with
      | .error _ => ⟨.ok none, hub, []⟩
      | .ok () =>
        let ret := hub.applyFrom B now clip sender
        match ret.res with
        | .error e => ⟨.error (.hub e), ret.hub, ret.out⟩
        | .ok ack => ⟨.ok (some ack), ret.hub, ret.out⟩ := by
  unfold readEnvelope at h
  unfold onData
  cases ho : Group.openEnvelope key groupId payload with
  | error e =>
    rw [ho] at h
    cases h
  | ok opened =>
    rw [ho] at h
    dsimp only at h ⊢
    cases hd : decodeClip opened.plaintext with
    | error e =>
      rw [hd] at h
      cases h
    | ok c =>
      rw [hd] at h
      obtain ⟨rfl, rfl⟩ := Prod.mk.inj (Option.some.inj h)
      rfl

theorem onData_unread (h : readEnvelope key groupId payload = none) :
    (onData key groupId B now payload hub).hub = hub ∧
      takenOf key groupId payload (onData key groupId B now payload hub) = [] := by
  obtain ⟨e, he⟩ := onData_unreadable B now hub h
  exact ⟨by rw [he], by rw [takenOf, h]⟩

/-- An envelope that can be read is applied when its clip lands and the backend takes it. -/
def Applies (B : Backend σ) (clip : Clip) (hub : Hub σ) : Prop :=
  Hub.Lands B clip hub ∧ (B.set (Hub.remoteItem clip) hub.clipboard).1.isOk = true

instance (clip : Clip) : Decidable (Applies B clip hub) := inferInstanceAs (Decidable (_ ∧ _))

/-- What the hub makes of a clip of which it takes what `taken` says. -/
structure Takes (B : Backend σ) (envelope : Bool) (origin : String) (clip : Clip) (hub t : Hub σ)
    (taken : List Taken) : Prop where
  seen : t.seen = hub.seen ∨ hub.seen.fresh clip.clipMeta.originId clip.clipMeta.seq = true ∧
    t.seen = (hub.sawClip clip).seen
  node : t.nodeId = hub.nodeId
  cases : taken = [] ∧ ¬ Applies B clip hub ∨
    t.seen = (hub.sawClip clip).seen ∧ (taken = [⟨origin, clip.clipMeta.seq, envelope⟩] ∧ Applies B clip hub ∨
      taken = [⟨origin, clip.clipMeta.seq, false⟩] ∧ ¬ Applies B clip hub)

omit [Json ClipMeta] [Aead] in
theorem takes_applyRemote (B : Backend σ) (now : ℕ) (envelope : Bool) (origin : String) (clip : Clip) (hub : Hub σ) :
    Takes B envelope origin clip hub (hub.applyRemote B now clip).hub
      (match (hub.applyRemote B now clip).res with
        | .ok ack => takenBy envelope origin clip ack
        | .error _ => []) := by
  have happ := hub.applyRemote_applied B now clip
  generalize hub.applyRemote B now clip = ret at happ
  cases happ with
  | rejected reason hn => exact ⟨.inl rfl, rfl, .inl ⟨rfl, fun ha => hn ha.1.verified⟩⟩
  | own hver hown => exact ⟨.inl rfl, rfl, .inl ⟨rfl, fun ha => ha.1.remote hown⟩⟩
  | duplicate hver hown hf =>
    exact ⟨.inl rfl, rfl, .inl ⟨rfl, fun ha => Bool.noConfusion (hf.symm.trans ha.1.fresh)⟩⟩
  | present hver hown hf hp =>
    have hnot : ¬ Applies B clip hub := fun ha => Bool.noConfusion (ha.1.absent.symm.trans hp)
    exact ⟨.inr ⟨hf, rfl⟩, rfl, .inr ⟨rfl, .inr ⟨rfl, hnot⟩⟩⟩
  | failed hl e clipboard hset =>
    have hnot : ¬ Applies B clip hub := fun ha => by
      have hok := ha.2
      rw [hset] at hok
      cases hok
    exact ⟨.inr ⟨hl.fresh, rfl⟩, rfl, .inl ⟨rfl, hnot⟩⟩
  | stored hl item clipboard hset =>
    exact ⟨.inr ⟨hl.fresh, rfl⟩, rfl, .inr ⟨rfl, .inl ⟨rfl, hl, by rw [hset]; rfl⟩⟩⟩

theorem onData_read {sender : String} {clip : Clip}
    (h : readEnvelope key groupId payload = some (sender, clip)) :
    Takes B true sender clip hub (onData key groupId B now payload hub).hub
      (takenOf key groupId payload (onData key groupId B now payload hub)) := by
  rw [takenOf, h, onData_readable B now hub h]
  cases hv : verifyClip clip with
  | error e =>
    have hnot : ¬ Applies B clip hub := fun ha => by
      rw [(verifyClip_ok_iff clip).mpr ha.1.verified] at hv
      cases hv
    exact ⟨.inl rfl, rfl, .inl ⟨rfl, hnot⟩⟩
  | ok u =>
    have htakes := takes_applyRemote B now true sender clip hub
    dsimp only
    rw [Hub.applyFrom_res, Hub.applyFrom_hub]
    cases hres : (hub.applyRemote B now clip).res with
    | error e =>
      rw [hres] at htakes
      exact htakes
    | ok ack =>
      rw [hres] at htakes
      exact htakes

end Data
end Zsync
