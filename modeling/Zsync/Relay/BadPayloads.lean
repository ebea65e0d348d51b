import Zsync.Model.SessionLoops
import Zsync.Relay.Rollback

/-! # Payloads that are no clips

Whoever knows the id of a group can hand any bytes to its members through the relay. Opening them,
decoding the clip and verifying it can each fail; over the LAN the first does not exist.

* `Bad` : a payload that does not become a clip.
* `onClip_bad` : `framed_loop` only answers such a payload.
* `badPayload_iff` : `run_relay_session` goes on exactly after the ones that could be opened and decoded.
-/

namespace Zsync
set_option autoImplicit false
set_option maxHeartbeats 250000
open Protocol Foundations

section
variable {σ : Type} [Sha256] [Json ClipMeta] [Aead] {key : Vector UInt8 32} {groupId : Vector UInt8 16}
  {payload : Bytes}

/-- The payload cannot be opened, or not decoded, or its clip is not verified. -/
def Bad (key : Vector UInt8 32) (groupId : Vector UInt8 16) (payload : Bytes) : Prop :=
  ∀ sender clip, readEnvelope key groupId payload = some (sender, clip) → ¬ Verified clip

theorem onData_dropped (B : Backend σ) (now : ℕ) (hub : Hub σ) {sender : String} {clip : Clip}
    (h : readEnvelope key groupId payload = some (sender, clip)) (hv : ¬ Verified clip) :
    onData key groupId B now payload hub = ⟨.ok none, hub, []⟩ := by
  rw [onData_readable B now hub h]
  cases hc : verifyClip clip with
  | error e => rfl
  | ok u => exact absurd ((verifyClip_ok_iff clip).mp hc) hv

end

/-! ## `framed_loop` -/

section
variable {σ : Type} [Sha256] [Json ClipMeta] [Json ClipAck] {payload : Bytes}

/-- What is no clip, or no verified one, is answered over the LAN, and changes nothing else. -/
theorem onClip_bad (B : Backend σ) (peerId : Option String) (io : LoopIo) (l : SessionLoop) (hub : Hub σ)
    (hbad : ∀ clip, decodeClip payload = .ok clip → ¬ Verified clip) :
    ∃ ack : ClipAck, ack.ok = false ∧
      onClip B peerId payload io l hub = ⟨(l.write io (encodeFrame .clipAck (Json.encode ack))).1, hub, []⟩ := by
  unfold onClip
  cases hd : decodeClip payload with
  | error e => exact ⟨_, rfl, rfl⟩
  | ok clip =>
    obtain ⟨e, he⟩ : ∃ e, verifyClip clip = .error e := by
      cases hv : verifyClip clip with
      | error e => exact ⟨e, rfl⟩
      | ok u => exact absurd ((verifyClip_ok_iff clip).mp hv) (hbad clip hd)
    have hno : (Hub.rejection clip e).ok = false := by
      cases e <;> rfl
    have hremote : hub.applyRemote B io.now clip = ⟨.ok (Hub.rejection clip e), hub, []⟩ := by
      rw [Hub.applyRemote, he]
    have hret : hub.applyOver B io.now clip peerId = ⟨.ok (Hub.rejection clip e), hub, []⟩ := by
      cases peerId with
      | none => exact hremote
      | some id =>
        unfold Hub.applyOver Hub.applyFrom
        dsimp only
        rw [hremote]
        dsimp only
        rw [hno]
        rfl
    refine ⟨Hub.rejection clip e, hno, ?_⟩
    dsimp only
    rw [hret]
    dsimp only
    rw [hno]
    generalize l.write io _ = w
    obtain ⟨l, _ | _⟩ := w <;> rfl

end

/-! ## `run_relay_session` -/

namespace Loops
variable {σ : Type} {s : Loops σ} {i : ℕ} {l : SessionLoop}

theorem running_some (h : s.running i = some l) : s.loops i = some l ∧ l.ended = none := by
  obtain ⟨hl, he⟩ := Option.filter_eq_some_iff.mp h
  exact ⟨hl, Option.isNone_iff_eq_none.mp he⟩

theorem running_put (i : ℕ) (l : SessionLoop) (s : Loops σ) :
    (s.put i l).running i = if l.ended.isNone then some l else none := by
  rw [running, put]
  dsimp only
  rw [Function.update_self]
  rfl

theorem put_self (h : s.loops i = some l) : s.put i l = s := by
  rw [put, ← h, Function.update_eq_self]

theorem emit_nil (s : Loops σ) : s.emit s.hub [] = s := by
  rw [emit, Channel.sends_nil]

variable [Sha256] [Json ClipMeta] [Json ClipAck] [Json Hello] [Aead] {B : Backend σ}
  {key : Vector UInt8 32} {groupId sender : Vector UInt8 16} {payload : Bytes} {io : LoopIo}

/-- The session has gone on, and the hub with its clipboard is as it was. -/
def Unharmed (i : ℕ) (s t : Loops σ) : Prop := t.hub = s.hub ∧ (t.running i).isSome

theorem step_relayData (hrun : s.running i = some l) (hkind : l.kind = .relay key groupId sender) :
    step B s (.relayFrame i (.ok (.data, payload)) io) =
      some (s.handled i (onRelayFrame B key groupId (.ok (.data, payload)) io l s.hub)) := by
  rw [step, hrun]
  dsimp only
  rw [hkind]

/-- A clip that is not verified leaves no trace. -/
theorem step_dropped (hrun : s.running i = some l) (hkind : l.kind = .relay key groupId sender)
    (hbad : Bad key groupId payload) (hread : (readEnvelope key groupId payload).isSome) :
    step B s (.relayFrame i (.ok (.data, payload)) io) = some s := by
  obtain ⟨⟨from_, clip⟩, hclip⟩ := Option.isSome_iff_exists.mp hread
  have hdata := onData_dropped B io.now s.hub hclip (hbad _ _ hclip)
  rw [step_relayData hrun hkind, onRelayFrame, hdata]
  exact congrArg some ((congrArg (put i l) s.emit_nil).trans (put_self (running_some hrun).1))

theorem step_unreadable (B : Backend σ) (io : LoopIo) (hrun : s.running i = some l) (hkind : l.kind = .relay key groupId sender)
    (hread : readEnvelope key groupId payload = none) :
    ∃ t, step B s (.relayFrame i (.ok (.data, payload)) io) = some t ∧ t.running i = none := by
  obtain ⟨e, hdata⟩ := onData_unreadable B io.now s.hub hread
  rw [step_relayData hrun hkind, onRelayFrame, hdata]
  exact ⟨_, rfl, by rw [handled, running_put]; rfl⟩

/-- A session goes on after a bad payload exactly when that could be opened and decoded; then everything that
follows is as if it had not come. -/
theorem badPayload_iff (B : Backend σ) (io : LoopIo) (hrun : s.running i = some l) (hkind : l.kind = .relay key groupId sender)
    (hbad : Bad key groupId payload) :
    ((∃ t, step B s (.relayFrame i (.ok (.data, payload)) io) = some t ∧ Unharmed i s t) ↔
        (readEnvelope key groupId payload).isSome) ∧
      ((readEnvelope key groupId payload).isSome → ∀ es : List (LoopsEvent σ),
        exec (step B) s (.relayFrame i (.ok (.data, payload)) io :: es) = exec (step B) s es) := by
  refine ⟨⟨fun ⟨t, ht, hok⟩ => ?_, fun hread => ⟨s, step_dropped hrun hkind hbad hread, rfl, ?_⟩⟩,
    fun hread es => exec_cons_of_step _ (step_dropped hrun hkind hbad hread) es⟩
  · rw [← Option.ne_none_iff_isSome]
    intro hnone
    obtain ⟨u, hu, hended⟩ := step_unreadable B io hrun hkind hnone
    obtain rfl := Option.some.inj (hu.symm.trans ht)
    have hsome := hok.2
    rw [hended] at hsome
    cases hsome
  · rw [hrun]
    rfl

end Loops

/-! ### Two payloads of a stranger -/

/-- A daemon with one session, in the group `02..02`. -/
def joined : Loops (Option Item) :=
  Loops.put 0 (SessionLoop.new (.relay (.replicate 32 1) (.replicate 16 2) (.replicate 16 3)))
    (Loops.subscribe 0 (Loops.idle firstDesktop.hub))

def calmIo : LoopIo := ⟨0, "1700000000", .replicate 24 5, ⟨"box", "linux", false, "0.1.0"⟩, true⟩

/-- `yo` under the hash of `hi`. -/
def yoBody : Bytes := [0, 159] ++ metaBytes relayClip.clipMeta ++ [121, 111]

def yoCiphertext : Bytes :=
  hiCiphertext.take 161 ++
    [0xe0, 0x84, 0xa1, 0x7c, 0x93, 0xc1, 0xe6, 0x2c, 0x68, 0xdf, 0x06, 0xdc, 0x9f, 0x45, 0xf4, 0x06, 0xa7,
      0x3a]

abbrev yoAead : Aead where
  expand := sampleAead.expand
  encrypt := fun key nonce aad msg =>
    if key = hiKey ∧ nonce = .replicate 24 4 ∧ aad = hiData ∧ msg = yoBody then some yoCiphertext
    else sampleAead.encrypt key nonce aad msg
  decrypt := fun key nonce aad ct =>
    if key = hiKey ∧ nonce = .replicate 24 4 ∧ aad = hiData ∧ ct = yoCiphertext then some yoBody
    else sampleAead.decrypt key nonce aad ct

def yoEnvelope : Bytes :=
  [Group.envelopeVer] ++ (Vector.replicate 16 3).toList ++ be64 1 ++ (Vector.replicate 24 4).toList ++
    yoCiphertext

theorem yoEnvelope_read :
    letI := sampleMetaJson
    letI := yoAead
    readEnvelope (.replicate 32 1) (.replicate 16 2) yoEnvelope =
      some (relayClip.clipMeta.originId, { relayClip with data := [121, 111] }) := by
  let _ := sampleMetaJson
  let _ := yoAead
  have hdec : Aead.decrypt (Aead.expand (.replicate 32 1)) (.replicate 24 4)
      (Group.additional (.replicate 16 2) (.replicate 16 3) 1) yoCiphertext = some yoBody :=
    if_pos ⟨if_pos rfl, rfl, rfl, rfl⟩
  have hlen : 16 ≤ yoCiphertext.length := by decide +kernel
  have hopen := Group.open_seal (by decide) hlen hdec
  have hhex : hexEncode (Vector.replicate 16 3).toList = relayClip.clipMeta.originId := by decide
  have hbody : decodeClip yoBody = .ok { relayClip with data := [121, 111] } := by
    have hparts : yoBody = be16 (metaBytes relayClip.clipMeta).length ++ metaBytes relayClip.clipMeta ++
        [121, 111] := by
      rw [hiMeta_length]
      rfl
    rw [hparts]
    exact decodeClip_parts relayClip_encodable.metaFits sampleMetaJson_roundTrip.nonempty
      sampleMetaJson_roundTrip.decode_encode rfl (by decide)
  unfold readEnvelope yoEnvelope
  rw [hopen]
  dsimp only
  rw [hbody]
  dsimp only
  rw [hhex]

/-- The session outlives `yo`. -/
theorem yoEnvelope_dropped :
    letI := sampleSha256
    letI := sampleMetaJson
    letI := yoAead
    letI := sampleAckJson
    letI := sampleHelloJson
    ∃ t, Loops.step memory joined (.relayFrame 0 (.ok (.data, yoEnvelope)) calmIo) = some t ∧
      Loops.Unharmed 0 joined t := by
  let _ := sampleSha256
  let _ := sampleMetaJson
  let _ := yoAead
  let _ := sampleAckJson
  let _ := sampleHelloJson
  refine ((Loops.badPayload_iff memory calmIo rfl rfl ?_).1).mpr ?_
  · intro sender clip hread hv
    obtain ⟨-, rfl⟩ := Prod.mk.inj (Option.some.inj (yoEnvelope_read.symm.trans hread))
    exact absurd hv (by decide)
  · rw [yoEnvelope_read]
    rfl

/-- No bytes at all end the session. -/
theorem emptyPayload_ends :
    letI := sampleSha256
    letI := sampleMetaJson
    letI := sampleAead
    letI := sampleAckJson
    letI := sampleHelloJson
    Bad (.replicate 32 1) (.replicate 16 2) [] ∧
      ¬ ∃ t, Loops.step memory joined (.relayFrame 0 (.ok (.data, [])) calmIo) = some t ∧
        Loops.Unharmed 0 joined t := by
  let _ := sampleSha256
  let _ := sampleMetaJson
  let _ := sampleAead
  let _ := sampleAckJson
  let _ := sampleHelloJson
  constructor
  · intro sender clip hread
    cases hread
  · rintro ⟨t, ht, hok⟩
    obtain rfl := Option.some.inj ht
    exact absurd hok.2 (by decide)

end Zsync
