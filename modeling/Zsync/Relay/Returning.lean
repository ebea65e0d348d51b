import Zsync.Relay.BadPayloads
import Zsync.Relay.SenderIds

/-! # Clips that come back to their node

A daemon can be connected to one node over the LAN and through relays at once. Over the LAN it knows the node
by the id in its greeting, behind a relay by the sender bytes of its envelopes, which are the first 32 digits
of that id. A clip is not written to the LAN session whose id equals that of its sender.

* `Marked` : what a message says about where its clip came from.
* `NoReturn` : no session that reaches a node has written a clip of that node.
* `noReturn_iff` : that is so along a run exactly when no LAN session with the node takes and writes a clip
  that came from it through a relay under other digits.
-/

namespace Zsync
set_option autoImplicit false
set_option maxHeartbeats 250000
open Protocol Foundations

/-! ## Where a clip came from -/

/-- The skip mark under which a clip from there is broadcast. -/
def ClipSource.mark : ClipSource → Option String
  | .user => none
  | .lan peerId => peerId
  | .relay sender => some (hexEncode sender.toList)

/-- The message carries the mark of where its clip came from, if it did not come from the user. -/
structure Marked (m : Message) : Prop where
  skip : m.out.skip = m.source.mark
  received : m.source ≠ .user → m.out.skip.isSome

/-- The clip came from the node with this id. -/
def CameFrom (nodeId : String) : ClipSource → Prop
  | .user => False
  | .lan peerId => peerId = some nodeId
  | .relay sender => Group.senderFromNodeId nodeId = .ok sender

/-- What is written there can get to the node with this id. -/
def Reaches (nodeId : String) : LoopKind → Prop
  | .lan peerId => peerId = some nodeId
  | .relay _ _ _ => True

/-! ## What one frame does -/

namespace SessionLoop
variable {io : LoopIo} {l : SessionLoop}

theorem write_kind (io : LoopIo) (l : SessionLoop) (frame : Except ProtoError Bytes) : (l.write io frame).1.kind = l.kind := by
  unfold write
  cases frame with
  | error e => rfl
  | ok bytes =>
    dsimp only
    split_ifs <;> rfl

theorem write_wrote (frame : Except ProtoError Bytes) :
    (l.write io frame).2 = true ↔ io.writes = true ∧ frame.isOk = true := by
  unfold write
  cases frame with
  | error e => simp [Except.isOk, Except.toBool]
  | ok bytes =>
    dsimp only
    split_ifs with h
    · simp [h, Except.isOk, Except.toBool]
    · simp [h]

variable [Json ClipMeta] [Aead]

theorem forward_kind (io : LoopIo) (l : SessionLoop) (out : Outbound) : (l.forward io out).1.kind = l.kind := by
  unfold forward
  split
  · split_ifs
    · rfl
    · exact write_kind _ _ _
  · next key groupId sender hkind =>
    split_ifs
    · dsimp only
      split
      · exact hkind.symm ▸ rfl
      · split
        · rfl
        · exact write_kind _ _ _
    · rfl

/-- A LAN session writes what is not marked with its peer. -/
theorem forward_lan {out : Outbound} {peerId : Option String} (hkind : l.kind = .lan peerId) :
    (l.forward io out).2 = true ↔
      (out.skip = none ∨ out.skip ≠ peerId) ∧ io.writes = true ∧ (encodeClip out.clip).isOk = true := by
  unfold forward
  rw [hkind]
  dsimp only
  by_cases h : (out.skip.isSome && out.skip = peerId) = true
  · rw [if_pos h]
    simp only [Bool.and_eq_true, decide_eq_true_eq, Option.isSome_iff_ne_none] at h
    constructor
    · intro hno
      cases hno
    · rintro ⟨hnone | hne, -⟩
      · exact absurd hnone h.1
      · exact absurd h.2 hne
  · rw [if_neg h, write_wrote]
    have hskip : out.skip = none ∨ out.skip ≠ peerId := by
      simp only [Bool.and_eq_true, decide_eq_true_eq, Option.isSome_iff_ne_none, not_and] at h
      exact or_iff_not_imp_left.mpr h
    simp [hskip]

/-- A relay session writes what is not marked at all. -/
theorem forward_relay {out : Outbound} {key : Vector UInt8 32} {groupId sender : Vector UInt8 16}
    (hkind : l.kind = .relay key groupId sender) (h : (l.forward io out).2 = true) : out.skip = none := by
  unfold forward at h
  rw [hkind] at h
  dsimp only at h
  split_ifs at h with hskip
  exact Option.isNone_iff_eq_none.mp hskip

end SessionLoop

section Frames
variable {σ : Type} [Sha256] {B : Backend σ} {io : LoopIo} {l : SessionLoop} {hub : Hub σ}

/-- A frame leaves a loop what it is, and what is broadcast after it is marked. -/
structure FrameRet.Tame (l : SessionLoop) (ret : FrameRet σ) : Prop where
  kind : ret.loop.kind = l.kind
  marked : ∀ m ∈ ret.out, Marked m

theorem applyRemote_silent (now : ℕ) (clip : Clip) : (hub.applyRemote B now clip).out = [] := by
  have h := hub.applyRemote_applied B now clip
  generalize hub.applyRemote B now clip = ret at h
  cases h <;> rfl

/-- What `apply_from` broadcasts carries the peer as its mark. -/
theorem applyFrom_marked (B : Backend σ) (hub : Hub σ) (now : ℕ) (clip : Clip) {peer : String}
    {source : ClipSource} (hmark : source.mark = some peer) (m : Message)
    (h : m ∈ (hub.applyFrom B now clip peer).out.map fun out => ⟨out, source⟩) : Marked m := by
  rw [Hub.applyFrom_out] at h
  split_ifs at h
  · obtain rfl := List.mem_singleton.mp h
    exact ⟨hmark.symm, fun _ => rfl⟩
  · cases h

theorem applyOver_marked (B : Backend σ) (hub : Hub σ) (now : ℕ) (clip : Clip) (peerId : Option String) :
    ∀ m ∈ (hub.applyOver B now clip peerId).out.map fun out => Message.mk out (.lan peerId), Marked m := by
  cases peerId with
  | none =>
    rw [Hub.applyOver, applyRemote_silent]
    exact fun m hm => absurd hm List.not_mem_nil
  | some id => exact applyFrom_marked B hub now clip rfl

variable [Json ClipMeta]

theorem onClip_tame [Json ClipAck] (peerId : Option String) (payload : Bytes) :
    (onClip B peerId payload io l hub).Tame l := by
  unfold onClip
  cases decodeClip payload with
  | error e => exact ⟨SessionLoop.write_kind _ _ _, fun m hm => absurd hm List.not_mem_nil⟩
  | ok clip =>
    dsimp only
    have hmarked := applyOver_marked B hub io.now clip peerId
    generalize hub.applyOver B io.now clip peerId = ret at hmarked
    cases ret.res with
    | error e => exact ⟨rfl, hmarked⟩
    | ok ack =>
      dsimp only
      have hkind := SessionLoop.write_kind io l (encodeFrame .clipAck (Json.encode ack))
      generalize l.write io (encodeFrame .clipAck (Json.encode ack)) = w at hkind
      obtain ⟨l', _ | _⟩ := w
      · exact ⟨hkind, hmarked⟩
      · refine ⟨?_, hmarked⟩
        dsimp only
        split_ifs
        · exact hkind
        · exact hkind

theorem onLanFrame_tame [Json ClipAck] [Json Hello] (peerId : Option String)
    (frame : Except ProtoError (FrameType × Bytes)) : (onLanFrame B peerId frame io l hub).Tame l := by
  have hnil : ∀ m ∈ ([] : List Message), Marked m := fun m hm => absurd hm List.not_mem_nil
  unfold onLanFrame
  split
  · exact ⟨rfl, hnil⟩
  · exact onClip_tame _ _
  · exact ⟨SessionLoop.write_kind _ _ _, hnil⟩
  · exact ⟨rfl, hnil⟩
  · exact ⟨rfl, hnil⟩
  · exact ⟨rfl, hnil⟩
  · exact ⟨rfl, hnil⟩
  · exact ⟨rfl, hnil⟩
  · exact ⟨SessionLoop.write_kind _ _ _, hnil⟩

variable [Aead] {key : Vector UInt8 32} {groupId : Vector UInt8 16}

theorem onData_marked (payload : Bytes) (now : ℕ) (m : Message)
    (h : m ∈ (onData key groupId B now payload hub).out.map fun out =>
      ⟨out, match Group.openEnvelope key groupId payload with
        | .ok opened => .relay opened.sender
        | .error _ => .user⟩) : Marked m := by
  unfold onData at h
  cases hopen : Group.openEnvelope key groupId payload with
  | error e =>
    rw [hopen] at h
    cases h
  | ok opened =>
    rw [hopen] at h
    dsimp only at h
    cases hd : decodeClip opened.plaintext with
    | error e =>
      rw [hd] at h
      cases h
    | ok clip =>
      rw [hd] at h
      dsimp only at h
      cases hv : verifyClip clip with
      | error e =>
        rw [hv] at h
        cases h
      | ok u =>
        rw [hv] at h
        dsimp only at h
        generalize hret : hub.applyFrom B now clip (hexEncode opened.sender.toList) = ret at h
        have hmark : ClipSource.mark (.relay opened.sender) = some (hexEncode opened.sender.toList) := rfl
        have hmarked := applyFrom_marked B hub now clip hmark m
        rw [hret] at hmarked
        refine hmarked ?_
        cases hres : ret.res with
        | error e =>
          rw [hres] at h
          exact h
        | ok ack =>
          rw [hres] at h
          exact h

theorem onRelayFrame_tame (frame : Except ProtoError (Relay.FrameType × Bytes)) :
    (onRelayFrame B key groupId frame io l hub).Tame l := by
  have hnil : ∀ m ∈ ([] : List Message), Marked m := fun m hm => absurd hm List.not_mem_nil
  unfold onRelayFrame
  split
  · exact ⟨rfl, hnil⟩
  · refine ⟨?_, onData_marked _ _⟩
    dsimp only
    split <;> rfl
  · exact ⟨SessionLoop.write_kind _ _ _, hnil⟩
  · exact ⟨rfl, hnil⟩
  · exact ⟨rfl, hnil⟩
  · exact ⟨rfl, hnil⟩
  · exact ⟨rfl, hnil⟩
  · exact ⟨rfl, hnil⟩

end Frames
/-! ## One step -/

namespace Loops
variable {σ : Type}

theorem mints_unmarked {hub after : Hub σ} {out : List Outbound} (h : Hub.Mints hub after out) :
    ∀ o ∈ out, o.skip = none := by
  cases h with
  | silent hn hs hq => exact fun o ho => absurd ho List.not_mem_nil
  | one clip hn hs hq hid =>
    intro o ho
    obtain rfl := List.mem_singleton.mp ho
    rfl

variable [Json ClipMeta] [Aead]

/-- What a step writes to the other side, by loop. -/
def written (s : Loops σ) : LoopsEvent σ → List (ℕ × Message)
  | .recv i io =>
    match s.running i, s.tx.recv broadcastCap i with
    | some l, some (.message m, _) => if (l.forward io m.out).2 then [(i, m)] else []
    | _, _ => []
  | _ => []

/-- What a step does to the kinds of the loops, to the channel and to the record. -/
structure Advances (s t : Loops σ) (new : List (ℕ × Message)) : Prop where
  kinds : ∀ i l, s.loops i = some l → ∃ l', t.loops i = some l' ∧ l'.kind = l.kind
  log : ∀ m ∈ t.tx.log, m ∈ s.tx.log ∨ Marked m
  sent : t.sent = s.sent ++ new

omit [Json ClipMeta] [Aead] in
theorem update_kinds {s : Loops σ} {i : ℕ} {l l' : SessionLoop} (hl : s.loops i = some l)
    (hkind : l'.kind = l.kind) (j : ℕ) (k : SessionLoop) (hk : s.loops j = some k) :
    ∃ k', Function.update s.loops i (some l') j = some k' ∧ k'.kind = k.kind := by
  by_cases hj : j = i
  · subst hj
    obtain rfl := Option.some.inj (hl.symm.trans hk)
    exact ⟨l', Function.update_self .., hkind⟩
  · exact ⟨k, by rw [Function.update_of_ne hj, hk], rfl⟩

omit [Json ClipMeta] [Aead] in
theorem put_advances {s : Loops σ} {i : ℕ} {l l' : SessionLoop} (hl : s.loops i = some l)
    (hkind : l'.kind = l.kind) : Advances s (s.put i l') [] :=
  ⟨update_kinds hl hkind, fun _ hm => .inl hm, (List.append_nil _).symm⟩

omit [Json ClipMeta] [Aead] in
theorem handled_advances {s : Loops σ} {i : ℕ} {l : SessionLoop} {ret : FrameRet σ}
    (hl : s.loops i = some l) (h : ret.Tame l) : Advances s (s.handled i ret) [] := by
  refine ⟨update_kinds hl h.kind, fun m hm => ?_, (List.append_nil _).symm⟩
  obtain hm | hm := List.mem_append.mp hm
  · exact .inl hm
  · exact .inr (h.marked m hm)

omit [Json ClipMeta] [Aead] in
/-- What the user copies is marked as such. -/
theorem emit_advances {s : Loops σ} {hub : Hub σ} {out : List Outbound} (h : ∀ o ∈ out, o.skip = none) :
    Advances s (s.emit hub (out.map fun o => ⟨o, .user⟩)) [] := by
  refine ⟨fun i l hl => ⟨l, hl, rfl⟩, fun m hm => ?_, (List.append_nil _).symm⟩
  obtain hm | hm := List.mem_append.mp hm
  · exact .inl hm
  · obtain ⟨o, ho, rfl⟩ := List.mem_map.mp hm
    exact .inr ⟨h o ho, fun hne => absurd rfl hne⟩

variable [Sha256] [Json ClipAck] [Json Hello] {B : Backend σ} {s t : Loops σ} {e : LoopsEvent σ}

theorem step_advances (hs : step B s e = some t) : Advances s t (s.written e) := by
  cases e with
  | start i kind =>
    rw [step] at hs
    split_ifs at hs with hnone
    obtain rfl := Option.some.inj hs
    refine ⟨fun j l hl => ?_, fun m hm => .inl hm, (List.append_nil _).symm⟩
    have hj : j ≠ i := by
      rintro rfl
      rw [hl] at hnone
      cases hnone
    exact ⟨l, (Function.update_of_ne hj ..).trans hl, rfl⟩
  | stop i told io =>
    obtain ⟨l, hl, rfl⟩ := Option.map_eq_some_iff.mp hs
    refine put_advances (running_some hl).1 ?_
    split_ifs <;> rfl
  | ping i io =>
    obtain ⟨l, hl, rfl⟩ := Option.map_eq_some_iff.mp hs
    exact put_advances (running_some hl).1 (SessionLoop.write_kind _ _ _)
  | recv i io =>
    rw [step] at hs
    rw [written]
    cases hl : s.running i with
    | none =>
      rw [hl] at hs
      cases hs
    | some l =>
      rw [hl] at hs
      cases hr : s.tx.recv broadcastCap i with
      | none =>
        rw [hr] at hs
        cases hs
      | some p =>
        rw [hr] at hs
        obtain ⟨a, tx⟩ := p
        have hlog : tx.log = s.tx.log := (Channel.recv_cases hr).1
        cases a with
        | lagged n =>
          obtain rfl := Option.some.inj hs
          refine ⟨fun j k hk => ⟨k, hk, rfl⟩, fun m hm => .inl (hlog ▸ hm), (List.append_nil _).symm⟩
        | message m =>
          dsimp only at hs ⊢
          have hkind := SessionLoop.forward_kind io l m.out
          generalize l.forward io m.out = w at hs hkind
          obtain ⟨l', wrote⟩ := w
          obtain rfl := Option.some.inj hs
          refine ⟨update_kinds (running_some hl).1 hkind, fun x hx => .inl (hlog ▸ hx), ?_⟩
          cases wrote with
          | true => rfl
          | false => exact (List.append_nil _).symm
  | lanFrame i frame io =>
    rw [step] at hs
    cases hl : s.running i with
    | none =>
      rw [hl] at hs
      cases hs
    | some l =>
      rw [hl] at hs
      dsimp only at hs
      cases hkind : l.kind with
      | relay key groupId sender =>
        rw [hkind] at hs
        cases hs
      | lan peerId =>
        rw [hkind] at hs
        obtain rfl := Option.some.inj hs
        exact handled_advances (running_some hl).1 (onLanFrame_tame peerId frame)
  | relayFrame i frame io =>
    rw [step] at hs
    cases hl : s.running i with
    | none =>
      rw [hl] at hs
      cases hs
    | some l =>
      rw [hl] at hs
      dsimp only at hs
      cases hkind : l.kind with
      | lan peerId =>
        rw [hkind] at hs
        cases hs
      | relay key groupId sender =>
        rw [hkind] at hs
        obtain rfl := Option.some.inj hs
        exact handled_advances (running_some hl).1 (onRelayFrame_tame frame)
  | push now saves item =>
    obtain rfl := Option.some.inj hs
    exact emit_advances (mints_unmarked (Hub.localPush_mints B now saves item s.hub))
  | observe now saves item =>
    obtain rfl := Option.some.inj hs
    exact emit_advances (mints_unmarked (Hub.localObserved_mints now saves item s.hub))
  | put clipboard =>
    obtain rfl := Option.some.inj hs
    exact ⟨fun j k hk => ⟨k, hk, rfl⟩, fun m hm => .inl hm, (List.append_nil _).symm⟩

/-! ## Whole runs -/

/-- A session of this kind writes the message. -/
def Passes (m : Message) : LoopKind → Prop
  | .lan peerId => m.out.skip = none ∨ m.out.skip ≠ peerId
  | .relay _ _ _ => m.out.skip = none

/-- No session that reaches the node has written a clip that came from it. -/
def NoReturn (nodeId : String) (s : Loops σ) : Prop :=
  ∀ p ∈ s.sent, ∀ l, s.loops p.1 = some l → Reaches nodeId l.kind → ¬ CameFrom nodeId p.2.source

/-- A LAN session with the node takes a clip that the node sent through a relay, can write it, and the sender
bytes do not spell the id of the node. -/
def Returned (nodeId : String) (s : Loops σ) : LoopsEvent σ → Prop
  | .recv i io => ∃ l m tx sender, s.running i = some l ∧ l.kind = .lan (some nodeId) ∧
      s.tx.recv broadcastCap i = some (.message m, tx) ∧ m.source = .relay sender ∧
      Group.senderFromNodeId nodeId = .ok sender ∧ hexEncode sender.toList ≠ nodeId ∧
      io.writes = true ∧ (encodeClip m.out.clip).isOk = true
  | _ => False

structure Sound (s : Loops σ) : Prop where
  log : ∀ m ∈ s.tx.log, Marked m
  sent : ∀ p ∈ s.sent, ∃ l, s.loops p.1 = some l

omit [Json ClipMeta] [Aead] [Sha256] [Json ClipAck] [Json Hello] in
/-- The only way back is from a relay to the LAN. -/
theorem comesBack_iff {nodeId : String} {m : Message} {kind : LoopKind} (hm : Marked m) (hp : Passes m kind) :
    Reaches nodeId kind ∧ CameFrom nodeId m.source ↔ kind = .lan (some nodeId) ∧ ∃ sender,
      m.source = .relay sender ∧ Group.senderFromNodeId nodeId = .ok sender ∧
        hexEncode sender.toList ≠ nodeId := by
  have hskip := hm.skip
  constructor
  · rintro ⟨hreach, hfrom⟩
    have hsome : m.out.skip.isSome := by
      apply hm.received
      intro huser
      rw [huser] at hfrom
      exact hfrom
    cases kind with
    | relay key groupId sender =>
      rw [hp] at hsome
      cases hsome
    | lan peerId =>
      obtain rfl : peerId = some nodeId := hreach
      have hne : m.out.skip ≠ some nodeId := by
        obtain hnone | hne := hp
        · rw [hnone] at hsome
          cases hsome
        · exact hne
      refine ⟨rfl, ?_⟩
      cases hsource : m.source with
      | user =>
        rw [hsource] at hfrom
        exact hfrom.elim
      | lan peerId =>
        rw [hsource] at hfrom hskip
        obtain rfl : peerId = some nodeId := hfrom
        exact absurd hskip hne
      | relay sender =>
        rw [hsource] at hfrom hskip
        refine ⟨sender, rfl, hfrom, fun heq => hne ?_⟩
        rw [hskip, ClipSource.mark, heq]
  · rintro ⟨rfl, sender, hsource, hid, -⟩
    rw [hsource]
    exact ⟨rfl, hid⟩

omit [Sha256] [Json ClipAck] [Json Hello] in
theorem mem_written {p : ℕ × Message} : p ∈ s.written e ↔ ∃ io l tx, e = .recv p.1 io ∧
    s.running p.1 = some l ∧ s.tx.recv broadcastCap p.1 = some (.message p.2, tx) ∧
    (l.forward io p.2.out).2 = true := by
  constructor
  · intro h
    cases e with
    | recv i io =>
      rw [written] at h
      split at h
      · next l m tx hl hr =>
        split_ifs at h with hw
        · obtain rfl := List.mem_singleton.mp h
          exact ⟨io, l, tx, rfl, hl, hr, hw⟩
        · cases h
      · cases h
    | _ => cases h
  · rintro ⟨io, l, tx, rfl, hl, hr, hw⟩
    rw [written, hl, hr]
    dsimp only
    rw [if_pos hw]
    exact List.mem_singleton_self _

omit [Sha256] [Json ClipAck] [Json Hello] in
theorem forward_passes {l : SessionLoop} {io : LoopIo} {m : Message} (h : (l.forward io m.out).2 = true) :
    Passes m l.kind := by
  cases hkind : l.kind with
  | lan peerId => exact ((SessionLoop.forward_lan hkind).mp h).1
  | relay key groupId sender => exact SessionLoop.forward_relay hkind h

omit [Sha256] [Json ClipMeta] [Json ClipAck] [Json Hello] [Aead] in
/-- What is received lies in the channel. -/
theorem mem_log_of_recv {i : ℕ} {m : Message} {tx : Channel ℕ Message}
    (h : s.tx.recv broadcastCap i = some (.message m, tx)) : m ∈ s.tx.log := by
  obtain ⟨-, -, ⟨a, ha, hpending⟩ | ⟨lost, ha, -⟩⟩ := Channel.recv_cases h
  · obtain rfl := Received.message.inj ha
    exact Channel.mem_log_of_pending (hpending ▸ List.mem_cons_self)
  · cases ha

theorem Sound.step (h : Sound s) (hs : Loops.step B s e = some t) : Sound t := by
  have ha := step_advances hs
  refine ⟨fun m hm => (ha.log m hm).elim (h.log m) id, fun p hp => ?_⟩
  rw [ha.sent] at hp
  have hl : ∃ l, s.loops p.1 = some l := by
    obtain hp | hp := List.mem_append.mp hp
    · exact h.sent p hp
    · obtain ⟨io, l, tx, -, hl, -⟩ := mem_written.mp hp
      exact ⟨l, (running_some hl).1⟩
  obtain ⟨l, hl⟩ := hl
  obtain ⟨l', hl', -⟩ := ha.kinds _ _ hl
  exact ⟨l', hl'⟩

omit [Sha256] [Json ClipAck] [Json Hello] in
/-- What is written in this step comes back exactly when the step is `Returned`. -/
theorem written_comesBack_iff {nodeId : String} (h : Sound s) :
    (∃ p ∈ s.written e, ∃ l, s.loops p.1 = some l ∧ Reaches nodeId l.kind ∧ CameFrom nodeId p.2.source) ↔
      Returned nodeId s e := by
  constructor
  · rintro ⟨p, hp, l, hl, hback⟩
    obtain ⟨io, l', tx, rfl, hl', hr, hw⟩ := mem_written.mp hp
    obtain rfl := Option.some.inj ((running_some hl').1.symm.trans hl)
    obtain ⟨hkind, sender, hsource, hid, hne⟩ :=
      (comesBack_iff (h.log _ (mem_log_of_recv hr)) (forward_passes hw)).mp hback
    obtain ⟨-, hwrites, henc⟩ := (SessionLoop.forward_lan hkind).mp hw
    exact ⟨_, _, tx, sender, hl', hkind, hr, hsource, hid, hne, hwrites, henc⟩
  · intro hret
    cases e with
    | recv i io =>
      obtain ⟨l, m, tx, sender, hl, hkind, hr, hsource, hid, hne, hwrites, henc⟩ := hret
      have hm := h.log _ (mem_log_of_recv hr)
      have hskip : m.out.skip ≠ some nodeId := by
        rw [hm.skip, hsource]
        exact fun heq => hne (Option.some.inj heq)
      have hw : (l.forward io m.out).2 = true :=
        (SessionLoop.forward_lan hkind).mpr ⟨.inr hskip, hwrites, henc⟩
      refine ⟨(i, m), mem_written.mpr ⟨io, l, tx, rfl, hl, hr, hw⟩, l, (running_some hl).1, ?_⟩
      rw [hkind, hsource]
      exact ⟨rfl, hid⟩
    | _ => exact hret.elim

theorem noReturn_step_iff {nodeId : String} (h : Sound s) (hn : NoReturn nodeId s)
    (hs : Loops.step B s e = some t) : NoReturn nodeId t ↔ ¬ Returned nodeId s e := by
  have ha := step_advances hs
  rw [← written_comesBack_iff h]
  constructor
  · rintro hnt ⟨p, hp, l, hl, hreach, hfrom⟩
    obtain ⟨l', hl', hkind⟩ := ha.kinds _ _ hl
    refine hnt p ?_ l' hl' (hkind ▸ hreach) hfrom
    rw [ha.sent]
    exact List.mem_append_right _ hp
  · intro hno p hp l' hl' hreach hfrom
    rw [ha.sent] at hp
    obtain hp | hp := List.mem_append.mp hp
    · obtain ⟨l, hl⟩ := h.sent p hp
      obtain ⟨l'', hl'', hkind⟩ := ha.kinds _ _ hl
      obtain rfl := Option.some.inj (hl''.symm.trans hl')
      exact hn p hp l hl (hkind ▸ hreach) hfrom
    · obtain ⟨io, l, tx, -, hl, -⟩ := mem_written.mp hp
      obtain ⟨l'', hl'', hkind⟩ := ha.kinds _ _ (running_some hl).1
      obtain rfl := Option.some.inj (hl''.symm.trans hl')
      exact hno ⟨p, hp, l, (running_some hl).1, hkind ▸ hreach, hfrom⟩

/-- Along a run nothing comes back to a node exactly when no step returns a clip to it; to a node whose sender
bytes spell its id nothing ever comes back. -/
theorem noReturn_iff {nodeId : String} {hub : Hub σ} {es : List (LoopsEvent σ)}
    (hrun : (exec (step B) (idle hub) es).isSome) :
    (Along (step B) (NoReturn nodeId) (idle hub) es ↔
        Guarded (step B) (fun s e => ¬ Returned nodeId s e) (idle hub) es) ∧
      (Canonical nodeId → Along (step B) (NoReturn nodeId) (idle hub) es) := by
  have hiff : Along (step B) (NoReturn nodeId) (idle hub) es ↔
      Guarded (step B) (fun s e => ¬ Returned nodeId s e) (idle hub) es := by
    refine along_iff_guarded (I := Sound) (fun _ _ _ h hs => h.step hs)
      (fun _ _ _ h hn hs => noReturn_step_iff h hn hs) ⟨?_, ?_⟩ ?_ hrun
    · exact fun m hm => absurd hm List.not_mem_nil
    · exact fun p hp => absurd hp List.not_mem_nil
    · exact fun p hp => absurd hp List.not_mem_nil
  refine ⟨hiff, fun hc => hiff.mpr (guarded_of_always _ (fun s e hret => ?_) _ _)⟩
  cases e with
  | recv i io =>
    obtain ⟨_, _, _, sender, -, -, -, -, hid, hne, -⟩ := hret
    exact hne (hc sender hid)
  | _ => exact hret.elim

end Loops
/-! ### A node behind a relay and in the LAN -/

/-- The node sends `hi` through the relay, and is connected over the LAN under this id. -/
def bothWays (nodeId : String) : List (LoopsEvent (Option Item)) :=
  [.start 0 (.relay (.replicate 32 1) (.replicate 16 2) (.replicate 16 5)), .start 1 (.lan (some nodeId)),
    .relayFrame 0 (.ok (.data, hiEnvelope)) calmIo, .recv 1 calmIo]

/-- A fresh id, of which all bytes are 3. -/
theorem freshId_noReturn :
    letI := sampleSha256
    letI := sampleMetaJson
    letI := sampleAead
    letI := sampleAckJson
    letI := sampleHelloJson
    Along (Loops.step memory) (Loops.NoReturn (hexEncode (List.replicate 16 3))) (Loops.idle firstDesktop.hub)
      (bothWays (hexEncode (List.replicate 16 3))) := by
  let _ := sampleSha256
  let _ := sampleMetaJson
  let _ := sampleAead
  let _ := sampleAckJson
  let _ := sampleHelloJson
  have hrun : (exec (Loops.step memory) (Loops.idle firstDesktop.hub)
      (bothWays (hexEncode (List.replicate 16 3)))).isSome := by decide +kernel
  exact (Loops.noReturn_iff hrun).2 (canonical_hexEncode (.replicate 16 3))

/-- An id of 32 bytes; the sender bytes are the first 16. -/
def legacyId : String := hexEncode (List.replicate 32 3)

/-- What was written at the end, and where to. -/
def tellSent (t : Loops (Option Item)) : List (Option LoopKind × ClipSource) :=
  t.sent.map fun p => ((t.loops p.1).map SessionLoop.kind, p.2.source)

theorem legacyId_returns :
    letI := sampleSha256
    letI := sampleMetaJson
    letI := sampleAead
    letI := sampleAckJson
    letI := sampleHelloJson
    ¬ Along (Loops.step memory) (Loops.NoReturn legacyId) (Loops.idle firstDesktop.hub) (bothWays legacyId) := by
  let _ := sampleSha256
  let _ := sampleMetaJson
  let _ := sampleAead
  let _ := sampleAckJson
  let _ := sampleHelloJson
  intro h
  have hsent : (exec (Loops.step memory) (Loops.idle firstDesktop.hub) (bothWays legacyId)).map tellSent =
      some [(some (.lan (some legacyId)), .relay (.replicate 16 3))] := by decide +kernel
  have hid : Group.senderFromNodeId legacyId = .ok (.replicate 16 3) := by decide +kernel
  obtain ⟨t, ht, hmap⟩ := Option.map_eq_some_iff.mp hsent
  have hmem : (some (.lan (some legacyId)), .relay (.replicate 16 3)) ∈ tellSent t := by
    rw [hmap]
    exact List.mem_singleton_self _
  obtain ⟨p, hp, heq⟩ := List.mem_map.mp hmem
  obtain ⟨hkind, hsource⟩ := Prod.mk.inj heq
  obtain ⟨l, hl, hkind⟩ := Option.map_eq_some_iff.mp hkind
  refine along_last h ht p hp l hl ?_ ?_
  · rw [hkind]
    exact rfl
  · rw [hsource]
    exact hid

end Zsync
