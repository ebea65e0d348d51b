import Zsync.Model.RelayNet
import Zsync.Relay.Ordering
import Zsync.Relay.Returning
import Zsync.Wire.Authenticity

/-! # What the relay sessions of a daemon write, and what can be read of it

A clip goes through the broadcast channel of its hub, is encoded, sealed and framed. On the other side it is opened,
decoded and verified.

* `Sealed` : a payload holds the clip of a message.
* `Loops.relay_step` : what a relay session writes in a step is sealed, and of messages that it has taken.
* `Loops.Passed` : the sessions take their messages in the order of the channel.
* `Sealed.read` : what can be read of a payload is the clip that was sealed.
-/

namespace Zsync
set_option autoImplicit false
set_option maxHeartbeats 250000
open Protocol Foundations

/-- The clip as it comes out of its body again. -/
def received (clip : Clip) : Clip := ⟨sized clip, clip.data⟩

/-! ## The frames of one loop -/

def payloadOf (frame : Bytes) : Option Bytes :=
  match Relay.readFrame frame with
  | .ok ((.data, payload), _) => some payload
  | _ => none

/-- The payloads of the `Data` frames among `frames`. -/
def dataIn (frames : List Bytes) : List Bytes := frames.filterMap payloadOf

theorem readFrame_frameBytes {typ : Relay.FrameType} {payload bytes : Bytes}
    (h : Relay.frameBytes typ payload = .ok bytes) : Relay.readFrame bytes = .ok ((typ, payload), []) := by
  obtain ⟨f, hf, rfl⟩ := frameBytes_frame h
  rw [Relay.readFrame, ← List.append_nil f.symbols, Relay.relayCodec.read_append .io f [], hf]

theorem payloadOf_data {payload bytes : Bytes} (h : Relay.frameBytes .data payload = .ok bytes) :
    payloadOf bytes = some payload := by
  rw [payloadOf, readFrame_frameBytes h]

theorem payloadOf_other {typ : Relay.FrameType} {payload bytes : Bytes} (htyp : typ ≠ .data)
    (h : Relay.frameBytes typ payload = .ok bytes) : payloadOf bytes = none := by
  rw [payloadOf, readFrame_frameBytes h]
  cases typ with
  | data => exact absurd rfl htyp
  | _ => rfl

theorem dataIn_append (xs ys : List Bytes) : dataIn (xs ++ ys) = dataIn xs ++ dataIn ys := List.filterMap_append

theorem dataIn_singleton (frame : Bytes) : dataIn [frame] = (payloadOf frame).toList := by
  unfold dataIn
  rw [List.filterMap_cons]
  cases payloadOf frame <;> rfl

theorem take_prefix_take {α : Type} {xs ys : List α} (h : xs <+: ys) {m n : ℕ} (hmn : m ≤ n) :
    xs.take m <+: ys.take n :=
  List.prefix_take_iff.mpr ⟨(List.take_prefix m xs).trans h, (List.length_take_le m xs).trans hmn⟩

namespace SessionLoop
variable {io : LoopIo} {l l' : SessionLoop}

/-- The loop has written frames with the payloads `ps`, and maybe others. -/
structure Writes (l l' : SessionLoop) (ps : List Bytes) : Prop where
  kind : l'.kind = l.kind
  frames : ∃ new, l'.written = l.written ++ new ∧ dataIn new = ps

theorem Writes.refl (l : SessionLoop) : Writes l l [] := ⟨rfl, [], (List.append_nil _).symm, rfl⟩

/-- Whatever else a loop does. -/
theorem Writes.of_written {ps : List Bytes} (h : Writes l l' ps) {l'' : SessionLoop} (hkind : l''.kind = l'.kind)
    (hwritten : l''.written = l'.written) : Writes l l'' ps :=
  ⟨hkind.trans h.kind, h.frames.imp fun _ hnew => ⟨hwritten.trans hnew.1, hnew.2⟩⟩

theorem write_other {typ : Relay.FrameType} (htyp : typ ≠ .data) (payload : Bytes) :
    Writes l (l.write io (Relay.frameBytes typ payload)).1 [] := by
  refine ⟨write_kind _ _ _, ?_⟩
  unfold write
  cases hframe : Relay.frameBytes typ payload with
  | error e => exact ⟨[], (List.append_nil _).symm, rfl⟩
  | ok bytes =>
    dsimp only
    split_ifs
    · refine ⟨[bytes], rfl, ?_⟩
      rw [dataIn_singleton, payloadOf_other htyp hframe]
      rfl
    · exact ⟨[], (List.append_nil _).symm, rfl⟩

theorem write_data (env : Bytes) : Writes l (l.write io (Relay.frameBytes .data env)).1
    (if (l.write io (Relay.frameBytes .data env)).2 then [env] else []) := by
  refine ⟨write_kind _ _ _, ?_⟩
  cases hframe : Relay.frameBytes .data env with
  | error e => exact ⟨[], (List.append_nil _).symm, rfl⟩
  | ok bytes =>
    by_cases hwrites : io.writes = true
    · have hwrite : l.write io (.ok bytes) = ({ l with written := l.written ++ [bytes] }, true) := if_pos hwrites
      rw [hwrite]
      refine ⟨[bytes], rfl, ?_⟩
      rw [dataIn_singleton, payloadOf_data hframe]
      rfl
    · have hwrite : l.write io (.ok bytes) = (l.finish (.error (.proto .io)), false) := if_neg hwrites
      rw [hwrite]
      exact ⟨[], (List.append_nil _).symm, rfl⟩

/-- Handling a frame of the relay writes no `Data`. -/
theorem onRelayFrame_writes {σ : Type} [Sha256] [Json ClipMeta] [Aead] {B : Backend σ} {hub : Hub σ}
    {key : Vector UInt8 32} {groupId : Vector UInt8 16} (frame : Except ProtoError (Relay.FrameType × Bytes)) :
    Writes l (onRelayFrame B key groupId frame io l hub).loop [] := by
  have hrefl := Writes.refl l
  unfold onRelayFrame
  split
  · exact hrefl.of_written rfl rfl
  · dsimp only
    split
    · exact hrefl.of_written rfl rfl
    · exact hrefl
    · exact hrefl.of_written rfl rfl
  · exact write_other (by decide) _
  · exact hrefl
  · exact hrefl
  · exact hrefl
  · exact hrefl.of_written rfl rfl
  · exact hrefl.of_written rfl rfl

end SessionLoop

section
variable [Json ClipMeta] [Aead]

/-- The payload holds the clip of the message, which nobody else had sent. -/
structure Sealed (key : Vector UInt8 32) (groupId sender : Vector UInt8 16) (payload : Bytes) (m : Message) :
    Prop where
  skip : m.out.skip = none
  encodable : Encodable m.out.clip
  envelope : ∃ counter nonce, counter < 2 ^ 64 ∧
    Group.sealEnvelope key groupId sender counter nonce (clipBody m.out.clip) = .ok payload

omit [Aead] in
theorem encodable_of_ok {clip : Clip} {body : Bytes} (h : encodeClipBody clip = .ok body) :
    Encodable clip ∧ body = clipBody clip := by
  have henc : Encodable clip := by
    by_contra hno
    obtain ⟨e, he⟩ := encodeClipBody_error hno
    rw [h] at he
    cases he
  rw [encodeClipBody_ok henc] at h
  exact ⟨henc, (Except.ok.inj h).symm⟩

/-- A relay session that takes a message from the channel writes it sealed, or writes nothing. -/
theorem SessionLoop.forward_writes {l : SessionLoop} {key : Vector UInt8 32} {groupId sender : Vector UInt8 16}
    (hkind : l.kind = .relay key groupId sender) (io : LoopIo) (m : Message) :
    ∃ ps, Writes l (l.forward io m.out).1 ps ∧
      List.Forall₂ (Sealed key groupId sender) ps (if (l.forward io m.out).2 then [m] else []) := by
  have hrefl := Writes.refl l
  obtain ⟨ret, hret⟩ : ∃ ret, l.forward io m.out = ret := ⟨_, rfl⟩
  rw [hret]
  unfold forward at hret
  rw [hkind] at hret
  dsimp only at hret
  by_cases hskip : m.out.skip.isNone = true
  · rw [if_pos hskip] at hret
    cases hbody : encodeClipBody m.out.clip with
    | error e =>
      rw [hbody] at hret
      obtain rfl := hret
      exact ⟨[], hrefl.of_written hkind.symm rfl, .nil⟩
    | ok body =>
      obtain ⟨henc, rfl⟩ := encodable_of_ok hbody
      rw [hbody] at hret
      dsimp only at hret
      cases hseal : Group.sealEnvelope key groupId sender ((l.counter + 1) % 2 ^ 64) io.nonce
          (clipBody m.out.clip) with
      | error e =>
        rw [hseal] at hret
        obtain rfl := hret
        exact ⟨[], hrefl.of_written hkind.symm rfl, .nil⟩
      | ok env =>
        rw [hseal] at hret
        have hsealed : Sealed key groupId sender env m :=
          ⟨Option.isNone_iff_eq_none.mp hskip, henc, _, io.nonce, Nat.mod_lt _ (by decide), hseal⟩
        have hw := @write_data io
          { l with kind := .relay key groupId sender, counter := (l.counter + 1) % 2 ^ 64 } env
        rw [← hret]
        refine ⟨_, ⟨hw.kind.trans hkind.symm, hw.frames⟩, ?_⟩
        split_ifs
        · exact .cons hsealed .nil
        · exact .nil
  · rw [if_neg hskip] at hret
    obtain rfl := hret
    exact ⟨[], hrefl, .nil⟩

end

namespace SessionLoop
variable {io : LoopIo} {l : SessionLoop} {key : Vector UInt8 32} {groupId sender : Vector UInt8 16}

theorem bye_writes (hkind : l.kind = .relay key groupId sender) : Writes l (l.bye io) [] := by
  have hw : Writes l (l.write io (Relay.frameBytes .bye [])).1 [] := write_other (by decide) []
  refine ⟨rfl, ?_⟩
  unfold bye
  rw [hkind]
  exact hw.frames

theorem ping_writes (hkind : l.kind = .relay key groupId sender) : Writes l (l.ping io) [] := by
  unfold ping
  rw [hkind]
  exact write_other (by decide) []

end SessionLoop

/-! ## All loops of a daemon -/

namespace Loops
variable {σ : Type}

/-- What loop `i` has written. -/
def sentBy (i : ℕ) (s : Loops σ) : List Message := (s.sent.filter fun p => p.1 = i).map Prod.snd

/-- What the user of the daemon copied. -/
def copied (s : Loops σ) : List Clip := (s.tx.log.filter fun m => m.source = .user).map fun m => m.out.clip

variable [Sha256] [Json ClipMeta] [Json ClipAck] [Json Hello] [Aead] {B : Backend σ} {s t : Loops σ} {e : LoopsEvent σ}

theorem recv_cases {i : ℕ} {io : LoopIo} (hs : step B s (.recv i io) = some t) : ∃ l tx, s.running i = some l ∧
    ((∃ n, s.tx.recv broadcastCap i = some (.lagged n, tx) ∧ t = { s with tx := tx }) ∨
      ∃ m, s.tx.recv broadcastCap i = some (.message m, tx) ∧ t = { s with
        tx := tx
        loops := Function.update s.loops i (some (l.forward io m.out).1)
        sent := if (l.forward io m.out).2 then s.sent ++ [(i, m)] else s.sent }) := by
  rw [step] at hs
  cases hl : s.running i with
  | none =>
    rw [hl] at hs
    cases hs
  | some l =>
    rw [hl] at hs
    cases hr : s.tx.recv broadcastCap i with
    | none =>
      rw [hr] at hs
      cases hs
    | some p =>
      rw [hr] at hs
      obtain ⟨a, tx⟩ := p
      cases a with
      | lagged n => exact ⟨l, tx, rfl, .inl ⟨n, rfl, (Option.some.inj hs).symm⟩⟩
      | message m => exact ⟨l, tx, rfl, .inr ⟨m, rfl, (Option.some.inj hs).symm⟩⟩

theorem lanFrame_cases {i : ℕ} {frame : Except ProtoError (FrameType × Bytes)} {io : LoopIo}
    (hs : step B s (.lanFrame i frame io) = some t) : ∃ l peerId, s.running i = some l ∧ l.kind = .lan peerId ∧
      t = s.handled i (onLanFrame B peerId frame io l s.hub) := by
  rw [step] at hs
  cases hl : s.running i with
  | none =>
    rw [hl] at hs
    cases hs
  | some l =>
    rw [hl] at hs
    dsimp only at hs
    cases hkind : l.kind with
    | relay key groupId sender =>
      rw [hkind] at hs
      cases hs
    | lan peerId =>
      rw [hkind] at hs
      exact ⟨l, peerId, rfl, hkind, (Option.some.inj hs).symm⟩

theorem relayFrame_cases {i : ℕ} {frame : Except ProtoError (Relay.FrameType × Bytes)} {io : LoopIo}
    (hs : step B s (.relayFrame i frame io) = some t) : ∃ l key groupId sender, s.running i = some l ∧
      l.kind = .relay key groupId sender ∧ t = s.handled i (onRelayFrame B key groupId frame io l s.hub) := by
  rw [step] at hs
  cases hl : s.running i with
  | none =>
    rw [hl] at hs
    cases hs
  | some l =>
    rw [hl] at hs
    dsimp only at hs
    cases hkind : l.kind with
    | lan peerId =>
      rw [hkind] at hs
      cases hs
    | relay key groupId sender =>
      rw [hkind] at hs
      exact ⟨l, key, groupId, sender, rfl, hkind, (Option.some.inj hs).symm⟩

theorem sentBy_step (hs : step B s e = some t) (i : ℕ) :
    t.sentBy i = s.sentBy i ++ ((s.written e).filter fun p => p.1 = i).map Prod.snd := by
  rw [sentBy, (step_advances hs).sent, List.filter_append, List.map_append]
  rfl

/-- What a step adds to what a relay session has written is sealed. -/
theorem relay_step (hs : step B s e = some t) {i : ℕ} {l : SessionLoop} (hl : s.loops i = some l)
    {key : Vector UInt8 32} {groupId sender : Vector UInt8 16} (hkind : l.kind = .relay key groupId sender) :
    ∃ l' ps, t.loops i = some l' ∧ SessionLoop.Writes l l' ps ∧
      List.Forall₂ (Sealed key groupId sender) ps (((s.written e).filter fun p => p.1 = i).map Prod.snd) := by
  have hrefl := SessionLoop.Writes.refl l
  have hother : ∀ {j : ℕ} (l' : SessionLoop), i ≠ j → Function.update s.loops j (some l') i = some l :=
    fun l' hij => (Function.update_of_ne hij ..).trans hl
  cases e with
  | start j kind =>
    rw [step] at hs
    split_ifs at hs with hnone
    obtain rfl := Option.some.inj hs
    have hij : i ≠ j := by
      rintro rfl
      rw [hl] at hnone
      cases hnone
    exact ⟨l, [], hother _ hij, hrefl, .nil⟩
  | stop j told io =>
    obtain ⟨k, hk, rfl⟩ := Option.map_eq_some_iff.mp hs
    by_cases hij : i = j
    · subst hij
      obtain rfl := Option.some.inj ((running_some hk).1.symm.trans hl)
      refine ⟨_, [], Function.update_self .., ?_, .nil⟩
      split_ifs
      · exact SessionLoop.bye_writes hkind
      · exact hrefl
    · exact ⟨l, [], hother _ hij, hrefl, .nil⟩
  | ping j io =>
    obtain ⟨k, hk, rfl⟩ := Option.map_eq_some_iff.mp hs
    by_cases hij : i = j
    · subst hij
      obtain rfl := Option.some.inj ((running_some hk).1.symm.trans hl)
      exact ⟨_, [], Function.update_self .., SessionLoop.ping_writes hkind, .nil⟩
    · exact ⟨l, [], hother _ hij, hrefl, .nil⟩
  | recv j io =>
    obtain ⟨k, tx, hk, ⟨n, hr, rfl⟩ | ⟨m, hr, rfl⟩⟩ := recv_cases hs
    · refine ⟨l, [], hl, hrefl, ?_⟩
      simp [written, hk, hr]
    · have hnew : s.written (.recv j io) = if (k.forward io m.out).2 then [(j, m)] else [] := by
        rw [written, hk, hr]
      rw [hnew]
      by_cases hij : i = j
      · subst hij
        obtain rfl := Option.some.inj ((running_some hk).1.symm.trans hl)
        obtain ⟨ps, hw, hsealed⟩ := SessionLoop.forward_writes hkind io m
        refine ⟨_, ps, Function.update_self .., hw, ?_⟩
        split_ifs at hsealed ⊢
        · simpa using hsealed
        · exact hsealed
      · refine ⟨l, [], hother _ hij, hrefl, ?_⟩
        split_ifs
        · simp [Ne.symm hij]
        · exact .nil
  | lanFrame j frame io =>
    obtain ⟨k, peerId, hk, hlan, rfl⟩ := lanFrame_cases hs
    have hij : i ≠ j := by
      rintro rfl
      obtain rfl := Option.some.inj ((running_some hk).1.symm.trans hl)
      rw [hkind] at hlan
      cases hlan
    exact ⟨l, [], hother _ hij, hrefl, .nil⟩
  | relayFrame j frame io =>
    obtain ⟨k, key', groupId', sender', hk, hkind', rfl⟩ := relayFrame_cases hs
    by_cases hij : i = j
    · subst hij
      obtain rfl := Option.some.inj ((running_some hk).1.symm.trans hl)
      exact ⟨_, [], Function.update_self .., SessionLoop.onRelayFrame_writes frame, .nil⟩
    · exact ⟨l, [], hother _ hij, hrefl, .nil⟩
  | push now saves item =>
    obtain rfl := Option.some.inj hs
    exact ⟨l, [], hl, hrefl, .nil⟩
  | observe now saves item =>
    obtain rfl := Option.some.inj hs
    exact ⟨l, [], hl, hrefl, .nil⟩
  | put clipboard =>
    obtain rfl := Option.some.inj hs
    exact ⟨l, [], hl, hrefl, .nil⟩

omit [Sha256] [Json ClipMeta] [Json ClipAck] [Json Hello] [Aead] in
theorem Sound.sentBy_nil (h : Sound s) {i : ℕ} (hnone : s.loops i = none) : s.sentBy i = [] := by
  rw [sentBy, List.map_eq_nil_iff, List.filter_eq_nil_iff]
  intro p hp hpi
  obtain ⟨l, hl⟩ := h.sent p hp
  rw [of_decide_eq_true hpi, hnone] at hl
  cases hl

/-- What loop `i` has written and is still to receive are messages of the channel, in its order. -/
def Passed (s : Loops σ) : Prop := ∀ i, (s.sentBy i ++ s.tx.pending i).Sublist s.tx.log

theorem Passed.step (h : Passed s) (hsound : Sound s) (hs : Loops.step B s e = some t) : Passed t := by
  intro i
  have hsent := sentBy_step hs i
  -- the loops that do not receive
  have hquiet : ∀ out, s.written e = [] → t.tx = s.tx.sends out → (t.sentBy i ++ t.tx.pending i).Sublist t.tx.log := by
    intro out hnone htx
    rw [hsent, hnone, htx, Channel.sends_pending, Channel.sends_log, ← List.append_assoc]
    simpa using (h i).append_right out
  cases e with
  | start j kind =>
    rw [Loops.step] at hs
    split_ifs at hs with hnone
    obtain rfl := Option.some.inj hs
    by_cases hij : i = j
    · subst hij
      have hnil : s.sentBy i = [] := hsound.sentBy_nil (Option.isNone_iff_eq_none.mp hnone)
      change (s.sentBy i ++ (s.tx.seek i s.tx.log.length (Nat.le_refl _)).pending i).Sublist s.tx.log
      rw [hnil]
      exact List.drop_sublist _ _
    · change (s.sentBy i ++ (s.tx.seek j s.tx.log.length (Nat.le_refl _)).pending i).Sublist s.tx.log
      rw [Channel.seek_pending_of_ne hij]
      exact h i
  | stop j told io =>
    obtain ⟨k, -, rfl⟩ := Option.map_eq_some_iff.mp hs
    exact hquiet [] rfl (Channel.sends_nil _).symm
  | ping j io =>
    obtain ⟨k, -, rfl⟩ := Option.map_eq_some_iff.mp hs
    exact hquiet [] rfl (Channel.sends_nil _).symm
  | recv j io =>
    obtain ⟨k, tx, hk, ⟨n, hr, rfl⟩ | ⟨m, hr, rfl⟩⟩ := recv_cases hs
    · obtain ⟨hlog, hothers, ⟨a, ha, -⟩ | ⟨lost, -, hpending, -⟩⟩ := Channel.recv_cases hr
      · cases ha
      · change (s.sentBy i ++ tx.pending i).Sublist tx.log
        rw [hlog]
        by_cases hij : i = j
        · subst hij
          refine List.Sublist.trans ?_ (h i)
          rw [hpending]
          exact (List.sublist_append_right lost _).append_left _
        · rw [hothers i hij]
          exact h i
    · obtain ⟨hlog, hothers, ⟨a, ha, hpending⟩ | ⟨lost, hlost, -⟩⟩ := Channel.recv_cases hr
      · obtain rfl := Received.message.inj ha
        have hnew : s.written (.recv j io) = if (k.forward io m.out).2 then [(j, m)] else [] := by
          rw [written, hk, hr]
        rw [hsent, hnew]
        change (_ ++ tx.pending i).Sublist tx.log
        rw [hlog]
        by_cases hij : i = j
        · subst hij
          refine List.Sublist.trans ?_ (h i)
          rw [hpending, List.append_assoc]
          refine List.Sublist.append_left ?_ _
          split_ifs
          · simp
          · exact List.sublist_cons_self m _
        · rw [hothers i hij]
          split_ifs
          · simpa [Ne.symm hij] using h i
          · simpa using h i
      · cases hlost
  | lanFrame j frame io =>
    obtain ⟨k, peerId, -, -, rfl⟩ := lanFrame_cases hs
    exact hquiet _ rfl rfl
  | relayFrame j frame io =>
    obtain ⟨k, key, groupId, sender, -, -, rfl⟩ := relayFrame_cases hs
    exact hquiet _ rfl rfl
  | push now saves item =>
    obtain rfl := Option.some.inj hs
    exact hquiet _ rfl rfl
  | observe now saves item =>
    obtain rfl := Option.some.inj hs
    exact hquiet _ rfl rfl
  | put clipboard =>
    obtain rfl := Option.some.inj hs
    exact hquiet [] rfl (Channel.sends_nil _).symm

theorem started (hs : step B s e = some t) {i : ℕ} {l : SessionLoop} (hnone : s.loops i = none)
    (hl : t.loops i = some l) : ∃ kind, e = .start i kind ∧ l = SessionLoop.new kind := by
  have hput : ∀ {j : ℕ} {k k' : SessionLoop},
      s.running j = some k → Function.update s.loops j (some k') i ≠ some l := by
    intro j k k' hk hupd
    by_cases hij : i = j
    · rw [← hij, running, hnone] at hk
      cases hk
    · rw [Function.update_of_ne hij, hnone] at hupd
      cases hupd
  have hsame : s.loops i ≠ some l := by
    rw [hnone]
    exact fun h => by cases h
  cases e with
  | start j kind =>
    rw [step] at hs
    split_ifs at hs with hj
    obtain rfl := Option.some.inj hs
    change Function.update s.loops j (some (SessionLoop.new kind)) i = some l at hl
    rw [Function.update_apply] at hl
    split_ifs at hl with hij
    · exact ⟨kind, by rw [hij], (Option.some.inj hl).symm⟩
    · exact absurd hl hsame
  | stop j told io =>
    obtain ⟨k, hk, rfl⟩ := Option.map_eq_some_iff.mp hs
    exact absurd hl (hput hk)
  | ping j io =>
    obtain ⟨k, hk, rfl⟩ := Option.map_eq_some_iff.mp hs
    exact absurd hl (hput hk)
  | recv j io =>
    obtain ⟨k, tx, hk, ⟨n, -, rfl⟩ | ⟨m, -, rfl⟩⟩ := recv_cases hs
    · exact absurd hl hsame
    · exact absurd hl (hput hk)
  | lanFrame j frame io =>
    obtain ⟨k, peerId, hk, -, rfl⟩ := lanFrame_cases hs
    exact absurd hl (hput hk)
  | relayFrame j frame io =>
    obtain ⟨k, key, groupId, sender, hk, -, rfl⟩ := relayFrame_cases hs
    exact absurd hl (hput hk)
  | push now saves item =>
    obtain rfl := Option.some.inj hs
    exact absurd hl hsame
  | observe now saves item =>
    obtain rfl := Option.some.inj hs
    exact absurd hl hsame
  | put clipboard =>
    obtain rfl := Option.some.inj hs
    exact absurd hl hsame

/-- Each payload that a relay session has written holds the clip of the message that it took. -/
def Sealing (s : Loops σ) : Prop :=
  ∀ i l key groupId sender, s.loops i = some l → l.kind = .relay key groupId sender →
    List.Forall₂ (Sealed key groupId sender) (dataIn l.written) (s.sentBy i)

theorem Sealing.step (h : Sealing s) (hsound : Sound s) (hs : Loops.step B s e = some t) : Sealing t := by
  intro i l' key groupId sender hl' hkind'
  cases hl : s.loops i with
  | none =>
    have hnone : ((s.written e).filter fun p => p.1 = i) = [] := by
      rw [List.filter_eq_nil_iff]
      intro p hp hpi
      obtain ⟨io, k, tx, -, hk, -⟩ := mem_written.mp hp
      rw [of_decide_eq_true hpi, running, hl] at hk
      cases hk
    obtain ⟨kind, -, rfl⟩ := started hs hl hl'
    rw [sentBy_step hs, hsound.sentBy_nil hl, hnone]
    exact .nil
  | some l =>
    obtain ⟨k, hk, hkind⟩ := (step_advances hs).kinds i l hl
    obtain rfl := Option.some.inj (hk.symm.trans hl')
    rw [hkind] at hkind'
    obtain ⟨l'', ps, hl'', ⟨-, new, hnew, hps⟩, hsealed⟩ := relay_step hs hl hkind'
    obtain rfl := Option.some.inj (hl''.symm.trans hl')
    rw [hnew, dataIn_append, hps, sentBy_step hs]
    exact List.rel_append (h i l key groupId sender hl hkind') hsealed

omit [Sha256] [Json ClipMeta] [Json ClipAck] [Json Hello] [Aead] in
/-- What a relay session has written, the user has copied, in this order. -/
theorem Passed.copied (h : Passed s) (hsound : Sound s) {i : ℕ} (huser : ∀ m ∈ s.sentBy i, m.out.skip = none) :
    ((s.sentBy i).map fun m => m.out.clip).Sublist s.copied := by
  have hlog : (s.sentBy i).Sublist s.tx.log := (List.sublist_append_left _ _).trans (h i)
  have hall : (s.sentBy i).filter (fun m => m.source = .user) = s.sentBy i := by
    rw [List.filter_eq_self]
    intro m hm
    by_contra hne
    have hsome := (hsound.log m (hlog.subset hm)).received fun heq => hne (decide_eq_true heq)
    rw [huser m hm] at hsome
    cases hsome
  rw [Loops.copied, ← hall]
  exact (hlog.filter _).map _

omit [Sha256] [Json ClipMeta] [Json ClipAck] [Json Hello] [Aead] in
theorem frames_relay {i : ℕ} {l : SessionLoop} {key : Vector UInt8 32} {groupId sender : Vector UInt8 16}
    (hl : s.loops i = some l) (hkind : l.kind = .relay key groupId sender) : s.frames i = l.written := by
  simp only [frames, hl, hkind]

theorem frames_step (hs : step B s e = some t) (i : ℕ) : s.frames i <+: t.frames i := by
  cases hl : s.loops i with
  | none => simp [frames, hl]
  | some l =>
    cases hkind : l.kind with
    | lan peerId => simp [frames, hl, hkind]
    | relay key groupId sender =>
      obtain ⟨l', ps, hl', ⟨hkind', new, hnew, -⟩, -⟩ := relay_step hs hl hkind
      rw [frames_relay hl hkind, frames_relay hl' (hkind'.trans hkind)]
      exact ⟨new, hnew.symm⟩

end Loops

/-! ## What is read of what was sealed -/

section
variable [Sha256] [Json ClipMeta] [Aead] {key : Vector UInt8 32} {groupId : Vector UInt8 16}

theorem readVerified_some {payload : Bytes} {q : String × Clip} (h : readVerified key groupId payload = some q) :
    ∃ opened, Group.openEnvelope key groupId payload = .ok opened ∧ decodeClip opened.plaintext = .ok q.2 ∧
      q.1 = hexEncode opened.sender.toList := by
  have hread := (Option.filter_eq_some_iff.mp h).1
  unfold readEnvelope at hread
  cases hopen : Group.openEnvelope key groupId payload with
  | error e =>
    rw [hopen] at hread
    cases hread
  | ok opened =>
    rw [hopen] at hread
    dsimp only at hread
    cases hd : decodeClip opened.plaintext with
    | error e =>
      rw [hd] at hread
      cases hread
    | ok clip =>
      rw [hd] at hread
      obtain rfl := Option.some.inj hread
      exact ⟨opened, rfl, hd, rfl⟩

/-- What the `Data` branch of a relay session does to the hub. -/
theorem onData_hub {σ : Type} (B : Backend σ) (now : ℕ) (hub : Hub σ) {payload : Bytes} :
    (onData key groupId B now payload hub).hub =
      (readVerified key groupId payload).elim hub fun q => (hub.applyFrom B now q.2 q.1).hub := by
  unfold readVerified
  cases hread : readEnvelope key groupId payload with
  | none =>
    obtain ⟨e, he⟩ := onData_unreadable B now hub hread
    rw [he]
    rfl
  | some q =>
    by_cases hv : Verified q.2
    · have hfilter : (some q).filter (fun p => decide (Verified p.2)) = some q :=
        Option.filter_some_pos (decide_eq_true hv)
      rw [onData_readable B now hub hread, (verifyClip_ok_iff q.2).mpr hv, hfilter]
      dsimp only [Option.elim_some]
      cases (hub.applyFrom B now q.2 q.1).res <;> rfl
    · have hfilter : (some q).filter (fun p => decide (Verified p.2)) = none :=
        Option.filter_some_neg (decide_eq_false hv)
      rw [onData_dropped B now hub hread hv, hfilter]
      rfl

variable {key' : Vector UInt8 32} {groupId' sender' : Vector UInt8 16} {made : Group.Encryption → Prop}

/-- Under whatever key it is read: if it can be, it is in its own group, and is the clip that was sealed. -/
theorem Sealed.read (hideal : Group.Ideal made) (hfresh : Group.Fresh made) {payload : Bytes} {m : Message}
    (hs : Sealed key' groupId' sender' payload m) (hmade : made (Group.encryption key' groupId' payload))
    (hj : JsonRoundTrip (sized m.out.clip)) {q : String × Clip} (h : readVerified key groupId payload = some q) :
    groupId = groupId' ∧ q = (hexEncode sender'.toList, received m.out.clip) := by
  obtain ⟨opened, hopen, hd, hpeer⟩ := readVerified_some h
  obtain ⟨counter, nonce, hc, hseal⟩ := hs.envelope
  have hopen' := Group.opens_of_seal hideal hc hseal hmade
  obtain ⟨hgroup, -, rfl⟩ := Group.open_unique hideal hfresh hopen' hopen rfl
  have hclip := (decodeClip_clipBody hs.encodable hj).symm.trans hd
  exact ⟨hgroup, Prod.ext hpeer (Except.ok.inj hclip).symm⟩

/-- Of each session, what a loop hands to its hub is what it can read of what that session has said. -/
theorem hearings_said (i j : ℕ) (ps : List Parcel) :
    ((ps.filterMap (RelayNet.hearing key groupId i)).filter fun h => h.source = j).map Hearing.clip =
      ((Traffic.saidBy j ps).filterMap (readVerified key groupId)).map Prod.snd := by
  induction ps with
  | nil => rfl
  | cons p ps ih =>
    unfold Traffic.saidBy at ih ⊢
    by_cases hsource : p.source = j
    · cases hread : readVerified key groupId p.payload with
      | none => simpa [RelayNet.hearing, hread, hsource] using ih
      | some q => simpa [RelayNet.hearing, hread, hsource] using ih
    · cases hread : readVerified key groupId p.payload with
      | none => simpa [RelayNet.hearing, hread, hsource] using ih
      | some q => simpa [RelayNet.hearing, hread, hsource] using ih

end

end Zsync
