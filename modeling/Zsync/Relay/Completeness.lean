import Zsync.Relay.Delivery

/-! # What is not lost arrives

Between two daemons, where every frame is read whole, a clip can be lost in four places: a session of theirs ends, the
channel of the sender's hub drops it, the relay does not list the receiver, or its queue there is full. While none of
this happens, a copy is on its way until it is heard. A fifth place is left out here: a loop that turns to another
branch of its `select!` drops what it has read of a frame, and `Wire/FrameReaders.lean` says when.

* `inFlight` : the clips that are on their way from one session to another, in the order in which they will arrive.
* `Up` : nothing is lost in this state.
* `account_step` : a step moves clips on, and adds what the user copies.
* `delivered` : over any part of a run along which `Up` holds, what was heard and what is on its way is what was heard
  and on its way before, and then what the user has copied: nothing less, nothing twice and nothing else.
-/

namespace Zsync
set_option autoImplicit false
set_option maxHeartbeats 250000
open Protocol Foundations

/-! ## Reading what was sealed -/

section
variable [Sha256]

/-- The clips as they are heard. What does not verify is dropped. -/
def arriving (clips : List Clip) : List Clip := (clips.map received).filter fun clip => decide (Verified clip)

theorem arriving_append (cs ds : List Clip) : arriving (cs ++ ds) = arriving cs ++ arriving ds := by
  simp [arriving]

variable [Json ClipMeta] [Aead] {key : Vector UInt8 32} {groupId sender : Vector UInt8 16}

/-- The clips that a relay session hands to its hub of these payloads. -/
def clipsIn (key : Vector UInt8 32) (groupId : Vector UInt8 16) (payloads : List Bytes) : List Clip :=
  (payloads.filterMap (readVerified key groupId)).map Prod.snd

theorem clipsIn_append (ps qs : List Bytes) :
    clipsIn key groupId (ps ++ qs) = clipsIn key groupId ps ++ clipsIn key groupId qs := by
  simp [clipsIn]

theorem Sealed.arrives (hexact : Group.Exact) {payload : Bytes} {m : Message}
    (hs : Sealed key groupId sender payload m) (hj : JsonRoundTrip (sized m.out.clip)) :
    clipsIn key groupId [payload] = arriving [m.out.clip] := by
  obtain ⟨counter, nonce, hc, hseal⟩ := hs.envelope
  have henvelope : readEnvelope key groupId payload = some (hexEncode sender.toList, received m.out.clip) := by
    rw [readEnvelope, Group.opens_of_seal hexact hc hseal trivial]
    dsimp only
    rw [decodeClip_clipBody hs.encodable hj]
    rfl
  -- it is read, and dropped if it does not verify
  by_cases hv : Verified (received m.out.clip)
  · have hread : readVerified key groupId payload = some (hexEncode sender.toList, received m.out.clip) := by
      rw [readVerified, henvelope]
      exact Option.filter_some_pos (decide_eq_true hv)
    simp [clipsIn, arriving, hread, hv]
  · have hread : readVerified key groupId payload = none := by
      rw [readVerified, henvelope]
      exact Option.filter_some_neg (decide_eq_false hv)
    simp [clipsIn, arriving, hread, hv]

end

/-! ## The daemon of the sender -/

namespace SessionLoop
variable [Json ClipMeta] [Aead] {io : LoopIo} {out : Outbound} {l : SessionLoop} {key : Vector UInt8 32}
  {groupId sender : Vector UInt8 16}

theorem forward_skips (hkind : l.kind = .relay key groupId sender) (hskip : out.skip.isSome) :
    l.forward io out = (l, false) := by
  have hno : out.skip.isNone ≠ true := by
    cases hout : out.skip with
    | none =>
      rw [hout] at hskip
      cases hskip
    | some peer => exact Bool.false_ne_true
  rw [forward, hkind]
  exact if_neg hno

omit [Json ClipMeta] [Aead] in
theorem wrote_of_unended {frame : Except ProtoError Bytes} (h : (l.write io frame).1.ended = none) :
    (l.write io frame).2 = true := by
  unfold write at h ⊢
  cases frame with
  | error e => cases h
  | ok bytes =>
    dsimp only at h ⊢
    split_ifs at h ⊢
    · rfl
    · cases h

/-- A relay session that goes on has written the user's clip. -/
theorem forward_wrote (hkind : l.kind = .relay key groupId sender) (hskip : out.skip = none)
    (h : (l.forward io out).1.ended = none) : (l.forward io out).2 = true := by
  obtain ⟨ret, hret⟩ : ∃ ret, l.forward io out = ret := ⟨_, rfl⟩
  rw [hret] at h ⊢
  unfold forward at hret
  rw [hkind] at hret
  dsimp only at hret
  rw [if_pos (by rw [hskip]; rfl)] at hret
  cases hbody : encodeClipBody out.clip with
  | error e =>
    rw [hbody] at hret
    obtain rfl := hret
    cases h
  | ok body =>
    rw [hbody] at hret
    dsimp only at hret
    cases hseal : Group.sealEnvelope key groupId sender ((l.counter + 1) % 2 ^ 64) io.nonce body with
    | error e =>
      rw [hseal] at hret
      obtain rfl := hret
      cases h
    | ok env =>
      rw [hseal] at hret
      rw [← hret] at h ⊢
      exact wrote_of_unended h

end SessionLoop

/-- The clips of the user among messages. -/
def copiedIn (ms : List Message) : List Clip :=
  (ms.filter fun m => m.source = .user).map fun m => m.out.clip

theorem copiedIn_append (ms ns : List Message) : copiedIn (ms ++ ns) = copiedIn ms ++ copiedIn ns := by
  simp [copiedIn]

namespace Loops
variable {σ : Type} [Sha256] [Json ClipMeta] [Json ClipAck] [Json Hello] [Aead] {B : Backend σ} {s t : Loops σ}
  {e : LoopsEvent σ} {j n : ℕ} {l l' : SessionLoop} {key : Vector UInt8 32} {groupId sender : Vector UInt8 16}

/-- What a step does to the channel: one loop receives, something is sent, or a new loop subscribes. -/
theorem tx_step (hs : step B s e = some t) :
    (∃ i io m, e = .recv i io ∧ s.tx.recv broadcastCap i = some (m, t.tx)) ∨ (∃ out, t.tx = s.tx.sends out) ∨
      ∃ i, s.loops i = none ∧ t.tx = s.tx.seek i s.tx.log.length (Nat.le_refl _) := by
  cases e with
  | start i kind =>
    rw [step] at hs
    split_ifs at hs with hnone
    obtain rfl := Option.some.inj hs
    exact .inr (.inr ⟨i, Option.isNone_iff_eq_none.mp hnone, rfl⟩)
  | stop i told io =>
    obtain ⟨k, -, rfl⟩ := Option.map_eq_some_iff.mp hs
    exact .inr (.inl ⟨[], (Channel.sends_nil _).symm⟩)
  | ping i io =>
    obtain ⟨k, -, rfl⟩ := Option.map_eq_some_iff.mp hs
    exact .inr (.inl ⟨[], (Channel.sends_nil _).symm⟩)
  | recv i io =>
    obtain ⟨k, tx, hk, ⟨n, hr, rfl⟩ | ⟨m, hr, rfl⟩⟩ := recv_cases hs
    · exact .inl ⟨i, io, _, rfl, hr⟩
    · exact .inl ⟨i, io, _, rfl, hr⟩
  | lanFrame i frame io =>
    obtain ⟨k, peerId, -, -, rfl⟩ := lanFrame_cases hs
    exact .inr (.inl ⟨_, rfl⟩)
  | relayFrame i frame io =>
    obtain ⟨k, key', groupId', sender', -, -, rfl⟩ := relayFrame_cases hs
    exact .inr (.inl ⟨_, rfl⟩)
  | push now saves item =>
    obtain rfl := Option.some.inj hs
    exact .inr (.inl ⟨_, rfl⟩)
  | observe now saves item =>
    obtain rfl := Option.some.inj hs
    exact .inr (.inl ⟨_, rfl⟩)
  | put clipboard =>
    obtain rfl := Option.some.inj hs
    exact .inr (.inl ⟨[], (Channel.sends_nil _).symm⟩)

theorem log_step (hs : step B s e = some t) : s.tx.log <+: t.tx.log := by
  obtain ⟨i, io, m, -, hr⟩ | ⟨out, htx⟩ | ⟨i, -, htx⟩ := tx_step hs
  · rw [(Channel.recv_cases hr).1]
  · rw [htx]
    exact List.prefix_append _ _
  · rw [htx]
    exact List.prefix_refl _

/-- A step in which loop `j` receives nothing. -/
theorem channel_step (hs : step B s e = some t) (hl : s.loops j = some l) (hne : ∀ io, e ≠ .recv j io) :
    (s.written e).filter (fun p => p.1 = j) = [] ∧
      ∃ out, t.tx.log = s.tx.log ++ out ∧ t.tx.pending j = s.tx.pending j ++ out := by
  refine ⟨?_, ?_⟩
  · rw [List.filter_eq_nil_iff]
    intro p hp hpj
    obtain ⟨io, k, tx, he, -⟩ := mem_written.mp hp
    exact hne io (of_decide_eq_true hpj ▸ he)
  obtain ⟨i, io, m, rfl, hr⟩ | ⟨out, htx⟩ | ⟨i, hnone, htx⟩ := tx_step hs
  · have hji : j ≠ i := fun h => hne io (by rw [h])
    obtain ⟨hlog, hothers, -⟩ := Channel.recv_cases hr
    exact ⟨[], hlog.trans (List.append_nil _).symm, (hothers j hji).trans (List.append_nil _).symm⟩
  · exact ⟨out, by rw [htx, Channel.sends_log], by rw [htx, Channel.sends_pending]⟩
  · have hji : j ≠ i := by
      rintro rfl
      rw [hl] at hnone
      cases hnone
    refine ⟨[], ?_, ?_⟩
    · rw [htx]
      exact (List.append_nil _).symm
    · rw [htx, Channel.seek_pending_of_ne hji, List.append_nil]

/-- What loop `j` receives, it writes, unless it ends or the channel has dropped something. -/
theorem recv_step (hexact : Group.Exact) (hsound : Sound s)
    (hj : ∀ clip ∈ s.copied, JsonRoundTrip (sized clip)) {io : LoopIo} (hs : step B s (.recv j io) = some t)
    (hl : s.running j = some l) (hkind : l.kind = .relay key groupId sender) (ht : t.running j = some l')
    (hlag : (s.tx.pending j).length ≤ broadcastCap) {ps : List Bytes}
    (hsealed : List.Forall₂ (Sealed key groupId sender) ps
      (((s.written (.recv j io)).filter fun p => p.1 = j).map Prod.snd)) :
    t.tx.log = s.tx.log ∧
      clipsIn key groupId ps ++ arriving (copiedIn (t.tx.pending j)) = arriving (copiedIn (s.tx.pending j)) := by
  obtain ⟨k, tx, hk, ⟨n, hr, rfl⟩ | ⟨m, hr, rfl⟩⟩ := recv_cases hs
  · obtain ⟨hlog, -, ⟨a, ha, -⟩ | ⟨lost, -, hpending, hkept⟩⟩ := Channel.recv_cases hr
    · cases ha
    have hnone : ((s.written (.recv j io)).filter fun p => p.1 = j).map Prod.snd = [] := by
      simp [written, hk, hr]
    rw [hnone] at hsealed
    obtain rfl := List.forall₂_nil_right_iff.mp hsealed
    have hlost : lost = [] := by
      rw [hpending, List.length_append, hkept] at hlag
      exact List.eq_nil_of_length_eq_zero (by omega)
    refine ⟨hlog, ?_⟩
    rw [hpending, hlost]
    rfl
  · obtain rfl := Option.some.inj (hk.symm.trans hl)
    obtain ⟨hlog, -, ⟨a, ha, hpending⟩ | ⟨lost, hlost, -⟩⟩ := Channel.recv_cases hr
    swap
    · cases hlost
    obtain rfl := Received.message.inj ha
    have hnew : s.written (.recv j io) = if (k.forward io m.out).2 then [(j, m)] else [] := by
      rw [written, hk, hr]
    have hmem : m ∈ s.tx.log := Channel.mem_log_of_pending (by rw [hpending]; exact List.mem_cons_self)
    refine ⟨hlog, ?_⟩
    change clipsIn key groupId ps ++ arriving (copiedIn (tx.pending j)) = _
    rw [hpending, ← List.singleton_append, copiedIn_append, arriving_append]
    congr 1
    by_cases huser : m.source = .user
    · have hskip : m.out.skip = none := by
        rw [(hsound.log m hmem).skip, huser]
        rfl
      have hrun : (k.forward io m.out).1.ended = none := by
        obtain ⟨hloop, hended⟩ := running_some ht
        have hself : Function.update s.loops j (some (k.forward io m.out).1) j = some (k.forward io m.out).1 :=
          Function.update_self ..
        obtain rfl := Option.some.inj (hself.symm.trans hloop)
        exact hended
      rw [hnew, if_pos (SessionLoop.forward_wrote hkind hskip hrun)] at hsealed
      obtain ⟨p, hp, rfl⟩ : ∃ p, Sealed key groupId sender p m ∧ ps = [p] := by
        simpa [List.forall₂_cons_right_iff] using hsealed
      have hcopied : m.out.clip ∈ s.copied :=
        List.mem_map_of_mem (List.mem_filter.mpr ⟨hmem, decide_eq_true huser⟩)
      rw [hp.arrives hexact (hj _ hcopied)]
      simp [copiedIn, huser]
    · rw [hnew, SessionLoop.forward_skips hkind ((hsound.log m hmem).received huser)] at hsealed
      obtain rfl := List.forall₂_nil_right_iff.mp hsealed
      simp [copiedIn, huser, clipsIn, arriving]

/-- The clips that a relay session has yet to write, or has written past the first `n` frames. -/
def outgoing (key : Vector UInt8 32) (groupId : Vector UInt8 16) (j n : ℕ) (s : Loops σ) : List Clip :=
  clipsIn key groupId (dataIn ((s.frames j).drop n)) ++ arriving (copiedIn (s.tx.pending j))

omit [Json ClipAck] [Json Hello] in
theorem outgoing_read {frame : Bytes} (h : (s.frames j)[n]? = some frame) :
    s.outgoing key groupId j n =
      clipsIn key groupId (payloadOf frame).toList ++ s.outgoing key groupId j (n + 1) := by
  obtain ⟨hn, hframe⟩ := List.getElem?_eq_some_iff.mp h
  rw [outgoing, outgoing, List.drop_eq_getElem_cons hn, hframe, ← List.singleton_append, dataIn_append,
    dataIn_singleton, clipsIn_append, List.append_assoc]

/-- A step moves them on, and adds what the user copies. -/
theorem outgoing_step (hexact : Group.Exact) (hsound : Sound s)
    (hj : ∀ clip ∈ s.copied, JsonRoundTrip (sized clip)) (hs : step B s e = some t) (hl : s.running j = some l)
    (hkind : l.kind = .relay key groupId sender) (ht : t.running j = some l')
    (hlag : (s.tx.pending j).length ≤ broadcastCap) (hn : n ≤ (s.frames j).length) :
    ∃ new, t.copied = s.copied ++ new ∧
      t.outgoing key groupId j n = s.outgoing key groupId j n ++ arriving new := by
  obtain ⟨l₁, ps, hl₁, ⟨hkind₁, written, hwritten, hdata⟩, hsealed⟩ := relay_step hs (running_some hl).1 hkind
  have hframes : dataIn ((t.frames j).drop n) = dataIn ((s.frames j).drop n) ++ ps := by
    rw [frames_relay (running_some hl).1 hkind] at hn ⊢
    rw [frames_relay hl₁ (hkind₁.trans hkind), hwritten, List.drop_append_of_le_length hn, dataIn_append, hdata]
  have hmoves : ∃ out, t.tx.log = s.tx.log ++ out ∧
      clipsIn key groupId ps ++ arriving (copiedIn (t.tx.pending j)) =
        arriving (copiedIn (s.tx.pending j)) ++ arriving (copiedIn out) := by
    by_cases hrecv : ∃ io, e = .recv j io
    · obtain ⟨io, rfl⟩ := hrecv
      obtain ⟨hlog, hpassed⟩ := recv_step hexact hsound hj hs hl hkind ht hlag hsealed
      exact ⟨[], by rw [hlog, List.append_nil], by rw [hpassed]; exact (List.append_nil _).symm⟩
    · obtain ⟨hnone, out, hlog, hpending⟩ := channel_step hs (running_some hl).1 fun io h => hrecv ⟨io, h⟩
      rw [hnone] at hsealed
      obtain rfl := List.forall₂_nil_right_iff.mp hsealed
      exact ⟨out, hlog, by rw [hpending, copiedIn_append, arriving_append]; rfl⟩
  obtain ⟨out, hlog, hpassed⟩ := hmoves
  refine ⟨copiedIn out, ?_, ?_⟩
  · change copiedIn t.tx.log = _
    rw [hlog, copiedIn_append]
    rfl
  · rw [outgoing, outgoing, hframes, clipsIn_append, List.append_assoc, hpassed, List.append_assoc]

end Loops

/-! ## The relay -/

namespace Traffic
variable {s t : Traffic} {e : TrafficEvent} {i j n : ℕ}

/-- What session `j` has read, and session `i` has not written or has written past the first `n` payloads. -/
def carried (j i n : ℕ) (s : Traffic) : List Bytes :=
  saidBy j ((s.written i).drop n ++ s.queue i) ++ (s.pending j).toList

/-- What session `j` reads. -/
def saying (j : ℕ) : TrafficEvent → List Bytes
  | .data k payload => if k = j then [payload] else []
  | _ => []

theorem saying_nil (h : ∀ payload, e ≠ .data j payload) : saying j e = [] := by
  cases e with
  | data k payload =>
    refine if_neg fun hkj => h payload ?_
    rw [hkj]
  | _ => rfl

/-- A relay that goes on serving session `j`, and lists session `i` with room for more, loses nothing between them. -/
theorem carried_step (hsound : Sound s) (hs : step s e = some t) (hn : n ≤ (s.written i).length)
    (hserved : ∃ leaf ∈ s.server.sessionAt j .looping, Receives (s.server.rooms.members leaf.group) leaf.device i)
    (hroom : s.hasRoom i = true) (ht : (t.server.sessionAt j .looping).isSome) :
    t.carried j i n = s.carried j i n ++ saying j e := by
  cases e with
  | server e =>
    simp only [step] at hs
    split_ifs at hs
    obtain ⟨server, -, rfl⟩ := Option.map_eq_some_iff.mp hs
    exact (List.append_nil _).symm
  | allowlist allow =>
    obtain rfl := Option.some.inj hs
    exact (List.append_nil _).symm
  | data k payload =>
    simp only [step] at hs
    split at hs
    · next leaf hk hnone =>
      by_cases hkj : k = j
      · subst hkj
        split_ifs at hs with hok
        · obtain rfl := Option.some.inj hs
          simp [carried, saying, hnone]
        · obtain rfl := Option.some.inj hs
          simp [RelayServer.sessionAt, RelayServer.put] at ht
      · split_ifs at hs with hok
        · obtain rfl := Option.some.inj hs
          simp [carried, saying, hkj, Function.update_of_ne (Ne.symm hkj)]
        · obtain rfl := Option.some.inj hs
          simp [carried, saying, hkj]
    · cases hs
  | broadcast k =>
    obtain ⟨leaf, payload, hb⟩ := broadcast_step hsound hs
    rw [carried, carried, hb.written, hb.queue i, hb.cleared]
    by_cases hkj : k = j
    · subst hkj
      obtain ⟨leaf', hleaf', hrec⟩ := hserved
      obtain rfl := Option.some.inj ((RelayServer.sessionAt_eq_some hleaf').1.symm.trans hb.session)
      rw [if_pos ⟨hrec, hroom⟩, Function.update_self, hb.pending]
      simp [saidBy, saying]
    · rw [Function.update_of_ne (Ne.symm hkj)]
      split_ifs
      · simp [saidBy, saying, hkj]
      · exact (List.append_nil _).symm
  | deliver k ok =>
    simp only [step] at hs
    split at hs
    · next leaf p rest hk hnone hqueue =>
      obtain rfl := Option.some.inj hs
      by_cases hki : k = i
      · subst hki
        simp [carried, saying, hqueue, List.drop_append_of_le_length hn]
      · simp [carried, saying, Function.update_of_ne (Ne.symm hki)]
    · cases hs

end Traffic

/-! ## From one daemon to another -/

/-- The key and the group of a relay session. -/
def LoopKind.group : LoopKind → Option (Vector UInt8 32 × Vector UInt8 16)
  | .relay key groupId _ => some (key, groupId)
  | .lan _ => none

theorem LoopKind.group_some {kind : LoopKind} {key : Vector UInt8 32} {groupId : Vector UInt8 16}
    (h : kind.group = some (key, groupId)) : ∃ sender, kind = .relay key groupId sender := by
  cases kind with
  | lan peerId => cases h
  | relay key' groupId' sender =>
    obtain ⟨rfl, rfl⟩ := Prod.mk.inj (Option.some.inj h)
    exact ⟨sender, rfl⟩

namespace RelayNet
variable {σ : Type}

/-- Nothing that goes from loop `j` of daemon `d` to loop `i` is lost now. -/
structure Up (home : ℕ → Option ℕ) (key : Vector UInt8 32) (groupId : Vector UInt8 16) (d j i : ℕ) (s : RelayNet σ) :
    Prop where
  sender : ∃ l ∈ (s.daemon d).running j, l.kind.group = some (key, groupId)
  keepsUp : ((s.daemon d).tx.pending j).length ≤ broadcastCap
  served : ∃ leaf ∈ s.relay.server.sessionAt j .looping,
    Traffic.Receives (s.relay.server.rooms.members leaf.group) leaf.device i
  room : s.relay.hasRoom i = true
  receiver : ∀ dst ∈ home i, ∀ l ∈ (s.daemon dst).running i, l.kind.group = some (key, groupId)

instance (home : ℕ → Option ℕ) (key : Vector UInt8 32) (groupId : Vector UInt8 16) (d j i : ℕ) (s : RelayNet σ) :
    Decidable (Up home key groupId d j i s) :=
  decidable_of_iff ((∃ l ∈ (s.daemon d).running j, l.kind.group = some (key, groupId)) ∧
      ((s.daemon d).tx.pending j).length ≤ broadcastCap ∧
      (∃ leaf ∈ s.relay.server.sessionAt j .looping,
        Traffic.Receives (s.relay.server.rooms.members leaf.group) leaf.device i) ∧
      s.relay.hasRoom i = true ∧
      ∀ dst ∈ home i, ∀ l ∈ (s.daemon dst).running i, l.kind.group = some (key, groupId))
    ⟨fun h => ⟨h.1, h.2.1, h.2.2.1, h.2.2.2.1, h.2.2.2.2⟩, fun h => ⟨h.1, h.2, h.3, h.4, h.5⟩⟩

/-- Nobody has read more than was written. -/
structure Counted (home : ℕ → Option ℕ) (s : RelayNet σ) : Prop where
  up : ∀ i d, home i = some d → s.up i ≤ ((s.daemon d).frames i).length
  down : ∀ i, s.down i ≤ (s.relay.written i).length

variable [Sha256] [Json ClipMeta] [Aead] {home : ℕ → Option ℕ} {s t : RelayNet σ} {e : RelayNetEvent σ}
  {key : Vector UInt8 32} {groupId : Vector UInt8 16} {d i j : ℕ}

omit [Sha256] [Json ClipMeta] [Aead] in
theorem serveFrame_data {relay relay' : Traffic} {frame payload : Bytes} (hp : payloadOf frame = some payload)
    (hs : serveFrame i relay (Relay.readFrame frame) = some relay') : relay.step (.data i payload) = some relay' := by
  unfold payloadOf at hp
  split at hp
  · next payload' rest hread =>
    obtain rfl := Option.some.inj hp
    rw [hread] at hs
    exact hs
  · cases hp

/-- The clips that are on their way from loop `j` of daemon `d` to loop `i`. -/
def inFlight (key : Vector UInt8 32) (groupId : Vector UInt8 16) (d j i : ℕ) (s : RelayNet σ) : List Clip :=
  clipsIn key groupId (s.relay.carried j i (s.down i)) ++ (s.daemon d).outgoing key groupId j (s.up j)

variable [Json ClipAck] [Json Hello] {B : ℕ → Backend σ}

theorem Counted.step (h : Counted home s) (hs : RelayNet.step home B s e = some t) : Counted home t := by
  have hframes : ∀ k d, home k = some d → s.up k ≤ ((t.daemon d).frames k).length := fun k d hk =>
    (h.up k d hk).trans (frames_step hs d k).length_le
  have hwritten : ∀ k, s.down k ≤ (t.relay.written k).length := fun k =>
    (h.down k).trans (written_step hs k).length_le
  cases e with
  | daemon d' e =>
    obtain ⟨loops, -, rfl⟩ := daemon_cases hs
    exact ⟨hframes, hwritten⟩
  | relay e =>
    obtain ⟨-, relay, -, rfl⟩ := relay_cases hs
    exact ⟨hframes, hwritten⟩
  | upload k =>
    obtain ⟨d', frame, relay, hk, hframe, -, rfl⟩ := upload_cases hs
    refine ⟨fun x d hx => ?_, hwritten⟩
    by_cases hxk : x = k
    · subst hxk
      obtain rfl := Option.some.inj (hk.symm.trans hx)
      dsimp only
      rw [Function.update_self]
      exact (List.getElem?_eq_some_iff.mp hframe).1
    · dsimp only
      rw [Function.update_of_ne hxk]
      exact h.up x d hx
  | stranger k payload =>
    obtain ⟨-, relay, -, rfl⟩ := stranger_cases hs
    exact ⟨hframes, hwritten⟩
  | download k io =>
    obtain ⟨d', p, l, key, groupId, sender, loops, hk, hp, -, -, -, rfl⟩ := download_cases hs
    refine ⟨hframes, fun x => ?_⟩
    by_cases hxk : x = k
    · subst hxk
      dsimp only
      rw [Function.update_self]
      exact (List.getElem?_eq_some_iff.mp hp).1
    · dsimp only
      rw [Function.update_of_ne hxk]
      exact h.down x

/-- On the daemon of the sender. -/
theorem outgoing_step (hexact : Group.Exact) (hinv : Inv home s) (hcount : Counted home s) (hd : home j = some d)
    (hup : Up home key groupId d j i s) (hup' : Up home key groupId d j i t)
    (hj : ∀ clip ∈ (s.daemon d).copied, JsonRoundTrip (sized clip)) (hs : step home B s e = some t) :
    ∃ new, (t.daemon d).copied = (s.daemon d).copied ++ new ∧ (t.daemon d).outgoing key groupId j (s.up j) =
      (s.daemon d).outgoing key groupId j (s.up j) ++ arriving new := by
  obtain heq | ⟨e', hstep⟩ := daemon_step hs d
  · rw [heq]
    exact ⟨[], (List.append_nil _).symm, (List.append_nil _).symm⟩
  · obtain ⟨l, hl, hgroup⟩ := hup.sender
    obtain ⟨l', hl', -⟩ := hup'.sender
    obtain ⟨sender, hkind⟩ := LoopKind.group_some hgroup
    exact Loops.outgoing_step hexact (hinv.sound d) hj hstep hl hkind hl' hup.keepsUp (hcount.up j d hd)

/-- What is read is handed on, or heard. -/
theorem handed_on (hinv : Inv home s) (hcount : Counted home s) (hd : home j = some d)
    (hup : Up home key groupId d j i s) (hup' : Up home key groupId d j i t) (hs : step home B s e = some t) :
    t.heardFrom i j ++ t.inFlight key groupId d j i =
      s.heardFrom i j ++ (clipsIn key groupId (s.relay.carried j i (s.down i)) ++
        (t.daemon d).outgoing key groupId j (s.up j)) := by
  have hcarried : ∀ {e' : TrafficEvent}, s.relay.step e' = some t.relay →
      t.relay.carried j i (s.down i) = s.relay.carried j i (s.down i) ++ Traffic.saying j e' := by
    intro e' he'
    obtain ⟨leaf, hleaf, -⟩ := hup'.served
    exact Traffic.carried_step hinv.relay.sound he' (hcount.down i) hup.served hup.room
      (Option.isSome_iff_exists.mpr ⟨leaf, hleaf⟩)
  cases e with
  | daemon d' e =>
    obtain ⟨loops, -, rfl⟩ := daemon_cases hs
    rfl
  | relay e =>
    obtain ⟨hne, relay, hrelay, rfl⟩ := relay_cases hs
    have hsame := hcarried hrelay
    rw [Traffic.saying_nil (hne j), List.append_nil] at hsame
    rw [inFlight, hsame]
    rfl
  | upload k =>
    obtain ⟨d', frame, relay, hk, hframe, hserve, rfl⟩ := upload_cases hs
    -- only a payload of session `j` is one more to carry
    have hread : relay.carried j i (s.down i) =
        s.relay.carried j i (s.down i) ++ if k = j then (payloadOf frame).toList else [] := by
      cases hpayload : payloadOf frame with
      | some payload => exact hcarried (serveFrame_data hpayload hserve)
      | none =>
        rw [Option.toList_none, ite_self, List.append_nil]
        obtain rfl | ⟨e', he', hdata⟩ := serveFrame_cases hserve
        · rfl
        have hnone : Traffic.saying j e' = [] := by
          refine Traffic.saying_nil fun payload he => ?_
          rw [(hdata j payload he).2] at hpayload
          cases hpayload
        have hsame := hcarried he'
        rwa [hnone, List.append_nil] at hsame
    rw [inFlight]
    dsimp only
    rw [hread, clipsIn_append, List.append_assoc]
    by_cases hkj : k = j
    · subst hkj
      obtain rfl := Option.some.inj (hk.symm.trans hd)
      rw [if_pos rfl, Function.update_self, Loops.outgoing_read hframe]
      rfl
    · rw [if_neg hkj, Function.update_of_ne (Ne.symm hkj)]
      rfl
  | stranger k payload =>
    obtain ⟨hk, relay, hrelay, rfl⟩ := stranger_cases hs
    have hkj : k ≠ j := by
      rintro rfl
      rw [hk] at hd
      cases hd
    have hsame := hcarried hrelay
    rw [Traffic.saying_nil fun p he => hkj (TrafficEvent.data.inj he).1, List.append_nil] at hsame
    rw [inFlight, hsame]
    rfl
  | download k io =>
    obtain ⟨d', p, l, key', groupId', sender, loops, hk, hp, hl, hkind, -, rfl⟩ := download_cases hs
    -- the payload is new among those heard, and no longer among those to read
    have hheard : ∀ x, (s.heard ++ (hearing key' groupId' k p).toList).filter (fun h => h.loop = x ∧ h.source = j) =
        s.heard.filter (fun h => h.loop = x ∧ h.source = j) ++
          (hearing key' groupId' k p).toList.filter (fun h => h.loop = x ∧ h.source = j) :=
      fun x => List.filter_append ..
    have hloop : ∀ h ∈ (hearing key' groupId' k p).toList, h.loop = k := by
      intro h hh
      obtain ⟨q, -, rfl⟩ := Option.map_eq_some_iff.mp (Option.mem_toList.mp hh)
      rfl
    rw [heardFrom, inFlight]
    dsimp only
    rw [hheard, List.map_append]
    by_cases hik : i = k
    · subst hik
      obtain ⟨sender', hkind'⟩ := LoopKind.group_some (hup.receiver d' hk l hl)
      obtain ⟨rfl, rfl, -⟩ := LoopKind.relay.inj (hkind.symm.trans hkind')
      obtain ⟨hn, hget⟩ := List.getElem?_eq_some_iff.mp hp
      have hfiltered :
          ((hearing key' groupId' i p).toList.filter fun h => h.loop = i ∧ h.source = j).map Hearing.clip =
            clipsIn key' groupId' (Traffic.saidBy j [p]) := by
        rw [clipsIn, ← hearings_said i j [p]]
        have hone : [p].filterMap (hearing key' groupId' i) = (hearing key' groupId' i p).toList := by
          cases hh : hearing key' groupId' i p <;> simp [hh]
        rw [hone]
        congr 1
        refine List.filter_congr fun h hh => ?_
        simp [hloop h hh]
      have hcarry : s.relay.carried j i (s.down i) =
          Traffic.saidBy j [p] ++ s.relay.carried j i (s.down i + 1) := by
        rw [Traffic.carried, Traffic.carried, List.drop_eq_getElem_cons hn, hget, ← List.singleton_append,
          List.append_assoc, Traffic.saidBy_append, List.append_assoc]
      rw [hfiltered, Function.update_self, hcarry, clipsIn_append]
      simp only [List.append_assoc]
      rfl
    · have hnone : (hearing key' groupId' k p).toList.filter (fun h => h.loop = i ∧ h.source = j) = [] := by
        rw [List.filter_eq_nil_iff]
        intro h hh hx
        exact hik ((of_decide_eq_true hx).1.symm.trans (hloop h hh))
      rw [hnone, Function.update_of_ne hik, List.map_nil, List.append_nil]
      rfl

theorem copied_step (hs : step home B s e = some t) (d : ℕ) : (s.daemon d).copied <+: (t.daemon d).copied := by
  obtain heq | ⟨e', hstep⟩ := daemon_step hs d
  · rw [heq]
  · exact ((Loops.log_step hstep).filter _).map _

/-- A step moves clips on, and adds what the user copies. -/
theorem account_step (hexact : Group.Exact) (hinv : Inv home s) (hcount : Counted home s) (hd : home j = some d)
    (hup : Up home key groupId d j i s) (hup' : Up home key groupId d j i t)
    (hj : ∀ clip ∈ (s.daemon d).copied, JsonRoundTrip (sized clip)) (hs : step home B s e = some t) :
    ∃ new, (t.daemon d).copied = (s.daemon d).copied ++ new ∧ t.heardFrom i j ++ t.inFlight key groupId d j i =
      s.heardFrom i j ++ s.inFlight key groupId d j i ++ arriving new := by
  obtain ⟨new, hcopied, hout⟩ := outgoing_step hexact hinv hcount hd hup hup' hj hs
  refine ⟨new, hcopied, ?_⟩
  rw [handed_on hinv hcount hd hup hup' hs, hout, inFlight]
  simp only [List.append_assoc]

/-- Along a run. -/
theorem account_run {es : List (RelayNetEvent σ)} (hexact : Group.Exact) (hinv : Inv home s)
    (hcount : Counted home s) (hd : home j = some d) (hrun : exec (step home B) s es = some t)
    (hup : Along (step home B) (Up home key groupId d j i) s es)
    (hj : ∀ clip ∈ (t.daemon d).copied, JsonRoundTrip (sized clip)) :
    ∃ new, (t.daemon d).copied = (s.daemon d).copied ++ new ∧ t.heardFrom i j ++ t.inFlight key groupId d j i =
      s.heardFrom i j ++ s.inFlight key groupId d j i ++ arriving new := by
  induction es generalizing s with
  | nil =>
    obtain rfl := Option.some.inj hrun
    exact ⟨[], (List.append_nil _).symm, (List.append_nil _).symm⟩
  | cons e es ih =>
    obtain ⟨u, hu, hrest⟩ := exec_cons_eq_some _ hrun
    have hups := hup.2 u hu
    obtain ⟨later, hlater, hcount'⟩ := ih (hinv.step hu) (hcount.step hu) hrest hups
    have hsub : ∀ clip ∈ (s.daemon d).copied, JsonRoundTrip (sized clip) := by
      intro clip hclip
      have hmem := (copied_step hu d).subset hclip
      exact hj clip (hlater ▸ List.mem_append_left later hmem)
    obtain ⟨new, hnew, haccount⟩ := account_step hexact hinv hcount hd hup.1 (along_head hups) hsub hu
    refine ⟨new ++ later, ?_, ?_⟩
    · rw [hlater, hnew, List.append_assoc]
    · rw [hcount', haccount, arriving_append, List.append_assoc]

/-- Nothing is on its way from loop `j` of daemon `d` to loop `i`. -/
structure Drained (d j i : ℕ) (s : RelayNet σ) : Prop where
  channel : (s.daemon d).tx.pending j = []
  frames : ((s.daemon d).frames j).length ≤ s.up j
  pending : s.relay.pending j = none
  queue : s.relay.queue i = []
  written : (s.relay.written i).length ≤ s.down i

omit [Json ClipAck] [Json Hello] in
theorem Drained.inFlight (h : Drained d j i s) : s.inFlight key groupId d j i = [] := by
  have hcarried : s.relay.carried j i (s.down i) = [] := by
    rw [Traffic.carried, List.drop_eq_nil_of_le h.written, h.queue, h.pending]
    rfl
  have hout : (s.daemon d).outgoing key groupId j (s.up j) = [] := by
    rw [Loops.outgoing, List.drop_eq_nil_of_le h.frames, h.channel]
    rfl
  rw [RelayNet.inFlight, hcarried, hout]
  rfl

/-- Daemons and relay have just started, and nobody has read anything. -/
structure Begins (s : RelayNet σ) : Prop extends Starts s where
  up : ∀ i, s.up i = 0
  down : ∀ i, s.down i = 0

omit [Sha256] [Json ClipMeta] [Aead] [Json ClipAck] [Json Hello] in
theorem Begins.counted (h : Begins s) : Counted home s where
  up i d _ := by
    rw [h.up i]
    exact Nat.zero_le _
  down i := by
    rw [h.down i]
    exact Nat.zero_le _

/-- While nothing is lost between two sessions, whatever else happens at the daemons, at the relay and in other
sessions, what one hears of the other and what is on its way to it grow by the clips that were copied there, in this
order and each once. When nothing is on its way any more, all of them were heard. -/
theorem delivered {start : RelayNet σ} {before es : List (RelayNetEvent σ)} (hexact : Group.Exact)
    (hstart : start.Begins) (hbefore : exec (step home B) start before = some s)
    (hrun : exec (step home B) s es = some t) (hd : home j = some d)
    (hup : Along (step home B) (Up home key groupId d j i) s es)
    (hj : ∀ clip ∈ (t.daemon d).copied, JsonRoundTrip (sized clip)) :
    ∃ new, (t.daemon d).copied = (s.daemon d).copied ++ new ∧
      t.heardFrom i j ++ t.inFlight key groupId d j i =
        s.heardFrom i j ++ s.inFlight key groupId d j i ++ arriving new ∧
      (t.Drained d j i →
        t.heardFrom i j = s.heardFrom i j ++ s.inFlight key groupId d j i ++ arriving new) := by
  have hcount : Counted home s := exec_invariant (fun _ _ _ h hs => h.step hs) hstart.counted hbefore
  obtain ⟨new, hcopied, haccount⟩ := account_run hexact (inv_run hstart.toStarts hbefore) hcount hd hrun hup hj
  refine ⟨new, hcopied, haccount, fun hdrained => ?_⟩
  rw [← haccount, hdrained.inFlight, List.append_nil]

end RelayNet

/-! ### A copy that arrives -/

/-- The one encryption that is made is that of the body of `hi`. -/
abbrev hiAead : Aead where
  expand := sampleAead.expand
  encrypt := fun key nonce aad msg =>
    if key = hiKey ∧ nonce = .replicate 24 4 ∧ aad = hiData ∧ msg = hiBody then some hiCiphertext
    else none
  decrypt := sampleAead.decrypt

theorem hiAead_encrypt {key : Vector UInt8 32} {nonce : Vector UInt8 24} {aad msg ct : Bytes} :
    hiAead.encrypt key nonce aad msg = some ct ↔
      (key = hiKey ∧ nonce = .replicate 24 4 ∧ aad = hiData ∧ msg = hiBody) ∧ ct = hiCiphertext := by
  change (if _ then some hiCiphertext else none) = some ct ↔ _
  split_ifs with h
  · simp [h, eq_comm]
  · simp [h]

theorem hiAead_exact : letI := hiAead; Group.Exact := by
  let _ := hiAead
  refine ⟨fun key nonce aad msg ct => ?_, fun key nonce aad msg ct h => ?_⟩
  · rw [hiAead_encrypt, true_and]
    change (if _ then some hiBody else none) = some msg ↔ _
    split_ifs with h
    · simp [h, eq_comm]
    · rw [false_iff]
      intro he
      exact h ⟨he.1.1, he.1.2.1, he.1.2.2.1, he.2⟩
  · obtain ⟨⟨-, -, -, rfl⟩, rfl⟩ := hiAead_encrypt.mp h
    rw [hiBody_length, hiCiphertext_length]

theorem twoDaemons_begins : twoDaemons.Begins := ⟨twoDaemons_starts, fun _ => rfl, fun _ => rfl⟩

/-- Both daemons join the group `02..02`. -/
def bothJoined : List (RelayNetEvent (Option Item)) :=
  phoneAndLaptop.map .relay ++
    [.daemon 0 (.start 0 (.relay (.replicate 32 1) (.replicate 16 2) (.replicate 16 3))),
      .daemon 1 (.start 1 (.relay (.replicate 32 1) (.replicate 16 2) (.replicate 16 4)))]

/-- `hi` is copied on the first, and goes to the second. -/
def hiCarried [Sha256] : List (RelayNetEvent (Option Item)) :=
  [.daemon 0 (.push 0 true hiItem), .daemon 0 (.recv 0 { calmIo with nonce := .replicate 24 4 }), .upload 0,
    .relay (.broadcast 0), .relay (.deliver 1 true), .download 1 calmIo]

theorem hiCarried_up :
    letI := sampleSha256
    letI := sampleMetaJson
    letI := hiAead
    letI := sampleAckJson
    letI := sampleHelloJson
    ((exec (RelayNet.step twoHomes fun _ => memory) twoDaemons bothJoined).any fun s =>
      decide (Guarded (RelayNet.step twoHomes fun _ => memory)
        (fun s _ => s.Up twoHomes (.replicate 32 1) (.replicate 16 2) 0 0 1) s hiCarried) &&
      (exec (RelayNet.step twoHomes fun _ => memory) s hiCarried).any fun t =>
        decide (t.Up twoHomes (.replicate 32 1) (.replicate 16 2) 0 0 1) &&
        decide ((t.daemon 0).copied = [relayClip] ∧ t.heardFrom 1 0 = [relayClip])) = true := by
  decide +kernel

theorem hiCarried_delivered :
    letI := sampleSha256
    letI := sampleMetaJson
    letI := hiAead
    letI := sampleAckJson
    letI := sampleHelloJson
    ∃ s t new, exec (RelayNet.step twoHomes fun _ => memory) twoDaemons bothJoined = some s ∧
      exec (RelayNet.step twoHomes fun _ => memory) s hiCarried = some t ∧ t.heardFrom 1 0 = [relayClip] ∧
        (t.daemon 0).copied = (s.daemon 0).copied ++ new ∧
          t.heardFrom 1 0 ++ t.inFlight (.replicate 32 1) (.replicate 16 2) 0 0 1 =
            s.heardFrom 1 0 ++ s.inFlight (.replicate 32 1) (.replicate 16 2) 0 0 1 ++ arriving new := by
  let _ := sampleSha256
  let _ := sampleMetaJson
  let _ := hiAead
  let _ := sampleAckJson
  let _ := sampleHelloJson
  obtain ⟨s, hs, hchecked⟩ := (Option.any_eq_true ..).mp hiCarried_up
  obtain ⟨hguarded, hchecked⟩ := Bool.and_eq_true_iff.mp hchecked
  obtain ⟨t, ht, hchecked⟩ := (Option.any_eq_true ..).mp hchecked
  obtain ⟨hlast, hchecked⟩ := Bool.and_eq_true_iff.mp hchecked
  obtain ⟨hcopied, hheard⟩ := of_decide_eq_true hchecked
  have hj : ∀ clip ∈ (t.daemon 0).copied, JsonRoundTrip (sized clip) := by
    intro clip hclip
    rw [hcopied] at hclip
    obtain rfl := List.mem_singleton.mp hclip
    exact sampleMetaJson_roundTrip
  obtain ⟨new, hnew, haccount, -⟩ := RelayNet.delivered hiAead_exact twoDaemons_begins hs ht rfl
    (along_of_guarded (of_decide_eq_true hguarded) ht (of_decide_eq_true hlast)) hj
  exact ⟨s, t, new, hs, ht, hheard, hnew, haccount⟩

end Zsync
