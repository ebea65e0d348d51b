import Zsync.Foundations.Backoff
import Zsync.Foundations.Runs
import Zsync.Model.Maintain
import Zsync.Relay.BadPayloads

/-! # Waiting before a peer is dialled again

The delay of `maintain_tcp` and `maintain_relay` doubles after each dial and starts over when the dial returned
without an error. A session that was connected and was then lost returns an error as well.

* `Restarts` : the waits start over after each session that was connected.
* `seconds_eq` : they start over after each dial that returned without an error.
* `backoff_restarts_iff` : the two are the same exactly when, the first dial aside, the dials that returned
  without an error are those that were connected.
* `lost_sessions_back_off` : the waits of a peer whose sessions are always lost.
-/

namespace Zsync.Maintain
set_option autoImplicit false
set_option maxHeartbeats 250000
open Protocol Transport Foundations Foundations.Backoff
open Handshake (JoinAck)
open Ipc (PeerStatus)

def connections (ws : List Wait) : List Bool := ws.map fun w => w.dialed.connected

def cleanEnds (ws : List Wait) : List Bool := ws.map fun w => w.dialed.res.isOk

/-- The wait with the number `k` since the last session that was connected takes `min (2 ^ (k - 1)) 30`
seconds. -/
def Restarts (ws : List Wait) : Prop := ws.map Wait.seconds = waits maxDelay (connections ws)

variable {ι : Type} {d : Dialer ι} {x y : Maintained × List Wait}

theorem cleanEnds_concat (ws : List Wait) (w : Wait) :
    cleanEnds (ws ++ [w]) = cleanEnds ws ++ [w.dialed.res.isOk] := List.map_append

/-! ## What the delay is at each point -/

/-- The wait that a sleeping task is in, or that the next failure leads to. -/
def upcoming (x : Maintained × List Wait) : ℕ :=
  match x.1.point with
  | .waiting => waitNumber (cleanEnds x.2)
  | .top | .dialing | .polling | .returned => waitNumber (cleanEnds x.2) + 1

structure Inv (x : Maintained × List Wait) : Prop where
  seconds : x.2.map Wait.seconds = waits maxDelay (cleanEnds x.2)
  delay : x.1.point ≠ .returned → x.1.delay = wait maxDelay (upcoming x)
  nonempty : x.1.point = .waiting → x.2 ≠ []

theorem inv_start (uri : String) : Inv (start uri, []) :=
  ⟨rfl, fun _ => (wait_one (by decide)).symm, fun h => nomatch h⟩

theorem judged_delay (dialed : Dialed) (ws : List Wait) {s : Maintained}
    (h : s.delay = wait maxDelay (waitNumber (cleanEnds ws) + 1)) :
    (s.judged dialed).delay = wait maxDelay (waitNumber (cleanEnds ws ++ [dialed.res.isOk])) := by
  rw [waitNumber_concat]
  unfold Maintained.judged
  cases dialed.res with
  | error e => exact h
  | ok u => exact (wait_one (by decide)).symm

theorem Inv.woken {t : Maintained} (h : Inv x) (ht : x.1.woken = some t) : Inv (t, x.2) := by
  unfold Maintained.woken at ht
  cases hp : x.1.point with
  | top | dialing | returned =>
    rw [hp] at ht
    cases ht
  | polling =>
    rw [hp] at ht
    obtain rfl := Option.some.inj ht
    refine ⟨h.seconds, fun _ => ?_, fun hw => nomatch hw⟩
    have hdelay := h.delay (by rw [hp]; decide)
    rw [upcoming, hp] at hdelay
    exact hdelay
  | waiting =>
    rw [hp] at ht
    obtain rfl := Option.some.inj ht
    refine ⟨h.seconds, fun _ => ?_, fun hw => nomatch hw⟩
    have hdelay := h.delay (by rw [hp]; decide)
    have hne : cleanEnds x.2 ≠ [] := by simpa [cleanEnds] using h.nonempty hp
    rw [upcoming, hp] at hdelay
    change min (x.1.delay * 2) maxDelay = wait maxDelay (waitNumber (cleanEnds x.2) + 1)
    rw [hdelay]
    exact wait_double (waitNumber_pos hne)

theorem Inv.stopped (h : Inv x) (state : String) : Inv (x.1.goes .returned state, x.2) :=
  ⟨h.seconds, fun hp => absurd rfl hp, fun hp => nomatch hp⟩

theorem Inv.leaves {point : Point} (h : Inv x) (htop : x.1.point = .top)
    (hp : point = .dialing ∨ point = .polling) (state : String) : Inv (x.1.goes point state, x.2) := by
  have hdelay := h.delay (by rw [htop]; decide)
  rw [upcoming, htop] at hdelay
  obtain rfl | rfl := hp
  · exact ⟨h.seconds, fun _ => hdelay, fun hw => nomatch hw⟩
  · exact ⟨h.seconds, fun _ => hdelay, fun hw => nomatch hw⟩

/-- A dial is followed by the wait that is due. -/
theorem Inv.waits (h : Inv x) (hp : x.1.point = .dialing) (dialed : Dialed) (state : String) :
    Inv ((x.1.judged dialed).goes .waiting state, x.2 ++ [⟨dialed, (x.1.judged dialed).delay⟩]) := by
  have hdelay := h.delay (by rw [hp]; decide)
  rw [upcoming, hp] at hdelay
  have hjudged := judged_delay dialed x.2 hdelay
  refine ⟨?_, fun _ => ?_, fun _ => by simp⟩
  · rw [List.map_append, List.map_singleton, cleanEnds_concat, waits_concat, h.seconds, hjudged]
  · change (x.1.judged dialed).delay = wait maxDelay (waitNumber (cleanEnds (x.2 ++ [_])))
    rw [cleanEnds_concat, hjudged]

theorem Inv.step {e : Event ι} (h : Inv x) (hs : recorded (step d) (waited d) x e = some y) : Inv y := by
  obtain ⟨hstep, hlog⟩ := recorded_eq_some hs
  obtain ⟨t, ws⟩ := y
  dsimp only at hstep hlog
  cases e with
  | check told claimed =>
    obtain rfl : ws = x.2 := by simpa [waited] using hlog
    simp only [Maintain.step] at hstep
    split_ifs at hstep with htop htold hpolls
    · obtain rfl := Option.some.inj hstep
      exact h.stopped _
    · obtain rfl := Option.some.inj hstep
      exact h.leaves htop (.inr rfl) _
    · obtain rfl := Option.some.inj hstep
      exact h.leaves htop (.inl rfl) _
  | dial io told =>
    simp only [Maintain.step] at hstep
    split_ifs at hstep with hp htold
    · obtain rfl := Option.some.inj hstep
      obtain rfl : ws = x.2 := by simpa [waited, Maintained.goes] using hlog
      exact ⟨h.seconds, fun hover => absurd rfl hover, fun hw => nomatch hw⟩
    · obtain rfl := Option.some.inj hstep
      obtain rfl := hlog
      exact h.waits hp _ _
  | elapsed =>
    obtain rfl : ws = x.2 := by simpa [waited] using hlog
    exact h.woken hstep
  | notified told =>
    obtain rfl : ws = x.2 := by simpa [waited] using hlog
    simp only [Maintain.step] at hstep
    split_ifs at hstep with htold
    · obtain ⟨u, hu, rfl⟩ := Option.map_eq_some_iff.mp hstep
      exact (h.woken hu).stopped _
    · exact h.woken hstep

/-! ## How a dial ends -/

/-- A dial fails with the status as it was, or finds its key claimed, or is a session that was connected. -/
inductive Ends (claims : Bool) (s : PeerStatus) : Dialed → Prop
  | failed (e : String) : Ends claims s ⟨.error e, s⟩
  | claimed (h : claims = false) : Ends claims s ⟨.ok (), s⟩
  | session (d : Dialed) (h : d.connected = true) : Ends claims s d

section Dials
variable {s : PeerStatus}

theorem runTcpInit_ends [Json Hello] (io : TcpIo) (claims : Bool) : Ends claims s (runTcpInit io s) := by
  unfold runTcpInit
  cases io.hello with
  | error e => exact .failed e
  | ok u =>
    cases io.answer with
    | error e => exact .failed e
    | ok answer =>
      dsimp only
      split_ifs
      · exact .failed _
      · cases (Json.decode answer.2 : Option Hello) with
        | none => exact .failed _
        | some remote => cases io.ack <;> exact .session _ rfl
      · cases (Json.decode answer.2 : Option Hello) with
        | none => exact .failed _
        | some remote => exact .session _ rfl

theorem runTcpDial_ends [Json Hello] (io : TcpIo) (s : PeerStatus) : Ends io.claims s (runTcpDial io s) := by
  unfold runTcpDial
  cases io.connect with
  | error e => exact .failed e
  | ok u =>
    dsimp only
    split_ifs with hclaims
    · exact runTcpInit_ends io io.claims
    · exact .claimed (by simpa using hclaims)

variable [Json JoinAck] [Json ErrorMsg]

theorem runRelaySession_ends (target : PeerTarget) (nodeId : String) (io : RelayIo) (claims : Bool) :
    Ends claims s (runRelaySession target nodeId io s) := by
  unfold runRelaySession
  cases target.relay with
  | none => exact .failed _
  | some peer =>
    dsimp only
    split_ifs
    · exact .failed _
    · cases io.join with
      | error e => exact .failed e
      | ok u =>
        cases io.answer with
        | error e => exact .failed e
        | ok answer =>
          dsimp only
          cases joinRefused io.json answer with
          | some e => exact .failed e
          | none =>
            dsimp only
            cases Group.senderFromNodeId nodeId <;> exact .session _ rfl

theorem runRelayDial_ends (target : PeerTarget) (nodeId : String) (io : RelayIo) (s : PeerStatus) :
    Ends io.claims s (runRelayDial target nodeId io s) := by
  unfold runRelayDial
  split_ifs with hclaims
  · exact runRelaySession_ends target nodeId io io.claims
  · exact .claimed (by simpa using hclaims)

end Dials

/-! ## Which sessions end without an error -/

section Loops
variable {σ : Type} {B : Backend σ} {l : SessionLoop} {io : LoopIo}

/-- The loop goes on, or has ended with an error. -/
def Unfinished (l : SessionLoop) : Prop := l.ended ≠ some (.ok ())

theorem write_unfinished (io : LoopIo) (frame : Except ProtoError Bytes) (h : Unfinished l) :
    Unfinished (l.write io frame).1 := by
  unfold SessionLoop.write
  cases frame with
  | error e => exact fun hend => nomatch hend
  | ok bytes =>
    dsimp only
    split_ifs
    · exact h
    · exact fun hend => nomatch hend

theorem forward_unfinished [Json ClipMeta] [Aead] (io : LoopIo) (out : Outbound) (h : Unfinished l) :
    Unfinished (l.forward io out).1 := by
  unfold SessionLoop.forward
  cases l.kind with
  | lan peerId =>
    dsimp only
    split_ifs
    · exact h
    · exact write_unfinished io _ h
  | relay key groupId sender =>
    dsimp only
    split_ifs
    · cases encodeClipBody out.clip with
      | error e => exact fun hend => nomatch hend
      | ok body =>
        dsimp only
        split
        · exact fun hend => nomatch hend
        · exact write_unfinished io _ h
    · exact h

variable [Sha256] [Json ClipMeta] [Json ClipAck]

theorem onClip_unfinished (B : Backend σ) (peerId : Option String) (payload : Bytes) (io : LoopIo)
    (hub : Hub σ) (h : Unfinished l) : Unfinished (onClip B peerId payload io l hub).loop := by
  unfold onClip
  dsimp only
  cases decodeClip payload with
  | error e => exact write_unfinished io _ h
  | ok clip =>
    dsimp only
    cases (hub.applyOver B io.now clip peerId).res with
    | error e => exact fun hend => nomatch hend
    | ok ack =>
      have hw := write_unfinished io (encodeFrame .clipAck (Json.encode ack)) h
      dsimp only
      generalize l.write io (encodeFrame .clipAck (Json.encode ack)) = wrote at hw
      obtain ⟨l', _ | _⟩ := wrote
      · exact hw
      · dsimp only
        split_ifs
        · exact hw
        · exact hw

variable [Json Hello]

theorem onLanFrame_unfinished (B : Backend σ) (peerId : Option String)
    {frame : Except ProtoError (FrameType × Bytes)} (io : LoopIo) (hub : Hub σ) (h : Unfinished l)
    (hbye : ∀ payload, frame ≠ .ok (.bye, payload) ∧ frame ≠ .ok (.error, payload)) :
    Unfinished (onLanFrame B peerId frame io l hub).loop := by
  unfold onLanFrame
  split
  · exact fun hend => nomatch hend
  · exact onClip_unfinished B peerId _ io hub h
  · exact write_unfinished io _ h
  · exact h
  · exact h
  · exact h
  · exact absurd rfl (hbye _).1
  · exact absurd rfl (hbye _).2
  · exact write_unfinished io _ h

variable [Aead]

omit [Json ClipAck] [Json Hello] in
theorem onRelayFrame_unfinished (B : Backend σ) (key : Vector UInt8 32) (groupId : Vector UInt8 16)
    {frame : Except ProtoError (Relay.FrameType × Bytes)} (io : LoopIo) (hub : Hub σ) (h : Unfinished l)
    (hbye : ∀ payload, frame ≠ .ok (.bye, payload) ∧ frame ≠ .ok (.error, payload)) :
    Unfinished (onRelayFrame B key groupId frame io l hub).loop := by
  unfold onRelayFrame
  split
  · exact fun hend => nomatch hend
  · next payload =>
    dsimp only
    cases (onData key groupId B io.now payload hub).res with
    | error e => exact fun hend => nomatch hend
    | ok ack =>
      cases ack with
      | none => exact h
      | some ack => exact h
  · exact write_unfinished io _ h
  · exact h
  · exact h
  · exact h
  · exact absurd rfl (hbye _).1
  · exact absurd rfl (hbye _).2

/-- The peer or the relay says goodbye, or the session is told to stop. -/
def Goodbye (i : ℕ) : LoopsEvent σ → Prop
  | .stop j told _ => j = i ∧ told = true
  | .lanFrame j frame _ => j = i ∧ ∃ payload, frame = .ok (.bye, payload) ∨ frame = .ok (.error, payload)
  | .relayFrame j frame _ => j = i ∧ ∃ payload, frame = .ok (.bye, payload) ∨ frame = .ok (.error, payload)
  | .start _ _ | .ping _ _ | .recv _ _ | .push _ _ _ | .observe _ _ _ | .put _ => False

/-- A session ends without an error only by a goodbye: one that loses its connection ends with an error. -/
theorem unfinished_step {s t : Loops σ} {e : LoopsEvent σ} {i : ℕ} (hs : Loops.step B s e = some t)
    (hbye : ¬ Goodbye i e) (h : ∀ l ∈ s.loops i, Unfinished l) : ∀ l ∈ t.loops i, Unfinished l := by
  have hput : ∀ {j : ℕ} {l l' : SessionLoop} {u : Loops σ}, s.running j = some l →
      u.loops = Function.update s.loops j (some l') → (j = i → Unfinished l → Unfinished l') →
      ∀ l ∈ u.loops i, Unfinished l := by
    intro j l l' u hrun hu hl x hx
    rw [hu, Function.update_apply] at hx
    split_ifs at hx with hij
    · obtain rfl := Option.some.inj hx
      exact hl hij.symm (h l (hij ▸ (Loops.running_some hrun).1))
    · exact h x hx
  cases e with
  | start j kind =>
    simp only [Loops.step] at hs
    split_ifs at hs
    obtain rfl := Option.some.inj hs
    intro x hx
    change x ∈ Function.update s.loops j (some (SessionLoop.new kind)) i at hx
    rw [Function.update_apply] at hx
    split_ifs at hx
    · obtain rfl := Option.some.inj hx
      exact fun hend => by cases hend
    · exact h x hx
  | stop j told io =>
    obtain ⟨l, hrun, rfl⟩ := Option.map_eq_some_iff.mp hs
    refine hput hrun rfl fun hj hl => ?_
    split_ifs with htold
    · exact absurd ⟨hj, htold⟩ hbye
    · exact hl
  | ping j io =>
    obtain ⟨l, hrun, rfl⟩ := Option.map_eq_some_iff.mp hs
    exact hput hrun rfl fun _ hl => write_unfinished io _ hl
  | recv j io =>
    simp only [Loops.step] at hs
    split at hs
    · next l m tx hrun hrecv =>
      obtain rfl := Option.some.inj hs
      exact hput hrun rfl fun _ hl => forward_unfinished io _ hl
    · obtain rfl := Option.some.inj hs
      exact h
    · cases hs
  | lanFrame j frame io =>
    simp only [Loops.step] at hs
    split at hs
    · next l hrun =>
      split at hs
      · obtain rfl := Option.some.inj hs
        refine hput hrun rfl fun hj hl => onLanFrame_unfinished B _ io _ hl fun payload => ⟨?_, ?_⟩
        · rintro rfl
          exact hbye ⟨hj, payload, .inl rfl⟩
        · rintro rfl
          exact hbye ⟨hj, payload, .inr rfl⟩
      · cases hs
    · cases hs
  | relayFrame j frame io =>
    simp only [Loops.step] at hs
    split at hs
    · next l hrun =>
      split at hs
      · obtain rfl := Option.some.inj hs
        refine hput hrun rfl fun hj hl => onRelayFrame_unfinished B _ _ io _ hl fun payload => ⟨?_, ?_⟩
        · rintro rfl
          exact hbye ⟨hj, payload, .inl rfl⟩
        · rintro rfl
          exact hbye ⟨hj, payload, .inr rfl⟩
      · cases hs
    · cases hs
  | push now saves item | observe now saves item =>
    obtain rfl := Option.some.inj hs
    exact h
  | put clipboard =>
    obtain rfl := Option.some.inj hs
    exact h

/-- Over whole runs: as long as nobody says goodbye, a session that ends ends with an error. -/
theorem unfinished_run {hub : Hub σ} {es : List (LoopsEvent σ)} {t : Loops σ} {i : ℕ}
    (hbye : ∀ e ∈ es, ¬ Goodbye i e) (hrun : exec (Loops.step B) (Loops.idle hub) es = some t) :
    ∀ l ∈ t.loops i, Unfinished l :=
  exec_guarded (I := fun s => ∀ l ∈ s.loops i, Unfinished l) (fun _ _ _ h he hs => unfinished_step hs he h)
    (fun _ hl => absurd hl (Option.not_mem_none _)) (guarded_of_forall _ hbye _) hrun

end Loops

/-! ## Whole runs -/

/-- The two loops of the source. -/
inductive Kind
  | tcp
  | relay (target : PeerTarget) (nodeId : String)

def Kind.Io : Kind → Type
  | .tcp => TcpIo
  | .relay _ _ => RelayIo

def Kind.maintain [Json Hello] [Json JoinAck] [Json ErrorMsg] : (k : Kind) → Dialer k.Io
  | .tcp => maintainTcp
  | .relay target nodeId => maintainRelay target nodeId

def Kind.claims : (k : Kind) → k.Io → Bool
  | .tcp, io => TcpIo.claims io
  | .relay _ _, io => RelayIo.claims io

variable {es : List (Event ι)} {t : Maintained} {ws : List Wait} {uri : String}

/-- The waits of every run start over after each dial that returned without an error. -/
theorem seconds_eq (hrun : exec (recorded (step d) (waited d)) (start uri, []) es = some (t, ws)) :
    ws.map Wait.seconds = waits maxDelay (cleanEnds ws) :=
  (exec_invariant (fun _ _ _ h hs => Inv.step h hs) (inv_start uri) hrun).seconds

/-- A peer whose sessions are all lost is waited for as if it had never been reached. -/
theorem lost_sessions_back_off
    (hrun : exec (recorded (step d) (waited d)) (start uri, []) es = some (t, ws))
    (hlost : ∀ w ∈ ws, w.dialed.res.isOk = false) :
    ws.map Wait.seconds = (List.range ws.length).map fun i => min (2 ^ i) maxDelay := by
  have hclean : cleanEnds ws = List.replicate ws.length false := by
    rw [cleanEnds, List.eq_replicate_iff]
    refine ⟨List.length_map _, fun b hb => ?_⟩
    obtain ⟨w, hw, rfl⟩ := List.mem_map.mp hb
    exact hlost w hw
  rw [seconds_eq hrun, hclean]
  exact waits_replicate maxDelay ws.length

section
variable [Json Hello] [Json JoinAck] [Json ErrorMsg]

theorem Kind.ends (k : Kind) (io : k.Io) (s : PeerStatus) : Ends (k.claims io) s (k.maintain.dial io s) := by
  cases k with
  | tcp => exact runTcpDial_ends io s
  | relay target nodeId => exact runRelayDial_ends target nodeId io s

/-- No dial finds its key claimed. -/
def Unclaimed (k : Kind) : Event k.Io → Prop
  | .dial io _ => k.claims io = true
  | .check _ _ | .elapsed | .notified _ => True

/-- Where no dial finds its key claimed, those that return without an error were connected. -/
theorem connected_of_unclaimed (k : Kind) {es : List (Event k.Io)} (hfree : ∀ e ∈ es, Unclaimed k e)
    (hrun : exec (recorded (step k.maintain) (waited k.maintain)) (start uri, []) es = some (t, ws)) :
    ∀ w ∈ ws, w.dialed.res.isOk = true → w.dialed.connected = true := by
  refine exec_guarded (I := fun x => ∀ w ∈ x.2, w.dialed.res.isOk = true → w.dialed.connected = true)
    (C := fun _ e => Unclaimed k e) ?_ (fun w hw => absurd hw List.not_mem_nil)
    (guarded_of_forall _ hfree _) hrun
  rintro x e y hx he hs w hw
  rw [(recorded_eq_some hs).2] at hw
  obtain hw | hw := List.mem_append.mp hw
  · exact hx w hw
  · cases e with
    | check told claimed => exact absurd hw List.not_mem_nil
    | elapsed => exact absurd hw List.not_mem_nil
    | notified told => exact absurd hw List.not_mem_nil
    | dial io told =>
      simp only [waited] at hw
      split_ifs at hw
      · obtain rfl := List.mem_singleton.mp hw
        have hends := k.ends io x.1.status
        rw [show k.claims io = true from he] at hends
        dsimp only
        generalize k.maintain.dial io x.1.status = dialed at hends
        intro hok
        cases hends with
        | failed e => cases hok
        | claimed h => cases h
        | session _ h => exact h
      · exact absurd hw List.not_mem_nil

omit [Json Hello] [Json JoinAck] [Json ErrorMsg] in
theorem restarts_iff_agree (hrun : exec (recorded (step d) (waited d)) (start uri, []) es = some (t, ws)) :
    Restarts ws ↔ ∀ w ∈ ws.tail, w.dialed.connected = w.dialed.res.isOk := by
  have hlen : (cleanEnds ws).length = (connections ws).length := by
    rw [cleanEnds, connections, List.length_map, List.length_map]
  rw [Restarts, seconds_eq hrun, waits_eq_iff (by decide) hlen, cleanEnds, connections, ← List.map_tail,
    ← List.map_tail, List.map_inj_left]
  exact ⟨fun h w hw => (h w hw).symm, fun h w hw => (h w hw).symm⟩

/-- For every sequence of dials, polls and wakings of the two loops. -/
theorem backoff_restarts_iff (k : Kind) {es : List (Event k.Io)}
    (hrun : exec (recorded (step k.maintain) (waited k.maintain)) (start uri, []) es = some (t, ws)) :
    Restarts ws ↔ ∀ w ∈ ws.tail, w.dialed.connected = w.dialed.res.isOk :=
  restarts_iff_agree hrun

/-- Where no dial finds its key claimed, that is so exactly when no session but the first is lost. -/
theorem restarts_unclaimed_iff (k : Kind) {es : List (Event k.Io)} (hfree : ∀ e ∈ es, Unclaimed k e)
    (hrun : exec (recorded (step k.maintain) (waited k.maintain)) (start uri, []) es = some (t, ws)) :
    Restarts ws ↔ ∀ w ∈ ws.tail, w.dialed.connected = true → w.dialed.res.isOk = true := by
  have hconn := connected_of_unclaimed k hfree hrun
  rw [restarts_iff_agree hrun]
  refine forall_congr' fun w => imp_congr_right fun hw => ?_
  have hw' := hconn w (List.mem_of_mem_tail hw)
  cases hc : w.dialed.connected <;> cases ho : w.dialed.res.isOk <;> simp_all

end

/-! ### A laptop that goes away -/

def laptopHello : Hello := ⟨"laptop", "laptop.lan", "linux", false, "0.1.0", maxClip⟩

/-- `serde_json` at the greeting of one peer. -/
abbrev laptopHelloJson : Json Hello where
  encode := fun h => (helloText h).toUTF8.toList
  decode := fun b => if b = (helloText laptopHello).toUTF8.toList then some laptopHello else none

/-- The relay is not dialled here. -/
abbrev noJoinAckJson : Json JoinAck := ⟨fun _ => [], fun _ => none⟩

abbrev noErrorMsgJson : Json ErrorMsg := ⟨fun _ => [], fun _ => none⟩

/-- The laptop does not answer. -/
def asleep : TcpIo :=
  ⟨.error "connection refused", true, .ok (), .error "", "", .ok (), ⟨.ok (), none⟩⟩

/-- The laptop answers, and its session ends with `res`. -/
def awake (res : Except String Unit) : TcpIo :=
  ⟨.ok (), true, .ok (), .ok (.helloAck, (helloText laptopHello).toUTF8.toList), "", .ok (), ⟨res, none⟩⟩

/-- The laptop cannot be reached twice, and then it can. -/
def wakesUp (res : Except String Unit) : List (Event TcpIo) :=
  [.check false false, .dial asleep false, .elapsed, .check false false, .dial asleep false, .elapsed,
    .check false false, .dial (awake res) false]

theorem cleanEnd_restarts :
    letI := laptopHelloJson
    ∃ t ws, exec (recorded (step maintainTcp) (waited maintainTcp)) (start "10.0.0.7:43721", [])
        (wakesUp (.ok ())) = some (t, ws) ∧ ws.map Wait.seconds = [1, 2, 1] ∧ Restarts ws := by
  let _ := laptopHelloJson
  let _ := noJoinAckJson
  let _ := noErrorMsgJson
  have hwaits : (exec (recorded (step maintainTcp) (waited maintainTcp)) (start "10.0.0.7:43721", [])
      (wakesUp (.ok ()))).map (fun x => (x.2.map Wait.seconds,
        x.2.all fun w => w.dialed.connected = w.dialed.res.isOk)) = some ([1, 2, 1], true) := by decide +kernel
  obtain ⟨⟨t, ws⟩, hrun, hx⟩ := Option.map_eq_some_iff.mp hwaits
  obtain ⟨hseconds, hagree⟩ := Prod.mk.inj hx
  refine ⟨t, ws, hrun, hseconds, (backoff_restarts_iff .tcp hrun).mpr fun w hw => ?_⟩
  simpa using List.all_eq_true.mp hagree w (List.mem_of_mem_tail hw)

/-- The third wait is the first one after a session that was connected, and takes 4 seconds. -/
theorem lostSession_waits :
    letI := laptopHelloJson
    ∃ t ws, exec (recorded (step maintainTcp) (waited maintainTcp)) (start "10.0.0.7:43721", [])
        (wakesUp (.error "early eof")) = some (t, ws) ∧ ¬ Restarts ws := by
  let _ := laptopHelloJson
  have hwaits : (exec (recorded (step maintainTcp) (waited maintainTcp)) (start "10.0.0.7:43721", [])
      (wakesUp (.error "early eof"))).map (fun x => (x.2.map Wait.seconds, connections x.2)) =
        some ([1, 2, 4], [false, false, true]) := by decide +kernel
  obtain ⟨⟨t, ws⟩, hrun, hx⟩ := Option.map_eq_some_iff.mp hwaits
  obtain ⟨hseconds, hconn⟩ := Prod.mk.inj hx
  refine ⟨t, ws, hrun, fun h => ?_⟩
  rw [Restarts, hseconds, hconn] at h
  exact absurd h (by decide)

end Zsync.Maintain
