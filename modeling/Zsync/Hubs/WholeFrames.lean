import Zsync.Hubs.LastCopy
import Zsync.Model.SessionBytes
import Zsync.Wire.ClipCodec

/-! # The last copy arrives, where frames are read whole

As long as no other branch of a loop wins while its reader has taken a part of a frame, the bytes of a
session carry the clips that were written, and what `Hubs.LastCopy` says of clips holds of bytes.

* `Carries` : the frames on their way, and the clips in them.
* `Carried.flows` : a step on bytes keeps what is known of the clips.
* `last_copy_arrives` : the consequence over whole runs.
* `halved_copy_lost` : a ping that ticks in the middle of the last clip, and a session that stays up.
-/

namespace Zsync
set_option autoImplicit false
set_option maxHeartbeats 250000
open Protocol Foundations

namespace Fanout
variable {σ : Type} [Json ClipMeta]

/-! ## The frames of a pipe -/

/-- Frames with these clips are on their way. -/
def Carries (p : Pipe) (clips : List Clip) : Prop :=
  ∃ fs : List (Frame lanCodec), LoopState.Coming fs p.stream p.reading ∧
    (fs.filterMap fun f => clipOf f.content) = clips

/-- A loop has written frames with these clips. -/
def Wrote (l : SessionLoop) (clips : List Clip) : Prop :=
  ∃ fs : List (Frame lanCodec), l.written.flatten = fs.flatMap Frame.symbols ∧
    (fs.filterMap fun f => clipOf f.content) = clips

theorem Carries.write {p : Pipe} {clips new : List Clip} {l : SessionLoop} (h : Carries p clips)
    (hw : Wrote l new) : Carries { p with
      stream := p.stream ++ l.written.flatten
      ended := l.ended.isSome } (clips ++ new) := by
  obtain ⟨fs, hcoming, rfl⟩ := h
  obtain ⟨gs, hbytes, rfl⟩ := hw
  refine ⟨fs ++ gs, ?_, List.filterMap_append⟩
  rw [hbytes]
  exact hcoming.append gs

theorem wrote_nil {l : SessionLoop} (h : l.written = []) : Wrote l [] :=
  ⟨[], by rw [h]; rfl, rfl⟩

/-- A frame that a loop has written and that did not end it. -/
theorem wrote_frame {b : String} {io : LoopIo} (typ : FrameType) (payload : Bytes)
    (h : ((looping b).write io (encodeFrame typ payload)).1.ended = none) :
    Wrote ((looping b).write io (encodeFrame typ payload)).1 (clipOf (typ, payload)).toList := by
  cases he : encodeFrame typ payload with
  | error e =>
    rw [he] at h
    cases h
  | ok bytes =>
    obtain ⟨f, hf, rfl⟩ := encodeFrame_frame he
    rw [he, SessionLoop.write] at h
    rw [SessionLoop.write]
    split_ifs at h ⊢ with hio
    · refine ⟨[f], by simp [looping, SessionLoop.new], ?_⟩
      rw [List.filterMap_cons, hf]
      cases clipOf (typ, payload) <;> rfl
    · cases h

/-! ## The branches of a loop -/

/-- The ping branch. -/
theorem wrote_ping {b : String} {io : LoopIo} (h : ((looping b).ping io).ended = none) :
    Wrote ((looping b).ping io) [] :=
  wrote_frame .ping [] h

/-- The clip that `framed_loop` writes is the one that its peer decodes. -/
theorem clipOf_encoded {clip : Clip} {bytes : Bytes} (hv : clip.clipMeta.size = clip.data.length)
    (hj : JsonRoundTrip (sized clip)) (h : encodeClip clip = .ok bytes) :
    ∃ body, encodeFrame .clip body = .ok bytes ∧ clipOf (.clip, body) = some clip := by
  by_cases he : Encodable clip
  · rw [encodeClip, encodeClipBody_ok he] at h
    refine ⟨clipBody clip, h, ?_⟩
    have hsized : sized clip = clip.clipMeta := by rw [sized, ← hv]
    rw [clipOf, decodeClip_clipBody he hj, hsized]
    rfl
  · obtain ⟨e, hbody⟩ := encodeClipBody_error he
    rw [encodeClip, hbody] at h
    cases h

/-- The branch of the broadcast channel. -/
theorem wrote_branch [Aead] {b : String} {io : LoopIo} {msg : Received Outbound}
    (hmsg : ∀ out, msg = .message out → out.clip.clipMeta.size = out.clip.data.length ∧
      JsonRoundTrip (sized out.clip))
    (h : (branch b io msg).ended = none) : Wrote (branch b io msg) (writes b msg) := by
  cases msg with
  | lagged missed => exact wrote_nil rfl
  | message out =>
    obtain ⟨hv, hj⟩ := hmsg out rfl
    have hloop : branch b io (.message out) =
        if out.skip = some b then looping b else ((looping b).write io (encodeClip out.clip)).1 := by
      change (if out.skip.isSome && out.skip = some b then (looping b, false)
        else (looping b).write io (encodeClip out.clip)).1 = _
      by_cases hskip : out.skip = some b
      · simp [hskip]
      · simp [hskip]
    rw [hloop] at h ⊢
    rw [writes]
    by_cases hskip : out.skip = some b
    · rw [if_pos hskip, if_pos hskip]
      exact wrote_nil rfl
    · rw [if_neg hskip] at h ⊢
      rw [if_neg hskip]
      cases he : encodeClip out.clip with
      | error e =>
        rw [he] at h
        cases h
      | ok bytes =>
        obtain ⟨body, hbody, hclip⟩ := clipOf_encoded hv hj he
        rw [he, ← hbody] at h
        have hwrote := wrote_frame .clip body h
        rw [hclip, hbody] at hwrote
        exact hwrote

section Reads
variable [Sha256] [Json ClipAck] [Json Hello] {B : String → Backend σ}

omit [Json Hello] in
/-- A decoded clip is applied, and answered with an acknowledgement. -/
theorem onClip_effect (B : Backend σ) (a : String) {payload : Bytes} {clip : Clip} (io : LoopIo)
    (hub : Hub σ) (hd : decodeClip payload = .ok clip) :
    (onClip B (some a) payload io (looping a) hub).hub = (hub.applyFrom B io.now clip a).hub ∧
      (onClip B (some a) payload io (looping a) hub).out.map Message.out =
        (hub.applyFrom B io.now clip a).out ∧
      ((onClip B (some a) payload io (looping a) hub).loop.ended = none →
        Wrote (onClip B (some a) payload io (looping a) hub).loop []) := by
  have happly : hub.applyOver B io.now clip (some a) = hub.applyFrom B io.now clip a := rfl
  rw [onClip, hd]
  dsimp only
  rw [happly]
  generalize hub.applyFrom B io.now clip a = ret
  obtain ⟨res, after, out⟩ := ret
  have hout : (out.map fun out => (⟨out, .lan (some a)⟩ : Message)).map Message.out = out := by
    rw [List.map_map]
    exact List.map_id _
  cases res with
  | error e => exact ⟨rfl, hout, fun h => by cases h⟩
  | ok ack =>
    dsimp only
    generalize hw : (looping a).write io (encodeFrame .clipAck (Json.encode ack)) = w
    have hwrote : w.1.ended = none → Wrote w.1 [] := by
      rw [← hw]
      exact fun h => wrote_frame .clipAck _ h
    obtain ⟨l, ok⟩ := w
    cases ok with
    | false => exact ⟨rfl, hout, hwrote⟩
    | true =>
      refine ⟨rfl, hout, ?_⟩
      dsimp only
      split_ifs
      · exact hwrote
      · exact hwrote

/-- What a loop does after a frame: a clip is applied, everything else leaves the hub alone, and no clip is
written. -/
theorem onLanFrame_effect (B : Backend σ) (a : String) (content : FrameType × Bytes) (io : LoopIo)
    (hub : Hub σ) (h : (onLanFrame B (some a) (.ok content) io (looping a) hub).loop.ended = none) :
    Wrote (onLanFrame B (some a) (.ok content) io (looping a) hub).loop [] ∧
      match clipOf content with
      | some clip =>
        (onLanFrame B (some a) (.ok content) io (looping a) hub).hub = (hub.applyFrom B io.now clip a).hub ∧
        (onLanFrame B (some a) (.ok content) io (looping a) hub).out.map Message.out =
          (hub.applyFrom B io.now clip a).out
      | none =>
        (onLanFrame B (some a) (.ok content) io (looping a) hub).hub = hub ∧
        (onLanFrame B (some a) (.ok content) io (looping a) hub).out = [] := by
  obtain ⟨typ, payload⟩ := content
  cases typ with
  | clip =>
    have hon : onLanFrame B (some a) (.ok (.clip, payload)) io (looping a) hub =
      onClip B (some a) payload io (looping a) hub := rfl
    rw [hon] at h ⊢
    rw [clipOf]
    cases hd : decodeClip payload with
    | error e =>
      rw [onClip, hd] at h ⊢
      exact ⟨wrote_frame .clipAck _ h, rfl, rfl⟩
    | ok clip =>
      obtain ⟨hhub, hout, hwrote⟩ := onClip_effect B a io hub hd
      exact ⟨hwrote h, hhub, hout⟩
  | ping => exact ⟨wrote_frame .pong _ h, rfl, rfl⟩
  | hello => exact ⟨wrote_frame .helloAck _ h, rfl, rfl⟩
  | pong => exact ⟨wrote_nil rfl, rfl, rfl⟩
  | clipAck => exact ⟨wrote_nil rfl, rfl, rfl⟩
  | helloAck => exact ⟨wrote_nil rfl, rfl, rfl⟩
  | bye => cases h
  | error => cases h

end Reads

/-! ## One step -/

/-- `w` is what the bytes carry. -/
def Carried (n : Fanout σ Pipe) (w : String → String → List Clip) : Prop :=
  ∀ a b, Carries (n.wire a b) (w a b)

omit [Json ClipMeta] in
theorem wires_self (w : String → String → List Clip) (a b : String) :
    (fun x y => if x = a ∧ y = b then w a b else w x y) = w := by
  funext x y
  split_ifs with hxy
  · rw [hxy.1, hxy.2]
  · rfl

theorem Carried.congr {n m : Fanout σ Pipe} {w : String → String → List Clip} (h : Carried n w)
    (hm : m.wire = n.wire) : Carried m w := fun a b => hm ▸ h a b

theorem Carried.setWire {n : Fanout σ Pipe} {w : String → String → List Clip} (h : Carried n w)
    (a b : String) {p : Pipe} {clips : List Clip} (hp : Carries p clips) :
    Carried (n.setWire a b p) (fun x y => if x = a ∧ y = b then clips else w x y) := by
  intro x y
  rw [Fanout.setWire]
  dsimp only
  split_ifs
  · exact hp
  · exact h x y

theorem Carried.ran {n : Fanout σ Pipe} {w : String → String → List Clip} (h : Carried n w)
    (a b : String) {l : SessionLoop} {new : List Clip} (hl : Wrote l new) :
    Carried (n.ran a b l) (fun x y => if x = a ∧ y = b then w a b ++ new else w x y) :=
  h.setWire a b ((h a b).write hl)

/-- A loop that writes no clip. -/
theorem Carried.ran_nil {n : Fanout σ Pipe} {w : String → String → List Clip} (h : Carried n w)
    (a b : String) {l : SessionLoop} (hl : Wrote l []) : Carried (n.ran a b l) w := by
  have hran := h.ran a b hl
  rw [List.append_nil, wires_self] at hran
  exact hran

omit [Json ClipMeta] in
theorem ran_ended (a b : String) (l : SessionLoop) (n : Fanout σ Pipe)
    (h : ((n.ran a b l).wire a b).ended = false) : l.ended = none := by
  rw [Fanout.ran, Fanout.setWire] at h
  dsimp only at h
  rw [if_pos ⟨rfl, rfl⟩] at h
  exact Option.not_isSome_iff_eq_none.mp (Bool.eq_false_iff.mp h)

omit [Json ClipMeta] in
theorem drops_of_fresh {n : Fanout σ Pipe} {a b : String} (h : (n.wire b a).reading = .fresh) :
    n.drops a b = n := by
  have hwire : ∀ x y, (n.drops a b).wire x y = n.wire x y := by
    intro x y
    rw [drops, Fanout.setWire]
    dsimp only
    split_ifs with hxy
    · rw [hxy.1, hxy.2, ← h]
    · rfl
  calc n.drops a b = { n with wire := (n.drops a b).wire } := rfl
    _ = n := by rw [funext fun x => funext (hwire x)]

/-! ## What stays -/

/-- A session that has ended stays so, and what was pushed stays. -/
structure Later (n t : Fanout σ Pipe) : Prop where
  up : ∀ a b, (t.wire a b).ended = false → (n.wire a b).ended = false
  pushed : n.pushed ⊆ t.pushed

section Later
omit [Json ClipMeta]
variable {n t : Fanout σ Pipe}

theorem Later.of_same (hwire : t.wire = n.wire) (hpushed : t.pushed = n.pushed) : Later n t :=
  ⟨fun _ _ h => hwire ▸ h, fun _ h => hpushed ▸ h⟩

theorem Later.trans {u : Fanout σ Pipe} (h : Later n u) (h' : Later u t) : Later n t :=
  ⟨fun a b hab => h.up a b (h'.up a b hab), fun _ hc => h'.pushed (h.pushed hc)⟩

theorem setWire_ended (a b : String) {p : Pipe} (hp : p.ended = (n.wire a b).ended) (x y : String) :
    ((n.setWire a b p).wire x y).ended = (n.wire x y).ended := by
  rw [Fanout.setWire]
  dsimp only
  split_ifs with hxy
  · rw [hp, hxy.1, hxy.2]
  · rfl

theorem later_setWire (a b : String) {p : Pipe} (hp : p.ended = (n.wire a b).ended) :
    Later n (n.setWire a b p) :=
  ⟨fun x y h => (setWire_ended a b hp x y).symm.trans h, fun _ h => h⟩

theorem drops_ended (a b x y : String) : ((n.drops a b).wire x y).ended = (n.wire x y).ended :=
  setWire_ended (n := n) b a (p := { n.wire b a with reading := .fresh }) rfl x y

theorem later_drops (a b : String) : Later n (n.drops a b) :=
  later_setWire b a (p := { n.wire b a with reading := .fresh }) rfl

/-- A loop that runs has not ended before. -/
theorem later_ran {a b : String} (l : SessionLoop) (h : (n.wire a b).ended = false) :
    Later n (n.ran a b l) := by
  refine ⟨fun x y hxy => ?_, fun _ hc => hc⟩
  rw [Fanout.ran, Fanout.setWire] at hxy
  dsimp only at hxy
  split_ifs at hxy with hab
  · rw [hab.1, hab.2, h]
  · exact hxy

/-- Another branch than the reader's. -/
theorem later_branch {a b : String} (l : SessionLoop) (h : (n.wire a b).ended = false) :
    Later n ((n.drops a b).ran a b l) :=
  (later_drops a b).trans (later_ran l ((drops_ended a b a b).trans h))

end Later

section Step
variable [Sha256] [Json ClipAck] [Json Hello] [Aead] {G : SimpleGraph String} [DecidableRel G.Adj]
variable {B : String → Backend σ} {S : Set Bytes} {o : String} {s₀ : ℕ} {n t : Fanout σ Pipe}
variable {w : String → String → List Clip}

/-- The loop of `a` for `b` receives. -/
theorem Carried.recv (hG : G.IsAcyclic) (hB : ∀ h, Exact (B h)) (hS : Set.InjOn Protocol.hash S)
    (hc : Carried n w) (h : Flows B S o s₀ G (n.rewire w)) {a b : String} {io : LoopIo}
    (hfresh : (n.wire b a).reading = .fresh) (hup : StaysUp G t)
    (hj : ∀ c ∈ n.pushed, JsonRoundTrip (sized c)) (hs : stepBytes B G n (.recv a b io) = some t) :
    ∃ w', Carried t w' ∧ Flows B S o s₀ G (t.rewire w') := by
  simp only [stepBytes] at hs
  split_ifs at hs with hready
  obtain ⟨⟨msg, rest⟩, hrecv, rfl⟩ := Option.map_eq_some_iff.mp hs
  have hdrop : ({ n with tx := Function.update n.tx a rest } : Fanout σ Pipe).drops a b =
      { n with tx := Function.update n.tx a rest } := drops_of_fresh hfresh
  rw [hdrop] at hup ⊢
  have hended : (branch b io msg).ended = none := ran_ended a b _ _ (hup a b hready.1)
  have hwrote : Wrote (branch b io msg) (writes b msg) := by
    refine wrote_branch (fun out hmsg => ?_) hended
    have hlog : out ∈ (n.tx a).log := by
      obtain ⟨_, _, ⟨out', hout, hnext⟩ | ⟨lost, hlost, _⟩⟩ := Channel.recv_cases hrecv
      · obtain rfl : out' = out := Received.message.inj (hout.symm.trans hmsg)
        exact Channel.mem_log_of_pending (hnext ▸ List.mem_cons_self)
      · cases hlost.symm.trans hmsg
    have hpushed : out.clip ∈ (n.rewire w).pushed :=
      h.emitted_pushed (x := a) (List.mem_map_of_mem hlog)
    exact ⟨(h.source.clips _ hpushed).1.size_eq, hj _ hpushed⟩
  refine ⟨_, (hc.congr (m := { n with tx := Function.update n.tx a rest }) rfl).ran a b hwrote, ?_⟩
  have hstep : Fanout.step G B (n.rewire w) (.recv a b) =
      some (({ n with tx := Function.update n.tx a rest }.ran a b (branch b io msg)).rewire
        fun x y => if x = a ∧ y = b then w a b ++ writes b msg else w x y) := by
    have hrecv' : ((n.rewire w).tx a).recv broadcastCap b = some (msg, rest) := hrecv
    rw [Fanout.step, if_pos hready.1, hrecv']
    rfl
  exact h.step hG hB hS (e := .recv a b) trivial hstep

omit [Aead] in
/-- A frame has been read. -/
theorem Carried.reads (hG : G.IsAcyclic) (hB : ∀ h, Exact (B h)) (hS : Set.InjOn Protocol.hash S)
    {n' : Fanout σ Pipe} {a b : String} {f : Frame lanCodec} {fs : List (Frame lanCodec)} {io : LoopIo}
    (hn : n.rewire w = n'.rewire w)
    (hw : w a b = (f :: fs).filterMap fun f => clipOf f.content)
    (hc : Carried n' fun x y => if x = a ∧ y = b then fs.filterMap fun f => clipOf f.content else w x y)
    (h : Flows B S o s₀ G (n.rewire w))
    (hup : ((n'.reads B a b (.ok f.content) io).wire b a).ended = false) :
    ∃ w', Carried (n'.reads B a b (.ok f.content) io) w' ∧
      Flows B S o s₀ G ((n'.reads B a b (.ok f.content) io).rewire w') := by
  rw [hn] at h
  have hended := ran_ended b a _ _ hup
  obtain ⟨hwrote, heffect⟩ := onLanFrame_effect (B b) a f.content { io with now := n'.clock } (n'.hub b)
    hended
  rw [List.filterMap_cons] at hw
  cases hclip : clipOf f.content with
  | none =>
    rw [hclip] at heffect hw
    dsimp only at heffect hw
    rw [← hw, wires_self] at hc
    have hreads : n'.reads B a b (.ok f.content) io = n'.ran b a
        (onLanFrame (B b) (some a) (.ok f.content) { io with now := n'.clock } (looping a) (n'.hub b)).loop := by
      rw [Fanout.reads]
      dsimp only [Except.toOption, Option.bind_some]
      rw [hclip, heffect.1, heffect.2, List.map_nil, emit_nil]
    rw [hreads]
    exact ⟨w, hc.ran_nil b a hwrote, h⟩
  | some clip =>
    rw [hclip] at heffect hw
    dsimp only at heffect hw
    generalize hrest : fs.filterMap (fun f => clipOf f.content) = rest at hc hw
    have hreads : n'.reads B a b (.ok f.content) io =
        ((n'.accept b clip).emit b ((n'.hub b).applyFrom (B b) n'.clock clip a).hub
          ((n'.hub b).applyFrom (B b) n'.clock clip a).out).ran b a
        (onLanFrame (B b) (some a) (.ok f.content) { io with now := n'.clock } (looping a) (n'.hub b)).loop := by
      rw [Fanout.reads]
      dsimp only [Except.toOption, Option.bind_some]
      rw [hclip, heffect.1, heffect.2]
    rw [hreads]
    refine ⟨_, (hc.congr rfl).ran_nil b a hwrote, ?_⟩
    have hstep : Fanout.step G B (n'.rewire w) (.deliver a b) =
        some ((((n'.accept b clip).emit b ((n'.hub b).applyFrom (B b) n'.clock clip a).hub
          ((n'.hub b).applyFrom (B b) n'.clock clip a).out).ran b a
          (onLanFrame (B b) (some a) (.ok f.content) { io with now := n'.clock } (looping a)
            (n'.hub b)).loop).rewire fun x y => if x = a ∧ y = b then rest else w x y) := by
      have hwire : (n'.rewire w).wire a b = clip :: rest := hw
      simp only [Fanout.step, hwire]
      rfl
    exact h.step hG hB hS (e := .deliver a b) trivial hstep

/-- The loop of `b` for `a` reads. -/
theorem Carried.take (hG : G.IsAcyclic) (hB : ∀ h, Exact (B h)) (hS : Set.InjOn Protocol.hash S)
    (hc : Carried n w) (h : Flows B S o s₀ G (n.rewire w)) {a b : String} {k : ℕ} {io : LoopIo}
    (hup : StaysUp G t) (hs : stepBytes B G n (.take a b k io) = some t) :
    ∃ w', Carried t w' ∧ Flows B S o s₀ G (t.rewire w') := by
  simp only [stepBytes] at hs
  split_ifs at hs with hready
  obtain ⟨fs, hcoming, hclips⟩ := hc a b
  have hfeeds := hcoming.feeds k
  generalize (n.wire a b).reading.feeds lanCodec ((n.wire a b).stream.take k) = fed at hs hfeeds
  obtain ⟨fed, rest⟩ := fed
  obtain ⟨r, rfl, hcoming'⟩ | ⟨f, fs', rfl, rfl, hcoming'⟩ := hfeeds
  · obtain rfl := Option.some.inj hs
    have hset := hc.setWire a b (p := ⟨rest ++ (n.wire a b).stream.drop k, r, (n.wire a b).ended⟩)
      ⟨fs, hcoming', hclips⟩
    rw [wires_self] at hset
    exact ⟨w, hset, h⟩
  · obtain rfl := Option.some.inj hs
    have hset := hc.setWire a b (p := ⟨rest ++ (n.wire a b).stream.drop k, .fresh, (n.wire a b).ended⟩)
      ⟨fs', hcoming', rfl⟩
    exact Carried.reads hG hB hS rfl hclips.symm hset h (hup b a hready.1.1)

/-- Only `o` pushes. -/
def PlaysBytes (S : Set Bytes) (o : String) (n : Fanout σ Pipe) : PipeEvent → Prop
  | .push h _ item => Pushes S o n h item
  | _ => True

/-- A step that drops no part of a frame keeps what is known of the clips, while the sessions stay up. -/
theorem Carried.flows (hG : G.IsAcyclic) (hB : ∀ h, Exact (B h)) (hS : Set.InjOn Protocol.hash S)
    (hc : Carried n w) (h : Flows B S o s₀ G (n.rewire w)) {e : PipeEvent} (hp : PlaysBytes S o n e)
    (hu : Unhalved n e) (hup : StaysUp G t)
    (hj : ∀ c ∈ n.pushed, JsonRoundTrip (sized c)) (hs : stepBytes B G n e = some t) :
    ∃ w', Carried t w' ∧ Flows B S o s₀ G (t.rewire w') := by
  cases e with
  | push x saves item =>
    obtain rfl := Option.some.inj hs
    refine ⟨w, hc.congr (returned_wire _ _), ?_⟩
    rw [rewire_returned]
    exact h.step hG hB hS (e := .push x saves item) hp rfl
  | poll x saves =>
    have hrewire : (stepBytes B G n (.poll x saves)).map (fun t => t.rewire w) =
        Fanout.step G B (n.rewire w) (.poll x saves) := by
      have hget : (B x).get ((n.rewire w).hub x).clipboard = (B x).get (n.hub x).clipboard := rfl
      simp only [stepBytes, Fanout.step, hget]
      generalize (B x).get (n.hub x).clipboard = got
      cases got with
      | error e => rfl
      | ok got => cases got <;> rfl
    have hwire : t.wire = n.wire := by
      simp only [stepBytes] at hs
      split at hs <;> (obtain rfl := Option.some.inj hs; rfl)
    rw [hs] at hrewire
    exact ⟨w, hc.congr hwire, h.step hG hB hS (e := .poll x saves) trivial hrewire.symm⟩
  | recv a b io => exact hc.recv hG hB hS h hu hup hj hs
  | ping a b io =>
    simp only [stepBytes] at hs
    split_ifs at hs with hready
    obtain rfl := Option.some.inj hs
    rw [drops_of_fresh hu] at hup ⊢
    exact ⟨w, hc.ran_nil a b (wrote_ping (ran_ended a b _ _ (hup a b hready.1))), h⟩
  | stay a b =>
    simp only [stepBytes] at hs
    split_ifs at hs
    obtain rfl := Option.some.inj hs
    rw [drops_of_fresh hu]
    exact ⟨w, hc, h⟩
  | take a b k io => exact hc.take hG hB hS h hup hs
  | tick d =>
    obtain rfl := Option.some.inj hs
    exact ⟨w, hc, h.step hG hB hS (e := .tick d) trivial rfl⟩

/-! ## Whole runs -/

omit [Aead] in
theorem later_reads {a b : String} (frame : Except ProtoError (FrameType × Bytes)) (io : LoopIo)
    (h : (n.wire b a).ended = false) : Later n (n.reads B a b frame io) := by
  have hran : ∀ (m : Fanout σ Pipe) (l : SessionLoop), m.wire = n.wire → m.pushed = n.pushed →
      Later n (m.ran b a l) := by
    intro m l hwire hpushed
    exact (Later.of_same hwire hpushed).trans (later_ran l (hwire ▸ h))
  unfold Fanout.reads
  cases frame.toOption.bind clipOf with
  | none => exact hran _ _ rfl rfl
  | some clip => exact hran _ _ rfl rfl

/-- A step. -/
theorem stepBytes_later {e : PipeEvent} (hs : stepBytes B G n e = some t) : Later n t := by
  cases e with
  | push x saves item =>
    obtain rfl := Option.some.inj hs
    generalize (n.hub x).localPush (B x) n.clock saves item = ret
    refine ⟨fun a b h => ?_, fun c hc => ?_⟩
    · rw [returned_wire] at h
      exact h
    · unfold returned
      split
      · exact List.mem_append_left _ hc
      · exact hc
      · exact hc
  | poll x saves =>
    simp only [stepBytes] at hs
    split at hs
    · obtain rfl := Option.some.inj hs
      exact Later.of_same rfl rfl
    · obtain rfl := Option.some.inj hs
      exact Later.of_same rfl rfl
  | recv a b io =>
    simp only [stepBytes] at hs
    split_ifs at hs with hready
    obtain ⟨⟨msg, rest⟩, -, rfl⟩ := Option.map_eq_some_iff.mp hs
    have hsent : Later n { n with tx := Function.update n.tx a rest } := Later.of_same rfl rfl
    exact hsent.trans (later_branch _ hready.2)
  | ping a b io =>
    simp only [stepBytes] at hs
    split_ifs at hs with hready
    obtain rfl := Option.some.inj hs
    exact later_branch _ hready.2
  | stay a b =>
    simp only [stepBytes] at hs
    split_ifs at hs
    obtain rfl := Option.some.inj hs
    exact later_drops a b
  | take a b k io =>
    simp only [stepBytes] at hs
    split_ifs at hs with hready
    generalize (n.wire a b).reading.feeds lanCodec ((n.wire a b).stream.take k) = fed at hs
    obtain ⟨fed, rest⟩ := fed
    have hset : ∀ r, Later n (n.setWire a b
        ⟨rest ++ (n.wire a b).stream.drop k, r, (n.wire a b).ended⟩) := fun r => later_setWire a b rfl
    have hended : ∀ r, ((n.setWire a b
        ⟨rest ++ (n.wire a b).stream.drop k, r, (n.wire a b).ended⟩).wire b a).ended = false := by
      intro r
      have hsame := setWire_ended (n := n) a b
        (p := ⟨rest ++ (n.wire a b).stream.drop k, r, (n.wire a b).ended⟩) rfl b a
      exact hsame.trans hready.1.2
    cases fed with
    | more r =>
      obtain rfl := Option.some.inj hs
      exact hset r
    | frame typ payload =>
      obtain rfl := Option.some.inj hs
      exact (hset .fresh).trans (later_reads _ io (hended .fresh))
    | failed e =>
      obtain rfl := Option.some.inj hs
      exact (hset .fresh).trans (later_reads _ io (hended .fresh))
  | tick d =>
    obtain rfl := Option.some.inj hs
    exact Later.of_same rfl rfl

theorem later_run {es : List PipeEvent} (hr : exec (stepBytes B G) n es = some t) : Later n t :=
  exec_invariant (fun _ _ _ h hs => h.trans (stepBytes_later hs)) (Later.of_same rfl rfl) hr

theorem Carried.flows_run (hG : G.IsAcyclic) (hB : ∀ h, Exact (B h)) (hS : Set.InjOn Protocol.hash S)
    (hc : Carried n w) (h : Flows B S o s₀ G (n.rewire w)) {es : List PipeEvent}
    (hg : Guarded (stepBytes B G) (fun n e => PlaysBytes S o n e ∧ Unhalved n e) n es)
    (hr : exec (stepBytes B G) n es = some t) (hup : StaysUp G t)
    (hj : ∀ c ∈ t.pushed, JsonRoundTrip (sized c)) :
    ∃ w', Carried t w' ∧ Flows B S o s₀ G (t.rewire w') := by
  induction es generalizing n w with
  | nil =>
    obtain rfl := Option.some.inj hr
    exact ⟨w, hc, h⟩
  | cons e es ih =>
    obtain ⟨u, hu, hr⟩ := exec_cons_eq_some _ hr
    have hlater := later_run hr
    have hfirst := stepBytes_later hu
    obtain ⟨w', hc', h'⟩ := hc.flows hG hB hS h hg.1.1 hg.1.2 (fun x y hxy => hlater.up x y (hup x y hxy))
      (fun c hmem => hj c (hlater.pushed (hfirst.pushed hmem))) hu
    exact ih hc' h' (hg.2 u hu) hr

/-- When no loop has anything to do, no clip is on its way. -/
theorem Carried.quiet (hc : Carried n w) (hup : StaysUp G n)
    (hq : Quiescent B G n) : Quiet G (n.rewire w) := by
  intro a b hadj
  obtain ⟨hrecv, htake⟩ := hq a b 1 ⟨0, "", Vector.replicate 24 0, ⟨"", "", false, ""⟩, true⟩
  simp only [stepBytes] at hrecv htake
  rw [if_pos ⟨hadj, hup a b hadj⟩, Option.map_eq_none_iff] at hrecv
  have hstream : (n.wire a b).stream = [] := by
    by_contra hne
    rw [if_pos ⟨⟨hadj.symm, hup b a hadj.symm⟩, hne⟩] at htake
    split at htake <;> cases htake
  obtain ⟨fs, hcoming, hclips⟩ := hc a b
  rw [hstream] at hcoming
  rw [hcoming.nil] at hclips
  exact ⟨hclips.symm, Channel.recv_eq_none.mp hrecv⟩

/-- In a forest of sessions that stay up, in which one hub pushes and no reader is dropped in the middle
of a frame, every hub accepts a subsequence of what was pushed, in the order of its numbers. Once no
session loop has anything left to do, the last copy is on every clipboard that is connected to that
hub. -/
theorem last_copy_arrives (hG : G.IsAcyclic) (hB : ∀ h, Exact (B h)) (hS : Set.InjOn Protocol.hash S)
    (hn : Opens B S o Pipe.idle n) {es : List PipeEvent}
    (hg : Guarded (stepBytes B G) (fun n e => PlaysBytes S o n e ∧ Unhalved n e) n es)
    (hr : exec (stepBytes B G) n es = some t) (hup : StaysUp G t)
    (hj : ∀ c ∈ t.pushed, JsonRoundTrip (sized c)) :
    (∀ x, (t.accepted x).Sublist t.pushed ∧
      (t.accepted x).Pairwise fun c d => c.clipMeta.seq < d.clipMeta.seq) ∧
    (Quiescent B G t → ∀ c, t.latest = some c → t.pushed.getLast? = some c ∧
      ∀ x, G.Reachable o x → (t.hub x).Holds (B x) c.data) := by
  have hidle : Carried n fun _ _ => [] := by
    intro a b
    rw [hn.wire]
    exact ⟨[], .none, rfl⟩
  have hopens : Opens B S o [] (n.rewire fun _ _ => ([] : List Clip)) :=
    ⟨hn.calm, hn.seen, hn.tx, fun _ _ => rfl, hn.pushed, hn.latest, hn.accepted⟩
  obtain ⟨w, hc, hflows⟩ := hidle.flows_run hG hB hS hopens.flows hg hr hup hj
  obtain ⟨hsub, hlast⟩ := hflows.copies_arrive
  exact ⟨hsub, fun hq => hlast (hc.quiet hup hq)⟩

/-- A run whose first event alone is a push. -/
theorem plays_of_first {e : PipeEvent} {es : List PipeEvent} (he : PlaysBytes S o n e)
    (hes : ∀ e ∈ es, e.pushes = false) : Guarded (stepBytes B G) (PlaysBytes S o) n (e :: es) := by
  refine ⟨he, fun u _ => (guarded_of_forall _ hes u).imp fun n e hnot => ?_⟩
  cases e with
  | push => cases hnot
  | _ => exact trivial

/-- It is enough to look at the edges. -/
theorem quiescent_of_edges
    (h : ∀ a b, G.Adj a b → (n.tx a).pending b = [] ∧ (n.wire a b).stream = []) : Quiescent B G n := by
  intro a b k io
  refine ⟨?_, ?_⟩
  · rw [stepBytes]
    split_ifs with hready
    · exact Option.map_eq_none_iff.mpr (Channel.recv_eq_none.mpr (h a b hready.1).1)
    · rfl
  · rw [stepBytes]
    dsimp only
    rw [if_neg fun hready => hready.2 (h a b hready.1.1.symm).2]

end Step

end Fanout

/-! ### Copies on their way over two sessions -/

/-- The desktop is joined to the laptop and to the phone. -/
def chain : SimpleGraph String where
  Adj := fun a b => a = "desktop" ∧ b ∈ ["laptop", "phone"] ∨ b = "desktop" ∧ a ∈ ["laptop", "phone"]
  symm := ⟨fun _ _ h => h.symm⟩
  loopless := ⟨fun a h => by
    obtain ⟨rfl, h⟩ | ⟨rfl, h⟩ := h
    · revert h
      decide
    · revert h
      decide⟩

instance : DecidableRel chain.Adj := fun _ _ => inferInstanceAs (Decidable (_ ∨ _))

theorem chain_eq : chain =
    (⊥ ⊔ SimpleGraph.edge "laptop" "desktop") ⊔ SimpleGraph.edge "desktop" "phone" := by
  ext a b
  simp only [chain, SimpleGraph.sup_adj, SimpleGraph.bot_adj, SimpleGraph.edge_adj, List.mem_cons,
    List.not_mem_nil, or_false, false_or]
  constructor
  · rintro (⟨rfl, rfl | rfl⟩ | ⟨rfl, rfl | rfl⟩) <;> simp
  · rintro (⟨⟨rfl, rfl⟩ | ⟨rfl, rfl⟩, _⟩ | ⟨⟨rfl, rfl⟩ | ⟨rfl, rfl⟩, _⟩) <;> simp

theorem chain_isAcyclic : chain.IsAcyclic := by
  rw [chain_eq]
  apply SimpleGraph.IsAcyclic.sup_edge_of_not_reachable
  · rintro ⟨p⟩
    have hne : ¬ p.reverse.Nil := fun hn => absurd hn.eq (by decide)
    have hadj := p.reverse.adj_snd hne
    revert hadj
    simp [SimpleGraph.edge_adj]
  · apply SimpleGraph.IsAcyclic.sup_edge_of_not_reachable
    · simp
    · simp

/-- On the chain it is enough to look at the sessions of the desktop. -/
theorem chain_edges {P : String → String → Prop} (hfrom : ∀ a ∈ ["laptop", "phone"], P a "desktop")
    (hto : ∀ b ∈ ["laptop", "phone"], P "desktop" b) {a b : String} (hadj : chain.Adj a b) : P a b := by
  obtain ⟨rfl, hb⟩ | ⟨rfl, ha⟩ := hadj
  · exact hto b hb
  · exact hfrom a ha

def freshFanout : Fanout (Option Item) Pipe where
  hub := fun h => Hub.new h none ⟨⟨0, []⟩, ⟨0, []⟩⟩ 0
  tx := fun _ => Channel.new
  wire := fun _ _ => Pipe.idle
  clock := 0
  pushed := []
  latest := none
  accepted := fun _ => []

def boxIo : LoopIo := ⟨0, "1700000000", .replicate 24 5, ⟨"box", "linux", false, "0.1.0"⟩, true⟩

/-- `serde_json` at the meta of one clip. -/
abbrev metaJson (clip : Clip) : Json ClipMeta where
  encode := metaBytes
  decode := fun b => if b = metaBytes clip.clipMeta then some clip.clipMeta else none

def hiRun : List PipeEvent :=
  [.push "laptop" true ⟨"text/plain", [104, 105], "", "", ""⟩, .recv "laptop" "desktop" boxIo,
    .take "laptop" "desktop" 100 boxIo, .take "laptop" "desktop" 100 boxIo, .recv "desktop" "laptop" boxIo,
    .recv "desktop" "phone" boxIo, .take "desktop" "laptop" 200 boxIo, .take "desktop" "phone" 200 boxIo,
    .recv "phone" "desktop" boxIo, .take "phone" "desktop" 200 boxIo]

/-- Nothing is left to receive or to read from `a` to `b`, and the session is up. -/
def idleEdge (m : Fanout (Option Item) Pipe) (a b : String) : Bool :=
  ((m.tx a).pending b).isEmpty && (m.wire a b).stream.isEmpty && !(m.wire a b).ended

def idleChain (m : Fanout (Option Item) Pipe) : Bool :=
  (["laptop", "phone"].all fun a => idleEdge m a "desktop") && ["laptop", "phone"].all fun b => idleEdge m "desktop" b

theorem idle_on_chain {m : Fanout (Option Item) Pipe} (h : idleChain m = true) {a b : String}
    (hadj : chain.Adj a b) :
    ((m.tx a).pending b = [] ∧ (m.wire a b).stream = []) ∧ (m.wire a b).ended = false := by
  rw [idleChain, Bool.and_eq_true, List.all_eq_true, List.all_eq_true] at h
  have hedge := chain_edges (P := fun a b => idleEdge m a b = true) h.1 h.2 hadj
  rw [idleEdge, Bool.and_eq_true, Bool.and_eq_true, List.isEmpty_iff, List.isEmpty_iff,
    Bool.not_eq_true'] at hedge
  exact hedge

section Runs
variable [Sha256]

theorem freshFanout_opens (S : Set Bytes) (o : String) :
    Fanout.Opens (fun _ => memory) S o Pipe.idle freshFanout where
  calm := fun _ => ⟨rfl, fun _ h => (nomatch h), fun _ h => (nomatch h)⟩
  seen := fun _ _ h => nomatch h
  tx := fun _ => rfl
  wire := fun _ _ => rfl
  pushed := rfl
  latest := rfl
  accepted := fun _ => rfl

end Runs

theorem hi_arrives :
    letI := sampleSha256
    letI := metaJson hiClip
    letI := sampleAckJson
    letI := sampleHelloJson
    letI := sampleAead
    ∃ m, exec (Fanout.stepBytes (fun _ => memory) chain) freshFanout hiRun = some m ∧
      (m.hub "phone").Holds memory [104, 105] := by
  let _ := sampleSha256
  let _ := metaJson hiClip
  let _ := sampleAckJson
  let _ := sampleHelloJson
  let _ := sampleAead
  have hends : (exec (Fanout.stepBytes (fun _ => memory) chain) freshFanout hiRun).map
      (fun m => (idleChain m, m.pushed, m.latest)) = some (true, [hiClip], some hiClip) := by
    decide +kernel
  obtain ⟨m, hm, hends⟩ := Option.map_eq_some_iff.mp hends
  obtain ⟨hedges, hends⟩ := Prod.mk.inj hends
  obtain ⟨hpushed, hlatest⟩ := Prod.mk.inj hends
  have hwhole : Guarded (Fanout.stepBytes (fun _ => memory) chain) Fanout.Unhalved freshFanout hiRun := by
    decide +kernel
  have hplays : Guarded (Fanout.stepBytes (fun _ => memory) chain)
      (Fanout.PlaysBytes {[104, 105]} "laptop") freshFanout hiRun :=
    Fanout.plays_of_first ⟨rfl, .inl rfl, Set.mem_singleton _, by decide⟩ (by decide)
  have hidle : ∀ {a b}, chain.Adj a b → _ := idle_on_chain hedges
  have hreach : chain.Reachable "laptop" "phone" := by
    have h1 : chain.Adj "laptop" "desktop" := by decide
    have h2 : chain.Adj "desktop" "phone" := by decide
    exact h1.reachable.trans h2.reachable
  obtain ⟨_, harrive⟩ := Fanout.last_copy_arrives (S := {[104, 105]}) chain_isAcyclic
    (fun _ => memory_exact) (Set.injOn_singleton _ _) (freshFanout_opens _ _) (hplays.and _ hwhole) hm
    (fun a b hadj => (hidle hadj).2) (by
      rw [hpushed]
      exact List.forall_mem_singleton.mpr ⟨if_pos rfl, by decide +kernel⟩)
  have hquiet := Fanout.quiescent_of_edges (B := fun _ => memory) (G := chain) (n := m) fun a b hadj =>
    (hidle hadj).1
  exact ⟨m, hm, (harrive hquiet hiClip hlatest).2 "phone" hreach⟩

/-- A copy of twelve bytes that ends with the header of a `Pong`. -/
def pongClip : Clip :=
  ⟨⟨"laptop", 1, "application/octet-stream", "20370829593a6d6e10c9c17095d03a54ecc28f11cafe0cf8b8ca15bf031e27c7",
    12, ""⟩, [104, 105] ++ headerBytes magic version 4 0⟩

/-- SHA-256 of the copy. -/
abbrev pongSha256 : Sha256 where
  digest := fun data =>
    if data = pongClip.data then
      #v[0x20, 0x37, 0x08, 0x29, 0x59, 0x3a, 0x6d, 0x6e, 0x10, 0xc9, 0xc1, 0x70, 0x95, 0xd0, 0x3a,
        0x54, 0xec, 0xc2, 0x8f, 0x11, 0xca, 0xfe, 0x0c, 0xf8, 0xb8, 0xca, 0x15, 0xbf, 0x03, 0x1e,
        0x27, 0xc7]
    else sampleSha256.digest data

/-- The desktop pings when all but the last ten bytes of the clip are there. Both sessions go on. -/
def halvedRun : List PipeEvent :=
  [.push "laptop" true ⟨"application/octet-stream", pongClip.data, "", "", ""⟩,
    .recv "laptop" "desktop" boxIo, .take "laptop" "desktop" 162 boxIo, .ping "desktop" "laptop" boxIo,
    .take "laptop" "desktop" 10 boxIo, .take "desktop" "laptop" 10 boxIo,
    .take "laptop" "desktop" 10 boxIo]

/-- The reader of the desktop takes the end of the clip for a `Pong`, and no hub but the laptop has the
copy. -/
theorem halved_copy_lost :
    letI := pongSha256
    letI := metaJson pongClip
    letI := sampleAckJson
    letI := sampleHelloJson
    letI := sampleAead
    ∃ m, Guarded (Fanout.stepBytes (fun _ => memory) chain) (Fanout.PlaysBytes {pongClip.data} "laptop")
        freshFanout halvedRun ∧
      exec (Fanout.stepBytes (fun _ => memory) chain) freshFanout halvedRun = some m ∧
      Fanout.StaysUp chain m ∧ Fanout.Quiescent (fun _ => memory) chain m ∧
      m.latest = some pongClip ∧ chain.Reachable "laptop" "desktop" ∧
      ¬ (m.hub "desktop").Holds memory pongClip.data := by
  let _ := pongSha256
  let _ := metaJson pongClip
  let _ := sampleAckJson
  let _ := sampleHelloJson
  let _ := sampleAead
  have hends : (exec (Fanout.stepBytes (fun _ => memory) chain) freshFanout halvedRun).map
      (fun m => (idleChain m, m.latest, (m.hub "desktop").clipboard)) = some (true, some pongClip, none) := by
    decide +kernel
  obtain ⟨m, hm, hends⟩ := Option.map_eq_some_iff.mp hends
  obtain ⟨hedges, hends⟩ := Prod.mk.inj hends
  obtain ⟨hlatest, hclipboard⟩ := Prod.mk.inj hends
  have hidle : ∀ {a b}, chain.Adj a b → _ := idle_on_chain hedges
  have hadj : chain.Adj "laptop" "desktop" := by decide
  refine ⟨m, Fanout.plays_of_first ⟨rfl, .inl rfl, Set.mem_singleton _, by decide⟩ (by decide), hm,
    fun a b hab => (hidle hab).2, Fanout.quiescent_of_edges fun a b hab => (hidle hab).1, hlatest,
    hadj.reachable, ?_⟩
  rintro ⟨item, hget, -⟩
  rw [hclipboard] at hget
  cases hget

end Zsync
