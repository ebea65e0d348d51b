import Zsync.Model.Framing

/-! # Which frames the session loops process

`read_frame` keeps what it has read in its own future, and `select!` drops that future whenever
another branch wins. What was read of a frame is then lost, and the next header is taken from the
middle of a frame.

* `KeepsFrames` : a loop that drops no reader in the middle of a frame processes a prefix of the
  frames sent, and all of them unless it ended or bytes are left.
* `cut_frame_misread` : a ping that wins after the header makes the payload be read as a frame.
-/

namespace Zsync
set_option autoImplicit false
set_option maxHeartbeats 250000
open Protocol Foundations

/-- When no other branch wins in the middle of a frame in the run `es`. -/
def KeepsFrames {τ : Type} {c : Codec UInt8 τ ProtoError}
    (loop : LoopState UInt8 τ → LoopEvent Branch → Option (LoopState UInt8 τ)) (fs : List (Frame c))
    (es : List (LoopEvent Branch)) : Prop :=
  ∀ s, Guarded loop LoopState.Whole (LoopState.start fs) es →
    exec loop (LoopState.start fs) es = some s →
    s.processed <+: fs.map Frame.content ∧
      (s.ended = false → s.stream = [] → s.processed = fs.map Frame.content)

theorem keepsFrames_step {τ : Type} (c : Codec UInt8 τ ProtoError) (handle : τ → Bool → Bool)
    (fs : List (Frame c)) (es : List (LoopEvent Branch)) :
    KeepsFrames (LoopState.step c handle) fs es := fun _ hw hr =>
  ⟨LoopState.processed_prefix hw hr, LoopState.processed_all hw hr⟩

/-- The LAN loop is sent `fs`, and the loops at both ends of a relay are sent `gs`. -/
theorem loops_keep_frames (fs : List (Frame lanCodec)) (gs : List (Frame Relay.relayCodec))
    (es : List (LoopEvent Branch)) :
    KeepsFrames framedLoop fs es ∧ KeepsFrames runRelaySession gs es ∧ KeepsFrames serveLeaf gs es :=
  ⟨keepsFrames_step _ _ fs es, keepsFrames_step _ _ gs es, keepsFrames_step _ _ gs es⟩

/-! ### A ping that carries a frame -/

theorem pingHeader_parses :
    readHeader magic version FrameType.fromU8 (headerBytes magic version 3 10) =
      .ok (.ping, 10) := by
  refine readHeader_headerBytes rfl rfl ?_
  decide

/-- `Ping` with an encoded `Bye` as its payload. -/
def pingWithBye : Frame lanCodec where
  typ := .ping
  payload := headerBytes magic version 8 0
  head := headerBytes magic version 3 10
  length_head := rfl
  parse_head := pingHeader_parses

/-- All twenty bytes are taken, and then the ping tick wins. -/
def wholeRun : List (LoopEvent Branch) := List.replicate 20 (.take true) ++ [.other .ping true]

/-- The ping tick wins after the header. -/
def cutRun : List (LoopEvent Branch) :=
  List.replicate 10 (.take true) ++ [.other .ping true] ++ List.replicate 10 (.take true)

theorem pingWithBye_kept :
    ∃ s, exec framedLoop (LoopState.start [pingWithBye]) wholeRun = some s ∧
      s.processed <+: [pingWithBye].map Frame.content := by
  have hsome : (exec framedLoop (LoopState.start [pingWithBye]) wholeRun).isSome := by decide
  obtain ⟨s, hs⟩ := Option.isSome_iff_exists.mp hsome
  exact ⟨s, hs, ((loops_keep_frames [pingWithBye] [] wholeRun).1 s (by decide) hs).1⟩

/-- The loop processes `Bye`, which nobody sent. -/
theorem cut_frame_misread :
    (exec framedLoop (LoopState.start [pingWithBye]) cutRun).map LoopState.processed =
        some [(FrameType.bye, [])] ∧
      ¬ [(FrameType.bye, [])] <+: [pingWithBye].map Frame.content :=
  ⟨by decide, by decide⟩

end Zsync
