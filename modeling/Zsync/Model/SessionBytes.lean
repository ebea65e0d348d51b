import Zsync.Model.SessionLoops

/-! # `daemon.rs`: the bytes between the session loops

The same hubs and channels as in `Model.Fanout`, with the bytes of the frames between them. `framed_loop`
waits for the next frame and for three other branches at once; when one of those wins, what `read_frame`
has taken of a frame is dropped with its future.
-/

namespace Zsync
set_option autoImplicit false
set_option maxHeartbeats 250000
open Protocol Foundations

/-- One direction of a session. -/
structure Pipe where
  /-- What the loop at the near end has written and its peer has not taken. -/
  stream : Bytes
  /-- What `read_frame` of the loop at the far end has taken. -/
  reading : Reading UInt8 FrameType
  /-- The loop at the near end has ended. -/
  ended : Bool

def Pipe.idle : Pipe := ⟨[], .fresh, false⟩

inductive PipeEvent
  /-- `zsync copy` at `h`. -/
  | push (h : String) (saves : Bool) (item : Item)
  /-- The watcher of `h` reads the clipboard. -/
  | poll (h : String) (saves : Bool)
  /-- The loop of `a` for `b` receives from the channel. -/
  | recv (a b : String) (io : LoopIo)
  /-- The ping of the loop of `a` for `b` ticks. -/
  | ping (a b : String) (io : LoopIo)
  /-- The stop channel of the loop of `a` for `b` changes, and does not tell it to stop. -/
  | stay (a b : String)
  /-- The loop of `b` for `a` reads up to `k` bytes of a frame. -/
  | take (a b : String) (k : ℕ) (io : LoopIo)
  | tick (d : ℕ)

def PipeEvent.pushes : PipeEvent → Bool
  | .push .. => true
  | _ => false

namespace Fanout
variable {σ : Type}

/-- Another branch of the loop of `a` for `b` has won: what its reader held is gone. -/
def drops (a b : String) (n : Fanout σ Pipe) : Fanout σ Pipe :=
  n.setWire b a { n.wire b a with reading := .fresh }

/-- The loop of `a` for `b` has run a branch, after which it is `l`. -/
def ran (a b : String) (l : SessionLoop) (n : Fanout σ Pipe) : Fanout σ Pipe :=
  n.setWire a b { n.wire a b with
    stream := (n.wire a b).stream ++ l.written.flatten
    ended := l.ended.isSome }

/-- `framed_loop` with the peer `b`, before a branch. -/
def looping (b : String) : SessionLoop := SessionLoop.new (.lan (some b))

section Branches
variable [Json ClipMeta] [Aead]

/-- What the loop for `b` does with what it has received. -/
def branch (b : String) (io : LoopIo) : Received Outbound → SessionLoop
  | .message out => ((looping b).forward io out).1
  | .lagged _ => looping b

end Branches

section Step
variable [Sha256] [Json ClipMeta] [Json ClipAck] [Json Hello] (B : String → Backend σ)

/-- The clip of a frame, where there is one. -/
def clipOf : FrameType × Bytes → Option Clip
  | (.clip, payload) => (decodeClip payload).toOption
  | _ => none

/-- The loop of `b` for `a` has the result of `read_frame`. -/
def reads (a b : String) (frame : Except ProtoError (FrameType × Bytes)) (io : LoopIo)
    (n : Fanout σ Pipe) : Fanout σ Pipe :=
  let ret := onLanFrame (B b) (some a) frame { io with now := n.clock } (looping a) (n.hub b)
  let n' := match frame.toOption.bind clipOf with
    | some clip => n.accept b clip
    | none => n
  (n'.emit b ret.hub (ret.out.map Message.out)).ran b a ret.loop

variable [Aead] (G : SimpleGraph String) [DecidableRel G.Adj]

/-- The session of `a` and `b` is there, and the loop of `a` has not ended. -/
def Up (a b : String) (n : Fanout σ Pipe) : Prop := G.Adj a b ∧ (n.wire a b).ended = false

instance (a b : String) (n : Fanout σ Pipe) : Decidable (Up G a b n) :=
  inferInstanceAs (Decidable (_ ∧ _))

def stepBytes (n : Fanout σ Pipe) : PipeEvent → Option (Fanout σ Pipe)
  | .push h saves item =>
    let ret := (n.hub h).localPush (B h) n.clock saves item
    some ((n.emit h ret.hub ret.out).returned ret.res)
  | .poll h saves =>
    match (B h).get (n.hub h).clipboard with
    | .ok (some item) =>
      let ret := (n.hub h).localObserved n.clock saves item
      some (n.emit h ret.hub ret.out)
    | _ => some n
  | .recv a b io =>
    if Up G a b n then
      ((n.tx a).recv broadcastCap b).map fun (msg, rest) =>
        ({ n with tx := Function.update n.tx a rest }.drops a b).ran a b (branch b io msg)
    else none
  | .ping a b io => if Up G a b n then some ((n.drops a b).ran a b ((looping b).ping io)) else none
  | .stay a b => if Up G a b n then some (n.drops a b) else none
  | .take a b k io =>
    let pipe := n.wire a b
    if Up G b a n ∧ pipe.stream ≠ [] then
      let (fed, rest) := pipe.reading.feeds lanCodec (pipe.stream.take k)
      let left := rest ++ pipe.stream.drop k
      match fed with
      | .more r => some (n.setWire a b { pipe with stream := left, reading := r })
      | .frame typ payload =>
        some ((n.setWire a b { pipe with stream := left, reading := .fresh }).reads B a b
          (.ok (typ, payload)) io)
      | .failed e =>
        some ((n.setWire a b { pipe with stream := left, reading := .fresh }).reads B a b (.error e) io)
    else none
  | .tick d => some { n with clock := n.clock + d }

/-- The sessions stay up. -/
def StaysUp (n : Fanout σ Pipe) : Prop := ∀ a b, G.Adj a b → (n.wire a b).ended = false

/-- No session loop has anything to receive or to read. -/
def Quiescent (n : Fanout σ Pipe) : Prop :=
  ∀ a b k io, stepBytes B G n (.recv a b io) = none ∧ stepBytes B G n (.take a b k io) = none

/-- No other branch wins while the reader of its loop has taken a part of a frame. -/
def Unhalved (n : Fanout σ Pipe) : PipeEvent → Prop
  | .recv a b _ | .ping a b _ | .stay a b => (n.wire b a).reading = .fresh
  | _ => True

instance (n : Fanout σ Pipe) : ∀ e, Decidable (Unhalved n e)
  | .recv .. | .ping .. | .stay .. => inferInstanceAs (Decidable (_ = _))
  | .push .. | .poll .. | .take .. | .tick .. => inferInstanceAs (Decidable True)

end Step

end Fanout
end Zsync
