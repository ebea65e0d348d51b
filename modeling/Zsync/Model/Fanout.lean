import Mathlib.Combinatorics.SimpleGraph.Basic
import Zsync.Foundations.Broadcast
import Zsync.Foundations.Runs
import Zsync.Model.Lifetime

/-! # `daemon.rs`: the session loops of a hub and its broadcast channel

At each node of a graph there is a hub, and an edge is a session. What a hub emits goes to its broadcast
channel, on which the loop of each of its sessions has a receiver. A loop takes one message at a time and
writes the clip, unless it is to skip its peer; a loop that lagged goes on. Clips arrive in the order in
which they were written.

What is on its way from one loop to the other is left open here. `step` has whole clips there; the bytes
and the frames they make are in `Model.SessionBytes`.

Beside the state there is a history: the clips that `local_push` returned, and the clips that
each hub accepted.
-/

namespace Zsync
set_option autoImplicit false
set_option maxHeartbeats 250000
open Protocol Foundations

/-- `BROADCAST_CAP`. -/
def broadcastCap : ℕ := 32

structure Fanout (σ ω : Type) where
  hub : String → Hub σ
  /-- `tx` of each hub; its receivers are named by the peer of their session. -/
  tx : String → Channel String Outbound
  /-- What is between a loop and its peer. -/
  wire : String → String → ω
  clock : ℕ
  pushed : List Clip
  /-- What the last `local_push` returned, not counting the calls refused for their size. -/
  latest : Option Clip
  accepted : String → List Clip

inductive FanoutEvent
  /-- `zsync copy` at `h`. -/
  | push (h : String) (saves : Bool) (item : Item)
  /-- The watcher of `h` reads the clipboard. -/
  | poll (h : String) (saves : Bool)
  /-- The loop of `a` for `b` receives from the channel. -/
  | recv (a b : String)
  /-- The loop of `b` for `a` reads a frame. -/
  | deliver (a b : String)
  | tick (d : ℕ)
  deriving DecidableEq, Repr

namespace Fanout
variable {σ ω : Type}

/-- The hub of `h` is now `hub`, and has emitted `outs`. -/
def emit (h : String) (hub : Hub σ) (outs : List Outbound) (n : Fanout σ ω) : Fanout σ ω :=
  { n with
    hub := Function.update n.hub h hub
    tx := Function.update n.tx h ((n.tx h).sends outs) }

def returned (res : Except HubError Clip) (n : Fanout σ ω) : Fanout σ ω :=
  match res with
  | .ok clip => { n with pushed := n.pushed ++ [clip], latest := some clip }
  | .error .payloadTooLarge => n
  | .error _ => { n with latest := none }

def setWire (a b : String) (w : ω) (n : Fanout σ ω) : Fanout σ ω :=
  { n with wire := fun x y => if x = a ∧ y = b then w else n.wire x y }

/-- The same hubs and channels, with `w` between the loops. -/
def rewire {ω' : Type} (w : String → String → ω') (n : Fanout σ ω) : Fanout σ ω' :=
  ⟨n.hub, n.tx, w, n.clock, n.pushed, n.latest, n.accepted⟩

/-- What the loop for `b` writes when it has received this. -/
def writes (b : String) : Received Outbound → List Clip
  | .lagged _ => []
  | .message out => if out.skip = some b then [] else [out.clip]

variable [Sha256] (G : SimpleGraph String) [DecidableRel G.Adj] (B : String → Backend σ)

def accept (b : String) (clip : Clip) (n : Fanout σ ω) : Fanout σ ω :=
  { n with
    accepted := if HubOp.Accepted (n.hub b) clip then
        Function.update n.accepted b (n.accepted b ++ [clip])
      else n.accepted }

def step (n : Fanout σ (List Clip)) : FanoutEvent → Option (Fanout σ (List Clip))
  | .push h saves item =>
    let ret := (n.hub h).localPush (B h) n.clock saves item
    some ((n.emit h ret.hub ret.out).returned ret.res)
  | .poll h saves =>
    match (B h).get (n.hub h).clipboard with
    | .ok (some item) =>
      let ret := (n.hub h).localObserved n.clock saves item
      some (n.emit h ret.hub ret.out)
    | _ => some n
  | .recv a b =>
    if G.Adj a b then
      ((n.tx a).recv broadcastCap b).map fun (msg, rest) =>
        { n with tx := Function.update n.tx a rest }.setWire a b (n.wire a b ++ writes b msg)
    else none
  | .deliver a b =>
    match n.wire a b with
    | [] => none
    | clip :: rest =>
      let ret := (n.hub b).applyFrom (B b) n.clock clip a
      some (((n.accept b clip).setWire a b rest).emit b ret.hub ret.out)
  | .tick d => some { n with clock := n.clock + d }

/-! ## What a step did -/

variable {G B} {n m : Fanout σ (List Clip)}

theorem step_recv {a b : String} (hs : step G B n (.recv a b) = some m) : G.Adj a b ∧
    ∃ msg rest, (n.tx a).recv broadcastCap b = some (msg, rest) ∧
      m = { n with tx := Function.update n.tx a rest }.setWire a b (n.wire a b ++ writes b msg) := by
  simp only [step] at hs
  split_ifs at hs with hadj
  obtain ⟨⟨msg, rest⟩, hrecv, rfl⟩ := Option.map_eq_some_iff.mp hs
  exact ⟨hadj, msg, rest, hrecv, rfl⟩

theorem step_deliver {a b : String} (hs : step G B n (.deliver a b) = some m) :
    ∃ clip rest, n.wire a b = clip :: rest ∧
      m = ((n.accept b clip).setWire a b rest).emit b
        ((n.hub b).applyFrom (B b) n.clock clip a).hub
        ((n.hub b).applyFrom (B b) n.clock clip a).out := by
  simp only [step] at hs
  split at hs
  · cases hs
  · next clip rest hw =>
    exact ⟨clip, rest, hw, (Option.some.inj hs).symm⟩

omit [Sha256] in
theorem emit_nil (h : String) (n : Fanout σ ω) : n.emit h (n.hub h) [] = n := by
  rw [emit, Channel.sends_nil, Function.update_eq_self, Function.update_eq_self]

/-! ## The way of a clip from hub to hub -/

/-- The clips that the hub of `a` has emitted. -/
def emitted (a : String) (n : Fanout σ ω) : List Clip := (n.tx a).log.map Outbound.clip

/-- The clips that the loop of `a` for `b` has not received. -/
def waiting (a b : String) (n : Fanout σ ω) : List Clip := ((n.tx a).pending b).map Outbound.clip

section Fields
omit [Sha256]
variable (h : String) (hub : Hub σ) (outs : List Outbound) (n : Fanout σ ω)

@[simp] theorem returned_hub (res : Except HubError Clip) : (n.returned res).hub = n.hub := by
  unfold returned
  split <;> rfl

@[simp] theorem returned_tx (res : Except HubError Clip) : (n.returned res).tx = n.tx := by
  unfold returned
  split <;> rfl

@[simp] theorem returned_wire (res : Except HubError Clip) : (n.returned res).wire = n.wire := by
  unfold returned
  split <;> rfl

@[simp] theorem returned_accepted (res : Except HubError Clip) :
    (n.returned res).accepted = n.accepted := by
  unfold returned
  split <;> rfl

theorem rewire_returned {ω' : Type} (w : String → String → ω') (res : Except HubError Clip) :
    (n.returned res).rewire w = (n.rewire w).returned res := by
  unfold returned
  split <;> rfl

theorem emit_tx (x : String) :
    (n.emit h hub outs).tx x = if x = h then (n.tx x).sends outs else n.tx x := by
  rw [emit]
  dsimp only
  rw [Function.update_apply]
  split_ifs with hx
  · rw [hx]
  · rfl

theorem emit_emitted (x : String) : (n.emit h hub outs).emitted x =
    if x = h then n.emitted x ++ outs.map Outbound.clip else n.emitted x := by
  rw [emitted, emit_tx]
  split_ifs
  · exact List.map_append
  · rfl

theorem emit_waiting (x y : String) : (n.emit h hub outs).waiting x y =
    if x = h then n.waiting x y ++ outs.map Outbound.clip else n.waiting x y := by
  rw [waiting, emit_tx]
  split_ifs
  · rw [Channel.sends_pending, List.map_append]
    rfl
  · rfl

end Fields

end Fanout
end Zsync
