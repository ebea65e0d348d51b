import Zsync.Model.Daemon

/-! # `daemon.rs`: the sessions of a running daemon

Every connection and every dialled peer is a task. A step is what one task does between two points
at which another task can run: between two `await`s, and between two locks. `Incoming` follows
`run_incoming`; `Dialing` follows `maintain_tcp` and `maintain_relay`, with `run_tcp_dial` and
`run_relay_dial` inside.

A task that panics while it holds the lock of the peer map poisons the lock, and from then on every
task panics that takes it.
-/

namespace Zsync
set_option autoImplicit false
set_option maxHeartbeats 250000

/-- How far `run_incoming` has come. -/
inductive Incoming
  | reading
  /-- `Hello` has been read; `claim_live` is next. -/
  | greeted (node : String)
  /-- `remember_incoming` is next. -/
  | claimed (node : String)
  /-- Looking up the status is next. -/
  | remembered (node : String)
  /-- Subscribing to the stop channel is next. -/
  | looked (node : String)
  /-- Writing `HelloAck` is next. -/
  | subscribed (node : String) (stop : StopChan)
  | looping (node : String) (stop : StopChan)
  /-- `release_live` is next. -/
  | ended (node : String)
  | done
  deriving DecidableEq, Repr

/-- How far the maintaining task of a dialled peer has come. -/
inductive Dialing
  /-- At the top of its loop. -/
  | idle
  | connecting
  /-- `claim_live` is next. -/
  | connected
  | running
  /-- `release_live` is next. -/
  | ended
  | done
  deriving DecidableEq, Repr

inductive Session
  | incoming (addr : String) (phase : Incoming)
  | dial (task : PeerTask) (phase : Dialing)
  deriving DecidableEq, Repr

structure Daemon where
  rt : Runtime
  /-- The lock of the peer map is poisoned. -/
  poisoned : Bool
  sessions : ℕ → Option Session

inductive DaemonEvent
  | accept (i : ℕ) (addr : String)
  /-- The first frame is a `Hello` of this node, or something else, or nothing. -/
  | hello (i : ℕ) (node : Option String)
  | claim (i : ℕ)
  /-- `run_incoming` takes the lock of the peer map. -/
  | lookup (i : ℕ)
  /-- Writing `HelloAck` succeeds or fails. -/
  | ack (i : ℕ) (ok : Bool)
  /-- A maintaining task starts over. -/
  | attempt (i : ℕ)
  | dialed (i : ℕ) (ok : Bool)
  /-- `framed_loop`, `run_tcp_init` or `run_relay_session` returns, for whatever reason. -/
  | finish (i : ℕ)
  | release (i : ℕ)
  /-- `run_agent` starts a saved peer. -/
  | spawn (i : ℕ) (io : RequestIo) (uri : String)
  | request (i : ℕ) (io : RequestIo) (req : Request)

/-- The task whose step it is, or that it starts. -/
def DaemonEvent.task : DaemonEvent → ℕ
  | .accept i _ | .hello i _ | .claim i | .lookup i | .ack i _ | .attempt i | .dialed i _
  | .finish i | .release i | .spawn i _ _ | .request i _ _ => i

namespace Daemon

def put (i : ℕ) (s : Session) (d : Daemon) : Daemon :=
  { d with sessions := Function.update d.sessions i (some s) }

def withRt (rt : Runtime) (d : Daemon) : Daemon := { d with rt := rt }

/-- The thread of task `i` panics with the lock of the peer map in its hands. -/
def panics (i : ℕ) (addr : String) (d : Daemon) : Daemon :=
  { d.put i (.incoming addr .done) with poisoned := true }

/-- Start a task under a number that is not in use. -/
def start (i : ℕ) (task : Option PeerTask) (d : Daemon) : Option Daemon :=
  match task, d.sessions i with
  | none, _ => some d
  | some task, none => some (d.put i (.dial task .idle))
  | some _, some _ => none

/-- The two look-ups of `run_incoming`, each followed by `expect`. -/
def expectPeer (i : ℕ) (addr : String) (next : StopChan → Incoming) (d : Daemon) : Daemon :=
  match d.rt.peers.lookup addr with
  | some chan => d.put i (.incoming addr (next (addr, chan)))
  | none => d.panics i addr

def claim (i : ℕ) (d : Daemon) : Option Daemon :=
  match d.sessions i with
  | some (.incoming addr (.greeted node)) =>
    match d.rt.claimLive node with
    | (true, rt) => some ((d.withRt rt).put i (.incoming addr (.claimed node)))
    | (false, _) => some (d.put i (.incoming addr .done))
  | some (.dial task .connected) =>
    match d.rt.claimLive task.target.uri with
    | (true, rt) => some ((d.withRt rt).put i (.dial task .running))
    | (false, _) => some (d.put i (.dial task .idle))
  | _ => none

def lookup (i : ℕ) (d : Daemon) : Option Daemon :=
  match d.sessions i with
  | some (.incoming addr (.claimed node)) =>
    if d.poisoned then some (d.panics i addr)
    else some ((d.withRt (d.rt.rememberIncoming addr)).put i (.incoming addr (.remembered node)))
  | some (.incoming addr (.remembered node)) =>
    if d.poisoned then some (d.panics i addr)
    else some (d.expectPeer i addr fun _ => .looked node)
  | some (.incoming addr (.looked node)) =>
    if d.poisoned then some (d.panics i addr)
    else some (d.expectPeer i addr (.subscribed node))
  | _ => none

def attempt (i : ℕ) (d : Daemon) : Option Daemon :=
  match d.sessions i with
  | some (.dial task .idle) =>
    if task.stop ∈ d.rt.stopped then some (d.put i (.dial task .done))
    else if task.target.relay.isSome then some (d.put i (.dial task .connected))
    else if task.target.uri ∈ d.rt.live then some d
    else some (d.put i (.dial task .connecting))
  | _ => none

def finish (i : ℕ) (d : Daemon) : Option Daemon :=
  match d.sessions i with
  | some (.incoming addr (.looping node _)) => some (d.put i (.incoming addr (.ended node)))
  | some (.dial task .running) => some (d.put i (.dial task .ended))
  | _ => none

def release (i : ℕ) (d : Daemon) : Option Daemon :=
  match d.sessions i with
  | some (.incoming addr (.ended node)) =>
    some ((d.withRt (d.rt.releaseLive node)).put i (.incoming addr .done))
  | some (.dial task .ended) =>
    some ((d.withRt (d.rt.releaseLive task.target.uri)).put i (.dial task .idle))
  | _ => none

/-- On a poisoned lock the request panics once the state file has been dealt with. -/
def request [Base64] (i : ℕ) (io : RequestIo) (req : Request) (d : Daemon) : Option Daemon :=
  let reply := d.rt.dispatch io req
  if d.poisoned then
    some (d.withRt { d.rt with state := reply.rt.state, keys := reply.rt.keys })
  else (d.withRt reply.rt).start i reply.task

def step [Base64] (d : Daemon) : DaemonEvent → Option Daemon
  | .accept i addr =>
    if (d.sessions i).isNone then some (d.put i (.incoming addr .reading)) else none
  | .hello i node =>
    match d.sessions i, node with
    | some (.incoming addr .reading), some node => some (d.put i (.incoming addr (.greeted node)))
    | some (.incoming addr .reading), none => some (d.put i (.incoming addr .done))
    | _, _ => none
  | .claim i => d.claim i
  | .lookup i => d.lookup i
  | .ack i ok =>
    match d.sessions i with
    | some (.incoming addr (.subscribed node stop)) =>
      -- `?` returns from `run_incoming` without `release_live`.
      some (d.put i (.incoming addr (if ok then .looping node stop else .done)))
    | _ => none
  | .attempt i => d.attempt i
  | .dialed i ok =>
    match d.sessions i with
    | some (.dial task .connecting) => some (d.put i (.dial task (if ok then .connected else .idle)))
    | _ => none
  | .finish i => d.finish i
  | .release i => d.release i
  | .spawn i io uri =>
    if d.poisoned then none
    else
      let (rt, task) := d.rt.spawnPeer io uri false
      (d.withRt rt).start i task
  | .request i io req => d.request i io req

end Daemon
end Zsync
