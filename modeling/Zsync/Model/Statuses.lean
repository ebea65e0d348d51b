import Zsync.Model.Sessions

/-! # `daemon.rs`: what the status says of the peers

Every entry of the peer map has a status, which its stop channel names here. It is shared: the maintaining task
of a dialled peer writes to it, and so does every accepted session that has cloned it. An entry and its status
are made by `spawn_peer`, or by `remember_incoming`; `inbound` keeps which.

* `step` : a step of the daemon and what it notes; `greeted` is the note in the middle of a dial.
* `shown` : what `collect_status` says of an entry.
-/

namespace Zsync
set_option autoImplicit false
set_option maxHeartbeats 250000

inductive LinkState
  | connecting | connected | reconnecting | disconnected
  deriving DecidableEq, Repr

/-- The text of the field `state`. -/
def LinkState.text : LinkState → String
  | .connecting => "connecting"
  | .connected => "connected"
  | .reconnecting => "reconnecting"
  | .disconnected => "disconnected"

structure Statuses where
  daemon : Daemon
  state : StopChan → LinkState
  /-- The status that an accepted session has cloned. -/
  cloned : ℕ → Option StopChan
  /-- The entry was made by `remember_incoming`. -/
  inbound : StopChan → Bool

inductive StatusEvent
  | daemon (e : DaemonEvent)
  /-- `run_tcp_init` or `run_relay_session` notes that its peer is connected. -/
  | greeted (i : ℕ)

namespace Statuses

def start (d : Daemon) : Statuses := ⟨d, fun _ => .connecting, fun _ => none, fun _ => false⟩

def entry (key : String) (x : Statuses) : Option StopChan :=
  (x.daemon.rt.peers.lookup key).map fun chan => (key, chan)

def shown (key : String) (x : Statuses) : Option LinkState := (x.entry key).map x.state

/-! ## What a step notes -/

def note (c : StopChan) (state : LinkState) (x : Statuses) : Statuses :=
  { x with state := Function.update x.state c state }

/-- What a maintaining task notes when a dial is over. -/
def rested (task : PeerTask) (x : Statuses) : Statuses :=
  x.note task.stop (if task.stop ∈ x.daemon.rt.stopped then .disconnected else .reconnecting)

/-- At the top of the loop. -/
def attempted (task : PeerTask) (x : Statuses) : Statuses :=
  x.note task.stop (
    if task.stop ∈ x.daemon.rt.stopped then .disconnected
    else if task.target.relay.isSome then .connecting
    else if task.target.uri ∈ x.daemon.rt.live then .connected
    else .connecting)

/-- An entry is made with its status. -/
def made (c : StopChan) (state : LinkState) (inbound : Bool) (x : Statuses) : Statuses :=
  { x.note c state with inbound := Function.update x.inbound c inbound }

def spawned (task : Option PeerTask) (x : Statuses) : Statuses :=
  match task with
  | some task => x.made task.stop .connecting false
  | none => x

/-- `remember_incoming` at a free address. -/
def remembered (addr : String) (x : Statuses) : Statuses :=
  match x.entry addr with
  | some _ => x
  | none => x.made (addr, x.daemon.rt.channels) .connected true

def looked (i : ℕ) (x : Statuses) : Statuses :=
  if x.daemon.poisoned then x
  else
    match x.daemon.sessions i with
    | some (.incoming addr (.claimed _)) => x.remembered addr
    | some (.incoming addr (.remembered _)) => { x with cloned := Function.update x.cloned i (x.entry addr) }
    | _ => x

def acked (i : ℕ) (x : Statuses) : Statuses :=
  match x.cloned i with
  | some c => x.note c .connected
  | none => x

variable [Base64]

/-- The daemon is still as it was before the step. -/
def notes (x : Statuses) : DaemonEvent → Statuses
  | .lookup i => x.looked i
  | .ack i ok => if ok then x.acked i else x
  | .attempt i =>
    match x.daemon.sessions i with
    | some (.dial task .idle) => x.attempted task
    | _ => x
  | .dialed i ok =>
    match x.daemon.sessions i with
    | some (.dial task .connecting) => if ok then x else x.rested task
    | _ => x
  | .claim i =>
    match x.daemon.sessions i with
    | some (.dial task .connected) => if task.target.uri ∈ x.daemon.rt.live then x.rested task else x
    | _ => x
  | .release i =>
    match x.daemon.sessions i with
    | some (.dial task .ended) => x.rested task
    | _ => x
  | .spawn _ io uri => x.spawned (x.daemon.rt.spawnPeer io uri false).2
  | .request _ io req => if x.daemon.poisoned then x else x.spawned (x.daemon.rt.dispatch io req).task
  | .accept _ _ | .hello _ _ | .finish _ => x

def step (x : Statuses) : StatusEvent → Option Statuses
  | .daemon e => (x.daemon.step e).map fun d => { x.notes e with daemon := d }
  | .greeted i =>
    match x.daemon.sessions i with
    | some (.dial task .running) => some (x.note task.stop .connected)
    | _ => none

end Statuses
end Zsync
