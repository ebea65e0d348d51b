import Zsync.Model.Lifetime

/-! # `daemon.rs`: the loop of `watch_clipboard`, and restarts

The watcher sleeps, looks at the clipboard, sleeps again when it finds something else than the last
time, and takes what it then finds for a copy of its user. It keeps the last content in memory, and so
does the hub its tables: a daemon that is started again knows only its name and `state.json`.
-/

namespace Zsync
set_option autoImplicit false
set_option maxHeartbeats 250000
open Protocol Foundations

structure Watcher (σ : Type) where
  hub : Hub σ
  now : ℕ
  ttl : ℕ
  last : Bytes
  debouncing : Bool
  /-- What the watcher has emitted since the daemon was started. -/
  emitted : List Outbound

inductive WatchEvent (σ : Type)
  /-- Something else happens at the hub. -/
  | op (o : HubOp σ)
  | tick
  /-- The sleep of `interval` is over. -/
  | wake
  /-- The sleep of `debounce` is over. -/
  | settle (saves : Bool)
  /-- The daemon is stopped and started again, and finds this clipboard. -/
  | restart (clipboard : σ)

/-- What the watcher finds; nothing, an empty item and a failure are all the same to it. -/
def look {σ : Type} (B : Backend σ) (clipboard : σ) : Option Item :=
  match B.get clipboard with
  | .ok (some item) => if item.data = [] then none else some item
  | _ => none

namespace Watcher
variable {σ : Type} [Sha256]

/-- A daemon that is started with `state.json` as it is on disk. -/
def boot (nodeId : String) (clipboard : σ) (disk : State) (ttl now : ℕ) : Watcher σ :=
  ⟨Hub.new nodeId clipboard ⟨disk, disk⟩ ttl, now, ttl, [], false, []⟩

def restarted (clipboard : σ) (s : Watcher σ) : Watcher σ :=
  boot s.hub.nodeId clipboard s.hub.state.disk s.ttl s.now

def wake (B : Backend σ) (s : Watcher σ) : Watcher σ :=
  match look B s.hub.clipboard with
  | none => s
  | some item => if item.data = s.last then s else { s with debouncing := true }

def settle (B : Backend σ) (saves : Bool) (s : Watcher σ) : Watcher σ :=
  let s := { s with debouncing := false }
  match look B s.hub.clipboard with
  | none => s
  | some item =>
    if item.data = s.last then s
    else
      let ret := s.hub.localObserved s.now saves item
      { s with hub := ret.hub, last := item.data, emitted := s.emitted ++ ret.out }

def step (B : Backend σ) (s : Watcher σ) : WatchEvent σ → Option (Watcher σ)
  -- Only the watcher calls `local_observed`.
  | .op (.observe _ _) => none
  | .op o => some { s with hub := o.run B s.now s.hub }
  | .tick => some { s with now := s.now + 1 }
  | .wake => if s.debouncing then none else some (s.wake B)
  | .settle saves => if s.debouncing then some (s.settle B saves) else none
  | .restart clipboard => some (s.restarted clipboard)

end Watcher
end Zsync
