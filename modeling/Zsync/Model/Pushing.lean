import Mathlib.Logic.Function.Basic
import Zsync.Model.Hub

/-! # `hub.rs`: several calls of `local_push` at once

The daemon serves every command on a task of its own, so that several `zsync copy` may be in `local_push` at the same
time. A call locks the echo table, writes the clipboard, locks the echo table again, locks the state file for the next
sequence number, and hands its clip to the sessions; between two of these steps any other call may take its own.

* `advance` : the next step of one call.
* `runPush_eq_localPush` : the steps of a call that nobody interrupts are `local_push`.
* `PushCalls` : a hub and its calls; it also keeps which calls have written, and which have minted, in order.
-/

namespace Zsync
set_option autoImplicit false
set_option maxHeartbeats 250000
open Protocol

/-- How far a call has come, and with what. -/
inductive Pushing
  /-- `Suppress::add` is next. -/
  | hashed (item : Item)
  /-- `Backend::set` is next. -/
  | storing (item : Item)
  /-- `Suppress::add` of the stored hash is next. -/
  | stored (item : Item)
  /-- `pack` is next. -/
  | packing (item : Item)
  /-- `emit` is next. -/
  | minted (clip : Clip)
  | returned (res : Except HubError Clip)
  deriving DecidableEq

namespace Pushing
variable {σ : Type}

/-- What a call does before its first step. -/
def begin [Sha256] (item : Item) : Pushing :=
  if maxClip < item.data.length then .returned (.error .payloadTooLarge)
  else .hashed { item with hash := if item.hash = "" then Protocol.hash item.data else item.hash }

def advance (B : Backend σ) (now : ℕ) (saves : Bool) (hub : Hub σ) :
    Pushing → Option (Hub σ × Pushing × List Outbound)
  | .hashed item => some (hub.suppressed now item.hash, .storing item, [])
  | .storing item =>
    match B.set item hub.clipboard with
    | (.error e, clipboard) => some ({ hub with clipboard := clipboard }, .returned (.error (.backend e)), [])
    | (.ok item, clipboard) => some ({ hub with clipboard := clipboard }, .stored item, [])
  | .stored item => some (hub.suppressed now item.hash, .packing item, [])
  | .packing item =>
    match hub.pack saves item.mime item.name item.data item.hash with
    | (.error e, hub) => some (hub, .returned (.error e), [])
    | (.ok clip, hub) => some (hub, .minted clip, [])
  | .minted clip => some (hub, .returned (.ok clip), [⟨clip, none⟩])
  | .returned _ => none

/-- At most `n` steps of one call, and what they emit. -/
def runPush (B : Backend σ) (now : ℕ) (saves : Bool) :
    ℕ → Hub σ × Pushing × List Outbound → Hub σ × Pushing × List Outbound
  | 0, s => s
  | n + 1, (hub, call, out) =>
    match advance B now saves hub call with
    | none => (hub, call, out)
    | some (hub, call, new) => runPush B now saves n (hub, call, out ++ new)

/-- A call that nobody interrupts returns within five steps what `local_push` returns, leaves the hub that it leaves and
emits what it emits. -/
theorem runPush_eq_localPush [Sha256] (B : Backend σ) (now : ℕ) (saves : Bool) (item : Item) (hub : Hub σ) :
    runPush B now saves 5 (hub, begin item, []) =
      ((hub.localPush B now saves item).hub, .returned (hub.localPush B now saves item).res,
        (hub.localPush B now saves item).out) := by
  unfold begin Hub.localPush
  by_cases hlarge : maxClip < item.data.length
  · rw [if_pos hlarge, if_pos hlarge]
    rfl
  · rw [if_neg hlarge, if_neg hlarge]
    dsimp only
    generalize hhub : hub.suppressed now (if item.hash = "" then Protocol.hash item.data else item.hash) = hub'
    simp only [runPush, advance, hhub]
    cases B.set _ hub'.clipboard with
    | mk res clipboard =>
      cases res with
      | error e => rfl
      | ok stored =>
        dsimp only
        generalize Hub.suppressed _ now stored.hash = hub''
        cases hub''.pack saves stored.mime stored.name stored.data stored.hash with
        | mk res hub =>
          cases res with
          | error e => rfl
          | ok clip => rfl

end Pushing

/-! ## A hub and its calls -/

structure PushCalls (σ : Type) where
  hub : Hub σ
  now : ℕ
  calls : ℕ → Option Pushing
  out : List Outbound
  /-- The calls that have written the clipboard, in this order, and what was stored. -/
  written : List (ℕ × Item)
  /-- The calls that have minted a clip, in this order. -/
  minted : List (ℕ × Clip)

inductive PushEvent
  /-- A command calls `local_push`. -/
  | begin (i : ℕ) (item : Item)
  /-- `saves` is whether the state file can be written. -/
  | advance (i : ℕ) (saves : Bool)
  | tick

/-- The call that it is about. -/
def PushEvent.call : PushEvent → Option ℕ
  | .begin i _ | .advance i _ => some i
  | .tick => none

namespace PushCalls
variable {σ : Type}

def put (i : ℕ) (call : Pushing) (s : PushCalls σ) : PushCalls σ :=
  { s with calls := Function.update s.calls i (some call) }

def step [Sha256] (B : Backend σ) (s : PushCalls σ) : PushEvent → Option (PushCalls σ)
  | .begin i item => if s.calls i = none then some (s.put i (.begin item)) else none
  | .advance i saves => do
    let call ← s.calls i
    let (hub, call, out) ← call.advance B s.now saves s.hub
    let written := match call with
      | .stored item => [(i, item)]
      | _ => []
    let minted := match call with
      | .minted clip => [(i, clip)]
      | _ => []
    some { s.put i call with
      hub := hub, out := s.out ++ out, written := s.written ++ written, minted := s.minted ++ minted }
  | .tick => some { s with now := s.now + 1 }

end PushCalls
end Zsync
