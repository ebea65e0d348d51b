import Mathlib.Logic.Function.Basic
import Zsync.Model.Hub

/-! # `hub.rs`: several calls of `apply_remote` at once

Every session applies its clips on a thread of its own. A call locks the table of sequence numbers, reads
the clipboard, locks the echo table, writes the clipboard and locks the echo table again, one after the
other; between two of these steps any other call may take its own.

* `advance` : the next step of one call.
* `runCall_eq_applyRemote` : the steps of a call that nobody interrupts are `apply_remote`.
* `ApplyCalls` : a hub and its calls; it also keeps which calls were accepted, in order.
-/

namespace Zsync
set_option autoImplicit false
set_option maxHeartbeats 250000
open Protocol

/-- How far a call has come, and with which clip. -/
inductive Applying
  /-- `SeenSeq::accept` is next. -/
  | verified (clip : Clip)
  /-- Reading the clipboard is next. -/
  | accepted (clip : Clip)
  /-- The content is there already; `Suppress::add` is next. -/
  | present (clip : Clip)
  /-- It is not; `Suppress::add` is next. -/
  | absent (clip : Clip)
  /-- `Backend::set` is next. -/
  | storing (clip : Clip)
  /-- `Suppress::add` of the stored hash is next. -/
  | stored (clip : Clip) (h : String)
  | returned (res : Except HubError ClipAck)

namespace Applying
variable {σ : Type} [Sha256]

/-- What a call does before its first step. -/
def begin (clip : Clip) (hub : Hub σ) : Applying :=
  match verifyClip clip with
  | .error e => .returned (.ok (Hub.rejection clip e))
  | .ok () =>
    if clip.clipMeta.originId = hub.nodeId then .returned (.ok ⟨clip.clipMeta.hash, true, "own-origin"⟩)
    else .verified clip

omit [Sha256] in
def advance (B : Backend σ) (now : ℕ) (hub : Hub σ) : Applying → Option (Hub σ × Applying)
  | .verified clip =>
    match hub.seen.accept clip.clipMeta.originId clip.clipMeta.seq with
    | (false, _) => some (hub, .returned (.ok ⟨clip.clipMeta.hash, true, "duplicate"⟩))
    | (true, seen) => some ({ hub with seen := seen }, .accepted clip)
  | .accepted clip =>
    if hub.present B clip.clipMeta.hash then some (hub, .present clip) else some (hub, .absent clip)
  | .present clip =>
    some (hub.suppressed now clip.clipMeta.hash,
      .returned (.ok ⟨clip.clipMeta.hash, true, "already-present"⟩))
  | .absent clip => some (hub.suppressed now clip.clipMeta.hash, .storing clip)
  | .storing clip =>
    match B.set (Hub.remoteItem clip) hub.clipboard with
    | (.error e, clipboard) =>
      some ({ hub with clipboard := clipboard }, .returned (.error (.backend e)))
    | (.ok item, clipboard) => some ({ hub with clipboard := clipboard }, .stored clip item.hash)
  | .stored _ h => some (hub.suppressed now h, .returned (.ok ⟨h, true, ""⟩))
  | .returned _ => none

omit [Sha256] in
/-- At most `n` steps of one call. -/
def runCall (B : Backend σ) (now : ℕ) : ℕ → Hub σ × Applying → Hub σ × Applying
  | 0, s => s
  | n + 1, s =>
    match advance B now s.1 s.2 with
    | none => s
    | some s => runCall B now n s

omit [Sha256] in
theorem runCall_returned (B : Backend σ) (now n : ℕ) (hub : Hub σ) (res : Except HubError ClipAck) :
    runCall B now n (hub, .returned res) = (hub, .returned res) := by
  cases n <;> rfl

omit [Sha256] in
theorem runCall_step {B : Backend σ} {now n : ℕ} {s t : Hub σ × Applying}
    (h : advance B now s.1 s.2 = some t) : runCall B now (n + 1) s = runCall B now n t := by
  rw [runCall, h]

/-- A call that nobody interrupts returns within five steps what `apply_remote` returns, and leaves the
hub that it leaves. -/
theorem runCall_eq_applyRemote (B : Backend σ) (now : ℕ) (clip : Clip) (hub : Hub σ) :
    runCall B now 5 (hub, begin clip hub) =
      ((hub.applyRemote B now clip).hub, .returned (hub.applyRemote B now clip).res) := by
  unfold begin Hub.applyRemote
  cases hv : verifyClip clip with
  | error e => exact runCall_returned B now 5 hub _
  | ok _ =>
    dsimp only
    by_cases ho : clip.clipMeta.originId = hub.nodeId
    · rw [if_pos ho, if_pos ho]
      exact runCall_returned B now 5 hub _
    · rw [if_neg ho, if_neg ho]
      cases hs : hub.seen.accept clip.clipMeta.originId clip.clipMeta.seq with
      | mk fresh seen =>
        cases fresh with
        | false =>
          rw [runCall_step (t := (hub, _)) (by rw [advance, hs])]
          exact runCall_returned B now 4 hub _
        | true =>
          rw [runCall_step (t := ({ hub with seen := seen }, .accepted clip)) (by rw [advance, hs])]
          dsimp only
          by_cases hp : Hub.present B clip.clipMeta.hash { hub with seen := seen } = true
          · rw [if_pos hp, runCall_step (t := ({ hub with seen := seen }, .present clip))
              (by rw [advance, if_pos hp])]
            exact runCall_returned B now 2 _ _
          · rw [if_neg hp, runCall_step (t := ({ hub with seen := seen }, .absent clip))
              (by rw [advance, if_neg hp])]
            rw [runCall_step rfl]
            generalize Hub.suppressed { hub with seen := seen } now clip.clipMeta.hash = hub'
            cases hset : B.set (Hub.remoteItem clip) hub'.clipboard with
            | mk res clipboard =>
              cases res with
              | error e =>
                rw [runCall_step (by rw [advance, hset])]
                rfl
              | ok item =>
                rw [runCall_step (by rw [advance, hset])]
                rfl

end Applying

/-! ## A hub and its calls -/

structure ApplyCalls (σ : Type) where
  hub : Hub σ
  now : ℕ
  calls : ℕ → Option Applying
  /-- The clips of all calls so far that got past the checks. -/
  delivered : List Clip
  /-- The calls that `SeenSeq` accepted, in this order. -/
  order : List (ℕ × Clip)

inductive ApplyEvent
  /-- A session calls `apply_remote`. -/
  | deliver (i : ℕ) (clip : Clip)
  | advance (i : ℕ)
  | tick

namespace ApplyCalls
variable {σ : Type} [Sha256]

def put (i : ℕ) (call : Applying) (s : ApplyCalls σ) : ApplyCalls σ :=
  { s with calls := Function.update s.calls i (some call) }

def step (B : Backend σ) (s : ApplyCalls σ) : ApplyEvent → Option (ApplyCalls σ)
  | .deliver i clip =>
    match s.calls i with
    | some _ => none
    | none =>
      let call := Applying.begin clip s.hub
      let new := match call with
        | .verified clip => [clip]
        | _ => []
      some { s.put i call with delivered := s.delivered ++ new }
  | .advance i => do
    let call ← s.calls i
    let (hub, call) ← call.advance B s.now s.hub
    let new := match call with
      | .accepted clip => [(i, clip)]
      | _ => []
    some { s.put i call with hub := hub, order := s.order ++ new }
  | .tick => some { s with now := s.now + 1 }

end ApplyCalls
end Zsync
