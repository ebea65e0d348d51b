import Zsync.Foundations.Runs
import Zsync.Hubs.Outcomes

/-! # The life of one hub

Everything that happens at a hub between its start and its end: clips arrive from peers or from nowhere
in particular, the user runs `zsync copy`, the watcher reads the clipboard, another program changes it,
and time passes. Clips arrive in any order and number, and with any content.

* `HubOp.run_suppress` : an operation adds to the echo table only hashes of contents that it touched.
* `recording` is a backend that also lists what it was told to store.
-/

namespace Zsync
set_option autoImplicit false
set_option maxHeartbeats 250000
open Protocol Foundations

inductive HubOp (σ : Type)
  /-- `apply_remote`, or `apply_from` when the clip came from a peer. -/
  | deliver (clip : Clip) (fromPeer : Option String)
  | push (item : Item) (saves : Bool)
  | observe (item : Item) (saves : Bool)
  /-- Another program changes the clipboard. -/
  | put (clipboard : σ)

namespace HubOp
variable {σ : Type} [Sha256] (B : Backend σ) (now : ℕ) (hub : Hub σ)

def run : HubOp σ → Hub σ
  | .deliver clip none => (hub.applyRemote B now clip).hub
  | .deliver clip (some peer) => (hub.applyFrom B now clip peer).hub
  | .push item saves => (hub.localPush B now saves item).hub
  | .observe item saves => (hub.localObserved now saves item).hub
  | .put clipboard => { hub with clipboard := clipboard }

theorem run_deliver (clip : Clip) (fromPeer : Option String) :
    (HubOp.deliver clip fromPeer).run B now hub = (hub.applyRemote B now clip).hub := by
  cases fromPeer with
  | none => rfl
  | some peer => exact hub.applyFrom_hub B now clip peer

/-! ## Contents that an operation touches -/

omit [Sha256] in
/-- The hashes of what is written: of the item, and of what the backend stored. -/
def written (item : Item) (clipboard : σ) : List String :=
  item.hash :: match (B.set item clipboard).1 with
    | .ok stored => [stored.hash]
    | .error _ => []

/-- The clip gets past the checks of `apply_remote`. -/
def Accepted (clip : Clip) : Prop :=
  Verified clip ∧ clip.clipMeta.originId ≠ hub.nodeId ∧
    hub.seen.fresh clip.clipMeta.originId clip.clipMeta.seq = true

instance (clip : Clip) : Decidable (Accepted hub clip) := inferInstanceAs (Decidable (_ ∧ _))

/-- The hashes of the contents that the operation writes to the clipboard or sees on it. -/
def touches : HubOp σ → List String
  | .deliver clip _ =>
    if Accepted hub clip then
      if hub.present B clip.clipMeta.hash then [clip.clipMeta.hash]
      else written B (Hub.remoteItem clip) hub.clipboard
    else []
  | .push item _ =>
    if maxClip < item.data.length then [] else written B (Hub.hashed item) hub.clipboard
  | .observe item _ => [(Hub.hashed item).hash]
  | .put _ => []

variable {B now hub}

omit [Sha256] in
theorem written_ok {item stored : Item} {s s' : σ} (h : B.set item s = (.ok stored, s')) :
    written B item s = [item.hash, stored.hash] := by
  rw [written, h]

omit [Sha256] in
theorem written_error {item : Item} {s s' : σ} {e : BackendError}
    (h : B.set item s = (.error e, s')) : written B item s = [item.hash] := by
  rw [written, h]

theorem accepted_of_lands {clip : Clip} (h : Hub.Lands B clip hub) : Accepted hub clip :=
  ⟨h.verified, h.remote, h.fresh⟩

/-- Nothing but touched contents is added to the echo table. -/
theorem run_suppress (o : HubOp σ) : ∃ hs, (∀ h ∈ hs, h ∈ o.touches B hub) ∧
    (o.run B now hub).suppress = hub.suppress.adds now hs := by
  have hnone : ∃ hs : List String, (∀ h ∈ hs, h ∈ o.touches B hub) ∧
      hub.suppress = hub.suppress.adds now hs := ⟨[], fun _ hh => absurd hh List.not_mem_nil, rfl⟩
  cases o with
  | deliver clip fromPeer =>
    rw [run_deliver]
    have h := hub.applyRemote_applied B now clip
    generalize hub.applyRemote B now clip = ret at h
    cases h with
    | rejected reason hv => exact hnone
    | own hv ho => exact hnone
    | duplicate hv ho hf => exact hnone
    | present hv ho hf hp =>
      refine ⟨[clip.clipMeta.hash], fun h hh => ?_, rfl⟩
      rw [touches, if_pos ⟨hv, ho, hf⟩, if_pos hp]
      exact hh
    | failed hl e clipboard hset =>
      refine ⟨[clip.clipMeta.hash], fun h hh => ?_, rfl⟩
      rw [touches, if_pos (accepted_of_lands hl), if_neg (by simp [hl.absent]), written_error hset]
      exact hh
    | stored hl item clipboard hset =>
      refine ⟨[clip.clipMeta.hash, item.hash], fun h hh => ?_, rfl⟩
      rw [touches, if_pos (accepted_of_lands hl), if_neg (by simp [hl.absent]), written_ok hset]
      exact hh
  | push item saves =>
    have h := Hub.localPush_pushed B now saves item hub
    rw [run]
    generalize hub.localPush B now saves item = ret at h
    cases h with
    | tooLarge hl => exact hnone
    | failed hl e clipboard hset =>
      refine ⟨[(Hub.hashed item).hash], fun h hh => ?_, rfl⟩
      rw [touches, if_neg (Nat.not_lt.mpr hl), written_error hset]
      exact hh
    | unsaved hl hs stored clipboard hset =>
      refine ⟨[(Hub.hashed item).hash, stored.hash], fun h hh => ?_, rfl⟩
      rw [touches, if_neg (Nat.not_lt.mpr hl), written_ok hset]
      exact hh
    | sent hl hs stored clipboard hset =>
      refine ⟨[(Hub.hashed item).hash, stored.hash], fun h hh => ?_, rfl⟩
      rw [touches, if_neg (Nat.not_lt.mpr hl), written_ok hset]
      exact hh
  | observe item saves =>
    have h := Hub.localObserved_observed now saves item hub
    rw [run]
    generalize hub.localObserved now saves item = ret at h
    cases h with
    | skipped hn => exact hnone
    | unsaved hn hs => exact ⟨_, fun h hh => hh, rfl⟩
    | sent hn hs => exact ⟨_, fun h hh => hh, rfl⟩
  | put clipboard => exact hnone

/-- The name of a hub stays. -/
@[simp] theorem run_nodeId (o : HubOp σ) : (o.run B now hub).nodeId = hub.nodeId := by
  cases o with
  | deliver clip fromPeer =>
    rw [run_deliver]
    have h := hub.applyRemote_applied B now clip
    generalize hub.applyRemote B now clip = ret at h
    cases h <;> rfl
  | push item saves =>
    have h := Hub.localPush_pushed B now saves item hub
    rw [run]
    generalize hub.localPush B now saves item = ret at h
    cases h <;> rfl
  | observe item saves =>
    have h := Hub.localObserved_observed now saves item hub
    rw [run]
    generalize hub.localObserved now saves item = ret at h
    cases h <;> rfl
  | put clipboard => rfl

/-- What was accepted stays accepted. -/
theorem run_upTo {origin : String} {n : ℕ} (o : HubOp σ) (h : hub.seen.UpTo origin n) :
    (o.run B now hub).seen.UpTo origin n := by
  cases o with
  | deliver clip fromPeer =>
    rw [run_deliver]
    have happ := hub.applyRemote_applied B now clip
    generalize hub.applyRemote B now clip = ret at happ
    cases happ with
    | rejected reason hv => exact h
    | own hv ho => exact h
    | duplicate hv ho hf => exact h
    | present hv ho hf hp => exact h.update hf
    | failed hl e clipboard hset => exact h.update hl.fresh
    | stored hl item clipboard hset => exact h.update hl.fresh
  | push item saves =>
    have hpush := Hub.localPush_pushed B now saves item hub
    rw [run]
    generalize hub.localPush B now saves item = ret at hpush
    cases hpush <;> exact h
  | observe item saves =>
    have hobs := Hub.localObserved_observed now saves item hub
    rw [run]
    generalize hub.localObserved now saves item = ret at hobs
    cases hobs <;> exact h
  | put clipboard => exact h

end HubOp

/-! ## Lives -/

structure Lifetime (σ : Type) where
  hub : Hub σ
  now : ℕ

inductive LifeEvent (σ : Type)
  | op (o : HubOp σ)
  | tick

namespace Lifetime
variable {σ : Type} [Sha256]

def step (B : Backend σ) (s : Lifetime σ) : LifeEvent σ → Option (Lifetime σ)
  | .op o => some { s with hub := o.run B s.now s.hub }
  | .tick => some { s with now := s.now + 1 }

end Lifetime

/-- The backend `B`, which also lists the items that it was told to store. -/
def recording {σ : Type} (B : Backend σ) : Backend (σ × List Item) where
  get := fun s => B.get s.1
  set := fun item s => ((B.set item s.1).1, ((B.set item s.1).2, s.2 ++ [item]))

end Zsync
