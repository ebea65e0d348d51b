import Zsync.Hubs.Outcomes

/-! # An apply whose write fails

`apply_remote` enters the clip in the seen table before it asks the backend to store it, and does
not take the entry back when the backend fails.

* `LeavesDeliverable` asks that a failed apply changed neither table and that the same clip, when it
  comes again, is not answered as a duplicate.
* `leavesDeliverable_iff` says when that is so: exactly when the failing branch is not reached.
* `lost_after_failed_apply` follows the clip afterwards: every redelivery, by any peer and at any
  time, is acknowledged as a duplicate, and forwarded, without having been written.
-/

namespace Zsync
set_option autoImplicit false
set_option maxHeartbeats 250000
open Protocol

namespace Hub
variable {σ : Type} [Sha256] (B : Backend σ) (now : ℕ) (clip : Clip) (hub : Hub σ)

/-- `again` is the same copy: same origin, same sequence number. -/
def SameCopy (clip again : Clip) : Prop :=
  again.clipMeta.originId = clip.clipMeta.originId ∧ again.clipMeta.seq = clip.clipMeta.seq

def duplicateAck (clip : Clip) : ClipAck := ⟨clip.clipMeta.hash, true, "duplicate"⟩

def LeavesDeliverable : Prop :=
  ∀ e, (hub.applyRemote B now clip).res = .error e →
    (hub.applyRemote B now clip).hub.seen = hub.seen ∧
    (hub.applyRemote B now clip).hub.suppress = hub.suppress ∧
    ∀ later again, Verified again → SameCopy clip again →
      ((hub.applyRemote B now clip).hub.applyRemote B later again).res ≠ .ok (duplicateAck again)

/-! ## After the failure -/

/-- A hub whose seen table is at least as high answers with a duplicate. -/
theorem duplicate_of_sawClip {clip again : Clip} {hub : Hub σ} (hv : Verified again)
    (ho : clip.clipMeta.originId ≠ hub.nodeId) (hs : SameCopy clip again)
    {prev : ℕ} (hlast : hub.seen.last clip.clipMeta.originId = some prev)
    (hprev : clip.clipMeta.seq ≤ prev) (later : ℕ) :
    hub.applyRemote B later again = ⟨.ok (duplicateAck again), hub, []⟩ := by
  have hf : hub.seen.fresh again.clipMeta.originId again.clipMeta.seq = false := by
    rw [hs.1, hs.2, SeenSeq.fresh, hlast]
    simpa using hprev
  exact applyRemote_duplicate B later hv (by rw [hs.1]; exact ho) hf

/-- An error means that the clip reached a backend that failed. -/
theorem failed_of_error {e : HubError} (h : (hub.applyRemote B now clip).res = .error e) :
    Lands B clip hub ∧ (B.set (remoteItem clip) hub.clipboard).1.isOk = false ∧
    (hub.applyRemote B now clip).hub.nodeId = hub.nodeId ∧
    (hub.applyRemote B now clip).hub.seen.last clip.clipMeta.originId = some clip.clipMeta.seq := by
  have hap := applyRemote_applied B now clip hub
  generalize hub.applyRemote B now clip = ret at h hap
  cases hap with
  | rejected | own | duplicate | present | stored => cases h
  | failed hl e' clipboard hset =>
    refine ⟨hl, ?_, rfl, ?_⟩
    · rw [hset]
      rfl
    · exact Function.update_self ..

theorem error_of_failed {clip : Clip} {hub : Hub σ} (hl : Lands B clip hub)
    (hf : (B.set (remoteItem clip) hub.clipboard).1.isOk = false) :
    ∃ e, (hub.applyRemote B now clip).res = .error e := by
  cases hset : B.set (remoteItem clip) hub.clipboard with
  | mk res clipboard =>
    cases res with
    | ok item =>
      rw [hset] at hf
      cases hf
    | error e =>
      rw [applyRemote_failed B now hl hset]
      exact ⟨_, rfl⟩

/-- Once its apply has failed, every delivery of the copy is acknowledged as a duplicate, changes
nothing and is forwarded. -/
theorem lost_after_failed_apply {e : HubError} (h : (hub.applyRemote B now clip).res = .error e)
    {again : Clip} (hv : Verified again) (hs : SameCopy clip again) (later : ℕ) (fromPeer : String) :
    (hub.applyRemote B now clip).hub.applyFrom B later again fromPeer =
      ⟨.ok (duplicateAck again), (hub.applyRemote B now clip).hub, [⟨again, some fromPeer⟩]⟩ := by
  obtain ⟨hl, _, hn, hlast⟩ := failed_of_error B now clip hub h
  have ho : clip.clipMeta.originId ≠ (hub.applyRemote B now clip).hub.nodeId := by
    rw [hn]
    exact hl.remote
  unfold applyFrom
  rw [duplicate_of_sawClip B hv ho hs hlast (Nat.le_refl _)]
  rfl

/-! ## When a failed apply leaves the clip deliverable -/

theorem leavesDeliverable_iff {clip : Clip} (hv : Verified clip) :
    LeavesDeliverable B now clip hub ↔
      clip.clipMeta.originId = hub.nodeId ∨
      hub.seen.fresh clip.clipMeta.originId clip.clipMeta.seq = false ∨
      hub.present B clip.clipMeta.hash = true ∨
      (B.set (remoteItem clip) hub.clipboard).1.isOk = true := by
  constructor
  · intro h
    by_contra hn
    simp only [not_or, Bool.not_eq_true, Bool.not_eq_false] at hn
    obtain ⟨ho, hf, hp, hset⟩ := hn
    have hl : Lands B clip hub := ⟨hv, ho, hf, hp⟩
    obtain ⟨e, he⟩ := error_of_failed B now hl hset
    obtain ⟨_, _, hagain⟩ := h e he
    have hlost := lost_after_failed_apply B now clip hub he hv ⟨rfl, rfl⟩ now ""
    refine hagain now clip hv ⟨rfl, rfl⟩ ?_
    rw [← applyFrom_res B now clip _ "", hlost]
  · intro h e he
    obtain ⟨hl, hset, _, _⟩ := failed_of_error B now clip hub he
    have h' : ¬ (clip.clipMeta.originId = hub.nodeId ∨
        hub.seen.fresh clip.clipMeta.originId clip.clipMeta.seq = false ∨
        hub.present B clip.clipMeta.hash = true ∨
        (B.set (remoteItem clip) hub.clipboard).1.isOk = true) := by
      simp [hl.remote, hl.fresh, hl.absent, hset]
    exact absurd h h'

end Hub

/-! ### A clipboard that cannot be written -/

/-- `Memory` behind a disk that is full. -/
def fullBackend [Sha256] : Backend (Option Item) where
  get := memory.get
  set := fun _ s => (.error (.io .refused), s)

def desktop : Hub (Option Item) := Hub.new "desktop" none ⟨⟨0, []⟩, ⟨0, []⟩⟩ 10

theorem hiClip_undeliverable :
    letI := sampleSha256
    Verified hiClip ∧ ¬ Hub.LeavesDeliverable fullBackend 0 hiClip desktop := by
  let _ := sampleSha256
  have hv : Verified hiClip := by decide
  refine ⟨hv, fun h => ?_⟩
  rw [Hub.LeavesDeliverable] at h
  obtain ⟨_, _, hagain⟩ := h (.backend (.io .refused)) (by decide)
  exact hagain 0 hiClip hv ⟨rfl, rfl⟩ (by decide)

theorem leavesDeliverable_hiClip :
    letI := sampleSha256
    Hub.LeavesDeliverable memory 0 hiClip desktop :=
  let _ := sampleSha256
  (Hub.leavesDeliverable_iff memory 0 desktop (by decide : Verified hiClip)).mpr
    (.inr (.inr (.inr (by decide))))

end Zsync
