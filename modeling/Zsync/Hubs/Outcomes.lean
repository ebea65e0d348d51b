import Zsync.Model.Hub

/-! # What one hub operation can do

One inversion lemma for each operation of the hub. `Applied`, `Pushed` and `Observed` list the
outcomes of `apply_remote`, `local_push` and `local_observed`, each with the guards under which the
source reaches it, the hub it leaves and what it emits. Every later argument about hubs splits on
these outcomes and unfolds nothing.

* `Lands` is the guard of the last branch of `apply_remote`: the clip gets as far as the backend.
-/

namespace Zsync
set_option autoImplicit false
set_option maxHeartbeats 250000
open Protocol

namespace Hub
variable {σ : Type}

/-! ## Minting -/

/-- The hub after the sequence number was advanced. -/
def bumped (saves : Bool) (hub : Hub σ) : Hub σ :=
  { hub with state := (hub.state.nextSeq saves).2 }

/-- The sequence number that `pack` puts on its clip. -/
def nextSeq (hub : Hub σ) : ℕ := (hub.state.inner.seq + 1) % 2 ^ 64

def minted (mime name : String) (data : Bytes) (h : String) (hub : Hub σ) : Clip :=
  ⟨⟨hub.nodeId, hub.nextSeq, if mime = "" then detectMime data else mime, h, data.length, name⟩, data⟩

@[simp] theorem bumped_seq (saves : Bool) (hub : Hub σ) :
    (hub.bumped saves).state.inner.seq = hub.nextSeq := by
  cases saves <;> rfl

/-! ## `apply_remote` -/

section Apply
variable [Sha256] (B : Backend σ) (now : ℕ) (clip : Clip) (hub : Hub σ)

/-- The clip gets as far as `Backend::set`. -/
structure Lands : Prop where
  verified : Verified clip
  remote : clip.clipMeta.originId ≠ hub.nodeId
  fresh : hub.seen.fresh clip.clipMeta.originId clip.clipMeta.seq = true
  absent : hub.present B clip.clipMeta.hash = false

instance : Decidable (Lands B clip hub) :=
  decidable_of_iff (Verified clip ∧ clip.clipMeta.originId ≠ hub.nodeId ∧
      hub.seen.fresh clip.clipMeta.originId clip.clipMeta.seq = true ∧
      hub.present B clip.clipMeta.hash = false)
    ⟨fun h => ⟨h.1, h.2.1, h.2.2.1, h.2.2.2⟩, fun h => ⟨h.1, h.2, h.3, h.4⟩⟩

/-- The seen table after the clip was accepted. -/
def sawClip : Hub σ :=
  { hub with seen := ⟨Function.update hub.seen.last clip.clipMeta.originId (some clip.clipMeta.seq)⟩ }

inductive Applied : Ret σ ClipAck → Prop
  | rejected (reason : String) (h : ¬ Verified clip) :
    Applied ⟨.ok ⟨clip.clipMeta.hash, false, reason⟩, hub, []⟩
  | own (hv : Verified clip) (ho : clip.clipMeta.originId = hub.nodeId) :
    Applied ⟨.ok ⟨clip.clipMeta.hash, true, "own-origin"⟩, hub, []⟩
  | duplicate (hv : Verified clip) (ho : clip.clipMeta.originId ≠ hub.nodeId)
    (hf : hub.seen.fresh clip.clipMeta.originId clip.clipMeta.seq = false) :
    Applied ⟨.ok ⟨clip.clipMeta.hash, true, "duplicate"⟩, hub, []⟩
  | present (hv : Verified clip) (ho : clip.clipMeta.originId ≠ hub.nodeId)
    (hf : hub.seen.fresh clip.clipMeta.originId clip.clipMeta.seq = true)
    (hp : hub.present B clip.clipMeta.hash = true) :
    Applied ⟨.ok ⟨clip.clipMeta.hash, true, "already-present"⟩,
      (hub.sawClip clip).suppressed now clip.clipMeta.hash, []⟩
  | failed (hl : Lands B clip hub) (e : BackendError) (clipboard : σ)
    (hset : B.set (remoteItem clip) hub.clipboard = (.error e, clipboard)) :
    Applied ⟨.error (.backend e),
      { (hub.sawClip clip).suppressed now clip.clipMeta.hash with clipboard := clipboard }, []⟩
  | stored (hl : Lands B clip hub) (item : Item) (clipboard : σ)
    (hset : B.set (remoteItem clip) hub.clipboard = (.ok item, clipboard)) :
    Applied ⟨.ok ⟨item.hash, true, ""⟩,
      { (hub.sawClip clip).suppressed now clip.clipMeta.hash with clipboard := clipboard }.suppressed
        now item.hash, []⟩

omit [Sha256] in
theorem rejection_eq (e : ProtoError) :
    ∃ reason, rejection clip e = ⟨clip.clipMeta.hash, false, reason⟩ := by
  cases e <;> exact ⟨_, rfl⟩

theorem applyRemote_own {clip : Clip} {hub : Hub σ} (hv : Verified clip)
    (ho : clip.clipMeta.originId = hub.nodeId) :
    hub.applyRemote B now clip = ⟨.ok ⟨clip.clipMeta.hash, true, "own-origin"⟩, hub, []⟩ := by
  rw [applyRemote, (verifyClip_ok_iff clip).mpr hv]
  dsimp only
  rw [if_pos ho]

theorem applyRemote_duplicate {clip : Clip} {hub : Hub σ} (hv : Verified clip)
    (ho : clip.clipMeta.originId ≠ hub.nodeId)
    (hf : hub.seen.fresh clip.clipMeta.originId clip.clipMeta.seq = false) :
    hub.applyRemote B now clip = ⟨.ok ⟨clip.clipMeta.hash, true, "duplicate"⟩, hub, []⟩ := by
  rw [applyRemote, (verifyClip_ok_iff clip).mpr hv]
  dsimp only
  rw [if_neg ho, SeenSeq.accept_of_not_fresh hf]

theorem applyRemote_fresh {clip : Clip} {hub : Hub σ} (hv : Verified clip)
    (ho : clip.clipMeta.originId ≠ hub.nodeId)
    (hf : hub.seen.fresh clip.clipMeta.originId clip.clipMeta.seq = true) :
    hub.applyRemote B now clip =
      if hub.present B clip.clipMeta.hash then
        ⟨.ok ⟨clip.clipMeta.hash, true, "already-present"⟩,
          (hub.sawClip clip).suppressed now clip.clipMeta.hash, []⟩
      else
        match B.set (remoteItem clip) hub.clipboard with
        | (.error e, clipboard) => ⟨.error (.backend e),
            { (hub.sawClip clip).suppressed now clip.clipMeta.hash with clipboard := clipboard }, []⟩
        | (.ok stored, clipboard) => ⟨.ok ⟨stored.hash, true, ""⟩,
            { (hub.sawClip clip).suppressed now clip.clipMeta.hash with
              clipboard := clipboard }.suppressed now stored.hash, []⟩ := by
  rw [applyRemote, (verifyClip_ok_iff clip).mpr hv]
  dsimp only
  rw [if_neg ho, SeenSeq.accept_of_fresh hf]
  rfl

theorem applyRemote_present {clip : Clip} {hub : Hub σ} (hv : Verified clip)
    (ho : clip.clipMeta.originId ≠ hub.nodeId)
    (hf : hub.seen.fresh clip.clipMeta.originId clip.clipMeta.seq = true)
    (hp : hub.present B clip.clipMeta.hash = true) :
    hub.applyRemote B now clip = ⟨.ok ⟨clip.clipMeta.hash, true, "already-present"⟩,
      (hub.sawClip clip).suppressed now clip.clipMeta.hash, []⟩ := by
  rw [applyRemote_fresh B now hv ho hf, if_pos hp]

theorem applyRemote_failed {clip : Clip} {hub : Hub σ} (hl : Lands B clip hub) {e : BackendError}
    {clipboard : σ} (hset : B.set (remoteItem clip) hub.clipboard = (.error e, clipboard)) :
    hub.applyRemote B now clip = ⟨.error (.backend e),
      { (hub.sawClip clip).suppressed now clip.clipMeta.hash with clipboard := clipboard }, []⟩ := by
  rw [applyRemote_fresh B now hl.verified hl.remote hl.fresh, if_neg (by simp [hl.absent]), hset]

theorem applyRemote_stored {clip : Clip} {hub : Hub σ} (hl : Lands B clip hub) {item : Item}
    {clipboard : σ} (hset : B.set (remoteItem clip) hub.clipboard = (.ok item, clipboard)) :
    hub.applyRemote B now clip = ⟨.ok ⟨item.hash, true, ""⟩,
      { (hub.sawClip clip).suppressed now clip.clipMeta.hash with clipboard := clipboard }.suppressed
        now item.hash, []⟩ := by
  rw [applyRemote_fresh B now hl.verified hl.remote hl.fresh, if_neg (by simp [hl.absent]), hset]

theorem applyRemote_applied : Applied B now clip hub (hub.applyRemote B now clip) := by
  by_cases hv : Verified clip
  · by_cases ho : clip.clipMeta.originId = hub.nodeId
    · rw [applyRemote_own B now hv ho]
      exact .own hv ho
    · cases hf : hub.seen.fresh clip.clipMeta.originId clip.clipMeta.seq with
      | false =>
        rw [applyRemote_duplicate B now hv ho hf]
        exact .duplicate hv ho hf
      | true =>
        cases hp : hub.present B clip.clipMeta.hash with
        | true =>
          rw [applyRemote_present B now hv ho hf hp]
          exact .present hv ho hf hp
        | false =>
          have hl : Lands B clip hub := ⟨hv, ho, hf, hp⟩
          cases hset : B.set (remoteItem clip) hub.clipboard with
          | mk res clipboard =>
            cases res with
            | error e =>
              rw [applyRemote_failed B now hl hset]
              exact .failed hl e clipboard hset
            | ok item =>
              rw [applyRemote_stored B now hl hset]
              exact .stored hl item clipboard hset
  · cases hver : verifyClip clip with
    | ok u => exact absurd ((verifyClip_ok_iff clip).mp hver) hv
    | error e =>
      obtain ⟨reason, hr⟩ := rejection_eq clip e
      have hret : hub.applyRemote B now clip = ⟨.ok (rejection clip e), hub, []⟩ := by
        rw [applyRemote, hver]
      rw [hret, hr]
      exact .rejected reason hv

/-- `apply_from` leaves the hub of `apply_remote`. -/
theorem applyFrom_hub (fromPeer : String) :
    (hub.applyFrom B now clip fromPeer).hub = (hub.applyRemote B now clip).hub := by
  unfold applyFrom
  dsimp only
  split <;> rfl

theorem applyFrom_res (fromPeer : String) :
    (hub.applyFrom B now clip fromPeer).res = (hub.applyRemote B now clip).res := by
  unfold applyFrom
  dsimp only
  split <;> rfl

/-- `apply_from` forwards a verified clip whatever became of it, unless the backend failed. -/
def Forwards : Prop :=
  Verified clip ∧ (Lands B clip hub → (B.set (remoteItem clip) hub.clipboard).1.isOk = true)

instance : Decidable (Forwards B clip hub) := inferInstanceAs (Decidable (_ ∧ _))

theorem applyFrom_out (fromPeer : String) :
    (hub.applyFrom B now clip fromPeer).out =
      if Forwards B clip hub then [⟨clip, some fromPeer⟩] else [] := by
  have h := applyRemote_applied B now clip hub
  unfold applyFrom
  generalize hub.applyRemote B now clip = ret at h
  cases h with
  | rejected reason hv => exact (if_neg fun hf => hv hf.1).symm
  | own hv ho => exact (if_pos ⟨hv, fun hl => absurd ho hl.remote⟩).symm
  | duplicate hv ho hf =>
    exact (if_pos ⟨hv, fun hl => Bool.noConfusion (hf.symm.trans hl.fresh)⟩).symm
  | present hv ho hf hp =>
    exact (if_pos ⟨hv, fun hl => Bool.noConfusion (hl.absent.symm.trans hp)⟩).symm
  | failed hl e clipboard hset =>
    refine (if_neg fun hf => ?_).symm
    have hok := hf.2 hl
    rw [hset] at hok
    exact Bool.noConfusion hok
  | stored hl item clipboard hset =>
    refine (if_pos ⟨hl.verified, fun _ => ?_⟩).symm
    rw [hset]
    rfl

end Apply

/-! ## `local_push` and `local_observed` -/

section Local
variable [Sha256] (B : Backend σ) (now : ℕ) (saves : Bool) (item : Item) (hub : Hub σ)

/-- The item with its hash filled in. -/
def hashed : Item :=
  { item with hash := if item.hash = "" then Protocol.hash item.data else item.hash }

theorem hashed_of_ne {item : Item} (h : item.hash ≠ "") : hashed item = item := by
  rw [hashed, if_neg h]

theorem hashed_hash_ne (item : Item) : (hashed item).hash ≠ "" := by
  change (if item.hash = "" then Protocol.hash item.data else item.hash) ≠ ""
  split_ifs with h
  · exact hash_ne_empty item.data
  · exact h

theorem memory_set (s : Option Item) :
    memory.set item s = (.ok (hashed item), some (hashed item)) := rfl

/-- The hub that has written `stored` and suppressed it. -/
def wrote (clipboard : σ) (stored : Item) : Hub σ :=
  { hub.suppressed now (hashed item).hash with clipboard := clipboard }.suppressed now stored.hash

inductive Pushed : Ret σ Clip → Prop
  | tooLarge (h : maxClip < item.data.length) : Pushed ⟨.error .payloadTooLarge, hub, []⟩
  | failed (hl : item.data.length ≤ maxClip) (e : BackendError) (clipboard : σ)
    (hset : B.set (hashed item) hub.clipboard = (.error e, clipboard)) :
    Pushed ⟨.error (.backend e),
      { hub.suppressed now (hashed item).hash with clipboard := clipboard }, []⟩
  | unsaved (hl : item.data.length ≤ maxClip) (hs : saves = false) (stored : Item) (clipboard : σ)
    (hset : B.set (hashed item) hub.clipboard = (.ok stored, clipboard)) :
    Pushed ⟨.error .persistSeq, (hub.wrote now item clipboard stored).bumped false, []⟩
  | sent (hl : item.data.length ≤ maxClip) (hs : saves = true) (stored : Item) (clipboard : σ)
    (hset : B.set (hashed item) hub.clipboard = (.ok stored, clipboard)) :
    Pushed ⟨.ok (hub.minted stored.mime stored.name stored.data stored.hash),
      (hub.wrote now item clipboard stored).bumped true,
      [⟨hub.minted stored.mime stored.name stored.data stored.hash, none⟩]⟩

theorem localPush_pushed : Pushed B now saves item hub (hub.localPush B now saves item) := by
  by_cases hl : maxClip < item.data.length
  · rw [localPush, if_pos hl]
    exact .tooLarge hl
  · have hl' := Nat.not_lt.mp hl
    rw [localPush, if_neg hl]
    change Pushed B now saves item hub
      (match B.set (hashed item) hub.clipboard with
        | (.error e, clipboard) => _
        | (.ok stored, clipboard) => _)
    cases hset : B.set (hashed item) hub.clipboard with
    | mk res clipboard =>
      cases res with
      | error e => exact .failed hl' e clipboard hset
      | ok stored =>
        cases saves with
        | false => exact .unsaved hl' rfl stored clipboard hset
        | true => exact .sent hl' rfl stored clipboard hset

/-- What the watcher lets pass: neither empty nor oversized nor suppressed. -/
structure Notices : Prop where
  nonempty : item.data ≠ []
  fits : item.data.length ≤ maxClip
  unsuppressed : hub.suppress.has now (hashed item).hash = false

instance : Decidable (Notices now item hub) :=
  decidable_of_iff (item.data ≠ [] ∧ item.data.length ≤ maxClip ∧
      hub.suppress.has now (hashed item).hash = false)
    ⟨fun h => ⟨h.1, h.2.1, h.2.2⟩, fun h => ⟨h.1, h.2, h.3⟩⟩

inductive Observed : Ret σ (Option Clip) → Prop
  | skipped (h : ¬ Notices now item hub) : Observed ⟨.ok none, hub, []⟩
  | unsaved (h : Notices now item hub) (hs : saves = false) :
    Observed ⟨.error .persistSeq, (hub.suppressed now (hashed item).hash).bumped false, []⟩
  | sent (h : Notices now item hub) (hs : saves = true) :
    Observed ⟨.ok (some (hub.minted item.mime item.name item.data (hashed item).hash)),
      (hub.suppressed now (hashed item).hash).bumped true,
      [⟨hub.minted item.mime item.name item.data (hashed item).hash, none⟩]⟩

theorem localObserved_observed :
    Observed now saves item hub (hub.localObserved now saves item) := by
  by_cases he : item.data = []
  · rw [localObserved, if_pos he]
    exact .skipped fun h => h.nonempty he
  · by_cases hl : maxClip < item.data.length
    · rw [localObserved, if_neg he, if_pos hl]
      exact .skipped fun h => absurd h.fits (Nat.not_le.mpr hl)
    · rw [localObserved, if_neg he, if_neg hl]
      cases hs : hub.suppress.has now (hashed item).hash with
      | true =>
        rw [hashed] at hs
        dsimp only at hs ⊢
        rw [if_pos hs]
        exact .skipped fun h => Bool.noConfusion (h.unsuppressed.symm.trans hs)
      | false =>
        have hn : Notices now item hub := ⟨he, Nat.not_lt.mp hl, hs⟩
        rw [hashed] at hs
        dsimp only at hs ⊢
        rw [if_neg (by rw [hs]; exact Bool.false_ne_true)]
        cases saves with
        | false => exact .unsaved hn rfl
        | true => exact .sent hn rfl

/-- The watcher mints nothing exactly when it does not notice the item. -/
theorem localObserved_none_iff :
    (hub.localObserved now true item).res = .ok none ↔ ¬ Notices now item hub := by
  have h := localObserved_observed now true item hub
  generalize hub.localObserved now true item = ret at h
  cases h with
  | skipped h => exact ⟨fun _ => h, fun _ => rfl⟩
  | unsaved h hs => cases hs
  | sent h hs =>
    constructor
    · intro he
      cases he
    · intro hn
      exact absurd h hn

/-! ### What the two may emit -/

inductive Mints : Hub σ → List Outbound → Prop
  | silent (after : Hub σ) (hn : after.nodeId = hub.nodeId) (hs : after.seen = hub.seen)
    (hq : after.state.inner.seq = hub.state.inner.seq ∨ after.state.inner.seq = hub.nextSeq) :
    Mints after []
  | one (after : Hub σ) (clip : Clip) (hn : after.nodeId = hub.nodeId) (hs : after.seen = hub.seen)
    (hq : after.state.inner.seq = hub.nextSeq)
    (hid : clip.clipMeta.originId = hub.nodeId ∧ clip.clipMeta.seq = hub.nextSeq) :
    Mints after [⟨clip, none⟩]

theorem localPush_mints :
    Mints hub (hub.localPush B now saves item).hub (hub.localPush B now saves item).out := by
  have h := localPush_pushed B now saves item hub
  generalize hub.localPush B now saves item = ret at h
  cases h with
  | tooLarge h => exact .silent hub rfl rfl (.inl rfl)
  | failed hl e clipboard hset => exact .silent _ rfl rfl (.inl rfl)
  | unsaved hl hs stored clipboard hset => exact .silent _ rfl rfl (.inr (bumped_seq _ _))
  | sent hl hs stored clipboard hset => exact .one _ _ rfl rfl (bumped_seq _ _) ⟨rfl, rfl⟩

theorem localObserved_mints :
    Mints hub (hub.localObserved now saves item).hub (hub.localObserved now saves item).out := by
  have h := localObserved_observed now saves item hub
  generalize hub.localObserved now saves item = ret at h
  cases h with
  | skipped h => exact .silent hub rfl rfl (.inl rfl)
  | unsaved h hs => exact .silent _ rfl rfl (.inr (bumped_seq _ _))
  | sent h hs => exact .one _ _ rfl rfl (bumped_seq _ _) ⟨rfl, rfl⟩

end Local

/-- Applying a clip touches neither the identity nor the counter. -/
theorem applyRemote_kept [Sha256] (B : Backend σ) (now : ℕ) (clip : Clip) (hub : Hub σ) :
    (hub.applyRemote B now clip).hub.nodeId = hub.nodeId ∧
    (hub.applyRemote B now clip).hub.state = hub.state := by
  have h := applyRemote_applied B now clip hub
  generalize hub.applyRemote B now clip = ret at h
  cases h <;> exact ⟨rfl, rfl⟩

end Hub
end Zsync
