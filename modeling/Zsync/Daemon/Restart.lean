import Zsync.Hubs.UserCopies
import Zsync.Model.Watcher

/-! # What a restarted daemon sends

The first content that a watcher finds differs from the nothing that it remembers, and the hub's tables
are empty. So what was on the clipboard before goes out once more, under a new sequence number.

* `SilentAfterRestart` : as long as the content stays what it was, the watcher emits nothing.
* `silentAfterRestart_iff` : that is so exactly for content that is never sent.
-/

namespace Zsync
set_option autoImplicit false
set_option maxHeartbeats 250000
open Protocol Foundations

/-- The data on the clipboard, when it can be read and there is any. -/
def content {σ : Type} (B : Backend σ) (clipboard : σ) : Option Bytes :=
  match B.get clipboard with
  | .ok (some item) => some item.data
  | _ => none

/-- The watcher never sends this. -/
def Unsendable (data : Option Bytes) : Prop := ∀ d, data = some d → d = [] ∨ maxClip < d.length

theorem look_of_content {σ : Type} {B : Backend σ} {clipboard : σ} {data : Bytes}
    (h : content B clipboard = some data) (hne : data ≠ []) :
    ∃ item, look B clipboard = some item ∧ item.data = data := by
  unfold content at h
  unfold look
  cases hget : B.get clipboard with
  | error e => simp [hget] at h
  | ok found =>
    cases found with
    | none => simp [hget] at h
    | some item =>
      obtain rfl : item.data = data := by simpa [hget] using h
      exact ⟨item, if_neg hne, rfl⟩

theorem content_of_look {σ : Type} {B : Backend σ} {clipboard : σ} {item : Item}
    (h : look B clipboard = some item) : content B clipboard = some item.data ∧ item.data ≠ [] := by
  unfold look at h
  unfold content
  cases hget : B.get clipboard with
  | error e => simp [hget] at h
  | ok found =>
    cases found with
    | none => simp [hget] at h
    | some other =>
      rw [hget] at h
      dsimp only at h
      split_ifs at h with hne
      obtain rfl := Option.some.inj h
      exact ⟨rfl, hne⟩

namespace Watcher
variable {σ : Type} [Sha256] (B : Backend σ)

/-- After a restart on unchanged content, the watcher emits nothing while the content stays. -/
def SilentAfterRestart (s : Watcher σ) : Prop :=
  ∀ clipboard es t, content B clipboard = content B s.hub.clipboard →
    exec (step B) (s.restarted clipboard) es = some t →
    Along (step B) (fun u => content B u.hub.clipboard = content B s.hub.clipboard)
      (s.restarted clipboard) es → t.emitted = []

variable {B} {s t : Watcher σ}

/-- A watcher that finds content it never sends emits nothing. -/
theorem settle_emitted (saves : Bool) (hu : Unsendable (content B s.hub.clipboard)) :
    (s.settle B saves).emitted = s.emitted := by
  unfold settle
  dsimp only
  cases hl : look B s.hub.clipboard with
  | none => rfl
  | some item =>
    dsimp only
    split_ifs
    · rfl
    · obtain ⟨hcontent, hne⟩ := content_of_look hl
      have hbig : maxClip < item.data.length := (hu item.data hcontent).resolve_left hne
      have hskip : ¬ Hub.Notices s.now item s.hub := fun hn => absurd hn.fits (Nat.not_le.mpr hbig)
      have h := Hub.localObserved_observed s.now saves item s.hub
      generalize s.hub.localObserved s.now saves item = ret at h
      cases h with
      | skipped _ => exact List.append_nil _
      | unsaved hn _ => exact absurd hn hskip
      | sent hn _ => exact absurd hn hskip

theorem step_emitted {e : WatchEvent σ} (hu : Unsendable (content B s.hub.clipboard))
    (h : s.emitted = []) (hs : step B s e = some t) : t.emitted = [] := by
  cases e with
  | op o =>
    cases o with
    | observe item saves => cases hs
    | deliver clip fromPeer =>
      obtain rfl := Option.some.inj hs
      exact h
    | push item saves =>
      obtain rfl := Option.some.inj hs
      exact h
    | put clipboard =>
      obtain rfl := Option.some.inj hs
      exact h
  | tick =>
    obtain rfl := Option.some.inj hs
    exact h
  | wake =>
    simp only [step] at hs
    split_ifs at hs
    obtain rfl := Option.some.inj hs
    unfold wake
    split
    · exact h
    · split_ifs <;> exact h
  | settle saves =>
    simp only [step] at hs
    split_ifs at hs
    obtain rfl := Option.some.inj hs
    rw [settle_emitted saves hu, h]
  | restart clipboard =>
    obtain rfl := Option.some.inj hs
    rfl

theorem run_emitted {data : Option Bytes} (hu : Unsendable data) {es : List (WatchEvent σ)}
    (h : s.emitted = []) (hr : exec (step B) s es = some t)
    (hkeep : Along (step B) (fun u => content B u.hub.clipboard = data) s es) : t.emitted = [] := by
  induction es generalizing s with
  | nil =>
    obtain rfl := Option.some.inj hr
    exact h
  | cons e es ih =>
    obtain ⟨u, hu', hr⟩ := exec_cons_eq_some _ hr
    have hcontent : content B s.hub.clipboard = data := hkeep.1
    exact ih (step_emitted (hcontent ▸ hu) h hu') hr (hkeep.2 u hu')

omit [Sha256] in
theorem wake_of_look {item : Item} (hl : look B s.hub.clipboard = some item) (hne : item.data ≠ s.last) :
    s.wake B = { s with debouncing := true } := by
  unfold wake
  rw [hl]
  exact if_neg hne

/-- A watcher that notices what it finds sends it, and leaves the clipboard as it is. -/
theorem settle_sends {item : Item} (hl : look B s.hub.clipboard = some item)
    (hne : item.data ≠ s.last) (hn : Hub.Notices s.now item s.hub) :
    (s.settle B true).hub.clipboard = s.hub.clipboard ∧ (s.settle B true).emitted ≠ [] := by
  unfold settle
  dsimp only
  rw [hl]
  dsimp only
  rw [if_neg hne]
  have hobs := Hub.localObserved_observed s.now true item s.hub
  generalize s.hub.localObserved s.now true item = ret at hobs
  cases hobs with
  | skipped hskip => exact absurd hn hskip
  | unsaved _ hs => cases hs
  | sent _ _ =>
    refine ⟨rfl, fun hnil => ?_⟩
    obtain ⟨_, hout⟩ := List.append_eq_nil_iff.mp hnil
    cases hout

/-- A restarted daemon notices whatever can be sent. -/
theorem restarted_notices {item : Item} (hne : item.data ≠ []) (hfits : item.data.length ≤ maxClip)
    (clipboard : σ) : Hub.Notices s.now item (s.restarted clipboard).hub where
  nonempty := hne
  fits := hfits
  unsuppressed := by
    show (Suppress.new s.ttl Hub.ringMax).has s.now (Hub.hashed item).hash = false
    simp [Suppress.has, Suppress.new]

/-- The two sleeps after a restart, when there is something to send. -/
theorem restarted_sends {item : Item} (hl : look B s.hub.clipboard = some item)
    (hfits : item.data.length ≤ maxClip) :
    ∃ t, exec (step B) (s.restarted s.hub.clipboard) [.wake, .settle true] = some t ∧
      t.emitted ≠ [] ∧
      Along (step B) (fun u => content B u.hub.clipboard = content B s.hub.clipboard)
        (s.restarted s.hub.clipboard) [.wake, .settle true] := by
  have hne : item.data ≠ [] := (content_of_look hl).2
  let r : Watcher σ := { s.restarted s.hub.clipboard with debouncing := true }
  have hwake : step B (s.restarted s.hub.clipboard) .wake = some r :=
    congrArg some (wake_of_look hl hne)
  have hsettle : step B r (.settle true) = some (r.settle B true) := rfl
  obtain ⟨hclip, hsent⟩ := settle_sends (s := r) hl hne (restarted_notices hne hfits s.hub.clipboard)
  refine ⟨r.settle B true, ?_, hsent, rfl, fun u hu => ?_⟩
  · rw [exec_cons_of_step _ hwake, exec_cons_of_step _ hsettle, exec_nil]
  · obtain rfl := Option.some.inj (hwake.symm.trans hu)
    refine ⟨rfl, fun v hv => ?_⟩
    obtain rfl := Option.some.inj (hsettle.symm.trans hv)
    show content B (r.settle B true).hub.clipboard = _
    rw [hclip]
    rfl

/-- A restarted daemon is silent about the content it finds exactly when that content cannot be read,
is empty, or is too large. -/
theorem silentAfterRestart_iff (B : Backend σ) (s : Watcher σ) :
    SilentAfterRestart B s ↔ Unsendable (content B s.hub.clipboard) := by
  constructor
  · intro hsilent data hdata
    by_cases hne : data = []
    · exact .inl hne
    · refine .inr (Nat.not_le.mp fun hfits => ?_)
      obtain ⟨item, hl, rfl⟩ := look_of_content hdata hne
      obtain ⟨t, hr, hsent, hkeep⟩ := restarted_sends hl hfits
      exact hsent (hsilent s.hub.clipboard _ t rfl hr hkeep)
  · intro hu clipboard es t hsame hr hkeep
    exact run_emitted hu rfl hr hkeep

end Watcher

/-! ### `hi` before and after a restart -/

def hiStart [Sha256] : Watcher (Option Item) := Watcher.boot "desktop" (some hiItem) ⟨0, []⟩ 5 0

/-- The watcher sends `hi` as number one, and after the restart as number two. -/
theorem hi_sentAgain :
    letI := sampleSha256
    ∃ s, exec (Watcher.step memory) hiStart [.wake, .settle true] = some s ∧
      s.emitted.map (fun o => (o.clip.clipMeta.seq, o.clip.data)) = [(1, hiItem.data)] ∧
      ¬ Watcher.SilentAfterRestart memory s := by
  let _ := sampleSha256
  refine ⟨_, rfl, by decide, fun hsilent => ?_⟩
  have h := hsilent (some hiItem) [.wake, .settle true] _ rfl rfl
    ⟨rfl, fun u hu => by
      obtain rfl := Option.some.inj hu
      exact ⟨rfl, fun v hv => by
        obtain rfl := Option.some.inj hv
        exact rfl⟩⟩
  revert h
  decide

end Zsync
