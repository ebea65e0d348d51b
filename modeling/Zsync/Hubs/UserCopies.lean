import Zsync.Model.Lifetime

/-! # Which copies of the user are sent

The echo table has two parts. An entry of its map counts for `suppress_ttl`; an entry of its ring
counts until 64 later ones have pushed it out, however old it is. What the user copies again is
swallowed as long as its hash is in the ring.

* `Handled` : when the hub wrote a content or saw it on the clipboard.
* `Forgotten` : that was longer ago than `suppress_ttl`, and something else has been seen since.
* `userCopy_sent_iff` : when a copy of such content is minted and sent.
-/

namespace Zsync
set_option autoImplicit false
set_option maxHeartbeats 250000
open Protocol Foundations

/-- The hub wrote a content or saw it, the latter when the watcher `observed` it. -/
structure Handled where
  time : ℕ
  hash : String
  observed : Bool
  deriving DecidableEq, Repr

/-- Every time the hub handled the content was longer ago than `ttl`. -/
def Old (handled : List Handled) (ttl now : ℕ) (hash : String) : Prop :=
  ∀ x ∈ handled, x.hash = hash → ttl < now - x.time

instance (handled : List Handled) (ttl now : ℕ) (hash : String) :
    Decidable (Old handled ttl now hash) :=
  inferInstanceAs (Decidable (∀ x ∈ handled, _))

/-- The content is old, and the watcher has observed something else since it was last handled. -/
structure Forgotten (handled : List Handled) (ttl now : ℕ) (hash : String) : Prop where
  old : Old handled ttl now hash
  since : ∃ before x after, handled = before ++ x :: after ∧ x.observed = true ∧ x.hash ≠ hash ∧
    ∀ y ∈ after, y.hash ≠ hash

namespace Lifetime
variable {σ : Type} [Sha256]

/-- What the hub handles in one step. -/
def handles (B : Backend σ) (s : Lifetime σ) : LifeEvent σ → Lifetime σ → List Handled
  | .op (.observe item saves), _ =>
    ((HubOp.observe item saves).touches B s.hub).map fun h => ⟨s.now, h, true⟩
  | .op o, _ => (o.touches B s.hub).map fun h => ⟨s.now, h, false⟩
  | .tick, _ => []

def start (nodeId : String) (clipboard : σ) (state : StateFile) (ttl : ℕ) :
    Lifetime σ × List Handled :=
  (⟨Hub.new nodeId clipboard state ttl, 0⟩, [])

/-- Each entry of the map stands for a time at which the hub handled the content. -/
structure Traced (ttl : ℕ) (s : Lifetime σ × List Handled) : Prop where
  ttl_eq : s.1.hub.suppress.ttl = ttl
  items : ∀ h t, s.1.hub.suppress.items h = some t → ∃ x ∈ s.2, x.hash = h ∧ x.time = t

variable {B : Backend σ}

omit [Sha256] in
theorem traced_start (nodeId : String) (clipboard : σ) (state : StateFile) (ttl : ℕ) :
    Traced ttl (start nodeId clipboard state ttl) :=
  ⟨rfl, fun _ _ h => nomatch h⟩

theorem mem_handles {s : Lifetime σ} (t : Lifetime σ) {o : HubOp σ} {h : String}
    (hh : h ∈ o.touches B s.hub) : ∃ x ∈ handles B s (.op o) t, x.hash = h ∧ x.time = s.now := by
  cases o with
  | observe item saves => exact ⟨⟨s.now, h, true⟩, List.mem_map.mpr ⟨h, hh, rfl⟩, rfl, rfl⟩
  | deliver clip fromPeer => exact ⟨⟨s.now, h, false⟩, List.mem_map.mpr ⟨h, hh, rfl⟩, rfl, rfl⟩
  | push item saves => exact ⟨⟨s.now, h, false⟩, List.mem_map.mpr ⟨h, hh, rfl⟩, rfl, rfl⟩
  | put clipboard => exact ⟨⟨s.now, h, false⟩, List.mem_map.mpr ⟨h, hh, rfl⟩, rfl, rfl⟩

theorem Traced.step {ttl : ℕ} {s t : Lifetime σ × List Handled} {e : LifeEvent σ}
    (h : Traced ttl s) (hs : recorded (Lifetime.step B) (handles B) s e = some t) : Traced ttl t := by
  obtain ⟨hstep, hnote⟩ := recorded_eq_some hs
  cases e with
  | op o =>
    obtain hsame := Option.some.inj hstep
    obtain ⟨hs, hsub, hadds⟩ : ∃ hs, (∀ h ∈ hs, h ∈ o.touches B s.1.hub) ∧
        (o.run B s.1.now s.1.hub).suppress = s.1.hub.suppress.adds s.1.now hs := o.run_suppress
    have hsup : t.1.hub.suppress = s.1.hub.suppress.adds s.1.now hs := by
      rw [← hsame]
      exact hadds
    refine ⟨by rw [hsup, Suppress.adds_ttl, h.ttl_eq], fun x time hx => ?_⟩
    rw [hsup] at hx
    rw [hnote]
    obtain hold | ⟨hmem, rfl⟩ := Suppress.adds_items hx
    · obtain ⟨y, hy, hyx⟩ := h.items x time hold
      exact ⟨y, List.mem_append_left _ hy, hyx⟩
    · obtain ⟨y, hy, hyx⟩ := mem_handles t.1 (hsub x hmem)
      exact ⟨y, List.mem_append_right _ hy, hyx⟩
  | tick =>
    obtain hsame := Option.some.inj hstep
    refine ⟨by rw [← hsame]; exact h.ttl_eq, fun x time hx => ?_⟩
    rw [← hsame] at hx
    obtain ⟨y, hy, hyx⟩ := h.items x time hx
    rw [hnote]
    exact ⟨y, List.mem_append_left _ hy, hyx⟩

/-- The copy is minted and sent to the peers. -/
def Sent (ret : Ret σ (Option Clip)) (data : Bytes) : Prop :=
  ∃ clip, ret.res = .ok (some clip) ∧ ret.out = [⟨clip, none⟩] ∧ clip.data = data

theorem sent_iff (now : ℕ) (saves : Bool) (item : Item) (hub : Hub σ) :
    Sent (hub.localObserved now saves item) item.data ↔
      Hub.Notices now item hub ∧ saves = true := by
  have h := Hub.localObserved_observed now saves item hub
  generalize hub.localObserved now saves item = ret at h
  cases h with
  | skipped hn =>
    constructor
    · rintro ⟨clip, hres, -⟩
      cases hres
    · intro hs
      exact absurd hs.1 hn
  | unsaved hn hs =>
    constructor
    · rintro ⟨clip, hres, -⟩
      cases hres
    · intro h
      exact Bool.noConfusion (hs.symm.trans h.2)
  | sent hn hs => exact ⟨fun _ => ⟨hn, hs⟩, fun _ => ⟨_, rfl, rfl, rfl⟩⟩

/-- Of content that the hub has not handled for `ttl`, a copy is sent exactly when it is not empty,
its sequence number can be saved, and its hash is not in the ring. Whether something else has been
observed since makes no difference. -/
theorem userCopy_sent_iff {nodeId : String} {clipboard : σ} {state : StateFile} {ttl : ℕ}
    {es : List (LifeEvent σ)} {s : Lifetime σ} {handled : List Handled}
    (hr : exec (recorded (Lifetime.step B) (handles B)) (start nodeId clipboard state ttl) es =
      some (s, handled))
    (item : Item) (saves : Bool) (hfits : item.data.length ≤ maxClip)
    (hold : Old handled ttl s.now (Hub.hashed item).hash) :
    Sent (s.hub.localObserved s.now saves item) item.data ↔
      item.data ≠ [] ∧ saves = true ∧ (Hub.hashed item).hash ∉ s.hub.suppress.ring := by
  have h : Traced ttl (s, handled) :=
    exec_invariant (fun _ _ _ h hs => h.step hs) (traced_start nodeId clipboard state ttl) hr
  have hrecent : ¬ s.hub.suppress.Recent s.now (Hub.hashed item).hash := by
    rintro ⟨t, ht, hle⟩
    obtain ⟨x, hx, hhash, rfl⟩ := h.items _ t ht
    rw [h.ttl_eq] at hle
    exact absurd (hold x hx hhash) (Nat.not_lt.mpr hle)
  have hhas : s.hub.suppress.has s.now (Hub.hashed item).hash = false ↔
      (Hub.hashed item).hash ∉ s.hub.suppress.ring := by
    rw [← Bool.not_eq_true, Suppress.has_iff]
    simp [Hub.hashed_hash_ne, hrecent]
  rw [sent_iff]
  constructor
  · rintro ⟨hn, hs⟩
    exact ⟨hn.nonempty, hs, hhas.mp hn.unsuppressed⟩
  · rintro ⟨hne, hs, hring⟩
    exact ⟨⟨hne, hfits, hhas.mpr hring⟩, hs⟩

end Lifetime

/-! ### `hi`, then `yo`, then `hi` again -/

def hiItem [Sha256] : Item := Item.new "" [104, 105]
def yoItem [Sha256] : Item := Item.new "" [121, 111]

/-- The user copies `hi` and then `yo`, ten ticks apart, and ten more ticks pass. -/
def copyTwice [Sha256] : List (LifeEvent (Option Item)) :=
  [.op (.put (some hiItem)), .op (.observe hiItem true)] ++ List.replicate 10 .tick ++
    [.op (.put (some yoItem)), .op (.observe yoItem true)] ++ List.replicate 10 .tick

def desktopStart : Lifetime (Option Item) × List Handled :=
  Lifetime.start "desktop" none ⟨⟨0, []⟩, ⟨0, []⟩⟩ 5

/-- A copy of `yo` after `hi` is sent. -/
theorem otherCopy_sent :
    letI := sampleSha256
    ∃ s handled, exec (recorded (Lifetime.step memory) (Lifetime.handles memory)) desktopStart
        (copyTwice.take 13) = some (s, handled) ∧
      Lifetime.Sent (s.hub.localObserved s.now true yoItem) yoItem.data := by
  let _ := sampleSha256
  obtain ⟨⟨s, handled⟩, hr⟩ : ∃ t, exec (recorded (Lifetime.step memory) (Lifetime.handles memory))
      desktopStart (copyTwice.take 13) = some t := ⟨_, rfl⟩
  refine ⟨s, handled, hr, (Lifetime.userCopy_sent_iff hr yoItem true (by decide) ?_).mpr ?_⟩
  · obtain ⟨rfl, rfl⟩ := Prod.mk.inj (Option.some.inj hr)
    decide
  · obtain ⟨rfl, rfl⟩ := Prod.mk.inj (Option.some.inj hr)
    decide

/-- The third copy, of `hi` again, is swallowed. -/
theorem copyAgain_swallowed :
    letI := sampleSha256
    ∃ s handled, exec (recorded (Lifetime.step memory) (Lifetime.handles memory)) desktopStart
        copyTwice = some (s, handled) ∧ Forgotten handled 5 s.now (Hub.hashed hiItem).hash ∧
      hiItem.data.length ≤ maxClip ∧
      ¬ Lifetime.Sent (s.hub.localObserved s.now true hiItem) hiItem.data := by
  let _ := sampleSha256
  refine ⟨_, _, rfl, ⟨by decide, ?_⟩, by decide, ?_⟩
  · exact ⟨[⟨0, (Hub.hashed hiItem).hash, true⟩], ⟨10, (Hub.hashed yoItem).hash, true⟩, [], rfl, rfl,
      by decide, fun _ hy => absurd hy List.not_mem_nil⟩
  · intro hsent
    have hn := ((Lifetime.sent_iff _ _ _ _).mp hsent).1.unsuppressed
    revert hn
    decide

end Zsync
