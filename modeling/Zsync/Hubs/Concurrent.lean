import Zsync.Foundations.Runs
import Zsync.Hubs.Agreement
import Zsync.Model.Applying

/-! # Clips of one origin that are applied at the same time

`SeenSeq` decides under its lock which clips are new, and each call writes its clip later, under no lock.
A call that is overtaken in between writes an older clip over a newer one.

* `Advanced` : what one step of a call does.
* `KeepsNewest` : when all calls have returned well, the clipboard holds the clip with the highest number.
* `inOrder_keepsNewest` : that is so in every state of a run in which no call writes after the call of a
  newer clip has written, or has found its content there; `Inv.step_iff` says that this is exact for
  each step.
-/

namespace Zsync
set_option autoImplicit false
set_option maxHeartbeats 250000
open Protocol Foundations

/-- In the states `Good`, which no write leaves, a write of an item that is `Given` is what is read afterwards,
if it succeeds. -/
structure Returns {σ : Type} (B : Backend σ) (Good : σ → Prop) (Given : Item → Prop) : Prop where
  stays : ∀ item s, Good s → Good (B.set item s).2
  got : ∀ {item s stored s'}, Good s → Given item → item.data.length ≤ maxClip →
    B.set item s = (.ok stored, s') → stored.data = item.data ∧
      ∃ back, B.get s' = .ok (some back) ∧ back.data = item.data ∧ back.hash = item.hash

theorem Exact.returns {σ : Type} {B : Backend σ} (hB : Exact B) :
    Returns B (fun _ => True) fun item => item.hash ≠ "" := by
  refine ⟨fun _ _ _ => trivial, fun {item s stored s'} _ hne hfits h => ?_⟩
  obtain ⟨stored', s'', hset, hget, hdata, hhash⟩ := hB item s hne hfits
  obtain ⟨hok, rfl⟩ := Prod.mk.inj (h.symm.trans hset)
  obtain rfl := Except.ok.inj hok
  exact ⟨hdata, stored, hget, hdata, hhash⟩

namespace Applying
variable {σ : Type}

def clip : Applying → Option Clip
  | .verified clip | .accepted clip | .present clip | .absent clip | .storing clip
  | .stored clip _ => some clip
  | .returned _ => none

/-- The call has written its clip, or has found its content there, or has nothing to write. -/
def settled : Applying → Bool
  | .present _ | .stored _ _ | .returned _ => true
  | .verified _ | .accepted _ | .absent _ | .storing _ => false

inductive Advanced (B : Backend σ) (now : ℕ) (hub : Hub σ) : Applying → Hub σ → Applying → Prop
  | stale (clip : Clip) (h : hub.seen.fresh clip.clipMeta.originId clip.clipMeta.seq = false) :
    Advanced B now hub (.verified clip) hub
      (.returned (.ok ⟨clip.clipMeta.hash, true, "duplicate"⟩))
  | fresh (clip : Clip) (h : hub.seen.fresh clip.clipMeta.originId clip.clipMeta.seq = true) :
    Advanced B now hub (.verified clip) (hub.sawClip clip) (.accepted clip)
  | found (clip : Clip) (h : hub.present B clip.clipMeta.hash = true) :
    Advanced B now hub (.accepted clip) hub (.present clip)
  | missing (clip : Clip) (h : hub.present B clip.clipMeta.hash = false) :
    Advanced B now hub (.accepted clip) hub (.absent clip)
  | kept (clip : Clip) : Advanced B now hub (.present clip) (hub.suppressed now clip.clipMeta.hash)
      (.returned (.ok ⟨clip.clipMeta.hash, true, "already-present"⟩))
  | announced (clip : Clip) :
    Advanced B now hub (.absent clip) (hub.suppressed now clip.clipMeta.hash) (.storing clip)
  | failed (clip : Clip) (e : BackendError) (clipboard : σ)
    (h : B.set (Hub.remoteItem clip) hub.clipboard = (.error e, clipboard)) :
    Advanced B now hub (.storing clip) { hub with clipboard := clipboard }
      (.returned (.error (.backend e)))
  | stored (clip : Clip) (item : Item) (clipboard : σ)
    (h : B.set (Hub.remoteItem clip) hub.clipboard = (.ok item, clipboard)) :
    Advanced B now hub (.storing clip) { hub with clipboard := clipboard } (.stored clip item.hash)
  | closed (clip : Clip) (h : String) : Advanced B now hub (.stored clip h) (hub.suppressed now h)
      (.returned (.ok ⟨h, true, ""⟩))

theorem advance_advanced {B : Backend σ} {now : ℕ} {hub hub' : Hub σ} {call call' : Applying}
    (h : advance B now hub call = some (hub', call')) : Advanced B now hub call hub' call' := by
  cases call with
  | verified clip =>
    cases hf : hub.seen.fresh clip.clipMeta.originId clip.clipMeta.seq with
    | false =>
      rw [advance, SeenSeq.accept_of_not_fresh hf] at h
      obtain ⟨rfl, rfl⟩ := Prod.mk.inj (Option.some.inj h)
      exact .stale clip hf
    | true =>
      rw [advance, SeenSeq.accept_of_fresh hf] at h
      obtain ⟨rfl, rfl⟩ := Prod.mk.inj (Option.some.inj h)
      exact .fresh clip hf
  | accepted clip =>
    rw [advance] at h
    split_ifs at h with hp
    · obtain ⟨rfl, rfl⟩ := Prod.mk.inj (Option.some.inj h)
      exact .found clip hp
    · obtain ⟨rfl, rfl⟩ := Prod.mk.inj (Option.some.inj h)
      exact .missing clip (Bool.eq_false_iff.mpr hp)
  | present clip =>
    obtain ⟨rfl, rfl⟩ := Prod.mk.inj (Option.some.inj h)
    exact .kept clip
  | absent clip =>
    obtain ⟨rfl, rfl⟩ := Prod.mk.inj (Option.some.inj h)
    exact .announced clip
  | storing clip =>
    cases hset : B.set (Hub.remoteItem clip) hub.clipboard with
    | mk res clipboard =>
      rw [advance, hset] at h
      cases res with
      | error e =>
        obtain ⟨rfl, rfl⟩ := Prod.mk.inj (Option.some.inj h)
        exact .failed clip e clipboard hset
      | ok item =>
        obtain ⟨rfl, rfl⟩ := Prod.mk.inj (Option.some.inj h)
        exact .stored clip item clipboard hset
  | stored clip hash =>
    obtain ⟨rfl, rfl⟩ := Prod.mk.inj (Option.some.inj h)
    exact .closed clip hash
  | returned res => cases h

theorem begin_verified [Sha256] {clip clip' : Clip} {hub : Hub σ} (h : begin clip hub = .verified clip') :
    clip' = clip ∧ Verified clip := by
  unfold begin at h
  cases hv : verifyClip clip with
  | error e => simp [hv] at h
  | ok _ =>
    simp only [hv] at h
    split_ifs at h
    obtain rfl := Applying.verified.inj h
    exact ⟨rfl, (verifyClip_ok_iff _).mp hv⟩

/-- A call begins with its first step, or has returned well. -/
theorem begin_cases [Sha256] (clip : Clip) (hub : Hub σ) :
    begin clip hub = .verified clip ∨ ∃ ack, begin clip hub = .returned (.ok ack) := by
  unfold begin
  cases verifyClip clip with
  | error e => exact .inr ⟨_, rfl⟩
  | ok _ =>
    dsimp only
    split_ifs
    · exact .inr ⟨_, rfl⟩
    · exact .inl rfl

end Applying

namespace Applying.Advanced
variable {σ : Type} {B : Backend σ} {now : ℕ} {hub hub' : Hub σ} {call call' : Applying}

theorem clip_kept (h : Advanced B now hub call hub' call') : ∀ c ∈ call'.clip, c ∈ call.clip := by
  cases h <;> first | exact fun _ hc => hc | exact fun _ hc => nomatch hc

theorem not_verified (h : Advanced B now hub call hub' call') (c : Clip) : call' ≠ .verified c := by
  cases h <;> simp

theorem not_returned (h : Advanced B now hub call hub' call') (res : Except HubError ClipAck) :
    call ≠ .returned res := by
  cases h <;> simp

/-- The table of numbers changes only when a clip is accepted. -/
theorem seen_kept (h : Advanced B now hub call hub' call') (hnot : ∀ c, call' ≠ .accepted c) :
    hub'.seen = hub.seen := by
  cases h with
  | fresh clip _ => exact absurd rfl (hnot clip)
  | _ => rfl

theorem of_accepted {clip : Clip} (h : Advanced B now hub call hub' (.accepted clip)) :
    call = .verified clip ∧ hub' = hub.sawClip clip ∧
      hub.seen.fresh clip.clipMeta.originId clip.clipMeta.seq = true := by
  cases h with
  | fresh _ hf => exact ⟨rfl, rfl, hf⟩

theorem good {Good : σ → Prop} {Given : Item → Prop} (hB : Returns B Good Given)
    (h : Advanced B now hub call hub' call') (hgood : Good hub.clipboard) : Good hub'.clipboard := by
  cases h with
  | failed clip e clipboard hset =>
    have hstays := hB.stays (Hub.remoteItem clip) hub.clipboard hgood
    rwa [hset] at hstays
  | stored clip item clipboard hset =>
    have hstays := hB.stays (Hub.remoteItem clip) hub.clipboard hgood
    rwa [hset] at hstays
  | _ => exact hgood

end Applying.Advanced

/-! ## What is to be kept -/

namespace ApplyCalls
variable {σ : Type} (B : Backend σ)

/-- Every call has returned, and none with an error. -/
def AllReturned (s : ApplyCalls σ) : Prop :=
  ∀ i call, s.calls i = some call → ∃ ack, call = .returned (.ok ack)

def Failed (s : ApplyCalls σ) : Prop := ∃ i e, s.calls i = some (.returned (.error e))

/-- The call that was accepted last. -/
def newest (s : ApplyCalls σ) : Option (ℕ × Clip) := s.order.getLast?

def settled (s : ApplyCalls σ) (i : ℕ) : Bool := (s.calls i).any Applying.settled

/-- The clip that the next step of call `i` writes. -/
def writes (s : ApplyCalls σ) (i : ℕ) : Option Clip :=
  match s.calls i with
  | some (.storing clip) => some clip
  | _ => none

/-- When all calls have returned well, the clipboard holds the clip that was accepted last, and no clip
with a higher number was delivered. -/
def KeepsNewest [Sha256] (s : ApplyCalls σ) : Prop :=
  s.AllReturned → ∀ p, s.newest = some p →
    s.hub.Holds B p.2.data ∧ ∀ c ∈ s.delivered, c.clipMeta.seq ≤ p.2.clipMeta.seq

/-- Once the call of the newest clip has settled, the clipboard holds this clip. -/
def NewestStands [Sha256] (s : ApplyCalls σ) : Prop :=
  ∀ p, s.newest = some p → s.settled p.1 = true → s.hub.Holds B p.2.data

/-- No call writes after the call of a newer clip has settled, unless it writes the same. -/
def InOrder (s : ApplyCalls σ) : ApplyEvent → Prop
  | .advance i => ∀ clip ∈ s.writes i, ∀ p ∈ s.newest, p.1 ≠ i → s.settled p.1 = true →
      clip.data = p.2.data
  | _ => True

instance (s : ApplyCalls σ) : ∀ e, Decidable (InOrder s e)
  | .advance _ => inferInstanceAs (Decidable (∀ clip ∈ _, _))
  | .deliver _ _ | .tick => inferInstanceAs (Decidable True)

/-- Only clips of `o` with contents among `S` are delivered, and only items that are `Given` come of them. -/
def OfOrigin [Sha256] (Given : Item → Prop) (o : String) (S : Set Bytes) : ApplyEvent → Prop
  | .deliver _ clip => clip.clipMeta.originId = o ∧ clip.data ∈ S ∧ (Verified clip → Given (Hub.remoteItem clip))
  | _ => True

variable {B} {s t : ApplyCalls σ}

/-! ## One step -/

theorem advance_cases [Sha256] {i : ℕ} (hs : step B s (.advance i) = some t) : ∃ call hub call',
    s.calls i = some call ∧ Applying.Advanced B s.now s.hub call hub call' ∧ t.hub = hub ∧
      t.calls = Function.update s.calls i (some call') ∧ t.delivered = s.delivered ∧
      ((∃ clip, call' = .accepted clip ∧ t.order = s.order ++ [(i, clip)]) ∨
        (∀ clip, call' ≠ .accepted clip) ∧ t.order = s.order) := by
  obtain ⟨call, hcall, hs⟩ := Option.bind_eq_some_iff.mp hs
  obtain ⟨⟨hub, call'⟩, hadv, hs⟩ := Option.bind_eq_some_iff.mp hs
  obtain rfl := Option.some.inj hs
  refine ⟨call, hub, call', hcall, Applying.advance_advanced hadv, rfl, rfl, rfl, ?_⟩
  cases call' with
  | accepted clip => exact .inl ⟨clip, rfl, rfl⟩
  | _ => exact .inr ⟨by simp, List.append_nil _⟩

/-- Of each call that is under way, its clip; of the newest, that it was accepted; and that no number
above the newest was delivered. -/
structure Inv [Sha256] (B : Backend σ) (Good : σ → Prop) (Given : Item → Prop) (o : String) (S : Set Bytes)
    (s : ApplyCalls σ) : Prop where
  good : Good s.hub.clipboard
  given : ∀ i call, s.calls i = some call → ∀ clip ∈ call.clip, Given (Hub.remoteItem clip)
  clips : ∀ i call, s.calls i = some call → ∀ clip ∈ call.clip,
    Verified clip ∧ clip.clipMeta.originId = o ∧ clip.data ∈ S
  newest : ∀ p, s.newest = some p → Verified p.2 ∧ p.2.data ∈ S ∧
    s.hub.seen.last o = some p.2.clipMeta.seq ∧
    ∃ call, s.calls p.1 = some call ∧ (∀ clip, call ≠ .verified clip) ∧ ∀ clip ∈ call.clip, clip = p.2
  delivered : ∀ c ∈ s.delivered, (∃ i, s.calls i = some (.verified c)) ∨
    s.hub.seen.UpTo o c.clipMeta.seq
  held : ¬ s.Failed → s.hub.HoldsOnly B S

theorem deliver_cases [Sha256] {i : ℕ} {clip : Clip} (hs : step B s (.deliver i clip) = some t) :
    s.calls i = none ∧ t.hub = s.hub ∧ t.order = s.order ∧
      t.calls = Function.update s.calls i (some (Applying.begin clip s.hub)) ∧
      ∃ new, t.delivered = s.delivered ++ new ∧
        ∀ c ∈ new, Applying.begin clip s.hub = .verified c := by
  simp only [step] at hs
  split at hs
  · cases hs
  · next hnone =>
    obtain rfl := Option.some.inj hs
    refine ⟨hnone, rfl, rfl, rfl, _, rfl, fun c hc => ?_⟩
    split at hc
    · next c' hbegin =>
      obtain rfl := List.mem_singleton.mp hc
      exact hbegin
    · exact absurd hc List.not_mem_nil

section Steps
variable [Sha256] {Good : σ → Prop} {Given : Item → Prop} {o : String} {S : Set Bytes}

/-- The call of the newest clip is not the one that has just been made. -/
theorem Inv.newest_ne (h : Inv B Good Given o S s) {i : ℕ} (hnone : s.calls i = none) {p : ℕ × Clip}
    (hp : s.newest = some p) : p.1 ≠ i := by
  rintro rfl
  obtain ⟨-, -, -, call, hcall, -⟩ := h.newest p hp
  rw [hnone] at hcall
  cases hcall

theorem Inv.deliver (h : Inv B Good Given o S s) {i : ℕ} {clip : Clip} (ho : OfOrigin Given o S (.deliver i clip))
    (hs : step B s (.deliver i clip) = some t) : Inv B Good Given o S t := by
  obtain ⟨hnone, hhub, horder, hcalls, new, hdel, hnew⟩ := deliver_cases hs
  have other : ∀ {j : ℕ} {call : Applying}, s.calls j = some call → t.calls j = some call := by
    intro j call hj
    have hji : j ≠ i := by
      rintro rfl
      rw [hnone] at hj
      cases hj
    rw [hcalls, Function.update_of_ne hji]
    exact hj
  refine ⟨hhub ▸ h.good, fun j call hj c hc => ?_, fun j call hj c hc => ?_, fun p hp => ?_, fun c hc => ?_,
    fun hok => ?_⟩
  · rw [hcalls, Function.update_apply] at hj
    split_ifs at hj
    · obtain rfl := Option.some.inj hj
      obtain hbegin | ⟨ack, hbegin⟩ := Applying.begin_cases clip s.hub
      · rw [hbegin] at hc
        obtain rfl := Option.some.inj hc
        exact ho.2.2 (Applying.begin_verified hbegin).2
      · rw [hbegin] at hc
        cases hc
    · exact h.given j call hj c hc
  · rw [hcalls, Function.update_apply] at hj
    split_ifs at hj
    · obtain rfl := Option.some.inj hj
      obtain hbegin | ⟨ack, hbegin⟩ := Applying.begin_cases clip s.hub
      · rw [hbegin] at hc
        obtain rfl := Option.some.inj hc
        exact ⟨(Applying.begin_verified hbegin).2, ho.1, ho.2.1⟩
      · rw [hbegin] at hc
        cases hc
    · exact h.clips j call hj c hc
  · rw [ApplyCalls.newest, horder] at hp
    obtain ⟨hv, hd, hseen, call, hcall, hclip⟩ := h.newest p hp
    exact ⟨hv, hd, by rw [hhub]; exact hseen, call, other hcall, hclip⟩
  · rw [hdel] at hc
    obtain hc | hc := List.mem_append.mp hc
    · obtain ⟨j, hj⟩ | hup := h.delivered c hc
      · exact .inl ⟨j, other hj⟩
      · exact .inr (by rw [hhub]; exact hup)
    · exact .inl ⟨i, by rw [hcalls, Function.update_self, hnew c hc]⟩
  · rw [hhub]
    exact h.held fun ⟨j, e, hj⟩ => hok ⟨j, e, other hj⟩

omit [Sha256] in
/-- A call that has failed stays so. -/
theorem failed_kept {i : ℕ} {call' : Applying} {hub : Hub σ} {call : Applying}
    (hcall : s.calls i = some call) (hadv : Applying.Advanced B s.now s.hub call hub call')
    (hcalls : t.calls = Function.update s.calls i (some call')) (hf : s.Failed) : t.Failed := by
  obtain ⟨j, e, hj⟩ := hf
  have hji : j ≠ i := by
    rintro rfl
    obtain rfl := Option.some.inj (hcall.symm.trans hj)
    exact hadv.not_returned _ rfl
  exact ⟨j, e, by rw [hcalls, Function.update_of_ne hji]; exact hj⟩

/-- What a successful write leaves. -/
theorem Inv.stores (h : Inv B Good Given o S s) (hB : Returns B Good Given) {i : ℕ} {clip : Clip} {item : Item} {clipboard : σ}
    (hcall : s.calls i = some (.storing clip))
    (hset : B.set (Hub.remoteItem clip) s.hub.clipboard = (.ok item, clipboard)) :
    Hub.Holds B { s.hub with clipboard := clipboard } clip.data := by
  obtain ⟨hv, -, -⟩ := h.clips i _ hcall clip rfl
  obtain ⟨-, back, hget, hdata, hhash⟩ := hB.got h.good (h.given i _ hcall clip rfl) hv.fits hset
  exact ⟨back, hget, hdata, hhash.trans hv.hash_eq⟩

theorem Inv.advance (h : Inv B Good Given o S s) (hB : Returns B Good Given) {i : ℕ} (hs : step B s (.advance i) = some t) :
    Inv B Good Given o S t := by
  obtain ⟨call, hub, call', hcall, hadv, rfl, hcalls, hdel, horder⟩ := advance_cases hs
  have hclips := h.clips i call hcall
  refine ⟨hadv.good hB h.good, fun j x hj c hc => ?_, fun j x hj c hc => ?_, fun p hp => ?_, fun c hc => ?_,
    fun hok => ?_⟩
  · rw [hcalls, Function.update_apply] at hj
    split_ifs at hj
    · obtain rfl := Option.some.inj hj
      exact h.given i call hcall c (hadv.clip_kept c hc)
    · exact h.given j x hj c hc
  · rw [hcalls, Function.update_apply] at hj
    split_ifs at hj
    · obtain rfl := Option.some.inj hj
      exact hclips c (hadv.clip_kept c hc)
    · exact h.clips j x hj c hc
  · obtain ⟨clip, rfl, horder⟩ | ⟨hnot, horder⟩ := horder
    · -- The clip that is accepted is the newest.
      obtain ⟨rfl, hhub, hf⟩ := hadv.of_accepted
      rw [ApplyCalls.newest, horder, List.getLast?_concat] at hp
      obtain rfl := Option.some.inj hp
      obtain ⟨hv, ho, hd⟩ := hclips clip rfl
      refine ⟨hv, hd, ?_, .accepted clip, ?_, by simp, fun c hc => (Option.some.inj hc).symm⟩
      · rw [hhub, Hub.sawClip, ho]
        exact Function.update_self _ _ _
      · rw [hcalls, Function.update_self]
    · rw [ApplyCalls.newest, horder] at hp
      obtain ⟨hv, hd, hseen, x, hx, hverified, hclip⟩ := h.newest p hp
      refine ⟨hv, hd, by rw [hadv.seen_kept hnot]; exact hseen, ?_⟩
      by_cases hpi : p.1 = i
      · rw [hpi, hcall] at hx
        obtain rfl := Option.some.inj hx
        exact ⟨call', by rw [hcalls, hpi, Function.update_self], hadv.not_verified,
          fun c hc => hclip c (hadv.clip_kept c hc)⟩
      · exact ⟨x, by rw [hcalls, Function.update_of_ne hpi]; exact hx, hverified, hclip⟩
  · rw [hdel] at hc
    have up : ∀ {m : ℕ}, s.hub.seen.UpTo o m → t.hub.seen.UpTo o m := by
      intro m hm
      obtain ⟨clip, rfl, -⟩ | ⟨hnot, -⟩ := horder
      · obtain ⟨rfl, hhub, hf⟩ := hadv.of_accepted
        rw [hhub]
        exact hm.update hf
      · rw [hadv.seen_kept hnot]
        exact hm
    obtain ⟨j, hj⟩ | hup := h.delivered c hc
    · by_cases hji : j = i
      · rw [hji, hcall] at hj
        obtain rfl := Option.some.inj hj
        obtain ⟨hv, ho, hd⟩ := hclips c rfl
        refine .inr ?_
        generalize t.hub = hub at hadv
        cases hadv with
        | stale _ hf => exact ho ▸ SeenSeq.upTo_of_not_fresh hf
        | fresh _ hf => exact ho ▸ SeenSeq.upTo_update _ _ _
      · exact .inl ⟨j, by rw [hcalls, Function.update_of_ne hji]; exact hj⟩
    · exact .inr (up hup)
  · have hheld := h.held fun hf => hok (failed_kept hcall hadv hcalls hf)
    generalize t.hub = hub at hadv ⊢
    cases hadv with
    | failed clip e clipboard hset =>
      exact absurd ⟨i, _, by rw [hcalls, Function.update_self]⟩ hok
    | stored clip item clipboard hset =>
      exact (h.stores hB hcall hset).only (hclips clip rfl).2.2
    | _ => exact hheld

omit [Sha256] in
theorem settled_eq {i : ℕ} {call' : Applying} (hcalls : t.calls = Function.update s.calls i (some call'))
    (j : ℕ) : t.settled j = if j = i then call'.settled else s.settled j := by
  rw [settled, settled, hcalls, Function.update_apply]
  split_ifs <;> rfl

/-- A step that writes nothing keeps what stands, if it does not settle its call or finds its content on
the clipboard. -/
theorem NewestStands.keep (h : NewestStands B s) {i : ℕ} {call call' : Applying}
    (hcall : s.calls i = some call) (hcalls : t.calls = Function.update s.calls i (some call'))
    (hclip : t.hub.clipboard = s.hub.clipboard) (hnewest : t.newest = s.newest)
    (hsettles : ∀ p, s.newest = some p → p.1 = i → call'.settled = true →
      call.settled = true ∨ s.hub.Holds B p.2.data) : NewestStands B t := by
  intro p hp hset
  rw [hnewest] at hp
  rw [settled_eq hcalls] at hset
  have hholds : s.hub.Holds B p.2.data := by
    split_ifs at hset with hpi
    · obtain hbefore | hfound := hsettles p hp hpi hset
      · exact h p hp (by rw [settled, hpi, hcall]; exact hbefore)
      · exact hfound
    · exact h p hp hset
  rw [Hub.Holds, hclip]
  exact hholds

omit [Sha256] in
theorem inOrder_of_writes_none {i : ℕ} (h : s.writes i = none) : InOrder s (.advance i) := by
  intro clip hclip
  rw [h] at hclip
  cases hclip

/-- Content that is found under the hash of a clip is the clip's. -/
theorem Inv.found (hS : Set.InjOn Protocol.hash S) (hheld : s.hub.HoldsOnly B S) {clip : Clip}
    (hv : Verified clip) (hd : clip.data ∈ S) (hp : s.hub.present B clip.clipMeta.hash = true) :
    s.hub.Holds B clip.data := by
  unfold Hub.present at hp
  split at hp
  · next cur hget =>
    obtain ⟨hmem, hhash⟩ := hheld cur hget
    have heq : cur.hash = clip.clipMeta.hash := of_decide_eq_true hp
    have hdata : cur.data = clip.data := hS hmem hd (hhash.symm.trans (heq.trans hv.hash_eq))
    exact ⟨cur, hget, hdata, hdata ▸ hhash⟩
  · cases hp

theorem Holds_unique {hub : Hub σ} {d d' : Bytes} (h : hub.Holds B d) (h' : hub.Holds B d') : d = d' := by
  obtain ⟨item, hget, rfl, -⟩ := h
  obtain ⟨item', hget', rfl, -⟩ := h'
  obtain rfl := Option.some.inj (Except.ok.inj (hget.symm.trans hget'))
  rfl

theorem Inv.stands_iff (h : Inv B Good Given o S s) (hB : Returns B Good Given) (hS : Set.InjOn Protocol.hash S)
    (hstands : NewestStands B s) {i : ℕ} (hs : step B s (.advance i) = some t) (hok : ¬ t.Failed) :
    NewestStands B t ↔ InOrder s (.advance i) := by
  obtain ⟨call, hub, call', hcall, hadv, hhub, hcalls, -, horder⟩ := advance_cases hs
  have hheld := h.held fun hf => hok (failed_kept hcall hadv hcalls hf)
  have hclip : ∀ {p : ℕ × Clip}, s.newest = some p → p.1 = i →
      (∀ c, call ≠ .verified c) ∧ ∀ c ∈ call.clip, c = p.2 := by
    intro p hp hpi
    obtain ⟨-, -, -, x, hx, hverified, hc⟩ := h.newest p hp
    rw [hpi, hcall] at hx
    obtain rfl := Option.some.inj hx
    exact ⟨hverified, hc⟩
  have hnewest : (∀ c, call' ≠ .accepted c) → t.newest = s.newest := by
    intro hnot
    obtain ⟨c, rfl, -⟩ | ⟨-, horder⟩ := horder
    · exact absurd rfl (hnot c)
    · rw [ApplyCalls.newest, horder]
      rfl
  -- Every step but a write.
  have quiet : hub.clipboard = s.hub.clipboard → s.writes i = none → (∀ c, call' ≠ .accepted c) →
      (∀ p, s.newest = some p → p.1 = i → call'.settled = true →
        call.settled = true ∨ s.hub.Holds B p.2.data) →
      (NewestStands B t ↔ InOrder s (.advance i)) := by
    intro hsame hwrites hnot hsettles
    exact iff_of_true (hstands.keep hcall hcalls (by rw [hhub]; exact hsame) (hnewest hnot) hsettles)
      (inOrder_of_writes_none hwrites)
  have hwrites : (∀ c, call ≠ .storing c) → s.writes i = none := by
    intro hnot
    unfold writes
    split
    · next c hc => exact absurd (Option.some.inj (hcall.symm.trans hc)) (hnot c)
    · rfl
  cases hadv with
  | stale clip hf =>
    exact quiet rfl (hwrites (by simp)) (by simp) fun p hp hpi _ =>
      absurd rfl ((hclip hp hpi).1 clip)
  | fresh clip hf =>
    refine iff_of_true (fun p hp hset => ?_) (inOrder_of_writes_none (hwrites (by simp)))
    obtain ⟨c, hc, horder⟩ | ⟨hnot, -⟩ := horder
    · rw [ApplyCalls.newest, horder, List.getLast?_concat] at hp
      obtain rfl := Option.some.inj hp
      rw [settled_eq hcalls, if_pos rfl] at hset
      cases hset
    · exact absurd rfl (hnot clip)
  | found clip hp =>
    refine quiet rfl (hwrites (by simp)) (by simp) fun p hnew hpi _ => .inr ?_
    rw [← (hclip hnew hpi).2 clip rfl]
    obtain ⟨hv, -, hd⟩ := h.clips i _ hcall clip rfl
    exact Inv.found hS hheld hv hd hp
  | missing clip hp =>
    exact quiet rfl (hwrites (by simp)) (by simp) fun _ _ _ hset => by cases hset
  | kept clip => exact quiet rfl (hwrites (by simp)) (by simp) fun _ _ _ _ => .inl rfl
  | announced clip => exact quiet rfl (hwrites (by simp)) (by simp) fun _ _ _ hset => by cases hset
  | closed clip hash => exact quiet rfl (hwrites (by simp)) (by simp) fun _ _ _ _ => .inl rfl
  | failed clip e clipboard hset =>
    exact absurd ⟨i, _, by rw [hcalls, Function.update_self]⟩ hok
  | stored clip item clipboard hset =>
    have hholds : t.hub.Holds B clip.data := by
      rw [hhub]
      exact h.stores hB hcall hset
    have hw : s.writes i = some clip := by rw [writes, hcall]
    have hsame := hnewest (by simp)
    constructor
    · intro ht c hc p hp hpi hsettled
      obtain rfl := Option.some.inj (hw.symm.trans hc)
      refine Holds_unique hholds (ht p (hsame.trans hp) ?_)
      rw [settled_eq hcalls, if_neg hpi]
      exact hsettled
    · intro horderly p hp hsettled
      rw [hsame] at hp
      by_cases hpi : p.1 = i
      · rw [← (hclip hp hpi).2 clip rfl]
        exact hholds
      · rw [settled_eq hcalls, if_neg hpi] at hsettled
        exact horderly clip hw p hp hpi hsettled ▸ hholds

theorem Inv.step {e : ApplyEvent} (h : Inv B Good Given o S s) (hB : Returns B Good Given) (he : OfOrigin Given o S e)
    (hs : ApplyCalls.step B s e = some t) : Inv B Good Given o S t := by
  cases e with
  | deliver i clip => exact h.deliver he hs
  | advance i => exact h.advance hB hs
  | tick =>
    obtain rfl := Option.some.inj hs
    exact ⟨h.good, h.given, h.clips, h.newest, h.delivered, h.held⟩

/-- Every step keeps the newest clip exactly when it is in order. -/
theorem Inv.step_iff {e : ApplyEvent} (h : Inv B Good Given o S s) (hB : Returns B Good Given)
    (hS : Set.InjOn Protocol.hash S) (hstands : NewestStands B s) (hs : ApplyCalls.step B s e = some t)
    (hok : ¬ t.Failed) : NewestStands B t ↔ InOrder s e := by
  cases e with
  | deliver i clip =>
    obtain ⟨hnone, hhub, horder, hcalls, -⟩ := deliver_cases hs
    refine iff_of_true (fun p hp hset => ?_) trivial
    rw [ApplyCalls.newest, horder] at hp
    rw [settled_eq hcalls, if_neg (h.newest_ne hnone hp)] at hset
    rw [hhub]
    exact hstands p hp hset
  | advance i => exact h.stands_iff hB hS hstands hs hok
  | tick =>
    obtain rfl := Option.some.inj hs
    exact iff_of_true hstands trivial

omit [Sha256] in
theorem AllReturned.not_failed (h : s.AllReturned) : ¬ s.Failed := by
  rintro ⟨i, e, hi⟩
  obtain ⟨ack, heq⟩ := h i _ hi
  cases heq

theorem failed_step {e : ApplyEvent} (hs : ApplyCalls.step B s e = some t) (hf : s.Failed) : t.Failed := by
  cases e with
  | deliver i clip =>
    obtain ⟨j, e, hj⟩ := hf
    obtain ⟨hnone, -, -, hcalls, -⟩ := deliver_cases hs
    have hji : j ≠ i := by
      rintro rfl
      rw [hnone] at hj
      cases hj
    exact ⟨j, e, by rw [hcalls, Function.update_of_ne hji]; exact hj⟩
  | advance i =>
    obtain ⟨call, hub, call', hcall, hadv, -, hcalls, -⟩ := advance_cases hs
    exact failed_kept hcall hadv hcalls hf
  | tick =>
    obtain rfl := Option.some.inj hs
    exact hf

/-- A step leaves the other calls alone. -/
theorem calls_other {e : ApplyEvent} (hs : ApplyCalls.step B s e = some t) {j : ℕ}
    (hdeliver : ∀ clip, e ≠ .deliver j clip) (hadvance : e ≠ .advance j) : t.calls j = s.calls j := by
  cases e with
  | deliver i clip =>
    obtain ⟨-, -, -, hcalls, -⟩ := deliver_cases hs
    rw [hcalls, Function.update_of_ne]
    rintro rfl
    exact hdeliver clip rfl
  | advance i =>
    obtain ⟨call, hub, call', -, -, -, hcalls, -⟩ := advance_cases hs
    rw [hcalls, Function.update_of_ne]
    rintro rfl
    exact hadvance rfl
  | tick =>
    obtain rfl := Option.some.inj hs
    rfl

/-! ## Whole runs -/

/-- No call is under way, and what is on the clipboard is one of the contents `S`, under its hash. -/
structure Starts (B : Backend σ) (Good : σ → Prop) (S : Set Bytes) (s : ApplyCalls σ) : Prop where
  good : Good s.hub.clipboard
  calls : ∀ i, s.calls i = none
  order : s.order = []
  delivered : s.delivered = []
  held : s.hub.HoldsOnly B S

theorem Starts.inv (h : Starts B Good S s) : Inv B Good Given o S s where
  good := h.good
  given := fun i call hcall => by
    rw [h.calls i] at hcall
    cases hcall
  clips := fun i call hcall => by
    rw [h.calls i] at hcall
    cases hcall
  newest := fun p hp => by
    rw [ApplyCalls.newest, h.order] at hp
    cases hp
  delivered := fun c hc => by
    rw [h.delivered] at hc
    exact absurd hc List.not_mem_nil
  held := fun _ => h.held

theorem Starts.stands (h : Starts B Good S s) : NewestStands B s := by
  intro p hp
  rw [ApplyCalls.newest, h.order] at hp
  cases hp

/-- When all calls have returned well, what stands is kept. -/
theorem Inv.keepsNewest (h : Inv B Good Given o S s) (hstands : NewestStands B s) : KeepsNewest B s := by
  intro hall p hp
  obtain ⟨-, -, hseen, call, hcall, -⟩ := h.newest p hp
  obtain ⟨ack, rfl⟩ := hall p.1 call hcall
  refine ⟨hstands p hp (by rw [settled, hcall]; rfl), fun c hc => ?_⟩
  obtain ⟨j, hj⟩ | ⟨n, hn, hle⟩ := h.delivered c hc
  · obtain ⟨ack', heq⟩ := hall j _ hj
    cases heq
  · rw [hseen] at hn
    exact Option.some.inj hn ▸ hle

/-- Whatever the order of the steps of any number of calls: when all calls have returned well, the
clipboard holds the clip with the highest number delivered, provided that no call has written after the
call of a newer clip had settled. -/
theorem inOrder_keepsNewest (hB : Returns B Good Given) (hS : Set.InjOn Protocol.hash S) (hs : Starts B Good S s)
    {es : List ApplyEvent} (ho : ∀ e ∈ es, OfOrigin Given o S e)
    (hC : Guarded (step B) (InOrder (σ := σ)) s es) (hr : exec (step B) s es = some t) :
    KeepsNewest B t := by
  have hrun := exec_guarded
    (I := fun u => Inv B Good Given o S u ∧ (¬ u.Failed → NewestStands B u))
    (C := fun u e => InOrder u e ∧ OfOrigin Given o S e)
    (fun u e v ⟨hu, hstands⟩ ⟨horder, he⟩ hv =>
      ⟨hu.step hB he hv, fun hok =>
        (hu.step_iff hB hS (hstands fun hf => hok (failed_step hv hf)) hv hok).mpr horder⟩)
    ⟨hs.inv, fun _ => hs.stands⟩ (hC.and _ (guarded_of_forall _ ho s)) hr
  intro hall
  exact hrun.1.keepsNewest (hrun.2 hall.not_failed) hall

end Steps

end ApplyCalls

/-! ### Two clips that cross -/

/-- The text `yo`, the second clip of `laptop`. -/
def yoClip : Clip :=
  ⟨⟨"laptop", 2, "text/plain", "e9058ab198f6908f702111b0c0fb5b36f99d00554521886c40e2891b349dc7a1",
    2, ""⟩, [121, 111]⟩

def desktopIdle : ApplyCalls (Option Item) :=
  ⟨Hub.new "desktop" none ⟨⟨0, []⟩, ⟨0, []⟩⟩ 5, 0, fun _ => none, [], []⟩

/-- `hi` and then `yo` are accepted, and neither is on the clipboard. -/
def bothAccepted : List ApplyEvent :=
  [.deliver 0 hiClip, .deliver 1 yoClip, .advance 0, .advance 1, .advance 0, .advance 1, .advance 0,
    .advance 1]

def contents : Set Bytes := {[104, 105], [121, 111]}

theorem desktopIdle_starts [Sha256] : ApplyCalls.Starts memory (fun _ => True) contents desktopIdle :=
  ⟨trivial, fun _ => rfl, rfl, rfl, fun _ h => by cases h⟩

/-- `hi` is written first. -/
theorem hiFirst_kept :
    letI := sampleSha256
    ∃ s, exec (ApplyCalls.step memory) desktopIdle (bothAccepted ++ [.advance 0, .advance 1, .advance 0,
        .advance 1]) = some s ∧ ApplyCalls.KeepsNewest memory s := by
  let _ := sampleSha256
  have hS : Set.InjOn Protocol.hash contents := by
    rintro a (rfl | rfl) b (rfl | rfl) <;> decide
  have ho : ∀ e ∈ bothAccepted ++ [ApplyEvent.advance 0, .advance 1, .advance 0, .advance 1],
      ApplyCalls.OfOrigin (fun item => item.hash ≠ "") "laptop" contents e := by
    simp [bothAccepted, ApplyCalls.OfOrigin, contents, hiClip, yoClip, Hub.remoteItem]
  obtain ⟨s, hs⟩ : ∃ s, exec (ApplyCalls.step memory) desktopIdle (bothAccepted ++ [.advance 0,
      .advance 1, .advance 0, .advance 1]) = some s := ⟨_, rfl⟩
  refine ⟨s, hs, ApplyCalls.inOrder_keepsNewest memory_exact.returns hS desktopIdle_starts ho ?_ hs⟩
  decide

/-- `yo` is written first, and `hi` over it. -/
theorem hiLast_overwrites :
    letI := sampleSha256
    ∃ s, exec (ApplyCalls.step memory) desktopIdle (bothAccepted ++ [.advance 1, .advance 0, .advance 0,
        .advance 1]) = some s ∧ s.hub.clipboard.map Item.data = some [104, 105] ∧
      ¬ ApplyCalls.KeepsNewest memory s := by
  let _ := sampleSha256
  obtain ⟨s, hs⟩ : ∃ s, exec (ApplyCalls.step memory) desktopIdle (bothAccepted ++ [.advance 1,
      .advance 0, .advance 0, .advance 1]) = some s := ⟨_, rfl⟩
  -- There are only the calls 0 and 1.
  have hothers : ∀ j, j ≠ 0 → j ≠ 1 → s.calls j = none := fun j h0 h1 =>
    exec_guarded (I := fun u => u.calls j = none)
      (fun u e v hu he hv => (ApplyCalls.calls_other hv he.1 he.2).trans hu) rfl
      (guarded_of_forall _ (p := fun e => (∀ clip, e ≠ .deliver j clip) ∧ e ≠ .advance j)
        (by simp [bothAccepted, Ne.symm h0, Ne.symm h1]) desktopIdle) hs
  have hall : s.AllReturned := by
    intro i call hi
    by_cases h0 : i = 0
    · obtain rfl := Option.some.inj hs
      rw [h0] at hi
      exact ⟨_, (Option.some.inj hi).symm⟩
    · by_cases h1 : i = 1
      · obtain rfl := Option.some.inj hs
        rw [h1] at hi
        exact ⟨_, (Option.some.inj hi).symm⟩
      · rw [hothers i h0 h1] at hi
        cases hi
  refine ⟨s, hs, ?_, fun hkeeps => ?_⟩
  · obtain rfl := Option.some.inj hs
    decide
  · obtain ⟨item, hget, hdata, -⟩ := (hkeeps hall (1, yoClip) (by
      obtain rfl := Option.some.inj hs
      rfl)).1
    obtain rfl := Option.some.inj hs
    obtain rfl := Option.some.inj (Except.ok.inj hget)
    revert hdata
    decide

end Zsync
