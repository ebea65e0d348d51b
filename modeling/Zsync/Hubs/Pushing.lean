import Mathlib.Data.List.Nodup
import Zsync.Hubs.Concurrent
import Zsync.Model.Pushing

/-! # Copies that are made at the same time

A call of `local_push` writes the clipboard first and takes its sequence number later, under no common lock. Other
devices keep the clip with the highest number, this one what was written last.

* `Advanced` : what one step of a call does.
* `InStep` : the last call to write is the last one to mint, or is still to mint.
* `agrees_iff_inStep` : when all calls have returned, the newest clip carries what is on the clipboard exactly when
  they are in step; and they are so in all states of a run exactly when every call takes its turn.
* `outOfTurn_disagrees` : two copies that cross, after which the devices keep different texts.
-/

namespace Zsync
set_option autoImplicit false
set_option maxHeartbeats 250000
open Protocol Foundations

namespace Pushing
variable {σ : Type}

/-- The call has written the clipboard, and is still to mint. -/
def pending : Pushing → Option Item
  | .stored item | .packing item => some item
  | _ => none

/-- The call may still write. -/
def early : Pushing → Option Item
  | .hashed item | .storing item => some item
  | _ => none

inductive Advanced (B : Backend σ) (now : ℕ) (saves : Bool) (hub : Hub σ) :
    Pushing → Hub σ → Pushing → List Outbound → Prop
  | announced (item : Item) :
    Advanced B now saves hub (.hashed item) (hub.suppressed now item.hash) (.storing item) []
  | failed (item : Item) (e : BackendError) (clipboard : σ) (hset : B.set item hub.clipboard = (.error e, clipboard)) :
    Advanced B now saves hub (.storing item) { hub with clipboard := clipboard } (.returned (.error (.backend e))) []
  | wrote (item stored : Item) (clipboard : σ) (hset : B.set item hub.clipboard = (.ok stored, clipboard)) :
    Advanced B now saves hub (.storing item) { hub with clipboard := clipboard } (.stored stored) []
  | noted (item : Item) :
    Advanced B now saves hub (.stored item) (hub.suppressed now item.hash) (.packing item) []
  | unsaved (item : Item) (h : saves = false) :
    Advanced B now saves hub (.packing item) (hub.bumped false) (.returned (.error .persistSeq)) []
  | mints (item : Item) (h : saves = true) :
    Advanced B now saves hub (.packing item) (hub.bumped true)
      (.minted (hub.minted item.mime item.name item.data item.hash)) []
  | emits (clip : Clip) : Advanced B now saves hub (.minted clip) hub (.returned (.ok clip)) [⟨clip, none⟩]

theorem advance_advanced {B : Backend σ} {now : ℕ} {saves : Bool} {hub hub' : Hub σ} {call call' : Pushing}
    {out : List Outbound} (h : call.advance B now saves hub = some (hub', call', out)) :
    Advanced B now saves hub call hub' call' out := by
  cases call with
  | hashed item =>
    obtain ⟨rfl, hrest⟩ := Prod.mk.inj (Option.some.inj h)
    obtain ⟨rfl, rfl⟩ := Prod.mk.inj hrest
    exact .announced item
  | storing item =>
    simp only [advance] at h
    cases hset : B.set item hub.clipboard with
    | mk res clipboard =>
      rw [hset] at h
      cases res with
      | error e =>
        obtain ⟨rfl, hrest⟩ := Prod.mk.inj (Option.some.inj h)
        obtain ⟨rfl, rfl⟩ := Prod.mk.inj hrest
        exact .failed item e clipboard hset
      | ok stored =>
        obtain ⟨rfl, hrest⟩ := Prod.mk.inj (Option.some.inj h)
        obtain ⟨rfl, rfl⟩ := Prod.mk.inj hrest
        exact .wrote item stored clipboard hset
  | stored item =>
    obtain ⟨rfl, hrest⟩ := Prod.mk.inj (Option.some.inj h)
    obtain ⟨rfl, rfl⟩ := Prod.mk.inj hrest
    exact .noted item
  | packing item =>
    cases saves with
    | false =>
      obtain ⟨rfl, hrest⟩ := Prod.mk.inj (Option.some.inj h)
      obtain ⟨rfl, rfl⟩ := Prod.mk.inj hrest
      exact .unsaved item rfl
    | true =>
      obtain ⟨rfl, hrest⟩ := Prod.mk.inj (Option.some.inj h)
      obtain ⟨rfl, rfl⟩ := Prod.mk.inj hrest
      exact .mints item rfl
  | minted clip =>
    obtain ⟨rfl, hrest⟩ := Prod.mk.inj (Option.some.inj h)
    obtain ⟨rfl, rfl⟩ := Prod.mk.inj hrest
    exact .emits clip
  | returned res => cases h

theorem begin_cases [Sha256] (item : Item) :
    begin item = .returned (.error .payloadTooLarge) ∨
      begin item = .hashed (Hub.hashed item) ∧ (Hub.hashed item).data.length ≤ maxClip := by
  unfold begin
  by_cases hlarge : maxClip < item.data.length
  · exact .inl (if_pos hlarge)
  · exact .inr ⟨if_neg hlarge, Nat.not_lt.mp hlarge⟩

end Pushing

namespace PushCalls
variable {σ : Type}

/-! ## What is to be kept -/

def pending (s : PushCalls σ) (i : ℕ) : Bool := ((s.calls i).bind Pushing.pending).isSome

/-- The last call to write is the last to mint, or is still to. -/
def InStep (s : PushCalls σ) : Prop :=
  ∀ p ∈ s.written.getLast?, s.pending p.1 = true ∨ s.minted.getLast?.map Prod.fst = some p.1

/-- Where a call takes its number: if it was the last to write, it gets one; and if it gets one without being the
last, the last is still to get one. -/
def TakesTurn (s : PushCalls σ) : PushEvent → Prop
  | .advance i saves => (∃ item, s.calls i = some (.packing item)) → ∀ p ∈ s.written.getLast?,
      if p.1 = i then saves = true else saves = true → s.pending p.1 = true
  | _ => True

instance (s : PushCalls σ) (e : PushEvent) : Decidable (TakesTurn s e) :=
  match e with
  | .begin _ _ | .tick => isTrue trivial
  | .advance i _ =>
    have : Decidable (∃ item, s.calls i = some (.packing item)) :=
      match s.calls i with
      | some (.packing item) => isTrue ⟨item, rfl⟩
      | none | some (.hashed _) | some (.storing _) | some (.stored _) | some (.minted _) | some (.returned _) =>
        isFalse (by rintro ⟨item, h⟩; cases h)
    inferInstanceAs (Decidable (_ → ∀ p ∈ s.written.getLast?, _))

def AllReturned (s : PushCalls σ) : Prop := ∀ i call, s.calls i = some call → ∃ res, call = .returned res

/-- The backend has failed. -/
def Broke (s : PushCalls σ) : Prop := ∃ i e, s.calls i = some (.returned (.error (.backend e)))

/-- The clip with the highest number that was sent carries what is on the clipboard. -/
def Agrees (B : Backend σ) (s : PushCalls σ) : Prop :=
  ∃ clip item, ⟨clip, none⟩ ∈ s.out ∧ (∀ o ∈ s.out, o.clip.clipMeta.seq ≤ clip.clipMeta.seq) ∧
    B.get s.hub.clipboard = .ok (some item) ∧ item.data = clip.data

/-- What is copied is `Given`, once it has its hash. -/
def Copies [Sha256] (Given : Item → Prop) : PushEvent → Prop
  | .begin _ item => Given (Hub.hashed item)
  | _ => True

variable {B : Backend σ} {s t : PushCalls σ} {Good : σ → Prop} {Given : Item → Prop}

/-! ## One step -/

section Steps
variable [Sha256]

theorem begin_spec {i : ℕ} {item : Item} (hs : step B s (.begin i item) = some t) :
    s.calls i = none ∧ t = s.put i (.begin item) := by
  simp only [step] at hs
  split_ifs at hs with hnone
  exact ⟨hnone, (Option.some.inj hs).symm⟩

/-- What is written down of a call. -/
def newWrite : Pushing → Option Item
  | .stored item => some item
  | _ => none

def newMint : Pushing → Option Clip
  | .minted clip => some clip
  | _ => none

theorem advance_cases {i : ℕ} {saves : Bool} (hs : step B s (.advance i saves) = some t) : ∃ call hub call' out,
    s.calls i = some call ∧ Pushing.Advanced B s.now saves s.hub call hub call' out ∧
      t = { s with
        calls := Function.update s.calls i (some call'), hub := hub, out := s.out ++ out
        written := s.written ++ (newWrite call').toList.map fun item => (i, item)
        minted := s.minted ++ (newMint call').toList.map fun clip => (i, clip) } := by
  obtain ⟨call, hcall, hs⟩ := Option.bind_eq_some_iff.mp hs
  obtain ⟨⟨hub, call', out⟩, hadv, hs⟩ := Option.bind_eq_some_iff.mp hs
  obtain rfl := Option.some.inj hs
  refine ⟨call, hub, call', out, hcall, Pushing.advance_advanced hadv, ?_⟩
  cases call' <;> rfl

/-! ## The calls and what they have done -/

/-- Of each call, what it is about to do and has done; of the logs, that they tell of the calls. -/
structure Inv (Given : Item → Prop) (s : PushCalls σ) : Prop where
  early : ∀ i call, s.calls i = some call → ∀ item ∈ call.early, Given item ∧ item.data.length ≤ maxClip
  pending : ∀ i call, s.calls i = some call → ∀ item ∈ call.pending, (i, item) ∈ s.written
  written : ∀ p ∈ s.written, ∃ call, s.calls p.1 = some call ∧ call.early = none
  once : (s.written.map Prod.fst).Nodup
  source : ∀ p ∈ s.minted, ∃ item, (p.1, item) ∈ s.written ∧ p.2.data = item.data
  minted : ∀ p ∈ s.minted, s.calls p.1 = some (.minted p.2) ∨
    s.calls p.1 = some (.returned (.ok p.2)) ∧ ⟨p.2, none⟩ ∈ s.out
  making : ∀ i clip, s.calls i = some (.minted clip) → (i, clip) ∈ s.minted
  out : ∀ o ∈ s.out, ∃ p ∈ s.minted, o.clip = p.2

omit [Sha256] in
/-- A call goes on, and writes and mints nothing. -/
theorem Inv.same (h : Inv Given s) {i : ℕ} (call : Pushing) (hub : Hub σ)
    (hearly : ∀ item ∈ call.early, Given item ∧ item.data.length ≤ maxClip) (hpending : ∀ item ∈ call.pending, (i, item) ∈ s.written)
    (hwritten : (∃ p ∈ s.written, p.1 = i) → call.early = none) (hminted : ∀ p ∈ s.minted, p.1 ≠ i)
    (hmint : ∀ clip, call ≠ .minted clip) :
    Inv Given { s with calls := Function.update s.calls i (some call), hub := hub } := by
  have hcalls : ∀ j c, Function.update s.calls i (some call) j = some c → j = i ∧ c = call ∨ s.calls j = some c := by
    intro j c hc
    rw [Function.update_apply] at hc
    split_ifs at hc with hj
    · exact .inl ⟨hj, (Option.some.inj hc).symm⟩
    · exact .inr hc
  constructor
  case early =>
    intro j c hc
    obtain ⟨rfl, rfl⟩ | hc := hcalls j c hc
    · exact hearly
    · exact h.early j c hc
  case pending =>
    intro j c hc
    obtain ⟨rfl, rfl⟩ | hc := hcalls j c hc
    · exact hpending
    · exact h.pending j c hc
  case written =>
    intro p hp
    change ∃ c, Function.update s.calls i (some call) p.1 = some c ∧ c.early = none
    rw [Function.update_apply]
    split_ifs with hpi
    · exact ⟨call, rfl, hwritten ⟨p, hp, hpi⟩⟩
    · exact h.written p hp
  case once => exact h.once
  case source => exact h.source
  case minted =>
    intro p hp
    change Function.update s.calls i (some call) p.1 = _ ∨ Function.update s.calls i (some call) p.1 = _ ∧ _
    rw [Function.update_of_ne (hminted p hp)]
    exact h.minted p hp
  case making =>
    intro j clip hc
    obtain ⟨-, hc⟩ | hc := hcalls j _ hc
    · exact absurd hc.symm (hmint clip)
    · exact h.making j clip hc
  case out => exact h.out

omit [Sha256] in
/-- A call that is about to write has neither written nor minted. -/
theorem Inv.unwritten (h : Inv Given s) {i : ℕ} {call : Pushing} (hcall : s.calls i = some call)
    (hearly : call.early ≠ none) :
    (∀ p ∈ s.written, p.1 ≠ i) ∧ ∀ p ∈ s.minted, p.1 ≠ i := by
  have hwritten : ∀ p ∈ s.written, p.1 ≠ i := by
    rintro p hp rfl
    obtain ⟨call', hcall', hnone⟩ := h.written p hp
    obtain rfl := Option.some.inj (hcall.symm.trans hcall')
    exact hearly hnone
  refine ⟨hwritten, fun p hp hpi => ?_⟩
  obtain ⟨item, hitem, -⟩ := h.source p hp
  exact hwritten _ hitem hpi

omit [Sha256] in
/-- A call that is still to mint has not minted. -/
theorem Inv.unminted (h : Inv Given s) {i : ℕ} {call : Pushing} (hcall : s.calls i = some call)
    (hpending : call.pending ≠ none) :
    ∀ p ∈ s.minted, p.1 ≠ i := by
  rintro p hp rfl
  obtain hm | ⟨hm, -⟩ := h.minted p hp
  · obtain rfl := Option.some.inj (hcall.symm.trans hm)
    exact hpending rfl
  · obtain rfl := Option.some.inj (hcall.symm.trans hm)
    exact hpending rfl

theorem Inv.begin (h : Inv Given s) {i : ℕ} {item : Item} (hgiven : Copies Given (.begin i item))
    (hs : step B s (.begin i item) = some t) : Inv Given t := by
  obtain ⟨hnone, rfl⟩ := begin_spec hs
  have hnew : ∀ p ∈ s.written, p.1 ≠ i := by
    rintro p hp rfl
    obtain ⟨call, hcall, -⟩ := h.written p hp
    rw [hnone] at hcall
    cases hcall
  have hminted : ∀ p ∈ s.minted, p.1 ≠ i := by
    intro p hp hpi
    obtain ⟨item, hitem, -⟩ := h.source p hp
    exact hnew _ hitem hpi
  have hwritten : ∀ call : Pushing, (∃ p ∈ s.written, p.1 = i) → call.early = none :=
    fun _ ⟨p, hp, hpi⟩ => absurd hpi (hnew p hp)
  obtain hbegin | ⟨hbegin, hfits⟩ := Pushing.begin_cases item
  · rw [hbegin]
    exact h.same _ s.hub (fun _ h => by cases h) (fun _ h => by cases h) (hwritten _) hminted
      (fun _ h => by cases h)
  · rw [hbegin]
    refine h.same _ s.hub (fun item hi => ?_) (fun _ h => by cases h) (hwritten _) hminted (fun _ h => by cases h)
    obtain rfl := Option.some.inj hi
    exact ⟨hgiven, hfits⟩

omit [Sha256] in
/-- A call writes. -/
theorem Inv.wrote (h : Inv Given s) {i : ℕ} {item : Item} (hcall : s.calls i = some (.storing item)) (stored : Item)
    (hub : Hub σ) :
    Inv Given { s with
      calls := Function.update s.calls i (some (.stored stored)), hub := hub
      written := s.written ++ [(i, stored)] } := by
  obtain ⟨hwritten, hminted⟩ := h.unwritten hcall (by simp [Pushing.early])
  have hcalls : ∀ j c, j ≠ i → Function.update s.calls i (some (.stored stored)) j = some c → s.calls j = some c :=
    fun j c hj hc => by rwa [Function.update_of_ne hj] at hc
  constructor
  case early =>
    intro j c hc
    by_cases hj : j = i
    · rw [hj] at hc
      change Function.update s.calls i (some (.stored stored)) i = some c at hc
      rw [Function.update_self] at hc
      obtain rfl := Option.some.inj hc
      exact fun _ h => by cases h
    · exact h.early j c (hcalls j c hj hc)
  case pending =>
    intro j c hc item' hitem
    by_cases hj : j = i
    · rw [hj] at hc
      change Function.update s.calls i (some (.stored stored)) i = some c at hc
      rw [Function.update_self] at hc
      obtain rfl := Option.some.inj hc
      obtain rfl := Option.some.inj hitem
      rw [hj]
      exact List.mem_append_right _ List.mem_cons_self
    · exact List.mem_append_left _ (h.pending j c (hcalls j c hj hc) item' hitem)
  case written =>
    intro p hp
    change ∃ c, Function.update s.calls i (some (.stored stored)) p.1 = some c ∧ c.early = none
    obtain hp | hp := List.mem_append.mp hp
    · rw [Function.update_of_ne (hwritten p hp)]
      exact h.written p hp
    · obtain rfl := List.mem_singleton.mp hp
      exact ⟨_, Function.update_self .., rfl⟩
  case once =>
    change ((s.written ++ [(i, stored)]).map Prod.fst).Nodup
    rw [List.map_append, List.map_singleton, List.nodup_append]
    refine ⟨h.once, List.nodup_singleton i, ?_⟩
    intro a ha b hb
    obtain ⟨p, hp, rfl⟩ := List.mem_map.mp ha
    obtain rfl := List.mem_singleton.mp hb
    exact hwritten p hp
  case source =>
    intro p hp
    obtain ⟨item', hitem, hdata⟩ := h.source p hp
    exact ⟨item', List.mem_append_left _ hitem, hdata⟩
  case minted =>
    intro p hp
    change Function.update s.calls i _ p.1 = _ ∨ Function.update s.calls i _ p.1 = _ ∧ _
    rw [Function.update_of_ne (hminted p hp)]
    exact h.minted p hp
  case making =>
    intro j clip hc
    by_cases hj : j = i
    · rw [hj] at hc
      change Function.update s.calls i (some (.stored stored)) i = _ at hc
      rw [Function.update_self] at hc
      cases hc
    · exact h.making j clip (hcalls j _ hj hc)
  case out => exact h.out

omit [Sha256] in
/-- A call mints. -/
theorem Inv.mints (h : Inv Given s) {i : ℕ} {item : Item} {clip : Clip} (hcall : s.calls i = some (.packing item))
    (hdata : clip.data = item.data) (hub : Hub σ) :
    Inv Given { s with
      calls := Function.update s.calls i (some (.minted clip)), hub := hub, minted := s.minted ++ [(i, clip)] } := by
  have hminted := h.unminted hcall (by simp [Pushing.pending])
  have hitem : (i, item) ∈ s.written := h.pending i _ hcall item rfl
  have hself : Function.update s.calls i (some (.minted clip)) i = some (.minted clip) := Function.update_self ..
  have hcalls : ∀ j c, Function.update s.calls i (some (.minted clip)) j = some c →
      j = i ∧ c = .minted clip ∨ j ≠ i ∧ s.calls j = some c := by
    intro j c hc
    rw [Function.update_apply] at hc
    split_ifs at hc with hj
    · exact .inl ⟨hj, (Option.some.inj hc).symm⟩
    · exact .inr ⟨hj, hc⟩
  constructor
  case early =>
    intro j c hc
    obtain ⟨rfl, rfl⟩ | ⟨-, hc⟩ := hcalls j c hc
    · exact fun _ h => by cases h
    · exact h.early j c hc
  case pending =>
    intro j c hc
    obtain ⟨rfl, rfl⟩ | ⟨-, hc⟩ := hcalls j c hc
    · exact fun _ h => by cases h
    · exact h.pending j c hc
  case written =>
    intro p hp
    change ∃ c, Function.update s.calls i (some (.minted clip)) p.1 = some c ∧ c.early = none
    by_cases hpi : p.1 = i
    · rw [hpi, hself]
      exact ⟨_, rfl, rfl⟩
    · rw [Function.update_of_ne hpi]
      exact h.written p hp
  case once => exact h.once
  case source =>
    intro p hp
    obtain hp | hp := List.mem_append.mp hp
    · exact h.source p hp
    · obtain rfl := List.mem_singleton.mp hp
      exact ⟨item, hitem, hdata⟩
  case minted =>
    intro p hp
    change Function.update s.calls i _ p.1 = _ ∨ Function.update s.calls i _ p.1 = _ ∧ _
    obtain hp | hp := List.mem_append.mp hp
    · rw [Function.update_of_ne (hminted p hp)]
      exact h.minted p hp
    · obtain rfl := List.mem_singleton.mp hp
      exact .inl hself
  case making =>
    intro j c hc
    obtain ⟨rfl, heq⟩ | ⟨-, hbefore⟩ := hcalls j _ hc
    · obtain rfl := Pushing.minted.inj heq
      exact List.mem_append_right _ List.mem_cons_self
    · exact List.mem_append_left _ (h.making j c hbefore)
  case out =>
    intro o ho
    obtain ⟨p, hp, heq⟩ := h.out o ho
    exact ⟨p, List.mem_append_left _ hp, heq⟩

omit [Sha256] in
/-- A call sends what it has minted. -/
theorem Inv.emits (h : Inv Given s) {i : ℕ} {clip : Clip} (hcall : s.calls i = some (.minted clip)) :
    Inv Given { s with
      calls := Function.update s.calls i (some (.returned (.ok clip))), out := s.out ++ [⟨clip, none⟩] } := by
  have hself : Function.update s.calls i (some (.returned (.ok clip))) i = some (.returned (.ok clip)) :=
    Function.update_self ..
  have hcalls : ∀ j c, Function.update s.calls i (some (.returned (.ok clip))) j = some c →
      j = i ∧ c = .returned (.ok clip) ∨ j ≠ i ∧ s.calls j = some c := by
    intro j c hc
    rw [Function.update_apply] at hc
    split_ifs at hc with hj
    · exact .inl ⟨hj, (Option.some.inj hc).symm⟩
    · exact .inr ⟨hj, hc⟩
  constructor
  case early =>
    intro j c hc
    obtain ⟨rfl, rfl⟩ | ⟨-, hc⟩ := hcalls j c hc
    · exact fun _ h => by cases h
    · exact h.early j c hc
  case pending =>
    intro j c hc
    obtain ⟨rfl, rfl⟩ | ⟨-, hc⟩ := hcalls j c hc
    · exact fun _ h => by cases h
    · exact h.pending j c hc
  case written =>
    intro p hp
    change ∃ c, Function.update s.calls i _ p.1 = some c ∧ c.early = none
    by_cases hpi : p.1 = i
    · rw [hpi, hself]
      exact ⟨_, rfl, rfl⟩
    · rw [Function.update_of_ne hpi]
      exact h.written p hp
  case once => exact h.once
  case source => exact h.source
  case minted =>
    intro p hp
    change Function.update s.calls i _ p.1 = _ ∨ Function.update s.calls i _ p.1 = _ ∧ _
    by_cases hpi : p.1 = i
    · obtain hm | ⟨hm, -⟩ := h.minted p hp
      · rw [hpi, hcall] at hm
        cases hm
        rw [hpi, hself]
        exact .inr ⟨rfl, List.mem_append_right _ List.mem_cons_self⟩
      · rw [hpi, hcall] at hm
        cases hm
    · rw [Function.update_of_ne hpi]
      exact (h.minted p hp).imp_right fun hm => ⟨hm.1, List.mem_append_left _ hm.2⟩
  case making =>
    intro j c hc
    obtain ⟨-, hc⟩ | ⟨-, hc⟩ := hcalls j _ hc
    · cases hc
    · exact h.making j c hc
  case out =>
    intro o ho
    obtain ho | ho := List.mem_append.mp ho
    · exact h.out o ho
    · obtain rfl := List.mem_singleton.mp ho
      exact ⟨(i, clip), h.making i clip hcall, rfl⟩

theorem Inv.advance (h : Inv Given s) {i : ℕ} {saves : Bool} (hs : step B s (.advance i saves) = some t) :
    Inv Given t := by
  obtain ⟨call, hub, call', out, hcall, hadv, rfl⟩ := advance_cases hs
  have hnone : ∀ {c : Pushing}, c.early = none → (∃ p ∈ s.written, p.1 = i) → c.early = none := fun h _ => h
  cases hadv with
  | announced item =>
    obtain ⟨hwritten, hminted⟩ := h.unwritten hcall (by simp [Pushing.early])
    have hsame := h.same (.storing item) (s.hub.suppressed s.now item.hash) (h.early i (.hashed item) hcall)
      (fun _ h => by cases h) (fun ⟨p, hp, hpi⟩ => absurd hpi (hwritten p hp)) hminted (fun _ h => by cases h)
    simpa [newWrite, newMint] using hsame
  | failed item e clipboard hset =>
    obtain ⟨-, hminted⟩ := h.unwritten hcall (by simp [Pushing.early])
    have hsame := h.same (.returned (.error (.backend e))) { s.hub with clipboard := clipboard }
      (fun _ h => by cases h) (fun _ h => by cases h) (hnone rfl) hminted (fun _ h => by cases h)
    simpa [newWrite, newMint] using hsame
  | wrote item stored clipboard hset =>
    simpa [newWrite, newMint] using h.wrote hcall stored { s.hub with clipboard := clipboard }
  | noted item =>
    have hminted := h.unminted hcall (by simp [Pushing.pending])
    have hsame := h.same (.packing item) (s.hub.suppressed s.now item.hash) (fun _ h => by cases h)
      (h.pending i (.stored item) hcall) (hnone rfl) hminted (fun _ h => by cases h)
    simpa [newWrite, newMint] using hsame
  | unsaved item hsaves =>
    have hminted := h.unminted hcall (by simp [Pushing.pending])
    have hsame := h.same (.returned (.error .persistSeq)) (s.hub.bumped false) (fun _ h => by cases h)
      (fun _ h => by cases h) (hnone rfl) hminted (fun _ h => by cases h)
    simpa [newWrite, newMint] using hsame
  | mints item hsaves =>
    simpa [newWrite, newMint] using h.mints hcall
      (rfl : (s.hub.minted item.mime item.name item.data item.hash).data = item.data) (s.hub.bumped true)
  | emits clip => simpa [newWrite, newMint] using h.emits hcall

theorem Inv.step {e : PushEvent} (h : Inv Given s) (hgiven : Copies Given e) (hs : PushCalls.step B s e = some t) :
    Inv Given t := by
  cases e with
  | begin i item => exact h.begin hgiven hs
  | advance i saves => exact h.advance hs
  | tick =>
    obtain rfl := Option.some.inj hs
    exact ⟨h.early, h.pending, h.written, h.once, h.source, h.minted, h.making, h.out⟩

/-! ## In step -/

omit [Sha256] in
/-- Whether a state is in step after call `i` has gone on. -/
theorem inStep_iff_of {i : ℕ} {call : Pushing} (hcalls : t.calls = Function.update s.calls i (some call)) :
    InStep t ↔ ∀ p ∈ t.written.getLast?, (if p.1 = i then call.pending.isSome = true else s.pending p.1 = true) ∨
      t.minted.getLast?.map Prod.fst = some p.1 := by
  have hpending : ∀ j, t.pending j = if j = i then call.pending.isSome else s.pending j := by
    intro j
    unfold pending
    rw [hcalls, Function.update_apply]
    split_ifs <;> rfl
  unfold InStep
  refine forall_congr' fun p => imp_congr Iff.rfl (or_congr ?_ Iff.rfl)
  rw [hpending]
  split_ifs <;> rfl

omit [Sha256] in
/-- Nothing happens to the calls that have written. -/
theorem InStep.kept (h : InStep s) {i : ℕ} {call : Pushing} (hcalls : t.calls = Function.update s.calls i (some call))
    (hwritten : t.written = s.written) (hminted : t.minted = s.minted)
    (hi : (∃ p ∈ s.written, p.1 = i) → s.pending i = true → call.pending.isSome = true) : InStep t := by
  rw [inStep_iff_of hcalls, hwritten, hminted]
  intro p hp
  refine (h p hp).imp_left fun hpending => ?_
  split_ifs with hpi
  · exact hi ⟨p, List.mem_of_mem_getLast? hp, hpi⟩ (hpi ▸ hpending)
  · exact hpending

/-- A step keeps the last writer in step exactly when it takes its turn. -/
theorem Inv.inStep_step (hinv : Inv Given s) (h : InStep s) {e : PushEvent} (hs : PushCalls.step B s e = some t) :
    InStep t ↔ TakesTurn s e := by
  cases e with
  | tick =>
    obtain rfl := Option.some.inj hs
    exact iff_of_true h trivial
  | begin i item =>
    obtain ⟨hnone, rfl⟩ := begin_spec hs
    refine iff_of_true (h.kept rfl rfl rfl fun ⟨p, hp, hpi⟩ => ?_) trivial
    obtain ⟨call, hcall, -⟩ := hinv.written p hp
    rw [hpi, hnone] at hcall
    cases hcall
  | advance i saves =>
    obtain ⟨call, hub, call', out, hcall, hadv, rfl⟩ := advance_cases hs
    have hidle : ∀ {c : Pushing}, s.calls i = some c → (∀ item, c ≠ .packing item) →
        TakesTurn s (.advance i saves) := by
      rintro c hc hne ⟨item, hpacking⟩
      exact absurd (Option.some.inj (hc.symm.trans hpacking)) (hne item)
    cases hadv with
    | announced item =>
      obtain ⟨hwritten, -⟩ := hinv.unwritten hcall (by simp [Pushing.early])
      exact iff_of_true (h.kept rfl (List.append_nil _) (List.append_nil _) fun ⟨p, hp, hpi⟩ =>
        absurd hpi (hwritten p hp)) (hidle hcall fun _ h => by cases h)
    | failed item e clipboard hset =>
      obtain ⟨hwritten, -⟩ := hinv.unwritten hcall (by simp [Pushing.early])
      exact iff_of_true (h.kept rfl (List.append_nil _) (List.append_nil _) fun ⟨p, hp, hpi⟩ =>
        absurd hpi (hwritten p hp)) (hidle hcall fun _ h => by cases h)
    | wrote item stored clipboard hset =>
      refine iff_of_true ?_ (hidle hcall fun _ h => by cases h)
      rw [inStep_iff_of rfl]
      intro p hp
      obtain rfl : (i, stored) = p := by simpa [newWrite] using hp
      exact .inl (by simp [Pushing.pending])
    | noted item =>
      exact iff_of_true (h.kept rfl (List.append_nil _) (List.append_nil _) fun _ _ => rfl)
        (hidle hcall fun _ h => by cases h)
    | emits clip =>
      refine iff_of_true (h.kept rfl (List.append_nil _) (List.append_nil _) fun _ hpending => ?_)
        (hidle hcall fun _ h => by cases h)
      simp [PushCalls.pending, hcall, Pushing.pending] at hpending
    | unsaved item hsaves =>
      have hminted := hinv.unminted hcall (by simp [Pushing.pending])
      have hturn : TakesTurn s (.advance i saves) ↔ ∀ p ∈ s.written.getLast?, p.1 ≠ i := by
        constructor
        · intro hturn p hp hpi
          have hgets := hturn ⟨item, hcall⟩ p hp
          rw [if_pos hpi, hsaves] at hgets
          cases hgets
        · intro hne _ p hp
          rw [if_neg (hne p hp), hsaves]
          exact fun h => by cases h
      rw [hturn, inStep_iff_of rfl]
      simp only [newWrite, newMint, Option.toList_none, List.map_nil, List.append_nil]
      refine forall_congr' fun p => imp_congr_right fun hp => ?_
      by_cases hpi : p.1 = i
      · rw [if_pos hpi]
        refine iff_of_false ?_ (fun h => h hpi)
        rintro (hpending | hlast)
        · cases hpending
        · obtain ⟨q, hq, heq⟩ := Option.map_eq_some_iff.mp hlast
          exact hminted q (List.mem_of_mem_getLast? hq) (heq.trans hpi)
      · rw [if_neg hpi]
        exact iff_of_true (h p hp) hpi
    | mints item hsaves =>
      have hturn : TakesTurn s (.advance i saves) ↔ ∀ p ∈ s.written.getLast?, p.1 ≠ i → s.pending p.1 = true := by
        constructor
        · intro hturn p hp hpi
          have hgets := hturn ⟨item, hcall⟩ p hp
          rw [if_neg hpi] at hgets
          exact hgets hsaves
        · intro hpending _ p hp
          split_ifs with hpi
          · exact hsaves
          · exact fun _ => hpending p hp hpi
      rw [hturn, inStep_iff_of rfl]
      simp only [newWrite, newMint, Option.toList_none, List.map_nil, List.append_nil]
      refine forall_congr' fun p => imp_congr_right fun hp => ?_
      by_cases hpi : p.1 = i
      · exact iff_of_true (.inr (by simp [hpi])) fun hne => absurd hpi hne
      · rw [if_neg hpi]
        constructor
        · rintro (hpending | hlast)
          · exact fun _ => hpending
          · refine absurd ?_ hpi
            simpa [eq_comm] using hlast
        · exact fun hpending => .inl (hpending hpi)

/-! ## Numbers and the clipboard -/

/-- Clips are numbered in the order in which they are minted, and what was written last is on the clipboard. -/
structure Logs (B : Backend σ) (Good : σ → Prop) (s : PushCalls σ) : Prop where
  good : Good s.hub.clipboard
  seqs : s.minted.Pairwise fun p q => p.2.clipMeta.seq < q.2.clipMeta.seq
  top : ∀ p ∈ s.minted, p.2.clipMeta.seq ≤ s.hub.state.inner.seq
  held : ¬ s.Broke → ∀ p ∈ s.written.getLast?, ∃ back, B.get s.hub.clipboard = .ok (some back) ∧ back.data = p.2.data

omit [Sha256] in
/-- A failure is never forgotten. -/
theorem broke_update {i : ℕ} {call call' : Pushing} (hcall : s.calls i = some call) (hnot : ∀ res, call ≠ .returned res)
    (hcalls : t.calls = Function.update s.calls i (some call')) (h : s.Broke) : t.Broke := by
  obtain ⟨j, e, hj⟩ := h
  refine ⟨j, e, ?_⟩
  rw [hcalls, Function.update_of_ne, hj]
  rintro rfl
  exact hnot _ (Option.some.inj (hcall.symm.trans hj))

omit [Sha256] in
/-- A call goes on, and neither writes nor mints. -/
theorem Logs.kept (h : Logs B Good s) {i : ℕ} {call call' : Pushing} (hcall : s.calls i = some call)
    (hnot : ∀ res, call ≠ .returned res) (hcalls : t.calls = Function.update s.calls i (some call'))
    (hwritten : t.written = s.written) (hminted : t.minted = s.minted)
    (hseq : s.hub.state.inner.seq ≤ t.hub.state.inner.seq) (hclip : t.hub.clipboard = s.hub.clipboard) : Logs B Good t := by
  refine ⟨hclip ▸ h.good, hminted ▸ h.seqs, fun p hp => (h.top p (hminted ▸ hp)).trans hseq, fun hok p hp => ?_⟩
  rw [hclip]
  exact h.held (fun hf => hok (broke_update hcall hnot hcalls hf)) p (hwritten ▸ hp)

theorem Logs.advance (hB : Returns B Good Given) (hinv : Inv Given s) (h : Logs B Good s) (hseq : s.hub.state.inner.seq + 1 < 2 ^ 64) {i : ℕ}
    {saves : Bool} (hs : step B s (.advance i saves) = some t) :
    Logs B Good t ∧ t.hub.state.inner.seq ≤ s.hub.state.inner.seq + 1 := by
  have hnext : s.hub.nextSeq = s.hub.state.inner.seq + 1 := Nat.mod_eq_of_lt hseq
  obtain ⟨call, hub, call', out, hcall, hadv, rfl⟩ := advance_cases hs
  cases hadv with
  | announced item =>
    exact ⟨h.kept hcall (fun _ h => by cases h) rfl (List.append_nil _) (List.append_nil _) (Nat.le_refl _) rfl,
      Nat.le_succ _⟩
  | noted item =>
    exact ⟨h.kept hcall (fun _ h => by cases h) rfl (List.append_nil _) (List.append_nil _) (Nat.le_refl _) rfl,
      Nat.le_succ _⟩
  | emits clip =>
    exact ⟨h.kept hcall (fun _ h => by cases h) rfl (List.append_nil _) (List.append_nil _) (Nat.le_refl _) rfl,
      Nat.le_succ _⟩
  | failed item e clipboard hset =>
    have hstays := hB.stays item _ h.good
    rw [hset] at hstays
    refine ⟨⟨hstays, ?_, ?_, fun hok => absurd ⟨i, e, Function.update_self ..⟩ hok⟩, Nat.le_succ _⟩
    · simpa [newMint] using h.seqs
    · simpa [newMint] using h.top
  | wrote item stored clipboard hset =>
    obtain ⟨hgiven, hfits⟩ := hinv.early i (.storing item) hcall item rfl
    obtain ⟨hdata, back, hget, hback, -⟩ := hB.got h.good hgiven hfits hset
    have hstays := hB.stays item _ h.good
    rw [hset] at hstays
    refine ⟨⟨hstays, ?_, ?_, fun _ p hp => ?_⟩, Nat.le_succ _⟩
    · simpa [newMint] using h.seqs
    · simpa [newMint] using h.top
    · obtain rfl : (i, stored) = p := by simpa [newWrite] using hp
      exact ⟨back, hget, hback.trans hdata.symm⟩
  | unsaved item hsaves =>
    have hbumped : (s.hub.bumped false).state.inner.seq = s.hub.state.inner.seq + 1 := by rw [Hub.bumped_seq, hnext]
    refine ⟨h.kept hcall (fun _ h => by cases h) rfl (List.append_nil _) (List.append_nil _) ?_ rfl, hbumped.le⟩
    exact (Nat.le_succ _).trans hbumped.ge
  | mints item hsaves =>
    have hbumped : (s.hub.bumped true).state.inner.seq = s.hub.state.inner.seq + 1 := by rw [Hub.bumped_seq, hnext]
    have hclip : (s.hub.minted item.mime item.name item.data item.hash).clipMeta.seq = s.hub.state.inner.seq + 1 :=
      hnext
    refine ⟨⟨h.good, ?_, ?_, fun hok p hp => ?_⟩, hbumped.le⟩
    · simp only [newMint, Option.toList_some, List.map_cons, List.map_nil]
      rw [List.pairwise_append]
      refine ⟨h.seqs, List.pairwise_singleton _ _, fun p hp q hq => ?_⟩
      obtain rfl := List.mem_singleton.mp hq
      have := h.top p hp
      change p.2.clipMeta.seq < (s.hub.minted item.mime item.name item.data item.hash).clipMeta.seq
      omega
    · intro p hp
      change p.2.clipMeta.seq ≤ (s.hub.bumped true).state.inner.seq
      obtain hp | hp := List.mem_append.mp hp
      · have := h.top p hp
        omega
      · obtain rfl := List.mem_singleton.mp hp
        exact (hclip.trans hbumped.symm).le
    · refine h.held (fun hf => hok (broke_update hcall (fun _ h => by cases h) rfl hf)) p ?_
      simpa [newWrite] using hp

theorem Logs.step (hB : Returns B Good Given) (hinv : Inv Given s) (h : Logs B Good s) (hseq : s.hub.state.inner.seq + 1 < 2 ^ 64)
    {e : PushEvent} (hs : PushCalls.step B s e = some t) :
    Logs B Good t ∧ t.hub.state.inner.seq ≤ s.hub.state.inner.seq + 1 := by
  cases e with
  | begin i item =>
    obtain ⟨hnone, rfl⟩ := begin_spec hs
    refine ⟨⟨h.good, h.seqs, h.top, fun hok => h.held fun hf => hok ?_⟩, Nat.le_succ _⟩
    obtain ⟨j, e, hj⟩ := hf
    refine ⟨j, e, ?_⟩
    change Function.update s.calls i _ j = _
    rw [Function.update_of_ne, hj]
    rintro rfl
    rw [hnone] at hj
    cases hj
  | advance i saves => exact h.advance hB hinv hseq hs
  | tick =>
    obtain rfl := Option.some.inj hs
    exact ⟨⟨h.good, h.seqs, h.top, h.held⟩, Nat.le_succ _⟩

/-! ## Runs -/

/-- A call that there is was there before, or began in the run. -/
theorem begun {es : List PushEvent} {i : ℕ} {call : Pushing} (hnone : s.calls i = none)
    (hrun : exec (step B) s es = some t) (hcall : t.calls i = some call) : ∃ e ∈ es, e.call = some i := by
  by_contra hnever
  have hkept : t.calls i = none := by
    refine exec_guarded (I := fun u => u.calls i = none) (C := fun _ e => e.call ≠ some i) ?_ hnone
      (guarded_of_forall _ (fun e he hi => hnever ⟨e, he, hi⟩) s) hrun
    intro u e v hu he hv
    cases e with
    | begin j item =>
      obtain ⟨-, rfl⟩ := begin_spec hv
      exact (Function.update_of_ne (fun hij => he (congrArg some hij.symm)) ..).trans hu
    | advance j saves =>
      obtain ⟨-, -, -, -, -, -, rfl⟩ := advance_cases hv
      exact (Function.update_of_ne (fun hij => he (congrArg some hij.symm)) ..).trans hu
    | tick =>
      obtain rfl := Option.some.inj hv
      exact hu
  rw [hkept] at hcall
  cases hcall

/-- No call has been made. -/
structure Starts (s : PushCalls σ) : Prop where
  calls : ∀ i, s.calls i = none
  out : s.out = []
  written : s.written = []
  minted : s.minted = []

omit [Sha256] in
theorem Starts.inv (h : Starts s) : Inv Given s := by
  have hcalls : ∀ i call, s.calls i ≠ some call := fun i call hc => by
    rw [h.calls i] at hc
    cases hc
  constructor
  case early => exact fun i call hc => absurd hc (hcalls i call)
  case pending => exact fun i call hc => absurd hc (hcalls i call)
  case written => simp [h.written]
  case once => simp [h.written]
  case source => simp [h.minted]
  case minted => simp [h.minted]
  case making => exact fun i clip hc => absurd hc (hcalls i _)
  case out => simp [h.out]

omit [Sha256] in
theorem Starts.logs (h : Starts s) (hgood : Good s.hub.clipboard) : Logs B Good s := by
  constructor
  case good => exact hgood
  case seqs => simp [h.minted]
  case top => simp [h.minted]
  case held => simp [h.written]

omit [Sha256] in
theorem Starts.inStep (h : Starts s) : InStep s := by
  simp [InStep, h.written]

theorem Logs.run (hB : Returns B Good Given) {es : List PushEvent} (hinv : Inv Given s) (h : Logs B Good s)
    (hes : ∀ e ∈ es, Copies Given e) (hseq : s.hub.state.inner.seq + es.length < 2 ^ 64)
    (hrun : exec (PushCalls.step B) s es = some t) : Inv Given t ∧ Logs B Good t := by
  induction es generalizing s with
  | nil =>
    obtain rfl := Option.some.inj hrun
    exact ⟨hinv, h⟩
  | cons e es ih =>
    obtain ⟨u, hu, hrest⟩ := exec_cons_eq_some _ hrun
    rw [List.length_cons] at hseq
    obtain ⟨he, hes⟩ := List.forall_mem_cons.mp hes
    obtain ⟨hlogs, hup⟩ := h.step hB hinv (by omega) hu
    exact ih (hinv.step he hu) hlogs hes (by omega) hrest

/-! ## Whether the devices come to agree -/

omit [Sha256] in
theorem Logs.newest (h : Logs B Good s) {q : ℕ × Clip} (hq : s.minted.getLast? = some q) {p : ℕ × Clip}
    (hp : p ∈ s.minted) : p = q ∨ p.2.clipMeta.seq < q.2.clipMeta.seq := by
  obtain ⟨before, hbefore⟩ := List.getLast?_eq_some_iff.mp hq
  have hseqs := h.seqs
  rw [hbefore] at hp hseqs
  obtain hp | hp := List.mem_append.mp hp
  · exact .inr ((List.pairwise_append.mp hseqs).2.2 p hp q List.mem_cons_self)
  · exact .inl (List.mem_singleton.mp hp)

omit [Sha256] in
/-- Two entries for one call are one. -/
theorem Inv.written_unique (h : Inv Given s) {i : ℕ} {item item' : Item} (hitem : (i, item) ∈ s.written)
    (hitem' : (i, item') ∈ s.written) : item = item' := by
  have heq := List.inj_on_of_nodup_map h.once hitem hitem' rfl
  exact (Prod.mk.inj heq).2

omit [Sha256] in
/-- Once the calls have returned, what was minted has been sent. -/
theorem Inv.sent (h : Inv Given s) (hdone : AllReturned s) {p : ℕ × Clip} (hp : p ∈ s.minted) : ⟨p.2, none⟩ ∈ s.out := by
  obtain hcall | ⟨-, hout⟩ := h.minted p hp
  · obtain ⟨res, hres⟩ := hdone _ _ hcall
    cases hres
  · exact hout

omit [Sha256] in
theorem InStep.agrees (h : InStep s) (hinv : Inv Given s) (hlogs : Logs B Good s) (hdone : AllReturned s) (hok : ¬ Broke s)
    (hne : s.written ≠ []) : Agrees B s := by
  obtain ⟨p, hp⟩ := Option.isSome_iff_exists.mp (List.getLast?_isSome.mpr hne)
  obtain hpending | hlast := h p hp
  · obtain ⟨item, hitem⟩ := Option.isSome_iff_exists.mp hpending
    obtain ⟨call, hcall, hc⟩ := Option.bind_eq_some_iff.mp hitem
    obtain ⟨res, rfl⟩ := hdone _ _ hcall
    cases hc
  · obtain ⟨q, hq, hqp⟩ := Option.map_eq_some_iff.mp hlast
    have hmem := List.mem_of_mem_getLast? hq
    obtain ⟨item, hitem, hdata⟩ := hinv.source q hmem
    have hsame : item = p.2 := hinv.written_unique hitem (hqp ▸ List.mem_of_mem_getLast? hp)
    obtain ⟨back, hget, hback⟩ := hlogs.held hok p hp
    refine ⟨q.2, back, hinv.sent hdone hmem, fun o ho => ?_, hget, ?_⟩
    · obtain ⟨r, hr, hclip⟩ := hinv.out o ho
      rw [hclip]
      obtain rfl | hlt := hlogs.newest hq hr
      · exact Nat.le_refl _
      · exact hlt.le
    · rw [hback, hdata, hsame]

/-- No two of the calls that wrote stored the same content. -/
def Distinct (s : PushCalls σ) : Prop := ∀ p ∈ s.written, ∀ q ∈ s.written, p.2.data = q.2.data → p.1 = q.1

omit [Sha256] in
theorem Agrees.inStep (h : Agrees B s) (hinv : Inv Given s) (hlogs : Logs B Good s) (hdone : AllReturned s) (hok : ¬ Broke s)
    (hdistinct : Distinct s) : InStep s := by
  intro p hp
  right
  obtain ⟨clip, item, hout, hmax, hget, hdata⟩ := h
  obtain ⟨r, hr, hclip⟩ := hinv.out _ hout
  obtain rfl : clip = r.2 := hclip
  -- what was sent with the highest number was minted last
  obtain ⟨q, hq⟩ := Option.isSome_iff_exists.mp (List.getLast?_isSome.mpr (List.ne_nil_of_mem hr))
  have hle := hmax _ (hinv.sent hdone (List.mem_of_mem_getLast? hq))
  obtain rfl | hlt := hlogs.newest hq hr
  · obtain ⟨item', hitem', hdata'⟩ := hinv.source r hr
    obtain ⟨back, hget', hback⟩ := hlogs.held hok p hp
    obtain rfl := Option.some.inj (Except.ok.inj (hget.symm.trans hget'))
    have hid := hdistinct _ hitem' p (List.mem_of_mem_getLast? hp) (by rw [← hback, hdata, hdata'])
    rw [hq, Option.map_some, ← hid]
  · exact absurd hle (Nat.not_le.mpr hlt)

/-- Copies made at the same time. The run is in step exactly when every call takes its number in turn: the last to write
gets one, and none gets one after it. With a backend that returns what it has taken, and once all have returned, being in
step means that the clip every other device keeps is the one on this clipboard, and when their contents differ nothing
else does. -/
theorem agrees_iff_inStep (hs : Starts s) {es : List PushEvent} (hrun : exec (step B) s es = some t) :
    (Along (step B) InStep s es ↔ Guarded (step B) TakesTurn s es) ∧
      (Returns B Good Given → Good s.hub.clipboard → (∀ e ∈ es, Copies Given e) →
        s.hub.state.inner.seq + es.length < 2 ^ 64 → t.AllReturned → ¬ t.Broke → t.written ≠ [] →
        (InStep t → Agrees B t) ∧ (t.Distinct → Agrees B t → InStep t)) := by
  constructor
  · have hall : ∀ e, Copies (fun _ => True) e := fun e => by cases e <;> exact trivial
    exact along_iff_guarded (I := Inv fun _ => True) (fun s e t h ht => h.step (hall e) ht)
      (fun s e t hinv h ht => hinv.inStep_step h ht) hs.inv hs.inStep (by rw [hrun]; rfl)
  · intro hB hgood hes hseq hdone hok hne
    obtain ⟨hinv, hlogs⟩ := (hs.logs hgood).run hB hs.inv hes hseq hrun
    exact ⟨fun h => h.agrees hinv hlogs hdone hok hne, fun hdistinct h => h.inStep hinv hlogs hdone hok hdistinct⟩

end Steps
end PushCalls

/-! ### Two copies that cross -/

def hiCopy : Item := ⟨"text/plain", [104, 105], "", "", ""⟩

def yoCopy : Item := ⟨"text/plain", [121, 111], "", "", ""⟩

def desktopStill : PushCalls (Option Item) :=
  ⟨Hub.new "desktop" none ⟨⟨0, []⟩, ⟨0, []⟩⟩ 5, 0, fun _ => none, [], [], []⟩

theorem desktopStill_starts : desktopStill.Starts := ⟨fun _ => rfl, rfl, rfl, rfl⟩

/-- `hi` is written, and then `yo`. -/
def bothWritten : List PushEvent :=
  [.begin 0 hiCopy, .begin 1 yoCopy, .advance 0 true, .advance 0 true, .advance 1 true, .advance 1 true]

/-- They take their numbers as they wrote. -/
def inTurn : List PushEvent :=
  bothWritten ++ [.advance 0 true, .advance 0 true, .advance 1 true, .advance 1 true, .advance 1 true, .advance 0 true]

theorem bothReturned [Sha256] {es : List PushEvent} {t : PushCalls (Option Item)}
    (hes : ∀ e ∈ es, e.call = some 0 ∨ e.call = some 1) (ht : exec (PushCalls.step memory) desktopStill es = some t)
    (h0 : ∃ clip, t.calls 0 = some (.returned (.ok clip))) (h1 : ∃ clip, t.calls 1 = some (.returned (.ok clip))) :
    t.AllReturned ∧ ¬ t.Broke := by
  have hcalls : ∀ i call, t.calls i = some call → ∃ clip, call = .returned (.ok clip) := by
    intro i call hcall
    obtain ⟨e, he, hi⟩ := PushCalls.begun rfl ht hcall
    obtain h | h := hes e he
    · obtain rfl := Option.some.inj (h.symm.trans hi)
      exact h0.imp fun _ h => Option.some.inj (hcall.symm.trans h)
    · obtain rfl := Option.some.inj (h.symm.trans hi)
      exact h1.imp fun _ h => Option.some.inj (hcall.symm.trans h)
  refine ⟨fun i call hcall => ?_, ?_⟩
  · obtain ⟨clip, hclip⟩ := hcalls i call hcall
    exact ⟨_, hclip⟩
  · rintro ⟨i, e, hcall⟩
    obtain ⟨clip, hclip⟩ := hcalls i _ hcall
    cases hclip

theorem inTurn_agrees :
    letI := sampleSha256
    ∃ t, exec (PushCalls.step memory) desktopStill inTurn = some t ∧ t.hub.clipboard.map Item.data = some [121, 111] ∧
      Along (PushCalls.step memory) PushCalls.InStep desktopStill inTurn ∧ PushCalls.Agrees memory t := by
  let _ := sampleSha256
  obtain ⟨t, ht⟩ : ∃ t, exec (PushCalls.step memory) desktopStill inTurn = some t := ⟨_, rfl⟩
  obtain ⟨hdone, hok⟩ : t.AllReturned ∧ ¬ t.Broke := by
    refine bothReturned (by decide) ht ?_ ?_
    · obtain rfl := Option.some.inj ht
      exact ⟨_, rfl⟩
    · obtain rfl := Option.some.inj ht
      exact ⟨_, rfl⟩
  obtain ⟨halong, hagrees⟩ := PushCalls.agrees_iff_inStep (B := memory) desktopStill_starts ht
  have hin := halong.mpr ?_
  have hgiven : ∀ e ∈ inTurn, PushCalls.Copies (fun item => item.hash ≠ "") e := by
    intro e _
    cases e with
    | begin i item => exact Hub.hashed_hash_ne item
    | _ => exact trivial
  refine ⟨t, ht, ?_, hin, (hagrees memory_exact.returns trivial hgiven (by decide) hdone hok ?_).1 (along_last hin ht)⟩
  · obtain rfl := Option.some.inj ht
    rfl
  · obtain rfl := Option.some.inj ht
    decide
  · decide

/-- `yo` takes its number first, and `hi` after it: the other devices keep `hi`. -/
def outOfTurn : List PushEvent :=
  bothWritten ++ [.advance 1 true, .advance 1 true, .advance 0 true, .advance 0 true, .advance 0 true, .advance 1 true]

theorem outOfTurn_disagrees :
    letI := sampleSha256
    ∃ t, exec (PushCalls.step memory) desktopStill outOfTurn = some t ∧ t.AllReturned ∧ ¬ t.Broke ∧
      ¬ PushCalls.Agrees memory t := by
  let _ := sampleSha256
  obtain ⟨t, ht⟩ : ∃ t, exec (PushCalls.step memory) desktopStill outOfTurn = some t := ⟨_, rfl⟩
  obtain ⟨hdone, hok⟩ : t.AllReturned ∧ ¬ t.Broke := by
    refine bothReturned (by decide) ht ?_ ?_
    · obtain rfl := Option.some.inj ht
      exact ⟨_, rfl⟩
    · obtain rfl := Option.some.inj ht
      exact ⟨_, rfl⟩
  refine ⟨t, ht, hdone, hok, ?_⟩
  rintro ⟨clip, item, hclip, hmax, hget, hdata⟩
  have hyo : clip.data = [121, 111] := by
    rw [← hdata]
    obtain rfl := Option.some.inj ht
    obtain rfl := Option.some.inj (Except.ok.inj hget)
    rfl
  have hnewer : ∀ o ∈ t.out, o.clip.data = [121, 111] → ∃ p ∈ t.out, o.clip.clipMeta.seq < p.clip.clipMeta.seq := by
    obtain rfl := Option.some.inj ht
    decide
  obtain ⟨p, hp, hlt⟩ := hnewer _ hclip hyo
  exact absurd (hmax p hp) (Nat.not_le.mpr hlt)

end Zsync
