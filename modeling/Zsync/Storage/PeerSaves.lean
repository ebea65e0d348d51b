import Zsync.Model.Daemon
import Zsync.Model.Saving

/-! # Peer lists and saves that fail

`upsert_peer` and `remove_peer` change the memory and save it afterwards. When the save fails the caller gets an error,
and the change stays in the memory, from where any later save of anything takes it to the disk.

* `PeerBook` : the steps of `Saving`, with the peers that the callers have been told.
* `Agrees` : an idle process holds these peers, and so does the file after a save that succeeded.
* `agrees_iff_moot` : a run stays so exactly when each call whose save fails would have changed nothing.
* `dispatch_failed` : no session hears of a request whose save failed.
-/

namespace Zsync
set_option autoImplicit false
set_option maxHeartbeats 250000
open Foundations

/-! ## Calls that change nothing -/

namespace StateFile

theorem upsert_cons (uri : String) (enabled : Bool) (p : PeerState) (peers : List PeerState) :
    upsert uri enabled (p :: peers) =
      if p.uri = uri then { p with enabled := enabled } :: peers else p :: upsert uri enabled peers := by
  unfold upsert
  by_cases h : p.uri = uri
  · simp [h, List.findIdx_cons]
  · simp only [List.find?_cons, List.findIdx_cons, h, decide_false, cond_false, if_false]
    split_ifs <;> rfl

/-- The peer is there, with this flag. -/
def Listed (uri : String) (enabled : Bool) (peers : List PeerState) : Prop :=
  (peers.find? fun p => p.uri = uri).map PeerState.enabled = some enabled

instance (uri : String) (enabled : Bool) (peers : List PeerState) : Decidable (Listed uri enabled peers) :=
  inferInstanceAs (Decidable (_ = _))

theorem upsert_eq_self (uri : String) (enabled : Bool) (peers : List PeerState) :
    upsert uri enabled peers = peers ↔ Listed uri enabled peers := by
  induction peers with
  | nil => simp [upsert, Listed]
  | cons p peers ih =>
    rw [upsert_cons, Listed, List.find?_cons]
    by_cases h : p.uri = uri
    · obtain ⟨name, flag⟩ := p
      dsimp only at h
      subst h
      rw [if_pos rfl]
      simp [eq_comm]
    · rw [if_neg h]
      simp only [h, decide_false, List.cons.injEq, true_and]
      exact ih

end StateFile

namespace StateCall

def peers (ps : List PeerState) (c : StateCall) : List PeerState := (c.change ⟨0, ps⟩).peers

theorem change_peers (c : StateCall) (s : State) : (c.change s).peers = c.peers s.peers := by
  cases c with
  | nextSeq => rfl
  | upsertPeer uri enabled => rfl
  | removePeer uri => cases uri <;> rfl

/-- The call has nothing to change: the peer is listed with this flag, or there is none to remove. -/
def Moot (ps : List PeerState) : StateCall → Prop
  | .nextSeq => True
  | .upsertPeer uri enabled => StateFile.Listed uri enabled ps
  | .removePeer (some uri) => uri ∉ ps.map PeerState.uri
  | .removePeer none => ps = []

instance (ps : List PeerState) : ∀ c, Decidable (Moot ps c)
  | .nextSeq => inferInstanceAs (Decidable True)
  | .upsertPeer uri enabled => inferInstanceAs (Decidable (StateFile.Listed uri enabled ps))
  | .removePeer (some uri) => inferInstanceAs (Decidable (uri ∉ ps.map PeerState.uri))
  | .removePeer none => inferInstanceAs (Decidable (ps = []))

theorem peers_eq_self (c : StateCall) (ps : List PeerState) : c.peers ps = ps ↔ c.Moot ps := by
  cases c with
  | nextSeq => exact iff_of_true rfl trivial
  | upsertPeer uri enabled => exact StateFile.upsert_eq_self uri enabled ps
  | removePeer uri =>
    cases uri with
    | none => exact eq_comm
    | some uri =>
      change (ps.filter fun p => p.uri ≠ uri) = ps ↔ uri ∉ ps.map PeerState.uri
      rw [List.filter_eq_self, List.mem_map]
      simp

end StateCall

/-! ## Runs -/

/-- `agreed` is what the calls that succeeded have made of the peers. -/
structure PeerBook where
  saving : Saving
  agreed : List PeerState
  deriving DecidableEq, Repr

namespace PeerBook

/-- A call has succeeded once its file is renamed; a new process knows what is on the disk. -/
def agreedAfter (b : PeerBook) : SaveEvent → List PeerState
  | .rename true =>
    match b.saving.process with
    | some ⟨_, some (c, _)⟩ => c.peers b.agreed
    | _ => b.agreed
  | .reopen => (Saving.readable b.saving.disk).peers
  | _ => b.agreed

def step (b : PeerBook) (e : SaveEvent) : Option PeerBook :=
  (b.saving.step e).map fun saving => ⟨saving, b.agreedAfter e⟩

/-- An idle process with any state in memory and on the disk. -/
def opened (f : StateFile) (tmp : Option State) : PeerBook := ⟨Saving.idle f tmp [], f.inner.peers⟩

/-- What `get` returns, and what a save that succeeded has left. -/
structure Agrees (b : PeerBook) : Prop where
  memory : ∀ inner, b.saving.process = some ⟨inner, none⟩ → inner.peers = b.agreed
  disk : ∀ inner c, b.saving.process = some ⟨inner, some (c, .ret)⟩ →
    (Saving.readable b.saving.disk).peers = b.agreed

/-- A save that fails is that of a call with nothing to change. -/
def Moot (b : PeerBook) : SaveEvent → Prop
  | .write false | .rename false =>
    ∀ p ∈ b.saving.process, ∀ busy ∈ p.busy, busy.1.Moot b.agreed
  | _ => True

instance (b : PeerBook) : ∀ e, Decidable (b.Moot e)
  | .write false | .rename false =>
    inferInstanceAs (Decidable (∀ p ∈ b.saving.process, ∀ busy ∈ p.busy, busy.1.Moot b.agreed))
  | .write true | .rename true | .reopen | .call _ | .ret | .crash _ => inferInstanceAs (Decidable True)

/-- What a call under way holds in memory. -/
structure Underway (b : PeerBook) : Prop where
  changed : ∀ inner c stage, b.saving.process = some ⟨inner, some (c, stage)⟩ → stage ≠ .ret →
    inner.peers = c.peers b.agreed
  written : ∀ inner c, b.saving.process = some ⟨inner, some (c, .rename)⟩ → b.saving.tmp = some inner
  saved : ∀ inner c, b.saving.process = some ⟨inner, some (c, .ret)⟩ → inner.peers = b.agreed

variable {b t : PeerBook}

theorem opened_agrees (f : StateFile) (tmp : Option State) : (opened f tmp).Agrees where
  memory := by
    intro inner hp
    cases hp
    rfl
  disk := fun _ _ hp => nomatch hp

theorem opened_underway (f : StateFile) (tmp : Option State) : (opened f tmp).Underway where
  changed := fun _ _ _ hp => nomatch hp
  written := fun _ _ hp => nomatch hp
  saved := fun _ _ hp => nomatch hp

theorem idle_spec {inner : State} (h : t.saving.process = some ⟨inner, none⟩) :
    t.Underway ∧ (t.Agrees ↔ inner.peers = t.agreed) := by
  have hbusy : ∀ {i c stage}, t.saving.process ≠ some ⟨i, some (c, stage)⟩ := by
    intro i c stage hp
    rw [h] at hp
    cases hp
  refine ⟨⟨fun _ _ _ hp => absurd hp hbusy, fun _ _ hp => absurd hp hbusy, fun _ _ hp => absurd hp hbusy⟩, ?_⟩
  constructor
  · intro ha
    exact ha.memory inner h
  · intro heq
    refine ⟨fun i hp => ?_, fun _ _ hp => absurd hp hbusy⟩
    rw [h] at hp
    cases hp
    exact heq

/-- A call that has not renamed its file yet. -/
theorem busy_spec {inner : State} {c : StateCall} {stage : Stage}
    (h : t.saving.process = some ⟨inner, some (c, stage)⟩) (hstage : stage ≠ .ret)
    (hchanged : inner.peers = c.peers t.agreed) (htmp : stage = .rename → t.saving.tmp = some inner) :
    t.Underway ∧ t.Agrees := by
  refine ⟨⟨fun i c' st hp _ => ?_, fun i c' hp => ?_, fun i c' hp => ?_⟩, ⟨fun i hp => ?_, fun i c' hp => ?_⟩⟩
  · rw [h] at hp
    cases hp
    exact hchanged
  · rw [h] at hp
    cases hp
    exact htmp rfl
  · rw [h] at hp
    cases hp
    exact absurd rfl hstage
  · rw [h] at hp
    cases hp
  · rw [h] at hp
    cases hp
    exact absurd rfl hstage

/-- A save that fails leaves what the call has made of the memory. -/
theorem failed_spec {inner : State} {c : StateCall} {stage : Stage} (hu : b.Underway)
    (hb : b.saving.process = some ⟨inner, some (c, stage)⟩) (hstage : stage ≠ .ret)
    (ht : t.saving.process = some ⟨inner, none⟩) (hagreed : t.agreed = b.agreed) :
    t.Underway ∧ (t.Agrees ↔ c.Moot b.agreed) := by
  obtain ⟨hunder, hagrees⟩ := idle_spec ht
  refine ⟨hunder, ?_⟩
  rw [hagrees, hagreed, hu.changed inner c stage hb hstage]
  exact c.peers_eq_self b.agreed

theorem moot_iff {inner : State} {c : StateCall} {stage : Stage}
    (hb : b.saving.process = some ⟨inner, some (c, stage)⟩) :
    (∀ p ∈ b.saving.process, ∀ busy ∈ p.busy, busy.1.Moot b.agreed) ↔ c.Moot b.agreed := by
  rw [hb]
  simp

/-- One step: the process stays as described, and agrees with its callers unless a save fails that had something to
change. -/
theorem step_spec {e : SaveEvent} (hu : b.Underway) (ha : b.Agrees) (hs : b.step e = some t) :
    t.Underway ∧ (t.Agrees ↔ b.Moot e) := by
  obtain ⟨saving, hsaving, rfl⟩ := Option.map_eq_some_iff.mp hs
  cases e with
  | reopen =>
    simp only [Saving.step] at hsaving
    split at hsaving
    · obtain rfl := Option.some.inj hsaving
      exact And.imp_right (fun h => h.trans (iff_of_true rfl trivial)) (idle_spec rfl)
    · cases hsaving
  | call c =>
    simp only [Saving.step] at hsaving
    split at hsaving
    · next inner hp =>
      obtain rfl := Option.some.inj hsaving
      have hchanged : (c.change inner).peers = c.peers b.agreed := by
        rw [c.change_peers, ha.memory inner hp]
      exact And.imp_right (fun h => iff_of_true h trivial)
        (busy_spec rfl (by decide) hchanged fun h => (nomatch h))
    · cases hsaving
  | write ok =>
    simp only [Saving.step] at hsaving
    split at hsaving
    · next inner c hp =>
      cases ok with
      | true =>
        obtain rfl := Option.some.inj hsaving
        have hchanged := hu.changed inner c .write hp (by decide)
        exact And.imp_right (fun h => iff_of_true h trivial)
          (busy_spec rfl (by decide) hchanged fun _ => rfl)
      | false =>
        obtain rfl := Option.some.inj hsaving
        exact And.imp_right (fun h => h.trans (moot_iff hp).symm) (failed_spec hu hp (by decide) rfl rfl)
    · cases hsaving
  | rename ok =>
    simp only [Saving.step] at hsaving
    split at hsaving
    · next inner c hp =>
      have hchanged := hu.changed inner c .rename hp (by decide)
      cases ok with
      | true =>
        obtain rfl := Option.some.inj hsaving
        have hagreed : b.agreedAfter (.rename true) = c.peers b.agreed := by
          rw [agreedAfter, hp]
        have htmp := hu.written inner c hp
        refine ⟨⟨fun i c' st hp' hst => ?_, fun i c' hp' => (nomatch hp'), fun i c' hp' => ?_⟩,
          iff_of_true ⟨fun i hp' => (nomatch hp'), fun i c' hp' => ?_⟩ trivial⟩
        · cases hp'
          exact absurd rfl hst
        · cases hp'
          exact hchanged.trans hagreed.symm
        · change (Saving.readable b.saving.tmp).peers = b.agreedAfter (.rename true)
          rw [htmp, hagreed]
          exact hchanged
      | false =>
        obtain rfl := Option.some.inj hsaving
        exact And.imp_right (fun h => h.trans (moot_iff hp).symm) (failed_spec hu hp (by decide) rfl rfl)
    · cases hsaving
  | ret =>
    simp only [Saving.step] at hsaving
    split at hsaving
    · next inner c hp =>
      obtain rfl := Option.some.inj hsaving
      exact And.imp_right (fun h => h.trans (iff_of_true (hu.saved inner c hp) trivial)) (idle_spec rfl)
    · cases hsaving
  | crash torn =>
    simp only [Saving.step] at hsaving
    split at hsaving
    · obtain rfl := Option.some.inj hsaving
      exact ⟨⟨fun _ _ _ hp => (nomatch hp), fun _ _ hp => (nomatch hp), fun _ _ hp => (nomatch hp)⟩,
        iff_of_true ⟨fun _ hp => (nomatch hp), fun _ _ hp => (nomatch hp)⟩ trivial⟩
    · cases hsaving

/-- From any memory and any file, memory and file are what the callers were told in every state of a run exactly when
each save that fails is that of a call with nothing to change. -/
theorem agrees_iff_moot (f : StateFile) (tmp : Option State) {es : List SaveEvent}
    (hrun : (exec step (opened f tmp) es).isSome) :
    Along step Agrees (opened f tmp) es ↔ Guarded step Moot (opened f tmp) es :=
  along_iff_guarded_of (I := Underway) (fun _ _ _ hu ha hs => (step_spec hu ha hs).1)
    (fun _ _ _ hu ha hs => (step_spec hu ha hs).2) (opened_underway f tmp) (opened_agrees f tmp) hrun

/-- Enabling a peer that is enabled, and a number that cannot be saved. -/
def mootFailures : List SaveEvent :=
  [.call (.upsertPeer "desk:43721" true), .write false, .call .nextSeq, .write true, .rename false,
    .call (.removePeer (some "phone:43721")), .write true, .rename false, .call .nextSeq, .write true, .rename true, .ret]

theorem mootFailures_agree :
    Along step Agrees (opened ⟨⟨3, [⟨"desk:43721", true⟩]⟩, ⟨3, []⟩⟩ none) mootFailures :=
  (agrees_iff_moot ⟨⟨3, [⟨"desk:43721", true⟩]⟩, ⟨3, []⟩⟩ none (by decide)).mpr (by decide)

/-- `connect` fails because the disk is full, and the next sequence number saves the peer all the same. -/
theorem rejectedPeer_saved :
    ∃ t, exec step (opened ⟨⟨0, []⟩, ⟨0, []⟩⟩ none)
        [.call (.upsertPeer "desk:43721" true), .write false, .call .nextSeq, .write true, .rename true, .ret] = some t ∧
      t.agreed = [] ∧ (Saving.readable t.saving.disk).peers = [⟨"desk:43721", true⟩] ∧ ¬ t.Agrees := by
  refine ⟨_, rfl, by decide, by decide, fun h => ?_⟩
  exact absurd (h.memory _ rfl) (by decide)

end PeerBook

/-! ## The sessions -/

/-- A request whose save fails starts and stops nothing. -/
theorem Runtime.dispatch_failed [Base64] {io : RequestIo} {e : String} (h : io.state = .error e) (rt : Runtime)
    (req : Request) :
    (rt.dispatch io req).task = none ∧ (rt.dispatch io req).rt.peers = rt.peers ∧
      (rt.dispatch io req).rt.stopped = rt.stopped ∧ (rt.dispatch io req).rt.live = rt.live := by
  cases req with
  | connect uri =>
    cases uri with
    | none => exact ⟨rfl, rfl, rfl, rfl⟩
    | some uri =>
      unfold dispatch connect
      dsimp only
      split
      · exact ⟨rfl, rfl, rfl, rfl⟩
      · split
        · exact ⟨rfl, rfl, rfl, rfl⟩
        · rw [h]
          exact ⟨rfl, rfl, rfl, rfl⟩
  | disconnect uri =>
    unfold dispatch disconnect
    rw [h]
    exact ⟨rfl, rfl, rfl, rfl⟩

end Zsync
