import Mathlib.Data.Finset.Card
import Zsync.Daemon.SessionSteps
import Zsync.Model.Statuses

/-! # What the status says and what runs

`remember_incoming` makes an entry that says `connected`, and nobody takes it away or changes it when the session
ends; and `maintain_tcp` says `connected` of a peer whose address is claimed, whoever has claimed it.

* `Serves`, `Hosts` : the sessions that an entry may stand for.
* `Truthful` : each entry that says `connected` has a running session, and so has each entry that was made for a
  connection.
* `vouched_step_iff` : which steps leave an entry behind.
* `truthful_of_covered` : in a run without such steps, the status tells the truth wherever no session is on its
  way out.
-/

namespace Zsync
set_option autoImplicit false
set_option maxHeartbeats 250000
open Foundations

namespace Daemon
variable {d t : Daemon} {e : DaemonEvent} {j : ℕ} {key : String}

/-! ## Who an entry stands for -/

/-- A session that was accepted from `key`, has claimed its node and has not returned. -/
def Hosts (d : Daemon) (key : String) (j : ℕ) : Prop :=
  d.origin j = some (.inl key) ∧ (d.holds j).isSome

/-- Such a session, or one that has claimed `key`. -/
def Serves (d : Daemon) (key : String) (j : ℕ) : Prop := d.Hosts key j ∨ d.holds j = some key

theorem sessions_of_holds (h : (d.holds j).isSome) : ∃ s, d.sessions j = some s ∧ s.holds = d.holds j := by
  cases hj : d.sessions j with
  | none =>
    rw [holds, hj] at h
    cases h
  | some s => exact ⟨s, rfl, (holds_of hj).symm⟩

theorem origin_of {s : Session} (h : d.sessions j = some s) : d.origin j = some s.origin := by
  rw [origin, h, Option.map_some]

/-- A session that does not return keeps its origin and what it holds. -/
theorem step_keeps [Base64] (hs : d.step e = some t) (hj : j ≠ e.task ∨ ¬ Returns d e)
    (hholds : (d.holds j).isSome) : t.origin j = d.origin j ∧ t.holds j = d.holds j := by
  obtain ⟨s, hsj, hsholds⟩ := sessions_of_holds hholds
  obtain ⟨s', hs', hbecomes⟩ := step_becomes hs hsj
  rw [origin_of hs', origin_of hsj, hbecomes.origin, holds_of hs', holds_of hsj]
  refine ⟨rfl, ?_⟩
  obtain hsame | hnone | ⟨hji, hr⟩ := hbecomes.holds
  · exact hsame
  · rw [← hsholds, hnone] at hholds
    cases hholds
  · exact absurd hr (hj.resolve_left (not_not.mpr hji))

theorem Hosts.step [Base64] (h : d.Hosts key j) (hs : d.step e = some t)
    (hj : j ≠ e.task ∨ ¬ Returns d e) : t.Hosts key j := by
  obtain ⟨horigin, hholds⟩ := step_keeps hs hj h.2
  exact ⟨horigin.trans h.1, hholds ▸ h.2⟩

theorem Serves.step [Base64] (h : d.Serves key j) (hs : d.step e = some t)
    (hj : j ≠ e.task ∨ ¬ Returns d e) : t.Serves key j := by
  obtain h | h := h
  · exact .inl (h.step hs hj)
  · exact .inr ((step_keeps hs hj (by rw [h]; rfl)).2.trans h)

/-- The sessions of the other tasks were there before. -/
theorem Hosts.before [Base64] (h : t.Hosts key j) (hs : d.step e = some t) (hj : j ≠ e.task) :
    d.Hosts key j := by
  have hholds : (d.holds j).isSome := step_others hs hj ▸ h.2
  exact ⟨(step_keeps hs (.inl hj) hholds).1 ▸ h.1, hholds⟩

theorem Serves.before [Base64] (h : t.Serves key j) (hs : d.step e = some t) (hj : j ≠ e.task) :
    d.Serves key j := by
  obtain h | h := h
  · exact .inl (h.before hs hj)
  · exact .inr ((step_others hs hj).symm.trans h)

/-- The task that finds its peer claimed by somebody and waits. -/
def polls (d : Daemon) : DaemonEvent → Option PeerTask
  | .attempt i =>
    match d.sessions i with
    | some (.dial task .idle) =>
      if task.stop ∉ d.rt.stopped ∧ task.target.relay.isNone ∧ task.target.uri ∈ d.rt.live then some task
      else none
    | _ => none
  | _ => none

/-- The status that the task of a session writes to. -/
def ownStatus (d : Daemon) (i : ℕ) : Option StopChan :=
  match d.sessions i with
  | some (.dial task _) => some task.stop
  | _ => none

end Daemon

/-! ## What the status owes -/

/-- Its connection is over, and it has yet to return. -/
def Session.ended : Session → Bool
  | .incoming _ (.ended _) | .dial _ .ended => true
  | _ => false

namespace Daemon
variable {d : Daemon} {j : ℕ} {key : String}

/-- Every session that has ended has returned. -/
def Quiet (d : Daemon) : Prop := ∀ i s, d.sessions i = some s → s.ended = false

/-- The session has its claim, and its connection is not over. -/
def Runs (d : Daemon) (j : ℕ) : Prop := (d.holds j).isSome ∧ ∀ s, d.sessions j = some s → s.ended = false

theorem Serves.claims (h : d.Serves key j) : (d.holds j).isSome := by
  obtain h | h := h
  · exact h.2
  · rw [h]
    rfl

theorem Serves.runs (h : d.Serves key j) (hq : d.Quiet) : d.Runs j := ⟨h.claims, hq j⟩

end Daemon

namespace Statuses
variable {x y : Statuses} {key : String} {c : StopChan}

/-- An entry that says `connected` has a running session, and one that was made for a connection has one from
its address. So there are no more of the latter than sessions that run. -/
structure Truthful (x : Statuses) : Prop where
  connected : ∀ key, x.shown key = some .connected → ∃ j, x.daemon.Runs j ∧ x.daemon.Serves key j
  inbound : ∀ key c, x.entry key = some c → x.inbound c = true → ∃ j, x.daemon.Runs j ∧ x.daemon.Hosts key j
  few : ∀ (keys : Finset String) (running : Finset ℕ),
    (∀ key ∈ keys, ∃ c, x.entry key = some c ∧ x.inbound c = true) → (∀ j, x.daemon.Runs j → j ∈ running) →
    keys.card ≤ running.card

theorem entry_fst (h : x.entry key = some c) : c.1 = key := by
  obtain ⟨chan, -, rfl⟩ := Option.map_eq_some_iff.mp h
  rfl

/-- Each entry that says `connected` has a session that serves it, and each one that was made for a connection
has one from its address; sessions that have ended count until they return. -/
structure Vouched (x : Statuses) : Prop where
  connected : ∀ key c, x.entry key = some c → x.state c = .connected → ∃ j, x.daemon.Serves key j
  inbound : ∀ key c, x.entry key = some c → x.inbound c = true → ∃ j, x.daemon.Hosts key j

/-- Every entry has another session than `i`, or does not need one. The entry of a dial that is over does not
say `connected` any more. -/
structure Spares (x : Statuses) (i : ℕ) : Prop where
  connected : ∀ key c, x.entry key = some c → c ∉ x.daemon.ownStatus i → x.state c = .connected →
    ∃ j, j ≠ i ∧ x.daemon.Serves key j
  inbound : ∀ key c, x.entry key = some c → x.inbound c = true → ∃ j, j ≠ i ∧ x.daemon.Hosts key j

/-- The step leaves no entry behind: a session that returns is not the only one of an entry, and a peer is not
taken for connected when its claim is held by nobody. -/
def Covered (x : Statuses) : StatusEvent → Prop
  | .daemon e => (x.daemon.Returns e → x.Spares e.task) ∧
      ∀ task ∈ x.daemon.polls e, x.entry task.target.uri = some task.stop →
        ∃ j, x.daemon.Serves task.target.uri j
  | .greeted _ => True

/-- Addresses and sessions belong together. -/
structure Inv (x : Statuses) : Prop where
  tasks : ∀ j task, x.daemon.origin j = some (.inr task) → task.stop.1 = task.target.uri
  cloned : ∀ j c, x.cloned j = some c → x.daemon.origin j = some (.inl c.1)

/-! ## Steps that keep the entries covered -/

/-- What the entry says was said before, or is true now. -/
structure Kept (x y : Statuses) (key : String) (c : StopChan) : Prop where
  connected : y.state c = .connected →
    x.entry key = some c ∧ x.state c = .connected ∨ ∃ j, y.daemon.Serves key j
  inbound : y.inbound c = true → x.entry key = some c ∧ x.inbound c = true ∨ ∃ j, y.daemon.Hosts key j

variable [Base64] {e : DaemonEvent} {t : Daemon}

theorem Vouched.keep (h : Vouched x) (hs : x.daemon.step e = some t) (hr : ¬ x.daemon.Returns e)
    (hy : y.daemon = t) (hkept : ∀ key c, y.entry key = some c → Kept x y key c) : Vouched y where
  connected := by
    intro key c hc hstate
    obtain ⟨hc', hstate'⟩ | hserved := (hkept key c hc).connected hstate
    · obtain ⟨j, hj⟩ := h.connected key c hc' hstate'
      exact ⟨j, hy ▸ hj.step hs (.inr hr)⟩
    · exact hserved
  inbound := by
    intro key c hc hin
    obtain ⟨hc', hin'⟩ | hserved := (hkept key c hc).inbound hin
    · obtain ⟨j, hj⟩ := h.inbound key c hc' hin'
      exact ⟨j, hy ▸ hj.step hs (.inr hr)⟩
    · exact hserved

omit [Base64] in
theorem entry_congr {d : Daemon} (h : d.rt.peers = x.daemon.rt.peers) :
    entry key { y with daemon := d } = x.entry key := by
  unfold entry
  rw [h]

omit [Base64] in
theorem kept_same (hpeers : t.rt.peers = x.daemon.rt.peers) (hc : entry key { x with daemon := t } = some c) :
    Kept x { x with daemon := t } key c := by
  rw [entry_congr hpeers] at hc
  exact ⟨fun h => .inl ⟨hc, h⟩, fun h => .inl ⟨hc, h⟩⟩

omit [Base64] in
/-- A note that says `connected` of a served entry, or says something else. -/
theorem kept_note {c₀ : StopChan} {state : LinkState} (hpeers : t.rt.peers = x.daemon.rt.peers)
    (hserved : state = .connected → ∃ j, t.Serves c₀.1 j)
    (hc : entry key { x.note c₀ state with daemon := t } = some c) :
    Kept x { x.note c₀ state with daemon := t } key c := by
  rw [entry_congr hpeers] at hc
  refine ⟨fun h => ?_, fun h => .inl ⟨hc, h⟩⟩
  change Function.update x.state c₀ state c = .connected at h
  rw [Function.update_apply] at h
  split_ifs at h with hcc
  · subst hcc
    exact .inr (entry_fst hc ▸ hserved h)
  · exact .inl ⟨hc, h⟩

omit [Base64] in
theorem rested_ne (task : PeerTask) (x : Statuses) :
    (if task.stop ∈ x.daemon.rt.stopped then LinkState.disconnected else .reconnecting) ≠ .connected := by
  split_ifs <;> decide

omit [Base64] in
theorem kept_rested {task : PeerTask} (hpeers : t.rt.peers = x.daemon.rt.peers)
    (hc : entry key { x.rested task with daemon := t } = some c) :
    Kept x { x.rested task with daemon := t } key c :=
  kept_note hpeers (fun h => absurd h (rested_ne task x)) hc

omit [Base64] in
/-- A new entry says that its peer is being connected. -/
theorem kept_spawned {task : Option PeerTask} (hmade : Runtime.Made x.daemon.rt t.rt task)
    (hc : entry key { x.spawned task with daemon := t } = some c) :
    Kept x { x.spawned task with daemon := t } key c := by
  obtain ⟨chan, hchan, rfl⟩ := Option.map_eq_some_iff.mp hc
  have hold : x.daemon.rt.peers.lookup key = some chan → x.entry key = some (key, chan) := fun h => by
    rw [entry, h, Option.map_some]
  cases task with
  | none =>
    obtain h | ⟨_, hp, _⟩ := hmade.entries key chan hchan
    · exact ⟨fun hstate => .inl ⟨hold h, hstate⟩, fun hin => .inl ⟨hold h, hin⟩⟩
    · cases hp
  | some task =>
    by_cases hstop : (key, chan) = task.stop
    · rw [hstop]
      refine ⟨fun hstate => ?_, fun hin => ?_⟩
      · change Function.update x.state task.stop .connecting task.stop = .connected at hstate
        rw [Function.update_self] at hstate
        cases hstate
      · change Function.update x.inbound task.stop false task.stop = true at hin
        rw [Function.update_self] at hin
        cases hin
    · obtain h | ⟨peer, hp, hpeer⟩ := hmade.entries key chan hchan
      · refine ⟨fun hstate => .inl ⟨hold h, ?_⟩, fun hin => .inl ⟨hold h, ?_⟩⟩
        · change Function.update x.state task.stop .connecting (key, chan) = .connected at hstate
          rwa [Function.update_of_ne hstop] at hstate
        · change Function.update x.inbound task.stop false (key, chan) = true at hin
          rwa [Function.update_of_ne hstop] at hin
      · obtain rfl := Option.some.inj hp
        exact absurd hpeer.symm hstop

omit [Base64] in
/-- The entry that `remember_incoming` makes has its session. -/
theorem kept_remembered {addr : String} {j : ℕ} (hrt : t.rt = x.daemon.rt.rememberIncoming addr)
    (hhosts : t.Hosts addr j) (hc : entry key { x.remembered addr with daemon := t } = some c) :
    Kept x { x.remembered addr with daemon := t } key c := by
  unfold Runtime.rememberIncoming at hrt
  unfold remembered at hc ⊢
  unfold entry at hc ⊢
  cases hl : x.daemon.rt.peers.lookup addr with
  | some chan =>
    simp only [hl, Option.map_some] at hc hrt ⊢
    exact kept_same (congrArg Runtime.peers hrt) hc
  | none =>
    simp only [hl, Option.map_none] at hc hrt ⊢
    obtain ⟨chan, hchan, rfl⟩ := Option.map_eq_some_iff.mp hc
    rw [hrt, Runtime.addPeer_lookup] at hchan
    split_ifs at hchan with hkey
    · subst hkey
      exact ⟨fun _ => .inr ⟨j, .inl hhosts⟩, fun _ => .inr ⟨j, hhosts⟩⟩
    · have hne : (key, chan) ≠ (addr, x.daemon.rt.channels) := fun h => hkey (congrArg Prod.fst h)
      have hold : x.entry key = some (key, chan) := by
        rw [entry, hchan, Option.map_some]
      refine ⟨fun hstate => .inl ⟨hold, ?_⟩, fun hin => .inl ⟨hold, ?_⟩⟩
      · change Function.update x.state (addr, x.daemon.rt.channels) .connected (key, chan) = .connected at hstate
        rwa [Function.update_of_ne hne] at hstate
      · change Function.update x.inbound (addr, x.daemon.rt.channels) true (key, chan) = true at hin
        rwa [Function.update_of_ne hne] at hin

/-! ## The steps one by one -/

variable {i : ℕ}

theorem kept_lookup (hs : x.daemon.lookup i = some t) (hr : ¬ x.daemon.Returns (.lookup i))
    (hc : entry key { x.looked i with daemon := t } = some c) :
    Kept x { x.looked i with daemon := t } key c := by
  have hstep : x.daemon.step (.lookup i) = some t := hs
  have hp : x.daemon.poisoned = false := (not_not.mp fun h => hr (.inr h)).1
  have hp' : ¬ x.daemon.poisoned = true := by
    rw [hp]
    exact Bool.false_ne_true
  unfold looked at hc ⊢
  rw [if_neg hp'] at hc ⊢
  unfold Daemon.lookup at hs
  split at hs
  · next addr node hi =>
    rw [if_neg hp'] at hs
    simp only [hi] at hc ⊢
    have hhosts : x.daemon.Hosts addr i :=
      ⟨Daemon.origin_of hi, by rw [Daemon.holds_of hi]; rfl⟩
    have ht := hhosts.step hstep (.inr hr)
    obtain rfl := Option.some.inj hs
    exact kept_remembered rfl ht hc
  · next addr node hi =>
    rw [if_neg hp'] at hs
    simp only [hi] at hc ⊢
    obtain rfl := Option.some.inj hs
    have hold : x.entry key = some c := by
      unfold entry at hc ⊢
      rwa [Daemon.expectPeer_rt] at hc
    exact ⟨fun h => .inl ⟨hold, h⟩, fun h => .inl ⟨hold, h⟩⟩
  · next addr node hi =>
    rw [if_neg hp'] at hs
    simp only [hi] at hc ⊢
    obtain rfl := Option.some.inj hs
    exact kept_same (congrArg Runtime.peers (Daemon.expectPeer_rt _ _ _ _)) hc
  · cases hs

theorem kept_ack (hinv : Inv x) (hs : x.daemon.step (.ack i true) = some t)
    (hc : entry key { x.acked i with daemon := t } = some c) :
    Kept x { x.acked i with daemon := t } key c := by
  have hr : ¬ x.daemon.Returns (.ack i true) := by
    rintro (⟨_, h⟩ | h)
    · cases h
    · exact h rfl
  have hpeers := Daemon.step_peers hs rfl
  unfold acked at hc ⊢
  cases hcl : x.cloned i with
  | none =>
    rw [hcl] at hc
    exact kept_same hpeers hc
  | some c₀ =>
    rw [hcl] at hc
    refine kept_note hpeers (fun _ => ⟨i, .inl ?_⟩) hc
    have hholds : (x.daemon.holds i).isSome := by
      simp only [Daemon.step] at hs
      split at hs
      · next addr node stop hi =>
        rw [Daemon.holds_of hi]
        rfl
      · cases hs
    exact Daemon.Hosts.step ⟨hinv.cloned i c₀ hcl, hholds⟩ hs (.inr hr)

omit [Base64] in
/-- At the top of its loop a task says `connected` exactly when it waits for somebody else's claim. -/
theorem attempted_connected_iff {task : PeerTask} (hi : x.daemon.sessions i = some (.dial task .idle)) :
    (x.attempted task).state task.stop = .connected ↔ x.daemon.polls (.attempt i) = some task := by
  unfold Daemon.polls attempted note
  simp only [hi, Function.update_self]
  by_cases hstop : task.stop ∈ x.daemon.rt.stopped
  · simp [hstop]
  · cases hrelay : task.target.relay with
    | some relay => simp [hstop]
    | none =>
      by_cases hlive : task.target.uri ∈ x.daemon.rt.live
      · simp [hstop, hlive]
      · simp [hstop, hlive]

theorem polls_same {task : PeerTask} (hs : x.daemon.step (.attempt i) = some t)
    (hpoll : x.daemon.polls (.attempt i) = some task) :
    t = x.daemon ∧ x.daemon.sessions i = some (.dial task .idle) := by
  unfold Daemon.polls at hpoll
  dsimp only at hpoll
  simp only [Daemon.step, Daemon.attempt] at hs
  cases hi : x.daemon.sessions i with
  | none =>
    rw [hi] at hs
    cases hs
  | some s =>
    cases s with
    | incoming addr phase =>
      rw [hi] at hs
      cases hs
    | dial task' phase =>
      cases phase with
      | idle =>
        simp only [hi] at hpoll hs
        split_ifs at hpoll with hcond
        obtain rfl := Option.some.inj hpoll
        obtain ⟨hstop, hrelay, hlive⟩ := hcond
        have hrelay' : ¬ task'.target.relay.isSome = true := by simpa using hrelay
        rw [if_neg hstop, if_neg hrelay', if_pos hlive] at hs
        exact ⟨(Option.some.inj hs).symm, rfl⟩
      | connecting | connected | running | ended | done =>
        rw [hi] at hs
        cases hs

theorem kept_attempt {task : PeerTask} (hi : x.daemon.sessions i = some (.dial task .idle))
    (hs : x.daemon.step (.attempt i) = some t) (hpoll : x.daemon.polls (.attempt i) = none)
    (hc : entry key { x.attempted task with daemon := t } = some c) :
    Kept x { x.attempted task with daemon := t } key c := by
  refine kept_note (Daemon.step_peers hs rfl) (fun h => ?_) hc
  have hconn : (x.attempted task).state task.stop = .connected := by
    simp only [attempted, note, Function.update_self]
    exact h
  rw [attempted_connected_iff hi, hpoll] at hconn
  cases hconn

theorem kept_step (hinv : Inv x) (hs : x.daemon.step e = some t) (hr : ¬ x.daemon.Returns e)
    (hpoll : x.daemon.polls e = none) (hc : entry key { x.notes e with daemon := t } = some c) :
    Kept x { x.notes e with daemon := t } key c := by
  cases e with
  | accept i addr | hello i node | finish i => exact kept_same (Daemon.step_peers hs rfl) hc
  | claim i =>
    have hpeers := Daemon.step_peers hs rfl
    simp only [notes] at hc ⊢
    split at hc
    · split_ifs at hc ⊢
      · exact kept_rested hpeers hc
      · exact kept_same hpeers hc
    · exact kept_same hpeers hc
  | lookup i => exact kept_lookup hs hr hc
  | ack i ok =>
    cases ok with
    | true => exact kept_ack hinv hs hc
    | false => exact absurd (.inr Bool.false_ne_true) hr
  | attempt i =>
    simp only [notes] at hc ⊢
    split at hc
    · next task hi => exact kept_attempt hi hs hpoll hc
    · exact kept_same (Daemon.step_peers hs rfl) hc
  | dialed i ok =>
    have hpeers := Daemon.step_peers hs rfl
    simp only [notes] at hc ⊢
    split at hc
    · split_ifs at hc ⊢
      · exact kept_same hpeers hc
      · exact kept_rested hpeers hc
    · exact kept_same hpeers hc
  | release i => exact absurd (.inl ⟨i, rfl⟩) hr
  | spawn i io uri => exact kept_spawned (Daemon.step_made hs fun _ h => by cases h) hc
  | request i io req =>
    have hmade := Daemon.step_made hs fun _ h => by cases h
    simp only [notes] at hc ⊢
    unfold Daemon.newTask at hmade
    split_ifs at hc hmade ⊢ with hp
    · simp only [Daemon.step, Daemon.request, if_pos hp] at hs
      obtain rfl := Option.some.inj hs
      exact kept_same rfl hc
    · exact kept_spawned hmade hc

/-! ## Which steps leave an entry behind -/

omit [Base64] in
theorem incoming_ownStatus {addr : String} {phase : Incoming}
    (hi : x.daemon.sessions i = some (.incoming addr phase)) : x.daemon.ownStatus i = none := by
  simp [Daemon.ownStatus, hi]

/-- `run_incoming` notes nothing where it fails. -/
theorem unsafe_notes (hs : x.daemon.step e = some t) (hsafe : ¬ Daemon.Safe x.daemon e) :
    (x.notes e).inbound = x.inbound ∧ (x.notes e).state = x.state ∧ x.daemon.ownStatus e.task = none := by
  cases e with
  | ack i ok =>
    cases ok with
    | true => exact absurd rfl hsafe
    | false =>
      simp only [Daemon.step] at hs
      split at hs
      · next addr node stop hi => exact ⟨rfl, rfl, incoming_ownStatus hi⟩
      · cases hs
  | lookup i =>
    simp only [Daemon.step, Daemon.lookup] at hs
    simp only [notes, looked]
    split at hs
    · next addr node hi =>
      split_ifs with hp
      · exact ⟨rfl, rfl, incoming_ownStatus hi⟩
      · refine absurd ⟨eq_false_of_ne_true hp, fun addr' haddr => ?_⟩ hsafe
        rw [Daemon.expects, hi] at haddr
        cases haddr
    · next addr node hi =>
      simp only [hi]
      split_ifs
      · exact ⟨rfl, rfl, incoming_ownStatus hi⟩
      · exact ⟨rfl, rfl, incoming_ownStatus hi⟩
    · next addr node hi =>
      simp only [hi]
      split_ifs
      · exact ⟨rfl, rfl, incoming_ownStatus hi⟩
      · exact ⟨rfl, rfl, incoming_ownStatus hi⟩
    · cases hs
  | _ => exact absurd trivial hsafe

/-- A session that returns makes no entry say `connected`; a dial that is over says something else. -/
theorem returned_notes (hs : x.daemon.step e = some t) (hr : x.daemon.Returns e) :
    (x.notes e).inbound = x.inbound ∧ ∀ c, (x.notes e).state c = .connected ↔
      c ∉ x.daemon.ownStatus e.task ∧ x.state c = .connected := by
  have hsame : x.daemon.ownStatus e.task = none → ∀ c, x.state c = .connected ↔
      c ∉ x.daemon.ownStatus e.task ∧ x.state c = .connected := fun hown c => by
    rw [hown]
    simp
  obtain ⟨i, rfl⟩ | hsafe := hr
  · simp only [Daemon.step, Daemon.release] at hs
    simp only [notes]
    split at hs
    · next addr node hi =>
      simp only [hi]
      exact ⟨trivial, hsame (incoming_ownStatus hi)⟩
    · next task hi =>
      simp only [hi]
      refine ⟨rfl, fun c => ?_⟩
      have hown : x.daemon.ownStatus (DaemonEvent.task (.release i)) = some task.stop := by
        simp [Daemon.ownStatus, DaemonEvent.task, hi]
      rw [hown, Option.mem_some_iff]
      change Function.update x.state task.stop _ c = .connected ↔ _
      rw [Function.update_apply]
      split_ifs with hcc hstop
      · exact iff_of_false (by decide) fun h => h.1 hcc.symm
      · exact iff_of_false (by decide) fun h => h.1 hcc.symm
      · exact ⟨fun h => ⟨fun h' => hcc h'.symm, h⟩, fun h => h.2⟩
    · cases hs
  · obtain ⟨hinbound, hstate, hown⟩ := unsafe_notes hs hsafe
    exact ⟨hinbound, fun c => hstate ▸ hsame hown c⟩

omit [Base64] in
theorem polls_not_returns {task : PeerTask} (hpoll : x.daemon.polls e = some task) : ¬ x.daemon.Returns e := by
  cases e with
  | attempt i =>
    rintro (⟨_, h⟩ | h)
    · cases h
    · exact h trivial
  | _ => cases hpoll

/-- The step of a session that returns. -/
theorem vouched_returned_iff (hs : x.daemon.step e = some t) (hr : x.daemon.Returns e) :
    Vouched { x.notes e with daemon := t } ↔ x.Spares e.task := by
  obtain ⟨hnone, hpeers⟩ := Daemon.returned hs hr
  obtain ⟨hinbound, hstate⟩ := returned_notes hs hr
  have hentry : ∀ key, entry key { x.notes e with daemon := t } = x.entry key := fun key => by
    unfold entry
    rw [hpeers]
  constructor
  · intro hy
    refine ⟨fun key c hc hown hconn => ?_, fun key c hc hin => ?_⟩
    · obtain ⟨j, hj⟩ := hy.connected key c ((hentry key).trans hc) ((hstate c).mpr ⟨hown, hconn⟩)
      have hji : j ≠ e.task := by
        rintro rfl
        obtain ⟨-, hsome⟩ | hsome := hj
        · rw [hnone] at hsome
          cases hsome
        · rw [hnone] at hsome
          cases hsome
      exact ⟨j, hji, hj.before hs hji⟩
    · obtain ⟨j, hj⟩ := hy.inbound key c ((hentry key).trans hc) (hinbound ▸ hin)
      have hji : j ≠ e.task := by
        rintro rfl
        have hsome := hj.2
        rw [hnone] at hsome
        cases hsome
      exact ⟨j, hji, hj.before hs hji⟩
  · intro hspares
    refine ⟨fun key c hc hconn => ?_, fun key c hc hin => ?_⟩
    · obtain ⟨hown, hconn⟩ := (hstate c).mp hconn
      obtain ⟨j, hji, hj⟩ := hspares.connected key c ((hentry key).symm.trans hc) hown hconn
      exact ⟨j, hj.step hs (.inl hji)⟩
    · obtain ⟨j, hji, hj⟩ := hspares.inbound key c ((hentry key).symm.trans hc) (hinbound ▸ hin)
      exact ⟨j, hj.step hs (.inl hji)⟩

omit [Base64] in
/-- The status of the other entries is left alone. -/
theorem attempted_state_of_ne {task : PeerTask} (hc : c ≠ task.stop) :
    (x.attempted task).state c = x.state c :=
  Function.update_of_ne hc _ _

/-- The step of a task that waits for somebody else's claim. -/
theorem vouched_polls_iff {task : PeerTask} (hinv : Inv x) (h : Vouched x)
    (hs : x.daemon.step (.attempt i) = some t) (hpoll : x.daemon.polls (.attempt i) = some task) :
    Vouched { x.notes (.attempt i) with daemon := t } ↔
      (x.entry task.target.uri = some task.stop → ∃ j, x.daemon.Serves task.target.uri j) := by
  obtain ⟨rfl, hi⟩ := polls_same hs hpoll
  have hnotes : { x.notes (.attempt i) with daemon := x.daemon } = x.attempted task := by
    simp only [notes, hi, attempted, note]
  have hown : (x.attempted task).state task.stop = .connected := (attempted_connected_iff hi).mpr hpoll
  have huri : task.stop.1 = task.target.uri := hinv.tasks i task (Daemon.origin_of hi)
  rw [hnotes]
  constructor
  · intro hy hentry
    exact hy.connected _ _ hentry hown
  · intro hserved
    refine ⟨fun key c hc hstate => ?_, h.inbound⟩
    have hc' : x.entry key = some c := hc
    by_cases hstop : c = task.stop
    · subst hstop
      have hkey : key = task.target.uri := (entry_fst hc').symm.trans huri
      subst hkey
      exact hserved hc'
    · rw [attempted_state_of_ne hstop] at hstate
      exact h.connected key c hc' hstate

theorem vouched_step_iff {e : StatusEvent} (hinv : Inv x) (h : Vouched x) (hs : x.step e = some y) :
    Vouched y ↔ Covered x e := by
  cases e with
  | greeted i =>
    refine iff_of_true ?_ trivial
    simp only [step] at hs
    split at hs
    · next task hi =>
      obtain rfl := Option.some.inj hs
      have hserves : x.daemon.Serves task.stop.1 i := by
        rw [hinv.tasks i task (Daemon.origin_of hi)]
        exact .inr (Daemon.holds_of hi)
      have hkept : ∀ key c, (x.note task.stop .connected).entry key = some c →
          Kept x (x.note task.stop .connected) key c := fun key c hc =>
        kept_note (t := x.daemon) rfl (fun _ => ⟨i, hserves⟩) hc
      refine ⟨fun key c hc hstate => ?_, fun key c hc hin => h.inbound key c hc hin⟩
      obtain ⟨hc', hstate'⟩ | hserved := (hkept key c hc).connected hstate
      · exact h.connected key c hc' hstate'
      · exact hserved
    · cases hs
  | daemon e =>
    obtain ⟨t, ht, rfl⟩ := Option.map_eq_some_iff.mp hs
    by_cases hr : x.daemon.Returns e
    · rw [vouched_returned_iff ht hr]
      refine ⟨fun hspares => ⟨fun _ => hspares, fun task hpoll => ?_⟩, fun hc => hc.1 hr⟩
      exact absurd hr (polls_not_returns hpoll)
    · cases hpoll : x.daemon.polls e with
      | none =>
        refine iff_of_true ?_ ⟨fun h => absurd h hr, fun task htask => ?_⟩
        · exact h.keep ht hr rfl fun key c hc => kept_step hinv ht hr hpoll hc
        · rw [hpoll] at htask
          cases htask
      | some task =>
        cases e with
        | attempt i =>
          rw [vouched_polls_iff hinv h ht hpoll]
          refine ⟨fun hserved => ⟨fun h => absurd h hr, fun task' htask => ?_⟩, fun hc => hc.2 task hpoll⟩
          obtain rfl := Option.some.inj (hpoll.symm.trans htask)
          exact hserved
        | _ => cases hpoll

/-! ## Addresses and sessions belong together -/

omit [Base64] in
theorem origin_eq_some {d : Daemon} {j : ℕ} {o : String ⊕ PeerTask} (h : d.origin j = some o) :
    ∃ s, d.sessions j = some s ∧ s.origin = o :=
  Option.map_eq_some_iff.mp h

theorem origin_step {d : Daemon} {j : ℕ} {o : String ⊕ PeerTask} (hs : d.step e = some t)
    (h : d.origin j = some o) : t.origin j = some o := by
  obtain ⟨s, hj, rfl⟩ := origin_eq_some h
  obtain ⟨s', hj', hbecomes⟩ := Daemon.step_becomes hs hj
  rw [Daemon.origin_of hj', hbecomes.origin]

theorem newTask_made {d : Daemon} {task : PeerTask} (hs : d.step e = some t) (h : d.newTask e = some task) :
    Runtime.Made d.rt t.rt (some task) := by
  rw [← h]
  refine Daemon.step_made hs fun i he => ?_
  rw [he] at h
  cases h

/-- A task was there before the step, or the step starts it. -/
theorem task_before {d : Daemon} {j : ℕ} {task : PeerTask} (hs : d.step e = some t)
    (h : t.origin j = some (.inr task)) : d.origin j = some (.inr task) ∨ d.newTask e = some task := by
  cases hj : d.sessions j with
  | none =>
    obtain ⟨s, hs', horigin⟩ := origin_eq_some h
    cases Daemon.step_begins hs hs' hj with
    | accepted addr => cases horigin
    | spawned peer hnew =>
      cases horigin
      exact .inr hnew
  | some s =>
    left
    rw [Daemon.origin_of hj, ← origin_step hs (Daemon.origin_of hj), h]

theorem task_uri_step {j : ℕ} {task : PeerTask} (hinv : Inv x) (hs : x.daemon.step e = some t)
    (h : t.origin j = some (.inr task)) : task.stop.1 = task.target.uri := by
  obtain hold | hnew := task_before hs h
  · exact hinv.tasks j task hold
  · exact (newTask_made hs hnew).uri task rfl

omit [Base64] in
theorem looked_cloned {j : ℕ} (h : (x.looked i).cloned j = some c) :
    x.cloned j = some c ∨ x.daemon.origin j = some (.inl c.1) := by
  unfold looked at h
  split_ifs at h
  · exact .inl h
  · split at h
    · refine .inl ?_
      unfold remembered at h
      split at h
      · exact h
      · exact h
    · next addr node hi =>
      by_cases hji : j = i
      · subst hji
        simp only [Function.update_self] at h
        exact .inr (by rw [Daemon.origin_of hi, entry_fst h]; rfl)
      · simp only [Function.update_of_ne hji] at h
        exact .inl h
    · exact .inl h

omit [Base64] in
theorem acked_cloned (i : ℕ) (x : Statuses) : (x.acked i).cloned = x.cloned := by
  unfold acked
  split <;> rfl

omit [Base64] in
theorem spawned_cloned (task : Option PeerTask) (x : Statuses) : (x.spawned task).cloned = x.cloned := by
  cases task <;> rfl

theorem notes_cloned {j : ℕ} (h : (x.notes e).cloned j = some c) :
    x.cloned j = some c ∨ x.daemon.origin j = some (.inl c.1) := by
  cases e with
  | lookup i => exact looked_cloned h
  | accept | hello | finish => exact .inl h
  | ack i ok =>
    simp only [notes] at h
    split_ifs at h
    · rw [acked_cloned] at h
      exact .inl h
    · exact .inl h
  | attempt i | release i =>
    simp only [notes] at h
    split at h
    · exact .inl h
    · exact .inl h
  | dialed i ok | claim i =>
    simp only [notes] at h
    split at h
    · split_ifs at h <;> exact .inl h
    · exact .inl h
  | spawn i io uri =>
    simp only [notes, spawned_cloned] at h
    exact .inl h
  | request i io req =>
    simp only [notes] at h
    split_ifs at h
    · exact .inl h
    · rw [spawned_cloned] at h
      exact .inl h

theorem Inv.step {e : StatusEvent} (hinv : Inv x) (hs : x.step e = some y) : Inv y := by
  cases e with
  | greeted i =>
    simp only [Statuses.step] at hs
    split at hs
    · obtain rfl := Option.some.inj hs
      exact ⟨hinv.tasks, hinv.cloned⟩
    · cases hs
  | daemon e =>
    obtain ⟨t, ht, rfl⟩ := Option.map_eq_some_iff.mp hs
    refine ⟨fun j task h => task_uri_step hinv ht h, fun j c hc => origin_step ht ?_⟩
    obtain hold | hnow := notes_cloned hc
    · exact hinv.cloned j c hold
    · exact hnow

/-! ## Runs -/

omit [Base64] in
theorem Inv.start {d : Daemon} (hd : d.Boots) : Inv (Statuses.start d) where
  tasks j task h := by
    obtain ⟨s, hj, -⟩ := origin_eq_some h
    rw [show (Statuses.start d).daemon.sessions j = none from hd.sessions j] at hj
    cases hj
  cloned _ _ h := by cases h

omit [Base64] in
/-- No entry says `connected` yet. -/
theorem Vouched.start (d : Daemon) : Vouched (Statuses.start d) where
  connected _ _ _ h := by cases h
  inbound _ _ _ h := by cases h

/-- The entries have their sessions all along exactly when no step leaves one behind. -/
theorem vouched_iff_covered {d : Daemon} {es : List StatusEvent} (hd : d.Boots)
    (hrun : (exec step (start d) es).isSome) :
    Along step Vouched (start d) es ↔ Guarded step Covered (start d) es :=
  along_iff_guarded (I := Inv) (fun _ _ _ hinv hs => hinv.step hs)
    (fun _ _ _ hinv h hs => vouched_step_iff hinv h hs) (.start hd) (.start d) hrun

omit [Base64] in
theorem Vouched.truthful (h : Vouched x) (hq : x.daemon.Quiet) : x.Truthful where
  connected key hshown := by
    obtain ⟨c, hc, hstate⟩ := Option.map_eq_some_iff.mp hshown
    obtain ⟨j, hj⟩ := h.connected key c hc hstate
    exact ⟨j, hj.runs hq, hj⟩
  inbound key c hc hin := by
    obtain ⟨j, hj⟩ := h.inbound key c hc hin
    exact ⟨j, Daemon.Serves.runs (.inl hj) hq, hj⟩
  few keys running hkeys hrunning := by
    have hhost : ∀ key ∈ keys, ∃ j, x.daemon.Hosts key j := fun key hkey => by
      obtain ⟨c, hc, hin⟩ := hkeys key hkey
      exact h.inbound key c hc hin
    choose! host hhost using hhost
    refine Finset.card_le_card_of_injOn host (fun key hkey => ?_) fun key hkey key' hkey' hsame => ?_
    · exact hrunning _ (Daemon.Serves.runs (.inl (hhost key hkey)) hq)
    · -- A session is accepted from one address only.
      have horigin := (hhost key hkey).1
      rw [hsame, (hhost key' hkey').1] at horigin
      exact (Sum.inl.inj (Option.some.inj horigin)).symm

omit [Base64] in
theorem Truthful.vouched (h : x.Truthful) : Vouched x where
  connected key c hc hstate := by
    obtain ⟨j, -, hj⟩ := h.connected key (by rw [shown, hc, Option.map_some, hstate])
    exact ⟨j, hj⟩
  inbound key c hc hin := by
    obtain ⟨j, -, hj⟩ := h.inbound key c hc hin
    exact ⟨j, hj⟩

omit [Base64] in
theorem vouched_iff_truthful (hq : x.daemon.Quiet) : Vouched x ↔ x.Truthful :=
  ⟨fun h => h.truthful hq, fun h => h.vouched⟩

/-- The status tells the truth as long as no step leaves an entry behind. -/
theorem truthful_of_covered {d : Daemon} {es : List StatusEvent} (hd : d.Boots)
    (hrun : (exec step (start d) es).isSome) (hC : Guarded step Covered (start d) es) :
    Along step (fun x => x.daemon.Quiet → x.Truthful) (start d) es :=
  ((vouched_iff_covered hd hrun).mpr hC).imp fun _ h hq => (vouched_iff_truthful hq).mp h
/-! ### A connection that is taken out of the map before it ends, and one that is not -/

def forgets (x : Statuses) : StatusEvent → Bool
  | .daemon (.release _) => x.daemon.rt.peers.keys.isEmpty
  | .daemon e => decide (Daemon.Safe x.daemon e) && (x.daemon.polls e).isNone
  | .greeted _ => true

omit [Base64] in
theorem Spares.of_empty (h : x.daemon.rt.peers.keys.isEmpty = true) (i : ℕ) : x.Spares i := by
  have hentry : ∀ key c, x.entry key ≠ some c := fun key c hc => by
    obtain ⟨chan, hchan, -⟩ := Option.map_eq_some_iff.mp hc
    have hmem : key ∈ x.daemon.rt.peers.keys := AList.mem_keys.mp (AList.lookup_isSome.mp (by rw [hchan]; rfl))
    rw [List.isEmpty_iff.mp h] at hmem
    cases hmem
  exact ⟨fun key c hc => absurd hc (hentry key c), fun key c hc => absurd hc (hentry key c)⟩

omit [Base64] in
theorem covered_of_forgets {e : StatusEvent} (h : x.forgets e = true) : Covered x e := by
  cases e with
  | greeted i => trivial
  | daemon e =>
    by_cases he : ∃ i, e = .release i
    · obtain ⟨i, rfl⟩ := he
      exact ⟨fun _ => .of_empty h _, fun task htask => by cases htask⟩
    · have hplain : (decide (Daemon.Safe x.daemon e) && (x.daemon.polls e).isNone) = true := by
        cases e with
        | release i => exact absurd ⟨i, rfl⟩ he
        | _ => exact h
      simp only [Bool.and_eq_true, decide_eq_true_eq, Option.isNone_iff_eq_none] at hplain
      refine ⟨fun hr => absurd hr (not_or.mpr ⟨he, not_not.mpr hplain.1⟩), fun task htask => ?_⟩
      rw [hplain.2] at htask
      cases htask

end Statuses

/-- `phone` connects, `zsyncd disconnect` takes it out of the map, and the connection ends. -/
def phoneForgotten : List StatusEvent :=
  (phoneArrives ++ [DaemonEvent.ack 0 true, .request 1 ⟨.ok (), .ok ()⟩ (.disconnect (some "10.0.0.7:5000")), .finish 0, .release 0]).map .daemon

/-- The connection ends, and nobody has asked for anything. -/
def phonePast : List StatusEvent :=
  (phoneArrives ++ [DaemonEvent.ack 0 true, .finish 0, .release 0]).map .daemon

namespace Statuses

theorem phoneForgotten_truthful :
    letI := noBase64
    Along step (fun x => x.daemon.Quiet → x.Truthful) (start idleDaemon) phoneForgotten := by
  let _ := noBase64
  refine truthful_of_covered ⟨rfl, fun _ => rfl⟩ (by decide +kernel) ?_
  exact Guarded.imp (C := fun x e => x.forgets e = true) (fun _ _ => covered_of_forgets) (by decide +kernel)

/-- The connection of `phone` is over, and its entry still says `connected`. -/
theorem pastConnection_shown :
    letI := noBase64
    ¬ Along step (fun x => x.daemon.Quiet → x.Truthful) (start idleDaemon) phonePast := by
  let _ := noBase64
  intro h
  obtain ⟨x, hx⟩ : ∃ x, exec step (start idleDaemon) phonePast = some x := ⟨_, rfl⟩
  have hsee : ∀ {α : Type} (see : Statuses → α),
      (exec step (start idleDaemon) phonePast).map see = some (see x) := fun see => by
    rw [hx, Option.map_some]
  have hshown : x.shown "10.0.0.7:5000" = some .connected :=
    Option.some.inj ((hsee (shown "10.0.0.7:5000")).symm.trans (by decide))
  have hdone : ∀ i s, x.daemon.sessions i = some s → s = .incoming "10.0.0.7:5000" .done := fun i s hs => by
    have hi := hsee fun x => x.daemon.sessions i
    rw [hs] at hi
    cases i with
    | zero => exact (Option.some.inj (Option.some.inj hi)).symm
    | succ i => exact absurd (Option.some.inj hi) (Option.some_ne_none s).symm
  obtain ⟨j, ⟨hj, -⟩, -⟩ := (along_last h hx fun i s hs => by rw [hdone i s hs]; rfl).connected _ hshown
  obtain ⟨s, hs, hholds⟩ := Daemon.sessions_of_holds hj
  rw [← hholds, hdone j s hs] at hj
  cases hj

end Statuses
end Zsync
