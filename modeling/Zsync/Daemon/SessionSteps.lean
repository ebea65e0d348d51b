import Zsync.Daemon.Disconnect
import Zsync.Daemon.LiveClaims

/-! # What one step does to the sessions and to the peer map

* `step_spec` : at most one session moves, and most steps leave the peer map alone.
* `step_becomes`, `step_begins` : a session goes on as what it was, or begins; only a session that returns gives
  up what it holds.
* `returned` : a session that returns leaves the peer map alone.
* `step_made` : the entries after a step were there before, or belong to the task that it starts.
-/

namespace Zsync
set_option autoImplicit false
set_option maxHeartbeats 250000
open Foundations Transport

/-! ## Sessions over one step -/

/-- The address that a session was accepted from, or the task that it belongs to. -/
def Session.origin : Session → String ⊕ PeerTask
  | .incoming addr _ => .inl addr
  | .dial task _ => .inr task

/-- In its loop, or dialled and with a claim. -/
def Session.rests : Session → Prop
  | .incoming _ (.looping _ _) | .dial _ .running => True
  | _ => False

namespace Daemon
variable {d t : Daemon} {e : DaemonEvent} {i j : ℕ} {s : Session}

def origin (d : Daemon) (i : ℕ) : Option (String ⊕ PeerTask) := (d.sessions i).map Session.origin

/-- The session of the step returns, or its thread panics. -/
def Returns (d : Daemon) (e : DaemonEvent) : Prop := (∃ i, e = .release i) ∨ ¬ Safe d e

/-- What a session may become in a step. -/
structure Becomes (d : Daemon) (e : DaemonEvent) (i : ℕ) (s s' : Session) : Prop where
  origin : s'.origin = s.origin
  holds : s'.holds = s.holds ∨ s.holds = none ∨ i = e.task ∧ Returns d e
  rests : s.rests → s' = s ∨ e = .finish i

theorem Becomes.same (s : Session) : Becomes d e i s s := ⟨rfl, .inl rfl, fun _ => .inl rfl⟩

/-- What a step starts: a session that is accepted, or the task of a peer. -/
inductive Begins (e : DaemonEvent) (task : Option PeerTask) : Session → Prop
  | accepted (addr : String) : Begins e task (.incoming addr .reading)
  | spawned (peer : PeerTask) (h : task = some peer) : Begins e task (.dial peer .idle)

/-- The task that a step starts. -/
def newTask [Base64] (d : Daemon) : DaemonEvent → Option PeerTask
  | .spawn _ io uri => (d.rt.spawnPeer io uri false).2
  | .request _ io req => if d.poisoned then none else (d.rt.dispatch io req).task
  | _ => none

/-- At most one session moves in a step: it goes on, or it begins. -/
inductive Moves (d : Daemon) (e : DaemonEvent) (task : Option PeerTask) (t : Daemon) : Prop
  | stay (ht : t.sessions = d.sessions)
  | goes (i : ℕ) (s s' : Session) (hi : d.sessions i = some s)
    (ht : t.sessions = Function.update d.sessions i (some s')) (h : Becomes d e i s s')
  | begins (i : ℕ) (s : Session) (hi : d.sessions i = none)
    (ht : t.sessions = Function.update d.sessions i (some s)) (h : Begins e task s)

/-- The step may make an entry of the peer map or take entries away. -/
def enters : DaemonEvent → Bool
  | .lookup _ | .spawn _ _ _ | .request _ _ _ => true
  | _ => false

/-- The peer map and the numbers of the stop channels are left alone. -/
def Untouched (d t : Daemon) : Prop := t.rt.peers = d.rt.peers ∧ t.rt.channels = d.rt.channels

/-- A session with the number `i` goes on, and the peer map is left alone. -/
theorem goes_untouched {task : Option PeerTask} {s₁ s₂ : Session} {u : Daemon} (hi : d.sessions i = some s₁)
    (hu : u.sessions = d.sessions) (hrt : Untouched d u) (h : Becomes d e i s₁ s₂) :
    Moves d e task (u.put i s₂) ∧ (enters e = false → Untouched d (u.put i s₂)) :=
  ⟨.goes i s₁ s₂ hi (by rw [← hu]; rfl) h, fun _ => hrt⟩

theorem claim_spec {task : Option PeerTask} (hs : d.claim i = some t) :
    Moves d (.claim i) task t ∧ (enters (.claim i) = false → Untouched d t) := by
  unfold claim at hs
  split at hs
  · next addr node hi =>
    split at hs
    · next rt hclaim =>
      obtain rfl := Option.some.inj hs
      obtain rfl : _ = rt := congrArg Prod.snd hclaim
      exact goes_untouched hi rfl ⟨rfl, rfl⟩ ⟨rfl, .inr (.inl rfl), False.elim⟩
    · obtain rfl := Option.some.inj hs
      exact goes_untouched hi rfl ⟨rfl, rfl⟩ ⟨rfl, .inl rfl, False.elim⟩
  · next task hi =>
    split at hs
    · next rt hclaim =>
      obtain rfl := Option.some.inj hs
      obtain rfl : _ = rt := congrArg Prod.snd hclaim
      exact goes_untouched hi rfl ⟨rfl, rfl⟩ ⟨rfl, .inr (.inl rfl), False.elim⟩
    · obtain rfl := Option.some.inj hs
      exact goes_untouched hi rfl ⟨rfl, rfl⟩ ⟨rfl, .inl rfl, False.elim⟩
  · cases hs

theorem panics_moves {task : Option PeerTask} {addr : String} {phase : Incoming}
    (hi : d.sessions i = some (.incoming addr phase)) (hrest : ¬ (Session.incoming addr phase).rests)
    (hsafe : ¬ Safe d (.lookup i)) : Moves d (.lookup i) task (d.panics i addr) :=
  .goes i _ _ hi rfl ⟨rfl, .inr (.inr ⟨rfl, .inr hsafe⟩), fun h => absurd h hrest⟩

theorem expectPeer_moves {task : Option PeerTask} {addr k : String} {phase : Incoming}
    {next : StopChan → Incoming} (hi : d.sessions i = some (.incoming addr phase))
    (hrest : ¬ (Session.incoming addr phase).rests) (hk : phase.holds = some k)
    (hexpects : d.expects i = some addr) (hnext : ∀ stop, (next stop).holds = some k) :
    Moves d (.lookup i) task (d.expectPeer i addr next) := by
  unfold expectPeer
  cases hl : d.rt.peers.lookup addr with
  | none =>
    refine panics_moves hi hrest fun hsafe => ?_
    exact AList.lookup_eq_none.mp hl (hsafe.2 addr hexpects)
  | some chan => exact .goes i _ _ hi rfl ⟨rfl, .inl ((hnext _).trans hk.symm), fun h => absurd h hrest⟩

theorem lookup_moves {task : Option PeerTask} (hs : d.lookup i = some t) : Moves d (.lookup i) task t := by
  have hpoisoned : d.poisoned = true → ¬ Safe d (.lookup i) := fun hp hsafe =>
    Bool.noConfusion (hp.symm.trans hsafe.1)
  unfold lookup at hs
  split at hs
  · next addr node hi =>
    split_ifs at hs with hp
    · obtain rfl := Option.some.inj hs
      exact panics_moves hi id (hpoisoned hp)
    · obtain rfl := Option.some.inj hs
      exact .goes i _ _ hi rfl ⟨rfl, .inl rfl, False.elim⟩
  · next addr node hi =>
    split_ifs at hs with hp
    · obtain rfl := Option.some.inj hs
      exact panics_moves hi id (hpoisoned hp)
    · obtain rfl := Option.some.inj hs
      exact expectPeer_moves hi id rfl (by rw [expects, hi]) fun _ => rfl
  · next addr node hi =>
    split_ifs at hs with hp
    · obtain rfl := Option.some.inj hs
      exact panics_moves hi id (hpoisoned hp)
    · obtain rfl := Option.some.inj hs
      exact expectPeer_moves hi id rfl (by rw [expects, hi]) fun _ => rfl
  · cases hs

theorem start_moves {rt : Runtime} {task : Option PeerTask} (hs : (d.withRt rt).start i task = some t) :
    Moves d e task t := by
  unfold start at hs
  split at hs
  · obtain rfl := Option.some.inj hs
    exact .stay rfl
  · next peer hi =>
    obtain rfl := Option.some.inj hs
    exact .begins i _ hi rfl (.spawned peer rfl)
  · cases hs

/-- The only case analysis of the step function here; the rest of the module is read off its result. -/
theorem step_spec [Base64] (hs : d.step e = some t) :
    Moves d e (d.newTask e) t ∧ (enters e = false → Untouched d t) := by
  cases e with
  | accept i addr =>
    simp only [step] at hs
    split_ifs at hs with hi
    obtain rfl := Option.some.inj hs
    exact ⟨.begins i _ (Option.isNone_iff_eq_none.mp hi) rfl (.accepted addr), fun _ => ⟨rfl, rfl⟩⟩
  | hello i node =>
    simp only [step] at hs
    split at hs
    · next addr node hi =>
      obtain rfl := Option.some.inj hs
      exact goes_untouched hi rfl ⟨rfl, rfl⟩ ⟨rfl, .inl rfl, False.elim⟩
    · next addr hi =>
      obtain rfl := Option.some.inj hs
      exact goes_untouched hi rfl ⟨rfl, rfl⟩ ⟨rfl, .inl rfl, False.elim⟩
    · cases hs
  | claim i => exact claim_spec hs
  | lookup i => exact ⟨lookup_moves hs, fun h => by cases h⟩
  | ack i ok =>
    simp only [step] at hs
    split at hs
    · next addr node stop hi =>
      obtain rfl := Option.some.inj hs
      cases ok with
      | true => exact goes_untouched hi rfl ⟨rfl, rfl⟩ ⟨rfl, .inl rfl, False.elim⟩
      | false => exact goes_untouched hi rfl ⟨rfl, rfl⟩ ⟨rfl, .inr (.inr ⟨rfl, .inr Bool.false_ne_true⟩),
          False.elim⟩
    · cases hs
  | attempt i =>
    simp only [step, attempt] at hs
    split at hs
    · next task hi =>
      split_ifs at hs
      · obtain rfl := Option.some.inj hs
        exact goes_untouched hi rfl ⟨rfl, rfl⟩ ⟨rfl, .inl rfl, False.elim⟩
      · obtain rfl := Option.some.inj hs
        exact goes_untouched hi rfl ⟨rfl, rfl⟩ ⟨rfl, .inl rfl, False.elim⟩
      · obtain rfl := Option.some.inj hs
        exact ⟨.stay rfl, fun _ => ⟨rfl, rfl⟩⟩
      · obtain rfl := Option.some.inj hs
        exact goes_untouched hi rfl ⟨rfl, rfl⟩ ⟨rfl, .inl rfl, False.elim⟩
    · cases hs
  | dialed i ok =>
    simp only [step] at hs
    split at hs
    · next task hi =>
      obtain rfl := Option.some.inj hs
      refine goes_untouched hi rfl ⟨rfl, rfl⟩ ⟨rfl, .inl ?_, False.elim⟩
      split_ifs <;> rfl
    · cases hs
  | finish i =>
    simp only [step, finish] at hs
    split at hs
    · next addr node stop hi =>
      obtain rfl := Option.some.inj hs
      exact goes_untouched hi rfl ⟨rfl, rfl⟩ ⟨rfl, .inl rfl, fun _ => .inr rfl⟩
    · next task hi =>
      obtain rfl := Option.some.inj hs
      exact goes_untouched hi rfl ⟨rfl, rfl⟩ ⟨rfl, .inl rfl, fun _ => .inr rfl⟩
    · cases hs
  | release i =>
    simp only [step, release] at hs
    split at hs
    · next addr node hi =>
      obtain rfl := Option.some.inj hs
      exact goes_untouched hi rfl ⟨rfl, rfl⟩ ⟨rfl, .inr (.inr ⟨rfl, .inl ⟨i, rfl⟩⟩), False.elim⟩
    · next task hi =>
      obtain rfl := Option.some.inj hs
      exact goes_untouched hi rfl ⟨rfl, rfl⟩ ⟨rfl, .inr (.inr ⟨rfl, .inl ⟨i, rfl⟩⟩), False.elim⟩
    · cases hs
  | spawn i io uri =>
    simp only [step] at hs
    split_ifs at hs
    exact ⟨start_moves hs, fun h => by cases h⟩
  | request i io req =>
    simp only [step, request] at hs
    split_ifs at hs with hp
    · obtain rfl := Option.some.inj hs
      exact ⟨.stay rfl, fun h => by cases h⟩
    · rw [newTask, if_neg hp]
      exact ⟨start_moves hs, fun h => by cases h⟩

/-- Every session of a step stays what it is, and holds what it held unless it returns. -/
theorem step_becomes [Base64] (hs : d.step e = some t) (hj : d.sessions j = some s) :
    ∃ s', t.sessions j = some s' ∧ Becomes d e j s s' := by
  cases (step_spec hs).1 with
  | stay ht => exact ⟨s, by rw [ht, hj], .same s⟩
  | goes i s₁ s₂ hi ht h =>
    rw [ht]
    by_cases hji : j = i
    · subst hji
      obtain rfl := Option.some.inj (hi.symm.trans hj)
      exact ⟨s₂, Function.update_self _ _ _, h⟩
    · exact ⟨s, (Function.update_of_ne hji _ _).trans hj, .same s⟩
  | begins i new hi ht h =>
    have hji : j ≠ i := by
      rintro rfl
      rw [hi] at hj
      cases hj
    exact ⟨s, by rw [ht, Function.update_of_ne hji, hj], .same s⟩

/-- A session that was not there before is one that the step starts. -/
theorem step_begins [Base64] (hs : d.step e = some t) (hj : t.sessions j = some s)
    (hnew : d.sessions j = none) : Begins e (d.newTask e) s := by
  cases (step_spec hs).1 with
  | stay ht =>
    rw [ht, hnew] at hj
    cases hj
  | goes i s₁ s₂ hi ht h =>
    have hji : j ≠ i := by
      rintro rfl
      rw [hi] at hnew
      cases hnew
    rw [ht, Function.update_of_ne hji, hnew] at hj
    cases hj
  | begins i new hi ht h =>
    rw [ht] at hj
    by_cases hji : j = i
    · subst hji
      rw [Function.update_self] at hj
      exact Option.some.inj hj ▸ h
    · rw [Function.update_of_ne hji, hnew] at hj
      cases hj

theorem step_untouched [Base64] (hs : d.step e = some t) (he : enters e = false) : Untouched d t :=
  (step_spec hs).2 he

theorem step_peers [Base64] (hs : d.step e = some t) (he : enters e = false) : t.rt.peers = d.rt.peers :=
  (step_untouched hs he).1

/-! ### Sessions that return -/

theorem put_holds (i : ℕ) (s : Session) (d : Daemon) : (d.put i s).holds i = s.holds := by
  rw [holds_put, Function.update_self]

@[simp] theorem expectPeer_rt (i : ℕ) (addr : String) (next : StopChan → Incoming) (d : Daemon) :
    (d.expectPeer i addr next).rt = d.rt := by
  unfold expectPeer
  split <;> rfl

/-- `run_incoming` leaves peers and channels alone at its look-ups, except for the entry that it makes. -/
theorem lookup_rt (hs : d.lookup i = some t) :
    t.rt = d.rt ∨ Safe d (.lookup i) ∧ ∃ addr, t.rt = d.rt.rememberIncoming addr := by
  unfold lookup at hs
  split at hs
  · next addr node hi =>
    split_ifs at hs with hp
    · obtain rfl := Option.some.inj hs
      exact .inl rfl
    · obtain rfl := Option.some.inj hs
      refine .inr ⟨⟨eq_false_of_ne_true hp, fun addr' haddr => ?_⟩, addr, rfl⟩
      rw [expects, hi] at haddr
      cases haddr
  · split_ifs at hs
    · obtain rfl := Option.some.inj hs
      exact .inl rfl
    · obtain rfl := Option.some.inj hs
      exact .inl (expectPeer_rt _ _ _ _)
  · split_ifs at hs
    · obtain rfl := Option.some.inj hs
      exact .inl rfl
    · obtain rfl := Option.some.inj hs
      exact .inl (expectPeer_rt _ _ _ _)
  · cases hs

/-- A session that returns holds nothing any more, and leaves the peer map alone. -/
theorem returned [Base64] (hs : d.step e = some t) (hr : Returns d e) :
    t.holds e.task = none ∧ t.rt.peers = d.rt.peers := by
  obtain ⟨i, rfl⟩ | hsafe := hr
  · simp only [step, release] at hs
    split at hs
    · obtain rfl := Option.some.inj hs
      exact ⟨put_holds _ _ _, rfl⟩
    · obtain rfl := Option.some.inj hs
      exact ⟨put_holds _ _ _, rfl⟩
    · cases hs
  · constructor
    · cases step_effect hs with
      | keep _ _ h | claim _ _ _ _ _ h | release _ _ _ _ h => exact absurd h hsafe
      | lose k _ _ hholds _ => rw [hholds, Function.update_self]
    · cases e with
      | ack i ok => exact step_peers hs rfl
      | lookup i =>
        obtain hrt | ⟨h, -⟩ := lookup_rt hs
        · rw [hrt]
        · exact absurd h hsafe
      | _ => exact absurd trivial hsafe

end Daemon

/-! ## Entries over one step -/

namespace Runtime
variable {rt : Runtime} {key : String} {chan : ℕ}

theorem addPeer_lookup (uri : String) (rt : Runtime) (key : String) :
    (rt.addPeer uri).peers.lookup key = if key = uri then some rt.channels else rt.peers.lookup key := by
  unfold addPeer
  dsimp only
  split_ifs with hk
  · rw [hk, AList.lookup_insert]
  · exact AList.lookup_insert_ne hk

/-- An entry was there, or is the one of the task that was made, which has a number of its own. -/
structure Made (rt : Runtime) (after : Runtime) (task : Option PeerTask) : Prop where
  uri : ∀ peer ∈ task, peer.stop.1 = peer.target.uri
  entries : ∀ key chan, after.peers.lookup key = some chan →
    rt.peers.lookup key = some chan ∨ ∃ peer ∈ task, peer.stop = (key, chan)
  channels : rt.channels ≤ after.channels
  fresh : ∀ peer ∈ task, rt.channels ≤ peer.stop.2 ∧ peer.stop.2 < after.channels

theorem Made.nothing {after : Runtime} (hpeers : after.peers = rt.peers)
    (hchannels : after.channels = rt.channels) : Made rt after none where
  uri _ hp := (nomatch hp)
  entries _ _ hk := .inl (hpeers ▸ hk)
  channels := hchannels.ge
  fresh _ hp := (nomatch hp)

theorem Made.of_same {before after : Runtime} {task : Option PeerTask} (h : Made before after task)
    (hpeers : before.peers = rt.peers) (hchannels : before.channels = rt.channels) : Made rt after task where
  uri := h.uri
  entries := hpeers ▸ h.entries
  channels := hchannels ▸ h.channels
  fresh := hchannels ▸ h.fresh

theorem made_add {before : Runtime} (target : PeerTarget) (hchannels : before.channels = rt.channels)
    (h : ∀ key chan, before.peers.lookup key = some chan → rt.peers.lookup key = some chan) :
    Made rt (before.addPeer target.uri) (some ⟨target, (target.uri, before.channels)⟩) where
  uri peer hp := by
    obtain rfl := Option.some.inj hp
    rfl
  entries key chan hk := by
    rw [addPeer_lookup] at hk
    split_ifs at hk with hkey
    · obtain rfl := Option.some.inj hk
      exact .inr ⟨_, rfl, by rw [hkey]⟩
    · exact .inl (h key chan hk)
  channels := by
    show rt.channels ≤ before.channels + 1
    omega
  fresh peer hp := by
    obtain rfl := Option.some.inj hp
    show rt.channels ≤ before.channels ∧ before.channels < before.channels + 1
    omega

variable [Base64]

omit [Base64] in
@[simp] theorem dropPeer_channels (key : String) (rt : Runtime) :
    (rt.dropPeer key).channels = rt.channels := by
  unfold dropPeer
  split <;> rfl

@[simp] theorem stopPeers_channels (uris : List String) (rt : Runtime) :
    (rt.stopPeers uris).channels = rt.channels := stopPeers_keeps dropPeer_channels uris rt

theorem spawnPeer_made (io : RequestIo) (uri : String) (force : Bool) (rt : Runtime) :
    Made rt (rt.spawnPeer io uri force).1 (rt.spawnPeer io uri force).2 := by
  unfold spawnPeer
  split
  · exact .nothing rfl rfl
  · split
    · exact .nothing rfl rfl
    · dsimp only
      split
      · exact made_add _ rfl fun _ _ hk => hk
      · split_ifs
        · exact made_add _ rfl fun _ _ hk => hk
        · refine made_add _ (dropPeer_channels _ _) fun key chan hk => ?_
          rw [dropPeer_lookup] at hk
          split_ifs at hk
          exact hk
        · exact .nothing rfl rfl

theorem connect_made (io : RequestIo) (uri : String) (rt : Runtime) :
    Made rt (rt.connect io uri).rt (rt.connect io uri).task := by
  unfold connect
  split
  · exact .nothing rfl rfl
  · split
    · exact .nothing rfl rfl
    · dsimp only
      split
      · exact .nothing rfl rfl
      · exact (spawnPeer_made io _ true _).of_same rfl rfl

theorem dispatch_made (io : RequestIo) (rt : Runtime) (req : Request) :
    Made rt (rt.dispatch io req).rt (rt.dispatch io req).task := by
  cases req with
  | connect uri =>
    cases uri with
    | none => exact .nothing rfl rfl
    | some uri => exact connect_made io uri rt
  | disconnect uri =>
    change Made rt (rt.disconnect io uri).rt (rt.disconnect io uri).task
    have hstop : ∀ (uris : List String) (before : Runtime), before.peers = rt.peers →
        before.channels = rt.channels → Made rt (before.stopPeers uris) none :=
      fun uris before hpeers hchannels => {
        uri := fun _ hp => (nomatch hp)
        entries := fun key chan hk => by
          rw [stopPeers_lookup] at hk
          split_ifs at hk
          exact .inl (hpeers ▸ hk)
        channels := ((stopPeers_channels _ _).trans hchannels).ge
        fresh := fun _ hp => (nomatch hp) }
    unfold disconnect
    dsimp only
    split
    · exact .nothing rfl rfl
    · split
      · exact hstop _ _ rfl rfl
      · exact hstop _ _ rfl rfl

end Runtime

namespace Daemon
variable {d t : Daemon} {e : DaemonEvent} {i j : ℕ} {key : String}

theorem start_rt {rt : Runtime} {task : Option PeerTask} (hs : (d.withRt rt).start i task = some t) :
    t.rt = rt := by
  unfold start at hs
  split at hs
  · obtain rfl := Option.some.inj hs
    rfl
  · obtain rfl := Option.some.inj hs
    rfl
  · cases hs

/-- What a step does to the map, unless `run_incoming` enters its peer. -/
theorem step_made [Base64] (hs : d.step e = some t) (he : ∀ i, e ≠ .lookup i) :
    Runtime.Made d.rt t.rt (d.newTask e) := by
  cases e with
  | lookup i => exact absurd rfl (he i)
  | spawn i io uri =>
    simp only [step] at hs
    split_ifs at hs
    rw [start_rt hs]
    exact Runtime.spawnPeer_made io uri false _
  | request i io req =>
    simp only [step, request] at hs
    unfold newTask
    split_ifs at hs ⊢
    · obtain rfl := Option.some.inj hs
      exact .nothing rfl rfl
    · rw [start_rt hs]
      exact Runtime.dispatch_made io _ req
  | accept | hello | claim | ack | attempt | dialed | finish | release =>
    obtain ⟨hpeers, hchannels⟩ := step_untouched hs rfl
    exact .nothing hpeers hchannels
end Daemon
end Zsync
