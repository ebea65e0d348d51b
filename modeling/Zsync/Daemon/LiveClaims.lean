import Zsync.Foundations.Claims
import Zsync.Foundations.Runs
import Zsync.Daemon.Disconnect
import Zsync.Model.Sessions

/-! # Who holds a live claim

A session holds the key it claimed until it releases it. Two exits of `run_incoming` forget the
release: a `HelloAck` that cannot be written, and a look-up in the peer map that finds nothing, which
panics.

* `Effect` lists what a step can do to the live keys and to their holders.
* `LiveHeld` : each live key is held by exactly one session.
* `liveHeld_iff_safe` : all states of a run are so exactly when no step of it takes one of the two
  exits.
-/

namespace Zsync
set_option autoImplicit false
set_option maxHeartbeats 250000
open Foundations

/-- The key that a session has claimed and not released. -/
def Incoming.holds : Incoming → Option String
  | .claimed node | .remembered node | .looked node | .subscribed node _ | .looping node _
  | .ended node => some node
  | .reading | .greeted _ | .done => none

def Session.holds : Session → Option String
  | .incoming _ phase => phase.holds
  | .dial task .running | .dial task .ended => some task.target.uri
  | .dial _ _ => none

/-! ## What leaves the live keys alone -/

namespace Runtime

@[simp] theorem addPeer_live (key : String) (rt : Runtime) : (rt.addPeer key).live = rt.live := rfl

@[simp] theorem dropPeer_live (key : String) (rt : Runtime) : (rt.dropPeer key).live = rt.live := by
  unfold dropPeer
  split <;> rfl

@[simp] theorem rememberIncoming_live (uri : String) (rt : Runtime) :
    (rt.rememberIncoming uri).live = rt.live := by
  unfold rememberIncoming
  split <;> rfl

variable [Base64]

@[simp] theorem stopPeers_live (uris : List String) (rt : Runtime) :
    (rt.stopPeers uris).live = rt.live := stopPeers_keeps dropPeer_live uris rt

@[simp] theorem spawnPeer_live (io : RequestIo) (uri : String) (forceDial : Bool) (rt : Runtime) :
    (rt.spawnPeer io uri forceDial).1.live = rt.live :=
  spawnPeer_keeps dropPeer_live (fun _ _ => rfl) addPeer_live io uri forceDial rt

/-- Requests claim nothing and release nothing. -/
@[simp] theorem dispatch_live (io : RequestIo) (rt : Runtime) (req : Request) :
    (rt.dispatch io req).rt.live = rt.live := by
  cases req with
  | connect uri =>
    cases uri with
    | none => rfl
    | some uri =>
      change (rt.connect io uri).rt.live = rt.live
      unfold connect
      split
      · rfl
      · split
        · rfl
        · dsimp only
          split
          · rfl
          · rw [spawnPeer_live]
  | disconnect uri =>
    change (rt.disconnect io uri).rt.live = rt.live
    unfold disconnect
    dsimp only
    split
    · rfl
    · split
      · rw [stopPeers_live]
      · rw [stopPeers_live]

end Runtime

/-! ## One step -/

namespace Daemon

def holds (d : Daemon) (i : ℕ) : Option String := (d.sessions i).bind Session.holds

theorem holds_of {d : Daemon} {i : ℕ} {s : Session} (h : d.sessions i = some s) :
    d.holds i = s.holds := by
  rw [holds, h]
  rfl

theorem holds_put (i : ℕ) (s : Session) (d : Daemon) :
    (d.put i s).holds = Function.update d.holds i s.holds := by
  funext j
  show (Function.update d.sessions i (some s) j).bind Session.holds = _
  rw [Function.update_apply, Function.update_apply]
  split_ifs
  · rfl
  · rfl

/-- A session that goes on holding what it held. -/
theorem holds_put_same {i : ℕ} {s : Session} {d : Daemon} (h : d.holds i = s.holds) :
    (d.put i s).holds = d.holds := by
  rw [holds_put, ← h, Function.update_eq_self]

/-- The entry of the peer map that `run_incoming` expects to find. -/
def expects (d : Daemon) (i : ℕ) : Option String :=
  match d.sessions i with
  | some (.incoming addr (.remembered _)) => some addr
  | some (.incoming addr (.looked _)) => some addr
  | _ => none

/-- The step takes neither of the two exits: `HelloAck` is written, and `run_incoming` finds the
peer that it entered and the lock unpoisoned. -/
def Safe (d : Daemon) : DaemonEvent → Prop
  | .ack _ ok => ok = true
  | .lookup i => d.poisoned = false ∧ ∀ addr ∈ d.expects i, addr ∈ d.rt.peers
  | _ => True

instance (d : Daemon) (e : DaemonEvent) : Decidable (Safe d e) :=
  match e with
  | .ack _ ok => inferInstanceAs (Decidable (ok = true))
  | .lookup i => inferInstanceAs
      (Decidable (d.poisoned = false ∧ ∀ addr ∈ d.expects i, addr ∈ d.rt.peers))
  | .accept .. | .hello .. | .claim .. | .attempt .. | .dialed .. | .finish .. | .release ..
  | .spawn .. | .request .. => inferInstanceAs (Decidable True)

/-- What a step does to the live keys and to their holders; only its own task changes. -/
inductive Effect (d : Daemon) (e : DaemonEvent) (t : Daemon) : Prop
  | keep (hlive : t.rt.live = d.rt.live) (hholds : t.holds = d.holds) (hsafe : Safe d e)
  | claim (k : String) (hk : k ∉ d.rt.live) (hi : d.holds e.task = none)
    (hlive : t.rt.live = insert k d.rt.live)
    (hholds : t.holds = Function.update d.holds e.task (some k)) (hsafe : Safe d e)
  | release (k : String) (hi : d.holds e.task = some k) (hlive : t.rt.live = d.rt.live.erase k)
    (hholds : t.holds = Function.update d.holds e.task none) (hsafe : Safe d e)
  | lose (k : String) (hi : d.holds e.task = some k) (hlive : t.rt.live = d.rt.live)
    (hholds : t.holds = Function.update d.holds e.task none) (hsafe : ¬ Safe d e)

theorem keep_put {d : Daemon} {e : DaemonEvent} {i : ℕ} {s s' : Session}
    (hi : d.sessions i = some s) (hsame : s.holds = s'.holds) (hsafe : Safe d e) :
    Effect d e (d.put i s') :=
  .keep rfl (holds_put_same ((holds_of hi).trans hsame)) hsafe

theorem lose_put {d : Daemon} {e : DaemonEvent} {s s' : Session} {k : String}
    (hi : d.sessions e.task = some s) (hk : s.holds = some k) (hnone : s'.holds = none)
    (hsafe : ¬ Safe d e) : Effect d e (d.put e.task s') :=
  .lose k ((holds_of hi).trans hk) rfl (by rw [holds_put, hnone]) hsafe

theorem lose_panics {d : Daemon} {e : DaemonEvent} {addr k : String} {phase : Incoming}
    (hi : d.sessions e.task = some (.incoming addr phase)) (hk : phase.holds = some k)
    (hsafe : ¬ Safe d e) : Effect d e (d.panics e.task addr) := by
  have hput : (d.panics e.task addr).holds = (d.put e.task (.incoming addr .done)).holds := rfl
  exact .lose k ((holds_of hi).trans hk) rfl (by rw [hput, holds_put]; rfl) hsafe

theorem start_effect {d t : Daemon} {e : DaemonEvent} {i : ℕ} {rt : Runtime}
    {task : Option PeerTask} (hs : (d.withRt rt).start i task = some t)
    (hlive : rt.live = d.rt.live) (hsafe : Safe d e) : Effect d e t := by
  unfold start at hs
  split at hs
  · obtain rfl := Option.some.inj hs
    exact .keep hlive rfl hsafe
  · next task hi =>
    obtain rfl := Option.some.inj hs
    refine .keep hlive ?_ hsafe
    exact holds_put_same (by rw [holds, hi]; rfl)
  · cases hs

theorem claim_effect {d t : Daemon} {i : ℕ} (hs : d.claim i = some t) : Effect d (.claim i) t := by
  unfold claim at hs
  split at hs
  · next addr node hi =>
    split at hs
    · next rt hclaim =>
      obtain rfl := Option.some.inj hs
      have hk : node ∉ d.rt.live := of_decide_eq_true (congrArg Prod.fst hclaim)
      have hlive : rt.live = insert node d.rt.live :=
        (congrArg (fun c => c.2.live) hclaim).symm
      exact .claim node hk (holds_of hi) hlive (holds_put _ _ _) trivial
    · obtain rfl := Option.some.inj hs
      exact keep_put hi rfl trivial
  · next task hi =>
    split at hs
    · next rt hclaim =>
      obtain rfl := Option.some.inj hs
      have hk : task.target.uri ∉ d.rt.live := of_decide_eq_true (congrArg Prod.fst hclaim)
      have hlive : rt.live = insert task.target.uri d.rt.live :=
        (congrArg (fun c => c.2.live) hclaim).symm
      exact .claim _ hk (holds_of hi) hlive (holds_put _ _ _) trivial
    · obtain rfl := Option.some.inj hs
      exact keep_put hi rfl trivial
  · cases hs

/-- A look-up finds the entry, or the thread panics. -/
theorem expectPeer_effect {d : Daemon} {i : ℕ} {addr k : String} {phase : Incoming}
    {next : StopChan → Incoming} (hp : d.poisoned = false)
    (hi : d.sessions i = some (.incoming addr phase)) (hk : phase.holds = some k)
    (hexpects : d.expects i = some addr) (hnext : ∀ stop, (next stop).holds = some k) :
    Effect d (.lookup i) (d.expectPeer i addr next) := by
  unfold expectPeer
  cases hl : d.rt.peers.lookup addr with
  | none =>
    apply lose_panics (e := .lookup i) hi hk
    intro hsafe
    exact AList.lookup_eq_none.mp hl (hsafe.2 addr hexpects)
  | some chan =>
    refine keep_put hi (hk.trans (hnext _).symm) ⟨hp, fun addr' haddr => ?_⟩
    obtain rfl : addr = addr' := Option.some.inj (hexpects.symm.trans haddr)
    exact AList.lookup_isSome.mp (by rw [hl]; rfl)

theorem lookup_effect {d t : Daemon} {i : ℕ} (hs : d.lookup i = some t) :
    Effect d (.lookup i) t := by
  unfold lookup at hs
  split at hs
  · next addr node hi =>
    split_ifs at hs with hp
    · obtain rfl := Option.some.inj hs
      exact lose_panics (e := .lookup i) hi rfl fun hsafe => Bool.noConfusion (hp.symm.trans hsafe.1)
    · obtain rfl := Option.some.inj hs
      have hholds : d.holds i = some node := holds_of hi
      have hexpects : d.expects i = none := by rw [expects, hi]
      refine .keep (Runtime.rememberIncoming_live _ _) (holds_put_same hholds)
        ⟨eq_false_of_ne_true hp, fun addr haddr => ?_⟩
      rw [hexpects] at haddr
      cases haddr
  · next addr node hi =>
    split_ifs at hs with hp
    · obtain rfl := Option.some.inj hs
      exact lose_panics (e := .lookup i) hi rfl fun hsafe => Bool.noConfusion (hp.symm.trans hsafe.1)
    · obtain rfl := Option.some.inj hs
      exact expectPeer_effect (eq_false_of_ne_true hp) hi rfl (by rw [expects, hi]) fun _ => rfl
  · next addr node hi =>
    split_ifs at hs with hp
    · obtain rfl := Option.some.inj hs
      exact lose_panics (e := .lookup i) hi rfl fun hsafe => Bool.noConfusion (hp.symm.trans hsafe.1)
    · obtain rfl := Option.some.inj hs
      exact expectPeer_effect (eq_false_of_ne_true hp) hi rfl (by rw [expects, hi]) fun _ => rfl
  · cases hs

theorem release_effect {d t : Daemon} {i : ℕ} (hs : d.release i = some t) :
    Effect d (.release i) t := by
  unfold release at hs
  split at hs
  · next addr node hi =>
    obtain rfl := Option.some.inj hs
    exact .release node (holds_of hi) rfl (holds_put _ _ _) trivial
  · next task hi =>
    obtain rfl := Option.some.inj hs
    exact .release _ (holds_of hi) rfl (holds_put _ _ _) trivial
  · cases hs

theorem step_effect [Base64] {d t : Daemon} {e : DaemonEvent} (hs : d.step e = some t) :
    Effect d e t := by
  cases e with
  | accept i addr =>
    simp only [step] at hs
    split_ifs at hs with hi
    obtain rfl := Option.some.inj hs
    refine .keep rfl (holds_put_same ?_) trivial
    rw [holds, Option.isNone_iff_eq_none.mp hi]
    rfl
  | hello i node =>
    simp only [step] at hs
    split at hs
    · next addr node hi =>
      obtain rfl := Option.some.inj hs
      exact keep_put hi rfl trivial
    · next addr hi =>
      obtain rfl := Option.some.inj hs
      exact keep_put hi rfl trivial
    · cases hs
  | claim i => exact claim_effect hs
  | lookup i => exact lookup_effect hs
  | ack i ok =>
    simp only [step] at hs
    split at hs
    · next addr node stop hi =>
      obtain rfl := Option.some.inj hs
      cases ok with
      | true => exact keep_put hi rfl rfl
      | false => exact lose_put (e := .ack i false) hi rfl rfl Bool.false_ne_true
    · cases hs
  | attempt i =>
    simp only [step, attempt] at hs
    split at hs
    · next task hi =>
      split_ifs at hs
      · obtain rfl := Option.some.inj hs
        exact keep_put hi rfl trivial
      · obtain rfl := Option.some.inj hs
        exact keep_put hi rfl trivial
      · obtain rfl := Option.some.inj hs
        exact .keep rfl rfl trivial
      · obtain rfl := Option.some.inj hs
        exact keep_put hi rfl trivial
    · cases hs
  | dialed i ok =>
    simp only [step] at hs
    split at hs
    · next task hi =>
      obtain rfl := Option.some.inj hs
      cases ok
      · exact keep_put hi rfl trivial
      · exact keep_put hi rfl trivial
    · cases hs
  | finish i =>
    simp only [step, finish] at hs
    split at hs
    · next addr node stop hi =>
      obtain rfl := Option.some.inj hs
      exact keep_put hi rfl trivial
    · next task hi =>
      obtain rfl := Option.some.inj hs
      exact keep_put hi rfl trivial
    · cases hs
  | release i => exact release_effect hs
  | spawn i io uri =>
    simp only [step] at hs
    split_ifs at hs
    exact start_effect hs (Runtime.spawnPeer_live _ _ _ _) trivial
  | request i io req =>
    simp only [step, request] at hs
    split_ifs at hs
    · obtain rfl := Option.some.inj hs
      exact .keep rfl rfl trivial
    · exact start_effect hs (Runtime.dispatch_live _ _ _) trivial

/-- A step leaves the other tasks alone. -/
theorem step_others [Base64] {d t : Daemon} {e : DaemonEvent} (hs : d.step e = some t) {j : ℕ}
    (hj : j ≠ e.task) : t.holds j = d.holds j := by
  cases step_effect hs with
  | keep _ hholds _ => rw [hholds]
  | claim k _ _ _ hholds _ => rw [hholds, Function.update_of_ne hj]
  | release k _ _ hholds _ => rw [hholds, Function.update_of_ne hj]
  | lose k _ _ hholds _ => rw [hholds, Function.update_of_ne hj]

theorem exec_others [Base64] {d t : Daemon} {es : List DaemonEvent} (hr : exec step d es = some t)
    {j : ℕ} (hj : ∀ e ∈ es, j ≠ e.task) : t.holds j = d.holds j := by
  induction es generalizing d with
  | nil =>
    obtain rfl := Option.some.inj hr
    rfl
  | cons e es ih =>
    obtain ⟨u, hu, hr⟩ := exec_cons_eq_some _ hr
    rw [ih hr fun x hx => hj x (List.mem_cons_of_mem _ hx), step_others hu (hj e List.mem_cons_self)]

/-! ## Whole runs -/

/-- Each live key is held by exactly one session that still runs. -/
def LiveHeld (d : Daemon) : Prop := ∀ k ∈ d.rt.live, ∃! i, d.holds i = some k

/-- A key that no session holds can be claimed. -/
theorem LiveHeld.claims {d : Daemon} (hd : LiveHeld d) {k : String} (hk : ∀ i, d.holds i ≠ some k) :
    (d.rt.claimLive k).1 = true := by
  apply decide_eq_true
  intro hlive
  obtain ⟨i, hi⟩ := (hd k hlive).exists
  exact hk i hi

theorem liveHeld_iff {d : Daemon} (h : Owned d.rt.live d.holds) :
    LiveHeld d ↔ Accounted d.rt.live d.holds :=
  ⟨fun hd k hk => (hd k hk).exists, fun ha _ hk => h.holder ha hk⟩

theorem Effect.owned {d t : Daemon} {e : DaemonEvent} (he : Effect d e t)
    (h : Owned d.rt.live d.holds) : Owned t.rt.live t.holds := by
  cases he with
  | keep hlive hholds _ => rwa [hlive, hholds]
  | claim k hk _ hlive hholds _ =>
    rw [hlive, hholds]
    exact h.claim hk
  | release k hi hlive hholds _ =>
    rw [hlive, hholds]
    exact h.release hi
  | lose k hi hlive hholds _ =>
    rw [hlive, hholds]
    exact h.free

/-- From a state in which every live key is held, the step leads to one exactly when it is safe. -/
theorem Effect.liveHeld_iff {d t : Daemon} {e : DaemonEvent} (he : Effect d e t)
    (h : Owned d.rt.live d.holds) (hd : LiveHeld d) : LiveHeld t ↔ Safe d e := by
  have ha := (Daemon.liveHeld_iff h).mp hd
  rw [Daemon.liveHeld_iff (he.owned h)]
  cases he with
  | keep hlive hholds hsafe =>
    rw [hlive, hholds]
    exact iff_of_true ha hsafe
  | claim k _ hi hlive hholds hsafe =>
    rw [hlive, hholds]
    exact iff_of_true (ha.claim hi) hsafe
  | release k hi hlive hholds hsafe =>
    rw [hlive, hholds]
    exact iff_of_true (ha.release hi) hsafe
  | lose k hi hlive hholds hsafe =>
    rw [hlive, hholds]
    exact iff_of_false (h.lose hi) hsafe

/-- A daemon that has just started. -/
structure Boots (d : Daemon) : Prop where
  live : d.rt.live = ∅
  sessions : ∀ i, d.sessions i = none

theorem Boots.owned {d : Daemon} (h : Boots d) : Owned d.rt.live d.holds := by
  rw [h.live]
  exact owned_empty fun i => by rw [holds, h.sessions i]; rfl

/-- Live claims are held in every state of a run exactly when none of its steps takes one of the two
exits of `run_incoming` that forget the release. -/
theorem liveHeld_iff_safe [Base64] {d : Daemon} {es : List DaemonEvent} (hd : Boots d)
    (hrun : (exec step d es).isSome) : Along step LiveHeld d es ↔ Guarded step Safe d es := by
  refine along_iff_guarded (I := fun d => Owned d.rt.live d.holds)
    (fun _ _ _ h hs => (step_effect hs).owned h)
    (fun _ _ _ h hp hs => (step_effect hs).liveHeld_iff h hp) hd.owned ?_ hrun
  intro k hk
  rw [hd.live] at hk
  exact absurd hk (Finset.notMem_empty k)

end Daemon

/-! ### A session that ends well, and one whose `HelloAck` fails -/

def idleDaemon : Daemon where
  rt := { onePeer with peers := ∅ }
  poisoned := false
  sessions := fun _ => none

/-- `phone` connects, and its first frame is read. -/
def phoneArrives : List DaemonEvent :=
  [.accept 0 "10.0.0.7:5000", .hello 0 (some "phone"), .claim 0, .lookup 0, .lookup 0, .lookup 0]

theorem liveHeld_phone :
    letI := noBase64
    Along Daemon.step Daemon.LiveHeld idleDaemon
      (phoneArrives ++ [.ack 0 true, .finish 0, .release 0]) := by
  let _ := noBase64
  exact (Daemon.liveHeld_iff_safe ⟨rfl, fun _ => rfl⟩ rfl).mpr (by decide)

/-- `HelloAck` cannot be written, and `phone` is locked out. -/
theorem failedAck_leaks :
    letI := noBase64
    ¬ Along Daemon.step Daemon.LiveHeld idleDaemon (phoneArrives ++ [.ack 0 false]) ∧
    (exec Daemon.step idleDaemon (phoneArrives ++
      [.ack 0 false, .accept 1 "10.0.0.7:5001", .hello 1 (some "phone"), .claim 1])).map
        (fun d => d.sessions 1) = some (some (.incoming "10.0.0.7:5001" .done)) := by
  let _ := noBase64
  refine ⟨fun h => ?_, by decide⟩
  obtain ⟨d, hd⟩ : ∃ d, exec Daemon.step idleDaemon (phoneArrives ++ [.ack 0 false]) = some d :=
    ⟨_, rfl⟩
  obtain ⟨i, hi, _⟩ := along_last h hd "phone" (by
    obtain rfl := Option.some.inj hd
    decide)
  by_cases h0 : i = 0
  · obtain rfl := Option.some.inj hd
    rw [h0] at hi
    revert hi
    decide
  · -- Only task 0 has run.
    have htasks : ∀ e ∈ phoneArrives ++ [DaemonEvent.ack 0 false], i ≠ e.task := by
      simp [phoneArrives, DaemonEvent.task, h0]
    rw [Daemon.exec_others hd htasks] at hi
    cases hi

end Zsync
