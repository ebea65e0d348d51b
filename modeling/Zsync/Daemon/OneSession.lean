import Zsync.Daemon.SessionSteps

/-! # One `framed_loop` for each remote node

An accepted session claims the node that its `Hello` names. A dialled one claims its address, and learns
the node from the answer to its own `Hello`, when it has its claim already.

* `Framed` : the daemon together with the sessions that are in `framed_loop`, and with which node.
* `OneEach` : no two of them have the same node.
* `oneEach_iff_apart` : that is so in all states of a run exactly when no session enters `framed_loop`
  for a node that another one has claimed under another key.
-/

namespace Zsync
set_option autoImplicit false
set_option maxHeartbeats 250000
open Foundations

/-- A session in `framed_loop` with `node`; a dialled one has the address of its peer. -/
structure Loop where
  task : ℕ
  node : String
  address : Option String
  deriving DecidableEq, Repr

structure Framed where
  daemon : Daemon
  loops : List Loop

inductive FramedEvent
  | daemon (e : DaemonEvent)
  /-- `run_tcp_init` has read who answers, and enters `framed_loop`. -/
  | greeted (i : ℕ) (node : String)

/-- The node whose `HelloAck` is written next. -/
def Daemon.greeting (d : Daemon) (i : ℕ) : Option String :=
  match d.sessions i with
  | some (.incoming _ (.subscribed node _)) => some node
  | _ => none

/-- The address of a dialled session that has its claim. -/
def Daemon.dialling (d : Daemon) (i : ℕ) : Option String :=
  match d.sessions i with
  | some (.dial task .running) => if task.target.relay.isSome then none else some task.target.uri
  | _ => none

namespace Framed

def inLoop (x : Framed) (i : ℕ) : Bool := x.loops.any fun l => l.task = i

/-- What a step of the daemon makes of the sessions in their loops. -/
def loopsAfter (x : Framed) : DaemonEvent → List Loop
  | .ack i true => x.loops ++ (x.daemon.greeting i).toList.map fun node => ⟨i, node, none⟩
  | .finish i => x.loops.filter fun l => l.task ≠ i
  | _ => x.loops

def step [Base64] (x : Framed) : FramedEvent → Option Framed
  | .daemon e => (x.daemon.step e).map fun d => ⟨d, x.loopsAfter e⟩
  | .greeted i node =>
    match x.daemon.dialling i, x.inLoop i with
    | some uri, false => some { x with loops := x.loops ++ [⟨i, node, some uri⟩] }
    | _, _ => none

/-- At most one session for each remote node. -/
def OneEach (x : Framed) : Prop := (x.loops.map Loop.node).Nodup

/-- An accepted session does not start for the node of a dialled one, nor a dialled one for the node of
one that was accepted or dialled under another address. -/
def Apart (x : Framed) : FramedEvent → Prop
  | .daemon (.ack i true) => ∀ node ∈ x.daemon.greeting i, ∀ l ∈ x.loops, l.address ≠ none → l.node ≠ node
  | .greeted i node => ∀ l ∈ x.loops, l.address ≠ x.daemon.dialling i → l.node ≠ node
  | _ => True

instance (x : Framed) : ∀ e, Decidable (Apart x e)
  | .daemon (.ack _ true) => inferInstanceAs (Decidable (∀ node ∈ _, _))
  | .greeted _ _ => inferInstanceAs (Decidable (∀ l ∈ _, _))
  | .daemon (.ack _ false) | .daemon (.accept _ _) | .daemon (.hello _ _) | .daemon (.claim _)
  | .daemon (.lookup _) | .daemon (.attempt _) | .daemon (.dialed _ _) | .daemon (.finish _)
  | .daemon (.release _) | .daemon (.spawn _ _ _) | .daemon (.request _ _ _) =>
    inferInstanceAs (Decidable True)

end Framed

/-! ## Sessions that stay where they are -/

namespace Daemon
variable {d t : Daemon}

/-- Only its end takes a session out of its loop. -/
theorem rests_kept [Base64] {e : DaemonEvent} (hs : d.step e = some t) {j : ℕ} {s : Session}
    (hj : d.sessions j = some s) (hrest : s.rests) (he : e ≠ .finish j) :
    t.sessions j = d.sessions j := by
  obtain ⟨s', hs', hbecomes⟩ := step_becomes hs hj
  obtain rfl | hend := hbecomes.rests hrest
  · rw [hs', hj]
  · exact absurd hend he

theorem greeting_eq_some {i : ℕ} {node : String} (h : d.greeting i = some node) :
    ∃ addr stop, d.sessions i = some (.incoming addr (.subscribed node stop)) := by
  unfold greeting at h
  split at h
  · next addr node' stop hi =>
    obtain rfl := Option.some.inj h
    exact ⟨addr, stop, hi⟩
  · cases h

theorem dialling_eq_some {i : ℕ} {uri : String} (h : d.dialling i = some uri) :
    ∃ task, d.sessions i = some (.dial task .running) ∧ task.target.uri = uri := by
  unfold dialling at h
  split at h
  · next task hi =>
    split_ifs at h
    exact ⟨task, hi, Option.some.inj h⟩
  · cases h

end Daemon

/-! ## One step -/

namespace Framed
variable {x y : Framed}

/-- The session behind a loop. -/
def Backed (d : Daemon) (l : Loop) : Prop :=
  match l.address with
  | none => ∃ addr stop, d.sessions l.task = some (.incoming addr (.looping l.node stop))
  | some uri => d.dialling l.task = some uri

structure Inv (x : Framed) : Prop where
  owned : Owned x.daemon.rt.live x.daemon.holds
  backed : ∀ l ∈ x.loops, Backed x.daemon l

/-- The key that the session of a loop has claimed. -/
theorem Backed.holds {d : Daemon} {l : Loop} (h : Backed d l) :
    d.holds l.task = some (l.address.getD l.node) := by
  unfold Backed at h
  split at h
  · next hnone =>
    obtain ⟨addr, stop, hl⟩ := h
    rw [hnone, Daemon.holds_of hl]
    rfl
  · next uri hsome =>
    obtain ⟨task, hl, rfl⟩ := Daemon.dialling_eq_some h
    rw [hsome, Daemon.holds_of hl]
    rfl

theorem Backed.kept [Base64] {d t : Daemon} {e : DaemonEvent} {l : Loop} (h : Backed d l)
    (hs : d.step e = some t) (he : e ≠ .finish l.task) : Backed t l := by
  unfold Backed at h ⊢
  split at h
  · obtain ⟨addr, stop, hl⟩ := h
    exact ⟨addr, stop, (Daemon.rests_kept hs hl trivial he).trans hl⟩
  · obtain ⟨task, hl, -⟩ := Daemon.dialling_eq_some h
    rw [Daemon.dialling, Daemon.rests_kept hs hl trivial he]
    exact h

/-- What is in a loop after a step of the daemon was there before, or has just written its `HelloAck`. -/
theorem mem_loopsAfter {e : DaemonEvent} {l : Loop} (h : l ∈ x.loopsAfter e) :
    l ∈ x.loops ∧ e ≠ .finish l.task ∨
      ∃ i node, e = .ack i true ∧ x.daemon.greeting i = some node ∧ l = ⟨i, node, none⟩ := by
  unfold loopsAfter at h
  split at h
  · next i =>
    obtain h | h := List.mem_append.mp h
    · exact .inl ⟨h, by simp⟩
    · obtain ⟨node, hnode, rfl⟩ := List.mem_map.mp h
      exact .inr ⟨i, node, rfl, by simpa using hnode, rfl⟩
  · next i =>
    obtain ⟨h, hne⟩ := List.mem_filter.mp h
    refine .inl ⟨h, fun heq => ?_⟩
    obtain rfl := DaemonEvent.finish.inj heq
    simp at hne
  · next hfinish => exact .inl ⟨h, fun heq => hfinish _ heq⟩

theorem Inv.step [Base64] {e : FramedEvent} (h : Inv x) (hs : Framed.step x e = some y) : Inv y := by
  cases e with
  | daemon e =>
    obtain ⟨d, hd, rfl⟩ := Option.map_eq_some_iff.mp hs
    refine ⟨(Daemon.step_effect hd).owned h.owned, fun l hl => ?_⟩
    obtain ⟨hold, hne⟩ | ⟨i, node, rfl, hnode, rfl⟩ := mem_loopsAfter hl
    · exact (h.backed l hold).kept hd hne
    · obtain ⟨addr, stop, hi⟩ := Daemon.greeting_eq_some hnode
      simp only [Daemon.step, hi] at hd
      obtain rfl := Option.some.inj hd
      exact ⟨addr, stop, Function.update_self _ _ _⟩
  | greeted i node =>
    simp only [Framed.step] at hs
    split at hs
    · next uri hi hloop =>
      obtain rfl := Option.some.inj hs
      refine ⟨h.owned, fun l hl => ?_⟩
      obtain hl | hl := List.mem_append.mp hl
      · exact h.backed l hl
      · obtain rfl := List.mem_singleton.mp hl
        exact hi
    · cases hs

theorem oneEach_append {loops : List Loop} {l : Loop} (h : (loops.map Loop.node).Nodup) :
    ((loops ++ [l]).map Loop.node).Nodup ↔ ∀ l' ∈ loops, l'.node ≠ l.node := by
  rw [List.map_append, List.map_singleton, List.nodup_append]
  simp [h]

/-- Two loops with the same key are of one session. -/
theorem Inv.task_eq (h : Inv x) {l : Loop} (hl : l ∈ x.loops) {i : ℕ} {key : String}
    (hkey : l.address.getD l.node = key) (hi : x.daemon.holds i = some key) : l.task = i :=
  h.owned.single l.task i key (hkey ▸ (h.backed l hl).holds) hi

theorem Inv.ack_iff (h : Inv x) (hone : OneEach x) {i : ℕ} :
    ((x.loopsAfter (.ack i true)).map Loop.node).Nodup ↔ Apart x (.daemon (.ack i true)) := by
  show ((x.loops ++ (x.daemon.greeting i).toList.map _).map Loop.node).Nodup ↔
    ∀ node ∈ x.daemon.greeting i, _
  cases hg : x.daemon.greeting i with
  | none =>
    refine iff_of_true ?_ fun node hnode => by cases hnode
    rw [Option.toList_none, List.map_nil, List.append_nil]
    exact hone
  | some node =>
    rw [Option.toList_some, List.map_singleton, oneEach_append hone]
    obtain ⟨addr, stop, hi⟩ := Daemon.greeting_eq_some hg
    have hholds : x.daemon.holds i = some node := Daemon.holds_of hi
    constructor
    · intro hne node' hnode' l hl _
      obtain rfl := Option.some.inj hnode'
      exact hne l hl
    · intro hapart l hl hnode
      dsimp only at hnode
      cases haddr : l.address with
      | some uri => exact hapart node rfl l hl (by simp [haddr]) hnode
      | none =>
        -- It was accepted, so that it has claimed the same key.
        have htask : l.task = i := h.task_eq hl (by rw [haddr]; exact hnode) hholds
        have hb := h.backed l hl
        rw [Backed, haddr, htask] at hb
        obtain ⟨addr', stop', hi'⟩ := hb
        rw [hi] at hi'
        cases hi'

theorem Inv.greeted_iff (h : Inv x) (hone : OneEach x) {i : ℕ} {node uri : String}
    (hi : x.daemon.dialling i = some uri) (hloop : x.inLoop i = false) :
    ((x.loops ++ [Loop.mk i node (some uri)]).map Loop.node).Nodup ↔ Apart x (.greeted i node) := by
  rw [oneEach_append hone]
  constructor
  · intro hne l hl _
    exact hne l hl
  · intro hapart l hl
    by_cases haddr : l.address = some uri
    · -- It was dialled under the same address, which only one session can claim.
      obtain ⟨task, hi', htask⟩ := Daemon.dialling_eq_some hi
      have hholds : x.daemon.holds i = some uri := by
        rw [Daemon.holds_of hi', ← htask]
        rfl
      have hl' : l.task = i := h.task_eq hl (by rw [haddr]; rfl) hholds
      have hin : x.inLoop i = true := by
        rw [inLoop, List.any_eq_true]
        exact ⟨l, hl, by simpa using hl'⟩
      rw [hloop] at hin
      cases hin
    · exact hapart l hl (by rw [hi]; exact haddr)

theorem Inv.step_iff [Base64] {e : FramedEvent} (h : Inv x) (hone : OneEach x)
    (hs : Framed.step x e = some y) : OneEach y ↔ Apart x e := by
  cases e with
  | daemon e =>
    obtain ⟨d, hd, rfl⟩ := Option.map_eq_some_iff.mp hs
    have keep : x.loopsAfter e = x.loops → OneEach ⟨d, x.loopsAfter e⟩ := by
      intro hsame
      rw [hsame]
      exact hone
    cases e with
    | ack i ok =>
      cases ok with
      | true => exact h.ack_iff hone
      | false => exact iff_of_true (keep rfl) trivial
    | finish i =>
      refine iff_of_true ?_ trivial
      exact hone.sublist (List.filter_sublist.map _)
    | _ => exact iff_of_true (keep rfl) trivial
  | greeted i node =>
    simp only [Framed.step] at hs
    split at hs
    · next uri hi hloop =>
      obtain rfl := Option.some.inj hs
      exact h.greeted_iff hone hi hloop
    · cases hs

/-! ## Whole runs -/

/-- For every order of connections, dials and ends: no two sessions are in `framed_loop` with the same
node in all states of a run exactly when no session enters it for a node that another one has claimed
under another key. -/
theorem oneEach_iff_apart [Base64] {d : Daemon} {es : List FramedEvent} (hd : d.Boots)
    (hrun : (exec step ⟨d, []⟩ es).isSome) :
    Along step OneEach ⟨d, []⟩ es ↔ Guarded step Apart ⟨d, []⟩ es :=
  along_iff_guarded (I := Inv) (fun _ _ _ h hs => h.step hs)
    (fun _ _ _ h hone hs => h.step_iff hone hs)
    ⟨hd.owned, fun _ hl => absurd hl List.not_mem_nil⟩ List.nodup_nil hrun

end Framed

/-! ### A phone that is dialled and dials -/

/-- The daemon dials the phone at its saved address, and is in `framed_loop` with it. -/
def phoneDialled : List FramedEvent :=
  [.daemon (.spawn 1 ⟨.ok (), .ok ()⟩ "10.0.0.7"), .daemon (.attempt 1), .daemon (.dialed 1 true),
    .daemon (.claim 1), .greeted 1 "phone"]

/-- One after the other is fine. -/
theorem phoneReturns_oneEach :
    letI := noBase64
    Along Framed.step Framed.OneEach ⟨idleDaemon, []⟩
      (phoneDialled ++ [.daemon (.finish 1)] ++ phoneArrives.map .daemon ++ [.daemon (.ack 0 true)]) := by
  let _ := noBase64
  exact (Framed.oneEach_iff_apart ⟨rfl, fun _ => rfl⟩ (by decide +kernel)).mpr (by decide +kernel)

/-- When the phone connects in the meantime, its node id is not in the table, and there are two. -/
theorem phoneArrives_twice :
    letI := noBase64
    ∃ x, exec Framed.step ⟨idleDaemon, []⟩
        (phoneDialled ++ phoneArrives.map .daemon ++ [.daemon (.ack 0 true)]) = some x ∧
      x.loops = [⟨1, "phone", some "10.0.0.7:43721"⟩, ⟨0, "phone", none⟩] ∧ ¬ x.OneEach := by
  let _ := noBase64
  have hrun : (exec Framed.step ⟨idleDaemon, []⟩
      (phoneDialled ++ phoneArrives.map .daemon ++ [.daemon (.ack 0 true)])).map Framed.loops =
        some [⟨1, "phone", some "10.0.0.7:43721"⟩, ⟨0, "phone", none⟩] := by
    decide +kernel
  obtain ⟨x, hx, hloops⟩ := Option.map_eq_some_iff.mp hrun
  refine ⟨x, hx, hloops, ?_⟩
  rw [Framed.OneEach, hloops]
  decide

end Zsync
