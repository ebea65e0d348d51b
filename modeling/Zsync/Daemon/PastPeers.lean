import Zsync.Daemon.ShownPeers

/-! # The entries of past connections

The status of an entry that `remember_incoming` made is written by the sessions from its address only, and they
write `connected`. So the entry stays what it is, however its sessions end, until somebody has the daemon stop
its peer.

* `Noted` : what a step notes, and of which entry.
* `Apart` : maintaining tasks write to other entries; `Apart.step` keeps it.
* `inbound_entry_stays` : a run in which nobody asks for anything keeps the entry, and it says `connected`.
-/

namespace Zsync
set_option autoImplicit false
set_option maxHeartbeats 250000
open Foundations

namespace Statuses
variable [Base64] {x y : Statuses} {key : String} {c : StopChan} {e : DaemonEvent} {t : Daemon} {i : ℕ}

/-- What a step notes. -/
inductive Noted (x : Statuses) (e : DaemonEvent) (y : Statuses) : Prop
  | same (hstate : y.state = x.state) (hinbound : y.inbound = x.inbound)
  | own (i : ℕ) (task : PeerTask) (hi : x.daemon.origin i = some (.inr task)) (state : LinkState)
    (hstate : y.state = Function.update x.state task.stop state) (hinbound : y.inbound = x.inbound)
  | acked (c : StopChan) (hstate : y.state = Function.update x.state c .connected)
    (hinbound : y.inbound = x.inbound)
  | spawned (task : PeerTask) (hnew : x.daemon.newTask e = some task)
    (hstate : y.state = Function.update x.state task.stop .connecting)
    (hinbound : y.inbound = Function.update x.inbound task.stop false)
  | remembered (c : StopChan) (hnew : x.daemon.newTask e = none) (hc : c.2 = x.daemon.rt.channels)
    (hlt : c.2 < y.daemon.rt.channels)
    (hstate : y.state = Function.update x.state c .connected)
    (hinbound : y.inbound = Function.update x.inbound c true)

theorem noted_remembered {addr : String} (hrt : t.rt = x.daemon.rt.rememberIncoming addr) :
    Noted x (.lookup i) { x.remembered addr with daemon := t } := by
  unfold remembered entry
  unfold Runtime.rememberIncoming at hrt
  cases hl : x.daemon.rt.peers.lookup addr with
  | some chan => exact .same rfl rfl
  | none =>
    rw [hl] at hrt
    refine .remembered (addr, x.daemon.rt.channels) rfl rfl ?_ rfl rfl
    show x.daemon.rt.channels < t.rt.channels
    rw [hrt]
    exact Nat.lt_succ_self _

theorem noted_lookup (hs : x.daemon.lookup i = some t) :
    Noted x (.lookup i) { x.looked i with daemon := t } := by
  unfold looked
  unfold Daemon.lookup at hs
  split_ifs with hp
  · exact .same rfl rfl
  · split at hs
    · next addr node hi =>
      rw [if_neg hp] at hs
      obtain rfl := Option.some.inj hs
      simp only [hi]
      exact noted_remembered rfl
    · next addr node hi =>
      simp only [hi]
      exact .same rfl rfl
    · next addr node hi =>
      simp only [hi]
      exact .same rfl rfl
    · cases hs

theorem noted_spawned {task : Option PeerTask} (h : x.daemon.newTask e = task) :
    Noted x e { x.spawned task with daemon := t } := by
  cases task with
  | none => exact .same rfl rfl
  | some task => exact .spawned task h rfl rfl

theorem noted_step (hs : x.daemon.step e = some t) : Noted x e { x.notes e with daemon := t } := by
  cases e with
  | accept | hello | finish => exact .same rfl rfl
  | lookup i => exact noted_lookup hs
  | ack i ok =>
    simp only [notes]
    split_ifs
    · unfold acked
      split
      · next c _ => exact .acked c rfl rfl
      · exact .same rfl rfl
    · exact .same rfl rfl
  | attempt i | release i =>
    simp only [notes]
    split
    · next task hi => exact .own i task (Daemon.origin_of hi) _ rfl rfl
    · exact .same rfl rfl
  | dialed i ok =>
    simp only [notes]
    split
    · next task hi =>
      split_ifs
      · exact .same rfl rfl
      · exact .own i task (Daemon.origin_of hi) _ rfl rfl
    · exact .same rfl rfl
  | claim i =>
    simp only [notes]
    split
    · next task hi =>
      split_ifs
      · exact .own i task (Daemon.origin_of hi) _ rfl rfl
      · exact .same rfl rfl
    · exact .same rfl rfl
  | spawn i io uri => exact noted_spawned rfl
  | request i io req =>
    simp only [notes]
    split_ifs with hp
    · exact .same rfl rfl
    · exact noted_spawned (if_neg hp)

/-- Nobody but accepted sessions writes to an entry that was made for a connection. -/
structure Apart (x : Statuses) : Prop where
  numbered : ∀ c, x.inbound c = true → c.2 < x.daemon.rt.channels
  connected : ∀ c, x.inbound c = true → x.state c = .connected
  tasks : ∀ j task, x.daemon.origin j = some (.inr task) →
    task.stop.2 < x.daemon.rt.channels ∧ x.inbound task.stop = false

omit [Base64] in
theorem Apart.start {d : Daemon} (hd : d.Boots) : Apart (Statuses.start d) where
  numbered _ h := by cases h
  connected _ h := by cases h
  tasks j task h := by
    obtain ⟨s, hj, -⟩ := origin_eq_some h
    rw [show (Statuses.start d).daemon.sessions j = none from hd.sessions j] at hj
    cases hj

omit [Base64] in
theorem lookup_channels {d : Daemon} (hs : d.lookup i = some t) : d.rt.channels ≤ t.rt.channels := by
  obtain hrt | ⟨-, addr, hrt⟩ := Daemon.lookup_rt hs
  · rw [hrt]
  · rw [hrt, Runtime.rememberIncoming]
    split
    · exact le_refl _
    · exact Nat.le_succ _

theorem step_channels {d : Daemon} (hs : d.step e = some t) : d.rt.channels ≤ t.rt.channels := by
  by_cases he : ∃ i, e = .lookup i
  · obtain ⟨i, rfl⟩ := he
    exact lookup_channels hs
  · exact (Daemon.step_made hs fun i h => he ⟨i, h⟩).channels

theorem Apart.newTask (h : Apart x) (hs : x.daemon.step e = some t) {task : PeerTask}
    (hnew : x.daemon.newTask e = some task) : x.inbound task.stop = false := by
  by_contra hin
  have hlt := h.numbered task.stop (eq_true_of_ne_false hin)
  have hge := ((newTask_made hs hnew).fresh task rfl).1
  omega

theorem Apart.numbered_step (h : Apart x) (hs : x.daemon.step e = some y.daemon) (hnoted : Noted x e y)
    (hc : y.inbound c = true) : c.2 < y.daemon.rt.channels := by
  have hold : x.inbound c = true → c.2 < y.daemon.rt.channels := fun hin =>
    (h.numbered c hin).trans_le (step_channels hs)
  cases hnoted with
  | same _ hinbound | own _ _ _ _ _ hinbound | acked _ _ hinbound => exact hold (hinbound ▸ hc)
  | spawned new _ _ hinbound =>
    rw [hinbound, Function.update_apply] at hc
    split_ifs at hc
    exact hold hc
  | remembered c₀ _ _ hlt _ hinbound =>
    rw [hinbound, Function.update_apply] at hc
    split_ifs at hc with hcc
    · exact hcc ▸ hlt
    · exact hold hc

theorem Apart.connected_step (h : Apart x) (hnoted : Noted x e y) (hc : y.inbound c = true) :
    y.state c = .connected := by
  cases hnoted with
  | same hstate hinbound =>
    rw [hstate]
    exact h.connected c (hinbound ▸ hc)
  | own i task hi state hstate hinbound =>
    rw [hinbound] at hc
    have hne : c ≠ task.stop := by
      rintro rfl
      exact Bool.noConfusion (hc.symm.trans (h.tasks i task hi).2)
    rw [hstate, Function.update_of_ne hne, h.connected c hc]
  | acked c₀ hstate hinbound =>
    rw [hstate, Function.update_apply]
    split_ifs
    · rfl
    · exact h.connected c (hinbound ▸ hc)
  | spawned new hnew hstate hinbound =>
    rw [hinbound, Function.update_apply] at hc
    split_ifs at hc with hcc
    rw [hstate, Function.update_of_ne hcc, h.connected c hc]
  | remembered c₀ _ _ _ hstate hinbound =>
    rw [hinbound, Function.update_apply] at hc
    rw [hstate, Function.update_apply]
    split_ifs at hc ⊢
    · rfl
    · exact h.connected c hc

theorem Apart.tasks_step (h : Apart x) (hs : x.daemon.step e = some y.daemon) (hnoted : Noted x e y)
    {j : ℕ} {task : PeerTask} (hj : y.daemon.origin j = some (.inr task)) :
    task.stop.2 < y.daemon.rt.channels ∧ y.inbound task.stop = false := by
  have hin : x.inbound task.stop = false := by
    obtain hold | hnew := task_before hs hj
    · exact (h.tasks j task hold).2
    · exact h.newTask hs hnew
  constructor
  · obtain hold | hnew := task_before hs hj
    · exact (h.tasks j task hold).1.trans_le (step_channels hs)
    · exact ((newTask_made hs hnew).fresh task rfl).2
  · cases hnoted with
    | same _ hinbound | own _ _ _ _ _ hinbound | acked _ _ hinbound => exact hinbound ▸ hin
    | spawned new _ _ hinbound =>
      rw [hinbound, Function.update_apply]
      split_ifs
      · rfl
      · exact hin
    | remembered c₀ hnone hc₀ _ _ hinbound =>
      obtain hold | hnew := task_before hs hj
      · have hne : task.stop ≠ c₀ := by
          rintro rfl
          exact absurd hc₀ (h.tasks j task hold).1.ne
        rw [hinbound, Function.update_of_ne hne]
        exact hin
      · rw [hnone] at hnew
        cases hnew

theorem Apart.step {e : StatusEvent} (h : Apart x) (hs : x.step e = some y) : Apart y := by
  cases e with
  | greeted i =>
    simp only [Statuses.step] at hs
    split at hs
    · next task hi =>
      obtain rfl := Option.some.inj hs
      refine ⟨h.numbered, fun c hc => ?_, h.tasks⟩
      show Function.update x.state task.stop .connected c = .connected
      rw [Function.update_apply]
      split_ifs
      · rfl
      · exact h.connected c hc
    · cases hs
  | daemon e =>
    obtain ⟨t, ht, rfl⟩ := Option.map_eq_some_iff.mp hs
    have hnoted := noted_step ht
    exact ⟨fun c => h.numbered_step ht hnoted, fun c => h.connected_step hnoted,
      fun j task => h.tasks_step ht hnoted⟩

/-- Whatever happens, an entry that was made for a connection says `connected`. -/
theorem inbound_connected {d : Daemon} {es : List StatusEvent} (hd : d.Boots)
    (hx : exec step (start d) es = some x) (hin : x.inbound c = true) : x.state c = .connected :=
  (exec_invariant (I := Apart) (fun _ _ _ h hs => h.step hs) (.start hd) hx).connected c hin

/-- Somebody has the daemon start or stop peers. -/
def asks : StatusEvent → Bool
  | .daemon (.spawn _ _ _) | .daemon (.request _ _ _) => true
  | _ => false

omit [Base64] in
theorem lookup_entry {d : Daemon} {chan : ℕ} (hs : d.lookup i = some t)
    (hc : d.rt.peers.lookup key = some chan) : t.rt.peers.lookup key = some chan := by
  obtain hrt | ⟨-, addr, hrt⟩ := Daemon.lookup_rt hs
  · rw [hrt, hc]
  · rw [hrt, Runtime.rememberIncoming]
    split
    · exact hc
    · next haddr =>
      rw [Runtime.addPeer_lookup, if_neg, hc]
      rintro rfl
      rw [haddr] at hc
      cases hc

theorem entry_step {e : StatusEvent} (hs : x.step e = some y) (he : asks e = false)
    (hc : x.entry key = some c) : y.entry key = some c := by
  cases e with
  | greeted i =>
    simp only [Statuses.step] at hs
    split at hs
    · obtain rfl := Option.some.inj hs
      exact hc
    · cases hs
  | daemon e =>
    obtain ⟨t, ht, rfl⟩ := Option.map_eq_some_iff.mp hs
    obtain ⟨chan, hchan, rfl⟩ := Option.map_eq_some_iff.mp hc
    refine Option.map_eq_some_iff.mpr ⟨chan, ?_, rfl⟩
    show t.rt.peers.lookup key = some chan
    cases e with
    | spawn | request => cases he
    | lookup i => exact lookup_entry ht hchan
    | _ => rw [Daemon.step_peers ht rfl, hchan]

theorem inbound_step {e : StatusEvent} (hs : x.step e = some y) (he : asks e = false)
    (hin : x.inbound c = true) : y.inbound c = true := by
  cases e with
  | greeted i =>
    simp only [Statuses.step] at hs
    split at hs
    · obtain rfl := Option.some.inj hs
      exact hin
    · cases hs
  | daemon e =>
    obtain ⟨t, ht, rfl⟩ := Option.map_eq_some_iff.mp hs
    cases noted_step ht with
    | same _ hinbound | own _ _ _ _ _ hinbound | acked _ _ hinbound => exact hinbound ▸ hin
    | spawned new hnew _ _ =>
      cases e with
      | spawn | request => cases he
      | _ => cases hnew
    | remembered c₀ _ _ _ _ hinbound =>
      rw [hinbound, Function.update_apply]
      split_ifs
      · rfl
      · exact hin

/-- Such an entry stays for as long as nobody asks for its removal, with or without a session. -/
theorem inbound_entry_stays {d : Daemon} {es fs : List StatusEvent} (hd : d.Boots)
    (hx : exec step (start d) es = some x) (hy : exec step x fs = some y) (hfs : ∀ e ∈ fs, asks e = false)
    (hc : x.entry key = some c) (hin : x.inbound c = true) : y.shown key = some .connected := by
  have hstays : y.entry key = some c ∧ y.inbound c = true := by
    refine exec_guarded (I := fun x => x.entry key = some c ∧ x.inbound c = true)
      (C := fun _ e => asks e = false) ?_ ⟨hc, hin⟩ (guarded_of_forall step hfs x) hy
    exact fun _ _ _ h he hs => ⟨entry_step hs he h.1, inbound_step hs he h.2⟩
  have hrun : exec step (start d) (es ++ fs) = some y := by
    rw [exec_append_of step hx, hy]
  rw [shown, hstays.1, Option.map_some, inbound_connected hd hrun hstays.2]

end Statuses
end Zsync
