import Zsync.Model.Traffic
import Zsync.Relay.Ghosts

/-! # Groups are isolated, and a broadcast reaches each member once

* `server_step` : what happens to the rooms and sessions is a step of `RelayServer`, or nothing.
* `Carried` : where a payload in a queue may have come from.
* `Sound` : the invariant of every run.
* `group_isolation` : the whole of it, from an empty relay.
-/

namespace Zsync
set_option autoImplicit false
set_option maxHeartbeats 250000
open Foundations

/-! ## Sessions keep their device -/

namespace RelayServer
variable {r t : RelayServer}

/-- A session goes through its phases, never back to the first, and keeps everything else. -/
theorem session_kept {e : RelayEvent} (hs : step r e = some t) {j : ℕ} {leaf : Leaf}
    (hj : r.sessions j = some leaf) : ∃ phase, (leaf.phase ≠ .allowed → phase ≠ .allowed) ∧
      t.sessions j = some { leaf with phase := phase } := by
  have hput : ∀ {i : ℕ} {old : Leaf} (phase : LeafPhase), phase ≠ .allowed →
      r.sessions i = some old → ∃ phase', (leaf.phase ≠ .allowed → phase' ≠ .allowed) ∧
        Function.update r.sessions i (some { old with phase := phase }) j =
          some { leaf with phase := phase' } := by
    intro i old phase hp hi
    by_cases hji : j = i
    · subst hji
      obtain rfl := Option.some.inj (hi.symm.trans hj)
      exact ⟨phase, fun _ => hp, Function.update_self _ _ _⟩
    · exact ⟨leaf.phase, id, (Function.update_of_ne hji _ _).trans hj⟩
  cases e with
  | allow i group device hostname peer =>
    simp only [step] at hs
    split_ifs at hs with hnone
    obtain rfl := Option.some.inj hs
    have hji : j ≠ i := by
      rintro rfl
      rw [hj] at hnone
      cases hnone
    exact ⟨leaf.phase, id, (Function.update_of_ne hji _ _).trans hj⟩
  | join i =>
    obtain ⟨old, hi, rfl⟩ := Option.map_eq_some_iff.mp hs
    exact hput .joined (by decide) (sessionAt_eq_some hi).1
  | joinAck i ok =>
    obtain ⟨old, hi, rfl⟩ := Option.map_eq_some_iff.mp hs
    refine hput (if ok then .looping else .done) ?_ (sessionAt_eq_some hi).1
    cases ok <;> decide
  | finish i =>
    obtain ⟨old, hi, rfl⟩ := Option.map_eq_some_iff.mp hs
    exact hput .leaving (by decide) (sessionAt_eq_some hi).1
  | leave i =>
    obtain ⟨old, hi, rfl⟩ := Option.map_eq_some_iff.mp hs
    exact hput .done (by decide) (sessionAt_eq_some hi).1
  | kick group device =>
    obtain rfl := Option.some.inj hs
    exact ⟨leaf.phase, id, hj⟩
  | kickGroup group =>
    obtain rfl := Option.some.inj hs
    exact ⟨leaf.phase, id, hj⟩

/-- Every member has been joined by the session behind it. -/
theorem AllOwned.step {p : LeafPhase → Prop} (hp : ∀ phase, phase ≠ .allowed → p phase)
    {e : RelayEvent} (h : AllOwned p r) (hs : RelayServer.step r e = some t) : AllOwned p t := by
  cases e with
  | allow i group device hostname peer =>
    simp only [RelayServer.step] at hs
    split_ifs at hs with hnone
    obtain rfl := Option.some.inj hs
    exact h.allow (Option.isNone_iff_eq_none.mp hnone)
  | join i =>
    obtain ⟨leaf, hi, rfl⟩ := Option.map_eq_some_iff.mp hs
    obtain ⟨hi, hphase⟩ := sessionAt_eq_some hi
    exact h.join hi hphase (hp _ (by decide)) fun _ => hp _ (by decide)
  | joinAck i ok =>
    obtain ⟨leaf, hi, rfl⟩ := Option.map_eq_some_iff.mp hs
    refine h.advance (sessionAt_eq_some hi).1 fun _ => hp _ ?_
    cases ok <;> decide
  | finish i =>
    obtain ⟨leaf, hi, rfl⟩ := Option.map_eq_some_iff.mp hs
    exact h.advance (sessionAt_eq_some hi).1 fun _ => hp _ (by decide)
  | leave i =>
    obtain ⟨leaf, hi, rfl⟩ := Option.map_eq_some_iff.mp hs
    exact h.leave (sessionAt_eq_some hi).1
  | kick group device =>
    obtain rfl := Option.some.inj hs
    exact h.kick group device
  | kickGroup group =>
    obtain rfl := Option.some.inj hs
    exact h.kickGroup group

/-- No two members of a room are the same device. -/
theorem Single.nodup (h : Single r) (g : String) :
    ((r.rooms.members g).map Member.deviceId).Nodup := by
  rw [List.nodup_iff_count]
  intro d
  have hle := h g d
  rw [Rooms.entries, ← List.countP_eq_length_filter] at hle
  rw [List.count, List.countP_map]
  refine Nat.le_trans (Nat.le_of_eq (List.countP_congr fun m _ => ?_)) hle
  simp [Rooms.isDevice]

/-- No two members of a room have the same queue. -/
theorem AllOwned.nodup_tx {p : LeafPhase → Prop} (h : AllOwned p r) (hsingle : Single r) (g : String) :
    ((r.rooms.members g).map Member.tx).Nodup := by
  have hnodup := hsingle.nodup g
  rw [List.nodup_iff_pairwise_ne, List.pairwise_map] at hnodup ⊢
  refine hnodup.imp_of_mem fun {m m'} hm hm' hne htx => hne ?_
  obtain ⟨leaf, hs, -, hd, -⟩ := h g m hm
  obtain ⟨leaf', hs', -, hd', -⟩ := h g m' hm'
  rw [htx] at hs
  obtain rfl := Option.some.inj (hs.symm.trans hs')
  exact hd.symm.trans hd'

end RelayServer

/-! ## Where payloads come from -/

namespace Traffic
variable {s t : Traffic}

/-- Session `i` has joined. -/
def Joined (s : Traffic) (i : ℕ) (leaf : Leaf) : Prop :=
  s.server.sessions i = some leaf ∧ leaf.phase ≠ .allowed

/-- Session `i` has joined, and the payload was read by another device that has joined the same group,
while the group was enabled. -/
def Carried (s : Traffic) (i : ℕ) (p : Parcel) : Prop :=
  ∃ leaf source, s.Joined i leaf ∧ s.Joined p.source source ∧ source.group = leaf.group ∧
    source.device ≠ leaf.device ∧ ⟨p, leaf.group, true⟩ ∈ s.reports

/-- The payload is queued to session `i` or was written on it. -/
def Reached (s : Traffic) (i : ℕ) (p : Parcel) : Prop := p ∈ s.queue i ∨ p ∈ s.written i

structure Sound (s : Traffic) : Prop where
  owned : RelayServer.AllOwned (fun phase => phase ≠ .allowed) s.server
  single : RelayServer.Single s.server
  carried : ∀ i p, s.Reached i p → s.Carried i p
  checked : ∀ i payload, s.pending i = some payload → ∃ leaf, s.Joined i leaf ∧
    ⟨⟨payload, i⟩, leaf.group, true⟩ ∈ s.reports

/-! ### One step -/

/-- Rooms and sessions take a step of the relay, or none. -/
theorem server_step {e : TrafficEvent} (hs : step s e = some t) :
    t.server = s.server ∨ ∃ e', RelayServer.step s.server e' = some t.server := by
  cases e with
  | server e =>
    simp only [step] at hs
    split_ifs at hs
    obtain ⟨server, hr, rfl⟩ := Option.map_eq_some_iff.mp hs
    exact .inr ⟨e, hr⟩
  | allowlist allow =>
    obtain rfl := Option.some.inj hs
    exact .inl rfl
  | data i payload =>
    simp only [step] at hs
    split at hs
    · next leaf hi hp =>
      split_ifs at hs
      · obtain rfl := Option.some.inj hs
        exact .inl rfl
      · obtain rfl := Option.some.inj hs
        exact .inr ⟨.finish i, by rw [RelayServer.step, hi]; rfl⟩
    · cases hs
  | broadcast i =>
    simp only [step] at hs
    split at hs
    · next leaf payload hi hp =>
      obtain rfl := Option.some.inj hs
      rw [broadcast_eq]
      exact .inl rfl
    · cases hs
  | deliver i ok =>
    simp only [step] at hs
    split at hs
    · next leaf p rest hi hp hq =>
      obtain rfl := Option.some.inj hs
      cases ok with
      | true => exact .inl rfl
      | false => exact .inr ⟨.finish i, by rw [RelayServer.step, hi]; rfl⟩
    · cases hs

theorem Joined.step {e : TrafficEvent} {j : ℕ} {leaf : Leaf} (h : s.Joined j leaf)
    (hs : Traffic.step s e = some t) : ∃ phase, t.Joined j { leaf with phase := phase } := by
  obtain hsame | ⟨e', he'⟩ := server_step hs
  · exact ⟨leaf.phase, by rw [Joined, hsame]; exact h⟩
  · obtain ⟨phase, hp, hj⟩ := RelayServer.session_kept he' h.1
    exact ⟨phase, hj, hp h.2⟩

theorem reports_mono {e : TrafficEvent} (hs : step s e = some t) {report : Report}
    (hr : report ∈ s.reports) : report ∈ t.reports := by
  cases e with
  | server e =>
    simp only [step] at hs
    split_ifs at hs
    obtain ⟨server, -, rfl⟩ := Option.map_eq_some_iff.mp hs
    exact hr
  | allowlist allow =>
    obtain rfl := Option.some.inj hs
    exact hr
  | data i payload =>
    simp only [step] at hs
    split at hs
    · split_ifs at hs
      · obtain rfl := Option.some.inj hs
        exact List.mem_append_left _ hr
      · obtain rfl := Option.some.inj hs
        exact List.mem_append_left _ hr
    · cases hs
  | broadcast i =>
    simp only [step] at hs
    split at hs
    · obtain rfl := Option.some.inj hs
      rw [broadcast_eq]
      exact hr
    · cases hs
  | deliver i ok =>
    simp only [step] at hs
    split at hs
    · obtain rfl := Option.some.inj hs
      exact hr
    · cases hs

theorem Carried.step {e : TrafficEvent} {i : ℕ} {p : Parcel} (h : s.Carried i p)
    (hs : Traffic.step s e = some t) : t.Carried i p := by
  obtain ⟨leaf, source, hi, hsource, hg, hd, hreport⟩ := h
  obtain ⟨phase, hi'⟩ := hi.step hs
  obtain ⟨phase', hsource'⟩ := hsource.step hs
  exact ⟨_, _, hi', hsource', hg, hd, reports_mono hs hreport⟩

/-- What is handed on, and to whom. -/
structure Broadcasts (s : Traffic) (i : ℕ) (leaf : Leaf) (payload : Bytes) (t : Traffic) : Prop where
  session : s.server.sessions i = some leaf
  pending : s.pending i = some payload
  queue : ∀ j, t.queue j =
    if Receives (s.server.rooms.members leaf.group) leaf.device j ∧ s.hasRoom j = true then
      s.queue j ++ [⟨payload, i⟩]
    else s.queue j
  written : t.written = s.written
  cleared : t.pending = Function.update s.pending i none

theorem broadcast_step (h : Sound s) {i : ℕ} (hs : step s (.broadcast i) = some t) :
    ∃ leaf payload, Broadcasts s i leaf payload t := by
  simp only [step] at hs
  split at hs
  · next leaf payload hi hp =>
    obtain rfl := Option.some.inj hs
    refine ⟨leaf, payload, (RelayServer.sessionAt_eq_some hi).1, hp, fun j => ?_, ?_, ?_⟩
    · exact offers_queue (h.owned.nodup_tx h.single leaf.group) j
    · rw [broadcast_eq]
    · rw [broadcast_eq]
  · cases hs

/-- A member that a broadcast reaches joined the same group as another device. -/
theorem Sound.receives (h : Sound s) {g device : String} {j : ℕ}
    (hr : Receives (s.server.rooms.members g) device j) :
    ∃ leaf, s.Joined j leaf ∧ leaf.group = g ∧ leaf.device ≠ device := by
  obtain ⟨m, hm, hne, rfl⟩ := hr
  obtain ⟨leaf, hj, hg, hd, hp⟩ := h.owned g m hm
  exact ⟨leaf, ⟨hj, hp⟩, hg, fun heq => hne (hd.symm.trans heq)⟩

/-- What a session writes was in its queue. -/
theorem deliver_reached {k : ℕ} {ok : Bool} (hs : step s (.deliver k ok) = some t) {i : ℕ} {p : Parcel}
    (hp : t.Reached i p) : s.Reached i p := by
  simp only [step] at hs
  split at hs
  · next leaf head rest hk hpend hqueue =>
    obtain rfl := Option.some.inj hs
    obtain hq | hw := hp
    · refine .inl ?_
      simp only [Function.update_apply] at hq
      split_ifs at hq with hi
      · rw [hi, hqueue]
        exact List.mem_cons_of_mem _ hq
      · exact hq
    · simp only [Function.update_apply] at hw
      split_ifs at hw with hi
      · obtain hw | hw := List.mem_append.mp hw
        · exact .inr (hi ▸ hw)
        · obtain rfl := List.mem_singleton.mp hw
          refine .inl ?_
          rw [hi, hqueue]
          exact List.mem_cons_self
      · exact .inr hw
  · cases hs

/-- What reaches a session in one step was there before, or is broadcast to it. -/
theorem Sound.reached_step (h : Sound s) {e : TrafficEvent} (hs : step s e = some t) {i : ℕ}
    {p : Parcel} (hp : t.Reached i p) : s.Reached i p ∨ s.Carried i p := by
  cases e with
  | server e =>
    simp only [step] at hs
    split_ifs at hs
    obtain ⟨server, -, rfl⟩ := Option.map_eq_some_iff.mp hs
    exact .inl hp
  | allowlist allow =>
    obtain rfl := Option.some.inj hs
    exact .inl hp
  | data k payload =>
    simp only [step] at hs
    split at hs
    · split_ifs at hs
      · obtain rfl := Option.some.inj hs
        exact .inl hp
      · obtain rfl := Option.some.inj hs
        exact .inl hp
    · cases hs
  | broadcast k =>
    obtain ⟨leaf, payload, hb⟩ := broadcast_step h hs
    obtain hq | hw := hp
    · rw [hb.queue i] at hq
      split_ifs at hq with hrec
      · obtain hq | hq := List.mem_append.mp hq
        · exact .inl (.inl hq)
        · obtain rfl := List.mem_singleton.mp hq
          obtain ⟨target, hi, hg, hd⟩ := h.receives hrec.1
          obtain ⟨source, hk, hreport⟩ := h.checked k payload hb.pending
          obtain rfl := Option.some.inj (hb.session.symm.trans hk.1)
          exact .inr ⟨target, leaf, hi, hk, hg.symm, Ne.symm hd, hg ▸ hreport⟩
      · exact .inl (.inl hq)
    · rw [hb.written] at hw
      exact .inl (.inr hw)
  | deliver k ok => exact .inl (deliver_reached hs hp)

/-- What is pending was pending before, or has just passed the check. -/
theorem pending_step {e : TrafficEvent} (hs : step s e = some t) {i : ℕ} {payload : Bytes}
    (hp : t.pending i = some payload) : s.pending i = some payload ∨
      ∃ leaf, s.Joined i leaf ∧ ⟨⟨payload, i⟩, leaf.group, true⟩ ∈ t.reports := by
  cases e with
  | server e =>
    simp only [step] at hs
    split_ifs at hs
    obtain ⟨server, -, rfl⟩ := Option.map_eq_some_iff.mp hs
    exact .inl hp
  | allowlist allow =>
    obtain rfl := Option.some.inj hs
    exact .inl hp
  | data k data =>
    simp only [step] at hs
    split at hs
    · next leaf hk hnone =>
      split_ifs at hs with hok
      · obtain rfl := Option.some.inj hs
        simp only [Function.update_apply] at hp
        split_ifs at hp with hi
        · obtain rfl := Option.some.inj hp
          obtain ⟨hk, hphase⟩ := RelayServer.sessionAt_eq_some hk
          refine .inr ⟨leaf, ⟨by rw [hi]; exact hk, by rw [hphase]; decide⟩, ?_⟩
          rw [hi, ← hok]
          exact List.mem_append_right _ List.mem_cons_self
        · exact .inl hp
      · obtain rfl := Option.some.inj hs
        exact .inl hp
    · cases hs
  | broadcast k =>
    simp only [step] at hs
    split at hs
    · obtain rfl := Option.some.inj hs
      rw [broadcast_eq] at hp
      simp only [Function.update_apply] at hp
      split_ifs at hp
      exact .inl hp
    · cases hs
  | deliver k ok =>
    simp only [step] at hs
    split at hs
    · obtain rfl := Option.some.inj hs
      exact .inl hp
    · cases hs

theorem Sound.step {e : TrafficEvent} (h : Sound s) (hs : Traffic.step s e = some t) : Sound t where
  owned := by
    obtain hsame | ⟨e', he'⟩ := server_step hs
    · rw [hsame]
      exact h.owned
    · exact h.owned.step (fun _ hp => hp) he'
  single := by
    obtain hsame | ⟨e', he'⟩ := server_step hs
    · rw [hsame]
      exact h.single
    · exact h.single.step he'
  carried := by
    intro i p hp
    obtain hold | hnew := h.reached_step hs hp
    · exact (h.carried i p hold).step hs
    · exact hnew.step hs
  checked := by
    intro i payload hp
    obtain hold | ⟨leaf, hi, hreport⟩ := pending_step hs hp
    · obtain ⟨leaf, hi, hreport⟩ := h.checked i payload hold
      obtain ⟨phase, hi'⟩ := hi.step hs
      exact ⟨_, hi', reports_mono hs hreport⟩
    · obtain ⟨phase, hi'⟩ := hi.step hs
      exact ⟨_, hi', hreport⟩

/-! ### Whole runs -/

/-- A relay that has just started; its allowlist is arbitrary. -/
structure Boots (s : Traffic) : Prop where
  server : s.server.Boots
  queue : ∀ i, s.queue i = []
  written : ∀ i, s.written i = []
  pending : ∀ i, s.pending i = none

theorem Boots.sound (h : Boots s) : Sound s where
  owned := h.server.allOwned _
  single := h.server.single
  carried := by
    intro i p hp
    rw [Reached, h.queue i, h.written i] at hp
    simp at hp
  checked := by
    intro i payload hp
    rw [h.pending i] at hp
    cases hp

/-- Whatever happened, a payload reaches only sessions of the group of the session that read it, which
was enabled then, and no session of the same device; the devices of a room are distinct; and a broadcast
puts the payload once into the queue of each other member that has room, and nowhere else. -/
theorem group_isolation {es : List TrafficEvent} (hb : Boots s) (hr : exec step s es = some t) :
    (∀ i p, t.Reached i p → t.Carried i p) ∧
      (∀ g, ((t.server.rooms.members g).map Member.deviceId).Nodup) ∧
      ∀ i u, step t (.broadcast i) = some u → ∃ leaf payload, Broadcasts t i leaf payload u := by
  have h : Sound t := exec_invariant (fun _ _ _ h hs => h.step hs) hb.sound hr
  exact ⟨h.carried, h.single.nodup, fun i u hu => broadcast_step h hu⟩

end Traffic

/-! ### Two devices of a group -/

def emptyTraffic : Traffic :=
  ⟨emptyRelay, fun _ => none, fun _ => [], fun _ => [], fun _ => none, []⟩

theorem emptyTraffic_boots : emptyTraffic.Boots :=
  ⟨⟨fun _ => rfl, fun _ => rfl⟩, fun _ => rfl, fun _ => rfl, fun _ => rfl⟩

/-- `phone` and `laptop` join the group `g`, as sessions `0` and `1`. -/
def phoneAndLaptop : List TrafficEvent :=
  [.allowlist fun g => if g = "g" then some true else none,
    .server (.allow 0 "g" "phone" "pixel" "10.0.0.7:5000"), .server (.join 0),
    .server (.joinAck 0 true), .server (.allow 1 "g" "laptop" "think" "10.0.0.8:5000"),
    .server (.join 1), .server (.joinAck 1 true)]

/-- `phone` sends one payload to `laptop`; then the group is disabled. -/
def phoneToLaptop : List TrafficEvent :=
  [.allowlist fun g => if g = "g" then some true else none,
    .server (.allow 0 "g" "phone" "pixel" "10.0.0.7:5000"), .server (.join 0),
    .server (.joinAck 0 true), .server (.allow 1 "g" "laptop" "think" "10.0.0.8:5000"),
    .server (.join 1), .server (.joinAck 1 true), .data 0 [104, 105],
    .allowlist fun _ => none, .broadcast 0, .deliver 1 true]

theorem phoneToLaptop_isolated :
    ∃ s, exec Traffic.step emptyTraffic phoneToLaptop = some s ∧ s.written 1 = [⟨[104, 105], 0⟩] ∧
      s.Carried 1 ⟨[104, 105], 0⟩ := by
  obtain ⟨s, hs⟩ : ∃ s, exec Traffic.step emptyTraffic phoneToLaptop = some s := ⟨_, rfl⟩
  have h := (Traffic.group_isolation emptyTraffic_boots hs).1
  obtain rfl := Option.some.inj hs
  exact ⟨_, rfl, rfl, h 1 _ (.inr List.mem_cons_self)⟩

end Zsync
