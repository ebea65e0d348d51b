import Zsync.Relay.Backpressure
import Zsync.Relay.Silencing

/-! # The order in which payloads arrive

A broadcast holds the lock of the rooms, so that all broadcasts are in one order; a queue passes on what it holds
in the order in which it was put there.

* `Cast` : one broadcast, with the sessions that it puts the payload into the queues of.
* `Ordered` : each session gets what was put into its queue in the order of the broadcasts, nothing of it twice
  and nothing out of turn; and what a session says is broadcast in the order in which it was read.
* `broadcasts_ordered` : that is so in every run of the relay.
-/

namespace Zsync
set_option autoImplicit false
set_option maxHeartbeats 250000
open Foundations

structure Cast where
  parcel : Parcel
  taken : ℕ → Bool

namespace Traffic
variable {s t : Traffic}

/-- The broadcast that a step makes, if it makes one. -/
def casts (s : Traffic) (e : TrafficEvent) (_ : Traffic) : List Cast :=
  match e with
  | .broadcast i =>
    match s.server.sessionAt i .looping, s.pending i with
    | some leaf, some payload =>
      let members := s.server.rooms.members leaf.group
      [⟨⟨payload, i⟩, fun j => decide (Receives members leaf.device j) && s.hasRoom j⟩]
    | _, _ => []
  | _ => []

/-- What was put into the queue of session `j`. -/
def takenBy (j : ℕ) (history : List Cast) : List Parcel :=
  (history.filter fun c => c.taken j).map Cast.parcel

/-- The payloads among `parcels` that session `i` has read. -/
def saidBy (i : ℕ) (parcels : List Parcel) : List Bytes :=
  (parcels.filter fun p => p.source = i).map Parcel.payload

/-- The payloads that session `i` read while its group was enabled. -/
def accepted (s : Traffic) (i : ℕ) : List Bytes :=
  (s.reports.filter fun r => r.enabled && decide (r.parcel.source = i)).map fun r => r.parcel.payload

structure Ordered (x : Traffic × List Cast) : Prop where
  intake : ∀ j, x.1.intake j = takenBy j x.2
  accepted : ∀ i, saidBy i (x.2.map Cast.parcel) ++ (x.1.pending i).toList = x.1.accepted i

/-! ## One step -/

theorem casts_quiet {e : TrafficEvent} (he : ∀ i, e ≠ .broadcast i) : casts s e t = [] := by
  cases e with
  | broadcast i => exact absurd rfl (he i)
  | _ => rfl

theorem casts_broadcast {i : ℕ} {leaf : Leaf} {payload : Bytes}
    (hi : s.server.sessionAt i .looping = some leaf) (hp : s.pending i = some payload) :
    casts s (.broadcast i) t = [⟨⟨payload, i⟩, fun j =>
      decide (Receives (s.server.rooms.members leaf.group) leaf.device j) && s.hasRoom j⟩] := by
  simp only [casts, hi, hp]

theorem takenBy_append (j : ℕ) (history new : List Cast) :
    takenBy j (history ++ new) = takenBy j history ++ takenBy j new := by
  simp only [takenBy, List.filter_append, List.map_append]

theorem saidBy_append (i : ℕ) (parcels new : List Parcel) :
    saidBy i (parcels ++ new) = saidBy i parcels ++ saidBy i new := by
  simp only [saidBy, List.filter_append, List.map_append]

/-- Without a broadcast, what is pending and what was reported change by what is read, together. -/
theorem quiet_accepted {e : TrafficEvent} (hs : step s e = some t) (he : ∀ i, e ≠ .broadcast i) (i : ℕ) :
    ∃ new, (t.pending i).toList = (s.pending i).toList ++ new ∧ t.accepted i = s.accepted i ++ new := by
  have same : t.pending = s.pending → t.reports = s.reports → ∃ new,
      (t.pending i).toList = (s.pending i).toList ++ new ∧ t.accepted i = s.accepted i ++ new := by
    intro hpend hreports
    refine ⟨[], ?_, ?_⟩
    · rw [hpend, List.append_nil]
    · rw [accepted, accepted, hreports, List.append_nil]
  cases e with
  | server e =>
    simp only [step] at hs
    split_ifs at hs
    obtain ⟨server, -, rfl⟩ := Option.map_eq_some_iff.mp hs
    exact same rfl rfl
  | allowlist allow =>
    obtain rfl := Option.some.inj hs
    exact same rfl rfl
  | data k payload =>
    simp only [step] at hs
    split at hs
    · next leaf hk hnone =>
      split_ifs at hs with hok
      · obtain rfl := Option.some.inj hs
        by_cases hik : i = k
        · subst hik
          refine ⟨[payload], ?_, ?_⟩
          · simp [hnone]
          · simp [accepted, hok]
        · refine ⟨[], ?_, ?_⟩
          · simp [Function.update_of_ne hik]
          · simp [accepted, Ne.symm hik]
      · obtain rfl := Option.some.inj hs
        refine ⟨[], (List.append_nil _).symm, ?_⟩
        simp [accepted, hok]
    · cases hs
  | broadcast k => exact absurd rfl (he k)
  | deliver k ok =>
    simp only [step] at hs
    split at hs
    · obtain rfl := Option.some.inj hs
      exact same rfl rfl
    · cases hs

theorem broadcast_reports {i : ℕ} (hs : step s (.broadcast i) = some t) : t.reports = s.reports := by
  simp only [step] at hs
  split at hs
  · obtain rfl := Option.some.inj hs
    rw [broadcast_eq]
  · cases hs

variable {x y : Traffic × List Cast}

theorem Ordered.quiet {e : TrafficEvent} (h : Ordered x) (hs : recorded Traffic.step casts x e = some y)
    (he : ∀ i, e ≠ .broadcast i) : Ordered y := by
  obtain ⟨hstep, hh⟩ := recorded_eq_some hs
  rw [casts_quiet he, List.append_nil] at hh
  refine ⟨fun j => ?_, fun i => ?_⟩
  · rw [quiet_intake hstep he j, hh]
    exact h.intake j
  · obtain ⟨new, hpend, hacc⟩ := quiet_accepted hstep he i
    rw [hh, hpend, hacc, ← List.append_assoc, h.accepted i]

theorem Ordered.broadcast {i : ℕ} (hx : Sound x.1) (h : Ordered x)
    (hs : recorded Traffic.step casts x (.broadcast i) = some y) : Ordered y := by
  obtain ⟨hstep, hh⟩ := recorded_eq_some hs
  obtain ⟨leaf, payload, hi, hp, hserver, hwritten⟩ := broadcast_inv hstep
  obtain ⟨leaf', payload', hb⟩ := broadcast_step hx hstep
  obtain rfl := Option.some.inj ((RelayServer.sessionAt_eq_some hi).1.symm.trans hb.session)
  obtain rfl := Option.some.inj (hp.symm.trans hb.pending)
  rw [casts_broadcast hi hp] at hh
  refine ⟨fun j => ?_, fun k => ?_⟩
  · rw [hh, takenBy_append, ← h.intake j, Traffic.intake, Traffic.intake, hb.queue j, hwritten]
    by_cases htaken : Receives (x.1.server.rooms.members leaf.group) leaf.device j ∧ x.1.hasRoom j = true
    · rw [if_pos htaken, ← List.append_assoc]
      simp [takenBy, htaken.1, htaken.2]
    · rw [if_neg htaken]
      rw [not_and, Bool.not_eq_true] at htaken
      by_cases hrec : Receives (x.1.server.rooms.members leaf.group) leaf.device j
      · simp [takenBy, hrec, htaken hrec]
      · simp [takenBy, hrec]
  · have hreports : y.1.accepted k = x.1.accepted k := by
      rw [Traffic.accepted, Traffic.accepted, broadcast_reports hstep]
    rw [hh, hreports, ← h.accepted k, List.map_append, saidBy_append, hb.cleared]
    by_cases hki : k = i
    · subst hki
      simp [saidBy, hp]
    · simp [saidBy, Function.update_of_ne hki, Ne.symm hki]

theorem Ordered.step {e : TrafficEvent} (hx : Sound x.1) (h : Ordered x)
    (hs : recorded Traffic.step casts x e = some y) : Ordered y := by
  cases e with
  | broadcast i => exact h.broadcast hx hs
  | _ => exact h.quiet hs fun _ => by simp

/-- What session `j` has written of session `i` is a part of what that one has read. -/
theorem Ordered.said_sublist (h : Ordered x) (i j : ℕ) : (saidBy i (x.1.written j)).Sublist (x.1.accepted i) := by
  have htaken : (x.1.written j).Sublist (x.2.map Cast.parcel) := by
    have hintake : (x.1.written j).Sublist (takenBy j x.2) :=
      h.intake j ▸ List.sublist_append_left (x.1.written j) (x.1.queue j)
    exact hintake.trans (List.filter_sublist.map Cast.parcel)
  have hsaid : (saidBy i (x.1.written j)).Sublist (saidBy i (x.2.map Cast.parcel)) :=
    (htaken.filter _).map _
  rw [← h.accepted i]
  exact hsaid.trans (List.sublist_append_left _ _)

/-! ## Whole runs -/

/-- A relay that has just started, of which nothing is reported yet. -/
structure Starts (s : Traffic) : Prop extends Boots s where
  reports : s.reports = []

theorem Starts.ordered (h : Starts s) : Ordered (s, []) where
  intake := by
    intro j
    simp [Traffic.intake, h.written j, h.queue j, takenBy]
  accepted := by
    intro i
    simp [saidBy, Traffic.accepted, h.pending i, h.reports]

theorem run_ordered {es : List TrafficEvent} (h : Starts s)
    (hr : exec (recorded Traffic.step casts) (s, []) es = some x) : Ordered x := by
  have hinv : Sound x.1 ∧ Ordered x :=
    exec_invariant (I := fun x => Sound x.1 ∧ Ordered x)
      (fun _ _ _ hx hs => ⟨hx.1.step (recorded_eq_some hs).1, hx.2.step hx.1 hs⟩)
      ⟨h.toBoots.sound, h.ordered⟩ hr
  exact hinv.2

/-- Whatever the order of joins, exits, kicks, reads and writes, there is one sequence of broadcasts such that
each session writes, in that order and each once, those that were put into its queue; and each session has
written what another one has sent in the order in which that was read. -/
theorem broadcasts_ordered {es : List TrafficEvent} (h : Starts s)
    (hr : exec (recorded Traffic.step casts) (s, []) es = some x) :
    (∀ j, x.1.written j ++ x.1.queue j = takenBy j x.2) ∧
      (∀ i, saidBy i (x.2.map Cast.parcel) ++ (x.1.pending i).toList = x.1.accepted i) ∧
      ∀ i j, (saidBy i (x.1.written j)).Sublist (x.1.accepted i) := by
  have ho := run_ordered h hr
  exact ⟨ho.intake, ho.accepted, ho.said_sublist⟩

end Traffic

/-- `phone` sends two payloads, and `laptop` one in between. -/
def crossing : List TrafficEvent :=
  phoneAndLaptop ++ [.data 0 [1], .data 1 [2], .broadcast 0, .broadcast 1, .data 0 [3], .deliver 1 true,
    .broadcast 0, .deliver 1 true, .deliver 0 true]

theorem crossing_ordered :
    ∃ x, exec (recorded Traffic.step Traffic.casts) (emptyTraffic, []) crossing = some x ∧
      x.1.written 1 = [⟨[1], 0⟩, ⟨[3], 0⟩] ∧ x.2.map Cast.parcel = [⟨[1], 0⟩, ⟨[2], 1⟩, ⟨[3], 0⟩] ∧
      (Traffic.saidBy 0 (x.1.written 1)).Sublist (x.1.accepted 0) := by
  obtain ⟨x, hx⟩ : ∃ x, exec (recorded Traffic.step Traffic.casts) (emptyTraffic, []) crossing = some x :=
    ⟨_, rfl⟩
  have h := (Traffic.broadcasts_ordered ⟨emptyTraffic_boots, rfl⟩ hx).2.2 0 1
  obtain rfl := Option.some.inj hx
  exact ⟨_, rfl, rfl, rfl, h⟩

end Zsync
