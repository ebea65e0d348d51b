import Zsync.Relay.Isolation

/-! # Sessions that were told to stop

`Rooms::kick`, `Rooms::kick_group` and a join of the same device take a member out and tell its session
to stop. The session goes on until its loop takes that branch, and the loop may take another one as often
as there are frames to read.

* `Watched` : the traffic of the relay, and which frames were read too late.
* `Silenced` : none of these is handed to `Rooms::broadcast`, now or by the sessions that have just read.
* `silenced_iff_quiet` : that is so in all states of a run exactly when no removed session reads `Data`
  while its group is enabled.
-/

namespace Zsync
set_option autoImplicit false
set_option maxHeartbeats 250000
open Foundations

structure Watched where
  traffic : Traffic
  /-- What the session has read and not yet handed on was read after its member was removed. -/
  late : ℕ → Bool
  /-- What was read so late and handed to `Rooms::broadcast`. -/
  spoken : List Parcel

namespace Watched

/-- The member of session `i` was removed by a kick or a later join. -/
def removed (x : Watched) (i : ℕ) : Bool := i ∈ x.traffic.server.stopped

def step (x : Watched) (e : TrafficEvent) : Option Watched :=
  (Traffic.step x.traffic e).map fun t =>
    match e with
    | .data i _ => { x with traffic := t, late := Function.update x.late i (x.removed i) }
    | .broadcast i =>
      let said := (x.traffic.pending i).toList.map fun payload => (⟨payload, i⟩ : Parcel)
      { x with traffic := t, spoken := if x.late i then x.spoken ++ said else x.spoken }
    | _ => { x with traffic := t }

/-- Nothing that a session read after its member was removed has been broadcast, nor is when the sessions
hand on what they have read. -/
def Silenced (x : Watched) : Prop :=
  ∀ es y, (∀ e ∈ es, ∃ i, e = .broadcast i) → exec step x es = some y → y.spoken = []

/-- A removed session does not read `Data` while its group is enabled. -/
def Quiet (x : Watched) : TrafficEvent → Prop
  | .data i _ => ∀ leaf ∈ x.traffic.server.sessionAt i .looping,
      x.removed i = true → x.traffic.enabled leaf.group = false
  | _ => True

instance (x : Watched) : ∀ e, Decidable (Quiet x e)
  | .data _ _ => inferInstanceAs (Decidable (∀ leaf ∈ _, _))
  | .server _ | .allowlist _ | .broadcast _ | .deliver _ _ => inferInstanceAs (Decidable True)

end Watched

/-! ## What is pending -/

namespace RelayServer
variable {r t : RelayServer}

theorem sessionAt_put {i j : ℕ} {leaf : Leaf} (hji : j ≠ i) (phase : LeafPhase) :
    (r.put i leaf).sessionAt j phase = r.sessionAt j phase := by
  rw [sessionAt, sessionAt, put]
  dsimp only
  rw [Function.update_of_ne hji]

/-- A session stays in its loop until it ends it. -/
theorem looping_kept {e : RelayEvent} {j : ℕ} (hs : step r e = some t) (he : e ≠ .finish j)
    (h : (r.sessionAt j .looping).isSome) : (t.sessionAt j .looping).isSome := by
  obtain ⟨leaf, hj⟩ := Option.isSome_iff_exists.mp h
  obtain ⟨hj', hphase⟩ := sessionAt_eq_some hj
  -- The session that takes a step of another kind is not in its loop.
  have other : ∀ {i : ℕ} {phase : LeafPhase} {old : Leaf}, r.sessionAt i phase = some old →
      phase ≠ .looping → j ≠ i := by
    rintro i phase old hi hne rfl
    obtain ⟨hi', hp⟩ := sessionAt_eq_some hi
    obtain rfl := Option.some.inj (hj'.symm.trans hi')
    exact hne (hp.symm.trans hphase)
  have kept : ∀ {i : ℕ} {new : Option Leaf}, j ≠ i →
      ((Function.update r.sessions i new j).filter fun leaf => leaf.phase = .looping).isSome := by
    intro i new hji
    rw [Function.update_of_ne hji]
    exact h
  cases e with
  | allow i group device hostname peer =>
    simp only [step] at hs
    split_ifs at hs with hnone
    obtain rfl := Option.some.inj hs
    refine kept ?_
    rintro rfl
    rw [hj'] at hnone
    cases hnone
  | join i =>
    obtain ⟨old, hi, rfl⟩ := Option.map_eq_some_iff.mp hs
    exact kept (other hi (by decide))
  | joinAck i ok =>
    obtain ⟨old, hi, rfl⟩ := Option.map_eq_some_iff.mp hs
    exact kept (other hi (by decide))
  | finish i =>
    obtain ⟨old, hi, rfl⟩ := Option.map_eq_some_iff.mp hs
    exact kept fun hji => he (by rw [hji])
  | leave i =>
    obtain ⟨old, hi, rfl⟩ := Option.map_eq_some_iff.mp hs
    exact kept (other hi (by decide))
  | kick group device =>
    obtain rfl := Option.some.inj hs
    exact h
  | kickGroup group =>
    obtain rfl := Option.some.inj hs
    exact h

end RelayServer

namespace Traffic
variable {s t : Traffic}

/-- Only a session in its loop has anything to hand on. -/
def PendingLoops (s : Traffic) : Prop :=
  ∀ i payload, s.pending i = some payload → (s.server.sessionAt i .looping).isSome

theorem data_cases {i : ℕ} {payload : Bytes} (hs : step s (.data i payload) = some t) :
    ∃ leaf, s.server.sessionAt i .looping = some leaf ∧ s.pending i = none ∧
      (s.enabled leaf.group = true ∧ t.server = s.server ∧
          t.pending = Function.update s.pending i (some payload) ∨
        s.enabled leaf.group = false ∧ t.server = s.server.put i { leaf with phase := .leaving } ∧
          t.pending = s.pending) := by
  simp only [step] at hs
  split at hs
  · next leaf hi hp =>
    refine ⟨leaf, hi, hp, ?_⟩
    split_ifs at hs with hok
    · obtain rfl := Option.some.inj hs
      exact .inl ⟨hok, rfl, rfl⟩
    · obtain rfl := Option.some.inj hs
      exact .inr ⟨Bool.eq_false_iff.mpr hok, rfl, rfl⟩
  · cases hs

theorem broadcast_cases {i : ℕ} (hs : step s (.broadcast i) = some t) : ∃ payload,
    s.pending i = some payload ∧ t.server = s.server ∧ t.pending = Function.update s.pending i none := by
  simp only [step] at hs
  split at hs
  · next leaf payload hi hp =>
    obtain rfl := Option.some.inj hs
    refine ⟨payload, hp, ?_, ?_⟩
    · rw [broadcast_eq]
    · rw [broadcast_eq]
  · cases hs

theorem deliver_cases {i : ℕ} {ok : Bool} (hs : step s (.deliver i ok) = some t) :
    s.pending i = none ∧ t.pending = s.pending ∧
      (t.server = s.server ∨ ∃ leaf, t.server = s.server.put i leaf) := by
  simp only [step] at hs
  split at hs
  · next leaf p rest hi hp hq =>
    obtain rfl := Option.some.inj hs
    refine ⟨hp, rfl, ?_⟩
    cases ok with
    | true => exact .inl rfl
    | false => exact .inr ⟨_, rfl⟩
  · cases hs

theorem PendingLoops.step {e : TrafficEvent} (h : PendingLoops s) (hs : Traffic.step s e = some t) :
    PendingLoops t := by
  intro j payload hj
  cases e with
  | server e =>
    simp only [Traffic.step] at hs
    split_ifs at hs with hok
    obtain ⟨server, hr, rfl⟩ := Option.map_eq_some_iff.mp hs
    refine RelayServer.looping_kept hr ?_ (h j payload hj)
    rintro rfl
    rw [permits, hj] at hok
    cases hok
  | allowlist allow =>
    obtain rfl := Option.some.inj hs
    exact h j payload hj
  | data i data =>
    obtain ⟨leaf, hi, hnone, ⟨-, hserver, hpend⟩ | ⟨-, hserver, hpend⟩⟩ := data_cases hs
    · rw [hserver]
      by_cases hji : j = i
      · rw [hji, hi]
        rfl
      · rw [hpend, Function.update_of_ne hji] at hj
        exact h j payload hj
    · rw [hpend] at hj
      have hji : j ≠ i := by
        rintro rfl
        rw [hnone] at hj
        cases hj
      rw [hserver, RelayServer.sessionAt_put hji]
      exact h j payload hj
  | broadcast i =>
    obtain ⟨-, -, hserver, hpend⟩ := broadcast_cases hs
    rw [hserver]
    rw [hpend, Function.update_apply] at hj
    split_ifs at hj
    exact h j payload hj
  | deliver i ok =>
    obtain ⟨hnone, hpend, hserver⟩ := deliver_cases hs
    rw [hpend] at hj
    have hji : j ≠ i := by
      rintro rfl
      rw [hnone] at hj
      cases hj
    obtain hserver | ⟨leaf, hserver⟩ := hserver
    · rw [hserver]
      exact h j payload hj
    · rw [hserver, RelayServer.sessionAt_put hji]
      exact h j payload hj

end Traffic

/-! ## One step -/

namespace Watched
variable {x y : Watched}

/-- Nothing was said too late, and nothing that is pending was read too late. -/
structure Kept (x : Watched) : Prop where
  spoken : x.spoken = []
  pending : ∀ i payload, x.traffic.pending i = some payload → x.late i = false

theorem step_traffic {e : TrafficEvent} (hs : step x e = some y) :
    Traffic.step x.traffic e = some y.traffic := by
  obtain ⟨t, ht, rfl⟩ := Option.map_eq_some_iff.mp hs
  rw [ht]
  cases e <;> rfl

theorem Kept.broadcast {i : ℕ} (h : Kept x) (hs : step x (.broadcast i) = some y) : Kept y := by
  obtain ⟨t, ht, rfl⟩ := Option.map_eq_some_iff.mp hs
  obtain ⟨payload, hp, -, hpend⟩ := Traffic.broadcast_cases ht
  refine ⟨?_, fun j data hj => ?_⟩
  · simp only [h.pending i payload hp, h.spoken, Bool.false_eq_true, if_false]
  · dsimp only at hj
    rw [hpend, Function.update_apply] at hj
    split_ifs at hj
    exact h.pending j data hj

theorem silenced_iff (hloops : x.traffic.PendingLoops) : Silenced x ↔ Kept x := by
  constructor
  · intro h
    refine ⟨h [] x (fun _ he => absurd he List.not_mem_nil) rfl, fun i payload hp => ?_⟩
    -- A session with something pending can hand it on at once.
    obtain ⟨leaf, hi⟩ := Option.isSome_iff_exists.mp (hloops i payload hp)
    have hstep : ∃ t, Traffic.step x.traffic (.broadcast i) = some t := by
      simp only [Traffic.step, hi, hp]
      exact ⟨_, rfl⟩
    obtain ⟨t, ht⟩ := hstep
    have hs : step x (.broadcast i) = some { x with
        traffic := t
        spoken := if x.late i then x.spoken ++ [⟨payload, i⟩] else x.spoken } := by
      rw [step, ht]
      simp only [hp]
      rfl
    have hnil := h [.broadcast i] _ (by simp) (exec_cons_of_step step hs [])
    by_contra hlate
    dsimp only at hnil
    rw [if_pos ((Bool.not_eq_false _).mp hlate)] at hnil
    simp at hnil
  · intro h es y hes hr
    have hkept := exec_guarded (I := Kept) (fun z e w hz he hs => by
      obtain ⟨i, rfl⟩ := he
      exact hz.broadcast hs) h (guarded_of_forall step hes x) hr
    exact hkept.spoken

theorem Kept.step_iff {e : TrafficEvent} (h : Kept x) (hs : step x e = some y) : Kept y ↔ Quiet x e := by
  obtain ⟨t, ht, rfl⟩ := Option.map_eq_some_iff.mp hs
  cases e with
  | server e =>
    simp only [Traffic.step] at ht
    split_ifs at ht
    obtain ⟨server, -, rfl⟩ := Option.map_eq_some_iff.mp ht
    exact iff_of_true ⟨h.spoken, h.pending⟩ trivial
  | allowlist allow =>
    obtain rfl := Option.some.inj ht
    exact iff_of_true ⟨h.spoken, h.pending⟩ trivial
  | data i payload =>
    obtain ⟨leaf, hi, hnone, ⟨hok, -, hpend⟩ | ⟨hok, -, hpend⟩⟩ := Traffic.data_cases ht
    · constructor
      · intro hy leaf' hleaf' hremoved
        have hlate := hy.pending i payload (by
          dsimp only
          rw [hpend, Function.update_self])
        dsimp only at hlate
        rw [Function.update_self, hremoved] at hlate
        cases hlate
      · intro hquiet
        have hstays : x.removed i = false := by
          by_contra hremoved
          have := hquiet leaf hi (by simpa using hremoved)
          rw [hok] at this
          cases this
        refine ⟨h.spoken, fun j data hj => ?_⟩
        dsimp only at hj ⊢
        by_cases hji : j = i
        · rw [hji, Function.update_self, hstays]
        · rw [hpend, Function.update_of_ne hji] at hj
          rw [Function.update_of_ne hji]
          exact h.pending j data hj
    · refine iff_of_true ⟨h.spoken, fun j data hj => ?_⟩ fun leaf' hleaf' _ => ?_
      · dsimp only at hj ⊢
        rw [hpend] at hj
        have hji : j ≠ i := by
          rintro rfl
          rw [hnone] at hj
          cases hj
        rw [Function.update_of_ne hji]
        exact h.pending j data hj
      · obtain rfl := Option.some.inj (hi.symm.trans hleaf')
        exact hok
  | broadcast i => exact iff_of_true (h.broadcast hs) trivial
  | deliver i ok =>
    obtain ⟨-, hpend, -⟩ := Traffic.deliver_cases ht
    refine iff_of_true ⟨h.spoken, fun j data hj => ?_⟩ trivial
    dsimp only at hj
    rw [hpend] at hj
    exact h.pending j data hj

/-! ## Whole runs -/

def start (s : Traffic) : Watched := ⟨s, fun _ => false, []⟩

/-- For every order in which the loops take their branches: no `Data` that a session reads after its
member was removed is broadcast, exactly when no such session reads `Data` while its group is enabled. -/
theorem silenced_iff_quiet {s : Traffic} {es : List TrafficEvent} (hb : s.Boots)
    (hrun : (exec step (start s) es).isSome) :
    Along step Silenced (start s) es ↔ Guarded step Quiet (start s) es := by
  have hloops : s.PendingLoops := by
    intro i payload hp
    rw [hb.pending i] at hp
    cases hp
  refine along_iff_guarded (I := fun x => x.traffic.PendingLoops)
    (fun _ _ _ hx hs => hx.step (step_traffic hs)) ?_ hloops ?_ hrun
  · intro x e y hx hkept hs
    rw [silenced_iff (hx.step (step_traffic hs))]
    exact ((silenced_iff hx).mp hkept).step_iff hs
  · refine (silenced_iff hloops).mpr ⟨rfl, fun i payload hp => ?_⟩
    dsimp only [start] at hp
    rw [hb.pending i] at hp
    cases hp

end Watched

/-! ## A kicked phone -/

def phoneKicked : List TrafficEvent := phoneAndLaptop ++ [.server (.kick "g" "phone")]

/-- A disabled group keeps the kicked session silent. -/
theorem phoneKicked_silenced :
    Along Watched.step Watched.Silenced (Watched.start emptyTraffic)
      (phoneKicked ++ [.allowlist fun g => if g = "g" then some false else none, .data 0 [104, 105],
        .server (.leave 0)]) :=
  (Watched.silenced_iff_quiet emptyTraffic_boots (by decide +kernel)).mpr (by decide +kernel)

/-- Otherwise the next `Data` of the kicked `phone` reaches `laptop`. -/
theorem phoneKicked_speaks :
    ∃ x y, exec Watched.step (Watched.start emptyTraffic) phoneKicked = some x ∧
      x.removed 0 = true ∧ exec Watched.step x [.data 0 [104, 105], .broadcast 0] = some y ∧
      y.spoken = [⟨[104, 105], 0⟩] ∧ y.traffic.queue 1 = [⟨[104, 105], 0⟩] := by
  refine ⟨_, _, rfl, rfl, rfl, rfl, rfl⟩

end Zsync
