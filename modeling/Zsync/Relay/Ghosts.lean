import Zsync.Relay.Registration

/-! # Members without a session

`serve_leaf` registers its session before it writes `JoinAck`, and takes it out again after its loop.
When the write fails it returns without doing so.

* `mem_join`, `mem_leave` and their companions say which members an operation leaves.
* `NoGhosts` : each member belongs to a session that is still running, and so does each listed device.
* `noGhosts_iff_safe` : all states of a run are so exactly when no `JoinAck` fails while the session
  that should get it is registered.
-/

namespace Zsync
set_option autoImplicit false
set_option maxHeartbeats 250000
open Foundations

/-! ## Members after an operation -/

namespace Rooms

theorem mem_members_iff {rooms : Rooms} {g : String} {m : Member} :
    m ∈ rooms.members g ↔ m ∈ rooms.entries g m.deviceId := by
  rw [entries, List.mem_filter]
  simp [isDevice]

theorem mem_join {rooms : Rooms} {group device hostname peer g : String} {tx stop : ℕ} {m : Member}
    (h : m ∈ (rooms.join group device hostname peer tx stop).1.members g) :
    g = group ∧ m = ⟨device, hostname, peer, tx, stop⟩ ∨ m ∈ rooms.members g := by
  rw [mem_members_iff, join_entries] at h
  split_ifs at h with hgd
  · obtain hold | hnew := List.mem_append.mp h
    · refine .inr (mem_members_iff.mpr ?_)
      rw [hgd.1, hgd.2]
      exact List.mem_of_mem_tail hold
    · exact .inl ⟨hgd.1, List.mem_singleton.mp hnew⟩
  · exact .inr (mem_members_iff.mpr h)

theorem mem_leave {rooms : Rooms} {group device g : String} {m : Member} :
    m ∈ (rooms.leave group device).members g ↔
      m ∈ rooms.members g ∧ ¬ (g = group ∧ m.deviceId = device) := by
  rw [mem_members_iff, leave_entries, mem_members_iff]
  split_ifs with hgd
  · simp [hgd]
  · simp [hgd]

theorem mem_kick {rooms : Rooms} {group device g : String} {m : Member}
    (h : m ∈ (rooms.kick group device).2.1.members g) : m ∈ rooms.members g := by
  rw [mem_members_iff, kick_entries] at h
  rw [mem_members_iff]
  split_ifs at h with hgd
  · rw [hgd.1, hgd.2]
    exact List.mem_of_mem_tail h
  · exact h

theorem mem_kickGroup {rooms : Rooms} {group g : String} {m : Member}
    (h : m ∈ (rooms.kickGroup group).1.members g) : m ∈ rooms.members g := by
  rw [mem_members_iff, kickGroup_entries] at h
  rw [mem_members_iff]
  split_ifs at h with hg
  · exact absurd h List.not_mem_nil
  · exact h

/-- What is listed and counted for a group are its members. -/
theorem liveDevices_eq {rooms : Rooms} {g : String} {devices : List LiveDevice}
    (h : rooms.liveDevices g = some devices) :
    devices = (rooms.members g).map (fun m => ⟨m.deviceId, m.hostname, m.peer⟩) ∧
      rooms.snapshot g = some devices.length := by
  obtain ⟨ms, hms, rfl⟩ := Option.map_eq_some_iff.mp h
  have hmembers : rooms.members g = ms := by rw [members, hms]; rfl
  refine ⟨by rw [hmembers], ?_⟩
  rw [snapshot, hms, List.length_map]
  rfl

end Rooms

/-! ## Owners -/

namespace RelayServer

/-- The session behind a member of `g` has come to `p`. -/
def Owned (p : LeafPhase → Prop) (r : RelayServer) (g : String) (m : Member) : Prop :=
  ∃ leaf, r.sessions m.tx = some leaf ∧ leaf.group = g ∧ leaf.device = m.deviceId ∧ p leaf.phase

/-- Every member has an owner. -/
def AllOwned (p : LeafPhase → Prop) (r : RelayServer) : Prop :=
  ∀ g, ∀ m ∈ r.rooms.members g, Owned p r g m

variable {p : LeafPhase → Prop} {r : RelayServer}

/-- Another session's step leaves the owner as it is. -/
theorem Owned.put {g : String} {m : Member} {i : ℕ} {leaf : Leaf} (h : Owned p r g m)
    (hkeep : m.tx = i → ∃ old, r.sessions i = some old ∧ { old with phase := leaf.phase } = leaf ∧
      (p old.phase → p leaf.phase)) : Owned p (r.put i leaf) g m := by
  obtain ⟨old, hs, hg, hd, hp⟩ := h
  by_cases hi : m.tx = i
  · obtain ⟨old', hs', hsame, hphase⟩ := hkeep hi
    rw [hi] at hs
    obtain rfl := Option.some.inj (hs'.symm.trans hs)
    refine ⟨leaf, ?_, ?_, ?_, hphase hp⟩
    · rw [hi]
      exact Function.update_self _ _ _
    · rw [← hsame]
      exact hg
    · rw [← hsame]
      exact hd
  · exact ⟨old, (Function.update_of_ne hi _ _).trans hs, hg, hd, hp⟩

theorem AllOwned.put {i : ℕ} {leaf : Leaf} (h : AllOwned p r)
    (hkeep : ∀ g, ∀ m ∈ r.rooms.members g, m.tx = i → ∃ old, r.sessions i = some old ∧
      { old with phase := leaf.phase } = leaf ∧ (p old.phase → p leaf.phase)) :
    AllOwned p (r.put i leaf) := fun g m hm => (h g m hm).put (hkeep g m hm)

theorem AllOwned.allow {i : ℕ} {leaf : Leaf} (h : AllOwned p r) (hnone : r.sessions i = none) :
    AllOwned p (r.put i leaf) := by
  refine h.put fun g m hm hi => ?_
  obtain ⟨old, hs, -⟩ := h g m hm
  rw [hi, hnone] at hs
  cases hs

/-- A session goes on to its next phase. -/
theorem AllOwned.advance {i : ℕ} {leaf : Leaf} {phase : LeafPhase} (h : AllOwned p r)
    (hs : r.sessions i = some leaf) (hp : p leaf.phase → p phase) :
    AllOwned p (r.put i { leaf with phase := phase }) :=
  h.put fun _ _ _ _ => ⟨leaf, hs, rfl, hp⟩

theorem AllOwned.join {i : ℕ} {leaf : Leaf} (h : AllOwned p r) (hs : r.sessions i = some leaf)
    (hphase : leaf.phase = .allowed) (hp : p .joined) (hq : p .allowed → p .joined) :
    AllOwned p (r.join i leaf) := by
  intro g m hm
  obtain ⟨rfl, rfl⟩ | hold := Rooms.mem_join hm
  · exact ⟨{ leaf with phase := .joined }, Function.update_self _ _ _, rfl, rfl, hp⟩
  · have hadvance : AllOwned p (r.put i { leaf with phase := .joined }) :=
      h.advance hs (by rw [hphase]; exact hq)
    exact hadvance g m hold

/-- A session leaves, and no member of its device stays. -/
theorem AllOwned.leave {i : ℕ} {leaf : Leaf} (h : AllOwned p r) (hs : r.sessions i = some leaf) :
    AllOwned p (r.leave i leaf) := by
  intro g m hm
  obtain ⟨hold, hne⟩ := Rooms.mem_leave.mp hm
  obtain ⟨owner, hso, hg, hd, hp⟩ := h g m hold
  refine ⟨owner, ?_, hg, hd, hp⟩
  have hi : m.tx ≠ i := by
    intro hi
    rw [hi] at hso
    obtain rfl := Option.some.inj (hs.symm.trans hso)
    exact hne ⟨hg.symm, hd.symm⟩
  exact (Function.update_of_ne hi _ _).trans hso

theorem AllOwned.kick (h : AllOwned p r) (group device : String) :
    AllOwned p (r.kick group device) := fun g m hm => h g m (Rooms.mem_kick hm)

theorem AllOwned.kickGroup (h : AllOwned p r) (group : String) : AllOwned p (r.kickGroup group) :=
  fun g m hm => h g m (Rooms.mem_kickGroup hm)

/-! ## Ghosts -/

/-- Each member belongs to a running session, and each listed or counted device is connected. -/
structure NoGhosts (r : RelayServer) : Prop where
  members : AllOwned (fun phase => phase.isIn = true) r
  listed : ∀ g devices, r.rooms.liveDevices g = some devices →
    r.rooms.snapshot g = some devices.length ∧ ∀ d ∈ devices,
      ∃ i leaf, r.sessions i = some leaf ∧ leaf.group = g ∧ leaf.device = d.deviceId ∧
        leaf.phase.isIn = true

theorem noGhosts_iff : NoGhosts r ↔ AllOwned (fun phase => phase.isIn = true) r := by
  refine ⟨NoGhosts.members, fun h => ⟨h, fun g devices hd => ?_⟩⟩
  obtain ⟨rfl, hcount⟩ := Rooms.liveDevices_eq hd
  refine ⟨hcount, fun d hd => ?_⟩
  obtain ⟨m, hm, rfl⟩ := List.mem_map.mp hd
  obtain ⟨leaf, hs, hg, hdev, hp⟩ := h g m hm
  exact ⟨m.tx, leaf, hs, hg, hdev, hp⟩

/-- No `JoinAck` fails while its session's member is in the room. -/
def AckSafe (r : RelayServer) : RelayEvent → Prop
  | .joinAck i false => ∀ leaf, r.sessions i = some leaf → ∀ m ∈ r.rooms.members leaf.group, m.tx ≠ i
  | _ => True

theorem noGhosts_lostAck_iff {i : ℕ} {leaf : Leaf}
    (h : AllOwned (fun phase => phase.isIn = true) r) (hs : r.sessions i = some leaf) :
    AllOwned (fun phase => phase.isIn = true) (r.put i { leaf with phase := .done }) ↔
      AckSafe r (.joinAck i false) := by
  constructor
  · rintro hafter leaf' hs' m hm rfl
    obtain ⟨owner, hso, -, -, hp⟩ := hafter leaf'.group m hm
    obtain rfl : { leaf with phase := .done } = owner :=
      session_self (f := r.sessions) hso
    cases hp
  · intro hsafe
    refine h.put fun g m hm hi => ?_
    obtain ⟨owner, hso, hg, -, -⟩ := h g m hm
    rw [hi] at hso
    obtain rfl := Option.some.inj (hs.symm.trans hso)
    exact absurd hi (hsafe leaf hs m (hg ▸ hm))

theorem noGhosts_step_iff {t : RelayServer} {e : RelayEvent} (h : NoGhosts r)
    (hs : step r e = some t) : NoGhosts t ↔ AckSafe r e := by
  have h := h.members
  rw [noGhosts_iff]
  cases e with
  | allow i group device hostname peer =>
    simp only [step] at hs
    split_ifs at hs with hnone
    obtain rfl := Option.some.inj hs
    exact iff_of_true (h.allow (Option.isNone_iff_eq_none.mp hnone)) trivial
  | join i =>
    obtain ⟨leaf, hi, rfl⟩ := Option.map_eq_some_iff.mp hs
    obtain ⟨hi, hp⟩ := sessionAt_eq_some hi
    exact iff_of_true (h.join hi hp rfl fun _ => rfl) trivial
  | joinAck i ok =>
    obtain ⟨leaf, hi, rfl⟩ := Option.map_eq_some_iff.mp hs
    obtain ⟨hi, hp⟩ := sessionAt_eq_some hi
    cases ok with
    | true => exact iff_of_true (h.advance hi fun _ => rfl) trivial
    | false => exact noGhosts_lostAck_iff h hi
  | finish i =>
    obtain ⟨leaf, hi, rfl⟩ := Option.map_eq_some_iff.mp hs
    exact iff_of_true (h.advance (sessionAt_eq_some hi).1 fun _ => rfl) trivial
  | leave i =>
    obtain ⟨leaf, hi, rfl⟩ := Option.map_eq_some_iff.mp hs
    exact iff_of_true (h.leave (sessionAt_eq_some hi).1) trivial
  | kick group device =>
    obtain rfl := Option.some.inj hs
    exact iff_of_true (h.kick group device) trivial
  | kickGroup group =>
    obtain rfl := Option.some.inj hs
    exact iff_of_true (h.kickGroup group) trivial

theorem Boots.allOwned (h : Boots r) (p : LeafPhase → Prop) : AllOwned p r := by
  intro g m hm
  rw [Rooms.members, h.rooms g] at hm
  exact absurd hm List.not_mem_nil

/-- There is no ghost in any state of a run exactly when no `JoinAck` fails while its session is
registered. -/
theorem noGhosts_iff_safe {es : List RelayEvent} (hr : Boots r) (hrun : (exec step r es).isSome) :
    Along step NoGhosts r es ↔ Guarded step AckSafe r es :=
  along_iff_guarded (I := fun _ => True) (fun _ _ _ _ _ => trivial)
    (fun _ _ _ _ hp hs => noGhosts_step_iff hp hs) trivial (noGhosts_iff.mpr (hr.allOwned _)) hrun

end RelayServer

/-! ### A client that goes away while it joins -/

/-- `phone` is gone before `JoinAck` is written. -/
def lostAck : List RelayEvent :=
  [.allow 0 "g" "phone" "pixel" "10.0.0.7:5000", .join 0, .joinAck 0 false]

/-- It is kicked first. -/
def kickedAck : List RelayEvent :=
  [.allow 0 "g" "phone" "pixel" "10.0.0.7:5000", .join 0, .kick "g" "phone", .joinAck 0 false]

theorem kickedAck_noGhosts : Along RelayServer.step RelayServer.NoGhosts emptyRelay kickedAck := by
  refine (RelayServer.noGhosts_iff_safe ⟨fun _ => rfl, fun _ => rfl⟩ rfl).mpr ?_
  refine ⟨trivial, fun t ht => ?_⟩
  obtain rfl := Option.some.inj ht
  refine ⟨trivial, fun t ht => ?_⟩
  obtain rfl := Option.some.inj ht
  refine ⟨trivial, fun t ht => ?_⟩
  obtain rfl := Option.some.inj ht
  refine ⟨?_, fun _ _ => trivial⟩
  intro leaf hs
  obtain rfl := Option.some.inj hs
  decide

theorem lostAck_ghost : ¬ Along RelayServer.step RelayServer.NoGhosts emptyRelay lostAck := by
  intro h
  obtain ⟨r, hr⟩ : ∃ r, exec RelayServer.step emptyRelay lostAck = some r := ⟨_, rfl⟩
  have hlast := along_last h hr
  obtain rfl := Option.some.inj hr
  obtain ⟨leaf, hs, -, -, hp⟩ := hlast.members "g" ⟨"phone", "pixel", "10.0.0.7:5000", 0, 0⟩ (by decide)
  obtain rfl := Option.some.inj hs
  cases hp

end Zsync
