import Zsync.Relay.Registration

/-! # Groups without members

`Rooms::leave` takes a group out of the map with its last member, `Rooms::kick` does not: it leaves the group with an
empty list, and the group stays listed with nobody online until something else happens to it.

* `Exact` : every listed group has a member, and `snapshot` counts exactly the members that there are.
* `SparesLast` : the operation does not kick the only member of a group.
* `exact_iff_sparesLast` : in a run of any operations, the map is exact and a kick is as good as a leave, exactly when
  no operation kicks an only member.
* `relay_exact_iff` : the same for the rooms of a relay, whose steps are operations on them.
-/

namespace Zsync
set_option autoImplicit false
set_option maxHeartbeats 250000
open Foundations

namespace Rooms

def new : Rooms := ⟨fun _ => none⟩

def step (rooms : Rooms) (op : RoomsOp) : Option Rooms := some (rooms.apply op)

/-- No group is listed without a member, so `snapshot` gives the groups with somebody online. -/
structure Exact (rooms : Rooms) : Prop where
  peopled : ∀ group members, rooms.inner group = some members → members ≠ []
  counted : ∀ group n, rooms.snapshot group = some n ↔
    rooms.members group ≠ [] ∧ n = (rooms.members group).length

/-- A kick leaves what `Rooms::leave` would. -/
def KicksAsLeave (rooms : Rooms) : RoomsOp → Prop
  | .kick group device => (rooms.kick group device).2.1 = rooms.leave group device
  | _ => True

/-- The device that is kicked is not the only member of its group. -/
def SparesLast (rooms : Rooms) : RoomsOp → Prop
  | .kick group device => ∀ m, rooms.inner group = some [m] → m.deviceId ≠ device
  | _ => True

/-! ## Lists of members -/

/-- Taking out the first of at most one is taking out all. -/
theorem eraseP_eq_filter {α : Type} {p : α → Bool} {l : List α} (h : (l.filter p).length ≤ 1) :
    l.eraseP p = l.filter fun x => !p x := by
  induction l with
  | nil => rfl
  | cons x l ih =>
    by_cases hx : p x = true
    · rw [List.filter_cons_of_pos hx, List.length_cons] at h
      have hnone : l.filter p = [] := List.length_eq_zero_iff.mp (by omega)
      have hall : l.filter (fun x => !p x) = l := by
        apply List.filter_eq_self.mpr
        intro y hy
        have hpy := List.filter_eq_nil_iff.mp hnone y hy
        simpa using hpy
      rw [List.eraseP_cons_of_pos hx, List.filter_cons_of_neg (by simp [hx]), hall]
    · rw [List.filter_cons_of_neg hx] at h
      rw [List.eraseP_cons_of_neg hx, List.filter_cons_of_pos (by simpa using hx), ih h]

theorem eraseP_eq_nil_iff {α : Type} {p : α → Bool} {l : List α} {x : α} (hx : x ∈ l) (hp : p x = true) :
    l.eraseP p = [] ↔ l = [x] := by
  constructor
  · intro hnil
    have hlen := List.length_eraseP_of_mem hx hp
    rw [hnil, List.length_nil] at hlen
    have hpos := List.length_pos_of_mem hx
    obtain ⟨y, rfl⟩ := List.length_eq_one_iff.mp (show l.length = 1 by omega)
    rw [List.mem_singleton.mp hx]
  · rintro rfl
    rw [List.eraseP_cons_of_pos hp]

/-! ## One operation -/

variable {rooms : Rooms} {group device : String}

theorem exact_of_peopled (h : ∀ group members, rooms.inner group = some members → members ≠ []) :
    Exact rooms where
  peopled := h
  counted group n := by
    unfold snapshot members
    cases hg : rooms.inner group with
    | none => simp
    | some ms => simp [h group ms hg, eq_comm]

theorem setGroup_self {members : Option (List Member)} (h : rooms.inner group = members) :
    rooms.setGroup group members = rooms := by
  rw [setGroup, ← h, Function.update_eq_self]

/-- A group that is set to a list with members. -/
theorem Exact.setGroup (h : Exact rooms) {members : Option (List Member)} (hne : members ≠ some []) :
    Exact (rooms.setGroup group members) := by
  refine exact_of_peopled fun g ms hg => ?_
  change Function.update rooms.inner group members g = some ms at hg
  rw [Function.update_apply] at hg
  split_ifs at hg
  · rintro rfl
    exact hne hg
  · exact h.peopled g ms hg

theorem Exact.leave (h : Exact rooms) (group device : String) : Exact (rooms.leave group device) := by
  unfold Rooms.leave
  cases rooms.inner group with
  | none => exact h
  | some ms =>
    apply h.setGroup
    split_ifs with hnil
    · simp
    · simpa using hnil

theorem Exact.kickGroup (h : Exact rooms) (group : String) : Exact (rooms.kickGroup group).1 := by
  unfold Rooms.kickGroup
  cases rooms.inner group with
  | none => exact h
  | some ms =>
    apply h.setGroup
    simp

/-- A kick finds nobody, or takes one entry of the device out of the list of the group. -/
theorem kick_cases (group device : String) (rooms : Rooms) :
    ((rooms.kick group device).2.1 = rooms ∧ SparesLast rooms (.kick group device) ∧
      ∀ ms, rooms.inner group = some ms → ms.eraseP (isDevice device) = ms) ∨
    ∃ ms, rooms.inner group = some ms ∧
      (SparesLast rooms (.kick group device) ↔ ms.eraseP (isDevice device) ≠ []) ∧
      (rooms.kick group device).2.1 = rooms.setGroup group (some (ms.eraseP (isDevice device))) := by
  cases hg : rooms.inner group with
  | none =>
    refine .inl ⟨?_, fun m hm _ => ?_, fun ms hms => by cases hms⟩
    · unfold Rooms.kick
      rw [hg]
    · cases hg.symm.trans hm
  | some ms =>
    cases hfind : ms.find? (isDevice device) with
    | none =>
      have hnone := List.find?_eq_none.mp hfind
      refine .inl ⟨?_, fun m hm hdev => ?_, fun ms' hms => ?_⟩
      · unfold Rooms.kick
        simp only [hg, hfind]
      · obtain rfl := Option.some.inj (hg.symm.trans hm)
        exact hnone m (List.mem_singleton_self m) (decide_eq_true hdev)
      · obtain rfl := Option.some.inj hms
        exact List.eraseP_of_forall_not hnone
    | some m =>
      have hm := List.mem_of_find?_eq_some hfind
      have hdev := List.find?_some hfind
      refine .inr ⟨ms, rfl, ?_, ?_⟩
      · rw [Ne, eraseP_eq_nil_iff hm hdev]
        constructor
        · rintro hspares rfl
          exact hspares m hg (of_decide_eq_true hdev)
        · intro hne m' hms hdev'
          obtain rfl := Option.some.inj (hg.symm.trans hms)
          exact hne (by rw [List.mem_singleton.mp hm])
      · unfold Rooms.kick
        simp only [hg, hfind]

/-- Where every device has one entry, `leave` erases the entry of the device, and the group with its last one. -/
theorem leave_erases {ms : List Member} (hsingle : Single rooms) (hg : rooms.inner group = some ms) :
    rooms.leave group device = rooms.setGroup group
      (if ms.eraseP (isDevice device) = [] then none else some (ms.eraseP (isDevice device))) := by
  have hentries : rooms.entries group device = ms.filter (isDevice device) := by
    rw [entries, members, hg]
    rfl
  have herase := eraseP_eq_filter (hentries ▸ hsingle group device)
  unfold Rooms.leave
  rw [hg, herase]

theorem kick_eq_leave_iff (hsingle : Single rooms) (h : Exact rooms) (group device : String) :
    (rooms.kick group device).2.1 = rooms.leave group device ↔ SparesLast rooms (.kick group device) := by
  obtain ⟨hkick, hspares, hsame⟩ | ⟨ms, hg, hlast, hkick⟩ := kick_cases group device rooms
  · refine iff_of_true ?_ hspares
    rw [hkick]
    cases hg : rooms.inner group with
    | none =>
      unfold Rooms.leave
      rw [hg]
    | some ms => rw [leave_erases hsingle hg, hsame ms hg, if_neg (h.peopled group ms hg), setGroup_self hg]
  · rw [hlast, hkick, leave_erases hsingle hg]
    constructor
    · intro heq hnil
      have hinner := congrFun (congrArg Rooms.inner heq) group
      simp [Rooms.setGroup, hnil] at hinner
    · intro hne
      rw [if_neg hne]

theorem exact_kick_iff (h : Exact rooms) (group device : String) :
    Exact (rooms.kick group device).2.1 ↔ SparesLast rooms (.kick group device) := by
  obtain ⟨hkick, hspares, -⟩ | ⟨ms, hg, hlast, hkick⟩ := kick_cases group device rooms
  · rw [hkick]
    exact iff_of_true h hspares
  · rw [hkick, hlast]
    constructor
    · intro hexact
      exact hexact.peopled group _ (Function.update_self _ _ _)
    · intro hne
      exact h.setGroup (by simpa using hne)

/-- One operation on an exact map: only the kick of an only member leaves a group behind. -/
theorem exact_apply_iff (h : Exact rooms) (op : RoomsOp) : Exact (rooms.apply op) ↔ SparesLast rooms op := by
  cases op with
  | join group device hostname peer tx stop =>
    refine iff_of_true ?_ trivial
    exact h.setGroup (by simp)
  | leave group device => exact iff_of_true (h.leave group device) trivial
  | kick group device => exact exact_kick_iff h group device
  | kickGroup group =>
    exact iff_of_true (h.kickGroup group) trivial

theorem kicksAsLeave_iff (hsingle : Single rooms) (h : Exact rooms) (op : RoomsOp) :
    KicksAsLeave rooms op ↔ SparesLast rooms op := by
  cases op with
  | kick group device => exact kick_eq_leave_iff hsingle h group device
  | join | leave | kickGroup => exact Iff.rfl

/-! ## Runs -/

theorem exact_new : Exact new := exact_of_peopled fun _ _ h => by cases h

theorem single_new : Single new := fun _ _ => Nat.zero_le _

theorem exec_isSome (ops : List RoomsOp) (rooms : Rooms) : (exec step rooms ops).isSome := by
  induction ops generalizing rooms with
  | nil => rfl
  | cons op ops ih => exact ih (rooms.apply op)

/-- A step that spares the only members keeps both. -/
theorem kept_step {rooms t : Rooms} {op : RoomsOp} (h : Single rooms ∧ Exact rooms) (hspares : SparesLast rooms op)
    (hs : step rooms op = some t) : Single t ∧ Exact t := by
  obtain rfl := Option.some.inj hs
  exact ⟨h.1.apply op, (exact_apply_iff h.2 op).mpr hspares⟩

/-- For every sequence of operations on the empty map. -/
theorem exact_iff_sparesLast (ops : List RoomsOp) :
    Along step Exact new ops ∧ Guarded step KicksAsLeave new ops ↔ Guarded step SparesLast new ops := by
  have hexact : Along step Exact new ops ↔ Guarded step SparesLast new ops := by
    refine along_iff_guarded (I := fun _ => True) (fun _ _ _ _ _ => trivial) ?_ trivial exact_new
      (exec_isSome ops new)
    intro s op t _ h hs
    obtain rfl := Option.some.inj hs
    exact exact_apply_iff h op
  rw [hexact]
  constructor
  · rintro ⟨hspares, -⟩
    exact hspares
  · intro hspares
    refine ⟨hspares, ?_⟩
    apply Guarded.imp_of_kept (fun _ _ _ => kept_step) ?_ ⟨single_new, exact_new⟩ hspares
    intro s op h hop
    exact (kicksAsLeave_iff h.1 h.2 op).mpr hop

def loneKick : List RoomsOp := [.join "g" "phone" "Phone" "192.0.2.7:5000" 0 0, .kick "g" "phone"]

/-- The only device of a group is kicked: its group is listed with nobody online. -/
theorem loneKick_leaves_group :
    ¬ (Along step Exact new loneKick ∧ Guarded step KicksAsLeave new loneKick) := by
  rintro ⟨hexact, -⟩
  have hend := along_last hexact (rfl : exec step new loneKick = some _)
  exact hend.peopled "g" [] (by decide +kernel) rfl

end Rooms

/-! ## The relay -/

namespace RelayServer

def SparesLast (r : RelayServer) (e : RelayEvent) : Prop := ∀ op ∈ r.roomsOp e, r.rooms.SparesLast op

theorem exact_step_iff {r t : RelayServer} {e : RelayEvent} (h : r.rooms.Exact) (hs : step r e = some t) :
    t.rooms.Exact ↔ r.SparesLast e := by
  rw [rooms_of_step hs, SparesLast]
  cases r.roomsOp e with
  | none => simpa using h
  | some op => simpa using Rooms.exact_apply_iff h op

/-- `status` lists the groups with somebody online in every state of a run, exactly when no kick takes an only
member. A later `Rooms::leave` of the session that was kicked comes too late for the states in between. -/
theorem relay_exact_iff {r : RelayServer} {es : List RelayEvent} (hr : r.Boots)
    (hrun : (exec step r es).isSome) :
    Along step (fun r => r.rooms.Exact) r es ↔ Guarded step SparesLast r es := by
  refine along_iff_guarded (I := fun _ => True) (fun _ _ _ _ _ => trivial)
    (fun _ _ _ _ h hs => exact_step_iff h hs) trivial ?_ hrun
  refine Rooms.exact_of_peopled fun g members hg => ?_
  rw [hr.rooms g] at hg
  cases hg

end RelayServer
end Zsync
