import Zsync.Foundations.Runs
import Zsync.Model.Rooms

/-! # Which sessions of the relay are registered

`Rooms::join` replaces the member of a device, and every session that ends takes the member of its
device out again, whichever session that member belongs to.

* `entries` are the members of one device; `join_entries` and its companions say what each operation
  of the rooms does to them.
* `rooms_of_step` : a step of the relay is one operation on its rooms at most.
* `LiveRegistered` : a session that has joined and was neither replaced nor kicked is the registered
  member of its device.
* `liveRegistered_iff_safe` : all states of a run are so exactly when no session leaves while another
  session of its device is live.
-/

namespace Zsync
set_option autoImplicit false
set_option maxHeartbeats 250000
open Foundations

/-! ## The members of one device -/

/-- What changes the rooms. -/
inductive RoomsOp
  | join (group device hostname peer : String) (tx stop : ℕ)
  | leave (group device : String)
  | kick (group device : String)
  | kickGroup (group : String)
  deriving DecidableEq, Repr

namespace Rooms

def apply (rooms : Rooms) : RoomsOp → Rooms
  | .join group device hostname peer tx stop => (rooms.join group device hostname peer tx stop).1
  | .leave group device => rooms.leave group device
  | .kick group device => (rooms.kick group device).2.1
  | .kickGroup group => (rooms.kickGroup group).1

def entries (group device : String) (rooms : Rooms) : List Member :=
  (rooms.members group).filter (isDevice device)

theorem filter_eraseP_isDevice (device d : String) (members : List Member) :
    (members.eraseP (isDevice device)).filter (isDevice d) =
      if d = device then (members.filter (isDevice device)).tail
      else members.filter (isDevice d) := by
  induction members with
  | nil => simp
  | cons m members ih =>
    by_cases hm : isDevice device m
    · rw [List.eraseP_cons_of_pos hm, List.filter_cons_of_pos hm, List.tail_cons]
      split_ifs with hd
      · rw [hd]
      · have hm' : ¬ isDevice d m := by
          intro h
          exact hd ((of_decide_eq_true h).symm.trans (of_decide_eq_true hm))
        rw [List.filter_cons_of_neg hm']
    · rw [List.eraseP_cons_of_neg hm, List.filter_cons_of_neg hm]
      by_cases hd : d = device
      · rw [hd, if_pos rfl, List.filter_cons_of_neg hm]
        rw [hd, if_pos rfl] at ih
        exact ih
      · rw [if_neg hd] at ih ⊢
        rw [List.filter_cons, List.filter_cons, ih]

theorem filter_leave (device d : String) (members : List Member) :
    (members.filter fun m => !isDevice device m).filter (isDevice d) =
      if d = device then [] else members.filter (isDevice d) := by
  rw [List.filter_filter]
  split_ifs with hd
  · rw [hd]
    exact List.filter_eq_nil_iff.mpr fun m _ => by simp
  · apply List.filter_congr
    intro m _
    by_cases hm : isDevice d m
    · have hne : isDevice device m = false := by
        refine decide_eq_false fun h => hd ?_
        exact (of_decide_eq_true hm).symm.trans h
      simp [hm, hne]
    · simp [hm]

theorem members_setGroup (group g : String) (members : Option (List Member)) (rooms : Rooms) :
    (rooms.setGroup group members).members g =
      if g = group then members.getD [] else rooms.members g := by
  show (Function.update rooms.inner group members g).getD [] = _
  rw [Function.update_apply]
  split_ifs
  · rfl
  · rfl

theorem entries_setGroup (group g d : String) (members : Option (List Member)) (rooms : Rooms) :
    (rooms.setGroup group members).entries g d =
      if g = group then (members.getD []).filter (isDevice d) else rooms.entries g d := by
  rw [entries, members_setGroup]
  split_ifs
  · rfl
  · rfl

theorem join_entries (group device hostname peer g d : String) (tx stop : ℕ) (rooms : Rooms) :
    (rooms.join group device hostname peer tx stop).1.entries g d =
      if g = group ∧ d = device then
        (rooms.entries group device).tail ++ [⟨device, hostname, peer, tx, stop⟩]
      else rooms.entries g d := by
  have hjoin : (rooms.join group device hostname peer tx stop).1 = rooms.setGroup group
      (some ((rooms.members group).eraseP (isDevice device) ++
        [⟨device, hostname, peer, tx, stop⟩])) := rfl
  rw [hjoin, entries_setGroup]
  by_cases hg : g = group
  · rw [if_pos hg, Option.getD_some, List.filter_append, filter_eraseP_isDevice]
    by_cases hd : d = device
    · rw [if_pos hd, if_pos ⟨hg, hd⟩, hd]
      simp [isDevice, entries]
    · rw [if_neg hd, if_neg fun h => hd h.2, hg]
      simp [isDevice, entries, Ne.symm hd]
  · rw [if_neg hg, if_neg fun h => hg h.1]

theorem leave_entries (group device g d : String) (rooms : Rooms) :
    (rooms.leave group device).entries g d =
      if g = group ∧ d = device then [] else rooms.entries g d := by
  unfold leave
  cases h : rooms.inner group with
  | none =>
    split_ifs with hgd
    · rw [entries, members, hgd.1, h]
      rfl
    · rfl
  | some ms =>
    have hms : rooms.members group = ms := by rw [members, h]; rfl
    have hkept : (if (ms.filter fun m => !isDevice device m) = [] then none
        else some (ms.filter fun m => !isDevice device m)).getD [] =
          ms.filter fun m => !isDevice device m := by
      split_ifs with hnil
      · exact hnil.symm
      · rfl
    dsimp only
    rw [entries_setGroup, hkept]
    by_cases hg : g = group
    · rw [if_pos hg, filter_leave, entries, hg, hms]
      simp
    · rw [if_neg hg, if_neg fun h => hg h.1]

theorem kick_entries (group device g d : String) (rooms : Rooms) :
    (rooms.kick group device).2.1.entries g d =
      if g = group ∧ d = device then (rooms.entries group device).tail else rooms.entries g d := by
  have hnone : rooms.entries group device = [] → rooms.entries g d =
      if g = group ∧ d = device then (rooms.entries group device).tail else rooms.entries g d := by
    intro hnil
    split_ifs with hgd
    · rw [hgd.1, hgd.2, hnil]
      rfl
    · rfl
  unfold kick
  cases h : rooms.inner group with
  | none => exact hnone (by rw [entries, members, h]; rfl)
  | some ms =>
    have hms : rooms.members group = ms := by rw [members, h]; rfl
    dsimp only
    cases hfind : ms.find? (isDevice device) with
    | none =>
      apply hnone
      rw [entries, hms]
      exact List.filter_eq_nil_iff.mpr fun m hm => List.find?_eq_none.mp hfind m hm
    | some m =>
      dsimp only
      rw [entries_setGroup, Option.getD_some, filter_eraseP_isDevice]
      by_cases hg : g = group
      · rw [if_pos hg, entries, entries, hg, hms]
        simp
      · rw [if_neg hg, if_neg fun h => hg h.1]

theorem kickGroup_entries (group g d : String) (rooms : Rooms) :
    (rooms.kickGroup group).1.entries g d = if g = group then [] else rooms.entries g d := by
  unfold kickGroup
  cases h : rooms.inner group with
  | none =>
    split_ifs with hg
    · rw [entries, members, hg, h]
      rfl
    · rfl
  | some ms =>
    rw [entries_setGroup]
    rfl

/-- A device is a member of a group once at most. -/
def Single (rooms : Rooms) : Prop := ∀ group device, (rooms.entries group device).length ≤ 1

theorem Single.apply {rooms : Rooms} (h : Single rooms) (op : RoomsOp) : Single (rooms.apply op) := by
  intro g d
  cases op with
  | join group device hostname peer tx stop =>
    rw [Rooms.apply, join_entries]
    split_ifs
    · rw [List.length_append, List.length_tail, List.length_singleton]
      have := h group device
      omega
    · exact h g d
  | leave group device =>
    rw [Rooms.apply, leave_entries]
    split_ifs
    · exact Nat.zero_le _
    · exact h g d
  | kick group device =>
    rw [Rooms.apply, kick_entries]
    split_ifs
    · rw [List.length_tail]
      have := h group device
      omega
    · exact h g d
  | kickGroup group =>
    rw [Rooms.apply, kickGroup_entries]
    split_ifs
    · exact Nat.zero_le _
    · exact h g d

end Rooms

/-! ## Sessions -/

/-- The session has joined and has not left. -/
def LeafPhase.isIn : LeafPhase → Bool
  | .joined | .looping | .leaving => true
  | .allowed | .done => false

namespace RelayServer

/-- Session `j` has joined and not left, and was neither replaced nor kicked. -/
structure Live (r : RelayServer) (j : ℕ) (leaf : Leaf) : Prop where
  session : r.sessions j = some leaf
  phase : leaf.phase.isIn = true
  unreplaced : r.replaced j = false
  unkicked : r.kicked j = false

/-- The member of the session's device is the session's own, and the only one. -/
def Registered (r : RelayServer) (j : ℕ) (leaf : Leaf) : Prop :=
  r.rooms.entries leaf.group leaf.device = [⟨leaf.device, leaf.hostname, leaf.peer, j, j⟩]

instance (r : RelayServer) (j : ℕ) (leaf : Leaf) : Decidable (r.Registered j leaf) :=
  inferInstanceAs (Decidable (_ = _))

def LiveRegistered (r : RelayServer) : Prop := ∀ j leaf, r.Live j leaf → r.Registered j leaf

/-- A device has at most one member. -/
def Single (r : RelayServer) : Prop := ∀ g d, (r.rooms.entries g d).length ≤ 1

/-- No session leaves while another session of its device is live. -/
def Safe (r : RelayServer) : RelayEvent → Prop
  | .leave i => ∀ leaf, r.sessions i = some leaf → ∀ j other, j ≠ i → r.Live j other →
      ¬ (other.group = leaf.group ∧ other.device = leaf.device)
  | _ => True

theorem sessionAt_eq_some {r : RelayServer} {i : ℕ} {phase : LeafPhase} {leaf : Leaf}
    (h : r.sessionAt i phase = some leaf) : r.sessions i = some leaf ∧ leaf.phase = phase := by
  obtain ⟨hs, hp⟩ := Option.filter_eq_some_iff.mp h
  exact ⟨hs, of_decide_eq_true hp⟩

theorem sameDevice_iff (group device : String) (leaf : Leaf) :
    sameDevice group device leaf = true ↔ leaf.group = group ∧ leaf.device = device := by
  rw [sameDevice, Bool.and_eq_true, decide_eq_true_iff, decide_eq_true_iff]

/-- A live session that a join or a kick did not mark does not meet its condition. -/
theorem not_marked {r : RelayServer} {p : Leaf → Bool} {f : ℕ → Bool} {j : ℕ} {leaf : Leaf}
    (hs : r.sessions j = some leaf) (hp : leaf.phase.isIn = true)
    (hf : (f j || r.hasJoined p j) = false) : f j = false ∧ p leaf = false := by
  rw [Bool.or_eq_false_iff] at hf
  refine ⟨hf.1, ?_⟩
  have hmarked := hf.2
  rw [hasJoined, hs] at hmarked
  have hin : leaf.phase ≠ .allowed := by
    intro h
    rw [h] at hp
    cases hp
  simpa [hin] using hmarked

/-! ### One step -/

theorem tail_append_length {l : List Member} (h : l.length ≤ 1) (m : Member) :
    l.tail ++ [m] = [m] := by
  have hnil : l.tail = [] := List.length_eq_zero_iff.mp (by rw [List.length_tail]; omega)
  rw [hnil, List.nil_append]

theorem session_self {f : ℕ → Option Leaf} {i : ℕ} {leaf other : Leaf}
    (h : Function.update f i (some leaf) i = some other) : leaf = other := by
  rw [Function.update_self] at h
  exact Option.some.inj h

/-- Rooms and history stay; the session keeps its device and does not come in. -/
theorem LiveRegistered.put {r : RelayServer} {i : ℕ} {leaf : Leaf} (h : LiveRegistered r)
    (hold : leaf.phase.isIn = true → ∃ old, r.sessions i = some old ∧ old.phase.isIn = true ∧
      { old with phase := leaf.phase } = leaf) : LiveRegistered (r.put i leaf) := by
  intro j other hlive
  by_cases hj : j = i
  · subst hj
    obtain rfl : leaf = other := session_self (f := r.sessions) hlive.session
    obtain ⟨old, hs, hp, hsame⟩ := hold hlive.phase
    have hreg := h j old ⟨hs, hp, hlive.unreplaced, hlive.unkicked⟩
    rw [← hsame]
    exact hreg
  · have hs : r.sessions j = some other := (Function.update_of_ne hj _ _).symm.trans hlive.session
    exact h j other ⟨hs, hlive.phase, hlive.unreplaced, hlive.unkicked⟩

theorem LiveRegistered.join {r : RelayServer} {i : ℕ} {leaf : Leaf} (h : LiveRegistered r)
    (hsingle : Single r) : LiveRegistered (r.join i leaf) := by
  intro j other hlive
  have hentries := r.rooms.join_entries leaf.group leaf.device leaf.hostname leaf.peer other.group
    other.device i i
  by_cases hj : j = i
  · subst hj
    obtain rfl : { leaf with phase := .joined } = other :=
      session_self (f := r.sessions) hlive.session
    rw [if_pos ⟨rfl, rfl⟩, tail_append_length (hsingle _ _)] at hentries
    exact hentries
  · have hs : r.sessions j = some other := (Function.update_of_ne hj _ _).symm.trans hlive.session
    obtain ⟨hrep, hother⟩ := not_marked hs hlive.phase hlive.unreplaced
    have hne : ¬ (other.group = leaf.group ∧ other.device = leaf.device) := by
      rw [← sameDevice_iff, hother]
      exact Bool.false_ne_true
    rw [if_neg hne] at hentries
    exact hentries.trans (h j other ⟨hs, hlive.phase, hrep, hlive.unkicked⟩)

theorem LiveRegistered.kick {r : RelayServer} (h : LiveRegistered r) (group device : String) :
    LiveRegistered (r.kick group device) := by
  intro j other hlive
  obtain ⟨hkick, hother⟩ := not_marked hlive.session hlive.phase hlive.unkicked
  have hne : ¬ (other.group = group ∧ other.device = device) := by
    rw [← sameDevice_iff, hother]
    exact Bool.false_ne_true
  have hentries := r.rooms.kick_entries group device other.group other.device
  rw [if_neg hne] at hentries
  exact hentries.trans (h j other ⟨hlive.session, hlive.phase, hlive.unreplaced, hkick⟩)

theorem LiveRegistered.kickGroup {r : RelayServer} (h : LiveRegistered r) (group : String) :
    LiveRegistered (r.kickGroup group) := by
  intro j other hlive
  obtain ⟨hkick, hother⟩ := not_marked hlive.session hlive.phase hlive.unkicked
  have hentries := r.rooms.kickGroup_entries group other.group other.device
  rw [if_neg (of_decide_eq_false hother)] at hentries
  exact hentries.trans (h j other ⟨hlive.session, hlive.phase, hlive.unreplaced, hkick⟩)

/-- Leaving takes out the member of every live session of the same device. -/
theorem liveRegistered_leave_iff {r : RelayServer} {i : ℕ} {leaf : Leaf} (h : LiveRegistered r)
    (hi : r.sessions i = some leaf) : LiveRegistered (r.leave i leaf) ↔ Safe r (.leave i) := by
  have hentries := fun other : Leaf =>
    r.rooms.leave_entries leaf.group leaf.device other.group other.device
  constructor
  · rintro hafter leaf' hi' j other hj hlive hsame
    obtain rfl : leaf = leaf' := Option.some.inj (hi.symm.trans hi')
    have hs : (r.leave i leaf).sessions j = some other :=
      (Function.update_of_ne hj _ _).trans hlive.session
    have hreg := hafter j other ⟨hs, hlive.phase, hlive.unreplaced, hlive.unkicked⟩
    have hnil := hentries other
    rw [if_pos hsame] at hnil
    exact List.cons_ne_nil _ _ (hreg.symm.trans hnil)
  · intro hsafe j other hlive
    by_cases hj : j = i
    · subst hj
      obtain rfl : { leaf with phase := .done } = other :=
        session_self (f := r.sessions) hlive.session
      cases hlive.phase
    · have hs : r.sessions j = some other := (Function.update_of_ne hj _ _).symm.trans hlive.session
      have hold : r.Live j other := ⟨hs, hlive.phase, hlive.unreplaced, hlive.unkicked⟩
      have hkept := hentries other
      rw [if_neg (hsafe leaf hi j other hj hold)] at hkept
      exact hkept.trans (h j other hold)

/-- The operation on its rooms that a step of the relay is. -/
def roomsOp (r : RelayServer) : RelayEvent → Option RoomsOp
  | .join i => (r.sessionAt i .allowed).map fun leaf => .join leaf.group leaf.device leaf.hostname leaf.peer i i
  | .leave i => (r.sessionAt i .leaving).map fun leaf => .leave leaf.group leaf.device
  | .kick group device => some (.kick group device)
  | .kickGroup group => some (.kickGroup group)
  | _ => none

theorem rooms_of_step {r t : RelayServer} {e : RelayEvent} (h : step r e = some t) :
    t.rooms = (r.roomsOp e).elim r.rooms r.rooms.apply := by
  cases e with
  | allow i group device hostname peer =>
    simp only [step] at h
    split_ifs at h
    obtain rfl := Option.some.inj h
    rfl
  | join i | leave i =>
    obtain ⟨leaf, hi, rfl⟩ := Option.map_eq_some_iff.mp h
    rw [roomsOp, hi]
    rfl
  | joinAck i ok | finish i =>
    obtain ⟨leaf, -, rfl⟩ := Option.map_eq_some_iff.mp h
    rfl
  | kick group device | kickGroup group =>
    obtain rfl := Option.some.inj h
    rfl

theorem Single.step {r t : RelayServer} {e : RelayEvent} (h : Single r)
    (hs : RelayServer.step r e = some t) : Single t := by
  intro g d
  rw [rooms_of_step hs]
  cases r.roomsOp e with
  | none => exact h g d
  | some op => exact Rooms.Single.apply h op g d

/-- From a state in which live sessions are registered, the step leads to one exactly when it is
safe. -/
theorem liveRegistered_step_iff {r t : RelayServer} {e : RelayEvent} (hsingle : Single r)
    (h : LiveRegistered r) (hs : step r e = some t) : LiveRegistered t ↔ Safe r e := by
  cases e with
  | allow i group device hostname peer =>
    simp only [step] at hs
    split_ifs at hs
    obtain rfl := Option.some.inj hs
    exact iff_of_true (h.put fun hin => nomatch hin) trivial
  | join i =>
    obtain ⟨leaf, -, rfl⟩ := Option.map_eq_some_iff.mp hs
    exact iff_of_true (h.join hsingle) trivial
  | joinAck i ok =>
    obtain ⟨leaf, hi, rfl⟩ := Option.map_eq_some_iff.mp hs
    obtain ⟨hi, hp⟩ := sessionAt_eq_some hi
    exact iff_of_true (h.put fun _ => ⟨leaf, hi, by rw [hp]; rfl, rfl⟩) trivial
  | finish i =>
    obtain ⟨leaf, hi, rfl⟩ := Option.map_eq_some_iff.mp hs
    obtain ⟨hi, hp⟩ := sessionAt_eq_some hi
    exact iff_of_true (h.put fun _ => ⟨leaf, hi, by rw [hp]; rfl, rfl⟩) trivial
  | leave i =>
    obtain ⟨leaf, hi, rfl⟩ := Option.map_eq_some_iff.mp hs
    exact liveRegistered_leave_iff h (sessionAt_eq_some hi).1
  | kick group device =>
    obtain rfl := Option.some.inj hs
    exact iff_of_true (h.kick group device) trivial
  | kickGroup group =>
    obtain rfl := Option.some.inj hs
    exact iff_of_true (h.kickGroup group) trivial

/-! ### Whole runs -/

/-- A relay that has just started. -/
structure Boots (r : RelayServer) : Prop where
  rooms : ∀ g, r.rooms.inner g = none
  sessions : ∀ i, r.sessions i = none

theorem Boots.single {r : RelayServer} (h : Boots r) : Single r := by
  intro g d
  rw [Rooms.entries, Rooms.members, h.rooms g]
  exact Nat.zero_le 1

/-- Live sessions are registered in every state of a run exactly when no session leaves while another
one of its device is live. -/
theorem liveRegistered_iff_safe {r : RelayServer} {es : List RelayEvent} (hr : Boots r)
    (hrun : (exec step r es).isSome) : Along step LiveRegistered r es ↔ Guarded step Safe r es := by
  refine along_iff_guarded (I := Single) (fun _ _ _ h hs => h.step hs)
    (fun _ _ _ hi hp hs => liveRegistered_step_iff hi hp hs) hr.single ?_ hrun
  intro j leaf hlive
  have hs := hlive.session
  rw [hr.sessions j] at hs
  cases hs

end RelayServer

/-! ### A device that comes back -/

def emptyRelay : RelayServer :=
  ⟨⟨fun _ => none⟩, [], fun _ => none, fun _ => false, fun _ => false⟩

/-- `phone` and `laptop` join, and `phone` leaves. -/
def joinAndLeave : List RelayEvent :=
  [.allow 0 "g" "phone" "pixel" "10.0.0.7:5000", .join 0, .joinAck 0 true,
    .allow 1 "g" "laptop" "thinkpad" "10.0.0.8:5000", .join 1, .joinAck 1 true, .finish 0, .leave 0]

/-- `phone` comes back before its old session has ended. -/
def comeBack : List RelayEvent :=
  [.allow 0 "g" "phone" "pixel" "10.0.0.7:5000", .join 0, .joinAck 0 true,
    .allow 1 "g" "phone" "pixel" "10.0.0.7:5001", .join 1, .joinAck 1 true, .finish 0, .leave 0]

/-- `laptop` is in the room at the end. -/
theorem joinAndLeave_registered :
    Along RelayServer.step RelayServer.LiveRegistered emptyRelay joinAndLeave ∧
      (exec RelayServer.step emptyRelay joinAndLeave).map (fun r =>
        ((r.rooms.entries "g" "laptop").length, (r.rooms.entries "g" "phone").length)) = some (1, 0) := by
  refine ⟨(RelayServer.liveRegistered_iff_safe ⟨fun _ => rfl, fun _ => rfl⟩ rfl).mpr ?_, by decide⟩
  -- Only the last step takes a session out.
  have hjoins : Guarded RelayServer.step RelayServer.Safe emptyRelay joinAndLeave.dropLast :=
    (guarded_of_forall _ (p := fun e => ∀ i, e ≠ .leave i) (by simp [joinAndLeave]) emptyRelay).imp
      fun _ e he => by cases e with
        | leave i => exact absurd rfl (he i)
        | _ => exact trivial
  have hsplit : joinAndLeave = joinAndLeave.dropLast ++ [.leave 0] := rfl
  rw [hsplit]
  refine hjoins.append _ fun t ht => ?_
  obtain rfl := Option.some.inj ht
  refine ⟨?_, fun _ _ => trivial⟩
  intro leaf hleaf j other hj hlive
  have hs := hlive.session
  by_cases h1 : j = 1
  · rw [h1] at hs
    obtain rfl := Option.some.inj hleaf
    obtain rfl := Option.some.inj hs
    decide
  · simp [RelayServer.put, RelayServer.join, emptyRelay, hj, h1] at hs

theorem comeBack_unregistered : ¬ Along RelayServer.step RelayServer.LiveRegistered emptyRelay
    comeBack := by
  intro h
  obtain ⟨r, hr⟩ : ∃ r, exec RelayServer.step emptyRelay comeBack = some r := ⟨_, rfl⟩
  have hlast := along_last h hr
  obtain rfl := Option.some.inj hr
  have hreg := hlast 1 ⟨"g", "phone", "pixel", "10.0.0.7:5001", .looping⟩
    ⟨by decide, by decide, by decide, by decide⟩
  revert hreg
  decide

end Zsync
