import Zsync.Relay.Admission
import Zsync.Relay.Ordering

/-! # What is left of a group that was disabled

`zsyncd group disable` and `deny` save the allowlist and then have the daemon kick the group. The daemon looks at the
allowlist when it reads a `Join` and when it reads `Data`, not when it registers a session nor when it broadcasts;
what it has checked just before is still carried out.

* `revokes_allows` : once such a command has saved, the group is not allowed, and the others are as before.
* `Wound` : no session of the group has read and checked anything since, and what these sessions broadcast is what
  they had read before.
* `Deaf` : after the kick nothing reaches a session that had joined before.
* `revoked` : both hold in every run in which the group stays off.
-/

namespace Zsync
set_option autoImplicit false
set_option maxHeartbeats 250000
open Foundations Protocol Zsync.Group

/-! ## The commands -/

/-- What `Allowlist::get` finds in the file, and whether it is enabled. -/
def GroupsFile.allows (file : GroupsFile) (id : String) : Option Bool :=
  ((GroupMap.collect file).get id).map GroupRec.enabled

/-- The commands that kick the group when they have saved. -/
def AdminCommand.Revokes (groupId : String) (c : AdminCommand) : Prop := c = .disable groupId ∨ c = .deny groupId

section Commands
variable {file file' : GroupsFile} {want : String → Option GroupRec} {c : AdminCommand} {groupId : String}
  {gid : Bytes}

theorem Lists.allows (h : Lists file want) (id : String) : file.allows id = (want id).map GroupRec.enabled := by
  rw [GroupsFile.allows, h.get id]

variable [Sha256] [Base64]

omit [Base64] in
theorem on_revokes (hc : c.Revokes groupId) (hgid : parseGroupId groupId.toList = .ok gid) (id : String)
    (before : Option GroupRec) :
    (id = hexEncode gid → ((c.on id before).map GroupRec.enabled).getD false = false) ∧
      (id ≠ hexEncode gid → c.on id before = before) := by
  have htarget : c.target = some (hexEncode gid) := by
    obtain rfl | rfl := hc
    · simp [AdminCommand.target, hgid]
    · simp [AdminCommand.target, hgid]
  constructor
  · rintro rfl
    unfold AdminCommand.on
    rw [if_pos htarget]
    obtain rfl | rfl := hc
    · cases before <;> rfl
    · rfl
  · intro hne
    unfold AdminCommand.on
    rw [htarget, if_neg fun h => hne (Option.some.inj h).symm]

/-- A command that revokes and succeeds has read the identifier of a group, and leaves that group off and the other
groups as they were. -/
theorem revokes_allows (h : Lists file want) (hc : c.Revokes groupId) (hrun : c.run file = .ok file') :
    ∃ gid, parseGroupId groupId.toList = .ok gid ∧ (file'.allows (hexEncode gid)).getD false = false ∧
      ∀ id, id ≠ hexEncode gid → file'.allows id = file.allows id := by
  cases hgid : parseGroupId groupId.toList with
  | error e =>
    obtain rfl | rfl := hc
    · rw [AdminCommand.run, setEnabled, hgid] at hrun
      cases hrun
    · rw [AdminCommand.run, removeGroup, hgid] at hrun
      cases hrun
  | ok gid =>
    have hsaved := (obeys h c).saved file' hrun
    refine ⟨gid, rfl, ?_, fun id hne => ?_⟩
    · rw [hsaved.allows]
      exact (on_revokes hc hgid _ _).1 rfl
    · rw [hsaved.allows, (on_revokes hc hgid id _).2 hne, h.allows]

end Commands

/-! ## Sessions -/

namespace RelayServer
variable {r t : RelayServer}

/-- A new session is one whose `Join` has just been allowed. -/
theorem session_new {e : RelayEvent} (hs : step r e = some t) {i : ℕ} {leaf : Leaf} (hnone : r.sessions i = none)
    (hi : t.sessions i = some leaf) : ∃ device hostname peer, e = .allow i leaf.group device hostname peer := by
  have other : ∀ {k : ℕ} {phase : LeafPhase} {old : Leaf} {new : Leaf}, r.sessionAt k phase = some old →
      Function.update r.sessions k (some new) i = some leaf → False := by
    intro k phase old new hk hu
    have hik : i ≠ k := by
      rintro rfl
      rw [(sessionAt_eq_some hk).1] at hnone
      cases hnone
    rw [Function.update_of_ne hik, hnone] at hu
    cases hu
  cases e with
  | allow k group device hostname peer =>
    simp only [step] at hs
    split_ifs at hs
    obtain rfl := Option.some.inj hs
    by_cases hik : i = k
    · subst hik
      have hleaf : Function.update r.sessions i (some ⟨group, device, hostname, peer, .allowed⟩) i = some leaf := hi
      rw [Function.update_self] at hleaf
      obtain rfl := Option.some.inj hleaf
      exact ⟨device, hostname, peer, rfl⟩
    · have hleaf : Function.update r.sessions k (some ⟨group, device, hostname, peer, .allowed⟩) i = some leaf := hi
      rw [Function.update_of_ne hik, hnone] at hleaf
      cases hleaf
  | join k =>
    obtain ⟨old, hk, rfl⟩ := Option.map_eq_some_iff.mp hs
    exact (other hk hi).elim
  | joinAck k ok =>
    obtain ⟨old, hk, rfl⟩ := Option.map_eq_some_iff.mp hs
    exact (other hk hi).elim
  | finish k =>
    obtain ⟨old, hk, rfl⟩ := Option.map_eq_some_iff.mp hs
    exact (other hk hi).elim
  | leave k =>
    obtain ⟨old, hk, rfl⟩ := Option.map_eq_some_iff.mp hs
    exact (other hk hi).elim
  | kick group device =>
    obtain rfl := Option.some.inj hs
    exact absurd (hnone.symm.trans hi) (by simp)
  | kickGroup group =>
    obtain rfl := Option.some.inj hs
    exact absurd (hnone.symm.trans hi) (by simp)

/-- A member is there before the step, or its session has just joined. -/
theorem member_step {e : RelayEvent} (hs : step r e = some t) {g : String} {m : Member}
    (hm : m ∈ t.rooms.members g) : m ∈ r.rooms.members g ∨ (r.sessionAt m.tx .allowed).isSome := by
  cases e with
  | allow i group device hostname peer =>
    simp only [step] at hs
    split_ifs at hs
    obtain rfl := Option.some.inj hs
    exact .inl hm
  | join i =>
    obtain ⟨leaf, hi, rfl⟩ := Option.map_eq_some_iff.mp hs
    obtain ⟨-, rfl⟩ | hold := Rooms.mem_join hm
    · exact .inr (by rw [hi]; rfl)
    · exact .inl hold
  | joinAck i ok =>
    obtain ⟨leaf, hi, rfl⟩ := Option.map_eq_some_iff.mp hs
    exact .inl hm
  | finish i =>
    obtain ⟨leaf, hi, rfl⟩ := Option.map_eq_some_iff.mp hs
    exact .inl hm
  | leave i =>
    obtain ⟨leaf, hi, rfl⟩ := Option.map_eq_some_iff.mp hs
    exact .inl (Rooms.mem_leave.mp (show m ∈ (r.rooms.leave leaf.group leaf.device).members g from hm)).1
  | kick group device =>
    obtain rfl := Option.some.inj hs
    exact .inl (Rooms.mem_kick hm)
  | kickGroup group =>
    obtain rfl := Option.some.inj hs
    exact .inl (Rooms.mem_kickGroup hm)

theorem members_kickGroup (r : RelayServer) (g : String) : (r.kickGroup g).rooms.members g = [] := by
  refine List.eq_nil_iff_forall_not_mem.mpr fun m hm => ?_
  have hm' := Rooms.mem_members_iff.mp hm
  have hnil : (r.kickGroup g).rooms.entries g m.deviceId = [] :=
    (Rooms.kickGroup_entries g g m.deviceId r.rooms).trans (if_pos rfl)
  rw [hnil] at hm'
  exact absurd hm' List.not_mem_nil

/-- The loop of the session is over. -/
def Ended (leaf : Leaf) : Prop := leaf.phase = .leaving ∨ leaf.phase = .done

/-- A session whose loop is over does not enter it again. -/
theorem ended_kept {e : RelayEvent} (hs : step r e = some t) {i : ℕ} {leaf leaf' : Leaf}
    (hi : r.sessions i = some leaf) (hended : Ended leaf) (hi' : t.sessions i = some leaf') : Ended leaf' := by
  have same : r.sessions i = some leaf' → Ended leaf' := by
    intro h
    obtain rfl := Option.some.inj (hi.symm.trans h)
    exact hended
  have other : ∀ {k : ℕ} {new : Leaf}, (i = k → Ended new) →
      Function.update r.sessions k (some new) i = some leaf' → Ended leaf' := by
    intro k new hnew hu
    by_cases hik : i = k
    · subst hik
      rw [Function.update_self] at hu
      obtain rfl := Option.some.inj hu
      exact hnew rfl
    · exact same ((Function.update_of_ne hik _ _).symm.trans hu)
  -- What starts or goes on is not over.
  have apart : ∀ {k : ℕ} {phase : LeafPhase} {old : Leaf}, r.sessionAt k phase = some old →
      ¬ (phase = .leaving ∨ phase = .done) → i ≠ k := by
    rintro k phase old hk hphase rfl
    obtain ⟨hk, hp⟩ := sessionAt_eq_some hk
    obtain rfl := Option.some.inj (hi.symm.trans hk)
    exact hphase (hp ▸ hended)
  cases e with
  | allow k group device hostname peer =>
    simp only [step] at hs
    split_ifs at hs with hnone
    obtain rfl := Option.some.inj hs
    refine other (fun hik => ?_) hi'
    rw [← hik, hi] at hnone
    cases hnone
  | join k =>
    obtain ⟨old, hk, rfl⟩ := Option.map_eq_some_iff.mp hs
    exact other (fun hik => absurd hik (apart hk (by simp))) hi'
  | joinAck k ok =>
    obtain ⟨old, hk, rfl⟩ := Option.map_eq_some_iff.mp hs
    exact other (fun hik => absurd hik (apart hk (by simp))) hi'
  | finish k =>
    obtain ⟨old, hk, rfl⟩ := Option.map_eq_some_iff.mp hs
    exact other (fun _ => .inl rfl) hi'
  | leave k =>
    obtain ⟨old, hk, rfl⟩ := Option.map_eq_some_iff.mp hs
    exact other (fun _ => .inr rfl) hi'
  | kick group device =>
    obtain rfl := Option.some.inj hs
    exact same hi'
  | kickGroup group =>
    obtain rfl := Option.some.inj hs
    exact same hi'

end RelayServer

namespace Traffic
variable {s t u : Traffic} {x y : Traffic × List Cast} {g : String}

/-! ## A group that is off -/

/-- The allowlist is not changed so that the group is enabled. -/
def KeepsOff (g : String) : TrafficEvent → Prop
  | .allowlist allow => (allow g).getD false = false
  | _ => True

/-- The `Data` frames that session `i` has read, and what the allowlist said of them. -/
def readBy (s : Traffic) (i : ℕ) : List Report := s.reports.filter fun r => r.parcel.source = i

/-- Every session of the group was there in `s`. It has broadcast and may still broadcast what it had read then;
it has read one more payload at most, which was refused, and then its loop is over. -/
structure WindsDown (g : String) (s : Traffic) (x : Traffic × List Cast) : Prop where
  known : ∀ i leaf, x.1.server.sessions i = some leaf → leaf.group = g →
    ∃ old, s.server.sessions i = some old ∧ old.group = g
  said : ∀ i leaf, x.1.server.sessions i = some leaf → leaf.group = g →
    saidBy i (x.2.map Cast.parcel) ++ (x.1.pending i).toList = (s.pending i).toList
  read : ∀ i leaf, x.1.server.sessions i = some leaf → leaf.group = g →
    ∃ new, x.1.readBy i = s.readBy i ++ new ∧ new.length ≤ 1 ∧ (∀ r ∈ new, r.enabled = false) ∧
      (new ≠ [] → RelayServer.Ended leaf)

/-- No member of the group had joined in `u`, and what has joined by then has not got anything since. -/
structure Deaf (g : String) (u t : Traffic) : Prop where
  members : ∀ m ∈ t.server.rooms.members g, ∀ leaf, ¬ u.Joined m.tx leaf
  intake : ∀ j leaf, u.Joined j leaf → leaf.group = g → t.intake j = u.intake j

/-! ### One step -/

theorem enabled_step {e : TrafficEvent} (hs : step s e = some t) (hoff : s.enabled g = false)
    (he : KeepsOff g e) : t.enabled g = false := by
  cases e with
  | server e =>
    simp only [step] at hs
    split_ifs at hs
    obtain ⟨server, -, rfl⟩ := Option.map_eq_some_iff.mp hs
    exact hoff
  | allowlist allow =>
    obtain rfl := Option.some.inj hs
    exact he
  | data i payload =>
    simp only [step] at hs
    split at hs
    · split_ifs at hs
      · obtain rfl := Option.some.inj hs
        exact hoff
      · obtain rfl := Option.some.inj hs
        exact hoff
    · cases hs
  | broadcast i =>
    simp only [step] at hs
    split at hs
    · obtain rfl := Option.some.inj hs
      rw [broadcast_eq]
      exact hoff
    · cases hs
  | deliver i ok =>
    simp only [step] at hs
    split at hs
    · obtain rfl := Option.some.inj hs
      exact hoff
    · cases hs

/-- A step of the relay by itself is one that is permitted; the others end a loop at most. -/
theorem server_step_permitted {e : TrafficEvent} (hs : step s e = some t) : t.server = s.server ∨
    ∃ e', RelayServer.step s.server e' = some t.server ∧ (s.permits e' = true ∨ ∃ i, e' = .finish i) := by
  cases e with
  | server e =>
    simp only [step] at hs
    split_ifs at hs with hpermits
    obtain ⟨server, hr, rfl⟩ := Option.map_eq_some_iff.mp hs
    exact .inr ⟨e, hr, .inl hpermits⟩
  | allowlist allow =>
    obtain rfl := Option.some.inj hs
    exact .inl rfl
  | data i payload =>
    obtain ⟨leaf, hi, -, ⟨-, hserver, -⟩ | ⟨-, hserver, -⟩⟩ := data_cases hs
    · exact .inl hserver
    · exact .inr ⟨.finish i, by rw [hserver, RelayServer.step, hi]; rfl, .inr ⟨i, rfl⟩⟩
  | broadcast i =>
    obtain ⟨-, -, hserver, -⟩ := broadcast_cases hs
    exact .inl hserver
  | deliver i ok =>
    simp only [step] at hs
    split at hs
    · next leaf p rest hi hp hq =>
      obtain rfl := Option.some.inj hs
      cases ok with
      | true => exact .inl rfl
      | false => exact .inr ⟨.finish i, by rw [RelayServer.step, hi]; rfl, .inr ⟨i, rfl⟩⟩
    · cases hs

/-- No session of a group that is off comes into being. -/
theorem session_before {e : TrafficEvent} (hs : step s e = some t) (hoff : s.enabled g = false) {i : ℕ}
    {leaf : Leaf} (hi : t.server.sessions i = some leaf) (hg : leaf.group = g) :
    ∃ old, s.server.sessions i = some old ∧ old.group = g ∧
      (RelayServer.Ended old → RelayServer.Ended leaf) := by
  obtain hsame | ⟨e', he', hpermits⟩ := server_step_permitted hs
  · rw [hsame] at hi
    exact ⟨leaf, hi, hg, id⟩
  · cases hold : s.server.sessions i with
    | some old =>
      refine ⟨old, rfl, ?_, fun hended => RelayServer.ended_kept he' hold hended hi⟩
      obtain ⟨phase, -, hj⟩ := RelayServer.session_kept he' hold
      obtain rfl := Option.some.inj (hj.symm.trans hi)
      exact hg
    | none =>
      obtain ⟨device, hostname, peer, rfl⟩ := RelayServer.session_new he' hold hi
      obtain hpermits | ⟨k, hk⟩ := hpermits
      · rw [permits, hg, hoff] at hpermits
        cases hpermits
      · cases hk

/-- What neither reads on session `i` nor hands on what it has read. -/
theorem quiet_session {e : TrafficEvent} (hs : step s e = some t) {i : ℕ} (hdata : ∀ payload, e ≠ .data i payload)
    (hcast : e ≠ .broadcast i) :
    t.pending i = s.pending i ∧ t.readBy i = s.readBy i ∧ saidBy i ((casts s e t).map Cast.parcel) = [] := by
  cases e with
  | server e =>
    simp only [step] at hs
    split_ifs at hs
    obtain ⟨server, -, rfl⟩ := Option.map_eq_some_iff.mp hs
    exact ⟨rfl, rfl, rfl⟩
  | allowlist allow =>
    obtain rfl := Option.some.inj hs
    exact ⟨rfl, rfl, rfl⟩
  | data k payload =>
    have hki : k ≠ i := by
      rintro rfl
      exact hdata payload rfl
    simp only [step] at hs
    split at hs
    · split_ifs at hs
      · obtain rfl := Option.some.inj hs
        exact ⟨Function.update_of_ne (Ne.symm hki) _ _, by simp [readBy, hki], rfl⟩
      · obtain rfl := Option.some.inj hs
        exact ⟨rfl, by simp [readBy, hki], rfl⟩
    · cases hs
  | broadcast k =>
    have hki : k ≠ i := by
      rintro rfl
      exact hcast rfl
    obtain ⟨leaf, payload, hk, hp, -, -⟩ := broadcast_inv hs
    obtain ⟨payload', -, -, hpend⟩ := broadcast_cases hs
    refine ⟨?_, ?_, ?_⟩
    · rw [hpend, Function.update_of_ne (Ne.symm hki)]
    · rw [readBy, readBy, broadcast_reports hs]
    · rw [casts_broadcast hk hp]
      simp [saidBy, hki]
  | deliver k ok =>
    simp only [step] at hs
    split at hs
    · obtain rfl := Option.some.inj hs
      exact ⟨rfl, rfl, rfl⟩
    · cases hs

theorem data_reports {i : ℕ} {payload : Bytes} {leaf : Leaf} (hs : step s (.data i payload) = some t)
    (hi : s.server.sessionAt i .looping = some leaf) :
    t.reports = s.reports ++ [⟨⟨payload, i⟩, leaf.group, s.enabled leaf.group⟩] := by
  obtain ⟨leaf', hi', hp, -⟩ := data_cases hs
  obtain rfl := Option.some.inj (hi.symm.trans hi')
  simp only [step, hi, hp] at hs
  split_ifs at hs
  · obtain rfl := Option.some.inj hs
    rfl
  · obtain rfl := Option.some.inj hs
    rfl

/-- What a session of a group that is off reads ends its loop. -/
theorem data_off {i : ℕ} {payload : Bytes} {leaf : Leaf} (hs : step s (.data i payload) = some t)
    (hi : s.server.sessionAt i .looping = some leaf) (hoff : s.enabled leaf.group = false) :
    t.server = s.server.put i { leaf with phase := .leaving } ∧ t.pending = s.pending ∧
      t.readBy i = s.readBy i ++ [⟨⟨payload, i⟩, leaf.group, false⟩] := by
  obtain ⟨leaf', hi', -, ⟨hon, -, -⟩ | ⟨-, hserver, hpend⟩⟩ := data_cases hs
  · obtain rfl := Option.some.inj (hi.symm.trans hi')
    rw [hoff] at hon
    cases hon
  · obtain rfl := Option.some.inj (hi.symm.trans hi')
    refine ⟨hserver, hpend, ?_⟩
    rw [readBy, readBy, data_reports hs hi, hoff]
    simp

theorem WindsDown.step {e : TrafficEvent} (hoff : x.1.enabled g = false) (h : WindsDown g s x)
    (hs : recorded Traffic.step casts x e = some y) : WindsDown g s y := by
  obtain ⟨hstep, hh⟩ := recorded_eq_some hs
  refine ⟨fun i leaf hi hg => ?_, fun i leaf hi hg => ?_, fun i leaf hi hg => ?_⟩
  · obtain ⟨old, hold, hog, -⟩ := session_before hstep hoff hi hg
    exact h.known i old hold hog
  · obtain ⟨old, hold, hog, -⟩ := session_before hstep hoff hi hg
    rw [← h.said i old hold hog, hh, List.map_append, saidBy_append]
    by_cases hdata : ∃ payload, e = .data i payload
    · obtain ⟨payload, rfl⟩ := hdata
      obtain ⟨leaf', hi', -⟩ := data_cases hstep
      obtain rfl := Option.some.inj (hold.symm.trans (RelayServer.sessionAt_eq_some hi').1)
      obtain ⟨-, hpend, -⟩ := data_off hstep hi' (hog ▸ hoff)
      rw [hpend]
      simp [casts, saidBy]
    · by_cases hcast : e = .broadcast i
      · subst hcast
        obtain ⟨leaf', payload, hi', hp, -, -⟩ := broadcast_inv hstep
        obtain ⟨payload', -, -, hpend⟩ := broadcast_cases hstep
        rw [hpend, casts_broadcast hi' hp, hp]
        simp [saidBy]
      · obtain ⟨hpend, -, hnone⟩ := quiet_session hstep (fun payload he => hdata ⟨payload, he⟩) hcast
        rw [hpend, hnone, List.append_nil]
  · obtain ⟨old, hold, hog, hended⟩ := session_before hstep hoff hi hg
    obtain ⟨new, hread, hlen, hrefused, hover⟩ := h.read i old hold hog
    by_cases hdata : ∃ payload, e = .data i payload
    · obtain ⟨payload, rfl⟩ := hdata
      obtain ⟨leaf', hi', -⟩ := data_cases hstep
      obtain ⟨hleaf', hphase⟩ := RelayServer.sessionAt_eq_some hi'
      obtain rfl := Option.some.inj (hold.symm.trans hleaf')
      obtain ⟨hserver, -, hnew⟩ := data_off hstep hi' (hog ▸ hoff)
      -- It was in its loop, so this is the first payload that it reads.
      have hnil : new = [] := by
        by_contra hne
        obtain hp | hp := hover hne
        · rw [hphase] at hp
          cases hp
        · rw [hphase] at hp
          cases hp
      have hleaf : leaf = { old with phase := .leaving } := by
        rw [hserver, RelayServer.put] at hi
        dsimp only at hi
        rw [Function.update_self] at hi
        exact (Option.some.inj hi).symm
      refine ⟨[⟨⟨payload, i⟩, old.group, false⟩], ?_, Nat.le_refl 1, ?_, fun _ => ?_⟩
      · rw [hnew, hread, hnil, List.append_nil]
      · simp
      · rw [hleaf]
        exact .inl rfl
    · have hsame : y.1.readBy i = x.1.readBy i := by
        by_cases hcast : e = .broadcast i
        · subst hcast
          rw [readBy, readBy, broadcast_reports hstep]
        · exact (quiet_session hstep (fun payload he => hdata ⟨payload, he⟩) hcast).2.1
      exact ⟨new, hsame.trans hread, hlen, hrefused, fun hne => hended (hover hne)⟩

/-- What had joined in `u` has joined since. -/
def JoinedSince (u t : Traffic) : Prop := ∀ j leaf, u.Joined j leaf → ∃ phase, t.Joined j { leaf with phase := phase }

theorem JoinedSince.step {e : TrafficEvent} (h : JoinedSince u s) (hs : Traffic.step s e = some t) :
    JoinedSince u t := by
  intro j leaf hj
  obtain ⟨phase, hj'⟩ := h j leaf hj
  obtain ⟨phase', hj''⟩ := hj'.step hs
  exact ⟨phase', hj''⟩

theorem Deaf.step {e : TrafficEvent} (hsound : Sound s) (hsince : JoinedSince u s) (h : Deaf g u s)
    (hs : Traffic.step s e = some t) : Deaf g u t where
  members := by
    intro m hm leaf hj
    obtain hsame | ⟨e', he'⟩ := server_step hs
    · rw [hsame] at hm
      exact h.members m hm leaf hj
    · obtain hold | hnew := RelayServer.member_step he' hm
      · exact h.members m hold leaf hj
      · obtain ⟨phase, hjoined, hphase⟩ := hsince m.tx leaf hj
        obtain ⟨leaf', hleaf'⟩ := Option.isSome_iff_exists.mp hnew
        obtain ⟨hleaf', hallowed⟩ := RelayServer.sessionAt_eq_some hleaf'
        obtain rfl := Option.some.inj (hjoined.symm.trans hleaf')
        exact hphase hallowed
  intake := by
    intro j leaf hj hg
    rw [← h.intake j leaf hj hg]
    by_cases hcast : ∃ i, e = .broadcast i
    · obtain ⟨i, rfl⟩ := hcast
      obtain ⟨sender, payload, hb⟩ := broadcast_step hsound hs
      rw [Traffic.intake, Traffic.intake, hb.written, hb.queue j, if_neg]
      -- A member with the queue of session `j` would be one of the group.
      rintro ⟨hrec, -⟩
      obtain ⟨leaf', hj', hg', -⟩ := hsound.receives hrec
      obtain ⟨phase, hj'', -⟩ := hsince j leaf hj
      obtain rfl := Option.some.inj (hj''.symm.trans hj'.1)
      obtain ⟨m, hm, -, rfl⟩ := hrec
      rw [← hg', hg] at hm
      exact h.members m hm leaf hj
    · exact quiet_intake hs (fun i he => hcast ⟨i, he⟩) j

/-! ### Whole runs -/

theorem run_off {es : List TrafficEvent} (hsound : Sound x.1) (hoff : x.1.enabled g = false)
    (h : WindsDown g s x) (hes : ∀ e ∈ es, KeepsOff g e)
    (hr : exec (recorded Traffic.step casts) x es = some y) :
    Sound y.1 ∧ y.1.enabled g = false ∧ WindsDown g s y :=
  exec_guarded (I := fun x => Sound x.1 ∧ x.1.enabled g = false ∧ WindsDown g s x)
    (fun _ _ _ hx he hs => ⟨hx.1.step (recorded_eq_some hs).1, enabled_step (recorded_eq_some hs).1 hx.2.1 he,
      hx.2.2.step hx.2.1 hs⟩)
    ⟨hsound, hoff, h⟩ (guarded_of_forall _ hes x) hr

theorem run_deaf {es : List TrafficEvent} (hsound : Sound x.1) (hsince : JoinedSince u x.1) (h : Deaf g u x.1)
    (hr : exec (recorded Traffic.step casts) x es = some y) : Deaf g u y.1 :=
  (exec_invariant (I := fun x => Sound x.1 ∧ JoinedSince u x.1 ∧ Deaf g u x.1)
    (fun _ _ _ hx hs => ⟨hx.1.step (recorded_eq_some hs).1, hx.2.1.step (recorded_eq_some hs).1,
      hx.2.2.step hx.1 hx.2.1 (recorded_eq_some hs).1⟩)
    ⟨hsound, hsince, h⟩ hr).2.2

/-- After the kick the group has no member, and nobody has got anything since. -/
theorem deaf_kickGroup (hs : step s (.server (.kickGroup g)) = some u) : Deaf g u u where
  members := by
    intro m hm
    obtain rfl := Option.some.inj hs
    have hnil : (s.server.kickGroup g).rooms.members g = [] := RelayServer.members_kickGroup s.server g
    exact absurd (hnil ▸ hm) List.not_mem_nil
  intake := fun _ _ _ _ => rfl

/-- `disable` or `deny` of a group saves `file'`, some time later kicks the group, and nobody enables it again.
From then on its sessions broadcast what they had read before and nothing else, the next payload they read ends
their loop, and what had joined before the kick gets nothing any more; whatever else happens in between. -/
theorem revoked [Sha256] [Base64] {c : AdminCommand} {file file' : GroupsFile} {want : String → Option GroupRec}
    {groupId : String} {s₀ : Traffic} {es₀ es₁ es₂ : List TrafficEvent} (hb : Boots s₀)
    (h₀ : exec step s₀ es₀ = some s) (hfile : Lists file want) (hc : c.Revokes groupId)
    (hrun : c.run file = .ok file') (hg : (parseGroupId groupId.toList).map hexEncode = .ok g)
    (hoff₁ : ∀ e ∈ es₁, KeepsOff g e) (hoff₂ : ∀ e ∈ es₂, KeepsOff g e)
    (hr : exec (recorded step casts) (s, [])
      (.allowlist file'.allows :: es₁ ++ .server (.kickGroup g) :: es₂) = some y) :
    (∀ id, id ≠ g → file'.allows id = file.allows id) ∧ WindsDown g s y ∧
      ∃ u, exec step s (.allowlist file'.allows :: es₁ ++ [.server (.kickGroup g)]) = some u ∧
        Deaf g u y.1 := by
  obtain ⟨gid, hgid, hoff, hothers⟩ := revokes_allows hfile hc hrun
  rw [hgid] at hg
  obtain rfl := Except.ok.inj hg
  have hsound : Sound s := exec_invariant (fun _ _ _ h hs => h.step hs) hb.sound h₀
  -- The command saves: nothing but the allowlist changes.
  have hsaved : recorded step casts (s, []) (.allowlist file'.allows) =
      some ({ s with allow := file'.allows }, []) := rfl
  have hsound' : Sound { s with allow := file'.allows } := hsound.step (recorded_eq_some hsaved).1
  have hstart : WindsDown (hexEncode gid) s ({ s with allow := file'.allows }, []) :=
    ⟨fun i leaf hi hg => ⟨leaf, hi, hg⟩, fun _ _ _ _ => rfl,
      fun i leaf _ _ => ⟨[], (List.append_nil _).symm, Nat.zero_le 1, by simp, by simp⟩⟩
  rw [List.cons_append, exec_cons_of_step _ hsaved, exec_append] at hr
  obtain ⟨v, hv, hr⟩ := Option.bind_eq_some_iff.mp hr
  obtain ⟨u, hu, hr⟩ := exec_cons_eq_some _ hr
  have hoff' : enabled { s with allow := file'.allows } (hexEncode gid) = false := hoff
  obtain ⟨hsoundv, hoffv, hv'⟩ := run_off hsound' hoff' hstart hoff₁ hv
  have hkick := (recorded_eq_some hu).1
  have hku : exec (recorded step casts) v [.server (.kickGroup (hexEncode gid))] = some u := by
    rw [exec_cons_of_step _ hu]
    rfl
  obtain ⟨hsoundu, hoffu, hu'⟩ := run_off hsoundv hoffv hv' (by simp [KeepsOff]) hku
  obtain ⟨-, -, hy⟩ := run_off hsoundu hoffu hu' hoff₂ hr
  refine ⟨hothers, hy, u.1, ?_, run_deaf hsoundu ?_ (deaf_kickGroup hkick) hr⟩
  · rw [List.cons_append, exec_cons_of_step step (recorded_eq_some hsaved).1, exec_append,
      exec_of_recorded hv, Option.bind_some, exec_cons_of_step step hkick]
    rfl
  · exact fun j leaf hj => ⟨leaf.phase, hj⟩

end Traffic
/-! ### A group that is disabled under way -/

/-- `phone` and `laptop` have joined, `tablet` is about to, and `phone` has sent a payload. -/
def threeDevices : List TrafficEvent :=
  [.allowlist fun g => if g = zeroGroup then some true else none,
    .server (.allow 0 zeroGroup "phone" "pixel" "10.0.0.7:5000"), .server (.join 0),
    .server (.joinAck 0 true), .server (.allow 1 zeroGroup "laptop" "think" "10.0.0.8:5000"),
    .server (.join 1), .server (.joinAck 1 true),
    .server (.allow 2 zeroGroup "tablet" "tab" "10.0.0.9:5000"), .data 0 [1]]

def oneGroup (enabled : Bool) : GroupsFile := ⟨[⟨zeroGroup, "", enabled⟩]⟩

theorem oneGroup_lists :
    Lists (oneGroup true) fun id => if id = zeroGroup then some ⟨zeroGroup, "", true⟩ else none where
  nodup := by simp [oneGroup]
  mem := by
    intro id r
    rw [oneGroup, List.mem_singleton, Option.ite_none_right_eq_some, Option.some.injEq]
    constructor
    · rintro ⟨rfl, rfl⟩
      exact ⟨rfl, rfl⟩
    · rintro ⟨rfl, rfl⟩
      exact ⟨rfl, rfl⟩

/-- `phone` broadcasts what it has read before the kick; `tablet` registers after it; and the next payload of
`phone` is refused. -/
theorem threeDevices_revoked :
    letI := zeroSecretSha256
    letI := sampleBase64
    ∃ s y, exec Traffic.step emptyTraffic threeDevices = some s ∧
      exec (recorded Traffic.step Traffic.casts) (s, []) (.allowlist (oneGroup false).allows ::
        [.broadcast 0] ++ .server (.kickGroup zeroGroup) :: [.server (.join 2), .data 0 [2]]) = some y ∧
      y.1.server.rooms.members zeroGroup = [⟨"tablet", "tab", "10.0.0.9:5000", 2, 2⟩] ∧
      (y.1.readBy 0).map Report.enabled = [true, false] ∧ Traffic.WindsDown zeroGroup s y := by
  let _ := zeroSecretSha256
  let _ := sampleBase64
  obtain ⟨s, hs⟩ : ∃ s, exec Traffic.step emptyTraffic threeDevices = some s := ⟨_, rfl⟩
  obtain ⟨y, hy⟩ : ∃ y, exec (recorded Traffic.step Traffic.casts) (s, []) (.allowlist (oneGroup false).allows ::
      [.broadcast 0] ++ .server (.kickGroup zeroGroup) :: [.server (.join 2), .data 0 [2]]) = some y := by
    obtain rfl := Option.some.inj hs
    exact ⟨_, rfl⟩
  have hc : (AdminCommand.disable zeroGroup).Revokes zeroGroup := .inl rfl
  have hrun : (AdminCommand.disable zeroGroup).run (oneGroup true) = .ok (oneGroup false) := by decide +kernel
  have h := Traffic.revoked emptyTraffic_boots hs oneGroup_lists hc hrun (by decide +kernel)
    (by simp [Traffic.KeepsOff]) (by simp [Traffic.KeepsOff]) hy
  refine ⟨s, y, hs, hy, ?_, ?_, h.2.1⟩
  · obtain rfl := Option.some.inj hs
    obtain rfl := Option.some.inj hy
    rfl
  · obtain rfl := Option.some.inj hs
    obtain rfl := Option.some.inj hy
    rfl

end Zsync
