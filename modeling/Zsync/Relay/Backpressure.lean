import Zsync.Relay.Isolation

/-! # Members that are slower than the others send

A session has a queue of 16 payloads. When the queue is full, a broadcast passes the member by: what the
member gets last is then the last payload that found room.

* `offers` : what a broadcast offers to each of its members, whether there is room or not.
* `DrainsToNewest` : whatever the session does until its queue is empty, the last payload it has written
  is the last one that was offered to it.
* `newest_iff_fits` : that is so in all states of a run exactly when no broadcast meets a full queue
  (unless the same payload is the last one in it).
-/

namespace Zsync
set_option autoImplicit false
set_option maxHeartbeats 250000
open Foundations

namespace RelayServer

/-- Session `j` has joined and is going to write, or does, what its queue holds. -/
def Served (r : RelayServer) (j : ℕ) : Prop :=
  (r.sessionAt j .joined).isSome ∨ (r.sessionAt j .looping).isSome

instance (r : RelayServer) (j : ℕ) : Decidable (r.Served j) := inferInstanceAs (Decidable (_ ∨ _))

theorem served_iff {r : RelayServer} {j : ℕ} : r.Served j ↔
    ∃ leaf, r.sessions j = some leaf ∧ (leaf.phase = .joined ∨ leaf.phase = .looping) := by
  unfold Served sessionAt
  cases r.sessions j with
  | none => simp
  | some leaf => simp [Option.filter]

/-- A session that is served was served before, or has just joined. -/
theorem served_step {r t : RelayServer} {e : RelayEvent} (hs : step r e = some t) {j : ℕ}
    (h : t.Served j) : r.Served j ∨ (r.sessionAt j .allowed).isSome := by
  obtain ⟨leaf, hj, hphase⟩ := served_iff.mp h
  -- What is not session `i` is as it was.
  have other : ∀ {i : ℕ} {new : Leaf}, j ≠ i →
      Function.update r.sessions i (some new) j = some leaf → r.Served j := by
    intro i new hji hu
    exact served_iff.mpr ⟨leaf, (Function.update_of_ne hji _ _).symm.trans hu, hphase⟩
  have self : ∀ {i : ℕ} {new : Leaf}, j = i →
      Function.update r.sessions i (some new) j = some leaf → new = leaf := by
    intro i new hji hu
    rw [hji, Function.update_self] at hu
    exact Option.some.inj hu
  cases e with
  | allow i group device hostname peer =>
    simp only [step] at hs
    split_ifs at hs
    obtain rfl := Option.some.inj hs
    by_cases hji : j = i
    · obtain rfl := self hji hj
      simp at hphase
    · exact .inl (other hji hj)
  | join i =>
    obtain ⟨old, hi, rfl⟩ := Option.map_eq_some_iff.mp hs
    by_cases hji : j = i
    · exact .inr (by rw [hji, hi]; rfl)
    · exact .inl (other hji hj)
  | joinAck i ok =>
    obtain ⟨old, hi, rfl⟩ := Option.map_eq_some_iff.mp hs
    by_cases hji : j = i
    · exact .inl (.inl (by rw [hji, hi]; rfl))
    · exact .inl (other hji hj)
  | finish i =>
    obtain ⟨old, hi, rfl⟩ := Option.map_eq_some_iff.mp hs
    by_cases hji : j = i
    · obtain rfl := self hji hj
      simp at hphase
    · exact .inl (other hji hj)
  | leave i =>
    obtain ⟨old, hi, rfl⟩ := Option.map_eq_some_iff.mp hs
    by_cases hji : j = i
    · obtain rfl := self hji hj
      simp at hphase
    · exact .inl (other hji hj)
  | kick group device =>
    obtain rfl := Option.some.inj hs
    exact .inl (served_iff.mpr ⟨leaf, hj, hphase⟩)
  | kickGroup group =>
    obtain rfl := Option.some.inj hs
    exact .inl (served_iff.mpr ⟨leaf, hj, hphase⟩)

end RelayServer

namespace Traffic
variable {s t : Traffic}

/-! ## What is offered -/

/-- What a step offers, and to the queue of which session. -/
def offers (s : Traffic) (e : TrafficEvent) (_ : Traffic) : List (ℕ × Bytes) :=
  match e with
  | .broadcast i =>
    match s.server.sessionAt i .looping, s.pending i with
    | some leaf, some payload =>
      ((s.server.rooms.members leaf.group).filter fun m => m.deviceId ≠ leaf.device).map
        fun m => (m.tx, payload)
    | _, _ => []
  | _ => []

def lastOffered (j : ℕ) (history : List (ℕ × Bytes)) : Option Bytes :=
  (history.filter fun o => o.1 = j).getLast?.map Prod.snd

def lastWritten (s : Traffic) (j : ℕ) : Option Bytes := (s.written j).getLast?.map Parcel.payload

/-- Everything that session `j` has taken or will take from its queue. -/
def intake (s : Traffic) (j : ℕ) : List Parcel := s.written j ++ s.queue j

/-- What session `j` does by itself, as long as its connection holds. -/
def ofSession (j : ℕ) (e : TrafficEvent) : Prop :=
  e = .server (.joinAck j true) ∨ e = .broadcast j ∨ e = .deliver j true

/-- Once session `j` has written everything queued for it, it has written the last payload that was
broadcast to it. -/
def DrainsToNewest (j : ℕ) (x : Traffic × List (ℕ × Bytes)) : Prop :=
  ∀ es y, (∀ e ∈ es, ofSession j e) → exec (recorded step offers) x es = some y →
    (y.1.server.sessionAt j .looping).isSome → y.1.queue j = [] →
      y.1.lastWritten j = lastOffered j y.2

/-- No broadcast meets a full queue, unless it ends with the same payload. -/
def Fits (s : Traffic) : TrafficEvent → Prop
  | .broadcast i => ∀ leaf ∈ s.server.sessionAt i .looping, ∀ payload ∈ s.pending i,
      ∀ m ∈ s.server.rooms.members leaf.group, m.deviceId ≠ leaf.device → s.server.Served m.tx →
        queueCap ≤ (s.queue m.tx).length → (s.queue m.tx).getLast?.map Parcel.payload = some payload
  | _ => True

instance (s : Traffic) : ∀ e, Decidable (Fits s e)
  | .broadcast _ => inferInstanceAs (Decidable (∀ leaf ∈ _, _))
  | .server _ | .allowlist _ | .data _ _ | .deliver _ _ => inferInstanceAs (Decidable True)

/-! ### One step -/

/-- Without a broadcast, what a session has taken or will take stays what it is. -/
theorem quiet_intake {e : TrafficEvent} (hs : step s e = some t) (he : ∀ i, e ≠ .broadcast i) (j : ℕ) :
    t.intake j = s.intake j := by
  cases e with
  | server e =>
    simp only [step] at hs
    split_ifs at hs
    obtain ⟨server, -, rfl⟩ := Option.map_eq_some_iff.mp hs
    rfl
  | allowlist allow =>
    obtain rfl := Option.some.inj hs
    rfl
  | data i payload =>
    simp only [step] at hs
    split at hs
    · split_ifs at hs
      · obtain rfl := Option.some.inj hs
        rfl
      · obtain rfl := Option.some.inj hs
        rfl
    · cases hs
  | broadcast i => exact absurd rfl (he i)
  | deliver i ok =>
    simp only [step] at hs
    split at hs
    · next leaf p rest hi hp hq =>
      obtain rfl := Option.some.inj hs
      by_cases hji : j = i
      · subst hji
        simp [intake, hq]
      · simp [intake, Function.update_of_ne hji]
    · cases hs

theorem quiet_offers {e : TrafficEvent} (he : ∀ i, e ≠ .broadcast i) : offers s e t = [] := by
  cases e with
  | broadcast i => exact absurd rfl (he i)
  | _ => rfl

theorem served_step {e : TrafficEvent} (hs : step s e = some t) {j : ℕ} (h : t.server.Served j) :
    s.server.Served j ∨ (s.server.sessionAt j .allowed).isSome := by
  obtain hsame | ⟨e', he'⟩ := server_step hs
  · exact .inl (hsame ▸ h)
  · exact RelayServer.served_step he' h

/-- What a broadcast of session `i` offers to session `j`. -/
theorem broadcast_offers {i : ℕ} {leaf : Leaf} {payload : Bytes}
    (hi : s.server.sessionAt i .looping = some leaf) (hp : s.pending i = some payload) :
    offers s (.broadcast i) t =
      ((s.server.rooms.members leaf.group).filter fun m => m.deviceId ≠ leaf.device).map
        fun m => (m.tx, payload) := by
  simp only [offers, hi, hp]

theorem lastOffered_quiet {j : ℕ} {history new : List (ℕ × Bytes)} (h : ∀ o ∈ new, o.1 ≠ j) :
    lastOffered j (history ++ new) = lastOffered j history := by
  have hnone : new.filter (fun o => o.1 = j) = [] :=
    List.filter_eq_nil_iff.mpr fun o ho => by simpa using h o ho
  rw [lastOffered, List.filter_append, hnone, List.append_nil, lastOffered]

theorem lastOffered_new {j : ℕ} {payload : Bytes} {history new : List (ℕ × Bytes)}
    (hnew : ∀ o ∈ new, o.2 = payload) {o : ℕ × Bytes} (ho : o ∈ new) (hj : o.1 = j) :
    lastOffered j (history ++ new) = some payload := by
  have hne : new.filter (fun o => o.1 = j) ≠ [] :=
    List.ne_nil_of_mem (List.mem_filter.mpr ⟨ho, by simpa using hj⟩)
  rw [lastOffered, List.filter_append, List.getLast?_append_of_ne_nil _ hne,
    List.getLast?_eq_some_getLast hne, Option.map_some,
    hnew _ (List.mem_of_mem_filter (List.getLast_mem hne))]

/-! ### The invariant -/

/-- Of a session that has not joined, nothing is recorded. -/
structure Tracked (x : Traffic × List (ℕ × Bytes)) : Prop where
  sound : Sound x.1
  joined : ∀ o ∈ x.2, ∃ leaf, x.1.Joined o.1 leaf

/-- What session `j` has taken or will take ends with the last payload offered to it. -/
def Newest (j : ℕ) (x : Traffic × List (ℕ × Bytes)) : Prop :=
  x.1.server.Served j → (x.1.intake j).getLast?.map Parcel.payload = lastOffered j x.2

variable {x y : Traffic × List (ℕ × Bytes)}

theorem Tracked.step {e : TrafficEvent} (h : Tracked x) (hs : recorded Traffic.step offers x e = some y) :
    Tracked y := by
  obtain ⟨hstep, hh⟩ := recorded_eq_some hs
  refine ⟨h.sound.step hstep, fun o ho => ?_⟩
  rw [hh] at ho
  have hold : ∃ leaf, x.1.Joined o.1 leaf := by
    obtain ho | ho := List.mem_append.mp ho
    · exact h.joined o ho
    · cases e with
      | broadcast i =>
        simp only [offers] at ho
        split at ho
        · next leaf payload hi hp =>
          obtain ⟨m, hm, rfl⟩ := List.mem_map.mp ho
          obtain ⟨hm, hne⟩ := List.mem_filter.mp hm
          obtain ⟨target, hj, -, -⟩ := h.sound.receives ⟨m, hm, of_decide_eq_true hne, rfl⟩
          exact ⟨target, hj⟩
        · exact absurd ho List.not_mem_nil
      | _ => exact absurd ho List.not_mem_nil
  obtain ⟨leaf, hj⟩ := hold
  obtain ⟨phase, hj'⟩ := hj.step hstep
  exact ⟨_, hj'⟩

/-- A session that has just joined has got nothing yet. -/
theorem Tracked.unstarted (h : Tracked x) {j : ℕ} (hj : (x.1.server.sessionAt j .allowed).isSome) :
    x.1.intake j = [] ∧ lastOffered j x.2 = none := by
  obtain ⟨leaf, hleaf⟩ := Option.isSome_iff_exists.mp hj
  obtain ⟨hleaf, hphase⟩ := RelayServer.sessionAt_eq_some hleaf
  have hnot : ∀ leaf', ¬ x.1.Joined j leaf' := by
    rintro leaf' ⟨hs, hp⟩
    obtain rfl := Option.some.inj (hleaf.symm.trans hs)
    exact hp hphase
  constructor
  · refine List.eq_nil_iff_forall_not_mem.mpr fun p hp => ?_
    obtain ⟨leaf', source, hjoined, -⟩ := h.sound.carried j p (List.mem_append.mp hp).symm
    exact hnot leaf' hjoined
  · have hnone : x.2.filter (fun o => o.1 = j) = [] := by
      refine List.filter_eq_nil_iff.mpr fun o ho => ?_
      obtain ⟨leaf', hjoined⟩ := h.joined o ho
      simp only [decide_eq_true_eq]
      rintro rfl
      exact hnot leaf' hjoined
    rw [lastOffered, hnone]
    rfl

/-- A step that offers nothing to session `j` and leaves what it takes keeps `Newest`. -/
theorem Newest.quiet {e : TrafficEvent} {j : ℕ} (hx : Tracked x) (h : Newest j x)
    (hs : recorded Traffic.step offers x e = some y) (hintake : y.1.intake j = x.1.intake j)
    (hoffers : ∀ o ∈ offers x.1 e y.1, o.1 ≠ j) : Newest j y := by
  obtain ⟨hstep, hh⟩ := recorded_eq_some hs
  intro hserved
  rw [hintake, hh, lastOffered_quiet hoffers]
  obtain hold | hnew := served_step hstep hserved
  · exact h hold
  · obtain ⟨hempty, hnone⟩ := hx.unstarted hnew
    rw [hempty, hnone]
    rfl

theorem served_hasRoom {j : ℕ} (h : s.server.Served j) :
    s.hasRoom j = true ↔ (s.queue j).length < queueCap := by
  obtain ⟨leaf, hj, hphase⟩ := RelayServer.served_iff.mp h
  have hne : leaf.phase ≠ .done := by
    intro hdone
    rw [hdone] at hphase
    simp at hphase
  simp [hasRoom, hj, hne]

/-- What a broadcast reads, and that it changes neither sessions nor what they have written. -/
theorem broadcast_inv {i : ℕ} (hs : step s (.broadcast i) = some t) : ∃ leaf payload,
    s.server.sessionAt i .looping = some leaf ∧ s.pending i = some payload ∧
      t.server = s.server ∧ t.written = s.written := by
  simp only [step] at hs
  split at hs
  · next leaf payload hi hp =>
    obtain rfl := Option.some.inj hs
    refine ⟨leaf, payload, hi, hp, ?_, ?_⟩
    · rw [broadcast_eq]
    · rw [broadcast_eq]
  · cases hs

/-- What a broadcast does to the session behind one of the other members: it takes the payload, or has
no room and keeps what it has. -/
theorem Newest.broadcast_iff {i j : ℕ} {leaf : Leaf} {payload : Bytes} (hx : Tracked x)
    (hs : recorded Traffic.step offers x (.broadcast i) = some y)
    (hi : x.1.server.sessionAt i .looping = some leaf) (hp : x.1.pending i = some payload)
    (hrec : Receives (x.1.server.rooms.members leaf.group) leaf.device j) (hserved : x.1.server.Served j) :
    Newest j y ↔ (queueCap ≤ (x.1.queue j).length →
      (x.1.queue j).getLast?.map Parcel.payload = some payload) := by
  obtain ⟨hstep, hh⟩ := recorded_eq_some hs
  obtain ⟨leaf', payload', hb⟩ := broadcast_step hx.sound hstep
  obtain rfl := Option.some.inj ((RelayServer.sessionAt_eq_some hi).1.symm.trans hb.session)
  obtain rfl := Option.some.inj (hp.symm.trans hb.pending)
  obtain ⟨-, -, -, -, hserver, hwritten⟩ := broadcast_inv hstep
  have hlast : lastOffered j y.2 = some payload := by
    obtain ⟨m, hm, hne, hmj⟩ := hrec
    rw [hh, broadcast_offers hi hp]
    refine lastOffered_new ?_ (List.mem_map.mpr ⟨m, ?_, rfl⟩) hmj
    · intro o ho
      obtain ⟨m', -, rfl⟩ := List.mem_map.mp ho
      rfl
    · exact List.mem_filter.mpr ⟨hm, by simpa using hne⟩
  have hy : y.1.server.Served j := hserver ▸ hserved
  have hq := hb.queue j
  by_cases hroom : (x.1.queue j).length < queueCap
  · rw [if_pos ⟨hrec, (served_hasRoom hserved).mpr hroom⟩] at hq
    refine iff_of_true (fun _ => ?_) fun hfull => absurd hfull (Nat.not_le_of_lt hroom)
    rw [hlast, intake, hq, ← List.append_assoc, List.getLast?_concat]
    rfl
  · rw [if_neg fun h => hroom ((served_hasRoom hserved).mp h.2)] at hq
    have hne : x.1.queue j ≠ [] := by
      intro hnil
      rw [hnil] at hroom
      exact hroom (by decide)
    have hin : (y.1.intake j).getLast? = (x.1.queue j).getLast? := by
      rw [intake, hq, List.getLast?_append_of_ne_nil _ hne]
    constructor
    · intro h _
      rw [← hin, h hy, hlast]
    · intro h _
      rw [hin, h (Nat.le_of_not_lt hroom), hlast]

theorem newest_broadcast_iff {i : ℕ} (hx : Tracked x) (hnew : ∀ j, Newest j x)
    (hs : recorded Traffic.step offers x (.broadcast i) = some y) :
    (∀ j, Newest j y) ↔ Fits x.1 (.broadcast i) := by
  obtain ⟨hstep, hh⟩ := recorded_eq_some hs
  obtain ⟨leaf, payload, hi, hp, hserver, hwritten⟩ := broadcast_inv hstep
  constructor
  · intro h leaf' hleaf' payload' hpayload' m hm hne hserved
    obtain rfl := Option.some.inj (hi.symm.trans hleaf')
    obtain rfl := Option.some.inj (hp.symm.trans hpayload')
    exact (Newest.broadcast_iff hx hs hi hp ⟨m, hm, hne, rfl⟩ hserved).mp (h m.tx)
  · intro h j
    by_cases hrec : Receives (x.1.server.rooms.members leaf.group) leaf.device j
    · intro hy
      have hserved : x.1.server.Served j := hserver ▸ hy
      refine (Newest.broadcast_iff hx hs hi hp hrec hserved).mpr ?_ hy
      obtain ⟨m, hm, hne, rfl⟩ := hrec
      exact h leaf hi payload hp m hm hne hserved
    · refine (hnew j).quiet hx hs ?_ ?_
      · obtain ⟨leaf', payload', hb⟩ := broadcast_step hx.sound hstep
        obtain rfl := Option.some.inj ((RelayServer.sessionAt_eq_some hi).1.symm.trans hb.session)
        rw [intake, intake, hwritten, hb.queue j, if_neg fun h => hrec h.1]
      · intro o ho hoj
        rw [broadcast_offers hi hp] at ho
        obtain ⟨m, hm, rfl⟩ := List.mem_map.mp ho
        obtain ⟨hm, hne⟩ := List.mem_filter.mp hm
        exact hrec ⟨m, hm, of_decide_eq_true hne, hoj⟩

theorem newest_step_iff {e : TrafficEvent} (hx : Tracked x) (hnew : ∀ j, Newest j x)
    (hs : recorded Traffic.step offers x e = some y) : (∀ j, Newest j y) ↔ Fits x.1 e := by
  have quiet : (∀ i, e ≠ .broadcast i) → ∀ j, Newest j y := by
    intro he j
    refine (hnew j).quiet hx hs (quiet_intake (recorded_eq_some hs).1 he j) ?_
    rw [quiet_offers he]
    exact fun o ho => absurd ho List.not_mem_nil
  cases e with
  | broadcast i => exact newest_broadcast_iff hx hnew hs
  | _ => exact iff_of_true (quiet fun _ => by simp) trivial

/-! ### Draining -/

theorem ofSession_served {e : TrafficEvent} {j : ℕ} (he : ofSession j e) (hs : step s e = some t) :
    s.server.Served j := by
  obtain rfl | rfl | rfl := he
  · simp only [step] at hs
    split_ifs at hs
    obtain ⟨server, hr, -⟩ := Option.map_eq_some_iff.mp hs
    obtain ⟨leaf, hj, -⟩ := Option.map_eq_some_iff.mp hr
    exact .inl (by rw [hj]; rfl)
  · obtain ⟨leaf, -, hj, -⟩ := broadcast_inv hs
    exact .inr (by rw [hj]; rfl)
  · simp only [step] at hs
    split at hs
    · next leaf p rest hj hp hq => exact .inr (by rw [hj]; rfl)
    · cases hs

/-- A session never offers anything to itself. -/
theorem ofSession_offers {e : TrafficEvent} {j : ℕ} (h : Sound s) (he : ofSession j e) :
    ∀ o ∈ offers s e t, o.1 ≠ j := by
  intro o ho hoj
  obtain rfl | rfl | rfl := he
  · exact absurd ho List.not_mem_nil
  · simp only [offers] at ho
    split at ho
    · next leaf payload hi hp =>
      obtain ⟨m, hm, rfl⟩ := List.mem_map.mp ho
      obtain ⟨hm, hne⟩ := List.mem_filter.mp hm
      obtain ⟨leaf', hj, -, hd⟩ := h.receives ⟨m, hm, of_decide_eq_true hne, hoj⟩
      obtain rfl := Option.some.inj ((RelayServer.sessionAt_eq_some hi).1.symm.trans hj.1)
      exact hd rfl
    · exact absurd ho List.not_mem_nil
  · exact absurd ho List.not_mem_nil

theorem ofSession_intake {e : TrafficEvent} {j : ℕ} (h : Sound s) (he : ofSession j e)
    (hs : step s e = some t) : t.intake j = s.intake j := by
  obtain rfl | rfl | rfl := he
  · exact quiet_intake hs (by simp) j
  · obtain ⟨leaf, payload, hb⟩ := broadcast_step h hs
    rw [intake, intake, hb.written, hb.queue j, if_neg]
    rintro ⟨hrec, -⟩
    obtain ⟨leaf', hj, -, hd⟩ := h.receives hrec
    obtain rfl := Option.some.inj (hb.session.symm.trans hj.1)
    exact hd rfl
  · exact quiet_intake hs (by simp) j

/-- While session `j` drains its queue, what it takes and what was offered to it stay. -/
theorem drain_keeps {es : List TrafficEvent} {j : ℕ} (hx : Tracked x) (hes : ∀ e ∈ es, ofSession j e)
    (hr : exec (recorded Traffic.step offers) x es = some y) :
    y.1.intake j = x.1.intake j ∧ lastOffered j y.2 = lastOffered j x.2 ∧
      (y.1.server.Served j → x.1.server.Served j) := by
  have hkeep := exec_guarded
    (I := fun z => Tracked z ∧ z.1.intake j = x.1.intake j ∧ lastOffered j z.2 = lastOffered j x.2 ∧
      (z.1.server.Served j → x.1.server.Served j))
    (fun z e w ⟨hz, hin, hoff, hserved⟩ he hs => by
      obtain ⟨hstep, hh⟩ := recorded_eq_some hs
      refine ⟨hz.step hs, (ofSession_intake hz.sound he hstep).trans hin, ?_, fun _ => ?_⟩
      · rw [hh, lastOffered_quiet (ofSession_offers hz.sound he), hoff]
      · exact hserved (ofSession_served he hstep))
    ⟨hx, rfl, rfl, id⟩ (guarded_of_forall _ hes x) hr
  exact hkeep.2

theorem recorded_of_step {e : TrafficEvent} (h : step x.1 e = some t) :
    recorded Traffic.step offers x e = some (t, x.2 ++ offers x.1 e t) := by
  rw [recorded, h]
  rfl

/-- A session that is in its loop and hands nothing on can empty its queue. -/
theorem drain_queue {j : ℕ} {q : List Parcel} (hloop : (x.1.server.sessionAt j .looping).isSome)
    (hpend : x.1.pending j = none) (hq : x.1.queue j = q) :
    ∃ es y, (∀ e ∈ es, ofSession j e) ∧ exec (recorded Traffic.step offers) x es = some y ∧
      (y.1.server.sessionAt j .looping).isSome ∧ y.1.queue j = [] := by
  induction q generalizing x with
  | nil => exact ⟨[], x, fun e he => absurd he List.not_mem_nil, rfl, hloop, hq⟩
  | cons p rest ih =>
    obtain ⟨leaf, hj⟩ := Option.isSome_iff_exists.mp hloop
    obtain ⟨t, hstep, hserver, hpending, hqueue⟩ : ∃ t, step x.1 (.deliver j true) = some t ∧
        t.server = x.1.server ∧ t.pending = x.1.pending ∧ t.queue j = rest := by
      refine ⟨{ x.1 with
        queue := Function.update x.1.queue j rest
        written := Function.update x.1.written j (x.1.written j ++ [p]) }, ?_, rfl, rfl, ?_⟩
      · simp only [step, hj, hpend, hq]
        rfl
      · exact Function.update_self _ _ _
    obtain ⟨es, y, hes, hr, hdone⟩ := @ih (t, x.2 ++ offers x.1 (.deliver j true) t)
      (by rw [hserver]; exact hloop) (by rw [hpending]; exact hpend) hqueue
    refine ⟨.deliver j true :: es, y, ?_, ?_, hdone⟩
    · exact List.forall_mem_cons.mpr ⟨.inr (.inr rfl), hes⟩
    · rw [exec_cons_of_step _ (recorded_of_step hstep)]
      exact hr

theorem drain_loop {j : ℕ} (hloop : (x.1.server.sessionAt j .looping).isSome) :
    ∃ es y, (∀ e ∈ es, ofSession j e) ∧ exec (recorded Traffic.step offers) x es = some y ∧
      (y.1.server.sessionAt j .looping).isSome ∧ y.1.queue j = [] := by
  cases hpend : x.1.pending j with
  | none => exact drain_queue hloop hpend rfl
  | some payload =>
    -- What it has read is handed on first.
    obtain ⟨leaf, hj⟩ := Option.isSome_iff_exists.mp hloop
    obtain ⟨t, hstep, hserver, hpending⟩ : ∃ t, step x.1 (.broadcast j) = some t ∧
        t.server = x.1.server ∧ t.pending j = none := by
      simp only [step, hj, hpend]
      refine ⟨_, rfl, ?_, ?_⟩
      · rw [broadcast_eq]
      · rw [broadcast_eq]
        exact Function.update_self _ _ _
    obtain ⟨es, y, hes, hr, hdone⟩ := @drain_queue (t, x.2 ++ offers x.1 (.broadcast j) t) j _
      (by rw [hserver]; exact hloop) hpending rfl
    refine ⟨.broadcast j :: es, y, ?_, ?_, hdone⟩
    · exact List.forall_mem_cons.mpr ⟨.inr (.inl rfl), hes⟩
    · rw [exec_cons_of_step _ (recorded_of_step hstep)]
      exact hr

theorem drain_exists {j : ℕ} (h : x.1.server.Served j) :
    ∃ es y, (∀ e ∈ es, ofSession j e) ∧ exec (recorded Traffic.step offers) x es = some y ∧
      (y.1.server.sessionAt j .looping).isSome ∧ y.1.queue j = [] := by
  obtain hjoined | hloop := h
  · obtain ⟨leaf, hj⟩ := Option.isSome_iff_exists.mp hjoined
    obtain ⟨t, hstep, hlooping⟩ : ∃ t, step x.1 (.server (.joinAck j true)) = some t ∧
        (t.server.sessionAt j .looping).isSome := by
      simp only [step, permits, RelayServer.step, hj]
      refine ⟨_, rfl, ?_⟩
      simp [RelayServer.sessionAt, RelayServer.put]
    obtain ⟨es, y, hes, hr, hdone⟩ :=
      @drain_loop (t, x.2 ++ offers x.1 (.server (.joinAck j true)) t) j hlooping
    refine ⟨.server (.joinAck j true) :: es, y, ?_, ?_, hdone⟩
    · exact List.forall_mem_cons.mpr ⟨.inl rfl, hes⟩
    · rw [exec_cons_of_step _ (recorded_of_step hstep)]
      exact hr
  · exact drain_loop hloop

theorem drainsToNewest_iff {j : ℕ} (hx : Tracked x) : DrainsToNewest j x ↔ Newest j x := by
  have drained : ∀ {y : Traffic × List (ℕ × Bytes)}, y.1.queue j = [] →
      y.1.lastWritten j = (y.1.intake j).getLast?.map Parcel.payload := by
    intro y hq
    rw [lastWritten, intake, hq, List.append_nil]
  constructor
  · intro h hserved
    obtain ⟨es, y, hes, hr, hloop, hq⟩ := drain_exists hserved
    obtain ⟨hintake, hoffered, -⟩ := drain_keeps hx hes hr
    rw [← hintake, ← hoffered, ← drained hq]
    exact h es y hes hr hloop hq
  · intro h es y hes hr hloop hq
    obtain ⟨hintake, hoffered, hserved⟩ := drain_keeps hx hes hr
    rw [drained hq, hintake, hoffered]
    exact h (hserved (.inr hloop))

/-! ### Whole runs -/

theorem Boots.tracked (h : Boots s) : Tracked (s, []) :=
  ⟨h.sound, fun _ ho => absurd ho List.not_mem_nil⟩

/-- Whatever the schedule, each session that empties its queue has written the last payload that was
broadcast to it, exactly when no broadcast of the run meets a full queue. -/
theorem newest_iff_fits {es : List TrafficEvent} (hb : Boots s)
    (hrun : (exec (recorded Traffic.step offers) (s, []) es).isSome) :
    Along (recorded Traffic.step offers) (fun x => ∀ j, DrainsToNewest j x) (s, []) es ↔
      Guarded (recorded Traffic.step offers) (fun x => Fits x.1) (s, []) es := by
  refine along_iff_guarded (I := Tracked) (fun _ _ _ hx hs => hx.step hs) ?_ hb.tracked ?_ hrun
  · intro x e y hx hnew hs
    have hnew' : ∀ j, Newest j x := fun j => (drainsToNewest_iff hx).mp (hnew j)
    rw [← newest_step_iff hx hnew' hs]
    exact forall_congr' fun j => drainsToNewest_iff (hx.step hs)
  · intro j
    refine (drainsToNewest_iff hb.tracked).mpr fun hserved => ?_
    obtain ⟨leaf, hj, -⟩ := RelayServer.served_iff.mp hserved
    rw [hb.server.sessions j] at hj
    cases hj

end Traffic

/-! ### A burst -/

/-- `phone` sends the payloads `0`, `1`, … while `laptop` writes nothing. -/
def burst (n : ℕ) : List TrafficEvent :=
  phoneAndLaptop ++ (List.range n).flatMap fun k => [.data 0 [UInt8.ofNat k], .broadcast 0]

/-- Sixteen payloads fit. -/
theorem burst_newest :
    Along (recorded Traffic.step Traffic.offers) (fun x => ∀ j, Traffic.DrainsToNewest j x)
      (emptyTraffic, []) (burst 16 ++ [.deliver 1 true] ++ [.data 0 [16], .broadcast 0]) :=
  (Traffic.newest_iff_fits emptyTraffic_boots (by decide +kernel)).mpr (by decide +kernel)

/-- Of seventeen the last is lost: when `laptop` has written all that was queued for it, it is left with
the sixteenth. -/
theorem burst_stale :
    ∃ x, exec (recorded Traffic.step Traffic.offers) (emptyTraffic, [])
        (burst 17 ++ List.replicate 16 (.deliver 1 true)) = some x ∧
      (x.1.server.sessionAt 1 .looping).isSome ∧ x.1.queue 1 = [] ∧
      x.1.lastWritten 1 = some [15] ∧ Traffic.lastOffered 1 x.2 = some [16] := by
  have hrun : (exec (recorded Traffic.step Traffic.offers) (emptyTraffic, [])
        (burst 17 ++ List.replicate 16 (.deliver 1 true))).map
      (fun x => ((x.1.server.sessionAt 1 .looping).isSome, x.1.queue 1, x.1.lastWritten 1,
        Traffic.lastOffered 1 x.2)) = some (true, [], some [15], some [16]) := by
    decide +kernel
  obtain ⟨x, hx, h⟩ := Option.map_eq_some_iff.mp hrun
  simp only [Prod.mk.injEq] at h
  exact ⟨x, hx, h⟩

end Zsync
