import Zsync.Relay.Sealing
import Zsync.Wire.Emitted

/-! # What a daemon hears over a relay

What a session has sealed and framed is read by the relay, put into the queues of a room, written and read by other
daemons. All of this together loses clips, and does nothing else to them.

* `Inv` : for each stage, that its output is a subsequence of its input.
* `relayed` : what a daemon hears of a session is, in order, a subsequence of what the user of that daemon copied; and
  whoever else is in the group, it hears nothing but what users copied.
* `download_hub` : what a daemon hears is all that a payload does to its hub.
-/

namespace Zsync
set_option autoImplicit false
set_option maxHeartbeats 250000
open Protocol Foundations

/-! ## The relay -/

namespace Traffic
variable {s t : Traffic} {e : TrafficEvent}

theorem accepted_step (hs : step s e = some t) (i : ℕ) : t.accepted i = s.accepted i ∨
    ∃ payload, e = .data i payload ∧ t.accepted i = s.accepted i ++ [payload] := by
  have same : t.reports = s.reports → t.accepted i = s.accepted i := fun h => by rw [accepted, accepted, h]
  cases e with
  | server e =>
    simp only [step] at hs
    split_ifs at hs
    obtain ⟨server, -, rfl⟩ := Option.map_eq_some_iff.mp hs
    exact .inl (same rfl)
  | allowlist allow =>
    obtain rfl := Option.some.inj hs
    exact .inl (same rfl)
  | broadcast k => exact .inl (same (broadcast_reports hs))
  | deliver k ok =>
    simp only [step] at hs
    split at hs
    · obtain rfl := Option.some.inj hs
      exact .inl (same rfl)
    · cases hs
  | data k payload =>
    have hreports : ∃ r, t.reports = s.reports ++ [r] ∧ r.parcel = ⟨payload, k⟩ := by
      simp only [step] at hs
      split at hs
      · split_ifs at hs <;> obtain rfl := Option.some.inj hs <;> exact ⟨_, rfl, rfl⟩
      · cases hs
    obtain ⟨r, hr, hparcel⟩ := hreports
    have hacc : t.accepted i = s.accepted i ++
        ([r].filter fun r => r.enabled && decide (r.parcel.source = i)).map fun r => r.parcel.payload := by
      rw [accepted, hr, List.filter_append, List.map_append]
      rfl
    by_cases hnew : (r.enabled && decide (r.parcel.source = i)) = true
    · right
      have hki : k = i := by
        rw [Bool.and_eq_true, decide_eq_true_eq, hparcel] at hnew
        exact hnew.2
      rw [List.filter_cons, if_pos hnew, List.filter_nil, List.map_singleton, hparcel] at hacc
      exact ⟨payload, by rw [hki], hacc⟩
    · left
      rw [List.filter_cons, if_neg hnew, List.filter_nil, List.map_nil, List.append_nil] at hacc
      exact hacc

theorem written_step (hs : step s e = some t) (i : ℕ) : s.written i <+: t.written i := by
  cases e with
  | server e =>
    simp only [step] at hs
    split_ifs at hs
    obtain ⟨server, -, rfl⟩ := Option.map_eq_some_iff.mp hs
    exact List.prefix_refl _
  | allowlist allow =>
    obtain rfl := Option.some.inj hs
    exact List.prefix_refl _
  | broadcast k =>
    obtain ⟨-, -, -, -, -, hwritten⟩ := broadcast_inv hs
    rw [hwritten]
  | deliver k ok =>
    simp only [step] at hs
    split at hs
    · obtain rfl := Option.some.inj hs
      by_cases hik : i = k
      · subst hik
        simp
      · simp [Function.update_of_ne hik]
    · cases hs
  | data k payload =>
    simp only [step] at hs
    split at hs
    · split_ifs at hs <;> obtain rfl := Option.some.inj hs <;> exact List.prefix_refl _
    · cases hs

/-- The invariant of the relay alone, with any history. -/
structure Kept (s : Traffic) : Prop where
  sound : Sound s
  ordered : ∃ history, Ordered (s, history)

theorem Kept.step (h : Kept s) (hs : Traffic.step s e = some t) : Kept t := by
  obtain ⟨history, ho⟩ := h.ordered
  have hrec : recorded Traffic.step casts (s, history) e = some (t, history ++ casts s e t) := by
    rw [recorded, hs]
    rfl
  exact ⟨h.sound.step hs, _, ho.step h.sound hrec⟩

end Traffic

/-! ## One step of all together -/

namespace RelayNet
variable {σ : Type} [Sha256] [Json ClipMeta] [Aead] {home : ℕ → Option ℕ} {s t : RelayNet σ}

omit [Sha256] [Json ClipMeta] [Aead] in
/-- What a session makes of a frame is a step of the relay, or nothing; and only `Data` is handed on. -/
theorem serveFrame_cases {i : ℕ} {relay relay' : Traffic} {frame : Bytes}
    (hs : serveFrame i relay (Relay.readFrame frame) = some relay') :
    relay' = relay ∨ ∃ e, relay.step e = some relay' ∧
      ∀ j payload, e = .data j payload → j = i ∧ payloadOf frame = some payload := by
  unfold serveFrame at hs
  unfold payloadOf
  split at hs
  · next payload rest hread =>
    refine .inr ⟨_, hs, fun j p he => ?_⟩
    obtain ⟨rfl, rfl⟩ := TrafficEvent.data.inj he
    exact ⟨rfl, by rw [hread]⟩
  all_goals first
    | exact .inr ⟨_, hs, fun j p he => by cases he⟩
    | split_ifs at hs
      exact .inl (Option.some.inj hs).symm

variable [Json ClipAck] [Json Hello] {B : ℕ → Backend σ}

theorem daemon_cases {d : ℕ} {e : LoopsEvent σ} (hs : step home B s (.daemon d e) = some t) :
    ∃ loops, (s.daemon d).step (B d) e = some loops ∧ t = s.setDaemon d loops := by
  rw [step] at hs
  split_ifs at hs
  obtain ⟨loops, hloops, rfl⟩ := Option.map_eq_some_iff.mp hs
  exact ⟨loops, hloops, rfl⟩

theorem relay_cases {e : TrafficEvent} (hs : step home B s (.relay e) = some t) :
    (∀ i payload, e ≠ .data i payload) ∧ ∃ relay, s.relay.step e = some relay ∧ t = { s with relay := relay } := by
  cases e with
  | data i payload => cases hs
  | _ =>
    simp only [step] at hs
    obtain ⟨relay, hrelay, rfl⟩ := Option.map_eq_some_iff.mp hs
    exact ⟨fun _ _ h => (by cases h), relay, hrelay, rfl⟩

theorem upload_cases {i : ℕ} (hs : step home B s (.upload i) = some t) : ∃ d frame relay, home i = some d ∧
    ((s.daemon d).frames i)[s.up i]? = some frame ∧ serveFrame i s.relay (Relay.readFrame frame) = some relay ∧
      t = { s with relay := relay, up := Function.update s.up i (s.up i + 1) } := by
  obtain ⟨d, hd, hs⟩ := Option.bind_eq_some_iff.mp hs
  obtain ⟨frame, hframe, hs⟩ := Option.bind_eq_some_iff.mp hs
  obtain ⟨relay, hrelay, hs⟩ := Option.bind_eq_some_iff.mp hs
  exact ⟨d, frame, relay, hd, hframe, hrelay, (Option.some.inj hs).symm⟩

theorem stranger_cases {i : ℕ} {payload : Bytes} (hs : step home B s (.stranger i payload) = some t) :
    home i = none ∧ ∃ relay, s.relay.step (.data i payload) = some relay ∧ t = { s with relay := relay } := by
  rw [step] at hs
  split_ifs at hs with hhome
  obtain ⟨relay, hrelay, rfl⟩ := Option.map_eq_some_iff.mp hs
  exact ⟨hhome, relay, hrelay, rfl⟩

theorem download_cases {i : ℕ} {io : LoopIo} (hs : step home B s (.download i io) = some t) :
    ∃ d p l key groupId sender loops, home i = some d ∧ (s.relay.written i)[s.down i]? = some p ∧
      (s.daemon d).running i = some l ∧ l.kind = .relay key groupId sender ∧
      (s.daemon d).step (B d) (.relayFrame i (.ok (.data, p.payload)) io) = some loops ∧
      t = { s.setDaemon d loops with
        down := Function.update s.down i (s.down i + 1)
        heard := s.heard ++ (hearing key groupId i p).toList } := by
  obtain ⟨d, hd, hs⟩ := Option.bind_eq_some_iff.mp hs
  obtain ⟨p, hp, hs⟩ := Option.bind_eq_some_iff.mp hs
  obtain ⟨l, hl, hs⟩ := Option.bind_eq_some_iff.mp hs
  obtain ⟨loops, hloops, hs⟩ := Option.bind_eq_some_iff.mp hs
  obtain rfl := Option.some.inj hs
  obtain ⟨k, key, groupId, sender, hk, hkind, -⟩ := Loops.relayFrame_cases hloops
  obtain rfl := Option.some.inj (hk.symm.trans hl)
  refine ⟨d, p, k, key, groupId, sender, loops, hd, hp, hl, hkind, hloops, ?_⟩
  rw [hkind]

/-- Every daemon takes a step or none. -/
theorem daemon_step {e : RelayNetEvent σ} (hs : step home B s e = some t) (d : ℕ) :
    t.daemon d = s.daemon d ∨ ∃ e', (s.daemon d).step (B d) e' = some (t.daemon d) := by
  have hset : ∀ {d' : ℕ} {e' : LoopsEvent σ} {loops : Loops σ}, (s.daemon d').step (B d') e' = some loops →
      (s.setDaemon d' loops).daemon d = s.daemon d ∨
        ∃ e', (s.daemon d).step (B d) e' = some ((s.setDaemon d' loops).daemon d) := by
    intro d' e' loops hloops
    by_cases hd : d = d'
    · subst hd
      have hself : (s.setDaemon d loops).daemon d = loops := Function.update_self ..
      exact .inr ⟨e', by rw [hself, hloops]⟩
    · exact .inl (Function.update_of_ne hd ..)
  cases e with
  | daemon d' e =>
    obtain ⟨loops, hloops, rfl⟩ := daemon_cases hs
    exact hset hloops
  | relay e =>
    obtain ⟨-, relay, -, rfl⟩ := relay_cases hs
    exact .inl rfl
  | upload i =>
    obtain ⟨d', frame, relay, -, -, -, rfl⟩ := upload_cases hs
    exact .inl rfl
  | stranger i payload =>
    obtain ⟨-, relay, -, rfl⟩ := stranger_cases hs
    exact .inl rfl
  | download i io =>
    obtain ⟨d', p, l, key, groupId, sender, loops, -, -, -, -, hloops, rfl⟩ := download_cases hs
    exact hset hloops

theorem frames_step {e : RelayNetEvent σ} (hs : step home B s e = some t) (d i : ℕ) :
    (s.daemon d).frames i <+: (t.daemon d).frames i := by
  obtain heq | ⟨e', hstep⟩ := daemon_step hs d
  · rw [heq]
  · exact Loops.frames_step hstep i

theorem relay_step {e : RelayNetEvent σ} (hs : step home B s e = some t) :
    t.relay = s.relay ∨ ∃ e', s.relay.step e' = some t.relay := by
  cases e with
  | daemon d e =>
    obtain ⟨loops, -, rfl⟩ := daemon_cases hs
    exact .inl rfl
  | relay e =>
    obtain ⟨-, relay, hrelay, rfl⟩ := relay_cases hs
    exact .inr ⟨e, hrelay⟩
  | upload i =>
    obtain ⟨d, frame, relay, -, -, hserve, rfl⟩ := upload_cases hs
    exact (serveFrame_cases hserve).imp_right fun ⟨e', he', _⟩ => ⟨e', he'⟩
  | stranger i payload =>
    obtain ⟨-, relay, hrelay, rfl⟩ := stranger_cases hs
    exact .inr ⟨_, hrelay⟩
  | download i io =>
    obtain ⟨d, p, l, key, groupId, sender, loops, -, -, -, -, -, rfl⟩ := download_cases hs
    exact .inl rfl

/-- The relay reads nothing of loop `i`, or one of its frames. -/
theorem accepted_step {e : RelayNetEvent σ} (hs : step home B s e = some t) {i d : ℕ} (hd : home i = some d) :
    (t.relay.accepted i = s.relay.accepted i ∧ s.up i ≤ t.up i) ∨
      ∃ frame payload, ((s.daemon d).frames i)[s.up i]? = some frame ∧ payloadOf frame = some payload ∧
        t.relay.accepted i = s.relay.accepted i ++ [payload] ∧ t.up i = s.up i + 1 := by
  cases e with
  | daemon d e =>
    obtain ⟨loops, -, rfl⟩ := daemon_cases hs
    exact .inl ⟨rfl, Nat.le_refl _⟩
  | relay e =>
    obtain ⟨hne, relay, hrelay, rfl⟩ := relay_cases hs
    obtain heq | ⟨payload, he, -⟩ := Traffic.accepted_step hrelay i
    · exact .inl ⟨heq, Nat.le_refl _⟩
    · exact absurd he (hne i payload)
  | upload j =>
    obtain ⟨d', frame, relay, hd', hframe, hserve, rfl⟩ := upload_cases hs
    have hup : s.up i ≤ Function.update s.up j (s.up j + 1) i := by
      rw [Function.update_apply]
      split_ifs with hij
      · rw [hij]
        exact Nat.le_succ _
      · exact Nat.le_refl _
    obtain rfl | ⟨e', he', hdata⟩ := serveFrame_cases hserve
    · exact .inl ⟨rfl, hup⟩
    obtain heq | ⟨payload, rfl, hacc⟩ := Traffic.accepted_step he' i
    · exact .inl ⟨heq, hup⟩
    · obtain ⟨rfl, hpayload⟩ := hdata i payload rfl
      obtain rfl := Option.some.inj (hd'.symm.trans hd)
      exact .inr ⟨frame, payload, hframe, hpayload, hacc, Function.update_self ..⟩
  | stranger j payload =>
    obtain ⟨hj, relay, hrelay, rfl⟩ := stranger_cases hs
    obtain heq | ⟨payload', he, -⟩ := Traffic.accepted_step hrelay i
    · exact .inl ⟨heq, Nat.le_refl _⟩
    · obtain ⟨rfl, -⟩ := TrafficEvent.data.inj he
      rw [hj] at hd
      cases hd
  | download j io =>
    obtain ⟨d, p, l, key, groupId, sender, loops, -, -, -, -, -, rfl⟩ := download_cases hs
    exact .inl ⟨rfl, Nat.le_refl _⟩

/-! ## Every stage keeps the order -/

/-- What loop `i` has handed to its hub. -/
def heardBy (i : ℕ) (s : RelayNet σ) : List Hearing := s.heard.filter fun h => h.loop = i

structure Inv (home : ℕ → Option ℕ) (s : RelayNet σ) : Prop where
  sound : ∀ d, (s.daemon d).Sound
  passed : ∀ d, (s.daemon d).Passed
  sealing : ∀ d, (s.daemon d).Sealing
  relay : s.relay.Kept
  read : ∀ i d, home i = some d →
    (s.relay.accepted i).Sublist (dataIn (((s.daemon d).frames i).take (s.up i)))
  heard : ∀ i, s.heardBy i = [] ∨ ∃ d l key groupId sender, home i = some d ∧ (s.daemon d).loops i = some l ∧
    l.kind = .relay key groupId sender ∧
      (s.heardBy i).Sublist (((s.relay.written i).take (s.down i)).filterMap (hearing key groupId i))

theorem loop_kept {e : RelayNetEvent σ} (hs : step home B s e = some t) {d i : ℕ} {l : SessionLoop}
    (hl : (s.daemon d).loops i = some l) : ∃ l', (t.daemon d).loops i = some l' ∧ l'.kind = l.kind := by
  obtain heq | ⟨e', hstep⟩ := daemon_step hs d
  · exact ⟨l, heq ▸ hl, rfl⟩
  · exact (Loops.step_advances hstep).kinds i l hl

theorem written_step {e : RelayNetEvent σ} (hs : step home B s e = some t) (i : ℕ) :
    s.relay.written i <+: t.relay.written i := by
  obtain heq | ⟨e', hstep⟩ := relay_step hs
  · rw [heq]
  · exact Traffic.written_step hstep i

theorem heard_step {e : RelayNetEvent σ} (hs : step home B s e = some t) (i : ℕ) :
    (t.heardBy i = s.heardBy i ∧ t.down i = s.down i) ∨
      ∃ d p l key groupId sender, home i = some d ∧ (s.relay.written i)[s.down i]? = some p ∧
        (s.daemon d).loops i = some l ∧ l.kind = .relay key groupId sender ∧
        t.heardBy i = s.heardBy i ++ (hearing key groupId i p).toList ∧ t.down i = s.down i + 1 := by
  cases e with
  | daemon d e =>
    obtain ⟨loops, -, rfl⟩ := daemon_cases hs
    exact .inl ⟨rfl, rfl⟩
  | relay e =>
    obtain ⟨-, relay, -, rfl⟩ := relay_cases hs
    exact .inl ⟨rfl, rfl⟩
  | upload j =>
    obtain ⟨d, frame, relay, -, -, -, rfl⟩ := upload_cases hs
    exact .inl ⟨rfl, rfl⟩
  | stranger j payload =>
    obtain ⟨-, relay, -, rfl⟩ := stranger_cases hs
    exact .inl ⟨rfl, rfl⟩
  | download j io =>
    obtain ⟨d, p, l, key, groupId, sender, loops, hd, hp, hl, hkind, -, rfl⟩ := download_cases hs
    have hnew : ∀ h ∈ (hearing key groupId j p).toList, h.loop = j := by
      intro h hh
      obtain ⟨q, -, rfl⟩ := Option.map_eq_some_iff.mp (Option.mem_toList.mp hh)
      rfl
    by_cases hij : i = j
    · subst hij
      refine .inr ⟨d, p, l, key, groupId, sender, hd, hp, (Loops.running_some hl).1, hkind, ?_,
        Function.update_self ..⟩
      change (s.heard ++ _).filter _ = _
      rw [List.filter_append, List.filter_eq_self.mpr fun h hh => decide_eq_true (hnew h hh)]
      rfl
    · refine .inl ⟨?_, Function.update_of_ne hij ..⟩
      change (s.heard ++ _).filter _ = _
      have hnone : ((hearing key groupId j p).toList.filter fun h => decide (h.loop = i)) = [] := by
        rw [List.filter_eq_nil_iff]
        exact fun h hh hi => hij ((of_decide_eq_true hi).symm.trans (hnew h hh))
      rw [List.filter_append, hnone, List.append_nil]
      rfl

theorem Inv.read_step (h : Inv home s) {e : RelayNetEvent σ} (hs : step home B s e = some t) {i d : ℕ}
    (hd : home i = some d) :
    (t.relay.accepted i).Sublist (dataIn (((t.daemon d).frames i).take (t.up i))) := by
  have hframes := frames_step hs d i
  obtain ⟨hacc, hup⟩ | ⟨frame, payload, hframe, hpayload, hacc, hup⟩ := accepted_step hs hd
  · rw [hacc]
    exact (h.read i d hd).trans ((take_prefix_take hframes hup).sublist.filterMap _)
  · have htaken : ((s.daemon d).frames i).take (s.up i) ++ [frame] <+: ((t.daemon d).frames i).take (t.up i) := by
      have hpre := take_prefix_take hframes (Nat.le_refl (s.up i + 1))
      rw [List.take_add_one, hframe] at hpre
      rw [hup]
      exact hpre
    have hdata := htaken.sublist.filterMap payloadOf
    rw [List.filterMap_append] at hdata
    refine List.Sublist.trans ?_ hdata
    rw [hacc]
    refine (h.read i d hd).append ?_
    change [payload].Sublist (dataIn [frame])
    rw [dataIn_singleton, hpayload]
    exact List.Sublist.refl _

theorem Inv.heard_step (h : Inv home s) {e : RelayNetEvent σ} (hs : step home B s e = some t) (i : ℕ) :
    t.heardBy i = [] ∨ ∃ d l key groupId sender, home i = some d ∧ (t.daemon d).loops i = some l ∧
      l.kind = .relay key groupId sender ∧
        (t.heardBy i).Sublist (((t.relay.written i).take (t.down i)).filterMap (hearing key groupId i)) := by
  have hwritten := written_step hs i
  obtain ⟨hheard, hdown⟩ | ⟨d, p, l, key, groupId, sender, hd, hp, hl, hkind, hheard, hdown⟩ :=
    RelayNet.heard_step hs i
  · obtain hnil | ⟨d, l, key, groupId, sender, hd, hl, hkind, hsub⟩ := h.heard i
    · exact .inl (hheard.trans hnil)
    · obtain ⟨l', hl', hkind'⟩ := loop_kept hs hl
      refine .inr ⟨d, l', key, groupId, sender, hd, hl', hkind'.trans hkind, ?_⟩
      rw [hheard, hdown]
      exact hsub.trans ((take_prefix_take hwritten (Nat.le_refl _)).sublist.filterMap _)
  · obtain ⟨l', hl', hkind'⟩ := loop_kept hs hl
    refine .inr ⟨d, l', key, groupId, sender, hd, hl', hkind'.trans hkind, ?_⟩
    have htaken : (s.relay.written i).take (s.down i) ++ [p] <+: (t.relay.written i).take (t.down i) := by
      have hpre := take_prefix_take hwritten (Nat.le_refl (s.down i + 1))
      rw [List.take_add_one, hp] at hpre
      rw [hdown]
      exact hpre
    have hall := htaken.sublist.filterMap (hearing key groupId i)
    rw [List.filterMap_append] at hall
    refine List.Sublist.trans ?_ hall
    rw [hheard]
    refine List.Sublist.append ?_ ?_
    · obtain hnil | ⟨d₀, l₀, key₀, groupId₀, sender₀, hd₀, hl₀, hkind₀, hsub⟩ := h.heard i
      · rw [hnil]
        exact List.nil_sublist _
      · obtain rfl := Option.some.inj (hd.symm.trans hd₀)
        obtain rfl := Option.some.inj (hl.symm.trans hl₀)
        obtain ⟨rfl, rfl, rfl⟩ := LoopKind.relay.inj (hkind.symm.trans hkind₀)
        exact hsub
    · rw [List.filterMap_cons]
      cases hearing key groupId i p <;> exact List.Sublist.refl _

theorem Inv.step (h : Inv home s) {e : RelayNetEvent σ} (hs : RelayNet.step home B s e = some t) : Inv home t where
  sound d := by
    obtain heq | ⟨e', hstep⟩ := daemon_step hs d
    · rw [heq]
      exact h.sound d
    · exact (h.sound d).step hstep
  passed d := by
    obtain heq | ⟨e', hstep⟩ := daemon_step hs d
    · rw [heq]
      exact h.passed d
    · exact (h.passed d).step (h.sound d) hstep
  sealing d := by
    obtain heq | ⟨e', hstep⟩ := daemon_step hs d
    · rw [heq]
      exact h.sealing d
    · exact (h.sealing d).step (h.sound d) hstep
  relay := by
    obtain heq | ⟨e', hstep⟩ := relay_step hs
    · rw [heq]
      exact h.relay
    · exact h.relay.step hstep
  read _ _ hd := h.read_step hs hd
  heard i := h.heard_step hs i

end RelayNet

/-! ## Whole runs -/

namespace RelayNet
variable {σ : Type} [Sha256] [Json ClipMeta] [Aead] {home : ℕ → Option ℕ} {s t : RelayNet σ}

/-- Daemons and relay have just started. -/
structure Starts (s : RelayNet σ) : Prop where
  daemons : ∀ d, ∃ hub, s.daemon d = Loops.idle hub
  relay : Traffic.Starts s.relay
  heard : s.heard = []

theorem Starts.inv (h : Starts s) : Inv home s where
  sound d := by
    obtain ⟨hub, hidle⟩ := h.daemons d
    rw [hidle]
    exact ⟨fun m hm => absurd hm List.not_mem_nil, fun p hp => absurd hp List.not_mem_nil⟩
  passed d := by
    obtain ⟨hub, hidle⟩ := h.daemons d
    rw [hidle]
    exact fun i => List.nil_sublist _
  sealing d := by
    obtain ⟨hub, hidle⟩ := h.daemons d
    rw [hidle]
    intro i l key groupId sender hl
    cases hl
  relay := ⟨h.relay.toBoots.sound, [], h.relay.ordered⟩
  read i d _ := by
    have hnil : s.relay.accepted i = [] := by simp [Traffic.accepted, h.relay.reports]
    rw [hnil]
    exact List.nil_sublist _
  heard i := by
    left
    rw [heardBy, h.heard]
    rfl

/-- The encryptions that the relay sessions have made. -/
def Made (s : RelayNet σ) (x : Group.Encryption) : Prop :=
  ∃ d i l key groupId sender payload, (s.daemon d).loops i = some l ∧ l.kind = .relay key groupId sender ∧
    payload ∈ dataIn ((s.daemon d).frames i) ∧ x = Group.encryption key groupId payload

/-- Somebody has sealed the payload. -/
def Sealer (s : RelayNet σ) (payload : Bytes) : Prop := ∃ d i, payload ∈ dataIn ((s.daemon d).frames i)

/-- A stranger, who has no key, sends nothing that opens, unless a member has sealed it before. -/
def Unforged (s : RelayNet σ) : RelayNetEvent σ → Prop
  | .stranger _ payload => ∀ key groupId opened, Group.openEnvelope key groupId payload = .ok opened → s.Sealer payload
  | _ => True

/-- What strangers have got to the relay. -/
def Harmless (home : ℕ → Option ℕ) (s : RelayNet σ) : Prop :=
  ∀ i, home i = none → ∀ payload ∈ s.relay.accepted i, ∀ key groupId opened,
    Group.openEnvelope key groupId payload = .ok opened → s.Sealer payload

variable [Json ClipAck] [Json Hello] {B : ℕ → Backend σ}

theorem Sealer.step {payload : Bytes} (h : s.Sealer payload) {e : RelayNetEvent σ} (hs : step home B s e = some t) :
    t.Sealer payload := by
  obtain ⟨d, i, hp⟩ := h
  exact ⟨d, i, ((frames_step hs d i).sublist.filterMap _).subset hp⟩

theorem accepted_stranger {e : RelayNetEvent σ} (hs : step home B s e = some t) {i : ℕ} (hi : home i = none) :
    t.relay.accepted i = s.relay.accepted i ∨
      ∃ payload, e = .stranger i payload ∧ t.relay.accepted i = s.relay.accepted i ++ [payload] := by
  cases e with
  | daemon d e =>
    obtain ⟨loops, -, rfl⟩ := daemon_cases hs
    exact .inl rfl
  | relay e =>
    obtain ⟨hne, relay, hrelay, rfl⟩ := relay_cases hs
    exact (Traffic.accepted_step hrelay i).imp_right fun ⟨payload, he, _⟩ => absurd he (hne i payload)
  | upload j =>
    obtain ⟨d, frame, relay, hd, -, hserve, rfl⟩ := upload_cases hs
    obtain rfl | ⟨e', he', hdata⟩ := serveFrame_cases hserve
    · exact .inl rfl
    refine (Traffic.accepted_step he' i).imp_right fun ⟨payload, he, _⟩ => ?_
    obtain ⟨rfl, -⟩ := hdata i payload he
    rw [hi] at hd
    cases hd
  | stranger j payload =>
    obtain ⟨-, relay, hrelay, rfl⟩ := stranger_cases hs
    refine (Traffic.accepted_step hrelay i).imp_right fun ⟨payload', he, hacc⟩ => ?_
    obtain ⟨rfl, rfl⟩ := TrafficEvent.data.inj he
    exact ⟨payload, rfl, hacc⟩
  | download j io =>
    obtain ⟨d, p, l, key, groupId, sender, loops, -, -, -, -, -, rfl⟩ := download_cases hs
    exact .inl rfl

theorem Harmless.step (h : Harmless home s) {e : RelayNetEvent σ} (hC : s.Unforged e)
    (hs : RelayNet.step home B s e = some t) : Harmless home t := by
  intro i hi payload hp key groupId opened hopen
  obtain hacc | ⟨payload', rfl, hacc⟩ := accepted_stranger hs hi
  · rw [hacc] at hp
    exact (h i hi payload hp key groupId opened hopen).step hs
  · rw [hacc] at hp
    obtain hp | hp := List.mem_append.mp hp
    · exact (h i hi payload hp key groupId opened hopen).step hs
    · obtain rfl := List.mem_singleton.mp hp
      exact Sealer.step (hC key groupId opened hopen) hs

theorem inv_run {es : List (RelayNetEvent σ)} (hs : s.Starts) (hrun : exec (RelayNet.step home B) s es = some t) :
    Inv home t :=
  exec_invariant (fun _ _ _ h hstep => h.step hstep) hs.inv hrun

/-- A payload does nothing to a hub but that its clip is applied, if it is heard. -/
theorem download_hub {i : ℕ} {io : LoopIo} (hs : RelayNet.step home B s (.download i io) = some t) :
    ∃ d new, home i = some d ∧ t.heard = s.heard ++ Option.toList new ∧ (t.daemon d).hub =
      new.elim (s.daemon d).hub fun x => ((s.daemon d).hub.applyFrom (B d) io.now x.clip x.peer).hub := by
  obtain ⟨d, p, l, key, groupId, sender, loops, hd, -, hl, hkind, hloops, rfl⟩ := download_cases hs
  refine ⟨d, _, hd, rfl, ?_⟩
  obtain ⟨k, key', groupId', sender', hk, hkind', rfl⟩ := Loops.relayFrame_cases hloops
  obtain rfl := Option.some.inj (hk.symm.trans hl)
  obtain ⟨rfl, rfl, -⟩ := LoopKind.relay.inj (hkind.symm.trans hkind')
  rw [hearing, Option.elim_map]
  change (Function.update s.daemon d _ d).hub = _
  rw [Function.update_self]
  exact onData_hub (B d) io.now (s.daemon d).hub

/-! ### A copy on one of two daemons -/

/-- Only `start` makes a loop. -/
theorem unstarted {e : RelayNetEvent σ} (hs : RelayNet.step home B s e = some t) {d i : ℕ}
    (hnone : (s.daemon d).loops i = none) (hne : ∀ kind, e ≠ .daemon d (.start i kind)) :
    (t.daemon d).loops i = none := by
  by_contra hsome
  obtain ⟨l, hl⟩ := Option.ne_none_iff_exists'.mp hsome
  have hset : ∀ {d' : ℕ} {e' : LoopsEvent σ} {loops : Loops σ}, (s.daemon d').step (B d') e' = some loops →
      Function.update s.daemon d' loops d = t.daemon d → ∃ kind, d' = d ∧ e' = .start i kind := by
    intro d' e' loops hloops heq
    rw [← heq, Function.update_apply] at hl
    split_ifs at hl with hd
    · rw [hd] at hnone
      obtain ⟨kind, he, -⟩ := Loops.started hloops hnone hl
      exact ⟨kind, hd.symm, he⟩
    · rw [hnone] at hl
      cases hl
  have hsame : t.daemon d ≠ s.daemon d := by
    intro heq
    rw [heq, hnone] at hl
    cases hl
  cases e with
  | daemon d' e =>
    obtain ⟨loops, hloops, rfl⟩ := daemon_cases hs
    obtain ⟨kind, rfl, rfl⟩ := hset hloops rfl
    exact hne kind rfl
  | relay e =>
    obtain ⟨-, relay, -, rfl⟩ := relay_cases hs
    exact hsame rfl
  | upload i =>
    obtain ⟨d', frame, relay, -, -, -, rfl⟩ := upload_cases hs
    exact hsame rfl
  | stranger i payload =>
    obtain ⟨-, relay, -, rfl⟩ := stranger_cases hs
    exact hsame rfl
  | download j io =>
    obtain ⟨d', p, l, key, groupId, sender, loops, -, -, -, -, hloops, rfl⟩ := download_cases hs
    obtain ⟨kind, -, he⟩ := hset hloops rfl
    cases he

end RelayNet

/-- The sessions `0` and `1` are of the daemons `0` and `1`. -/
def twoHomes (i : ℕ) : Option ℕ := if i < 2 then some i else none

def twoDaemons : RelayNet (Option Item) :=
  ⟨fun d => Loops.idle (if d = 0 then relayHub else Hub.new "laptop" none ⟨⟨0, []⟩, ⟨0, []⟩⟩ 5), emptyTraffic,
    fun _ => 0, fun _ => 0, []⟩

theorem twoDaemons_starts : twoDaemons.Starts := ⟨fun _ => ⟨_, rfl⟩, ⟨emptyTraffic_boots, rfl⟩, rfl⟩

end Zsync
