import Zsync.Model.Handshake
import Zsync.Relay.Admission

/-! # What a client learns about groups it has not joined

* `Alike` : two relays whose connections, counts, bans and rooms are the same, and which enable the same
  groups. A disabled group and one that is not listed are the same to this relation.
* `alike_step` : the same event leads to such relays again.
* `no_oracle` : a relay that does not list a group, and one that lists it as disabled, do the same; and so do
  relays that were sent a group id that is none, or one that they do not list.
-/

namespace Zsync
set_option autoImplicit false
set_option maxHeartbeats 250000
open Protocol Foundations Zsync.Group

namespace Handshake
namespace Server

/-- What the file lists for a group. -/
def listed (s : Server) (id : String) : Option GroupRec := (GroupMap.collect (loadGroups s.file)).get id

theorem enabled_eq (s : Server) (id : String) :
    s.enabled id = ((s.listed id).map GroupRec.enabled).getD false := by
  rw [enabled, Allowlist.refresh_groups s.coherent, listed]

/-- The cache makes no difference. -/
theorem enabled_of_file {s t : Server} (h : s.file = t.file) : s.enabled = t.enabled := by
  funext id
  rw [enabled_eq, enabled_eq, listed, listed, h]

/-! ## Two relays -/

structure Alike (s t : Server) : Prop where
  front : s.front = t.front
  enabled : s.enabled = t.enabled

variable [Json Join] [Json JoinAck]

omit [Json Join] [Json JoinAck] in
/-- The file stays, and with it what is enabled. -/
theorem enabled_step (s : Server) (e : FrontEvent) (front : Front) :
    ({ (if s.front.looksUp e then s.refreshed else s) with front := front } : Server).enabled = s.enabled := by
  apply enabled_of_file
  dsimp only
  split_ifs <;> rfl

theorem alike_step {s t : Server} (h : Alike s t) (e : FrontEvent) :
    Option.Rel Alike (s.step e) (t.step e) := by
  unfold Server.step
  rw [h.front, h.enabled]
  cases t.front.step t.enabled e with
  | none => exact .none
  | some front =>
    refine .some ⟨rfl, ?_⟩
    have hs := enabled_step s e front
    have ht := enabled_step t e front
    rw [h.front] at hs
    rw [hs, ht, h.enabled]

/-- Whatever the clients do, they receive the same, and the relays keep the same counts, bans and rooms. -/
theorem alike_run {s t : Server} (h : Alike s t) (es : List FrontEvent) :
    (exec step s es).map front = (exec step t es).map front :=
  exec_observed (fun _ _ h => h.front) (fun _ _ e h => alike_step h e) h es

/-! ## The first frame -/

omit [Json Join] [Json JoinAck] in
theorem goes_conns (f : Front) (i : ℕ) (c : Conn) (phase : Phase) :
    (f.goes i c phase).conns i = some { c with phase := phase } := Function.update_self _ _ _

omit [Json Join] [Json JoinAck] in
theorem goes_goes (f : Front) (i : ℕ) (c : Conn) (phase phase' : Phase) :
    (f.goes i c phase).goes i { c with phase := phase } phase' = f.goes i c phase' := by
  have h := Function.update_idem (some { c with phase := phase }) (some { c with phase := phase' }) f.conns
    (a := i)
  exact congrArg (fun conns => { f with conns := conns }) h

theorem step_recv {s : Server} {i : ℕ} {c : Conn} {r : Reading UInt8 Relay.FrameType}
    (hc : s.front.conns i = some c) (hphase : c.phase = .reading r) (b : UInt8) :
    s.step (.recv i b) = some { s with front := s.front.goes i c (Front.fed (r.feed Relay.relayCodec b)) } := by
  have hfront : s.front.step s.enabled (.recv i b) =
      some (s.front.goes i c (Front.fed (r.feed Relay.relayCodec b))) := by
    simp only [Front.step, hc, hphase]
  rw [step, hfront]
  rfl

/-- The rest of a frame arrives byte by byte. -/
theorem recv_within {f : Frame Relay.relayCodec} {i : ℕ} {rest : Bytes} :
    ∀ {s : Server} {c : Conn} {r : Reading UInt8 Relay.FrameType}, s.front.conns i = some c →
      c.phase = .reading r → f.Within rest r →
      exec step s (rest.map (FrontEvent.recv i)) =
        some { s with front := s.front.goes i c (Front.received f.typ f.payload) } := by
  induction rest with
  | nil =>
    intro s c r _ _ h
    exact absurd rfl h.rest_ne_nil
  | cons b rest ih =>
    intro s c r hc hphase h
    rw [List.map_cons, exec_cons_of_step _ (step_recv hc hphase b)]
    obtain ⟨r', hfeed, h'⟩ | ⟨hfeed, rfl⟩ := h.feed
    · rw [hfeed, Front.fed, ih (goes_conns _ _ _ _) rfl h', goes_goes]
    · rw [hfeed]
      rfl

/-- The frame is a `Join` for a group id with the property `p`. -/
structure JoinFor (p : String → Prop) (f : Frame Relay.relayCodec) : Prop where
  typ : f.typ = .join
  decoded : ∃ join : Join, Json.decode f.payload = some join ∧ p join.groupId

omit [Json Join] [Json JoinAck] in
/-- A group id that is none, or that of a group that is not enabled. -/
def Refuses (s : Server) (groupId : String) : Prop :=
  ∀ id, parseGroupId groupId.toList = .ok id → s.enabled (hexEncode id) = false

/-- A `Join` that is refused leaves no other trace than the refusal. -/
theorem join_refused {s : Server} {f : Frame Relay.relayCodec} {i : ℕ} {c : Conn}
    (hc : s.front.conns i = some c) (hphase : c.phase = .reading .fresh) (hf : JoinFor s.Refuses f) :
    ∃ t, exec step s (f.symbols.map (FrontEvent.recv i) ++ [.ask i]) = some t ∧
      Alike t { s with front := s.front.goes i c .refusing } := by
  obtain ⟨join, hdecode, hrefuses⟩ := hf.decoded
  have hreceived : Front.received f.typ f.payload = .asking join := by
    rw [Front.received, hf.typ, hdecode]
    rfl
  have hrecv := recv_within hc hphase f.within_fresh
  rw [hreceived] at hrecv
  have hask : (s.front.goes i c (.asking join)).step s.enabled (.ask i) =
      some (s.front.goes i c .refusing) := by
    rw [Front.step, goes_conns]
    dsimp only
    cases hid : parseGroupId join.groupId.toList with
    | error e =>
      dsimp only
      rw [goes_goes]
    | ok id =>
      dsimp only
      rw [goes_goes, hrefuses id hid]
      rfl
  have hsame : ({ s with front := s.front.goes i c (.asking join) } : Server).enabled = s.enabled :=
    enabled_of_file rfl
  rw [exec_append_of _ hrecv, exec_cons, step, hsame, hask]
  refine ⟨_, rfl, rfl, ?_⟩
  exact (enabled_step { s with front := s.front.goes i c (.asking join) } (.ask i) _).trans (enabled_of_file rfl)

/-! ## Where such states come from -/

section
variable [Sha256] [Base64] {a : Admission}

omit [Json Join] [Json JoinAck] in
/-- What admin commands and `get`s leave is a state of this relay. -/
theorem reached {es : List AdmissionEvent} (h : exec Admission.step Admission.start es = some a)
    (front : Front) : ∃ s : Server, s.file = a.file ∧ s.allow = a.allow ∧ s.front = front := by
  have hinv := exec_invariant (fun _ _ _ h hs => Admission.Inv.step h hs) Admission.start_inv h
  exact ⟨⟨a.file, a.allow, hinv.coherent, front⟩, rfl, rfl, rfl⟩

omit [Json Join] [Json JoinAck] in
/-- A `get` that no command interrupts leaves the refreshed cache. -/
theorem get_refreshes (h : a.getting = none) (id : String) :
    ∃ es b, exec Admission.step a (.get id :: es) = some b ∧
      b.allow = a.allow.refresh a.file ∧ b.file = a.file := by
  obtain ⟨file, allow, getting, admin, done, mtimes, answers⟩ := a
  obtain rfl : getting = none := h
  unfold Allowlist.refresh
  dsimp only
  cases hfresh : allow.fresh (file.map OnDisk.mtime) with
  | true =>
    refine ⟨[], Admission.answer id done allow ⟨file, allow, none, admin, done, mtimes, answers⟩, ?_,
      (if_pos rfl).symm, rfl⟩
    rw [exec_cons, Admission.step]
    dsimp only
    rw [if_pos hfresh]
    rfl
  | false =>
    have hstale : ¬ allow.fresh (file.map OnDisk.mtime) = true := by simp [hfresh]
    cases file with
    | none =>
      refine ⟨[.look], Admission.answer id done .clear ⟨none, allow, none, admin, done, mtimes, answers⟩, ?_,
        rfl, rfl⟩
      rw [exec_cons, Admission.step]
      dsimp only
      rw [if_neg hstale]
      rfl
    | some d =>
      refine ⟨[.read], Admission.answer id done (.reload (some d.mtime) (some d))
        ⟨some d, allow, none, admin, done, mtimes, answers⟩, ?_, rfl, rfl⟩
      rw [exec_cons, Admission.step]
      dsimp only
      rw [if_neg hstale]
      rfl

end

/-! ## The result -/

omit [Json Join] [Json JoinAck] in
/-- The relays are the same, but for a group that one does not list and the other lists as disabled. -/
structure Hides (g : String) (s t : Server) : Prop where
  front : s.front = t.front
  others : ∀ id, id ≠ g → s.listed id = t.listed id
  absent : s.listed g = none
  disabled : ∃ r, t.listed g = some r ∧ r.enabled = false

omit [Json Join] [Json JoinAck] in
theorem Hides.alike {g : String} {s t : Server} (h : Hides g s t) : Alike s t := by
  refine ⟨h.front, funext fun id => ?_⟩
  rw [enabled_eq, enabled_eq]
  by_cases hid : id = g
  · obtain ⟨r, hr, hoff⟩ := h.disabled
    rw [hid, h.absent, hr, Option.map_some, hoff]
    rfl
  · rw [h.others id hid]

/-- No client can tell a group that is not listed from one that is disabled, whatever all clients send, in
whatever order. And a `Join` for what is no group id is to all that follows like one for a group that is not
listed. -/
theorem no_oracle {g : String} {s t : Server} (h : Hides g s t) :
    (∀ es, (exec step s es).map front = (exec step t es).map front) ∧
      ∀ (u : Server) (i : ℕ) (c : Conn) (f f' : Frame Relay.relayCodec), u.front.conns i = some c →
        c.phase = .reading .fresh →
        JoinFor (fun groupId => ∃ e, parseGroupId groupId.toList = .error e) f →
        JoinFor (fun groupId => ∃ id, parseGroupId groupId.toList = .ok id ∧ u.listed (hexEncode id) = none) f' →
        ∀ es, (exec step u (f.symbols.map (FrontEvent.recv i) ++ [.ask i] ++ es)).map front =
          (exec step u (f'.symbols.map (FrontEvent.recv i) ++ [.ask i] ++ es)).map front := by
  refine ⟨alike_run h.alike, fun u i c f f' hc hphase hf hf' es => ?_⟩
  obtain ⟨join, hdecode, e, he⟩ := hf.decoded
  obtain ⟨join', hdecode', id', hid', hunknown⟩ := hf'.decoded
  have hmalformed : u.Refuses join.groupId := by
    intro id hid
    rw [he] at hid
    cases hid
  have hunlisted : u.Refuses join'.groupId := by
    intro id hid
    obtain rfl := Except.ok.inj (hid'.symm.trans hid)
    rw [enabled_eq, hunknown]
    rfl
  obtain ⟨v, hv, halike⟩ := join_refused hc hphase ⟨hf.typ, join, hdecode, hmalformed⟩
  obtain ⟨v', hv', halike'⟩ := join_refused hc hphase ⟨hf'.typ, join', hdecode', hunlisted⟩
  rw [exec_append_of _ hv, exec_append_of _ hv']
  exact alike_run ⟨halike.front.trans halike'.front.symm, halike.enabled.trans halike'.enabled.symm⟩ es

end Server

/-! ### A scanner -/

def newFront : Front := ⟨0, .new, ⟨fun _ => none⟩, [], fun _ => none⟩

/-- No group was ever created. -/
def emptyServer : Server where
  file := none
  allow := .new
  coherent := fun _ _ => rfl
  front := newFront

/-- `zeroGroup` was created and disabled. -/
def disabledServer : Server where
  file := saveGroups 2 ⟨[⟨zeroGroup, "", false⟩]⟩
  allow := .new
  coherent := fun htime _ => by cases htime
  front := newFront

/-- `serde_json` at a `Join` for the group. -/
abbrev sampleJoinJson : Json Join where
  encode := fun _ => [123]
  decode := fun payload => if payload = [123] then some ⟨zeroGroup, "scanner", "", ""⟩ else none

abbrev sampleJoinAckJson : Json JoinAck where
  encode := fun _ => [125]
  decode := fun _ => none

/-- A connection that sends the `Join` and is refused. -/
def knock : List FrontEvent :=
  [.accept 0 "192.0.2.9" "192.0.2.9:40000" 5, .tls 0 true] ++
    (headerBytes Relay.magic Relay.version 1 1 ++ [123]).map (FrontEvent.recv 0) ++ [.ask 0, .refuse 0]

theorem knock_alike :
    letI := sampleJoinJson
    letI := sampleJoinAckJson
    (exec Server.step emptyServer knock).isSome = true ∧
      (exec Server.step emptyServer knock).map Server.front =
        (exec Server.step disabledServer knock).map Server.front := by
  let _ := sampleJoinJson
  let _ := sampleJoinAckJson
  have hrun : (exec Server.step emptyServer knock).isSome = true := by decide +kernel
  have hothers : ∀ id, id ≠ zeroGroup → emptyServer.listed id = disabledServer.listed id := by
    intro id hid
    have hnone : [(zeroGroup, GroupRec.mk zeroGroup "" false)].find? (fun e => e.1 = id) = none := by
      rw [List.find?_cons_of_neg (by simpa using hid.symm), List.find?_nil]
    exact (congrArg (Option.map Prod.snd) hnone).symm
  have hides : Server.Hides zeroGroup emptyServer disabledServer :=
    ⟨rfl, hothers, rfl, ⟨zeroGroup, "", false⟩, rfl, rfl⟩
  exact ⟨hrun, (Server.no_oracle hides).1 knock⟩

end Handshake
end Zsync
