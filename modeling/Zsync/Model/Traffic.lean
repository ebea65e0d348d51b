import Mathlib.Data.List.Basic
import Zsync.Model.Protocol
import Zsync.Model.Rooms

/-! # `zsyncd.rs`: payloads between sessions

Each session has a queue of 16 payloads, into which the others put theirs and from which it writes.
When it reads `Data` it asks the allowlist first and then puts the payload into the queues of its room;
between the two another thread may change either. A session that has returned has dropped its queue.

Beside the state, a payload carries the session that read it, and `reports` keeps what the allowlist
said of each `Data` frame.
-/

namespace Zsync
set_option autoImplicit false
set_option maxHeartbeats 250000

structure Parcel where
  payload : Bytes
  source : ℕ
  deriving DecidableEq, Repr

/-- A `Data` frame that was read, the group of its session, and whether that was enabled. -/
structure Report where
  parcel : Parcel
  group : String
  enabled : Bool
  deriving DecidableEq, Repr

structure Traffic where
  server : RelayServer
  /-- The `enabled` of each group on the allowlist. -/
  allow : String → Option Bool
  queue : ℕ → List Parcel
  written : ℕ → List Parcel
  /-- What a session has read and checked and not yet handed on. -/
  pending : ℕ → Option Bytes
  reports : List Report

inductive TrafficEvent
  | server (e : RelayEvent)
  | allowlist (allow : String → Option Bool)
  | data (i : ℕ) (payload : Bytes)
  | broadcast (i : ℕ)
  /-- Session `i` takes a payload from its queue; writing it succeeds or fails. -/
  | deliver (i : ℕ) (ok : Bool)

namespace Traffic

def queueCap : ℕ := 16

def enabled (s : Traffic) (group : String) : Bool := (s.allow group).getD false

/-- A payload can be put into the queue of session `i`. -/
def hasRoom (s : Traffic) (i : ℕ) : Bool :=
  decide ((s.queue i).length < queueCap) &&
    match s.server.sessions i with
    | some leaf => leaf.phase ≠ .done
    | none => false

/-- `try_send`, of which the result is ignored. -/
def trySend (p : Parcel) (s : Traffic) (i : ℕ) : Traffic :=
  if s.hasRoom i then { s with queue := Function.update s.queue i (s.queue i ++ [p]) } else s

/-- What the loop of `Rooms::broadcast` does with one member. -/
def offer (device : String) (p : Parcel) (s : Traffic) (m : Member) : Traffic :=
  if m.deviceId = device then s else s.trySend p m.tx

def broadcast (group device : String) (p : Parcel) (s : Traffic) : Traffic :=
  (s.server.rooms.members group).foldl (offer device p) s

/-- A `Join` is allowed for an enabled group, and a loop does not end while it hands on a payload. -/
def permits (s : Traffic) : RelayEvent → Bool
  | .allow _ group _ _ _ => s.enabled group
  | .finish i => (s.pending i).isNone
  | _ => true

def step (s : Traffic) : TrafficEvent → Option Traffic
  | .server e =>
    if s.permits e then (RelayServer.step s.server e).map fun server => { s with server := server }
    else none
  | .allowlist allow => some { s with allow := allow }
  | .data i payload =>
    match s.server.sessionAt i .looping, s.pending i with
    | some leaf, none =>
      let report : Report := ⟨⟨payload, i⟩, leaf.group, s.enabled leaf.group⟩
      let s := { s with reports := s.reports ++ [report] }
      if report.enabled then some { s with pending := Function.update s.pending i (some payload) }
      else some { s with server := s.server.put i { leaf with phase := .leaving } }
    | _, _ => none
  | .broadcast i =>
    match s.server.sessionAt i .looping, s.pending i with
    | some leaf, some payload =>
      let s := { s with pending := Function.update s.pending i none }
      some (s.broadcast leaf.group leaf.device ⟨payload, i⟩)
    | _, _ => none
  | .deliver i ok =>
    match s.server.sessionAt i .looping, s.pending i, s.queue i with
    | some leaf, none, p :: rest =>
      some { s with
        queue := Function.update s.queue i rest
        written := Function.update s.written i (s.written i ++ [p])
        server := if ok then s.server else s.server.put i { leaf with phase := .leaving } }
    | _, _, _ => none

/-! ### The queues after a broadcast -/

@[simp] theorem trySend_server (p : Parcel) (s : Traffic) (i : ℕ) :
    (s.trySend p i).server = s.server := by
  unfold trySend
  split_ifs <;> rfl

theorem trySend_queue (p : Parcel) (s : Traffic) (i j : ℕ) :
    (s.trySend p i).queue j =
      if j = i ∧ s.hasRoom j = true then s.queue j ++ [p] else s.queue j := by
  unfold trySend
  by_cases hr : s.hasRoom i
  · rw [if_pos hr]
    by_cases hj : j = i
    · subst hj
      rw [if_pos ⟨rfl, hr⟩]
      exact Function.update_self _ _ _
    · rw [if_neg fun h => hj h.1]
      exact Function.update_of_ne hj _ _
  · rw [if_neg hr, if_neg]
    rintro ⟨rfl, h⟩
    exact hr h

/-- Of another session nothing changes. -/
theorem trySend_other (p : Parcel) (s : Traffic) {i j : ℕ} (h : j ≠ i) :
    (s.trySend p i).queue j = s.queue j ∧ (s.trySend p i).hasRoom j = s.hasRoom j := by
  have hq : (s.trySend p i).queue j = s.queue j := by
    rw [trySend_queue, if_neg fun hji => h hji.1]
  refine ⟨hq, ?_⟩
  rw [hasRoom, hq, trySend_server]
  rfl

/-- One of the members `ms` is another device and has the queue of session `j`. -/
def Receives (ms : List Member) (device : String) (j : ℕ) : Prop :=
  ∃ m ∈ ms, m.deviceId ≠ device ∧ m.tx = j

instance (ms : List Member) (device : String) (j : ℕ) : Decidable (Receives ms device j) :=
  inferInstanceAs (Decidable (∃ m ∈ ms, _))

theorem offers_queue {device : String} {p : Parcel} {ms : List Member} {s : Traffic}
    (hnodup : (ms.map Member.tx).Nodup) (j : ℕ) :
    (ms.foldl (offer device p) s).queue j =
      if Receives ms device j ∧ s.hasRoom j = true then s.queue j ++ [p] else s.queue j := by
  induction ms generalizing s with
  | nil =>
    rw [if_neg]
    · rfl
    · rintro ⟨⟨m, hm, -⟩, -⟩
      exact absurd hm List.not_mem_nil
  | cons m ms ih =>
    obtain ⟨hm, hms⟩ := List.nodup_cons.mp hnodup
    have hcons : Receives (m :: ms) device j ↔
        m.deviceId ≠ device ∧ m.tx = j ∨ Receives ms device j := by
      simp [Receives]
    rw [List.foldl_cons, ih hms]
    unfold offer
    by_cases hd : m.deviceId = device
    · rw [if_pos hd]
      simp only [hcons, hd, ne_eq, not_true_eq_false, false_and, false_or]
    · rw [if_neg hd]
      by_cases hj : j = m.tx
      · have hnot : ¬ Receives ms device j := by
          rintro ⟨m', hm', -, htx⟩
          exact hm (List.mem_map.mpr ⟨m', hm', htx.trans hj⟩)
        have hyes : Receives (m :: ms) device j := hcons.mpr (.inl ⟨hd, hj.symm⟩)
        rw [if_neg fun h => hnot h.1, trySend_queue]
        by_cases hroom : s.hasRoom j = true
        · rw [if_pos ⟨hj, hroom⟩, if_pos ⟨hyes, hroom⟩]
        · rw [if_neg fun h => hroom h.2, if_neg fun h => hroom h.2]
      · obtain ⟨hq, hroom⟩ := s.trySend_other p hj
        rw [hq, hroom]
        simp only [hcons, Ne.symm hj, and_false, false_or]

/-- A broadcast changes nothing but queues. -/
theorem offers_eq (device : String) (p : Parcel) (ms : List Member) (s : Traffic) :
    ms.foldl (offer device p) s = { s with queue := (ms.foldl (offer device p) s).queue } := by
  induction ms generalizing s with
  | nil => rfl
  | cons m ms ih =>
    rw [List.foldl_cons, ih]
    unfold offer trySend
    split_ifs <;> rfl

theorem broadcast_eq (group device : String) (p : Parcel) (s : Traffic) :
    s.broadcast group device p = { s with queue := (s.broadcast group device p).queue } :=
  offers_eq device p _ s

end Traffic
end Zsync
