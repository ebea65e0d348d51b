import Zsync.Model.Saving

/-! # Sequence numbers are never reused

Every number that `next_seq` returned has been saved, and no save writes a smaller number than the
file holds. What a failed call leaves in memory only can be ahead of the file; after a crash it is
gone, and a number that nobody was given may come again.

* `Ordered` : the numbers returned, the number on disk, the number in memory.
* `BelowMax` : `next_seq` is not called at the largest `u64`.
-/

namespace Zsync
set_option autoImplicit false
set_option maxHeartbeats 250000
open Foundations

namespace Saving

/-- The sequence number that a restart would find. -/
def saved (s : Saving) : ℕ := (readable s.disk).seq

/-- Where the call stands with the process's memory `inner`. -/
structure OrderedCall (s : Saving) (inner : State) (c : StateCall) (stage : Stage) : Prop where
  /-- The number about to be returned is new. -/
  new : c = .nextSeq → ∀ n ∈ s.returned, n < inner.seq
  tmp_eq : stage = .rename → s.tmp = some inner
  disk_eq : stage = .ret → s.disk = some inner

structure Ordered (s : Saving) : Prop where
  sorted : s.returned.Pairwise (· < ·)
  persisted : ∀ n ∈ s.returned, n ≤ s.saved
  memory : ∀ p, s.process = some p → s.saved ≤ p.inner.seq
  call : ∀ p c stage, s.process = some p → p.busy = some (c, stage) → OrderedCall s p.inner c stage

/-- The counter does not wrap around. -/
def BelowMax (s : Saving) : SaveEvent → Prop
  | .call .nextSeq => ∀ p ∈ s.process, p.inner.seq + 1 < 2 ^ 64
  | _ => True

instance (s : Saving) (e : SaveEvent) : Decidable (BelowMax s e) :=
  match e with
  | .call .nextSeq => inferInstanceAs (Decidable (∀ p ∈ s.process, p.inner.seq + 1 < 2 ^ 64))
  | .call (.upsertPeer _ _) | .call (.removePeer _) | .reopen | .write _ | .rename _ | .ret
  | .crash _ => inferInstanceAs (Decidable True)

theorem ordered_start (disk tmp : Option State) : Ordered (start disk tmp) where
  sorted := List.Pairwise.nil
  persisted := fun _ hn => absurd hn List.not_mem_nil
  memory := fun _ hp => nomatch hp
  call := fun _ _ _ hp => nomatch hp

/-- An idle process with a memory that is no older than the file. -/
theorem Ordered.settled {s t : Saving} (h : Ordered s) {inner : State}
    (hret : t.returned = s.returned) (hdisk : t.disk = s.disk)
    (hp : t.process = some ⟨inner, none⟩) (hle : s.saved ≤ inner.seq) : Ordered t where
  sorted := hret ▸ h.sorted
  persisted := by
    rw [hret, saved, hdisk]
    exact h.persisted
  memory := by
    intro p hp'
    obtain rfl := Option.some.inj (hp.symm.trans hp')
    rwa [saved, hdisk]
  call := by
    intro p c stage hp' hb
    obtain rfl := Option.some.inj (hp.symm.trans hp')
    cases hb

theorem change_seq_le {c : StateCall} {s : State} (h : c = .nextSeq → s.seq + 1 < 2 ^ 64) :
    s.seq ≤ (c.change s).seq := by
  cases c with
  | nextSeq =>
    have hlt := h rfl
    change s.seq ≤ (s.seq + 1) % 2 ^ 64
    rw [Nat.mod_eq_of_lt hlt]
    omega
  | upsertPeer uri enabled => exact Nat.le_refl _
  | removePeer uri => cases uri <;> exact Nat.le_refl _

theorem Ordered.call_step {s t : Saving} {c : StateCall} (h : Ordered s) (hb : BelowMax s (.call c))
    (hs : Saving.step s (.call c) = some t) : Ordered t := by
  simp only [Saving.step] at hs
  split at hs
  · next inner hp =>
    obtain rfl := Option.some.inj hs
    have hmem := h.memory _ hp
    have hmax : c = .nextSeq → inner.seq + 1 < 2 ^ 64 := by
      rintro rfl
      exact hb _ hp
    refine ⟨h.sorted, h.persisted, ?_, ?_⟩
    · intro p hp'
      obtain rfl := Option.some.inj hp'
      exact Nat.le_trans hmem (change_seq_le hmax)
    · intro p c' stage hp' hbusy
      obtain rfl := Option.some.inj hp'
      obtain ⟨rfl, rfl⟩ := Prod.mk.inj (Option.some.inj hbusy)
      refine ⟨?_, (fun hst => nomatch hst), fun hst => nomatch hst⟩
      rintro rfl n hn
      have hle := Nat.le_trans (h.persisted n hn) hmem
      change n < (inner.seq + 1) % 2 ^ 64
      rw [Nat.mod_eq_of_lt (hmax rfl)]
      exact Nat.lt_succ_of_le hle
  · cases hs

theorem Ordered.write_step {s t : Saving} {ok : Bool} (h : Ordered s)
    (hs : Saving.step s (.write ok) = some t) : Ordered t := by
  simp only [Saving.step] at hs
  split at hs
  · next inner c hp =>
    have hmem := h.memory _ hp
    have hcall := h.call _ _ _ hp rfl
    cases ok with
    | false =>
      obtain rfl := Option.some.inj hs
      exact h.settled rfl rfl rfl hmem
    | true =>
      obtain rfl := Option.some.inj hs
      refine ⟨h.sorted, h.persisted, ?_, ?_⟩
      · intro p hp'
        obtain rfl := Option.some.inj hp'
        exact hmem
      · intro p c' stage hp' hbusy
        obtain rfl := Option.some.inj hp'
        obtain ⟨rfl, rfl⟩ := Prod.mk.inj (Option.some.inj hbusy)
        exact ⟨hcall.new, fun _ => rfl, fun hst => nomatch hst⟩
  · cases hs

theorem Ordered.rename_step {s t : Saving} {ok : Bool} (h : Ordered s)
    (hs : Saving.step s (.rename ok) = some t) : Ordered t := by
  simp only [Saving.step] at hs
  split at hs
  · next inner c hp =>
    have hmem := h.memory _ hp
    have hcall := h.call _ _ _ hp rfl
    cases ok with
    | false =>
      obtain rfl := Option.some.inj hs
      exact h.settled rfl rfl rfl hmem
    | true =>
      obtain rfl := Option.some.inj hs
      have htmp := hcall.tmp_eq rfl
      refine ⟨h.sorted, ?_, ?_, ?_⟩
      · intro n hn
        change n ≤ (readable s.tmp).seq
        rw [htmp]
        exact Nat.le_trans (h.persisted n hn) hmem
      · intro p hp'
        obtain rfl := Option.some.inj hp'
        change (readable s.tmp).seq ≤ inner.seq
        rw [htmp]
        exact Nat.le_refl _
      · intro p c' stage hp' hbusy
        obtain rfl := Option.some.inj hp'
        obtain ⟨rfl, rfl⟩ := Prod.mk.inj (Option.some.inj hbusy)
        exact ⟨hcall.new, (fun hst => nomatch hst), fun _ => htmp⟩
  · cases hs

theorem Ordered.ret_step {s t : Saving} (h : Ordered s) (hs : Saving.step s .ret = some t) :
    Ordered t := by
  simp only [Saving.step] at hs
  split at hs
  · next inner c hp =>
    obtain rfl := Option.some.inj hs
    have hmem := h.memory _ hp
    have hcall := h.call _ _ _ hp rfl
    have hdisk : s.saved = inner.seq := by
      rw [saved, hcall.disk_eq rfl]
      rfl
    have hvalue : ∀ n ∈ (c.value inner).toList, c = .nextSeq ∧ n = inner.seq := by
      intro n hn
      cases c with
      | nextSeq => exact ⟨rfl, List.mem_singleton.mp hn⟩
      | upsertPeer uri enabled => exact absurd hn List.not_mem_nil
      | removePeer uri => exact absurd hn List.not_mem_nil
    refine ⟨?_, ?_, ?_, ?_⟩
    · refine List.pairwise_append.mpr ⟨h.sorted, ?_, ?_⟩
      · cases c with
        | nextSeq => exact List.pairwise_singleton _ _
        | upsertPeer uri enabled => exact List.Pairwise.nil
        | removePeer uri => exact List.Pairwise.nil
      · intro m hm n hn
        obtain ⟨hc, rfl⟩ := hvalue n hn
        exact hcall.new hc m hm
    · intro n hn
      obtain hn | hn := List.mem_append.mp hn
      · exact h.persisted n hn
      · obtain ⟨-, rfl⟩ := hvalue n hn
        exact Nat.le_of_eq hdisk.symm
    · intro p hp'
      obtain rfl := Option.some.inj hp'
      exact hmem
    · intro p c' stage hp' hbusy
      obtain rfl := Option.some.inj hp'
      cases hbusy
  · cases hs

theorem Ordered.reopen_step {s t : Saving} (h : Ordered s) (hs : Saving.step s .reopen = some t) :
    Ordered t := by
  simp only [Saving.step] at hs
  split at hs
  · obtain rfl := Option.some.inj hs
    exact h.settled rfl rfl rfl (Nat.le_refl _)
  · cases hs

theorem Ordered.crash_step {s t : Saving} {torn : Bool} (h : Ordered s)
    (hs : Saving.step s (.crash torn) = some t) : Ordered t := by
  simp only [Saving.step] at hs
  split at hs
  · obtain rfl := Option.some.inj hs
    exact ⟨h.sorted, h.persisted, (fun _ hp => nomatch hp), fun _ _ _ hp => nomatch hp⟩
  · cases hs

theorem Ordered.step {s t : Saving} {e : SaveEvent} (h : Ordered s) (hb : BelowMax s e)
    (hs : Saving.step s e = some t) : Ordered t := by
  cases e with
  | reopen => exact h.reopen_step hs
  | call c => exact h.call_step hb hs
  | write ok => exact h.write_step hs
  | rename ok => exact h.rename_step hs
  | ret => exact h.ret_step hs
  | crash torn => exact h.crash_step hs

/-- The pairs that a hub puts on its clips, by its own name and the numbers returned. -/
def mintedIds (nodeId : String) (s : Saving) : List (String × ℕ) := s.returned.map fun n => (nodeId, n)

/-- Whatever fails and whenever the process dies, the numbers returned increase. -/
theorem returned_increasing {disk tmp : Option State} {es : List SaveEvent} {s : Saving}
    (hmax : Guarded Saving.step BelowMax (start disk tmp) es)
    (hr : exec Saving.step (start disk tmp) es = some s) :
    s.returned.Pairwise (· < ·) ∧ ∀ nodeId, (s.mintedIds nodeId).Nodup := by
  have h : Ordered s :=
    exec_guarded (fun _ _ _ h hb hs => h.step hb hs) (ordered_start disk tmp) hmax hr
  refine ⟨h.sorted, fun nodeId => ?_⟩
  refine h.sorted.map _ fun m n hlt heq => ?_
  exact Nat.ne_of_lt hlt (Prod.mk.inj heq).2

/-- A failed write, a peer saved after it, and a crash between two calls. -/
def crashingRun : List SaveEvent :=
  [.reopen, .call .nextSeq, .write true, .rename true, .ret, .call .nextSeq, .write false,
    .call (.upsertPeer "zsync://desk" true), .write true, .rename true, .crash false, .reopen,
    .call .nextSeq, .write true, .rename true, .ret]

theorem crashingRun_increasing :
    ∃ s, exec Saving.step (start (some ⟨4, []⟩) none) crashingRun = some s ∧ s.returned = [5, 7] ∧
      s.returned.Pairwise (· < ·) := by
  have hmax : Guarded Saving.step BelowMax (start (some ⟨4, []⟩) none) crashingRun := by decide
  exact ⟨_, rfl, rfl, (returned_increasing hmax rfl).1⟩

end Saving
end Zsync
