import Mathlib.Tactic.Common
import Mathlib.Data.List.Basic
import Mathlib.Logic.Function.Basic

/-! # Broadcast channels that drop their oldest messages

Every receiver of a channel has its own position in the sequence of the messages sent. The channel
keeps the last `cap` of them. A receiver whose next message is no longer kept is told how many it has
missed, and goes on with the oldest one that is.

* `Channel.pending` : the messages that a receiver has not passed yet, kept or not.
* `recv_cases` : what one attempt to receive does to them.
* `KeepsLast ys xs` says that messages of `xs` were lost, but not the last one.
-/

namespace Foundations
set_option autoImplicit false
set_option maxHeartbeats 250000

universe u v

structure Channel (ρ : Type u) (α : Type v) where
  /-- Every message that was sent. -/
  log : List α
  pos : ρ → ℕ
  pos_le : ∀ r, pos r ≤ log.length

inductive Received (α : Type v)
  | lagged (missed : ℕ)
  | message (a : α)
  deriving DecidableEq, Repr

namespace Channel
variable {ρ : Type u} {α : Type v}

/-- A channel on which nothing was sent. -/
def new : Channel ρ α := ⟨[], fun _ => 0, fun _ => Nat.le_refl 0⟩

def sends (as : List α) (c : Channel ρ α) : Channel ρ α where
  log := c.log ++ as
  pos := c.pos
  pos_le := fun r => by
    rw [List.length_append]
    exact Nat.le_add_right_of_le (c.pos_le r)

def pending (c : Channel ρ α) (r : ρ) : List α := c.log.drop (c.pos r)

@[simp] theorem sends_log (as : List α) (c : Channel ρ α) : (c.sends as).log = c.log ++ as := rfl

@[simp] theorem sends_nil (c : Channel ρ α) : c.sends [] = c := by
  cases c
  simp [sends]

@[simp] theorem sends_pending (as : List α) (c : Channel ρ α) (r : ρ) :
    (c.sends as).pending r = c.pending r ++ as :=
  List.drop_append_of_le_length (c.pos_le r)

theorem mem_log_of_pending {c : Channel ρ α} {r : ρ} {a : α} (h : a ∈ c.pending r) : a ∈ c.log :=
  List.mem_of_mem_drop h

variable [DecidableEq ρ]

def seek (r : ρ) (i : ℕ) (c : Channel ρ α) (hi : i ≤ c.log.length) : Channel ρ α where
  log := c.log
  pos := Function.update c.pos r i
  pos_le := fun x => by
    rw [Function.update_apply]
    split_ifs
    · exact hi
    · exact c.pos_le x

/-- `none` when there is nothing to receive. -/
def recv (cap : ℕ) (r : ρ) (c : Channel ρ α) : Option (Received α × Channel ρ α) :=
  if c.pos r + cap < c.log.length then
    some (.lagged (c.log.length - cap - c.pos r),
      c.seek r (c.log.length - cap) (Nat.sub_le _ _))
  else if h : c.pos r < c.log.length then
    some (.message (c.log.get ⟨c.pos r, h⟩), c.seek r (c.pos r + 1) h)
  else none

theorem seek_pending (r : ρ) (i : ℕ) (c : Channel ρ α) (hi : i ≤ c.log.length) :
    (c.seek r i hi).pending r = c.log.drop i := by
  rw [pending, seek]
  dsimp only
  rw [Function.update_self]

theorem seek_pending_of_ne {r x : ρ} (hx : x ≠ r) (i : ℕ) (c : Channel ρ α)
    (hi : i ≤ c.log.length) : (c.seek r i hi).pending x = c.pending x := by
  rw [pending, pending, seek]
  dsimp only
  rw [Function.update_of_ne hx]

theorem recv_eq_none {cap : ℕ} {r : ρ} {c : Channel ρ α} : c.recv cap r = none ↔ c.pending r = [] := by
  rw [pending, List.drop_eq_nil_iff, recv]
  split_ifs with hlag hnext
  · simp only [false_iff]
    omega
  · simp only [false_iff]
    omega
  · simp only [true_iff]
    omega

/-- The receiver gets its next message, or loses all but the last `cap`. -/
theorem recv_cases {cap : ℕ} {r : ρ} {c d : Channel ρ α} {m : Received α}
    (h : c.recv cap r = some (m, d)) : d.log = c.log ∧ (∀ x, x ≠ r → d.pending x = c.pending x) ∧
      ((∃ a, m = .message a ∧ c.pending r = a :: d.pending r) ∨
        ∃ lost, m = .lagged lost.length ∧ c.pending r = lost ++ d.pending r ∧
          (d.pending r).length = cap) := by
  unfold recv at h
  split_ifs at h with hlag hnext
  · obtain ⟨rfl, rfl⟩ := Prod.mk.inj (Option.some.inj h)
    refine ⟨rfl, fun x hx => seek_pending_of_ne hx _ c _, .inr ?_⟩
    rw [seek_pending]
    -- What lies between the old position and the oldest message kept is lost.
    refine ⟨(c.pending r).take (c.log.length - cap - c.pos r), ?_, ?_, ?_⟩
    · rw [List.length_take, pending, List.length_drop, Nat.min_eq_left (by omega)]
    · have hpos : c.log.drop (c.log.length - cap) =
          (c.pending r).drop (c.log.length - cap - c.pos r) := by
        rw [pending, List.drop_drop]
        congr 1
        omega
      rw [hpos, List.take_append_drop]
    · rw [List.length_drop]
      omega
  · obtain ⟨rfl, rfl⟩ := Prod.mk.inj (Option.some.inj h)
    refine ⟨rfl, fun x hx => seek_pending_of_ne hx _ c _, .inl ⟨_, rfl, ?_⟩⟩
    rw [seek_pending, pending]
    exact List.drop_eq_getElem_cons hnext

end Channel

/-! ## Losing messages, but not the last one -/

def KeepsLast {α : Type v} (ys xs : List α) : Prop :=
  ys.Sublist xs ∧ ys.getLast? = xs.getLast?

namespace KeepsLast
variable {α : Type v} {xs ys : List α}

theorem refl (xs : List α) : KeepsLast xs xs := ⟨List.Sublist.refl xs, rfl⟩

theorem concat (h : KeepsLast ys xs) (zs : List α) : KeepsLast (ys ++ zs) (xs ++ zs) :=
  ⟨h.1.append_right zs, by rw [List.getLast?_append, List.getLast?_append, h.2]⟩

/-- Losing what comes before something that stays. -/
theorem lose {lost kept : List α} (h : KeepsLast (ys ++ (lost ++ kept)) xs) (hk : kept ≠ []) :
    KeepsLast (ys ++ kept) xs := by
  refine ⟨((List.sublist_append_right lost kept).append_left ys).trans h.1, ?_⟩
  rw [← h.2, List.getLast?_append_of_ne_nil _ hk, List.getLast?_append_of_ne_nil _ (by simp [hk]),
    List.getLast?_append_of_ne_nil _ hk]

end KeepsLast

end Foundations
