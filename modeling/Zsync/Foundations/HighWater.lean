import Mathlib.Order.Lattice
import Mathlib.Logic.Function.Basic
import Mathlib.Tactic.Common

/-! # High-water marks, one for each key

A table of marks is offered values under keys. It takes a value that rises above the mark of its key, which is then
the mark; any other value leaves the table alone.

* `rises_after_iff` : whatever was offered before and under which keys, a value rises exactly when it is above all
  that was offered under its key, taken or not.
-/

namespace Foundations.HighWater
set_option autoImplicit false
set_option maxHeartbeats 250000

universe u v
variable {κ : Type u} {ν : Type v} [LinearOrder ν]

/-- `value` is above the mark of `key`, if there is one. -/
def Rises (marks : κ → Option ν) (key : κ) (value : ν) : Prop := ∀ mark ∈ marks key, mark < value

instance (marks : κ → Option ν) (key : κ) (value : ν) : Decidable (Rises marks key value) :=
  inferInstanceAs (Decidable (∀ mark ∈ marks key, mark < value))

variable [DecidableEq κ]

def offer (marks : κ → Option ν) (call : κ × ν) : κ → Option ν :=
  if Rises marks call.1 call.2 then Function.update marks call.1 (some call.2) else marks

def after (calls : List (κ × ν)) : κ → Option ν := calls.foldl offer fun _ => none

variable {marks : κ → Option ν} {key : κ} {value : ν}

theorem offer_rising (h : Rises marks key value) :
    offer marks (key, value) = Function.update marks key (some value) := if_pos h

theorem offer_falling (h : ¬ Rises marks key value) : offer marks (key, value) = marks := if_neg h

theorem offer_other (marks : κ → Option ν) {call : κ × ν} (h : call.1 ≠ key) :
    offer marks call key = marks key := by
  unfold offer
  split_ifs
  · exact Function.update_of_ne h.symm _ _
  · rfl

/-- A value rises after an offer exactly when it did before and is above what was offered under its key. -/
theorem rises_offer (marks : κ → Option ν) (call : κ × ν) :
    Rises (offer marks call) key value ↔ Rises marks key value ∧ (call.1 = key → call.2 < value) := by
  by_cases hkey : call.1 = key
  · subst hkey
    by_cases hrise : Rises marks call.1 call.2
    · rw [offer_rising hrise]
      constructor
      · intro h
        have hlt : call.2 < value := h call.2 (Function.update_self _ _ _)
        exact ⟨fun mark hmark => (hrise mark hmark).trans hlt, fun _ => hlt⟩
      · rintro ⟨-, hlt⟩ mark hmark
        rw [Function.update_self] at hmark
        obtain rfl := Option.some.inj hmark
        exact hlt rfl
    · rw [offer_falling hrise]
      -- The mark in the way of the call is below everything that rises.
      refine ⟨fun h => ⟨h, fun _ => ?_⟩, fun h => h.1⟩
      obtain ⟨mark, hmark, hle⟩ : ∃ mark ∈ marks call.1, ¬ mark < call.2 := by
        simpa [Rises] using hrise
      exact (not_lt.mp hle).trans_lt (h mark hmark)
  · unfold Rises
    rw [offer_other marks hkey]
    exact ⟨fun h => ⟨h, fun heq => absurd heq hkey⟩, fun h => h.1⟩

theorem rises_foldl (calls : List (κ × ν)) (marks : κ → Option ν) :
    Rises (calls.foldl offer marks) key value ↔
      Rises marks key value ∧ ∀ call ∈ calls, call.1 = key → call.2 < value := by
  induction calls generalizing marks with
  | nil => simp
  | cons call calls ih => rw [List.foldl_cons, ih, rises_offer, List.forall_mem_cons, and_assoc]

theorem rises_after_iff (calls : List (κ × ν)) (key : κ) (value : ν) :
    Rises (after calls) key value ↔ ∀ call ∈ calls, call.1 = key → call.2 < value := by
  have hempty : Rises (fun _ => none) key value := fun _ h => by cases h
  rw [after, rises_foldl]
  exact and_iff_right hempty

end Foundations.HighWater
