import Mathlib.Data.Finset.Erase
import Mathlib.Data.Finset.Insert
import Mathlib.Logic.Function.Basic

/-! # Claims on keys

Tasks claim keys in a shared table, and a task that holds a key releases it when it ends. `holds`
says which key each task holds. Nothing here knows what tasks and keys are.

* `Owned` : whatever a task holds is in the table, and no two tasks hold the same key.
* `Accounted` : every key of the table is held.
* `claim`, `release` and `lose` are the three ways in which a task changes what it holds; only the
  last one leaves a key in the table that nobody holds.
-/

namespace Foundations
set_option autoImplicit false
set_option maxHeartbeats 250000

universe u v
variable {ι : Type u} {κ : Type v} [DecidableEq ι] [DecidableEq κ]

structure Owned (table : Finset κ) (holds : ι → Option κ) : Prop where
  listed : ∀ i k, holds i = some k → k ∈ table
  single : ∀ i j k, holds i = some k → holds j = some k → i = j

def Accounted (table : Finset κ) (holds : ι → Option κ) : Prop :=
  ∀ k ∈ table, ∃ i, holds i = some k

variable {table : Finset κ} {holds : ι → Option κ} {i : ι} {k : κ}

omit [DecidableEq ι] [DecidableEq κ] in
theorem Owned.holder (h : Owned table holds) (ha : Accounted table holds) (hk : k ∈ table) :
    ∃! i, holds i = some k := by
  obtain ⟨i, hi⟩ := ha k hk
  exact ⟨i, hi, fun j hj => h.single j i k hj hi⟩

omit [DecidableEq ι] [DecidableEq κ] in
theorem owned_empty (hnone : ∀ i, holds i = none) : Owned (∅ : Finset κ) holds where
  listed := fun i k hi => by rw [hnone i] at hi; cases hi
  single := fun i j k hi _ => by rw [hnone i] at hi; cases hi

/-! ## Claiming -/

theorem Owned.claim (h : Owned table holds) (hk : k ∉ table) :
    Owned (insert k table) (Function.update holds i (some k)) := by
  have hfree : ∀ j, holds j ≠ some k := fun j hj => hk (h.listed j k hj)
  refine ⟨fun j l hj => ?_, fun j j' l hj hj' => ?_⟩
  · rw [Function.update_apply] at hj
    split_ifs at hj
    · exact Finset.mem_insert.mpr (.inl (Option.some.inj hj).symm)
    · exact Finset.mem_insert_of_mem (h.listed j l hj)
  · rw [Function.update_apply] at hj hj'
    split_ifs at hj hj' with h1 h2 h2
    · rw [h1, h2]
    · exact absurd (hj' ▸ hj.symm) (hfree j')
    · exact absurd (hj ▸ hj'.symm) (hfree j)
    · exact h.single j j' l hj hj'

theorem Accounted.claim (h : Accounted table holds) (hi : holds i = none) :
    Accounted (insert k table) (Function.update holds i (some k)) := by
  intro l hl
  obtain rfl | hl := Finset.mem_insert.mp hl
  · exact ⟨i, Function.update_self _ _ _⟩
  · obtain ⟨j, hj⟩ := h l hl
    have hne : j ≠ i := by
      rintro rfl
      rw [hi] at hj
      cases hj
    exact ⟨j, by rw [Function.update_of_ne hne, hj]⟩

/-! ## Giving up a key -/

omit [DecidableEq κ] in
/-- A task that holds nothing any more. -/
theorem Owned.free (h : Owned table holds) : Owned table (Function.update holds i none) := by
  refine ⟨fun j l hj => ?_, fun j j' l hj hj' => ?_⟩
  · rw [Function.update_apply] at hj
    split_ifs at hj
    exact h.listed j l hj
  · rw [Function.update_apply] at hj hj'
    split_ifs at hj hj'
    exact h.single j j' l hj hj'

theorem Owned.release (h : Owned table holds) (hi : holds i = some k) :
    Owned (table.erase k) (Function.update holds i none) := by
  refine ⟨fun j l hj => ?_, h.free.single⟩
  refine Finset.mem_erase.mpr ⟨?_, h.free.listed j l hj⟩
  rintro rfl
  rw [Function.update_apply] at hj
  split_ifs at hj with hji
  exact hji (h.single j i l hj hi)

theorem Accounted.release (h : Accounted table holds) (hi : holds i = some k) :
    Accounted (table.erase k) (Function.update holds i none) := by
  intro l hl
  obtain ⟨hne, hl⟩ := Finset.mem_erase.mp hl
  obtain ⟨j, hj⟩ := h l hl
  have hji : j ≠ i := by
    rintro rfl
    exact hne (Option.some.inj (hj.symm.trans hi))
  exact ⟨j, by rw [Function.update_of_ne hji, hj]⟩

omit [DecidableEq κ] in
/-- A key that its holder gives up without releasing it is held by nobody. -/
theorem Owned.lose (h : Owned table holds) (hi : holds i = some k) :
    ¬ Accounted table (Function.update holds i none) := by
  intro ha
  obtain ⟨j, hj⟩ := ha k (h.listed i k hi)
  rw [Function.update_apply] at hj
  split_ifs at hj with hji
  exact hji (h.single j i k hj hi)

end Foundations
