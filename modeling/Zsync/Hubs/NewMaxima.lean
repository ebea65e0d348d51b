import Mathlib.Order.Nat
import Zsync.Foundations.HighWater
import Zsync.Model.Suppress

/-! # Which sequence numbers are accepted

`SeenSeq` is a table of high-water marks whose keys are origins.

* `accept_eq` : `accept` is an offer to that table.
* `accept_iff_new` : it answers `true` exactly for the numbers above all earlier ones of their origin.
-/

namespace Zsync
set_option autoImplicit false
set_option maxHeartbeats 250000
open Foundations

namespace SeenSeq

theorem fresh_iff (s : SeenSeq) (origin : String) (seq : ℕ) :
    s.fresh origin seq = true ↔ HighWater.Rises s.last origin seq := by
  unfold fresh HighWater.Rises
  cases s.last origin with
  | none => simp
  | some prev => simp

theorem accept_eq (s : SeenSeq) (origin : String) (seq : ℕ) :
    s.accept origin seq = (s.fresh origin seq, ⟨HighWater.offer s.last (origin, seq)⟩) := by
  cases hf : s.fresh origin seq with
  | true =>
    rw [accept_of_fresh hf, HighWater.offer_rising ((s.fresh_iff origin seq).mp hf)]
  | false =>
    have hlow : ¬ HighWater.Rises s.last origin seq := fun h =>
      Bool.noConfusion (hf.symm.trans ((s.fresh_iff origin seq).mpr h))
    rw [accept_of_not_fresh hf, HighWater.offer_falling hlow]

def run (calls : List (String × ℕ)) : SeenSeq := calls.foldl (fun s call => (s.accept call.1 call.2).2) empty

theorem run_last (calls : List (String × ℕ)) : (run calls).last = HighWater.after calls := by
  have hfold : ∀ s : SeenSeq, (calls.foldl (fun s call => (s.accept call.1 call.2).2) s).last =
      calls.foldl HighWater.offer s.last := by
    induction calls with
    | nil => intro s; rfl
    | cons call calls ih =>
      intro s
      rw [List.foldl_cons, List.foldl_cons, ih, accept_eq]
  exact hfold empty

/-- After any calls, for any origins and in any order, `accept` takes a number exactly when it is above every earlier
one of its origin, rejected ones included, and a call that is rejected changes nothing. -/
theorem accept_iff_new (calls : List (String × ℕ)) (origin : String) (seq : ℕ) :
    (((run calls).accept origin seq).1 = true ↔ ∀ call ∈ calls, call.1 = origin → call.2 < seq) ∧
    (((run calls).accept origin seq).1 = false → ((run calls).accept origin seq).2 = run calls) := by
  constructor
  · rw [accept_eq, fresh_iff, run_last]
    exact HighWater.rises_after_iff calls origin seq
  · intro h
    rw [accept_eq] at h
    rw [accept_of_not_fresh h]

example : ((run [("a", 1), ("b", 7), ("a", 0)]).accept "a" 2).1 = true := by decide

end SeenSeq
end Zsync
