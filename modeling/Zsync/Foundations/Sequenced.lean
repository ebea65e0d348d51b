import Mathlib.Data.List.Nodup
import Mathlib.Logic.Function.Basic

/-! # Updates in an order

Parties replace a value that they share. `apply` is what an update makes of a value, and `done` gives the
updates of the parties that have succeeded. Nothing here knows how they do it.

* `Sequenced` : the value is what the successful updates make of the first one, one after the other.
* `Sequenced.add` : one more update, of the value as it is.
* `Sequenced.perm` : the order is one of the successful parties, whatever it is.
-/

namespace Foundations
set_option autoImplicit false
set_option maxHeartbeats 250000

universe u v w x
variable {α : Type u} {κ : Type v} {ι : Type w} {ε : Type x}

/-- Every successful party stands in the order once. -/
structure Sequenced (apply : α → κ → Except ε α) (first now : α) (done : ι → Option κ) (order : List (ι × κ)) :
    Prop where
  nodup : (order.map Prod.fst).Nodup
  mem : ∀ i c, (i, c) ∈ order ↔ done i = some c
  replayed : (order.map Prod.snd).foldlM apply first = .ok now

namespace Sequenced
variable {apply : α → κ → Except ε α} {first now : α} {done : ι → Option κ} {order order' : List (ι × κ)}

theorem start (h : ∀ i, done i = none) : Sequenced apply first first done [] := by
  refine ⟨List.nodup_nil, fun i c => ?_, rfl⟩
  rw [h i]
  simp

theorem add [DecidableEq ι] (h : Sequenced apply first now done order) {i : ι} {c : κ} {next : α}
    (hi : done i = none) (hc : apply now c = .ok next) :
    Sequenced apply first next (Function.update done i (some c)) (order ++ [(i, c)]) where
  nodup := by
    rw [List.map_append, List.map_cons, List.map_nil]
    refine List.nodup_append.mpr ⟨h.nodup, List.nodup_singleton _, ?_⟩
    rintro j hj j' hj' rfl
    obtain rfl := List.mem_singleton.mp hj'
    obtain ⟨⟨j', c'⟩, hmem, rfl⟩ := List.mem_map.mp hj
    have hdone := (h.mem j' c').mp hmem
    rw [hi] at hdone
    cases hdone
  mem := by
    intro j c'
    rw [List.mem_append, List.mem_singleton, h.mem, Function.update_apply, Prod.mk.injEq]
    split_ifs with hj
    · subst hj
      simp [hi, eq_comm]
    · simp [hj]
  replayed := by
    rw [List.map_append, List.foldlM_append, h.replayed]
    change (apply now c >>= fun x => pure x) = _
    rw [bind_pure, hc]

theorem perm (h : Sequenced apply first now done order) (hnodup : order'.Nodup)
    (hmem : ∀ i c, (i, c) ∈ order' ↔ done i = some c) : order.Perm order' :=
  (List.perm_ext_iff_of_nodup h.nodup.of_map hnodup).mpr fun p => (h.mem p.1 p.2).trans (hmem p.1 p.2).symm

end Sequenced
end Foundations
