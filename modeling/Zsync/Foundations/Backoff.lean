import Mathlib.Algebra.Group.Nat.Defs
import Mathlib.Tactic.Common
import Mathlib.Data.List.Induction

/-! # Backoff that doubles up to a cap

After each attempt there is a wait. The waits double, up to a cap, and start over after some of the attempts:
`resets` tells for each attempt, the first one first, whether they do.

* `waitNumber` counts the waits since they last started over; `wait` is the wait with that number.
* `wait_double` and `waitNumber_concat` : keeping the last wait is enough to go on.
* `waits_eq_iff` : two sequences of attempts are waited for alike exactly when they start over alike, the
  first attempt aside.
-/

namespace Foundations.Backoff
set_option autoImplicit false
set_option maxHeartbeats 250000

/-- The number, counted from the last attempt that resets, of the wait after the last attempt. -/
def waitNumber (resets : List Bool) : ℕ :=
  match resets.reverse.findIdx? id with
  | some i => i + 1
  | none => resets.length

def wait (cap k : ℕ) : ℕ := min (2 ^ (k - 1)) cap

/-- The waits after all the attempts. -/
def waits (cap : ℕ) (resets : List Bool) : List ℕ :=
  (List.range resets.length).map fun i => wait cap (waitNumber (resets.take (i + 1)))

variable {cap : ℕ}

@[simp] theorem waitNumber_nil : waitNumber [] = 0 := rfl

theorem waitNumber_concat (resets : List Bool) (b : Bool) :
    waitNumber (resets ++ [b]) = if b then 1 else waitNumber resets + 1 := by
  unfold waitNumber
  rw [List.reverse_concat, List.findIdx?_cons, List.length_append, List.length_singleton]
  cases b with
  | true => rfl
  | false =>
    simp only [id_eq, Bool.false_eq_true, if_false]
    cases resets.reverse.findIdx? id with
    | some i => rfl
    | none => rfl

theorem waitNumber_pos {resets : List Bool} (h : resets ≠ []) : 0 < waitNumber resets := by
  obtain ⟨before, b, rfl⟩ := List.eq_nil_or_concat resets |>.resolve_left h
  rw [List.concat_eq_append, waitNumber_concat]
  split_ifs
  · exact Nat.one_pos
  · exact Nat.succ_pos _

/-- Whether the first attempt resets makes no difference. -/
theorem waitNumber_head (a b : Bool) (resets : List Bool) :
    waitNumber (a :: resets) = waitNumber (b :: resets) := by
  induction resets using List.reverseRecOn with
  | nil =>
    have hone : ∀ c, waitNumber [c] = 1 := fun c => by
      rw [← List.nil_append [c], waitNumber_concat]
      split_ifs <;> rfl
    rw [hone, hone]
  | append_singleton before c ih =>
    rw [← List.cons_append, ← List.cons_append, waitNumber_concat, waitNumber_concat, ih]

theorem wait_one (h : 1 ≤ cap) : wait cap 1 = 1 := by
  rw [wait, Nat.sub_self, Nat.pow_zero, Nat.min_eq_left h]

/-- The next wait. -/
theorem wait_double {k : ℕ} (h : 0 < k) : min (wait cap k * 2) cap = wait cap (k + 1) := by
  obtain ⟨n, rfl⟩ := Nat.exists_eq_succ_of_ne_zero (Nat.pos_iff_ne_zero.mp h)
  simp only [wait, Nat.add_sub_cancel, Nat.succ_eq_add_one, Nat.pow_succ]
  omega

theorem two_le_wait (hcap : 2 ≤ cap) {k : ℕ} (h : 2 ≤ k) : 2 ≤ wait cap k := by
  have hpow : 2 ^ 1 ≤ 2 ^ (k - 1) := Nat.pow_le_pow_right (by omega) (by omega)
  exact Nat.le_min.mpr ⟨by simpa using hpow, hcap⟩

theorem waits_concat (resets : List Bool) (b : Bool) :
    waits cap (resets ++ [b]) = waits cap resets ++ [wait cap (waitNumber (resets ++ [b]))] := by
  unfold waits
  rw [List.length_append, List.length_singleton, List.range_succ, List.map_append]
  congr 1
  · apply List.map_congr_left
    intro i hi
    rw [List.take_append_of_le_length (List.mem_range.mp hi)]
  · rw [List.map_singleton, List.take_of_length_le (by simp)]

/-- Where nothing resets, the waits only double. -/
theorem waits_replicate (cap n : ℕ) :
    waits cap (List.replicate n false) = (List.range n).map fun i => min (2 ^ i) cap := by
  have hnumber : ∀ m, waitNumber (List.replicate m false) = m := fun m => by
    induction m with
    | zero => rfl
    | succ m ih => rw [List.replicate_succ', waitNumber_concat, ih]; rfl
  induction n with
  | zero => rfl
  | succ n ih =>
    rw [List.replicate_succ', waits_concat, ih, ← List.replicate_succ', hnumber, List.range_succ,
      List.map_append, List.map_singleton, wait, Nat.add_sub_cancel]

@[simp] theorem waits_length (resets : List Bool) : (waits cap resets).length = resets.length := by
  simp [waits]

/-- The waits after the last attempts of two sequences that are alike before them. -/
theorem wait_concat_inj (hcap : 2 ≤ cap) {as bs : List Bool} (hne : as ≠ [])
    (h : waitNumber as = waitNumber bs) {a b : Bool} :
    wait cap (waitNumber (as ++ [a])) = wait cap (waitNumber (bs ++ [b])) ↔ a = b := by
  have hpos := waitNumber_pos hne
  have hone := wait_one (Nat.one_le_of_lt hcap)
  have htwo : 2 ≤ wait cap (waitNumber as + 1) := two_le_wait hcap (by omega)
  rw [waitNumber_concat, waitNumber_concat, ← h]
  cases a <;> cases b <;> simp [hone] <;> omega

theorem waits_eq_iff (hcap : 2 ≤ cap) {as bs : List Bool} (hlen : as.length = bs.length) :
    waits cap as = waits cap bs ↔ as.tail = bs.tail := by
  induction as using List.reverseRecOn generalizing bs with
  | nil =>
    obtain rfl := List.length_eq_zero_iff.mp hlen.symm
    exact iff_of_true rfl rfl
  | append_singleton as a ih =>
    obtain ⟨bs, b, rfl⟩ : ∃ bs' b, bs = bs' ++ [b] := by
      obtain rfl | ⟨bs', b, h⟩ := List.eq_nil_or_concat bs
      · simp at hlen
      · exact ⟨bs', b, by rw [h, List.concat_eq_append]⟩
    have hlen' : as.length = bs.length := by simpa using hlen
    have hsplit : waits cap (as ++ [a]) = waits cap (bs ++ [b]) ↔ as.tail = bs.tail ∧
        wait cap (waitNumber (as ++ [a])) = wait cap (waitNumber (bs ++ [b])) := by
      rw [waits_concat, waits_concat, ← ih hlen']
      constructor
      · intro h
        obtain ⟨h₁, h₂⟩ := List.append_inj h (by simpa using hlen')
        exact ⟨h₁, by simpa using h₂⟩
      · rintro ⟨h₁, h₂⟩
        rw [h₁, h₂]
    rw [hsplit]
    match as, bs, hlen' with
    | [], [], _ =>
      refine iff_of_true ⟨rfl, ?_⟩ rfl
      exact congrArg (wait cap) (waitNumber_head a b [])
    | x :: as, y :: bs, _ =>
      rw [List.tail_cons, List.tail_cons, List.cons_append, List.cons_append, List.tail_cons, List.tail_cons]
      constructor
      · rintro ⟨rfl, hw⟩
        rw [(wait_concat_inj hcap (by simp) (waitNumber_head x y as)).mp hw]
      · intro h
        obtain ⟨rfl, hab⟩ := List.append_inj' h rfl
        obtain rfl : a = b := by simpa using hab
        exact ⟨rfl, (wait_concat_inj hcap (by simp) (waitNumber_head x y as)).mpr rfl⟩

end Foundations.Backoff
