import Zsync.Foundations.Streams

/-! # Lines and what follows them

A reader takes one message from the front of a stream. `Taker.all` takes messages until that fails.

* `Taker.all_written` : what was written message by message is read back, and then the stream is at its end.
* `readLine` : one symbol at a time up to a separator, with a limit on the line.
-/

namespace Foundations
set_option autoImplicit false
set_option maxHeartbeats 250000

universe u v w
variable {α : Type u} {β : Type w} {ε : Type v}

/-- A reader that uses up a part of the stream. -/
structure Taker (α : Type u) (β : Type w) (ε : Type v) where
  take : List α → Except ε (β × List α)
  shorter : ∀ {s rest x}, take s = .ok (x, rest) → rest.length < s.length

namespace Taker
variable (t : Taker α β ε)

def all (s : List α) : List β × ε :=
  match _h : t.take s with
  | .error e => ([], e)
  | .ok (x, rest) => (x :: (all rest).1, (all rest).2)
termination_by s.length
decreasing_by all_goals exact t.shorter _h

theorem all_error {s : List α} {e : ε} (h : t.take s = .error e) : t.all s = ([], e) := by
  rw [all]
  split
  · next e' h' => rw [Except.error.inj (h'.symm.trans h)]
  · next x rest h' => cases h'.symm.trans h

theorem all_ok {s rest : List α} {x : β} (h : t.take s = .ok (x, rest)) :
    t.all s = (x :: (t.all rest).1, (t.all rest).2) := by
  rw [all]
  split
  · next e h' => cases h'.symm.trans h
  · next x' rest' h' =>
    obtain ⟨rfl, rfl⟩ := Prod.mk.inj (Except.ok.inj (h'.symm.trans h))
    rfl

/-- Messages that are each read back from what stands in front of any rest come out in order. -/
theorem all_written {γ : Type u} {e : ε} {write : γ → List α} {read : γ → β} {xs : List γ}
    (hend : t.take [] = .error e)
    (h : ∀ x ∈ xs, ∀ rest, t.take (write x ++ rest) = .ok (read x, rest)) :
    t.all (xs.flatMap write) = (xs.map read, e) := by
  induction xs with
  | nil => exact t.all_error hend
  | cons x xs ih =>
    obtain ⟨hx, hxs⟩ := List.forall_mem_cons.mp h
    rw [List.flatMap_cons, t.all_ok (hx _), ih hxs]
    rfl

end Taker

/-! ## Lines -/

section Lines
variable [DecidableEq α] (sep : α) (max : ℕ) (eof long : ε)

/-- `line` was read before. -/
def readLineFrom (line : List α) : List α → Except ε (List α × List α)
  | [] => .error eof
  | b :: s =>
    if b = sep then .ok (line, s)
    else if max < (line ++ [b]).length then .error long
    else readLineFrom (line ++ [b]) s

def readLine (s : List α) : Except ε (List α × List α) := readLineFrom sep max eof long [] s

theorem readLineFrom_append {line s : List α} (hsep : sep ∉ s) (hmax : (line ++ s).length ≤ max) (rest : List α) :
    readLineFrom sep max eof long line (s ++ sep :: rest) = .ok (line ++ s, rest) := by
  induction s generalizing line with
  | nil =>
    rw [List.append_nil]
    exact if_pos rfl
  | cons b s ih =>
    rw [List.mem_cons, not_or] at hsep
    rw [List.append_cons line b s] at hmax ⊢
    have hle : (line ++ [b]).length ≤ max := by
      rw [List.length_append] at hmax
      omega
    rw [List.cons_append, readLineFrom, if_neg (Ne.symm hsep.1), if_neg (Nat.not_lt.mpr hle)]
    exact ih hsep.2 hmax

/-- A line that is short enough is read, and no more. -/
theorem readLine_append {s : List α} (hsep : sep ∉ s) (hmax : s.length ≤ max) (rest : List α) :
    readLine sep max eof long (s ++ sep :: rest) = .ok (s, rest) := by
  have hmax' : ([] ++ s).length ≤ max := hmax
  exact readLineFrom_append sep max eof long hsep hmax' rest

theorem readLineFrom_long {line s : List α} (hsep : sep ∉ s) (hline : line.length ≤ max)
    (hmax : max < (line ++ s).length) (rest : List α) :
    readLineFrom sep max eof long line (s ++ rest) = .error long := by
  induction s generalizing line with
  | nil =>
    rw [List.append_nil] at hmax
    omega
  | cons b s ih =>
    rw [List.mem_cons, not_or] at hsep
    rw [List.cons_append, readLineFrom, if_neg (Ne.symm hsep.1)]
    split_ifs with hlong
    · rfl
    · rw [List.append_cons] at hmax
      exact ih hsep.2 (Nat.not_lt.mp hlong) hmax

/-- A longer line is refused, whatever follows. -/
theorem readLine_long {s : List α} (hsep : sep ∉ s) (hmax : max < s.length) (rest : List α) :
    readLine sep max eof long (s ++ rest) = .error long := by
  have hnil : ([] : List α).length ≤ max := Nat.zero_le max
  have hmax' : max < ([] ++ s).length := hmax
  exact readLineFrom_long sep max eof long hsep hnil hmax' rest

theorem readLineFrom_shorter {line s rest got : List α}
    (h : readLineFrom sep max eof long line s = .ok (got, rest)) : rest.length < s.length := by
  induction s generalizing line with
  | nil => cases h
  | cons b s ih =>
    rw [readLineFrom] at h
    split_ifs at h
    · obtain ⟨-, rfl⟩ := Prod.mk.inj (Except.ok.inj h)
      exact Nat.lt_succ_self _
    · exact Nat.lt_succ_of_lt (ih h)

end Lines
end Foundations
