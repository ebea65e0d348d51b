import Mathlib.Data.List.Infix
import Mathlib.Tactic.Common

/-! # Marks that stand before a pair

A text is read from left to right. A mark with a pair of symbols behind it that has a value is read as that value,
everything else as it stands; the reader is a function of what values the pairs have.

* `Apart` : no mark is part of a pair that has a value, so the readers come past every mark.
* `unescape_eq_iff` : a reader that gives values to more pairs reads a text in the same way exactly when none of
  these pairs stands behind a mark.
-/

namespace Foundations.Escapes
set_option autoImplicit false
set_option maxHeartbeats 250000

universe u
variable {α : Type u}

def unescape [DecidableEq α] (mark : α) (value : α → α → Option α) : List α → List α
  | b :: x :: y :: rest =>
    if b = mark then
      match value x y with
      | some v => v :: unescape mark value rest
      | none => b :: unescape mark value (x :: y :: rest)
    else b :: unescape mark value (x :: y :: rest)
  | b :: rest => b :: unescape mark value rest
  | [] => []

def Apart (mark : α) (value : α → α → Option α) : Prop :=
  ∀ x y, (value x y).isSome → x ≠ mark ∧ y ≠ mark

/-- Both give the pairs of the text that stand behind marks the same values. -/
def Agree (mark : α) (f g : α → α → Option α) (text : List α) : Prop :=
  ∀ x y, [mark, x, y] <:+: text → f x y = g x y

variable {mark : α} {f g value : α → α → Option α} {b x y : α} {text rest : List α}

/-! ## Texts -/

theorem agree_cons (h : b ≠ mark) : Agree mark f g (b :: text) ↔ Agree mark f g text := by
  constructor
  · intro hagree x y hin
    exact hagree x y (List.infix_cons hin)
  · intro hagree x y hin
    obtain hfront | hin := List.infix_cons_iff.mp hin
    · exact absurd (List.cons_prefix_cons.mp hfront).1.symm h
    · exact hagree x y hin

theorem agree_short (h : text.length < 3) : Agree mark f g text := by
  intro x y hin
  have hlen := hin.length_le
  simp only [List.length_cons, List.length_nil] at hlen
  omega

theorem length_lt_two {text : List α} (h : ∀ x y rest, text = x :: y :: rest → False) : text.length < 2 := by
  match text, h with
  | [], _ => simp
  | [_], _ => simp
  | x :: y :: rest, h => cases h x y rest rfl

theorem agree_mark : Agree mark f g (mark :: x :: y :: rest) ↔ f x y = g x y ∧ Agree mark f g (x :: y :: rest) := by
  constructor
  · intro hagree
    refine ⟨hagree x y ⟨[], rest, rfl⟩, fun x' y' hin => hagree x' y' (List.infix_cons hin)⟩
  · rintro ⟨heq, hagree⟩ x' y' hin
    obtain hfront | hin := List.infix_cons_iff.mp hin
    · obtain ⟨-, hfront⟩ := List.cons_prefix_cons.mp hfront
      obtain ⟨hx, hfront⟩ := List.cons_prefix_cons.mp hfront
      rw [hx, (List.cons_prefix_cons.mp hfront).1]
      exact heq
    · exact hagree x' y' hin

/-! ## Readers -/

variable [DecidableEq α]

@[simp] theorem unescape_nil : unescape mark value [] = [] := rfl

theorem unescape_cons (h : b ≠ mark) : unescape mark value (b :: text) = b :: unescape mark value text := by
  match text with
  | [] => rfl
  | [_] => rfl
  | x :: y :: rest => rw [unescape, if_neg h]

/-- Too little stands behind the symbol. -/
theorem unescape_short (h : text.length < 2) : unescape mark value (b :: text) = b :: unescape mark value text := by
  match text, h with
  | [], _ => rfl
  | [_], _ => rfl

theorem unescape_some {v : α} (h : value x y = some v) :
    unescape mark value (mark :: x :: y :: rest) = v :: unescape mark value rest := by
  rw [unescape, if_pos rfl, h]

theorem unescape_none (h : value x y = none) :
    unescape mark value (mark :: x :: y :: rest) = mark :: unescape mark value (x :: y :: rest) := by
  rw [unescape, if_pos rfl, h]

/-- A pair without marks, left as it stands. -/
theorem unescape_pair (hx : x ≠ mark) (hy : y ≠ mark) :
    unescape mark value (x :: y :: rest) = x :: y :: unescape mark value rest := by
  rw [unescape_cons hx, unescape_cons hy]

/-! ## Two readers -/

section
variable (hextends : ∀ x y v, f x y = some v → g x y = some v) (happart : Apart mark g)
include hextends happart

/-- The reader that knows more pairs never writes more. -/
theorem unescape_length_le (text : List α) :
    (unescape mark g text).length ≤ (unescape mark f text).length := by
  induction text using unescape.induct mark f with
  | case1 x y rest v hf ih =>
    rw [unescape_some hf, unescape_some (hextends x y v hf)]
    simpa using ih
  | case2 x y rest hf ih =>
    rw [unescape_none hf]
    cases hg : g x y with
    | none =>
      rw [unescape_none hg]
      simpa using ih
    | some v =>
      obtain ⟨hx, hy⟩ := happart x y (by rw [hg]; rfl)
      rw [unescape_pair hx hy, unescape_pair hx hy] at ih
      rw [unescape_some hg, unescape_pair hx hy]
      simp only [List.length_cons] at ih ⊢
      omega
  | case3 b x y rest hb ih =>
    rw [unescape_cons hb, unescape_cons hb]
    simpa using ih
  | case4 b rest hshort ih =>
    have hlen := length_lt_two hshort
    rw [unescape_short hlen, unescape_short hlen]
    simpa using ih
  | case5 => exact Nat.le_refl _

theorem unescape_eq_iff (text : List α) :
    unescape mark f text = unescape mark g text ↔ Agree mark f g text := by
  induction text using unescape.induct mark f with
  | case1 x y rest v hf ih =>
    have hg := hextends x y v hf
    obtain ⟨hx, hy⟩ := happart x y (by rw [hg]; rfl)
    rw [unescape_some hf, unescape_some hg, agree_mark, agree_cons hx, agree_cons hy, ← ih]
    simp [hf, hg]
  | case2 x y rest hf ih =>
    rw [unescape_none hf, agree_mark]
    cases hg : g x y with
    | none =>
      rw [unescape_none hg, ← ih]
      simp [hf]
    | some v =>
      -- Here the readers part for good: one has read a symbol where the other has read three.
      obtain ⟨hx, hy⟩ := happart x y (by rw [hg]; rfl)
      have hle := unescape_length_le hextends happart rest
      refine iff_of_false (fun heq => ?_) (fun h => ?_)
      · have hlen := congrArg List.length heq
        rw [unescape_some hg, unescape_pair hx hy] at hlen
        simp only [List.length_cons] at hlen
        omega
      · rw [hf] at h
        cases h.1
  | case3 b x y rest hb ih =>
    rw [unescape_cons hb, unescape_cons hb, agree_cons hb, ← ih]
    exact List.cons_inj_right b
  | case4 b rest hshort ih =>
    have hlen := length_lt_two hshort
    have hsmall : (b :: rest).length < 3 := by
      rw [List.length_cons]
      omega
    rw [unescape_short hlen, unescape_short hlen, ih.mpr (agree_short (by omega))]
    exact iff_of_true rfl (agree_short hsmall)
  | case5 => exact iff_of_true rfl (agree_short (by simp))

end
end Foundations.Escapes
