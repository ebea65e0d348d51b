import Mathlib.Data.List.Basic
import Mathlib.Data.List.TakeWhile
import Mathlib.Tactic.Common

/-! # Text in quotes

A literal begins after a quote and ends at the next quote that is not escaped. Text is made fit for a literal by
replacing one symbol after the other, each everywhere.

* `Literals` : the rules, by which an escaped escape and an escaped quote stand for themselves.
* `quoted_eq` : the second replacement leaves what the first one wrote.
* `readLiteral_quoted` : quoted text is read as that text, and the literal ends where the text around it says.
* `pieces_around` : a program with quoted text in one place has one literal, and its code is what it was.
-/

namespace Foundations.Quoting
set_option autoImplicit false
set_option maxHeartbeats 250000

universe u
variable {α : Type u} [DecidableEq α]

structure Literals (α : Type u) where
  esc : α
  quote : α
  /-- What an escaped symbol stands for, if it may be escaped. -/
  escape : α → Option α
  esc_ne_quote : esc ≠ quote
  escape_esc : escape esc = some esc
  escape_quote : escape quote = some quote

/-- Every `c` is replaced, in one pass from left to right. -/
def replace (c : α) (new text : List α) : List α := text.flatMap fun d => if d = c then new else [d]

/-- A program between literals, and the values of these. -/
inductive Piece (α : Type u)
  | code (text : List α)
  | literal (value : List α)
  deriving DecidableEq, Repr

namespace Literals
variable (l : Literals α)

/-! ## Reading -/

/-- The value of the literal whose opening quote was read, and what stands behind its closing one. -/
def readLiteral : List α → Option (List α × List α)
  | [] => none
  | c :: rest =>
    if c = l.quote then some ([], rest)
    else if c = l.esc then
      match rest with
      | [] => none
      | d :: rest => (l.escape d).bind fun v => (readLiteral rest).map fun (value, rest) => (v :: value, rest)
    else (readLiteral rest).map fun (value, rest) => (c :: value, rest)

variable {l : Literals α} {c v : α} {text rest : List α}

theorem readLiteral_end : l.readLiteral (l.quote :: rest) = some ([], rest) := by
  rw [readLiteral.eq_def]
  dsimp only
  rw [if_pos rfl]

theorem readLiteral_escaped (h : l.escape c = some v) : l.readLiteral (l.esc :: c :: rest) =
    (l.readLiteral rest).map fun (value, rest) => (v :: value, rest) := by
  rw [readLiteral, if_neg l.esc_ne_quote, if_pos rfl]
  dsimp only
  rw [h, Option.bind_some]

theorem readLiteral_plain (hquote : c ≠ l.quote) (hesc : c ≠ l.esc) : l.readLiteral (c :: rest) =
    (l.readLiteral rest).map fun (value, rest) => (c :: value, rest) := by
  rw [readLiteral.eq_def]
  dsimp only
  rw [if_neg hquote, if_neg hesc]

theorem readLiteral_length {value : List α} (h : l.readLiteral text = some (value, rest)) :
    rest.length < text.length := by
  induction text using readLiteral.induct l generalizing value with
  | case1 => cases h
  | case2 text =>
    rw [readLiteral_end] at h
    obtain ⟨-, rfl⟩ := Prod.mk.inj (Option.some.inj h)
    exact Nat.lt_succ_self _
  | case3 hne =>
    rw [readLiteral.eq_def] at h
    simp [hne] at h
  | case4 c text _ ih =>
    cases hc : l.escape c with
    | none =>
      rw [readLiteral.eq_def] at h
      simp [l.esc_ne_quote, hc] at h
    | some v =>
      rw [readLiteral_escaped hc] at h
      obtain ⟨⟨value', rest'⟩, hread, hpair⟩ := Option.map_eq_some_iff.mp h
      obtain ⟨-, rfl⟩ := Prod.mk.inj hpair
      have hlt := ih hread
      simp only [List.length_cons]
      omega
  | case5 c text hquote hesc ih =>
    rw [readLiteral_plain hquote hesc] at h
    obtain ⟨⟨value', rest'⟩, hread, hpair⟩ := Option.map_eq_some_iff.mp h
    obtain ⟨-, rfl⟩ := Prod.mk.inj hpair
    have hlt := ih hread
    simp only [List.length_cons]
    omega

variable (l)

/-- The pieces of a program, unless a literal in it does not end. -/
def pieces (program : List α) : Option (List (Piece α)) :=
  match _hquote : program.dropWhile fun c => c ≠ l.quote with
  | [] => some [.code program]
  | _ :: rest =>
    match _hread : l.readLiteral rest with
    | none => none
    | some (value, after) =>
      (pieces after).map fun ps => .code (program.takeWhile fun c => c ≠ l.quote) :: .literal value :: ps
termination_by program.length
decreasing_by
  have hlt := readLiteral_length _hread
  have hle : (program.dropWhile fun c => c ≠ l.quote).length ≤ program.length :=
    (List.dropWhile_suffix _).length_le
  rw [_hquote, List.length_cons] at hle
  omega

variable {l}

/-- Up to the first quote a program is code. -/
theorem code_before {before : List α} (h : l.quote ∉ before) (rest : List α) :
    ((before ++ l.quote :: rest).takeWhile fun c => c ≠ l.quote) = before ∧
      ((before ++ l.quote :: rest).dropWhile fun c => c ≠ l.quote) = l.quote :: rest := by
  have hall : ∀ c ∈ before, decide (c ≠ l.quote) = true := fun c hc => decide_eq_true fun heq => h (heq ▸ hc)
  constructor
  · rw [List.takeWhile_append_of_pos hall, List.takeWhile_cons_of_neg (by simp), List.append_nil]
  · rw [List.dropWhile_append_of_pos hall, List.dropWhile_cons_of_neg (by simp)]

theorem pieces_code (h : l.quote ∉ text) : l.pieces text = some [.code text] := by
  have hdrop : (text.dropWhile fun c => c ≠ l.quote) = [] := by
    rw [List.dropWhile_eq_nil_iff]
    exact fun c hc => decide_eq_true fun heq => h (heq ▸ hc)
  rw [pieces]
  split
  · rfl
  · next hcons =>
    rw [hdrop] at hcons
    cases hcons

theorem pieces_literal {before value after : List α} (h : l.quote ∉ before)
    (hread : l.readLiteral rest = some (value, after)) : l.pieces (before ++ l.quote :: rest) =
      (l.pieces after).map fun ps => .code before :: .literal value :: ps := by
  obtain ⟨htake, hdrop⟩ := code_before h rest
  rw [pieces]
  split
  · next hnil =>
    rw [hdrop] at hnil
    cases hnil
  · next hcons =>
    rw [hdrop] at hcons
    obtain ⟨-, rfl⟩ := List.cons_eq_cons.mp hcons
    split
    · next hnone =>
      rw [hread] at hnone
      cases hnone
    · next hsome =>
      rw [hread] at hsome
      obtain ⟨rfl, rfl⟩ := Prod.mk.inj (Option.some.inj hsome)
      rw [htake]

variable (l)

/-! ## Writing -/

/-- Text made fit for a literal, in two passes. -/
def quoted (text : List α) : List α :=
  replace l.quote [l.esc, l.quote] (replace l.esc [l.esc, l.esc] text)

variable {l}

theorem replace_flatMap {c : α} {new text : List α} {f : α → List α} :
    replace c new (text.flatMap f) = text.flatMap fun d => replace c new (f d) := List.flatMap_assoc

/-- The passes do not get in each other's way: the second one finds the quotes of the text only, and the escapes that
the first one wrote are no quotes. -/
theorem quoted_eq (text : List α) :
    l.quoted text = text.flatMap fun c => if c = l.esc ∨ c = l.quote then [l.esc, c] else [c] := by
  rw [quoted, replace.eq_def l.esc, replace_flatMap]
  congr 1
  funext c
  by_cases hesc : c = l.esc
  · simp [replace, hesc, l.esc_ne_quote]
  · by_cases hquote : c = l.quote
    · simp [replace, hquote, l.esc_ne_quote.symm]
    · simp [replace, hesc, hquote]

/-- Quoted text is one literal, whose value is that text. -/
theorem readLiteral_quoted (text rest : List α) :
    l.readLiteral (l.quoted text ++ l.quote :: rest) = some (text, rest) := by
  rw [quoted_eq]
  induction text with
  | nil => exact readLiteral_end
  | cons c text ih =>
    rw [List.flatMap_cons, List.append_assoc]
    split_ifs with hc
    · have hescape : l.escape c = some c := by
        obtain rfl | rfl := hc
        · exact l.escape_esc
        · exact l.escape_quote
      rw [List.cons_append, List.singleton_append, readLiteral_escaped hescape, ih, Option.map_some]
    · rw [not_or] at hc
      rw [List.singleton_append, readLiteral_plain hc.2 hc.1, ih, Option.map_some]

/-- A program with quoted text in one place. -/
theorem pieces_around {before after : List α} (hbefore : l.quote ∉ before) (hafter : l.quote ∉ after)
    (text : List α) : l.pieces (before ++ l.quote :: (l.quoted text ++ l.quote :: after)) =
      some [.code before, .literal text, .code after] := by
  rw [pieces_literal hbefore (readLiteral_quoted text after), pieces_code hafter, Option.map_some]

end Literals
end Foundations.Quoting
