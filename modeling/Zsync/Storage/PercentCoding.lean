import Zsync.Foundations.Escapes
import Zsync.Storage.FileUris

/-! # `percent_decode` and percent-decoding

`percent_decode` leaves it to `u8::from_str_radix` which pairs are hexadecimal digits, and that function takes a sign
in the place of the first one.

* `decoded` : percent-decoding, where only two digits are an escape.
* `percentDecode_eq_decoded_iff` : the two agree on a text exactly when no `%` in it has a `+` and a digit behind it.
* `decoded_written` : what `file_uri` writes is read back by percent-decoding.
-/

namespace Zsync
set_option autoImplicit false
set_option maxHeartbeats 250000
open Foundations.Json Foundations.Escapes Foundations.UnixPaths
open Zsync.Group (hexByte)

namespace FileUri

def digit (b : UInt8) : Option ℕ := hexValue (Char.ofNat b.toNat)

def digitPair (x y : UInt8) : Option UInt8 :=
  (digit x).bind fun high => (digit y).map fun low => UInt8.ofNat (high * 16 + low)

/-- The pairs that `percent_decode` takes for a byte. -/
def readPair (x y : UInt8) : Option UInt8 := hexByte [x, y]

/-- Percent-decoding: a `%` with two hexadecimal digits behind it is a byte. -/
def decoded (bytes : List UInt8) : List UInt8 := unescape 0x25 digitPair bytes

/-- A `%` has a `+` and a hexadecimal digit behind it. -/
def SignEscaped (s : List Char) : Prop := ∃ d, (hexValue d).isSome ∧ ['%', '+', d] <:+: s

/-! ## Pairs -/

theorem readPair_plus (y : UInt8) : readPair 0x2B y = (digit y).map UInt8.ofNat := by
  rw [readPair, hexByte]
  exact if_pos rfl

theorem readPair_digits {x : UInt8} (h : x ≠ 0x2B) (y : UInt8) : readPair x y = digitPair x y := by
  rw [readPair, hexByte]
  exact if_neg h

theorem digitPair_plus (y : UInt8) : digitPair 0x2B y = none := by
  have hplus : digit 0x2B = none := by decide
  rw [digitPair, hplus, Option.bind_none]

theorem digitPair_eq_readPair_iff (x y : UInt8) :
    digitPair x y = readPair x y ↔ ¬ (x = 0x2B ∧ (digit y).isSome) := by
  by_cases hx : x = 0x2B
  · subst hx
    rw [digitPair_plus, readPair_plus]
    cases digit y with
    | none => simp
    | some n => simp
  · rw [readPair_digits hx]
    simp [hx]

theorem readPair_of_digitPair (x y v : UInt8) (h : digitPair x y = some v) : readPair x y = some v := by
  have hx : x ≠ 0x2B := by
    rintro rfl
    rw [digitPair_plus] at h
    cases h
  rw [readPair_digits hx, h]

theorem apart_percent : Apart 0x25 readPair := by
  have hnone : digit 0x25 = none := by decide
  intro x y h
  constructor
  · rintro rfl
    rw [readPair_digits (by decide), digitPair, hnone] at h
    cases h
  · rintro rfl
    by_cases hx : x = 0x2B
    · rw [hx, readPair_plus, hnone] at h
      cases h
    · rw [readPair_digits hx, digitPair, hnone] at h
      simp at h

theorem percentDecode_eq_unescape (bytes : List UInt8) :
    percentDecode bytes = unescape 0x25 readPair bytes := by
  induction bytes using percentDecode.induct with
  | case1 x y rest v hv ih => rw [percentDecode, if_pos rfl, unescape_some hv, hv, ih]
  | case2 x y rest hnone ih => rw [percentDecode, if_pos rfl, unescape_none hnone, hnone, ih]
  | case3 b x y rest hb ih => rw [percentDecode, if_neg hb, unescape_cons hb, ih]
  | case4 b rest hshort ih =>
    rw [unescape_short (length_lt_two hshort), ← ih]
    cases rest with
    | nil => rfl
    | cons x rest =>
      cases rest with
      | nil => rfl
      | cons y rest => cases hshort x y rest rfl
  | case5 => rfl

/-! ## Digits in a text -/

theorem utf8_sign {d : Char} (h : (hexValue d).isSome) : utf8 ['%', '+', d] = [0x25, 0x2B, code d] := by
  have hascii : ∀ c ∈ ['%', '+', d], c.toNat < 128 := by
    intro c hc
    simp only [List.mem_cons, List.not_mem_nil, or_false] at hc
    obtain rfl | rfl | rfl := hc
    · decide
    · decide
    · exact hexValue_lt h
  rw [utf8_ascii hascii]
  rfl

theorem digit_code {d : Char} (h : (hexValue d).isSome) : digit (code d) = hexValue d := by
  rw [digit, ofNat_code (hexValue_lt h)]

theorem agree_iff_not_signEscaped (s : List Char) :
    Agree 0x25 digitPair readPair (utf8 s) ↔ ¬ SignEscaped s := by
  constructor
  · rintro hagree ⟨d, hd, hin⟩
    have hbytes := (utf8_infix_iff (c := '%') (by decide) ['+', d] s).mpr hin
    rw [utf8_sign hd] at hbytes
    have heq := hagree _ _ hbytes
    rw [digitPair_eq_readPair_iff, digit_code hd] at heq
    exact heq ⟨rfl, hd⟩
  · intro hnone x y hin
    rw [digitPair_eq_readPair_iff]
    rintro ⟨rfl, hy⟩
    refine hnone ⟨Char.ofNat y.toNat, hy, (utf8_infix_iff (c := '%') (by decide) _ s).mp ?_⟩
    rw [utf8_sign hy, code_ofNat]
    exact hin

/-- The bytes of a text are decoded as they should be exactly when no escape in it has a sign. -/
theorem percentDecode_eq_decoded_iff (s : List Char) :
    percentDecode (utf8 s) = decoded (utf8 s) ↔ ¬ SignEscaped s := by
  have hiff := unescape_eq_iff readPair_of_digitPair apart_percent (utf8 s)
  rw [percentDecode_eq_unescape, decoded, eq_comm, hiff, agree_iff_not_signEscaped]

/-- `%+5` is read as one byte. -/
theorem sign_is_decoded : ¬ ∀ s : List Char, percentDecode (utf8 s) = decoded (utf8 s) := by
  intro h
  have hsign := h ['%', '+', '5']
  revert hsign
  decide

/-! ## What `file_uri` writes -/

theorem plus_notMem_uriChars (b : UInt8) : '+' ∉ uriChars b := by
  have hall : ∀ n < 256, '+' ∉ uriChars (UInt8.ofNat n) := by decide +kernel
  have hb := hall b.toNat b.toNat_lt
  rwa [UInt8.ofNat_toNat] at hb

theorem decoded_written (bytes : List UInt8) : decoded (utf8 (bytes.flatMap uriChars)) = bytes := by
  have hsign : ¬ SignEscaped (bytes.flatMap uriChars) := by
    rintro ⟨d, -, hin⟩
    obtain ⟨b, -, hb⟩ := List.mem_flatMap.mp (hin.subset (List.mem_cons_of_mem _ List.mem_cons_self))
    exact plus_notMem_uriChars b hb
  have hagree := unescape_eq_iff readPair_of_digitPair apart_percent (utf8 (bytes.flatMap uriChars))
  rw [decoded, hagree.mpr ((agree_iff_not_signEscaped _).mpr hsign), ← percentDecode_eq_unescape,
    percentDecode_written]

end FileUri
end Zsync
