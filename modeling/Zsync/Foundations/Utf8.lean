import Zsync.Foundations.Json

/-! # Text from bytes that may be none

`lossy` decodes like `String::from_utf8_lossy`: what is valid UTF-8 stays, and each longest piece that could begin a
character and does not go on as one becomes U+FFFD.

* `lossy_utf8` : valid text is decoded as it is.
* `lt_of_mem_encode` : the bytes that no text contains.
* `utf8_infix_iff` : bytes that spell a piece beginning with an ASCII character are that piece of the text.
-/

namespace Foundations.Json
set_option autoImplicit false
set_option maxHeartbeats 250000

/-- A byte of the form `10xxxxxx`. -/
def continues (b : UInt8) : Bool := 0x80 ≤ b && b ≤ 0xBF

/-- How many bytes a character has that begins with `b`; `0` when none does. -/
def width (b : UInt8) : ℕ :=
  if b ≤ 0x7F then 1
  else if 0xC2 ≤ b && b ≤ 0xDF then 2
  else if 0xE0 ≤ b && b ≤ 0xEF then 3
  else if 0xF0 ≤ b && b ≤ 0xF4 then 4
  else 0

/-- `b` may follow the first byte `a`. -/
def follows (a b : UInt8) : Bool :=
  if a = 0xE0 then 0xA0 ≤ b && b ≤ 0xBF
  else if a = 0xED then 0x80 ≤ b && b ≤ 0x9F
  else if a = 0xF0 then 0x90 ≤ b && b ≤ 0xBF
  else if a = 0xF4 then 0x80 ≤ b && b ≤ 0x8F
  else continues b

/-- The length of the piece in front that is replaced, when no character is there. -/
def invalidLen : List UInt8 → ℕ
  | a :: b :: c :: _ =>
    if 3 ≤ width a && follows a b then (if width a = 4 && continues c then 3 else 2) else 1
  | [a, b] => if 3 ≤ width a && follows a b then 2 else 1
  | _ => 1

theorem invalidLen_pos (bytes : List UInt8) : 0 < invalidLen bytes := by
  unfold invalidLen
  split
  · split_ifs <;> decide
  · split_ifs <;> decide
  · decide

/-- The character in front. -/
def front? (bytes : List UInt8) : Option Char := bytes.toByteArray.utf8DecodeChar? 0

def lossy : List UInt8 → List Char
  | [] => []
  | b :: bytes =>
    match front? (b :: bytes) with
    | some c => c :: lossy ((b :: bytes).drop c.utf8Size)
    | none => '\uFFFD' :: lossy ((b :: bytes).drop (invalidLen (b :: bytes)))
termination_by bytes => bytes.length
decreasing_by
  · have hpos := c.utf8Size_pos
    rw [List.length_drop, List.length_cons]
    omega
  · have hpos := invalidLen_pos (b :: bytes)
    rw [List.length_drop, List.length_cons]
    omega

theorem front?_encode (c : Char) (rest : List UInt8) : front? (String.utf8EncodeChar c ++ rest) = some c := by
  unfold front?
  rw [List.toByteArray_append]
  exact ByteArray.utf8DecodeChar?_utf8EncodeChar_append

theorem lossy_encode (c : Char) (rest : List UInt8) : lossy (String.utf8EncodeChar c ++ rest) = c :: lossy rest := by
  have hsize := String.length_utf8EncodeChar c
  have hpos := c.utf8Size_pos
  have hfront := front?_encode c rest
  have hdrop : (String.utf8EncodeChar c ++ rest).drop c.utf8Size = rest := by
    rw [← hsize, List.drop_left]
  generalize hbytes : String.utf8EncodeChar c ++ rest = bytes at hfront hdrop
  cases bytes with
  | nil =>
    have hlen := congrArg List.length hbytes
    rw [List.length_append, List.length_nil] at hlen
    omega
  | cons b bytes =>
    rw [lossy, hfront]
    dsimp only
    rw [hdrop]

theorem lossy_append (s : List Char) (bytes : List UInt8) : lossy (utf8 s ++ bytes) = s ++ lossy bytes := by
  induction s with
  | nil => rfl
  | cons c s ih => rw [utf8_cons, List.append_assoc, lossy_encode, ih, List.cons_append]

theorem lossy_utf8 (s : List Char) : lossy (utf8 s) = s := by
  have h := lossy_append s []
  rwa [List.append_nil, lossy, List.append_nil] at h

theorem lt_of_mem_encode {c : Char} {x : UInt8} (h : x ∈ String.utf8EncodeChar c) : x.toNat < 248 := by
  have hbyte : ∀ n : ℕ, n < 248 → x = UInt8.ofNat n → x.toNat < 248 := by
    rintro n hn rfl
    rw [UInt8.toNat_ofNat']
    omega
  unfold String.utf8EncodeChar at h
  dsimp only at h
  split_ifs at h
  · exact hbyte _ (by omega) (List.mem_singleton.mp h)
  · simp only [List.mem_cons, List.not_mem_nil, or_false] at h
    obtain h | h := h <;> exact hbyte _ (by omega) h
  · simp only [List.mem_cons, List.not_mem_nil, or_false] at h
    obtain h | h | h := h <;> exact hbyte _ (by omega) h
  · simp only [List.mem_cons, List.not_mem_nil, or_false] at h
    obtain h | h | h | h := h <;> exact hbyte _ (by omega) h

theorem lt_of_mem_utf8 {s : List Char} {x : UInt8} (h : x ∈ utf8 s) : x.toNat < 248 := by
  obtain ⟨c, _, hc⟩ := List.mem_flatMap.mp h
  exact lt_of_mem_encode hc

/-! ## Characters of one byte -/

/-- The byte of a character that is ASCII. -/
def code (c : Char) : UInt8 := UInt8.ofNat c.toNat

theorem code_toNat {c : Char} (h : c.toNat < 128) : (code c).toNat = c.toNat := by
  rw [code, UInt8.toNat_ofNat']
  omega

theorem code_lt {c : Char} (h : c.toNat < 128) : (code c).toNat < 128 := by
  rw [code_toNat h]
  exact h

theorem ofNat_code {c : Char} (h : c.toNat < 128) : Char.ofNat (code c).toNat = c := by
  rw [code_toNat h, Char.ofNat_toNat]

theorem code_ofNat (x : UInt8) : code (Char.ofNat x.toNat) = x := by
  have hall : ∀ n < 256, code (Char.ofNat n) = UInt8.ofNat n := by decide +kernel
  rw [hall x.toNat x.toNat_lt, UInt8.ofNat_toNat]

theorem utf8_ascii {s : List Char} (h : ∀ c ∈ s, c.toNat < 128) : utf8 s = s.map code := by
  induction s with
  | nil => rfl
  | cons c s ih =>
    obtain ⟨hc, hs⟩ := List.forall_mem_cons.mp h
    rw [utf8_cons, ascii_encode hc, ih hs]
    rfl

/-- A character begins with a byte that is no continuation. -/
theorem head_encode (c : Char) :
    ∃ b rest, String.utf8EncodeChar c = b :: rest ∧ (b.toNat < 128 ∨ 192 ≤ b.toNat) := by
  have hc : c.val.toNat < 0x110000 := by
    have := c.valid
    unfold UInt32.isValidChar Nat.isValidChar at this
    omega
  have hhigh : ∀ n : ℕ, 192 ≤ n → n < 256 → 192 ≤ (UInt8.ofNat n).toNat := by
    intro n hle hlt
    rw [UInt8.toNat_ofNat']
    omega
  unfold String.utf8EncodeChar
  dsimp only
  split_ifs with h1 h2 h3
  · exact ⟨_, [], rfl, .inl (code_lt (Nat.lt_succ_of_le h1))⟩
  · exact ⟨_, _, rfl, .inr (hhigh _ (by omega) (by omega))⟩
  · exact ⟨_, _, rfl, .inr (hhigh _ (by omega) (by omega))⟩
  · exact ⟨_, _, rfl, .inr (hhigh _ (by omega) (by omega))⟩

/-- Bytes in front that are all ASCII are the codes of the characters in front. -/
theorem take_utf8 {s : List Char} {n : ℕ} (h : ∀ x ∈ (utf8 s).take n, x.toNat < 128) :
    (utf8 s).take n = (s.take n).map code ∧ ∀ c ∈ s.take n, c.toNat < 128 := by
  induction n generalizing s with
  | zero => simp
  | succ n ih =>
    cases s with
    | nil => simp
    | cons c s =>
      obtain ⟨b, rest, hb, -⟩ := head_encode c
      have hlt : b.toNat < 128 := h b (by rw [utf8_cons, hb]; simp)
      have hc : c.val.toNat = b.toNat := ascii_mem_encode hlt (by rw [hb]; simp)
      have hone : String.utf8EncodeChar c = [code c] := ascii_encode (by omega)
      rw [utf8_cons, hone, List.singleton_append, List.take_succ_cons] at h ⊢
      obtain ⟨hcodes, hascii⟩ := ih (List.forall_mem_cons.mp h).2
      rw [hcodes, List.take_succ_cons, List.map_cons]
      exact ⟨rfl, List.forall_mem_cons.mpr ⟨hc.trans_lt hlt, hascii⟩⟩

/-! ## Pieces of a text -/

theorem utf8_prefix_iff (w s : List Char) : utf8 w <+: utf8 s ↔ w <+: s := by
  constructor
  · rintro ⟨bytes, h⟩
    have hs := congrArg lossy h
    rw [lossy_append, lossy_utf8] at hs
    exact ⟨lossy bytes, hs⟩
  · rintro ⟨rest, rfl⟩
    rw [utf8_append]
    exact List.prefix_append _ _

/-- A text can be cut in front of a byte that is ASCII. -/
theorem utf8_cut {s : List Char} {x : UInt8} (hx : x.toNat < 128) {front back : List UInt8}
    (h : utf8 s = front ++ x :: back) : ∃ s₁ s₂, s = s₁ ++ s₂ ∧ utf8 s₁ = front ∧ utf8 s₂ = x :: back := by
  induction s generalizing front with
  | nil =>
    rw [utf8_nil] at h
    simp at h
  | cons c s ih =>
    rw [utf8_cons] at h
    obtain ⟨front', rfl, hs⟩ | ⟨inner, hc, hs⟩ := List.append_eq_append_iff.mp h
    · obtain ⟨s₁, s₂, rfl, h₁, h₂⟩ := ih hs
      exact ⟨c :: s₁, s₂, rfl, by rw [utf8_cons, h₁], h₂⟩
    · cases inner with
      | nil => exact ⟨[c], s, rfl, by rw [utf8_cons, hc]; simp, hs.symm⟩
      | cons y inner =>
        -- The byte is in the code of `c`, which then is ASCII and has no other byte.
        obtain rfl := (List.cons_eq_cons.mp hs).1
        have hval := ascii_mem_encode (c := c) hx (by rw [hc]; simp)
        have hone := ascii_encode (c := c) (by omega)
        have hlen := congrArg List.length (hone.symm.trans hc)
        simp only [List.length_append, List.length_cons, List.length_nil] at hlen
        obtain rfl := List.length_eq_zero_iff.mp (show front.length = 0 by omega)
        exact ⟨[], c :: s, rfl, rfl, by rw [utf8_cons, h, List.nil_append]⟩

theorem utf8_infix_iff {c : Char} (hc : c.val.toNat < 128) (w s : List Char) :
    utf8 (c :: w) <:+: utf8 s ↔ c :: w <:+: s := by
  constructor
  · rintro ⟨front, back, h⟩
    rw [List.append_assoc, utf8_cons, ascii_encode hc, List.singleton_append, List.cons_append] at h
    obtain ⟨s₁, s₂, rfl, -, hs⟩ := utf8_cut (code_lt hc) h.symm
    have hpre : utf8 (c :: w) <+: utf8 s₂ := ⟨back, by rw [hs, utf8_cons, ascii_encode hc]; rfl⟩
    obtain ⟨rest, rfl⟩ := (utf8_prefix_iff (c :: w) s₂).mp hpre
    exact ⟨s₁, rest, by rw [List.append_assoc]⟩
  · rintro ⟨s₁, s₂, rfl⟩
    exact ⟨utf8 s₁, utf8 s₂, by rw [utf8_append, utf8_append]⟩

end Foundations.Json
