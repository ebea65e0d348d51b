import Zsync.Foundations.Utf8
import Zsync.Model.Allowlist
import Zsync.Relay.SenderIds

/-! # How identifiers are spelled

Groups and nodes are named by 16 bytes, which are written as 32 lower-case digits. `parse_group_id` checks the digits
before it reads them. `sender_from_node_id` relies on `u8::from_str_radix`, which takes a sign for the first digit of a
pair.

* `senderFromNodeId_eq_ok_iff` : what the loop of `sender_from_node_id` reads, pair by pair.
* `OneSpelling` : an identifier is spelled in one way, but for case and the space around it.
* `oneSpelling_iff` : that is so for every text that is not, in its first pairs, digits with signs among them.
* `parseGroupId_congr` : spellings of one group are the same group.
-/

namespace Zsync
set_option autoImplicit false
set_option maxHeartbeats 250000
open Protocol
open Foundations.Json (code code_lt ofNat_code code_ofNat utf8_ascii head_encode take_utf8)

namespace Group

/-! ## Pairs -/

/-- `u8::from_str_radix` of two characters to the base 16. -/
def readPair (a b : Char) : Option UInt8 :=
  if a = '+' then (hexValue b).map UInt8.ofNat
  else (hexValue a).bind fun high => (hexValue b).map fun low => UInt8.ofNat (high * 16 + low)

/-- The pair of characters `i` of the text is read as `v`. -/
def PairAt (s : List Char) (i : ℕ) (v : UInt8) : Prop :=
  ∃ a b, s[i * 2]? = some a ∧ s[i * 2 + 1]? = some b ∧ readPair a b = some v

/-- `n` hexadecimal digits. -/
def Digits (n : ℕ) (s : List Char) : Prop := s.length = n ∧ ∀ c ∈ s, (hexValue c).isSome

instance (n : ℕ) (s : List Char) : Decidable (Digits n s) :=
  inferInstanceAs (Decidable (s.length = n ∧ ∀ c ∈ s, (hexValue c).isSome))

/-- The pair of characters `i` is a digit or a sign, and a digit. -/
def SignOrDigits (s : List Char) (i : ℕ) : Prop :=
  ∃ a b, s[i * 2]? = some a ∧ s[i * 2 + 1]? = some b ∧ ((hexValue a).isSome ∨ a = '+') ∧ (hexValue b).isSome

/-- The first 16 pairs are digits, with a sign for the first digit of some. -/
def SignId (s : List Char) : Prop := (∀ i < 16, SignOrDigits s i) ∧ ∃ i < 16, s[i * 2]? = some '+'

variable {a b : Char} {s p q : List Char} {i : ℕ} {v : UInt8}

theorem readPair_isSome_iff : (readPair a b).isSome ↔ ((hexValue a).isSome ∨ a = '+') ∧ (hexValue b).isSome := by
  unfold readPair
  split_ifs with ha
  · simp [ha]
  · cases hexValue a with
    | none => simp [ha]
    | some high => simp

theorem readPair_lt (h : (readPair a b).isSome) : a.toNat < 128 ∧ b.toNat < 128 := by
  obtain ⟨ha | rfl, hb⟩ := readPair_isSome_iff.mp h
  · exact ⟨hexValue_lt ha, hexValue_lt hb⟩
  · exact ⟨by decide, hexValue_lt hb⟩

theorem hexByte_code (ha : a.toNat < 128) (hb : b.toNat < 128) : hexByte [code a, code b] = readPair a b := by
  rw [hexByte, readPair]
  dsimp only
  rw [ofNat_code ha, ofNat_code hb]
  have hsign : code a = 0x2B ↔ a = '+' := by
    constructor
    · intro h
      rw [← ofNat_code ha, h]
      rfl
    · rintro rfl
      rfl
  simp only [hsign]

theorem hexByte_some {bytes : Bytes} (h : hexByte bytes = some v) :
    ∃ a b, bytes = [code a, code b] ∧ readPair a b = some v := by
  match bytes, h with
  | [x, y], h =>
    refine ⟨Char.ofNat x.toNat, Char.ofNat y.toNat, by rw [code_ofNat, code_ofNat], ?_⟩
    rw [← h, hexByte, readPair]
    dsimp only
    have hsign : Char.ofNat x.toNat = '+' ↔ x = 0x2B := by
      constructor
      · intro hx
        rw [← code_ofNat x, hx]
        rfl
      · rintro rfl
        rfl
    simp only [hsign]

/-! ## The loop -/

/-- Between two characters a `str` may be cut. -/
theorem isBoundary_utf8 (p q : List Char) : isBoundary (utf8 (p ++ q)) (utf8 p).length = true := by
  have happend : utf8 (p ++ q) = utf8 p ++ utf8 q := Foundations.Json.utf8_append p q
  unfold isBoundary
  rw [happend, List.getElem?_append_right (Nat.le_refl _), Nat.sub_self]
  cases q with
  | nil => simp [utf8]
  | cons c q =>
    obtain ⟨x, rest, hx, hb⟩ := head_encode c
    have hutf8 : utf8 (c :: q) = x :: (rest ++ utf8 q) := by
      change String.utf8EncodeChar c ++ utf8 q = _
      rw [hx, List.cons_append]
    rw [hutf8, List.getElem?_cons_zero]
    simp [UInt8.lt_iff_toNat_lt, UInt8.le_iff_toNat_le, hb]

/-- The pair between `p` and `q`. -/
theorem senderByte_pair (hp : (utf8 p).length = i * 2) (ha : a.toNat < 128) (hb : b.toNat < 128) :
    senderByte (utf8 (p ++ a :: b :: q)) i =
      match readPair a b with
      | some byte => .ok byte
      | none => .error "invalid digit found in string" := by
  have hpair : utf8 [a, b] = [code a, code b] := utf8_ascii (by simp [ha, hb])
  have hsplit : p ++ a :: b :: q = (p ++ [a, b]) ++ q := by simp
  have hbytes : utf8 (p ++ a :: b :: q) = utf8 p ++ ([code a, code b] ++ utf8 q) := by
    rw [← hpair, hsplit]
    simp [utf8]
  have hnext : (utf8 (p ++ [a, b])).length = i * 2 + 2 := by
    change (Foundations.Json.utf8 (p ++ [a, b])).length = _
    rw [Foundations.Json.utf8_append, List.length_append]
    change (utf8 p).length + (utf8 [a, b]).length = _
    rw [hp, hpair]
    rfl
  have hleft := isBoundary_utf8 p (a :: b :: q)
  have hright := isBoundary_utf8 (p ++ [a, b]) q
  rw [hp] at hleft
  rw [hnext, ← hsplit] at hright
  unfold senderByte
  have htake : ([code a, code b] ++ utf8 q).take 2 = [code a, code b] := rfl
  rw [hleft, hright, hbytes, List.drop_left' hp, htake, hexByte_code ha hb]
  rfl

theorem senderByte_ok {bytes : Bytes} (h : senderByte bytes i = .ok v) :
    ∃ a b, bytes[i * 2]? = some (code a) ∧ bytes[i * 2 + 1]? = some (code b) ∧ readPair a b = some v := by
  unfold senderByte at h
  split_ifs at h
  cases hbyte : hexByte ((bytes.drop (i * 2)).take 2) with
  | none =>
    rw [hbyte] at h
    cases h
  | some byte =>
    rw [hbyte] at h
    obtain rfl := Except.ok.inj h
    obtain ⟨a, b, hpair, hv⟩ := hexByte_some hbyte
    have hget : ∀ k < 2, bytes[i * 2 + k]? = [code a, code b][k]? := by
      intro k hk
      rw [← hpair, List.getElem?_take_of_lt hk, List.getElem?_drop]
    exact ⟨a, b, hget 0 (by decide), hget 1 (by decide), hv⟩

theorem exists_of_mapM_ok {α β ε : Type} {f : α → Except ε β} {xs : List α} {ys : List β}
    (h : xs.mapM f = .ok ys) : ∀ x ∈ xs, ∃ y, f x = .ok y := by
  induction xs generalizing ys with
  | nil => simp
  | cons x xs ih =>
    rw [List.mapM_cons] at h
    cases hx : f x with
    | error e =>
      rw [hx] at h
      cases h
    | ok y =>
      cases hxs : xs.mapM f with
      | error e =>
        rw [hx, hxs] at h
        cases h
      | ok ys => exact List.forall_mem_cons.mpr ⟨⟨y, hx⟩, ih hxs⟩

/-- Everything in front of a list is in one of its first pairs. -/
theorem forall_of_pairs {α : Type} {l : List α} {n : ℕ} {P : α → Prop}
    (h : ∀ i < n, ∃ x y, l[i * 2]? = some x ∧ l[i * 2 + 1]? = some y ∧ P x ∧ P y) :
    ∀ x ∈ l.take (n * 2), P x := by
  intro x hx
  obtain ⟨k, hk, rfl⟩ := List.mem_take_iff_getElem.mp hx
  obtain ⟨x, y, hgetx, hgety, hpx, hpy⟩ := h (k / 2) (by omega)
  obtain heq | heq : k = k / 2 * 2 ∨ k = k / 2 * 2 + 1 := by omega
  · rw [← heq] at hgetx
    rw [(List.getElem?_eq_some_iff.mp hgetx).2]
    exact hpx
  · rw [← heq] at hgety
    rw [(List.getElem?_eq_some_iff.mp hgety).2]
    exact hpy

/-- The characters of pairs are ASCII. -/
theorem pairs_ascii {n : ℕ} (h : ∀ i < n, ∃ v, PairAt s i v) : ∀ c ∈ s.take (n * 2), c.toNat < 128 := by
  apply forall_of_pairs
  intro i hi
  obtain ⟨v, a, b, ha, hb, hv⟩ := h i hi
  exact ⟨a, b, ha, hb, readPair_lt (by rw [hv]; rfl)⟩

theorem senderByte_pairAt (hbefore : ∀ c ∈ s.take (i * 2), c.toNat < 128) (h : PairAt s i v) :
    senderByte (utf8 s) i = .ok v := by
  obtain ⟨a, b, ha, hb, hv⟩ := h
  obtain ⟨hlt, hgeta⟩ := List.getElem?_eq_some_iff.mp ha
  obtain ⟨hlt', hgetb⟩ := List.getElem?_eq_some_iff.mp hb
  have hs : s = s.take (i * 2) ++ a :: b :: s.drop (i * 2 + 1 + 1) := by
    rw [← hgeta, ← hgetb, List.getElem_cons_drop, List.getElem_cons_drop, List.take_append_drop]
  have hlen : (utf8 (s.take (i * 2))).length = i * 2 := by
    rw [show utf8 (s.take (i * 2)) = _ from utf8_ascii hbefore, List.length_map, List.length_take]
    omega
  obtain ⟨ha', hb'⟩ := readPair_lt (a := a) (b := b) (by rw [hv]; rfl)
  rw [hs, senderByte_pair hlen ha' hb', hv]

theorem length_of_pairs {n : ℕ} (h : ∀ i < n, ∃ v, PairAt s i v) : n * 2 ≤ s.length := by
  cases n with
  | zero => omega
  | succ n =>
    obtain ⟨v, a, b, -, hb, -⟩ := h n (Nat.lt_succ_self n)
    have hlt := (List.getElem?_eq_some_iff.mp hb).1
    omega

theorem senderFromNodeId_of_pairs {nodeId : String} {f : ℕ → UInt8}
    (h : ∀ i < 16, PairAt (trim nodeId.toList) i (f i)) :
    senderFromNodeId nodeId = .ok (Vector.ofFn fun k => f k) := by
  have hsome : ∀ i < 16, ∃ v, PairAt (trim nodeId.toList) i v := fun i hi => ⟨f i, h i hi⟩
  apply senderFromNodeId_of_bytes
  · have hlen := length_of_pairs hsome
    have hfront : utf8 ((trim nodeId.toList).take 32) = _ := utf8_ascii (pairs_ascii hsome)
    have hbytes : utf8 (trim nodeId.toList) =
        utf8 ((trim nodeId.toList).take 32) ++ utf8 ((trim nodeId.toList).drop 32) := by
      rw [utf8, utf8, utf8, ← List.flatMap_append, List.take_append_drop]
    rw [hbytes, hfront, List.length_append, List.length_map, List.length_take]
    omega
  · intro i hi
    apply senderByte_pairAt (pairs_ascii fun j hj => hsome j (by omega)) (h i hi)

/-- A byte that is the code of a character, among ASCII bytes. -/
theorem getElem?_of_code {n k : ℕ} (h : ∀ x ∈ (utf8 s).take n, x.toNat < 128) (hk : k < n)
    (hc : a.toNat < 128) (hbyte : (utf8 s)[k]? = some (code a)) : s[k]? = some a := by
  obtain ⟨hcodes, hascii⟩ : (utf8 s).take n = _ ∧ _ := take_utf8 h
  have hget := congrArg (fun bytes : Bytes => bytes[k]?) hcodes
  change ((utf8 s).take n)[k]? = ((s.take n).map code)[k]? at hget
  rw [List.getElem?_take_of_lt hk, hbyte, List.getElem?_map, eq_comm, Option.map_eq_some_iff] at hget
  obtain ⟨d, hd, hcode⟩ := hget
  have hback := congrArg (fun x : UInt8 => Char.ofNat x.toNat) hcode
  rw [ofNat_code (hascii d (List.mem_of_getElem? hd)), ofNat_code hc] at hback
  rw [List.getElem?_take_of_lt hk, hback] at hd
  exact hd

/-- What is read of the bytes is read of the characters. -/
theorem pairAt_of_senderByte {n : ℕ} {f : ℕ → UInt8} (h : ∀ i < n, senderByte (utf8 s) i = .ok (f i)) :
    ∀ i < n, PairAt s i (f i) := by
  have hascii : ∀ x ∈ (utf8 s).take (n * 2), x.toNat < 128 := by
    apply forall_of_pairs
    intro i hi
    obtain ⟨a, b, ha, hb, hv⟩ := senderByte_ok (h i hi)
    obtain ⟨ha', hb'⟩ := readPair_lt (a := a) (b := b) (by rw [hv]; rfl)
    exact ⟨_, _, ha, hb, code_lt ha', code_lt hb'⟩
  intro i hi
  obtain ⟨a, b, ha, hb, hv⟩ := senderByte_ok (h i hi)
  obtain ⟨ha', hb'⟩ := readPair_lt (a := a) (b := b) (by rw [hv]; rfl)
  exact ⟨a, b, getElem?_of_code hascii (by omega) ha' ha, getElem?_of_code hascii (by omega) hb' hb, hv⟩

/-- The sender bytes of an id are its first pairs. -/
theorem senderFromNodeId_eq_ok_iff {nodeId : String} {sender : Vector UInt8 16} :
    senderFromNodeId nodeId = .ok sender ↔ ∀ i (h : i < 16), PairAt (trim nodeId.toList) i sender[i] := by
  constructor
  · intro h
    have hread := h
    unfold senderFromNodeId at hread
    dsimp only at hread
    split_ifs at hread
    cases hids : (List.range 16).mapM (senderByte (utf8 (trim nodeId.toList))) with
    | error e =>
      rw [hids] at hread
      cases hread
    | ok ids =>
      choose! f hf using exists_of_mapM_ok hids
      have hpairs := pairAt_of_senderByte fun i hi => hf i (List.mem_range.mpr hi)
      rw [senderFromNodeId_of_pairs hpairs] at h
      obtain rfl := Except.ok.inj h
      intro i hi
      rw [Vector.getElem_ofFn]
      exact hpairs i hi
  · intro h
    have hpairs : ∀ i < 16, PairAt (trim nodeId.toList) i (sender.toList.getD i 0) := by
      intro i hi
      rw [List.getD_eq_getElem _ _ (by rw [Vector.length_toList]; exact hi), Vector.getElem_toList]
      exact h i hi
    rw [senderFromNodeId_of_pairs hpairs]
    refine congrArg Except.ok (Vector.ext fun k hk => ?_)
    rw [Vector.getElem_ofFn, List.getD_eq_getElem _ _ (by rw [Vector.length_toList]; exact hk),
      Vector.getElem_toList]

/-! ## Digits -/

/-- The value of a digit, written as a digit. -/
theorem hexDigit_value {c : Char} {n : ℕ} (h : hexValue c = some n) :
    n < 16 ∧ hexDigits.getD n '0' = c.toLower := by
  have hall : ∀ k < 128, ∀ m ∈ hexValue (Char.ofNat k),
      m < 16 ∧ hexDigits.getD m '0' = (Char.ofNat k).toLower := by decide +kernel
  have hc := hall c.toNat (hexValue_lt (by rw [h]; rfl)) n
  rw [Char.ofNat_toNat] at hc
  exact hc h

theorem hexChars_pair {x y : ℕ} (ha : hexValue a = some x) (hb : hexValue b = some y) (bytes : Bytes) :
    hexChars (UInt8.ofNat (x * 16 + y) :: bytes) = a.toLower :: b.toLower :: hexChars bytes := by
  obtain ⟨hx, hlowerx⟩ := hexDigit_value ha
  obtain ⟨hy, hlowery⟩ := hexDigit_value hb
  obtain ⟨hhigh, hlow⟩ := halves (UInt8.ofNat (x * 16 + y))
  have hback : (UInt8.ofNat (x * 16 + y)).toNat = x * 16 + y := by
    rw [UInt8.toNat_ofNat']
    omega
  have hdigits : (x * 16 + y) / 16 = x ∧ (x * 16 + y) % 16 = y := by omega
  rw [hexChars, List.flatMap_cons, hexDigit, hexDigit, hhigh, hlow, hback, hdigits.1, hdigits.2, hlowerx, hlowery]
  rfl

def values (s : List Char) : List ℕ := s.map fun c => (hexValue c).getD 0

theorem mapM_values (h : ∀ c ∈ s, (hexValue c).isSome) : s.mapM hexValue = some (values s) := by
  induction s with
  | nil => rfl
  | cons c s ih =>
    obtain ⟨hc, hs⟩ := List.forall_mem_cons.mp h
    obtain ⟨n, hn⟩ := Option.isSome_iff_exists.mp hc
    have hvalues : values (c :: s) = n :: values s := by
      rw [values, List.map_cons, hn]
      rfl
    rw [List.mapM_cons, hn, ih hs, hvalues]
    rfl

/-- The bytes of an even row of digits are spelled by these, in lower case. -/
theorem hexChars_values (h : ∀ c ∈ s, (hexValue c).isSome) (heven : s.length % 2 = 0) :
    hexChars (pairs (values s)) = s.map Char.toLower := by
  induction s using List.twoStepInduction with
  | nil => rfl
  | singleton c => cases heven
  | cons_cons a b s ih _ =>
    obtain ⟨ha, hrest⟩ := List.forall_mem_cons.mp h
    obtain ⟨hb, hs⟩ := List.forall_mem_cons.mp hrest
    obtain ⟨x, hx⟩ := Option.isSome_iff_exists.mp ha
    obtain ⟨y, hy⟩ := Option.isSome_iff_exists.mp hb
    have hlen : s.length % 2 = 0 := by
      rw [List.length_cons, List.length_cons] at heven
      omega
    have hvalues : values (a :: b :: s) = x :: y :: values s := by
      rw [values, List.map_cons, List.map_cons, hx, hy]
      rfl
    rw [hvalues, pairs, hexChars_pair hx hy, ih hs hlen, List.map_cons, List.map_cons]

theorem parseGroupId_eq (s : List Char) : parseGroupId s =
    if Digits 32 (trim s) then .ok (pairs (values (trim s)))
    else .error "group_id must be 32 hex chars" := by
  unfold parseGroupId
  dsimp only
  by_cases hdigits : ∀ c ∈ trim s, (hexValue c).isSome
  · rw [mapM_values hdigits]
    have hlen : (values (trim s)).length = (trim s).length := List.length_map _
    dsimp only
    rw [hlen]
    exact if_congr ⟨fun h => ⟨h, hdigits⟩, fun h => h.1⟩ rfl rfl
  · rw [if_neg fun h => hdigits h.2]
    cases hm : (trim s).mapM hexValue with
    | none => rfl
    | some digits => exact absurd (fun c hc => mapM_hexValue hm hc) hdigits

theorem parseGroupId_eq_ok {id : Bytes} (h : parseGroupId s = .ok id) :
    Digits 32 (trim s) ∧ hexChars id = (trim s).map Char.toLower := by
  rw [parseGroupId_eq] at h
  split_ifs at h with hs
  obtain rfl := Except.ok.inj h
  exact ⟨hs, hexChars_values hs.2 (by rw [hs.1])⟩

theorem pairs_getElem? (digits : List ℕ) {x y : ℕ} (hx : digits[i * 2]? = some x)
    (hy : digits[i * 2 + 1]? = some y) : (pairs digits)[i]? = some (UInt8.ofNat (x * 16 + y)) := by
  induction digits using pairs.induct generalizing i with
  | case1 a b rest ih =>
    cases i with
    | zero =>
      obtain rfl := Option.some.inj hx
      obtain rfl := Option.some.inj hy
      rfl
    | succ i =>
      rw [Nat.succ_mul] at hx hy
      exact ih hx hy
  | case2 digits hshort =>
    rcases digits with - | ⟨a, - | ⟨b, rest⟩⟩
    · cases hx
    · simp at hy
    · exact absurd rfl (hshort a b rest)

/-- Where all characters are digits, the pairs are the bytes that the digits spell. -/
theorem pairAt_digits (h : ∀ c ∈ s, (hexValue c).isSome) (hp : PairAt s i v) :
    (pairs (values s))[i]? = some v := by
  obtain ⟨a, b, ha, hb, hv⟩ := hp
  obtain ⟨x, hx⟩ := Option.isSome_iff_exists.mp (h a (List.mem_of_getElem? ha))
  obtain ⟨y, hy⟩ := Option.isSome_iff_exists.mp (h b (List.mem_of_getElem? hb))
  have hvalues : ∀ {k : ℕ} {c : Char} {n : ℕ}, s[k]? = some c → hexValue c = some n →
      (values s)[k]? = some n := by
    intro k c n hc hn
    rw [values, List.getElem?_map, hc, Option.map_some, hn, Option.getD_some]
  have hsign : a ≠ '+' := by
    rintro rfl
    cases hx
  rw [readPair, if_neg hsign, hx, hy] at hv
  rw [pairs_getElem? (values s) (hvalues ha hx) (hvalues hb hy)]
  exact hv

/-! ## Spellings -/

theorem pairAt_iff (s : List Char) (i : ℕ) : (∃ v, PairAt s i v) ↔ SignOrDigits s i := by
  constructor
  · rintro ⟨v, a, b, ha, hb, hv⟩
    exact ⟨a, b, ha, hb, readPair_isSome_iff.mp (by rw [hv]; rfl)⟩
  · rintro ⟨a, b, ha, hb, hab⟩
    obtain ⟨v, hv⟩ := Option.isSome_iff_exists.mp (readPair_isSome_iff.mpr hab)
    exact ⟨v, a, b, ha, hb, hv⟩

/-- Pairs without signs are digits. -/
theorem digits_iff (s : List Char) :
    Digits 32 (s.take 32) ↔ (∀ i < 16, ∃ v, PairAt s i v) ∧ ∀ i < 16, s[i * 2]? ≠ some '+' := by
  constructor
  · rintro ⟨hlen, hdigits⟩
    have hdigit : ∀ k < 32, ∃ c, s[k]? = some c ∧ (hexValue c).isSome := by
      intro k hk
      rw [List.length_take] at hlen
      refine ⟨s[k], List.getElem?_eq_getElem (by omega), hdigits _ ?_⟩
      exact List.mem_take_iff_getElem.mpr ⟨k, by omega, rfl⟩
    constructor
    · intro i hi
      obtain ⟨a, ha, hxa⟩ := hdigit (i * 2) (by omega)
      obtain ⟨b, hb, hxb⟩ := hdigit (i * 2 + 1) (by omega)
      exact (pairAt_iff s i).mpr ⟨a, b, ha, hb, .inl hxa, hxb⟩
    · intro i hi hsign
      obtain ⟨a, ha, hxa⟩ := hdigit (i * 2) (by omega)
      rw [hsign] at ha
      obtain rfl := Option.some.inj ha
      cases hxa
  · rintro ⟨hpairs, hsign⟩
    have hlen := length_of_pairs hpairs
    have hdigits : ∀ c ∈ s.take (16 * 2), (hexValue c).isSome := by
      apply forall_of_pairs
      intro i hi
      obtain ⟨a, b, ha, hb, hxa, hxb⟩ := (pairAt_iff s i).mp (hpairs i hi)
      obtain hxa | rfl := hxa
      · exact ⟨a, b, ha, hb, hxa, hxb⟩
      · exact absurd ha (hsign i hi)
    exact ⟨by rw [List.length_take]; omega, hdigits⟩

theorem sender_read_iff (nodeId : String) :
    (∃ sender, senderFromNodeId nodeId = .ok sender) ↔ ∀ i < 16, ∃ v, PairAt (trim nodeId.toList) i v := by
  constructor
  · rintro ⟨sender, h⟩ i hi
    exact ⟨sender[i], senderFromNodeId_eq_ok_iff.mp h i hi⟩
  · intro h
    choose! f hf using h
    exact ⟨_, senderFromNodeId_of_pairs hf⟩

/-- Every reader of an id reads digits only, and whoever writes it again writes these digits in lower case. -/
structure OneSpelling (s : String) : Prop where
  group_written : ∀ id : Vector UInt8 16, parseGroupId (hexEncode id.toList).toList = .ok id.toList
  group_read : (∃ id, parseGroupId s.toList = .ok id) ↔ Digits 32 (trim s.toList)
  group_lower : ∀ id, parseGroupId s.toList = .ok id →
    (hexEncode id).toList = (trim s.toList).map Char.toLower
  group_key : ∀ (t : String) (id id' : Bytes), parseGroupId s.toList = .ok id → parseGroupId t.toList = .ok id' →
    (hexEncode id = hexEncode id' ↔ (trim s.toList).map Char.toLower = (trim t.toList).map Char.toLower)
  sender_read : (∃ sender, senderFromNodeId s = .ok sender) ↔ Digits 32 ((trim s.toList).take 32)
  sender_lower : ∀ sender, senderFromNodeId s = .ok sender →
    (hexEncode sender.toList).toList = ((trim s.toList).take 32).map Char.toLower

theorem group_lower {s : String} {id : Bytes} (h : parseGroupId s.toList = .ok id) :
    (hexEncode id).toList = (trim s.toList).map Char.toLower := by
  rw [hexEncode, String.toList_ofList]
  exact (parseGroupId_eq_ok h).2

theorem sender_lower {s : String} {sender : Vector UInt8 16} (hdigits : Digits 32 ((trim s.toList).take 32))
    (h : senderFromNodeId s = .ok sender) :
    (hexEncode sender.toList).toList = ((trim s.toList).take 32).map Char.toLower := by
  obtain ⟨hlen, hall⟩ := hdigits
  have hbytes : sender.toList = pairs (values ((trim s.toList).take 32)) := by
    have hcount : (pairs (values ((trim s.toList).take 32))).length = 16 := by
      rw [length_pairs, values, List.length_map, hlen]
    refine List.ext_getElem (by rw [Vector.length_toList, hcount]) fun i hi hi' => ?_
    rw [Vector.length_toList] at hi
    have hp := senderFromNodeId_eq_ok_iff.mp h i hi
    have hp' : PairAt ((trim s.toList).take 32) i sender[i] := by
      obtain ⟨a, b, ha, hb, hv⟩ := hp
      refine ⟨a, b, ?_, ?_, hv⟩
      · rw [List.getElem?_take_of_lt (by omega), ha]
      · rw [List.getElem?_take_of_lt (by omega), hb]
    have hget := pairAt_digits hall hp'
    rw [List.getElem?_eq_getElem hi'] at hget
    rw [Vector.getElem_toList, Option.some.inj hget]
  rw [hexEncode, String.toList_ofList, hbytes]
  exact hexChars_values hall (by rw [hlen])

/-- Identifiers have one spelling, unless signs are read as digits. -/
theorem oneSpelling_iff (s : String) : OneSpelling s ↔ ¬ SignId (trim s.toList) := by
  have hpairs : (∀ i < 16, ∃ v, PairAt (trim s.toList) i v) ↔ ∀ i < 16, SignOrDigits (trim s.toList) i :=
    forall₂_congr fun i _ => pairAt_iff (trim s.toList) i
  constructor
  · rintro h ⟨hread, i, hi, hsign⟩
    have hdigits := h.sender_read.mp ((sender_read_iff s).mpr (hpairs.mpr hread))
    exact ((digits_iff _).mp hdigits).2 i hi hsign
  · intro hsign
    have hdigits : (∀ i < 16, ∃ v, PairAt (trim s.toList) i v) → Digits 32 ((trim s.toList).take 32) := by
      intro h
      refine (digits_iff _).mpr ⟨h, fun i hi hplus => ?_⟩
      exact hsign ⟨hpairs.mp h, i, hi, hplus⟩
    have hgroup : (∃ id, parseGroupId s.toList = .ok id) ↔ Digits 32 (trim s.toList) := by
      rw [parseGroupId_eq]
      split_ifs with h
      · simp [h]
      · simp [h]
    exact {
      group_written := fun id => by
        rw [hexEncode, String.toList_ofList, parseGroupId_hexChars Vector.length_toList]
      group_read := hgroup
      group_lower := fun id h => group_lower h
      group_key := fun t id id' h h' => by
        rw [← group_lower h, ← group_lower h', String.toList_inj]
      sender_read := (sender_read_iff s).trans ⟨hdigits, fun h => ((digits_iff _).mp h).1⟩
      sender_lower := fun sender h => sender_lower (hdigits ((sender_read_iff s).mp ⟨sender, h⟩)) h }

def signedId : String := String.ofList (List.replicate 16 ['+', '0']).flatten

/-- Signs and zeros are read as 16 bytes. -/
theorem signedId_is_read : ¬ ∀ s : String, OneSpelling s := by
  intro h
  have hread : senderFromNodeId signedId = .ok (.replicate 16 0) := by decide +kernel
  have hdigits := (h signedId).sender_read.mp ⟨_, hread⟩
  have hsign : (trim signedId.toList)[0]? = some '+' := by decide +kernel
  exact ((digits_iff _).mp hdigits).2 0 (by decide) hsign

/-! ## One group, however it is spelled -/

theorem hexValue_toLower (c : Char) : hexValue c.toLower = hexValue c := by
  by_cases hc : c.toNat < 128
  · have hall : ∀ k < 128, hexValue (Char.ofNat k).toLower = hexValue (Char.ofNat k) := by decide +kernel
    have hk := hall c.toNat hc
    rwa [Char.ofNat_toNat] at hk
  · have hsame : c.toLower = c := by
      unfold Char.toLower
      refine dif_neg fun h => hc ?_
      have hle : c.val.toNat ≤ 90 := UInt32.le_iff_toNat_le.mp h.2
      exact Nat.lt_of_le_of_lt hle (by decide)
    rw [hsame]

theorem mapM_toLower (s : List Char) : (s.map Char.toLower).mapM hexValue = s.mapM hexValue := by
  induction s with
  | nil => rfl
  | cons c s ih => rw [List.map_cons, List.mapM_cons, List.mapM_cons, hexValue_toLower, ih]

/-- Two texts that differ in case and in the space around them only. -/
def SameSpelling (s t : String) : Prop := (trim s.toList).map Char.toLower = (trim t.toList).map Char.toLower

theorem parseGroupId_congr {s t : String} (h : SameSpelling s t) :
    parseGroupId s.toList = parseGroupId t.toList := by
  unfold parseGroupId
  dsimp only
  rw [← mapM_toLower (trim s.toList), h, mapM_toLower]

end Group
end Zsync
