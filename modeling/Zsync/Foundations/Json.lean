import Mathlib.Algebra.GroupWithZero.Nat
import Mathlib.Algebra.Order.Group.Nat
import Mathlib.Algebra.BigOperators.Group.List.Basic
import Mathlib.Data.List.GetD
import Mathlib.Tactic.Common

/-! # JSON values in compact form

A value is written without white space. In strings the quote, the backslash and the control characters are
escaped, and nothing else. Numbers are natural numbers.

* `utf8`, `ofUtf8` : texts as bytes and back.
* `newline_notMem_compact` : a value is one line.
* `compact_size` : how many bytes a value takes, by its parts.
* `Serial` : types that are written as a value and read back from it.
* `Dict` : maps from names, in the order in which they are written.
* `Fields.get`, `required`, `defaulted`, `optional` : records with fields that may be missing.
* `Fields.insert`, `sorted` : fields in the order of their names, for a map that is kept so.
-/

namespace Foundations.Json
set_option autoImplicit false
set_option maxHeartbeats 250000

universe u

/-! ## UTF-8 -/

def utf8 (s : List Char) : List UInt8 := s.flatMap String.utf8EncodeChar

def ofUtf8 (bytes : List UInt8) : Option (List Char) :=
  bytes.toByteArray.utf8Decode?.map Array.toList

@[simp] theorem utf8_nil : utf8 [] = [] := rfl

@[simp] theorem utf8_append (s t : List Char) : utf8 (s ++ t) = utf8 s ++ utf8 t := List.flatMap_append

theorem utf8_cons (c : Char) (s : List Char) : utf8 (c :: s) = String.utf8EncodeChar c ++ utf8 s := rfl

theorem ofUtf8_utf8 (s : List Char) : ofUtf8 (utf8 s) = some s := by
  have h : (utf8 s).toByteArray.utf8Decode? = some s.toArray := List.utf8Decode?_utf8Encode
  rw [ofUtf8, h]
  rfl

theorem utf8_of_ofUtf8 {bytes : List UInt8} {s : List Char} (h : ofUtf8 bytes = some s) : utf8 s = bytes := by
  unfold ofUtf8 at h
  cases hd : bytes.toByteArray.utf8Decode? with
  | none =>
    rw [hd] at h
    cases h
  | some a =>
    have hencode := ByteArray.utf8Encode_get_utf8Decode? (b := bytes.toByteArray) (h := by rw [hd]; rfl)
    simp only [hd, Option.get_some] at hencode
    rw [hd] at h
    obtain rfl := Option.some.inj h
    have hdata := congrArg (fun b => b.data.toList) hencode
    simpa [List.utf8Encode, utf8] using hdata

theorem utf8_injective {s t : List Char} (h : utf8 s = utf8 t) : s = t := by
  have hs := ofUtf8_utf8 s
  rw [h, ofUtf8_utf8] at hs
  exact (Option.some.inj hs).symm

theorem ascii_encode {c : Char} (h : c.val.toNat < 128) :
    String.utf8EncodeChar c = [UInt8.ofNat c.val.toNat] := by
  unfold String.utf8EncodeChar
  dsimp only
  rw [if_pos (by omega)]

/-- The bytes of a character that is not ASCII are not ASCII. -/
theorem ascii_mem_encode {c : Char} {x : UInt8} (hx : x.toNat < 128) (h : x ∈ String.utf8EncodeChar c) :
    c.val.toNat = x.toNat := by
  have hhigh : ∀ a b : ℕ, 128 ≤ b → a + b < 256 → x ≠ UInt8.ofNat (a + b) := by
    intro a b hb hab heq
    have hn := congrArg UInt8.toNat heq
    rw [UInt8.toNat_ofNat'] at hn
    omega
  unfold String.utf8EncodeChar at h
  dsimp only at h
  split_ifs at h with h1 h2 h3
  · have hn := congrArg UInt8.toNat (List.mem_singleton.mp h)
    rw [UInt8.toNat_ofNat'] at hn
    omega
  · simp only [List.mem_cons, List.not_mem_nil, or_false] at h
    obtain h | h := h <;> exact absurd h (hhigh _ _ (by omega) (by omega))
  · simp only [List.mem_cons, List.not_mem_nil, or_false] at h
    obtain h | h | h := h <;> exact absurd h (hhigh _ _ (by omega) (by omega))
  · simp only [List.mem_cons, List.not_mem_nil, or_false] at h
    obtain h | h | h | h := h <;> exact absurd h (hhigh _ _ (by omega) (by omega))

theorem ascii_mem_utf8 {s : List Char} {x : UInt8} (hx : x.toNat < 128) (h : x ∈ utf8 s) :
    ∃ c ∈ s, c.val.toNat = x.toNat := by
  obtain ⟨c, hc, hb⟩ := List.mem_flatMap.mp h
  exact ⟨c, hc, ascii_mem_encode hx hb⟩

theorem newline_mem_encode {c : Char} (h : (10 : UInt8) ∈ String.utf8EncodeChar c) : c = '\n' :=
  Char.ext (UInt32.toNat_inj.mp (ascii_mem_encode (by decide) h))

theorem newline_notMem_utf8 {s : List Char} (h : '\n' ∉ s) : (10 : UInt8) ∉ utf8 s := by
  intro hm
  obtain ⟨c, hc, hb⟩ := List.mem_flatMap.mp hm
  exact h (newline_mem_encode hb ▸ hc)

/-! ## Values -/

inductive Value
  | null
  | bool (b : Bool)
  | num (n : ℕ)
  | str (s : String)
  | arr (vs : List Value)
  | obj (fields : List (String × Value))

abbrev Fields := List (String × Value)

def hexChar (n : ℕ) : Char := "0123456789abcdef".toList.getD n '0'

def escape (c : Char) : List Char :=
  if c = '"' then ['\\', '"']
  else if c = '\\' then ['\\', '\\']
  else if c = Char.ofNat 8 then ['\\', 'b']
  else if c = Char.ofNat 12 then ['\\', 'f']
  else if c = '\n' then ['\\', 'n']
  else if c = '\r' then ['\\', 'r']
  else if c = '\t' then ['\\', 't']
  else if c.toNat < 32 then ['\\', 'u', '0', '0', hexChar (c.toNat / 16), hexChar (c.toNat % 16)]
  else [c]

def quote (s : String) : List Char := '"' :: (s.toList.flatMap escape ++ ['"'])

mutual
def Value.compact : Value → List Char
  | .null => "null".toList
  | .bool b => (if b then "true" else "false").toList
  | .num n => (Nat.repr n).toList
  | .str s => quote s
  | .arr vs => '[' :: (elements true vs ++ [']'])
  | .obj fields => '{' :: (members true fields ++ ['}'])
def elements (first : Bool) : List Value → List Char
  | [] => []
  | v :: vs => (if first then [] else [',']) ++ v.compact ++ elements false vs
def members (first : Bool) : List (String × Value) → List Char
  | [] => []
  | f :: fields => (if first then [] else [',']) ++ member f ++ members false fields
def member : String × Value → List Char
  | (name, v) => quote name ++ ':' :: v.compact
end

example : (Value.obj [("ok", .bool true), ("n", .num 12), ("s", .arr [.str "a\"b", .null])]).compact =
    "\x7b\"ok\":true,\"n\":12,\"s\":[\"a\\\"b\",null]\x7d".toList := by decide

/-! ### A value is one line -/

theorem hexChar_ne_newline (n : ℕ) : hexChar n ≠ '\n' := by
  have hall : ("0123456789abcdef".toList.all fun c => c ≠ '\n') = true := by decide
  unfold hexChar
  by_cases h : n < "0123456789abcdef".toList.length
  · rw [List.getD_eq_getElem _ _ h]
    exact of_decide_eq_true (List.all_eq_true.mp hall _ (List.getElem_mem h))
  · rw [List.getD_eq_default _ _ (Nat.not_lt.mp h)]
    decide

theorem newline_notMem_escape (c : Char) : '\n' ∉ escape c := by
  unfold escape
  split_ifs with h1 h2 h3 h4 h5 h6 h7 h8
  all_goals simp only [List.mem_cons, List.not_mem_nil, or_false, not_or]
  · decide
  · decide
  · decide
  · decide
  · decide
  · decide
  · decide
  · exact ⟨by decide, by decide, by decide, by decide, (hexChar_ne_newline _).symm,
      (hexChar_ne_newline _).symm⟩
  · exact fun heq => h5 heq.symm

theorem newline_notMem_quote (s : String) : '\n' ∉ quote s := by
  intro h
  rw [quote, List.mem_cons, List.mem_append, List.mem_flatMap] at h
  obtain h | ⟨c, -, hc⟩ | h := h
  · exact absurd h (by decide)
  · exact newline_notMem_escape c hc
  · exact absurd h (by decide)

theorem newline_notMem_repr (n : ℕ) : '\n' ∉ (Nat.repr n).toList := by
  intro h
  rw [Nat.toList_repr] at h
  exact absurd (Nat.isDigit_of_mem_toDigits (by decide) (by decide) h) (by decide)

mutual
theorem newline_notMem_compact : ∀ v : Value, '\n' ∉ v.compact
  | .null => by decide
  | .bool true => by decide
  | .bool false => by decide
  | .num n => newline_notMem_repr n
  | .str s => newline_notMem_quote s
  | .arr vs => by
    have h := newline_notMem_elements true vs
    rw [Value.compact]
    simp [h]
  | .obj fields => by
    have h := newline_notMem_members true fields
    rw [Value.compact]
    simp [h]
theorem newline_notMem_elements : ∀ (first : Bool) (vs : List Value), '\n' ∉ elements first vs
  | _, [] => List.not_mem_nil
  | first, v :: vs => by
    have hv := newline_notMem_compact v
    have hvs := newline_notMem_elements false vs
    rw [elements]
    cases first <;> simp [hv, hvs]
theorem newline_notMem_members : ∀ (first : Bool) (fields : Fields), '\n' ∉ members first fields
  | _, [] => List.not_mem_nil
  | first, f :: fields => by
    have hf := newline_notMem_member f
    have hfs := newline_notMem_members false fields
    rw [members]
    cases first <;> simp [hf, hfs]
theorem newline_notMem_member : ∀ f : String × Value, '\n' ∉ member f
  | (name, v) => by
    have hn := newline_notMem_quote name
    have hv := newline_notMem_compact v
    rw [member]
    simp [hn, hv]
end

/-! ### How long a value is -/

def escapeSize (c : Char) : ℕ := (utf8 (escape c)).length

/-- The bytes of a text in quotes. -/
def quoteSize (s : String) : ℕ := 2 + (s.toList.map escapeSize).sum

mutual
def Value.size : Value → ℕ
  | .null => 4
  | .bool b => if b then 4 else 5
  | .num n => (Nat.toDigits 10 n).length
  | .str s => quoteSize s
  | .arr vs => 2 + elementsSize vs + (vs.length - 1)
  | .obj fields => 2 + membersSize fields + (fields.length - 1)
def elementsSize : List Value → ℕ
  | [] => 0
  | v :: vs => v.size + elementsSize vs
def membersSize : List (String × Value) → ℕ
  | [] => 0
  | f :: fields => memberSize f + membersSize fields
def memberSize : String × Value → ℕ
  | (name, v) => quoteSize name + 1 + v.size
end

theorem elementsSize_eq (vs : List Value) : elementsSize vs = (vs.map Value.size).sum := by
  induction vs with
  | nil => rfl
  | cons v vs ih => rw [elementsSize, ih, List.map_cons, List.sum_cons]

theorem membersSize_eq (fields : Fields) : membersSize fields = (fields.map memberSize).sum := by
  induction fields with
  | nil => rfl
  | cons f fields ih => rw [membersSize, ih, List.map_cons, List.sum_cons]

theorem length_utf8_quote (s : String) : (utf8 (quote s)).length = quoteSize s := by
  have hbody : ∀ t : List Char, (utf8 (t.flatMap escape)).length = (t.map escapeSize).sum := by
    intro t
    induction t with
    | nil => rfl
    | cons c t ih =>
      rw [List.flatMap_cons, utf8_append, List.length_append, ih]
      rfl
  have hquote : (String.utf8EncodeChar '"').length = 1 := rfl
  rw [quote, utf8_cons, utf8_append, List.length_append, List.length_append, hbody, hquote, quoteSize]
  have hlast : (utf8 ['"']).length = 1 := rfl
  omega

theorem length_utf8_digits (n : ℕ) : (utf8 (Nat.toDigits 10 n)).length = (Nat.toDigits 10 n).length := by
  have hall : ∀ s : List Char, (∀ c ∈ s, c.isDigit) → (utf8 s).length = s.length := by
    intro s h
    induction s with
    | nil => rfl
    | cons c s ih =>
      obtain ⟨hc, hs⟩ := List.forall_mem_cons.mp h
      have hle : c.toNat ≤ 57 := by
        have hd : 48 ≤ c.toNat ∧ c.toNat ≤ 57 := by
          simpa [Char.isDigit, UInt32.le_iff_toNat_le] using hc
        exact hd.2
      have hone := ascii_encode (c := c) (Nat.lt_of_le_of_lt hle (by decide))
      rw [utf8_cons, hone, List.length_append, ih hs, List.length_singleton, List.length_cons]
      omega
  exact hall _ fun c hc => Nat.isDigit_of_mem_toDigits (by decide) (by decide) hc

mutual
/-- A value takes as many bytes as its size says. -/
theorem compact_size : ∀ v : Value, (utf8 v.compact).length = v.size
  | .null => rfl
  | .bool true => rfl
  | .bool false => rfl
  | .num n => by
    rw [Value.compact, Nat.toList_repr, length_utf8_digits, Value.size]
  | .str s => length_utf8_quote s
  | .arr vs => by
    have h := elements_size true vs
    have hopen : (String.utf8EncodeChar '[').length = 1 := rfl
    have hclose : (utf8 [']']).length = 1 := rfl
    rw [Value.compact, Value.size, utf8_cons, utf8_append, List.length_append, List.length_append, h, hopen,
      hclose]
    simp only [if_true]
    omega
  | .obj fields => by
    have h := members_size true fields
    have hopen : (String.utf8EncodeChar '{').length = 1 := rfl
    have hclose : (utf8 ['}']).length = 1 := rfl
    rw [Value.compact, Value.size, utf8_cons, utf8_append, List.length_append, List.length_append, h, hopen,
      hclose]
    simp only [if_true]
    omega
theorem elements_size : ∀ (first : Bool) (vs : List Value),
    (utf8 (elements first vs)).length = elementsSize vs + (vs.length - if first then 1 else 0)
  | true, [] => rfl
  | false, [] => rfl
  | first, v :: vs => by
    have hv := compact_size v
    have hvs := elements_size false vs
    have hcomma : (utf8 [',']).length = 1 := rfl
    rw [elements, elementsSize, List.length_cons]
    cases first
    · simp only [Bool.false_eq_true, if_false, utf8_append, List.length_append, hv, hvs, hcomma]
      omega
    · simp only [Bool.false_eq_true, if_false, if_true, utf8_append, List.length_append, hv, hvs, utf8_nil,
        List.length_nil]
      omega
theorem members_size : ∀ (first : Bool) (fields : Fields),
    (utf8 (members first fields)).length = membersSize fields + (fields.length - if first then 1 else 0)
  | true, [] => rfl
  | false, [] => rfl
  | first, f :: fields => by
    have hf := member_size f
    have hfs := members_size false fields
    have hcomma : (utf8 [',']).length = 1 := rfl
    rw [members, membersSize, List.length_cons]
    cases first
    · simp only [Bool.false_eq_true, if_false, utf8_append, List.length_append, hf, hfs, hcomma]
      omega
    · simp only [Bool.false_eq_true, if_false, if_true, utf8_append, List.length_append, hf, hfs, utf8_nil,
        List.length_nil]
      omega
theorem member_size : ∀ f : String × Value, (utf8 (member f)).length = memberSize f
  | (name, v) => by
    have hv := compact_size v
    have hn := length_utf8_quote name
    have hcolon : (String.utf8EncodeChar ':').length = 1 := rfl
    rw [member, memberSize, utf8_append, utf8_cons, List.length_append, List.length_append, hn, hcolon, hv]
    omega
end

/-! ## Reading values -/

/-- A type that is read back from the value it is written as. -/
class Serial (α : Type u) where
  toValue : α → Value
  ofValue : Value → Option α
  ofValue_toValue : ∀ x, ofValue (toValue x) = some x
  toValue_ne_null : ∀ x, toValue x ≠ .null

open Serial

instance : Serial Bool where
  toValue := .bool
  ofValue
    | .bool b => some b
    | _ => none
  ofValue_toValue := fun _ => rfl
  toValue_ne_null := by
    intro x h
    cases h

instance : Serial String where
  toValue := .str
  ofValue
    | .str s => some s
    | _ => none
  ofValue_toValue := fun _ => rfl
  toValue_ne_null := by
    intro x h
    cases h

/-- A number of `w` bits. -/
def ofNum (w : ℕ) : Value → Option (BitVec w)
  | .num n => if n < 2 ^ w then some (BitVec.ofNat w n) else none
  | _ => none

theorem ofNum_toNat {w : ℕ} (b : BitVec w) : ofNum w (.num b.toNat) = some b := by
  rw [ofNum, if_pos b.isLt, BitVec.ofNat_toNat, BitVec.setWidth_eq]

instance : Serial UInt16 where
  toValue := fun n => .num n.toNat
  ofValue := fun v => (ofNum 16 v).map UInt16.ofBitVec
  ofValue_toValue := fun n => congrArg (Option.map UInt16.ofBitVec) (ofNum_toNat n.toBitVec)
  toValue_ne_null := by
    intro x h
    cases h

instance : Serial UInt32 where
  toValue := fun n => .num n.toNat
  ofValue := fun v => (ofNum 32 v).map UInt32.ofBitVec
  ofValue_toValue := fun n => congrArg (Option.map UInt32.ofBitVec) (ofNum_toNat n.toBitVec)
  toValue_ne_null := by
    intro x h
    cases h

instance : Serial UInt64 where
  toValue := fun n => .num n.toNat
  ofValue := fun v => (ofNum 64 v).map UInt64.ofBitVec
  ofValue_toValue := fun n => congrArg (Option.map UInt64.ofBitVec) (ofNum_toNat n.toBitVec)
  toValue_ne_null := by
    intro x h
    cases h

section Lists
variable {α : Type u} [Serial α]

theorem mapM_ofValue (xs : List α) : (xs.map toValue).mapM (ofValue (α := α)) = some xs := by
  induction xs with
  | nil => rfl
  | cons x xs ih =>
    rw [List.map_cons, List.mapM_cons, ofValue_toValue, ih]
    rfl

instance : Serial (List α) where
  toValue := fun xs => .arr (xs.map toValue)
  ofValue
    | .arr vs => vs.mapM ofValue
    | _ => none
  ofValue_toValue := mapM_ofValue
  toValue_ne_null := by
    intro x h
    cases h

theorem size_list (xs : List α) :
    (toValue xs).size = 2 + (xs.map fun x => (toValue x).size).sum + (xs.length - 1) := by
  change (Value.arr (xs.map toValue)).size = _
  rw [Value.size, elementsSize_eq, List.map_map, List.length_map]
  rfl

end Lists

/-! ### Maps -/

/-- A map from names, in the order in which it is written. -/
structure Dict (α : Type u) where
  entries : List (String × α)
  deriving DecidableEq, Repr

namespace Dict
variable {α : Type u}

def get (name : String) (d : Dict α) : Option α := d.entries.lookup name

/-- A map with these names, where `f` gives something. -/
def listed (order : List String) (f : String → Option α) : Dict α :=
  ⟨order.filterMap fun name => (f name).map fun x => (name, x)⟩

theorem get_listed {order : List String} {f : String → Option α} (name : String)
    (h : f name ≠ none → name ∈ order) : (listed order f).get name = f name := by
  have hin : ∀ order : List String, List.lookup name (order.filterMap fun g => (f g).map fun x => (g, x)) =
      if name ∈ order then f name else none := by
    intro order
    induction order with
    | nil => rfl
    | cons g order ih =>
      cases hg : f g with
      | none =>
        rw [List.filterMap_cons_none (by rw [hg]; rfl), ih]
        by_cases hname : name = g
        · subst hname
          simp [hg]
        · simp [hname]
      | some x =>
        rw [List.filterMap_cons_some (by rw [hg]; rfl), List.lookup_cons, ih]
        by_cases hname : name = g
        · subst hname
          simp [hg]
        · simp [hname, beq_false_of_ne hname]
  rw [get, listed, hin]
  split_ifs with hmem
  · rfl
  · by_contra hne
    exact hmem (h (Ne.symm hne))

variable [Serial α]

theorem mapM_entries (entries : List (String × α)) :
    (entries.map fun e => (e.1, toValue e.2)).mapM
      (fun f => (ofValue (α := α) f.2).map fun x => (f.1, x)) = some entries := by
  induction entries with
  | nil => rfl
  | cons e entries ih =>
    rw [List.map_cons, List.mapM_cons, ofValue_toValue, ih]
    rfl

instance : Serial (Dict α) where
  toValue := fun d => .obj (d.entries.map fun e => (e.1, toValue e.2))
  ofValue
    | .obj fields => (fields.mapM fun f => (ofValue f.2).map fun x => (f.1, x)).map Dict.mk
    | _ => none
  ofValue_toValue := fun d => congrArg (Option.map Dict.mk) (mapM_entries d.entries)
  toValue_ne_null := by
    intro d h
    cases h

theorem size_dict (d : Dict α) :
    (toValue d).size =
      2 + (d.entries.map fun e => quoteSize e.1 + 1 + (toValue e.2).size).sum + (d.entries.length - 1) := by
  have hmember : memberSize ∘ (fun e : String × α => (e.1, toValue e.2)) =
      fun e => quoteSize e.1 + 1 + (toValue e.2).size := by
    funext e
    rw [Function.comp_apply, memberSize]
  change (Value.obj (d.entries.map fun e => (e.1, toValue e.2))).size = _
  rw [Value.size, membersSize_eq, List.map_map, List.length_map, hmember]

end Dict

/-! ### Records -/

namespace Fields
variable {α : Type u} [Serial α]

def get (name : String) (fields : Fields) : Option Value := fields.lookup name

/-- A name stands before another, in the order of code points. -/
def before (name other : String) : Bool :=
  List.lex (name.toList.map Char.toNat) (other.toList.map Char.toNat) Nat.blt

/-- A field is put into fields that stand in the order of their names. -/
def insert (name : String) (v : Value) : Fields → Fields
  | [] => [(name, v)]
  | f :: fields =>
    if name = f.1 then (name, v) :: fields
    else if before name f.1 then (name, v) :: f :: fields
    else f :: insert name v fields

/-- The fields in the order of their names. -/
def sorted (fields : Fields) : Fields := fields.foldr (fun f m => insert f.1 f.2 m) []

/-- The fields that are there. -/
def present (entries : List (String × Option Value)) : Fields :=
  entries.filterMap fun e => e.2.map fun v => (e.1, v)

def required (name : String) (fields : Fields) : Option α := (fields.get name).bind ofValue

def defaulted (name : String) (default : α) (fields : Fields) : Option α :=
  match fields.get name with
  | none => some default
  | some v => ofValue v

/-- A field that may be missing, or `null`. -/
def optional (name : String) (fields : Fields) : Option (Option α) :=
  match fields.get name with
  | none | some .null => some none
  | some v => (ofValue v).map some

theorem get_cons (name : String) (f : String × Value) (fields : Fields) :
    get name (f :: fields) = if name = f.1 then some f.2 else get name fields := by
  rw [get, List.lookup_cons]
  by_cases h : name = f.1
  · simp [h]
  · rw [beq_false_of_ne h, if_neg h]
    rfl

theorem get_insert (name other : String) (v : Value) (fields : Fields) :
    get other (insert name v fields) = if other = name then some v else get other fields := by
  induction fields with
  | nil => exact get_cons other (name, v) []
  | cons f fields ih =>
    unfold insert
    by_cases heq : name = f.1
    · rw [if_pos heq, get_cons, get_cons, heq]
      split_ifs <;> rfl
    · rw [if_neg heq]
      by_cases hlt : before name f.1
      · rw [if_pos hlt, get_cons]
      · rw [if_neg hlt, get_cons, get_cons, ih]
        by_cases ho : other = f.1
        · rw [if_pos ho, if_neg fun h => heq (h.symm.trans ho), if_pos ho]
        · rw [if_neg ho, if_neg ho]

/-- A reader does not see in which order the fields stand. -/
theorem get_sorted (name : String) (fields : Fields) : get name (sorted fields) = get name fields := by
  induction fields with
  | nil => rfl
  | cons f fields ih =>
    change get name (insert f.1 f.2 (sorted fields)) = _
    rw [get_insert, get_cons, ih]

theorem get_present_cons (name key : String) (o : Option Value) (entries : List (String × Option Value)) :
    get name (present ((key, o) :: entries)) =
      if name = key then o.or (get name (present entries)) else get name (present entries) := by
  cases o with
  | none =>
    rw [Option.none_or, ite_self]
    rfl
  | some v =>
    change List.lookup name ((key, v) :: present entries) = _
    rw [List.lookup_cons]
    by_cases h : name = key
    · simp [h]
    · rw [beq_false_of_ne h, if_neg h]
      rfl

theorem get_present_absent {entries : List (String × Option Value)} {name : String}
    (h : name ∉ entries.map Prod.fst) : get name (present entries) = none := by
  induction entries with
  | nil => rfl
  | cons e entries ih =>
    rw [List.map_cons, List.mem_cons, not_or] at h
    rw [get_present_cons, if_neg h.1, ih h.2]

theorem get_present {entries : List (String × Option Value)} {name : String} {o : Option Value}
    (hd : (entries.map Prod.fst).Nodup) (hm : (name, o) ∈ entries) : get name (present entries) = o := by
  induction entries with
  | nil => exact absurd hm List.not_mem_nil
  | cons e entries ih =>
    obtain ⟨key, x⟩ := e
    rw [List.map_cons, List.nodup_cons] at hd
    rw [get_present_cons]
    obtain heq | htail := List.mem_cons.mp hm
    · obtain ⟨rfl, rfl⟩ := Prod.mk.inj heq
      rw [if_pos rfl, get_present_absent hd.1, Option.or_none]
    · have hne : name ≠ key := by
        rintro rfl
        exact hd.1 (List.mem_map.mpr ⟨_, htail, rfl⟩)
      rw [if_neg hne, ih hd.2 htail]

theorem required_eq {name : String} {fields : Fields} {x : α} (h : fields.get name = some (toValue x)) :
    required name fields = some x := by
  rw [required, h, Option.bind_some, ofValue_toValue]

theorem defaulted_eq {name : String} {fields : Fields} {x default : α}
    (h : fields.get name = some (toValue x)) : defaulted name default fields = some x := by
  rw [defaulted, h]
  exact ofValue_toValue x

theorem optional_eq {name : String} {fields : Fields} {o : Option α} (h : fields.get name = o.map toValue) :
    optional name fields = some o := by
  cases o with
  | none => rw [optional, h, Option.map_none]
  | some x =>
    have hne := toValue_ne_null x
    have hx := ofValue_toValue x
    rw [optional, h, Option.map_some]
    generalize toValue x = v at hne hx
    cases v with
    | null => exact absurd rfl hne
    | _ => exact congrArg (Option.map some) hx

/-- The same for a field that is written as `null` where there is nothing. -/
theorem optional_null_eq {name : String} {fields : Fields} {o : Option α}
    (h : fields.get name = some ((o.map toValue).getD .null)) : optional name fields = some o := by
  cases o with
  | none =>
    rw [optional, h]
    rfl
  | some x => exact optional_eq h

end Fields
end Foundations.Json
