import Mathlib.Data.List.TakeDrop
import Zsync.Model.Protocol

/-! # `group.rs`: addresses, `zsync://` URIs and group keys

Addresses are parsed on lists of characters. Numbers and IPv6 addresses follow the parsers of Rust's
standard library: a `u16` may start with `+`, and an IPv6 address may hold one `::` and may end in an
embedded IPv4 address. URL-safe Base64 comes from the crate `base64`: it is the parameter `Base64`.
-/

namespace Zsync
set_option autoImplicit false
set_option maxHeartbeats 250000

/-- `URL_SAFE_NO_PAD` of the crate `base64`. -/
class Base64 where
  encode : Bytes → String
  decode : String → Option Bytes

namespace UrlSafe

def alphabet : List Char := "ABCDEFGHIJKLMNOPQRSTUVWXYZabcdefghijklmnopqrstuvwxyz0123456789-_".toList

def sextets : Bytes → List ℕ
  | a :: b :: c :: rest =>
    let n := a.toNat * 65536 + b.toNat * 256 + c.toNat
    n / 262144 :: n / 4096 % 64 :: n / 64 % 64 :: n % 64 :: sextets rest
  | [a, b] =>
    let n := a.toNat * 1024 + b.toNat * 4
    [n / 4096, n / 64 % 64, n % 64]
  | [a] => [a.toNat * 16 / 64, a.toNat * 16 % 64]
  | [] => []

/-- What is left of the last sextet must be zero. -/
def octets : List ℕ → Option Bytes
  | a :: b :: c :: d :: rest =>
    let n := a * 262144 + b * 4096 + c * 64 + d
    (octets rest).map fun bytes =>
      UInt8.ofNat (n / 65536) :: UInt8.ofNat (n / 256 % 256) :: UInt8.ofNat (n % 256) :: bytes
  | [a, b, c] =>
    let n := a * 4096 + b * 64 + c
    if n % 4 = 0 then some [UInt8.ofNat (n / 1024), UInt8.ofNat (n / 4 % 256)] else none
  | [a, b] =>
    let n := a * 64 + b
    if n % 16 = 0 then some [UInt8.ofNat (n / 16)] else none
  | [_] => none
  | [] => some []

end UrlSafe

/-- Base64 as it is documented, on which the examples run. -/
abbrev sampleBase64 : Base64 where
  encode := fun bytes =>
    String.ofList ((UrlSafe.sextets bytes).map fun n => UrlSafe.alphabet.getD n 'A')
  decode := fun s => (s.toList.mapM fun c => UrlSafe.alphabet.idxOf? c).bind UrlSafe.octets

/-! ## Text -/

def isWhitespace (c : Char) : Bool :=
  let n := c.toNat
  (9 ≤ n && n ≤ 13) || n = 0x20 || n = 0x85 || n = 0xA0 || n = 0x1680 || (0x2000 ≤ n && n ≤ 0x200A) ||
    n = 0x2028 || n = 0x2029 || n = 0x202F || n = 0x205F || n = 0x3000

def trim (s : List Char) : List Char :=
  ((s.dropWhile isWhitespace).reverse.dropWhile isWhitespace).reverse

def splitOnce (c : Char) (s : List Char) : Option (List Char × List Char) :=
  match s.span fun d => d ≠ c with
  | (_, []) => none
  | (left, _ :: right) => some (left, right)

def rsplitOnce (c : Char) (s : List Char) : Option (List Char × List Char) :=
  (splitOnce c s.reverse).map fun (right, left) => (left.reverse, right.reverse)

theorem splitOnce_nil (c : Char) : splitOnce c [] = none := rfl

theorem splitOnce_cons (c d : Char) (s : List Char) :
    splitOnce c (d :: s) = if d = c then some ([], s) else
      (splitOnce c s).map fun (left, right) => (d :: left, right) := by
  unfold splitOnce
  simp only [List.span_eq_takeWhile_dropWhile, List.takeWhile_cons, List.dropWhile_cons]
  by_cases hd : d = c
  · simp [hd]
  · simp only [hd, ne_eq, not_false_eq_true, decide_true, if_true, if_false]
    cases List.dropWhile (fun d => decide (¬d = c)) s <;> rfl

/-- The first separator is the one that is written, unless there is one before it. -/
theorem splitOnce_append (c : Char) (a b : List Char) :
    splitOnce c (a ++ c :: b) =
      some (match splitOnce c a with
        | some (left, right) => (left, right ++ c :: b)
        | none => (a, b)) := by
  induction a with
  | nil => rw [List.nil_append, splitOnce_cons, if_pos rfl, splitOnce_nil]
  | cons d a ih =>
    rw [List.cons_append, splitOnce_cons, splitOnce_cons, ih]
    by_cases hd : d = c
    · simp [hd]
    · rw [if_neg hd, if_neg hd]
      cases splitOnce c a <;> rfl

theorem rsplitOnce_append (c : Char) (a b : List Char) :
    rsplitOnce c (a ++ c :: b) =
      some (match rsplitOnce c b with
        | some (left, right) => (a ++ c :: left, right)
        | none => (a, b)) := by
  have hrev : (a ++ c :: b).reverse = b.reverse ++ c :: a.reverse := by simp
  rw [rsplitOnce, hrev, splitOnce_append, rsplitOnce]
  cases splitOnce c b.reverse with
  | none => simp
  | some p => simp

def hexValue (c : Char) : Option ℕ :=
  let n := c.toNat
  if 48 ≤ n ∧ n ≤ 57 then some (n - 48)
  else if 97 ≤ n ∧ n ≤ 102 then some (n - 87)
  else if 65 ≤ n ∧ n ≤ 70 then some (n - 55)
  else none

theorem hexValue_lt {c : Char} (h : (hexValue c).isSome) : c.toNat < 128 := by
  by_contra hle
  have hnone : hexValue c = none := by
    unfold hexValue
    dsimp only
    rw [if_neg (by omega), if_neg (by omega), if_neg (by omega)]
  rw [hnone] at h
  cases h

theorem hexValue_hexDigit {n : UInt8} (h : n.toNat < 16) : hexValue (Protocol.hexDigit n) = some n.toNat := by
  have hall : ∀ k < 16, hexValue (Protocol.hexDigits.getD k '0') = some k := by decide
  exact hall n.toNat h

/-- The value of a character as a digit to the base `radix`. -/
def digitValue (radix : ℕ) (c : Char) : Option ℕ := (hexValue c).filter fun n => n < radix

def numberOf (radix : ℕ) (digits : List ℕ) : ℕ := digits.foldl (fun n d => n * radix + d) 0

/-- `str::parse::<u16>`. -/
def parseU16 (s : List Char) : Option ℕ :=
  let digits := match s with
    | '+' :: rest => rest
    | s => s
  if digits = [] then none
  else ((digits.mapM (digitValue 10)).map (numberOf 10)).filter fun n => n < 2 ^ 16

/-! ## `Ipv6Addr::from_str` -/

namespace Ipv6

/-- The digits at the front, of which there may be `most`. -/
def readNumber (radix most : ℕ) (zeroPrefix : Bool) (s : List Char) : Option (ℕ × List Char) :=
  let (digits, rest) := s.span fun c => (digitValue radix c).isSome
  if digits = [] ∨ most < digits.length then none
  else if !zeroPrefix && digits.head? = some '0' && 1 < digits.length then none
  else some (numberOf radix (digits.filterMap (digitValue radix)), rest)

/-- Every part but the first is preceded by `sep`. -/
def readSeparator (sep : Char) (first : Bool) (s : List Char) : Option (List Char) :=
  if first then some s
  else match s with
    | c :: rest => if c = sep then some rest else none
    | [] => none

/-- `n` octets with dots between them. -/
def readOctets : ℕ → Bool → List Char → Option (List Char)
  | 0, _, s => some s
  | n + 1, first, s => do
    let s ← readSeparator '.' first s
    let (octet, s) ← readNumber 10 3 false s
    if octet < 256 then readOctets n false s else none

/-- `read_groups`: how many groups were read, of at most `limit`, whether an embedded IPv4 address
ended them, and what is left. -/
def readGroups : ℕ → Bool → List Char → ℕ × Bool × List Char
  | 0, _, s => (0, false, s)
  | limit + 1, first, s =>
    let ipv4 := if limit = 0 then none else (readSeparator ':' first s).bind (readOctets 4 true)
    match ipv4 with
    | some rest => (2, true, rest)
    | none =>
      match (readSeparator ':' first s).bind (readNumber 16 4 true) with
      | some (_, rest) =>
        let (n, ipv4, rest) := readGroups limit false rest
        (n + 1, ipv4, rest)
      | none => (0, false, s)

/-- The whole text is an IPv6 address. -/
def isAddr (s : List Char) : Bool :=
  match readGroups 8 true s with
  | (8, _, rest) => rest.isEmpty
  | (_, true, _) => false
  | (n, false, ':' :: ':' :: rest) => (readGroups (7 - n) true rest).2.2.isEmpty
  | _ => false

example : ["::1", "fe80::1", "1:2:3:4:5:6:7:8", "::ffff:10.0.0.1", "1::"].all
      (fun s => isAddr s.toList) &&
    ["", ":", "1:2", "1:::2", "::1%eth0", "10.0.0.1", "12345::"].all
      (fun s => !isAddr s.toList) := by decide

end Ipv6

/-! ## Hosts and ports -/

def defaultPort : ℕ := 43721

def withPort (host port : List Char) : Except String (List Char × ℕ) :=
  match parseU16 port with
  | some port => .ok (host, port)
  | none => .error "invalid port"

/-- `split_host_port` of `net.rs` and of `group.rs`, which have a branch each for what has no bracket. -/
def splitBrackets (bare : List Char → Except String (List Char × ℕ)) :
    List Char → Except String (List Char × ℕ)
  | '[' :: rest =>
    match splitOnce ']' rest with
    | none => .error "unclosed '[' in address"
    | some (host, []) => .ok (host, defaultPort)
    | some (host, ':' :: port) => withPort host port
    | some (_, _ :: _) => .error "expected :port after [...]"
  | s => bare s

namespace Group

def splitHostPort : List Char → Except String (List Char × ℕ) :=
  splitBrackets fun s =>
    match rsplitOnce ':' s with
    | some (host, port) => if ':' ∉ host then withPort host port else .ok (s, defaultPort)
    | none => .ok (s, defaultPort)

def formatHostPort (host : String) (port : ℕ) : String :=
  if Ipv6.isAddr host.toList then "[" ++ host ++ "]:" ++ toString port
  else host ++ ":" ++ toString port

/-! ## URIs -/

structure GroupUri where
  groupId : Bytes
  key : Option Bytes
  host : String
  port : ℕ
  deriving DecidableEq, Repr

/-- `redacted_uri`: the key does not appear in it. -/
def GroupUri.redacted (g : GroupUri) : String :=
  "zsync://" ++ Protocol.hexEncode g.groupId ++ "@" ++ formatHostPort g.host g.port

def pairs : List ℕ → Bytes
  | a :: b :: rest => UInt8.ofNat (a * 16 + b) :: pairs rest
  | _ => []

def parseGroupId (s : List Char) : Except String Bytes :=
  let s := trim s
  match s.mapM hexValue with
  | some digits =>
    if digits.length = 32 then .ok (pairs digits) else .error "group_id must be 32 hex chars"
  | none => .error "group_id must be 32 hex chars"

/-- A byte in two halves. -/
theorem halves (b : UInt8) : (b >>> 4).toNat = b.toNat / 16 ∧ (b &&& 0xf).toNat = b.toNat % 16 := by
  constructor
  · rw [UInt8.toNat_shiftRight, Nat.shiftRight_eq_div_pow]
    rfl
  · rw [UInt8.toNat_and]
    exact Nat.and_two_pow_sub_one_eq_mod b.toNat 4

theorem mapM_hexValue {s : List Char} {digits : List ℕ} (h : s.mapM hexValue = some digits) {c : Char}
    (hc : c ∈ s) : (hexValue c).isSome := by
  induction s generalizing digits with
  | nil => cases hc
  | cons d s ih =>
    rw [List.mapM_cons] at h
    obtain ⟨n, hn, hrest⟩ := Option.bind_eq_some_iff.mp h
    obtain ⟨rest, hr, -⟩ := Option.bind_eq_some_iff.mp hrest
    obtain rfl | hc := List.mem_cons.mp hc
    · simp [hn]
    · exact ih hr hc

theorem length_pairs (digits : List ℕ) : (pairs digits).length = digits.length / 2 := by
  induction digits using pairs.induct with
  | case1 a b rest ih =>
    rw [pairs, List.length_cons, ih, List.length_cons, List.length_cons]
    omega
  | case2 digits hshort =>
    rcases digits with - | ⟨a, - | ⟨b, rest⟩⟩
    · rfl
    · simp [pairs]
    · exact absurd rfl (hshort a b rest)

theorem mapM_hexChars (bytes : Bytes) :
    ∃ digits, (Protocol.hexChars bytes).mapM hexValue = some digits ∧ digits.length = 2 * bytes.length ∧
      pairs digits = bytes := by
  induction bytes with
  | nil => exact ⟨[], rfl, rfl, rfl⟩
  | cons b bytes ih =>
    obtain ⟨digits, hm, hlen, hpairs⟩ := ih
    have hb := b.toNat_lt
    obtain ⟨hhigh, hlow⟩ := halves b
    refine ⟨(b >>> 4).toNat :: (b &&& 0xf).toNat :: digits, ?_, ?_, ?_⟩
    · rw [Protocol.hexChars, List.flatMap_cons, List.cons_append, List.cons_append, List.nil_append, List.mapM_cons,
        List.mapM_cons, hexValue_hexDigit (by omega), hexValue_hexDigit (by omega)]
      rw [Protocol.hexChars] at hm
      rw [hm]
      rfl
    · simp only [List.length_cons]
      omega
    · rw [pairs, hpairs, hhigh, hlow]
      have : b.toNat / 16 * 16 + b.toNat % 16 = b.toNat := by omega
      rw [this, UInt8.ofNat_toNat]

theorem trim_hexChars (bytes : Bytes) : trim (Protocol.hexChars bytes) = Protocol.hexChars bytes := by
  have hspace : ∀ c ∈ Protocol.hexChars bytes, ¬ isWhitespace c = true := by
    intro c hc
    have hall : (Protocol.hexDigits.all fun c => !isWhitespace c) = true := by decide
    simpa using List.all_eq_true.mp hall c (Protocol.mem_hexChars hc)
  have hdrop : ∀ t : List Char, (∀ c ∈ t, ¬ isWhitespace c = true) → t.dropWhile isWhitespace = t := by
    intro t ht
    cases t with
    | nil => rfl
    | cons c t => exact List.dropWhile_cons_of_neg (ht c List.mem_cons_self)
  unfold trim
  rw [hdrop _ hspace, hdrop _ fun c hc => hspace c (List.mem_reverse.mp hc), List.reverse_reverse]

/-- An id is read back from its hex form. -/
theorem parseGroupId_hexChars {id : Bytes} (h : id.length = 16) :
    parseGroupId (Protocol.hexChars id) = .ok id := by
  obtain ⟨digits, hm, hlen, hpairs⟩ := mapM_hexChars id
  unfold parseGroupId
  rw [trim_hexChars]
  dsimp only
  rw [hm]
  dsimp only
  rw [if_pos (by omega), hpairs]

/-- The key in the text between `:` and `@`. -/
def parseKey [Base64] (s : List Char) : Except String Bytes :=
  match Base64.decode (String.ofList s) with
  | none => .error "decode group key"
  | some key => if key.length = 32 then .ok key else .error "group key must be 32 bytes"

def parseGroupUri [Base64] (raw : List Char) : Except String GroupUri := do
  let raw := raw.filter fun c => !isWhitespace c
  let some rest := raw.dropPrefix? "zsync://".toList | .error "expected zsync:// URI"
  let some (creds, hostport) := rsplitOnce '@' rest | .error "zsync:// URI missing @host"
  let (gidHex, key) ← match splitOnce ':' creds with
    | some (gid, key) => do
      let key ← parseKey key
      pure (gid, some key)
    | none => pure (creds, none)
  let groupId ← parseGroupId gidHex
  let (host, port) ← splitHostPort hostport
  let host := String.ofList host
  if host = "" ∨ host = "0.0.0.0" ∨ host = "::" then
    .error ("zsync:// host cannot be unspecified (" ++ host ++ ")")
  else .ok ⟨groupId, key, host, port⟩

/-! ## The key directory -/

/-- What `groups/<id>.json` holds: nothing that can be read, text that is no `GroupFile`, or a
`GroupFile` with its `key`. -/
inductive KeyFile
  | missing
  | malformed (error : String)
  | saved (key : String)
  deriving DecidableEq, Repr

/-- Writing the file succeeds, or fails with the system's message. -/
def saveGroupKey [Base64] (io : Except String Unit) (groupId key : Bytes) (dir : String → KeyFile) :
    Except String Unit × (String → KeyFile) :=
  match io with
  | .error e => (.error e, dir)
  | .ok () =>
    (.ok (), Function.update dir (Protocol.hexEncode groupId) (.saved (Base64.encode key)))

def loadGroupKey [Base64] (groupId : Bytes) (dir : String → KeyFile) : Except String Bytes :=
  match dir (Protocol.hexEncode groupId) with
  | .missing => .error ("missing group key " ++ Protocol.hexEncode groupId ++
      "; import the full zsync:// URI first")
  | .malformed e => .error e
  | .saved key =>
    match Base64.decode key with
    | none => .error "decode saved key"
    | some bytes => if bytes.length = 32 then .ok bytes else .error "saved group key has wrong length"

end Group
end Zsync
