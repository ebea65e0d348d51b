import Zsync.Foundations.UnixPaths
import Zsync.Foundations.Utf8
import Zsync.Model.SessionLoops

/-! # `clipboard/mod.rs`: paths of files as `file://` URIs

A file is offered to other programs as a `text/uri-list`, and such a list is read back when a program offers one. The
file system is a parameter, `FileTree`, with what `canonicalize` and `is_file` promise about each other.

* `firstExistingFile_fileUri` : what comes back is the canonical path as text.
* `roundTrip_iff` : the canonical path itself, exactly when it is text.
-/

namespace Zsync
set_option autoImplicit false
set_option maxHeartbeats 250000
open Foundations.Json Foundations.UnixPaths
open Zsync.Group (hexByte)

/-- `Path::canonicalize` and `Path::is_file`. -/
structure FileTree where
  canonicalize : PathBytes → Option PathBytes
  isFile : PathBytes → Bool
  resolves : ∀ {path}, isFile path = true → ∃ abs, canonicalize path = some abs
  absolute : ∀ {path abs}, canonicalize path = some abs → abs.head? = some slash
  same : ∀ {path abs}, canonicalize path = some abs → isFile abs = isFile path

namespace FileUri

/-! ## Writing -/

/-- The bytes that `file_uri` writes as they are. -/
def unreserved (b : UInt8) : Bool :=
  (0x41 ≤ b && b ≤ 0x5A) || (0x61 ≤ b && b ≤ 0x7A) || (0x30 ≤ b && b ≤ 0x39) ||
    b = 0x2F || b = 0x2E || b = 0x2D || b = 0x5F || b = 0x7E

def upperHex (n : ℕ) : Char := "0123456789ABCDEF".toList.getD n '0'

/-- One byte, or `%` and two digits. -/
def uriChars (b : UInt8) : List Char :=
  if unreserved b then [Char.ofNat b.toNat] else ['%', upperHex (b.toNat / 16), upperHex (b.toNat % 16)]

/-- `file://` -/
def scheme : List Char := ['f', 'i', 'l', 'e', ':', '/', '/']

def fileUri (fs : FileTree) (path : PathBytes) : List Char :=
  let abs := (fs.canonicalize path).getD path
  scheme ++ (utf8 (lossy abs)).flatMap uriChars ++ ['\n']

/-! ## Reading -/

def percentDecode : List UInt8 → List UInt8
  | b :: x :: y :: rest =>
    if b = 0x25 then
      match hexByte [x, y] with
      | some v => v :: percentDecode rest
      | none => b :: percentDecode (x :: y :: rest)
    else b :: percentDecode (x :: y :: rest)
  | b :: rest => b :: percentDecode rest
  | [] => []

def localhost : List Char := ['l', 'o', 'c', 'a', 'l', 'h', 'o', 's', 't']

def pathFromUriOrPath (fs : FileTree) (s : List Char) : Option PathBytes :=
  match scheme.isPrefixOf? s with
  | some rest =>
    let decoded := lossy (percentDecode (utf8 rest))
    some (utf8 ((localhost.isPrefixOf? decoded).getD decoded))
  | none => if fs.isFile (utf8 s) then some (utf8 s) else none

def stripCr (line : List Char) : List Char := if line.getLast? = some '\r' then line.dropLast else line

/-- `str::lines`. -/
def lines (text : List Char) : List (List Char) :=
  let parts := text.splitOn '\n'
  parts.dropLast.map stripCr ++ (parts.getLast?.filter fun last => last ≠ []).toList

/-- The loop of `first_existing_file`. -/
def firstFile (fs : FileTree) : List (List Char) → Option PathBytes
  | [] => none
  | line :: rest =>
    let line := trim line
    if line = [] ∨ line.head? = some '#' then firstFile fs rest
    else
      match pathFromUriOrPath fs line with
      | none => none
      | some path => if fs.isFile path then some path else firstFile fs rest

def firstExistingFile (fs : FileTree) (text : List Char) : Option PathBytes := firstFile fs (lines text)

/-! ## Characters of a URI -/

theorem upperHex_spec {n : ℕ} (h : n < 16) :
    String.utf8EncodeChar (upperHex n) = [code (upperHex n)] ∧
      hexValue (Char.ofNat (code (upperHex n)).toNat) = some n := by
  have hall : ∀ k < 16, hexValue (upperHex k) = some k := by decide
  have hlt := hexValue_lt (by rw [hall n h]; rfl)
  exact ⟨ascii_encode hlt, by rw [ofNat_code hlt, hall n h]⟩

theorem uriChars_printable {b : UInt8} {c : Char} (h : c ∈ uriChars b) : isWhitespace c = false := by
  have hall : ∀ n < 256, ((uriChars (UInt8.ofNat n)).all fun c => !isWhitespace c) = true := by decide +kernel
  have hb := List.all_eq_true.mp (hall b.toNat b.toNat_lt) c (by rwa [UInt8.ofNat_toNat])
  simpa using hb

/-! ## Reading back what was written -/

theorem percentDecode_cons {b : UInt8} (h : b ≠ 0x25) (rest : List UInt8) :
    percentDecode (b :: rest) = b :: percentDecode rest := by
  match rest with
  | [] => rfl
  | [_] => rfl
  | x :: y :: rest => rw [percentDecode, if_neg h]

theorem hexByte_upperHex (b : UInt8) :
    hexByte [code (upperHex (b.toNat / 16)), code (upperHex (b.toNat % 16))] = some b := by
  have hb := b.toNat_lt
  obtain ⟨-, hhigh⟩ := upperHex_spec (n := b.toNat / 16) (by omega)
  obtain ⟨-, hlow⟩ := upperHex_spec (n := b.toNat % 16) (by omega)
  have hsum : b.toNat / 16 * 16 + b.toNat % 16 = b.toNat := by omega
  rw [Group.hexByte_digits hhigh hlow, hsum, UInt8.ofNat_toNat]

theorem unreserved_spec {b : UInt8} (h : unreserved b = true) :
    String.utf8EncodeChar (Char.ofNat b.toNat) = [b] ∧ b ≠ 0x25 := by
  have hall : ∀ n < 256, unreserved (UInt8.ofNat n) = true →
      String.utf8EncodeChar (Char.ofNat (UInt8.ofNat n).toNat) = [UInt8.ofNat n] ∧ UInt8.ofNat n ≠ 0x25 := by
    decide +kernel
  have hb := hall b.toNat b.toNat_lt
  rw [UInt8.ofNat_toNat] at hb
  exact hb h

theorem percentDecode_uriChars (b : UInt8) (rest : List UInt8) :
    percentDecode (utf8 (uriChars b) ++ rest) = b :: percentDecode rest := by
  unfold uriChars
  split_ifs with h
  · obtain ⟨hbyte, hne⟩ := unreserved_spec h
    rw [utf8_cons, utf8_nil, List.append_nil, hbyte, List.singleton_append, percentDecode_cons hne]
  · have hb := b.toNat_lt
    have hpercent : String.utf8EncodeChar '%' = [0x25] := by decide
    have hbytes : utf8 ['%', upperHex (b.toNat / 16), upperHex (b.toNat % 16)] =
        [0x25, code (upperHex (b.toNat / 16)), code (upperHex (b.toNat % 16))] := by
      rw [utf8_cons, utf8_cons, utf8_cons, utf8_nil, hpercent, (upperHex_spec (by omega)).1,
        (upperHex_spec (by omega)).1]
      rfl
    rw [hbytes]
    change percentDecode (0x25 :: _ :: _ :: rest) = _
    rw [percentDecode, if_pos rfl, hexByte_upperHex]

theorem percentDecode_written (bytes : List UInt8) : percentDecode (utf8 (bytes.flatMap uriChars)) = bytes := by
  induction bytes with
  | nil => rfl
  | cons b bytes ih => rw [List.flatMap_cons, utf8_append, percentDecode_uriChars, ih]

/-! ## One line -/

theorem trim_printable {s : List Char} (h : ∀ c ∈ s, isWhitespace c = false) : trim s = s := by
  have hdrop : ∀ t : List Char, (∀ c ∈ t, isWhitespace c = false) → t.dropWhile isWhitespace = t := by
    intro t ht
    cases t with
    | nil => rfl
    | cons c t => rw [List.dropWhile_cons_of_neg (by rw [ht c List.mem_cons_self]; exact Bool.false_ne_true)]
  unfold trim
  rw [hdrop s h, hdrop s.reverse fun c hc => h c (List.mem_reverse.mp hc), List.reverse_reverse]

theorem lines_one {line : List Char} (h : ∀ c ∈ line, isWhitespace c = false) : lines (line ++ ['\n']) = [line] := by
  have hnl : '\n' ∉ line := fun hm => Bool.noConfusion ((h _ hm).symm.trans (by decide : isWhitespace '\n' = true))
  have hcr : line.getLast? ≠ some '\r' := fun hl =>
    Bool.noConfusion ((h _ (List.mem_of_getLast? hl)).symm.trans (by decide : isWhitespace '\r' = true))
  have hsplit : (line ++ ['\n']).splitOn '\n' = [line, []] := by
    rw [List.splitOn_append_cons_self, List.splitOn_eq_singleton hnl, List.splitOn_nil]
    rfl
  rw [lines, hsplit]
  change [stripCr line] ++ [] = [line]
  rw [stripCr, if_neg hcr, List.append_nil]

def uriLine (text : List Char) : List Char := scheme ++ (utf8 text).flatMap uriChars

theorem uriLine_printable (text : List Char) : ∀ c ∈ uriLine text, isWhitespace c = false := by
  intro c hc
  obtain hc | hc := List.mem_append.mp hc
  · have hall : (scheme.all fun c => !isWhitespace c) = true := by decide
    simpa using List.all_eq_true.mp hall c hc
  · obtain ⟨b, _, hb⟩ := List.mem_flatMap.mp hc
    exact uriChars_printable hb

theorem uriLine_counts (text : List Char) : ¬ (uriLine text = [] ∨ (uriLine text).head? = some '#') := by
  rw [uriLine, scheme, List.cons_append, List.head?_cons]
  rintro (h | h)
  · cases h
  · exact absurd (Option.some.inj h) (by decide)

theorem isPrefixOf?_append (front rest : List Char) : front.isPrefixOf? (front ++ rest) = some rest := by
  induction front with
  | nil => rfl
  | cons c front ih =>
    rw [List.cons_append, List.isPrefixOf?, if_pos (beq_self_eq_true c), ih]

/-- A path that starts with a slash has no host in front. -/
theorem pathFrom_uriLine (fs : FileTree) {text : List Char} (h : text.head? = some '/') :
    pathFromUriOrPath fs (uriLine text) = some (utf8 text) := by
  have hstrip : scheme.isPrefixOf? (uriLine text) = some ((utf8 text).flatMap uriChars) :=
    isPrefixOf?_append _ _
  have hhost : localhost.isPrefixOf? text = none := by
    obtain ⟨rest, rfl⟩ := List.head?_eq_some_iff.mp h
    rfl
  rw [pathFromUriOrPath, hstrip]
  dsimp only
  rw [percentDecode_written, lossy_utf8, hhost]
  rfl

theorem lossy_absolute {abs : PathBytes} (h : abs.head? = some slash) : (lossy abs).head? = some '/' := by
  obtain ⟨rest, rfl⟩ := List.head?_eq_some_iff.mp h
  have hslash : slash :: rest = String.utf8EncodeChar '/' ++ rest := rfl
  rw [hslash, lossy_encode]
  rfl

/-- The list that names one file leads to its canonical path, as far as that is text. -/
theorem firstExistingFile_fileUri (fs : FileTree) {path abs : PathBytes} (h : fs.canonicalize path = some abs) :
    firstExistingFile fs (fileUri fs path) =
      if fs.isFile (utf8 (lossy abs)) then some (utf8 (lossy abs)) else none := by
  have htext : fileUri fs path = uriLine (lossy abs) ++ ['\n'] := by
    rw [fileUri, h]
    rfl
  have hprintable := uriLine_printable (lossy abs)
  have hline := uriLine_counts (lossy abs)
  rw [firstExistingFile, htext, lines_one hprintable, firstFile, trim_printable hprintable]
  rw [if_neg hline, pathFrom_uriLine fs (lossy_absolute (fs.absolute h))]
  rfl

/-- What is read back of a file is its canonical path, exactly when that is valid UTF-8. -/
theorem roundTrip_iff (fs : FileTree) (path : PathBytes) (hfile : fs.isFile path = true) :
    ∃ abs, fs.canonicalize path = some abs ∧
      (firstExistingFile fs (fileUri fs path) = some abs ↔ ∃ text, utf8 text = abs) := by
  obtain ⟨abs, habs⟩ := fs.resolves hfile
  refine ⟨abs, habs, ?_⟩
  rw [firstExistingFile_fileUri fs habs]
  constructor
  · intro h
    split_ifs at h
    exact ⟨lossy abs, Option.some.inj h⟩
  · rintro ⟨text, rfl⟩
    rw [lossy_utf8, fs.same habs, hfile]
    rfl

/-! ### A file behind a link -/

/-- One file, which can be reached as `link` too. -/
def linkTree (link target : PathBytes) (h : target.head? = some slash) : FileTree where
  canonicalize := fun path => if path = link ∨ path = target then some target else none
  isFile := fun path => path = link ∨ path = target
  resolves := by
    intro path hfile
    exact ⟨target, if_pos (of_decide_eq_true hfile)⟩
  absolute := by
    intro path abs habs
    split_ifs at habs
    rwa [← Option.some.inj habs]
  same := by
    intro path abs habs
    split_ifs at habs with hpath
    obtain rfl := Option.some.inj habs
    simp [hpath]

theorem linkTree_link (link target : PathBytes) (h : target.head? = some slash) :
    (linkTree link target h).canonicalize link = some target := if_pos (Or.inl rfl)

def oddPath : List Char := ['/', 'm', 'y', ' ', '%', '4', '1', '\n', 'é']

theorem roundTrip_oddPath :
    let fs := linkTree (utf8 oddPath) (utf8 oddPath) (by decide)
    firstExistingFile fs (fileUri fs (utf8 oddPath)) = some (utf8 oddPath) := by
  intro fs
  have hcanon : fs.canonicalize (utf8 oddPath) = some (utf8 oddPath) := linkTree_link _ _ _
  obtain ⟨abs, habs, hiff⟩ := roundTrip_iff fs (utf8 oddPath) (by decide)
  obtain rfl := Option.some.inj (hcanon.symm.trans habs)
  exact hiff.mpr ⟨oddPath, rfl⟩

/-- The file has a name that is not UTF-8, and the link to it has one that is. -/
theorem latinName_lost :
    let link := utf8 ['/', 'l']
    let fs := linkTree link [0x2F, 0xFF] (by decide)
    fs.isFile link = true ∧ fs.canonicalize link = some [0x2F, 0xFF] ∧
      firstExistingFile fs (fileUri fs link) ≠ some [0x2F, 0xFF] := by
  intro link fs
  have hcanon : fs.canonicalize link = some [0x2F, 0xFF] := linkTree_link _ _ _
  refine ⟨by decide, hcanon, fun h => ?_⟩
  rw [firstExistingFile_fileUri fs hcanon] at h
  split_ifs at h
  have hmem : (0xFF : UInt8) ∈ utf8 (lossy [0x2F, 0xFF]) := by
    rw [Option.some.inj h]
    decide
  exact absurd (lt_of_mem_utf8 hmem) (by decide)

end FileUri
end Zsync
