import Mathlib.Tactic.Common
import Mathlib.Algebra.Group.Nat.Defs
import Mathlib.Data.List.GetD

/-! # `protocol.rs`: clips, hashes and the LAN frame

Strings are Lean strings, byte strings are lists of `UInt8`, `usize` and `u64` are natural numbers.
SHA-256 comes from the crate `sha2`: it is the parameter `Sha256`, of which only the 32-byte result
is used. Frame headers are parsed in the order in which `read_frame` and `decode_frame` check them.
-/

namespace Zsync
set_option autoImplicit false
set_option maxHeartbeats 250000

abbrev Bytes := List UInt8

/-- `Sha256::digest` of the crate `sha2`. -/
class Sha256 where
  digest : Bytes → Vector UInt8 32

/-- `serde_json` at one type. -/
class Json (α : Type) where
  encode : α → Bytes
  decode : Bytes → Option α

namespace Protocol

def magic : Bytes := [0x5A, 0x53, 0x59, 0x4E]
def version : UInt8 := 1
def maxClip : ℕ := 10 * 1024 * 1024
def maxFrame : ℕ := maxClip + 64 * 1024
def maxMeta : ℕ := 16 * 1024

inductive ProtoError
  | badMagic
  | badVersion (v : UInt8)
  | tooLarge
  | badMeta
  | sizeMismatch (got want : ℕ)
  | hashMismatch
  | unknownType (v : UInt8)
  | io
  | json
  deriving DecidableEq, Repr

inductive FrameType
  | hello | helloAck | ping | pong | clip | clipAck | error | bye
  deriving DecidableEq, Repr

def FrameType.toU8 : FrameType → UInt8
  | .hello => 1
  | .helloAck => 2
  | .ping => 3
  | .pong => 4
  | .clip => 5
  | .clipAck => 6
  | .error => 7
  | .bye => 8

def FrameType.fromU8 (v : UInt8) : Except ProtoError FrameType :=
  match v with
  | 1 => .ok .hello
  | 2 => .ok .helloAck
  | 3 => .ok .ping
  | 4 => .ok .pong
  | 5 => .ok .clip
  | 6 => .ok .clipAck
  | 7 => .ok .error
  | 8 => .ok .bye
  | other => .error (.unknownType other)

theorem FrameType.fromU8_toU8 (t : FrameType) : FrameType.fromU8 t.toU8 = .ok t := by
  cases t <;> rfl

/-! ## Clips -/

structure ClipMeta where
  originId : String
  seq : ℕ
  mime : String
  hash : String
  size : ℕ
  /-- Original filename when the clip is a copied file (basename only). -/
  name : String
  deriving DecidableEq, Repr

structure Clip where
  clipMeta : ClipMeta
  data : Bytes
  deriving DecidableEq, Repr

structure ClipAck where
  hash : String
  ok : Bool
  reason : String
  deriving DecidableEq, Repr

/-! ## Hashes -/

def hexDigits : List Char :=
  ['0', '1', '2', '3', '4', '5', '6', '7', '8', '9', 'a', 'b', 'c', 'd', 'e', 'f']

def hexDigit (n : UInt8) : Char := hexDigits.getD n.toNat '0'

def hexChars (bytes : Bytes) : List Char :=
  bytes.flatMap fun (b : UInt8) => [hexDigit (b >>> 4), hexDigit (b &&& 0xf)]

def hexEncode (bytes : Bytes) : String := String.ofList (hexChars bytes)

theorem hexDigit_mem (n : UInt8) : hexDigit n ∈ hexDigits := by
  unfold hexDigit
  by_cases h : n.toNat < hexDigits.length
  · rw [List.getD_eq_getElem _ _ h]
    exact List.getElem_mem h
  · rw [List.getD_eq_default _ _ (Nat.not_lt.mp h)]
    decide

theorem mem_hexChars {bytes : Bytes} {c : Char} (h : c ∈ hexChars bytes) : c ∈ hexDigits := by
  obtain ⟨b, _, hc⟩ := List.mem_flatMap.mp h
  simp only [List.mem_cons, List.not_mem_nil, or_false] at hc
  obtain rfl | rfl := hc
  · exact hexDigit_mem _
  · exact hexDigit_mem _

theorem hexChars_length (bytes : Bytes) : (hexChars bytes).length = 2 * bytes.length := by
  induction bytes with
  | nil => rfl
  | cons b bytes ih =>
    rw [hexChars, List.flatMap_cons, List.length_append, List.length_cons]
    rw [hexChars] at ih
    rw [ih]
    simp only [List.length_cons, List.length_nil]
    omega

protected def hash [Sha256] (data : Bytes) : String := hexEncode (Sha256.digest data).toList

theorem hash_toList [Sha256] (data : Bytes) :
    (Protocol.hash data).toList = hexChars (Sha256.digest data).toList := by
  rw [Protocol.hash, hexEncode, String.toList_ofList]

theorem hash_length [Sha256] (data : Bytes) : (Protocol.hash data).toList.length = 64 := by
  rw [hash_toList, hexChars_length, Vector.length_toList]

theorem hash_ne_empty [Sha256] (data : Bytes) : Protocol.hash data ≠ "" := by
  intro h
  have hl := hash_length data
  rw [h] at hl
  exact absurd hl (by decide)

theorem hash_chars [Sha256] {data : Bytes} {c : Char} (h : c ∈ (Protocol.hash data).toList) :
    c ∈ hexDigits := by
  rw [hash_toList] at h
  exact mem_hexChars h

/-- SHA-256 at the texts `hi`, `yo` and `hi\n`, on which the examples run. -/
abbrev sampleSha256 : Sha256 where
  digest := fun data =>
    if data = [104, 105] then
      #v[0x8f, 0x43, 0x43, 0x46, 0x64, 0x8f, 0x6b, 0x96, 0xdf, 0x89, 0xdd, 0xa9, 0x01, 0xc5, 0x17,
        0x6b, 0x10, 0xa6, 0xd8, 0x39, 0x61, 0xdd, 0x3c, 0x1a, 0xc8, 0x8b, 0x59, 0xb2, 0xdc, 0x32,
        0x7a, 0xa4]
    else if data = [121, 111] then
      #v[0xe9, 0x05, 0x8a, 0xb1, 0x98, 0xf6, 0x90, 0x8f, 0x70, 0x21, 0x11, 0xb0, 0xc0, 0xfb, 0x5b,
        0x36, 0xf9, 0x9d, 0x00, 0x55, 0x45, 0x21, 0x88, 0x6c, 0x40, 0xe2, 0x89, 0x1b, 0x34, 0x9d,
        0xc7, 0xa1]
    else if data = [104, 105, 10] then
      #v[0x98, 0xea, 0x6e, 0x4f, 0x21, 0x6f, 0x2f, 0xb4, 0xb6, 0x9f, 0xff, 0x9b, 0x3a, 0x44, 0x84,
        0x2c, 0x38, 0x68, 0x6c, 0xa6, 0x85, 0xf3, 0xf5, 0x5d, 0xc4, 0x8c, 0x5d, 0x3f, 0xb1, 0x10,
        0x7b, 0xe4]
    else Vector.replicate 32 0

/-! ## MIME types -/

/-- `str::starts_with`. -/
def startsWith (s p : String) : Bool := p.toList.isPrefixOf s.toList

def detectMime (data : Bytes) : String :=
  if [0x89, 0x50, 0x4E, 0x47, 0x0D, 0x0A, 0x1A, 0x0A].isPrefixOf data then "image/png"
  else if [0xff, 0xd8, 0xff].isPrefixOf data then "image/jpeg"
  else if [0x47, 0x49, 0x46, 0x38].isPrefixOf data then "image/gif"
  else if [0x25, 0x50, 0x44, 0x46].isPrefixOf data then "application/pdf"
  else if data.isEmpty || (data.toByteArray.validateUTF8 && !data.contains 0) then "text/plain"
  else "application/octet-stream"

def extForMime (mime : String) : String :=
  if startsWith mime "image/png" then ".png"
  else if startsWith mime "image/jpeg" || startsWith mime "image/jpg" then ".jpg"
  else if startsWith mime "image/gif" then ".gif"
  else if startsWith mime "image/webp" then ".webp"
  else if startsWith mime "application/pdf" then ".pdf"
  else if startsWith mime "application/zip" then ".zip"
  else if startsWith mime "text/plain" then ".txt"
  else if startsWith mime "text/html" then ".html"
  else ".bin"

/-- Every extension `ext_for_mime` can return. -/
def extensions : List String :=
  [".png", ".jpg", ".gif", ".webp", ".pdf", ".zip", ".txt", ".html", ".bin"]

theorem extForMime_mem (mime : String) : extForMime mime ∈ extensions := by
  unfold extForMime
  split_ifs <;> decide

/-! ## Verification -/

/-- Full payload, matching size and SHA-256. -/
def verifyClip [Sha256] (clip : Clip) : Except ProtoError Unit :=
  if maxClip < clip.data.length ∨ maxClip < clip.clipMeta.size then .error .tooLarge
  else if clip.clipMeta.size ≠ clip.data.length then
    .error (.sizeMismatch clip.data.length clip.clipMeta.size)
  else if clip.clipMeta.hash = "" ∨ Protocol.hash clip.data ≠ clip.clipMeta.hash then .error .hashMismatch
  else .ok ()

/-- What `verify_clip` accepts. -/
structure Verified [Sha256] (clip : Clip) : Prop where
  hash_eq : clip.clipMeta.hash = Protocol.hash clip.data
  size_eq : clip.clipMeta.size = clip.data.length
  fits : clip.data.length ≤ maxClip

theorem verifyClip_ok_iff [Sha256] (clip : Clip) : verifyClip clip = .ok () ↔ Verified clip := by
  unfold verifyClip
  constructor
  · intro h
    split_ifs at h with h1 h2 h3
    exact ⟨(not_not.mp (not_or.mp h3).2).symm, not_not.mp h2, Nat.not_lt.mp (not_or.mp h1).1⟩
  · rintro ⟨hh, hs, hf⟩
    have h3 : ¬ (clip.clipMeta.hash = "" ∨ Protocol.hash clip.data ≠ clip.clipMeta.hash) := by
      rintro (h | h)
      · exact hash_ne_empty clip.data (hh ▸ h)
      · exact h hh.symm
    rw [if_neg (by omega), if_neg (not_not.mpr hs), if_neg h3]

instance [Sha256] (clip : Clip) : Decidable (Verified clip) :=
  decidable_of_iff _ (verifyClip_ok_iff clip)

/-- The text `hi`, copied on `laptop`. -/
def hiClip : Clip :=
  ⟨⟨"laptop", 1, "text/plain", "8f434346648f6b96df89dda901c5176b10a6d83961dd3c1ac88b59b2dc327aa4",
    2, ""⟩, [104, 105]⟩

example : letI := sampleSha256; Verified hiClip := by decide

end Protocol
end Zsync
