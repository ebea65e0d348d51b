import Zsync.Model.Framing

/-! # `protocol.rs`: the body of a clip

A body is the length of the meta in two bytes, the meta as JSON, and the data. The same body is the
payload of a LAN frame and the plaintext of a relay envelope.
-/

namespace Zsync
set_option autoImplicit false
set_option maxHeartbeats 250000
open Protocol

def be16 (n : ℕ) : Bytes := [UInt8.ofNat (n / 2 ^ 8), UInt8.ofNat n]

theorem fromBe_be16 {n : ℕ} (h : n < 2 ^ 16) : fromBe (be16 n) = n := by
  simp only [fromBe, be16, List.foldl_cons, List.foldl_nil, UInt8.toNat_ofNat']
  omega

/-- Two bytes are the big-endian form of the number they spell. -/
theorem be16_fromBe {bytes : Bytes} (h : bytes.length = 2) : be16 (fromBe bytes) = bytes := by
  match bytes, h with
  | [a, b], _ =>
    have ha := a.toNat_lt
    have hb := b.toNat_lt
    have hfrom : fromBe [a, b] = a.toNat * 256 + b.toNat := by
      simp [fromBe]
    have hhigh : (a.toNat * 256 + b.toNat) / 2 ^ 8 = a.toNat := by omega
    have hlow : UInt8.ofNat (a.toNat * 256 + b.toNat) = b := by
      rw [← UInt8.toNat_inj, UInt8.toNat_ofNat']
      omega
    rw [hfrom, be16, hhigh, hlow, UInt8.ofNat_toNat]

namespace Protocol
section
variable [Json ClipMeta]

/-- The meta that goes out with a clip. -/
def sized (clip : Clip) : ClipMeta := { clip.clipMeta with size := clip.data.length }

def encodeClipBody (clip : Clip) : Except ProtoError Bytes :=
  if maxClip < clip.data.length then .error .tooLarge
  else
    let metaBytes := Json.encode (sized clip)
    if maxMeta < metaBytes.length then .error .badMeta
    else .ok (be16 metaBytes.length ++ metaBytes ++ clip.data)

def encodeClip (clip : Clip) : Except ProtoError Bytes := do
  encodeFrame .clip (← encodeClipBody clip)

def decodeClip (payload : Bytes) : Except ProtoError Clip :=
  if payload.length < 2 then .error .badMeta
  else
    let metaLen := fromBe (payload.take 2)
    if metaLen = 0 ∨ maxMeta < metaLen ∨ payload.length < 2 + metaLen then .error .badMeta
    else
      match Json.decode ((payload.drop 2).take metaLen) with
      | none => .error .json
      | some clipMeta =>
        let data := payload.drop (2 + metaLen)
        if clipMeta.size ≠ data.length then .error (.sizeMismatch data.length clipMeta.size)
        else if maxClip < data.length then .error .tooLarge
        else .ok ⟨clipMeta, data⟩

end
end Protocol
end Zsync
