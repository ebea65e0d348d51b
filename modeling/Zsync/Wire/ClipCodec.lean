import Zsync.Model.ClipBody
import Zsync.Model.Envelope

/-! # Clips on the wire

The length of the meta stands in two bytes, the size of the data in the meta, the length of the body in
the frame, and the envelope adds its own bytes. The limits on them are checked in four functions.

* `Encodable` : the clips that `encode_clip_body` takes.
* `decodeFrame_eq` : a buffer is decoded as the front of a stream is read.
* `decodeClip_exact` : what is accepted is a length, a meta and data, with nothing left over.
-/

namespace Zsync
set_option autoImplicit false
set_option maxHeartbeats 250000
open Protocol

/-- What `serde_json` promises of one value. -/
structure JsonRoundTrip {α : Type} [Json α] (x : α) : Prop where
  decode_encode : Json.decode (Json.encode x) = some x
  nonempty : Json.encode x ≠ []

/-- XChaCha20-Poly1305 takes every message of the size of a frame, and adds a tag of 16 bytes. -/
def Tagged [Aead] : Prop :=
  ∀ key nonce aad msg, msg.length ≤ maxFrame →
    ∃ ct, Aead.encrypt key nonce aad msg = some ct ∧ ct.length = msg.length + 16

namespace Protocol

theorem decodeFrame_eq (buf : Bytes) : decodeFrame buf = (readFrame buf).map Prod.fst := by
  by_cases hlen : buf.length < 10
  · rw [decodeFrame, if_pos hlen, readFrame, lanCodec.read_header ProtoError.io hlen]
    rfl
  · have hhead : (buf.take 10).length = lanCodec.headerLen := by
      rw [List.length_take]
      exact Nat.min_eq_left (Nat.not_lt.mp hlen)
    have hread := lanCodec.read_payload ProtoError.io (s := buf.drop 10) hhead
    rw [List.take_append_drop] at hread
    rw [decodeFrame, if_neg hlen, readFrame, hread]
    change _ = ((readHeader magic version FrameType.fromU8 (buf.take 10)).bind _).map Prod.fst
    cases readHeader magic version FrameType.fromU8 (buf.take 10) with
    | error e => rfl
    | ok p =>
      obtain ⟨typ, n⟩ := p
      have hshort : buf.length < 10 + n ↔ (buf.drop 10).length < n := by
        rw [List.length_drop]
        omega
      change (if buf.length < 10 + n then _ else _) =
        ((Foundations.readExact ProtoError.io n (buf.drop 10)).bind _).map Prod.fst
      unfold Foundations.readExact
      by_cases h : buf.length < 10 + n
      · rw [if_pos h, if_pos (hshort.mp h)]
        rfl
      · rw [if_neg h, if_neg (fun hn => h (hshort.mpr hn))]
        rfl

theorem decodeFrame_encodeFrame {typ : FrameType} {payload bytes : Bytes}
    (h : encodeFrame typ payload = .ok bytes) : decodeFrame bytes = .ok (typ, payload) := by
  obtain ⟨f, hf, rfl⟩ := encodeFrame_frame h
  rw [decodeFrame_eq, readFrame, ← List.append_nil f.symbols, lanCodec.read_append .io f [], hf]
  rfl

section
variable [Json ClipMeta]

/-- The data and the meta are within their limits. -/
structure Encodable (clip : Clip) : Prop where
  fits : clip.data.length ≤ maxClip
  metaFits : (Json.encode (sized clip)).length ≤ maxMeta

def clipBody (clip : Clip) : Bytes :=
  be16 (Json.encode (sized clip)).length ++ Json.encode (sized clip) ++ clip.data

theorem encodeClipBody_ok {clip : Clip} (h : Encodable clip) :
    encodeClipBody clip = .ok (clipBody clip) := by
  rw [encodeClipBody, if_neg (Nat.not_lt.mpr h.fits)]
  exact if_neg (Nat.not_lt.mpr h.metaFits)

theorem encodeClipBody_error {clip : Clip} (h : ¬ Encodable clip) :
    ∃ e, encodeClipBody clip = .error e := by
  by_cases hd : maxClip < clip.data.length
  · exact ⟨_, if_pos hd⟩
  · rw [encodeClipBody, if_neg hd]
    refine ⟨.badMeta, if_pos ?_⟩
    apply Nat.not_le.mp
    intro hm
    exact h ⟨Nat.not_lt.mp hd, hm⟩

theorem clipBody_length (clip : Clip) :
    (clipBody clip).length = 2 + (Json.encode (sized clip)).length + clip.data.length := by
  rw [clipBody, List.length_append, List.length_append]
  rfl

/-- A body leaves room in a frame for 48 KiB more. -/
theorem clipBody_fits {clip : Clip} (h : Encodable clip) :
    (clipBody clip).length + 47 * 1024 ≤ maxFrame := by
  have hf := h.fits
  have hm := h.metaFits
  rw [clipBody_length]
  unfold maxFrame maxMeta maxClip at *
  omega

/-- A length, a meta and data that agree are accepted. -/
theorem decodeClip_parts {metaBytes data : Bytes} {clipMeta : ClipMeta}
    (hm : metaBytes.length ≤ maxMeta) (hne : metaBytes ≠ [])
    (hj : Json.decode metaBytes = some clipMeta) (hsize : clipMeta.size = data.length)
    (hfits : data.length ≤ maxClip) :
    decodeClip (be16 metaBytes.length ++ metaBytes ++ data) = .ok ⟨clipMeta, data⟩ := by
  have hmax : maxMeta < 2 ^ 16 := by decide
  have hpos : 0 < metaBytes.length := List.length_pos_iff.mpr hne
  have h2 : (be16 metaBytes.length).length = 2 := rfl
  generalize hp : be16 metaBytes.length ++ metaBytes ++ data = payload
  have hlen : payload.length = 2 + metaBytes.length + data.length := by
    rw [← hp, List.length_append, List.length_append, h2]
  have hsplit : payload = be16 metaBytes.length ++ (metaBytes ++ data) := by
    rw [← hp, List.append_assoc]
  have hmetaLen : fromBe (payload.take 2) = metaBytes.length := by
    rw [hsplit, ← h2, List.take_left, fromBe_be16 (Nat.lt_of_le_of_lt hm hmax)]
  have hmeta : (payload.drop 2).take metaBytes.length = metaBytes := by
    rw [hsplit, List.drop_left' h2, List.take_left]
  have hdata : payload.drop (2 + metaBytes.length) = data := by
    rw [← List.drop_drop, hsplit, List.drop_left' h2, List.drop_left]
  unfold decodeClip
  dsimp only
  rw [if_neg (by omega), hmetaLen, if_neg (by omega), hmeta, hdata, hj]
  dsimp only
  rw [if_neg (not_not.mpr hsize), if_neg (Nat.not_lt.mpr hfits)]

theorem decodeClip_clipBody {clip : Clip} (h : Encodable clip) (hj : JsonRoundTrip (sized clip)) :
    decodeClip (clipBody clip) = .ok ⟨sized clip, clip.data⟩ :=
  decodeClip_parts h.metaFits hj.nonempty hj.decode_encode rfl h.fits

/-- Nothing of an accepted body is left over, and its sizes agree. -/
theorem decodeClip_exact {p : Bytes} {c : Clip} (h : decodeClip p = .ok c) :
    c.clipMeta.size = c.data.length ∧ c.data.length ≤ maxClip ∧
      ∃ metaBytes, metaBytes ≠ [] ∧ metaBytes.length ≤ maxMeta ∧
        Json.decode metaBytes = some c.clipMeta ∧
        p = be16 metaBytes.length ++ metaBytes ++ c.data := by
  unfold decodeClip at h
  by_cases hshort : p.length < 2
  · rw [if_pos hshort] at h
    cases h
  rw [if_neg hshort] at h
  dsimp only at h
  by_cases hlen : fromBe (p.take 2) = 0 ∨ maxMeta < fromBe (p.take 2) ∨ p.length < 2 + fromBe (p.take 2)
  · rw [if_pos hlen] at h
    cases h
  rw [if_neg hlen] at h
  split at h
  · cases h
  · next clipMeta hjson =>
    split_ifs at h with hsize hbig
    obtain rfl := Except.ok.inj h
    have hmetaLen : ((p.drop 2).take (fromBe (p.take 2))).length = fromBe (p.take 2) := by
      rw [List.length_take, List.length_drop]
      omega
    have h2 : (p.take 2).length = 2 := by
      rw [List.length_take]
      omega
    refine ⟨not_not.mp hsize, Nat.not_lt.mp hbig, _, ?_, ?_, hjson, ?_⟩
    · intro hnil
      rw [hnil] at hmetaLen
      exact (not_or.mp hlen).1 hmetaLen.symm
    · rw [hmetaLen]
      omega
    · rw [hmetaLen, be16_fromBe h2, ← List.drop_drop, List.append_assoc, List.take_append_drop,
        List.take_append_drop]

end
end Protocol

/-- The envelope of a body adds 65 bytes. -/
theorem sealEnvelope_fits [Aead] (ha : Tagged) (secret : Vector UInt8 32)
    (groupId sender : Vector UInt8 16) (counter : ℕ) (nonce : Vector UInt8 24) {plaintext : Bytes}
    (hp : plaintext.length + 65 ≤ maxFrame) :
    ∃ env, Group.sealEnvelope secret groupId sender counter nonce plaintext = .ok env ∧
      env.length ≤ maxFrame := by
  obtain ⟨ct, hct, hlen⟩ := ha (Aead.expand secret) nonce (Group.additional groupId sender counter)
    plaintext (by omega)
  refine ⟨_, by rw [Group.sealEnvelope, hct], ?_⟩
  simp only [List.length_append, List.length_singleton, Vector.length_toList, Group.be64_length, hlen]
  omega

/-! ## The result -/

theorem encodeClip_ok [Json ClipMeta] {clip : Clip} (h : Encodable clip) :
    ∃ frame, encodeClip clip = .ok frame ∧ decodeFrame frame = .ok (.clip, clipBody clip) := by
  have hroom := clipBody_fits h
  have hframe : encodeFrame .clip (clipBody clip) = .ok _ := if_neg (by omega)
  refine ⟨_, ?_, decodeFrame_encodeFrame hframe⟩
  rw [encodeClip, encodeClipBody_ok h]
  exact hframe

/-- `clip` is sent over the LAN and sealed for a relay, and `p` is whatever arrives. -/
theorem clip_codec [Json ClipMeta] [Aead] (clip : Clip) (p : Bytes) (secret : Vector UInt8 32)
    (groupId sender : Vector UInt8 16) (counter : ℕ) (nonce : Vector UInt8 24)
    (hj : JsonRoundTrip (sized clip)) (ha : Tagged) :
    (Encodable clip → ∃ body frame env wire, encodeClipBody clip = .ok body ∧
        decodeClip body = .ok ⟨sized clip, clip.data⟩ ∧ encodeClip clip = .ok frame ∧
        decodeFrame frame = .ok (.clip, body) ∧
        Group.sealEnvelope secret groupId sender counter nonce body = .ok env ∧
        Relay.frameBytes .data env = .ok wire) ∧
      (¬ Encodable clip →
        (∃ e, encodeClipBody clip = .error e) ∧ ∃ e, encodeClip clip = .error e) ∧
      ∀ c, decodeClip p = .ok c → c.clipMeta.size = c.data.length ∧ c.data.length ≤ maxClip ∧
        ∃ metaBytes, metaBytes ≠ [] ∧ metaBytes.length ≤ maxMeta ∧
          Json.decode metaBytes = some c.clipMeta ∧
          p = be16 metaBytes.length ++ metaBytes ++ c.data := by
  refine ⟨fun h => ?_, fun h => ?_, fun c hc => decodeClip_exact hc⟩
  · have hroom := clipBody_fits h
    have hroom' : (clipBody clip).length + 65 ≤ maxFrame := by omega
    obtain ⟨frame, hframe, hdec⟩ := encodeClip_ok h
    obtain ⟨env, henv, hlen⟩ := sealEnvelope_fits ha secret groupId sender counter nonce hroom'
    have hwire : Relay.frameBytes .data env = .ok _ := if_neg (Nat.not_lt.mpr hlen)
    exact ⟨_, frame, env, _, encodeClipBody_ok h, decodeClip_clipBody h hj, hframe, hdec, henv, hwire⟩
  · obtain ⟨e, he⟩ := encodeClipBody_error h
    refine ⟨⟨e, he⟩, e, ?_⟩
    rw [encodeClip, he]
    rfl

/-! ### The text `hi` -/

/-- `hi`, copied by the leaf `03..03`. -/
def relayClip : Clip :=
  { hiClip with clipMeta := { hiClip.clipMeta with originId := "03030303030303030303030303030303" } }

/-- `serde_json::to_vec`, where no string needs escaping. -/
def metaText (m : ClipMeta) : String :=
  "\x7b\"origin_id\":\"" ++ m.originId ++ "\",\"seq\":" ++ Nat.repr m.seq ++ ",\"mime\":\"" ++ m.mime ++
    "\",\"hash\":\"" ++ m.hash ++ "\",\"size\":" ++ Nat.repr m.size ++
    (if m.name = "" then "" else ",\"name\":\"" ++ m.name ++ "\"") ++ "\x7d"

def metaBytes (m : ClipMeta) : Bytes := (metaText m).toList.map fun c => UInt8.ofNat c.toNat

abbrev sampleMetaJson : Json ClipMeta where
  encode := metaBytes
  decode := fun b => if b = metaBytes relayClip.clipMeta then some relayClip.clipMeta else none

def hiBody : Bytes := [0, 159] ++ metaBytes relayClip.clipMeta ++ [104, 105]

theorem hiMeta_length : (metaBytes relayClip.clipMeta).length = 159 := by decide +kernel

theorem hiBody_length : hiBody.length = 163 := by
  rw [hiBody, List.length_append, List.length_append, hiMeta_length]
  rfl

/-- What HKDF makes of `01..01`. -/
def hiKey : Vector UInt8 32 :=
  #v[0x42, 0xd8, 0x75, 0xd6, 0x27, 0x5d, 0x96, 0x5a, 0x27, 0x5e, 0x50, 0x57, 0x43, 0x13, 0x3f, 0x2b,
    0x5a, 0xc2, 0x46, 0xe3, 0x81, 0x9a, 0x7b, 0x8e, 0x94, 0xa5, 0x38, 0x7d, 0xb9, 0x72, 0x98, 0xdb]

/-- The associated data of the group `02..02`, the sender `03..03` and the counter 1. -/
def hiData : Bytes := Group.additional (.replicate 16 2) (.replicate 16 3) 1

/-- The ciphertext of the body of `hi`, with `04..04` as nonce. -/
def hiCiphertext : Bytes :=
  [0x12, 0x68, 0x6c, 0xb3, 0x30, 0x5b, 0xd1, 0x7c, 0x97, 0x33, 0xc6, 0x98, 0xb7, 0x05, 0x40, 0x29,
    0xc5, 0x53, 0x87, 0x34, 0x4d, 0x3f, 0x4d, 0xad, 0x56, 0x32, 0xb7, 0xa9, 0xa4, 0xa7, 0x13, 0xb9,
    0x2f, 0x8f, 0xd1, 0x52, 0x18, 0x7e, 0x96, 0x35, 0x9f, 0x25, 0x41, 0x63, 0x06, 0x23, 0x56, 0x37,
    0x2c, 0x92, 0xac, 0x2e, 0x98, 0xaa, 0x54, 0x9d, 0xcd, 0xbc, 0xc1, 0x6b, 0xf4, 0x47, 0x2b, 0xe1,
    0x61, 0x3b, 0xee, 0x9d, 0xf3, 0x20, 0xe5, 0xf3, 0x5a, 0xda, 0x8a, 0x17, 0x89, 0x1c, 0xba, 0xc4,
    0x0e, 0x63, 0x6b, 0xbd, 0x5c, 0x60, 0xc8, 0x1c, 0x6d, 0xea, 0xd2, 0x98, 0xda, 0x6e, 0xf3, 0x5d,
    0xc1, 0xf3, 0x3e, 0xe6, 0x81, 0xd0, 0x5c, 0x7f, 0xd9, 0x58, 0x7a, 0x5f, 0x4a, 0xdd, 0x35, 0x0d,
    0x15, 0x0b, 0xe1, 0x49, 0x4c, 0xbd, 0x0b, 0xd2, 0xa1, 0x4b, 0x81, 0x8b, 0x7a, 0xcf, 0x37, 0xe1,
    0xd5, 0x93, 0x69, 0x81, 0xd4, 0x26, 0xcc, 0xce, 0x3a, 0x14, 0xab, 0xa8, 0xb1, 0x2a, 0x1f, 0xcc,
    0x7e, 0x0d, 0x93, 0xa3, 0xaa, 0xa2, 0x7c, 0x16, 0xfe, 0x24, 0x0f, 0x4d, 0x65, 0x79, 0x4f, 0x93,
    0x25, 0xf1, 0x82, 0xec, 0x99, 0xdc, 0x03, 0x31, 0xb5, 0x85, 0x2e, 0x0e, 0xe4, 0xac, 0x0f, 0x9f,
    0xa3, 0xd5, 0x1e]

theorem hiCiphertext_length : hiCiphertext.length = 179 := by decide +kernel

abbrev sampleAead : Aead where
  expand := fun secret => if secret = .replicate 32 1 then hiKey else .replicate 32 0
  encrypt := fun key nonce aad msg =>
    if key = hiKey ∧ nonce = .replicate 24 4 ∧ aad = hiData ∧ msg = hiBody then some hiCiphertext
    else some (msg ++ List.replicate 16 0)
  decrypt := fun key nonce aad ct =>
    if key = hiKey ∧ nonce = .replicate 24 4 ∧ aad = hiData ∧ ct = hiCiphertext then some hiBody
    else none

theorem sampleAead_tagged : letI := sampleAead; Tagged := by
  intro key nonce aad msg _
  by_cases h : key = hiKey ∧ nonce = .replicate 24 4 ∧ aad = hiData ∧ msg = hiBody
  · refine ⟨hiCiphertext, if_pos h, ?_⟩
    rw [h.2.2.2, hiBody_length, hiCiphertext_length]
  · exact ⟨_, if_neg h, by rw [List.length_append, List.length_replicate]⟩

theorem sampleMetaJson_roundTrip : letI := sampleMetaJson; JsonRoundTrip (sized relayClip) := by
  let _ := sampleMetaJson
  refine ⟨if_pos rfl, fun hnil => ?_⟩
  have hlen : (metaBytes relayClip.clipMeta).length = 0 := congrArg List.length hnil
  rw [hiMeta_length] at hlen
  cases hlen

theorem relayClip_encodable : letI := sampleMetaJson; Encodable relayClip := by
  let _ := sampleMetaJson
  refine ⟨by decide, ?_⟩
  change (metaBytes relayClip.clipMeta).length ≤ maxMeta
  rw [hiMeta_length]
  decide

/-- `hi` comes out of its body again, and what is sealed for the relay fits. -/
theorem relayClip_coded :
    letI := sampleMetaJson
    letI := sampleAead
    ∃ body env wire, encodeClipBody relayClip = .ok body ∧ decodeClip body = .ok relayClip ∧
      Group.sealEnvelope (.replicate 32 1) (.replicate 16 2) (.replicate 16 3) 1 (.replicate 24 4) body =
        .ok env ∧ Relay.frameBytes .data env = .ok wire := by
  let _ := sampleMetaJson
  let _ := sampleAead
  have h := (clip_codec relayClip [] (.replicate 32 1) (.replicate 16 2) (.replicate 16 3) 1
    (.replicate 24 4) sampleMetaJson_roundTrip sampleAead_tagged).1
  obtain ⟨body, _, env, wire, hb, hd, -, -, he, hw⟩ := h relayClip_encodable
  exact ⟨body, env, wire, hb, hd, he, hw⟩

end Zsync
