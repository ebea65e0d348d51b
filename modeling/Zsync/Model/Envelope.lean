import Zsync.Model.Framing

/-! # `group.rs`: sealed envelopes

What a leaf hands to the relay is a version byte, the sender, a counter, a nonce and the ciphertext.
HKDF and XChaCha20-Poly1305 come from the crates `hkdf` and `chacha20poly1305`: they are the parameter
`Aead`. Asking HKDF for 32 bytes does not fail.
-/

namespace Zsync
set_option autoImplicit false
set_option maxHeartbeats 250000
open Protocol

/-- `Hkdf::<Sha256>::expand` with the key label, and `XChaCha20Poly1305`. -/
class Aead where
  expand : Vector UInt8 32 → Vector UInt8 32
  encrypt : Vector UInt8 32 → Vector UInt8 24 → Bytes → Bytes → Option Bytes
  decrypt : Vector UInt8 32 → Vector UInt8 24 → Bytes → Bytes → Option Bytes

def be64 (n : ℕ) : Bytes := be32 (n / 2 ^ 32) ++ be32 n

namespace Group

def envelopeVer : UInt8 := 1

/-- The associated data. -/
def additional (groupId sender : Vector UInt8 16) (counter : ℕ) : Bytes :=
  groupId.toList ++ sender.toList ++ be64 counter

/-- `nonce` is what the system's random generator gave. -/
def sealEnvelope [Aead] (secret : Vector UInt8 32) (groupId sender : Vector UInt8 16) (counter : ℕ)
    (nonce : Vector UInt8 24) (plaintext : Bytes) : Except String Bytes :=
  match Aead.encrypt (Aead.expand secret) nonce (additional groupId sender counter) plaintext with
  | none => .error "encrypt clip"
  | some ct => .ok ([envelopeVer] ++ sender.toList ++ be64 counter ++ nonce.toList ++ ct)

structure Opened where
  sender : Vector UInt8 16
  counter : ℕ
  plaintext : Bytes
  deriving DecidableEq

/-- The `n` bytes at `i`, as an array. -/
def field (n i : ℕ) (envelope : Bytes) : Vector UInt8 n :=
  Vector.ofFn fun k => envelope.getD (i + k) 0

def openEnvelope [Aead] (secret : Vector UInt8 32) (groupId : Vector UInt8 16) (envelope : Bytes) :
    Except String Opened :=
  if envelope.length < 1 + 16 + 8 + 24 + 16 then .error "truncated envelope"
  else if envelope.getD 0 0 ≠ envelopeVer then
    .error ("unsupported envelope version " ++ toString (envelope.getD 0 0).toNat)
  else
    let sender := field 16 1 envelope
    let counter := fromBe ((envelope.drop 17).take 8)
    match Aead.decrypt (Aead.expand secret) (field 24 25 envelope) (additional groupId sender counter)
      (envelope.drop 49) with
    | none => .error "decrypt clip (wrong group or corrupt)"
    | some plaintext => .ok ⟨sender, counter, plaintext⟩

/-! ### Opening what was sealed -/

theorem be64_length (n : ℕ) : (be64 n).length = 8 := rfl

theorem fromBe_append (a b : Bytes) : fromBe (a ++ b) = fromBe a * 256 ^ b.length + fromBe b := by
  unfold fromBe
  rw [List.foldl_append]
  generalize a.foldl (fun n x => n * 256 + x.toNat) 0 = n
  induction b generalizing n with
  | nil => simp
  | cons x b ih =>
    rw [List.foldl_cons, List.foldl_cons, ih, ih (0 * 256 + x.toNat), List.length_cons, pow_succ]
    rw [Nat.zero_mul, Nat.zero_add, Nat.add_mul, Nat.mul_comm (256 ^ b.length) 256, Nat.mul_assoc,
      Nat.add_assoc]

theorem fromBe_be64 {n : ℕ} (h : n < 2 ^ 64) : fromBe (be64 n) = n := by
  have hlow : fromBe (be32 n) = n % 2 ^ 32 := by
    simp only [fromBe, be32, List.foldl_cons, List.foldl_nil, UInt8.toNat_ofNat']
    omega
  have hlen : (be32 n).length = 4 := rfl
  rw [be64, fromBe_append, fromBe_be32 (by omega), hlow, hlen]
  omega

/-- Eight bytes are the big-endian form of the number they spell. -/
theorem be64_fromBe {bytes : Bytes} (h : bytes.length = 8) : be64 (fromBe bytes) = bytes := by
  match bytes, h with
  | [b0, b1, b2, b3, b4, b5, b6, b7], _ =>
    have h0 := b0.toNat_lt
    have h1 := b1.toNat_lt
    have h2 := b2.toNat_lt
    have h3 := b3.toNat_lt
    have h4 := b4.toNat_lt
    have h5 := b5.toNat_lt
    have h6 := b6.toNat_lt
    have h7 := b7.toNat_lt
    simp only [be64, be32, fromBe, List.foldl_cons, List.foldl_nil, List.cons_append, List.nil_append,
      List.cons.injEq, and_true, ← UInt8.toNat_inj, UInt8.toNat_ofNat']
    omega

/-- A field is read back where it was put. -/
theorem field_append {n i : ℕ} (a b : Bytes) (h : a.length = i) (v : Vector UInt8 n) :
    field n i (a ++ v.toList ++ b) = v := by
  ext k hk
  have hlen : v.toList.length = n := Vector.length_toList
  rw [field, Vector.getElem_ofFn, List.append_assoc, List.getD_append_right _ _ _ _ (by omega)]
  rw [h, Nat.add_sub_cancel_left, List.getD_append _ _ _ _ (by omega)]
  rw [List.getD_eq_getElem _ _ (by omega), Vector.getElem_toList]

theorem field_toList {n i : ℕ} {e : Bytes} (h : i + n ≤ e.length) :
    (field n i e).toList = (e.drop i).take n := by
  apply List.ext_getElem
  · simp
    omega
  · intro k hk hk'
    have hn : k < n := by simpa using hk
    simp only [field, Vector.getElem_toList, Vector.getElem_ofFn, List.getElem_take, List.getElem_drop]
    exact List.getD_eq_getElem _ _ (by omega)

/-- The fields of an envelope are read where they were written. -/
theorem sealed_fields {sender : Vector UInt8 16} {counter : ℕ} {nonce : Vector UInt8 24} {ct env : Bytes}
    (hc : counter < 2 ^ 64)
    (henv : [envelopeVer] ++ sender.toList ++ be64 counter ++ nonce.toList ++ ct = env) :
    field 16 1 env = sender ∧ fromBe ((env.drop 17).take 8) = counter ∧ field 24 25 env = nonce ∧
      env.drop 49 = ct := by
  have hs : sender.toList.length = 16 := Vector.length_toList
  have hn : nonce.toList.length = 24 := Vector.length_toList
  have hb := be64_length counter
  refine ⟨?_, ?_, ?_, ?_⟩
  · rw [← henv, List.append_assoc, List.append_assoc ([envelopeVer] ++ _)]
    exact field_append [envelopeVer] _ rfl sender
  · have hcut : [envelopeVer] ++ sender.toList ++ be64 counter ++ nonce.toList ++ ct =
        ([envelopeVer] ++ sender.toList) ++ (be64 counter ++ (nonce.toList ++ ct)) := by
      simp only [List.append_assoc]
    have h17 : ([envelopeVer] ++ sender.toList).length = 17 := by
      rw [List.length_append, hs]
      rfl
    rw [← henv, hcut, ← h17, List.drop_left, ← hb, List.take_left, fromBe_be64 hc]
  · rw [← henv]
    refine field_append _ ct ?_ nonce
    simp only [List.length_append, List.length_singleton]
    omega
  · rw [← henv]
    refine List.drop_left' ?_
    simp only [List.length_append, List.length_singleton]
    omega

theorem open_seal [Aead] {secret : Vector UInt8 32} {groupId sender : Vector UInt8 16} {counter : ℕ}
    {nonce : Vector UInt8 24} {plaintext ct : Bytes} (hc : counter < 2 ^ 64) (hct : 16 ≤ ct.length)
    (hdec : Aead.decrypt (Aead.expand secret) nonce (additional groupId sender counter) ct =
      some plaintext) :
    openEnvelope secret groupId
        ([envelopeVer] ++ sender.toList ++ be64 counter ++ nonce.toList ++ ct) =
      .ok ⟨sender, counter, plaintext⟩ := by
  have hb := be64_length counter
  generalize henv : [envelopeVer] ++ sender.toList ++ be64 counter ++ nonce.toList ++ ct = env
  have hlen : ¬ env.length < 1 + 16 + 8 + 24 + 16 := by
    rw [← henv]
    simp only [List.length_append, List.length_singleton, Vector.length_toList]
    omega
  have hver : env.getD 0 0 = envelopeVer := by
    rw [← henv]
    rfl
  obtain ⟨hsender, hcounter, hnonce, hrest⟩ := sealed_fields hc henv
  unfold openEnvelope
  rw [if_neg hlen, if_neg (not_not.mpr hver)]
  dsimp only
  rw [hsender, hnonce, hcounter, hrest, hdec]

end Group
end Zsync
