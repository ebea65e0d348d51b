import Zsync.Wire.ClipCodec

/-! # What opens was sealed

`seal` writes a version, the sender, a counter, a nonce and the ciphertext one after the other, and binds
group, sender and counter as associated data. `open` has its own offsets and its own least length.

* `envelope_split` : the fields that `open` reads, put together again, are the whole envelope.
* `additional_injective` : the associated data tells group, sender and counter apart.
* `Encryption` is what the record of the encryptions that were made holds of each. `Ideal` is an ideal cipher with such
  a record, `Exact` one without, and `Fresh` says that no two encryptions of the record collide.
* `envelope_authentic` : what opens is what was sealed, and nothing of it can be exchanged.
-/

namespace Zsync
set_option autoImplicit false
set_option maxHeartbeats 250000
open Protocol

namespace Group

/-! ## The cipher -/

/-- What an encryption was given, but for its message, and what it gave. -/
structure Encryption where
  key : Vector UInt8 32
  nonce : Vector UInt8 24
  aad : Bytes
  ct : Bytes
  deriving DecidableEq

/-- What decrypts is what was encrypted, by one of the encryptions that were made; and a ciphertext is as long as the
message and a tag. -/
structure Ideal [Aead] (made : Encryption → Prop) : Prop where
  decrypts : ∀ key nonce aad msg ct, Aead.decrypt key nonce aad ct = some msg ↔
    made ⟨key, nonce, aad, ct⟩ ∧ Aead.encrypt key nonce aad msg = some ct
  tagged : ∀ key nonce aad msg ct,
    Aead.encrypt key nonce aad msg = some ct → ct.length = msg.length + 16

/-- Nobody keeps a record: what decrypts is what encrypting it would give. -/
def Exact [Aead] : Prop := Ideal fun _ => True

/-- No two of the encryptions that were made gave the same ciphertext. -/
def Fresh (made : Encryption → Prop) : Prop := ∀ x y, made x → made y → x.ct = y.ct → x = y

/-- The encryption that an envelope comes from, if it belongs to the group. -/
def encryption [Aead] (secret : Vector UInt8 32) (groupId : Vector UInt8 16) (e : Bytes) : Encryption where
  key := Aead.expand secret
  nonce := field 24 25 e
  aad := additional groupId (field 16 1 e) (fromBe ((e.drop 17).take 8))
  ct := e.drop 49

/-! ## The fields -/

theorem envelope_split {e : Bytes} (hlen : 65 ≤ e.length) (hver : e.getD 0 0 = envelopeVer) :
    [envelopeVer] ++ (field 16 1 e).toList ++ be64 (fromBe ((e.drop 17).take 8)) ++
      (field 24 25 e).toList ++ e.drop 49 = e := by
  have hcounter : ((e.drop 17).take 8).length = 8 := by simp; omega
  have hhead : [envelopeVer] = e.take 1 := by
    cases e with
    | nil => simp at hlen
    | cons b e => simpa using hver.symm
  have hcut : ∀ i n, e.drop i = (e.drop i).take n ++ e.drop (i + n) := by
    intro i n
    rw [← List.drop_drop, List.take_append_drop]
  rw [field_toList (by omega), field_toList (by omega), be64_fromBe hcounter, hhead]
  simp only [List.append_assoc]
  rw [← hcut 25 24, ← hcut 17 8, ← hcut 1 16, List.take_append_drop]

theorem fromBe_lt (bytes : Bytes) : fromBe bytes < 256 ^ bytes.length := by
  induction bytes with
  | nil => simp [fromBe]
  | cons b bytes ih =>
    have hb := b.toNat_lt
    have hone : fromBe [b] = b.toNat := by simp [fromBe]
    have hmul : b.toNat * 256 ^ bytes.length ≤ 255 * 256 ^ bytes.length :=
      Nat.mul_le_mul_right _ (by omega)
    rw [← List.singleton_append, fromBe_append, hone, List.singleton_append, List.length_cons, pow_succ]
    omega

theorem additional_injective {groupId groupId' sender sender' : Vector UInt8 16} {counter counter' : ℕ}
    (hc : counter < 2 ^ 64) (hc' : counter' < 2 ^ 64)
    (h : additional groupId sender counter = additional groupId' sender' counter') :
    groupId = groupId' ∧ sender = sender' ∧ counter = counter' := by
  unfold additional at h
  have hlen : (groupId.toList ++ sender.toList).length = (groupId'.toList ++ sender'.toList).length := by
    simp
  obtain ⟨hids, hcounter⟩ := List.append_inj h hlen
  obtain ⟨hgroup, hsender⟩ := List.append_inj hids (by simp)
  refine ⟨Vector.toList_inj.mp hgroup, Vector.toList_inj.mp hsender, ?_⟩
  rw [← fromBe_be64 hc, hcounter, fromBe_be64 hc']

/-! ## Sealing and opening -/

section
variable [Aead] {secret : Vector UInt8 32} {groupId sender : Vector UInt8 16} {counter : ℕ}
  {nonce : Vector UInt8 24} {plaintext e : Bytes} {o : Opened}

theorem seal_ok_iff :
    sealEnvelope secret groupId sender counter nonce plaintext = .ok e ↔
      ∃ ct, Aead.encrypt (Aead.expand secret) nonce (additional groupId sender counter) plaintext =
          some ct ∧
        [envelopeVer] ++ sender.toList ++ be64 counter ++ nonce.toList ++ ct = e := by
  unfold sealEnvelope
  cases Aead.encrypt (Aead.expand secret) nonce (additional groupId sender counter) plaintext with
  | none => simp
  | some ct => simp

/-- The encryption that `seal` makes is the one its envelope comes from. -/
theorem encryption_of_seal (hc : counter < 2 ^ 64)
    (hs : sealEnvelope secret groupId sender counter nonce plaintext = .ok e) :
    ∃ ct, Aead.encrypt (Aead.expand secret) nonce (additional groupId sender counter) plaintext = some ct ∧
      [envelopeVer] ++ sender.toList ++ be64 counter ++ nonce.toList ++ ct = e ∧
      encryption secret groupId e = ⟨Aead.expand secret, nonce, additional groupId sender counter, ct⟩ := by
  obtain ⟨ct, henc, henv⟩ := seal_ok_iff.mp hs
  obtain ⟨hsender, hcounter, hnonce, hct⟩ := sealed_fields hc henv
  exact ⟨ct, henc, henv, by rw [encryption, hsender, hcounter, hnonce, hct]⟩

/-- What the decryption of an envelope that opens was asked for. -/
theorem open_ok (h : openEnvelope secret groupId e = .ok o) :
    o.counter < 2 ^ 64 ∧
      [envelopeVer] ++ o.sender.toList ++ be64 o.counter ++ (field 24 25 e).toList ++ e.drop 49 = e ∧
      encryption secret groupId e =
        ⟨Aead.expand secret, field 24 25 e, additional groupId o.sender o.counter, e.drop 49⟩ ∧
      Aead.decrypt (Aead.expand secret) (field 24 25 e) (additional groupId o.sender o.counter)
        (e.drop 49) = some o.plaintext := by
  unfold openEnvelope at h
  by_cases hlen : e.length < 1 + 16 + 8 + 24 + 16
  · rw [if_pos hlen] at h
    cases h
  rw [if_neg hlen] at h
  by_cases hver : e.getD 0 0 ≠ envelopeVer
  · rw [if_pos hver] at h
    cases h
  rw [if_neg hver] at h
  dsimp only at h
  split at h
  · cases h
  · next plaintext hdec =>
    obtain rfl := Except.ok.inj h
    have hsplit := envelope_split (by omega) (not_not.mp hver)
    have hcounter := fromBe_lt ((e.drop 17).take 8)
    have hbytes : ((e.drop 17).take 8).length = 8 := by simp; omega
    rw [hbytes] at hcounter
    exact ⟨hcounter, hsplit, rfl, hdec⟩

variable {made : Encryption → Prop}

theorem opens_of_seal (h : Ideal made) (hc : counter < 2 ^ 64)
    (hs : sealEnvelope secret groupId sender counter nonce plaintext = .ok e)
    (hmade : made (encryption secret groupId e)) :
    openEnvelope secret groupId e = .ok ⟨sender, counter, plaintext⟩ := by
  obtain ⟨ct, henc, henv, hx⟩ := encryption_of_seal hc hs
  rw [hx] at hmade
  have hlen := h.tagged _ _ _ _ _ henc
  rw [← henv]
  exact open_seal hc (by omega) ((h.decrypts ..).mpr ⟨hmade, henc⟩)

theorem made_of_open (h : Ideal made) (ho : openEnvelope secret groupId e = .ok o) :
    made (encryption secret groupId e) := by
  obtain ⟨-, -, henc, hdec⟩ := open_ok ho
  rw [henc]
  exact ((h.decrypts ..).mp hdec).1

theorem sealed_of_open (h : Ideal made) (ho : openEnvelope secret groupId e = .ok o) :
    sealEnvelope secret groupId o.sender o.counter (field 24 25 e) o.plaintext = .ok e := by
  obtain ⟨-, hsplit, -, hdec⟩ := open_ok ho
  exact seal_ok_iff.mpr ⟨e.drop 49, ((h.decrypts ..).mp hdec).2, hsplit⟩

/-- Where two envelopes end in the same ciphertext and both open, they are one. -/
theorem open_unique (h : Ideal made) (hf : Fresh made) {secret' : Vector UInt8 32}
    {groupId' : Vector UInt8 16} {e' : Bytes} {o' : Opened} (ho : openEnvelope secret groupId e = .ok o)
    (ho' : openEnvelope secret' groupId' e' = .ok o') (hct : e'.drop 49 = e.drop 49) :
    groupId' = groupId ∧ e' = e ∧ o' = o := by
  have hsame : encryption secret groupId e = encryption secret' groupId' e' :=
    hf _ _ (made_of_open h ho) (made_of_open h ho') hct.symm
  obtain ⟨hc, hsplit, henc, hdec⟩ := open_ok ho
  obtain ⟨hc', hsplit', henc', hdec'⟩ := open_ok ho'
  rw [henc, henc', Encryption.mk.injEq] at hsame
  obtain ⟨hkey, hnonce, haad, -⟩ := hsame
  obtain ⟨rfl, hsender, hcounter⟩ := additional_injective hc hc' haad
  have hplain : o.plaintext = o'.plaintext := by
    rw [← hkey, ← hnonce, ← haad, hct, hdec] at hdec'
    exact Option.some.inj hdec'
  refine ⟨rfl, ?_, ?_⟩
  · rw [← hsplit, ← hsplit', hsender, hcounter, hnonce, hct]
  · cases o
    cases o'
    dsimp only at hsender hcounter hplain
    rw [hsender, hcounter, hplain]

end

/-! ## The result -/

/-- `open` takes the outputs of `seal` under its own secret and group, and gives back what went in; and of the
envelopes that were made, none opens in another group or under another header. -/
theorem envelope_authentic [Aead] {made : Encryption → Prop} (h : Ideal made) (secret : Vector UInt8 32)
    (groupId : Vector UInt8 16) (e : Bytes) :
    (∀ o, openEnvelope secret groupId e = .ok o ↔ o.counter < 2 ^ 64 ∧ made (encryption secret groupId e) ∧
        ∃ nonce, sealEnvelope secret groupId o.sender o.counter nonce o.plaintext = .ok e) ∧
      (∀ sender counter nonce plaintext, counter < 2 ^ 64 →
        sealEnvelope secret groupId sender counter nonce plaintext = .ok e →
        made (encryption secret groupId e) → openEnvelope secret groupId e = .ok ⟨sender, counter, plaintext⟩) ∧
      (Fresh made → ∀ o secret' groupId' e' o', openEnvelope secret groupId e = .ok o →
        openEnvelope secret' groupId' e' = .ok o' → e'.drop 49 = e.drop 49 →
        groupId' = groupId ∧ e' = e ∧ o' = o) := by
  refine ⟨fun o => ⟨fun ho => ?_, fun ho => ?_⟩, fun _ _ _ _ hc hs hm => opens_of_seal h hc hs hm, ?_⟩
  · exact ⟨(open_ok ho).1, made_of_open h ho, _, sealed_of_open h ho⟩
  · obtain ⟨hc, hmade, nonce, hs⟩ := ho
    exact opens_of_seal h hc hs hmade
  · intro hf o secret' groupId' e' o' ho ho' hct
    exact open_unique h hf ho ho' hct

end Group

/-! ### Two envelopes of two groups -/

/-- The cipher, after one more encryption. -/
abbrev Aead.extend (A : Aead) (x : Group.Encryption) (msg : Bytes) : Aead where
  expand := A.expand
  encrypt := fun key nonce aad m =>
    if key = x.key ∧ nonce = x.nonce ∧ aad = x.aad ∧ m = msg then some x.ct else A.encrypt key nonce aad m
  decrypt := fun key nonce aad ct =>
    if key = x.key ∧ nonce = x.nonce ∧ aad = x.aad ∧ ct = x.ct then some msg else A.decrypt key nonce aad ct

/-- An ideal cipher stays one under a nonce that was not used yet. -/
theorem Group.Ideal.extend (A : Aead) {made : Group.Encryption → Prop} (h : @Group.Ideal A made)
    (x : Group.Encryption) {msg : Bytes} (hnonce : ∀ y, made y → y.nonce ≠ x.nonce)
    (hlen : x.ct.length = msg.length + 16) (hother : ∀ m, A.encrypt x.key x.nonce x.aad m ≠ some x.ct) :
    @Group.Ideal (A.extend x msg) fun y => y = x ∨ made y := by
  obtain ⟨xkey, xnonce, xaad, xct⟩ := x
  refine @Group.Ideal.mk (A.extend ⟨xkey, xnonce, xaad, xct⟩ msg) _ (fun key nonce aad m ct => ?_)
    fun key nonce aad m ct henc => ?_
  · change (if key = xkey ∧ nonce = xnonce ∧ aad = xaad ∧ ct = xct then some msg else A.decrypt key nonce aad ct) =
        some m ↔ _ ∧ (if key = xkey ∧ nonce = xnonce ∧ aad = xaad ∧ m = msg then some xct
          else A.encrypt key nonce aad m) = some ct
    rw [Group.Encryption.mk.injEq]
    by_cases hx : key = xkey ∧ nonce = xnonce ∧ aad = xaad ∧ ct = xct
    · obtain ⟨rfl, rfl, rfl, rfl⟩ := hx
      have hiff : (if m = msg then some ct else A.encrypt key nonce aad m) = some ct ↔ m = msg := by
        split_ifs with hm
        · simp [hm]
        · exact iff_of_false (hother m) hm
      simp only [and_self, true_and, if_true, true_or, hiff, Option.some.injEq]
      exact eq_comm
    · rw [if_neg hx, h.decrypts]
      have hmade : (key = xkey ∧ nonce = xnonce ∧ aad = xaad ∧ ct = xct ∨ made ⟨key, nonce, aad, ct⟩) ↔
          made ⟨key, nonce, aad, ct⟩ := or_iff_right hx
      rw [hmade]
      refine and_congr_right fun hm => ?_
      rw [if_neg fun he => hnonce _ hm he.2.1]
  · change (if key = xkey ∧ nonce = xnonce ∧ aad = xaad ∧ m = msg then some xct else A.encrypt key nonce aad m) =
      some ct at henc
    split_ifs at henc with hx
    · rw [← Option.some.inj henc, hx.2.2.2]
      exact hlen
    · exact h.tagged _ _ _ _ _ henc

/-- Nothing was encrypted yet. -/
abbrev blankAead : Aead where
  expand := sampleAead.expand
  encrypt := fun _ _ _ msg => some (msg ++ List.replicate 16 0)
  decrypt := fun _ _ _ _ => none

theorem blankAead_ideal : @Group.Ideal blankAead fun _ => False := by
  refine @Group.Ideal.mk blankAead _ (fun key nonce aad msg ct => ?_) fun key nonce aad msg ct h => ?_
  · exact iff_of_false (fun h => by cases h) fun h => h.1
  · rw [← Option.some.inj h, List.length_append, List.length_replicate]

theorem zeros_ne {ct : Bytes} (h : ct.getLast? ≠ some 0) (msg : Bytes) :
    some (msg ++ List.replicate 16 0) ≠ some ct := by
  intro he
  rw [← Option.some.inj he, List.getLast?_append_of_ne_nil _ (by decide)] at h
  exact h rfl

def hiEncryption : Group.Encryption := ⟨hiKey, .replicate 24 4, hiData, hiCiphertext⟩

theorem sampleAead_ideal : @Group.Ideal sampleAead (· = hiEncryption) := by
  have hlen : hiCiphertext.length = hiBody.length + 16 := by rw [hiCiphertext_length, hiBody_length]
  have hother : ∀ m, blankAead.encrypt hiKey (.replicate 24 4) hiData m ≠ some hiCiphertext :=
    zeros_ne (by decide +kernel)
  have h := Group.Ideal.extend blankAead blankAead_ideal hiEncryption (fun _ h => h.elim) hlen hother
  simp only [or_false] at h
  exact h

/-- What HKDF makes of `05..05`. -/
def farKey : Vector UInt8 32 :=
  #v[0xbb, 0x0d, 0x62, 0xff, 0x14, 0x42, 0x96, 0x84, 0x9c, 0xec, 0x47, 0x47, 0xed, 0xa7, 0x8d, 0xfc,
    0x5d, 0x60, 0x1d, 0x33, 0x57, 0x95, 0x56, 0x99, 0xdd, 0xe7, 0x05, 0x57, 0x89, 0x4c, 0xc6, 0x7d]

/-- The empty message of the sender `07..07` to the group `06..06` under the counter 2, with `08..08` as nonce. -/
def farEncryption : Group.Encryption where
  key := farKey
  nonce := .replicate 24 8
  aad := Group.additional (.replicate 16 6) (.replicate 16 7) 2
  ct := [0x23, 0x15, 0xea, 0x8e, 0x70, 0x8d, 0x36, 0x18, 0x75, 0x31, 0x47, 0xea, 0x7f, 0xb8, 0xe8, 0x54]

abbrev pairAead : Aead :=
  { sampleAead.extend farEncryption [] with
    expand := fun secret => if secret = .replicate 32 5 then farKey else sampleAead.expand secret }

def pairMade (x : Group.Encryption) : Prop := x = farEncryption ∨ x = hiEncryption

theorem pairAead_ideal : @Group.Ideal pairAead pairMade := by
  have hnonce : ∀ y, y = hiEncryption → y.nonce ≠ farEncryption.nonce := by
    rintro _ rfl
    decide
  have hother : ∀ m, sampleAead.encrypt farEncryption.key farEncryption.nonce farEncryption.aad m ≠
      some farEncryption.ct := by
    intro m
    change (if _ then some hiCiphertext else some (m ++ List.replicate 16 0)) ≠ _
    rw [if_neg fun h => absurd h.2.1 (by decide)]
    exact zeros_ne (by decide) m
  have h := Group.Ideal.extend sampleAead sampleAead_ideal farEncryption hnonce rfl hother
  exact @Group.Ideal.mk pairAead _ (@Group.Ideal.decrypts (sampleAead.extend farEncryption []) _ h)
    (@Group.Ideal.tagged (sampleAead.extend farEncryption []) _ h)

theorem pairMade_fresh : Group.Fresh pairMade := by
  have hlen : hiEncryption.ct.length ≠ farEncryption.ct.length := by
    rw [show hiEncryption.ct.length = 179 from hiCiphertext_length]
    decide
  rintro x y (rfl | rfl) (rfl | rfl) hct
  · rfl
  · exact absurd (congrArg List.length hct).symm hlen
  · exact absurd (congrArg List.length hct) hlen
  · rfl

/-- `hi` and an empty message were sealed for the groups `02..02` and `06..06`. Both open there, and in no other
group. -/
theorem pair_authentic :
    letI := pairAead
    ∃ e e', Group.openEnvelope (.replicate 32 1) (.replicate 16 2) e = .ok ⟨.replicate 16 3, 1, hiBody⟩ ∧
      Group.openEnvelope (.replicate 32 5) (.replicate 16 6) e' = .ok ⟨.replicate 16 7, 2, []⟩ ∧
      (∀ secret groupId o, Group.openEnvelope secret groupId e = .ok o →
        groupId = .replicate 16 2 ∧ o = ⟨.replicate 16 3, 1, hiBody⟩) ∧
      ∀ secret groupId o, Group.openEnvelope secret groupId e' = .ok o →
        groupId = .replicate 16 6 ∧ o = ⟨.replicate 16 7, 2, []⟩ := by
  let _ := pairAead
  have henc : pairAead.encrypt hiKey (.replicate 24 4) hiData hiBody = some hiCiphertext :=
    (if_neg fun h => absurd h.2.1 (by decide)).trans (if_pos ⟨rfl, rfl, rfl, rfl⟩)
  have henc' : pairAead.encrypt farKey (.replicate 24 8) farEncryption.aad [] = some farEncryption.ct :=
    if_pos ⟨rfl, rfl, rfl, rfl⟩
  obtain ⟨e, hseal⟩ : ∃ e, Group.sealEnvelope (.replicate 32 1) (.replicate 16 2) (.replicate 16 3) 1
    (.replicate 24 4) hiBody = .ok e := ⟨_, Group.seal_ok_iff.mpr ⟨_, henc, rfl⟩⟩
  obtain ⟨e', hseal'⟩ : ∃ e, Group.sealEnvelope (.replicate 32 5) (.replicate 16 6) (.replicate 16 7) 2
    (.replicate 24 8) [] = .ok e := ⟨_, Group.seal_ok_iff.mpr ⟨_, henc', rfl⟩⟩
  have hmade : pairMade (Group.encryption (.replicate 32 1) (.replicate 16 2) e) := by
    obtain ⟨ct, hct, -, hx⟩ := Group.encryption_of_seal (by decide) hseal
    exact .inr (hx.trans (by rw [Option.some.inj (hct.symm.trans henc)]; rfl))
  have hmade' : pairMade (Group.encryption (.replicate 32 5) (.replicate 16 6) e') := by
    obtain ⟨ct, hct, -, hx⟩ := Group.encryption_of_seal (by decide) hseal'
    exact .inl (hx.trans (by rw [Option.some.inj (hct.symm.trans henc')]; rfl))
  obtain ⟨-, hopen, hunique⟩ := Group.envelope_authentic pairAead_ideal (.replicate 32 1) (.replicate 16 2) e
  obtain ⟨-, hopen', hunique'⟩ := Group.envelope_authentic pairAead_ideal (.replicate 32 5) (.replicate 16 6) e'
  have ho := hopen _ _ _ _ (by decide) hseal hmade
  have ho' := hopen' _ _ _ _ (by decide) hseal' hmade'
  refine ⟨e, e', ho, ho', fun secret groupId o h => ?_, fun secret groupId o h => ?_⟩
  · obtain ⟨hgroup, -, heq⟩ := hunique pairMade_fresh _ _ _ _ _ ho h rfl
    exact ⟨hgroup, heq⟩
  · obtain ⟨hgroup, -, heq⟩ := hunique' pairMade_fresh _ _ _ _ _ ho' h rfl
    exact ⟨hgroup, heq⟩

end Zsync
