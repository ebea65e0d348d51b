import Zsync.Wire.ClipCodec

/-! # `decode_frame` and `read_frame`, check by check

`protocol.rs` has two parsers of a frame: one looks into a buffer, the other takes its bytes from a stream that hands
them out in pieces. Both are written down here as the source has them, every check in its place; `ProtoError.io` stands
for `UnexpectedEof` in both.

* `decodeFrame_eq` and `readFrame_flatten` : both follow the codec of `Model.Framing`, which has the checks once.
* `parsers_agree` : the same frame or the same error, and the stream is left right behind the frame.
-/

namespace Zsync
set_option autoImplicit false
set_option maxHeartbeats 250000
open Foundations

namespace Protocol

/-- `MAGIC` as the `u32` that both parsers compare with. -/
def magicWord : ℕ := 0x5A53594E

namespace Stepwise

def decodeFrame (buf : Bytes) : Except ProtoError (FrameType × Bytes) :=
  if buf.length < 10 then .error .io
  else if fromBe (buf.take 4) ≠ magicWord then .error .badMagic
  else if buf.getD 4 0 ≠ version then .error (.badVersion (buf.getD 4 0))
  else do
    let typ ← FrameType.fromU8 (buf.getD 5 0)
    let n := fromBe ((buf.take 10).drop 6)
    if maxFrame < n then .error .tooLarge
    else if buf.length < 10 + n then .error .io
    else .ok (typ, (buf.take (10 + n)).drop 10)

def readFrame (s : List Bytes) : Except ProtoError ((FrameType × Bytes) × List Bytes) := do
  let (hdr, s) ← readChunks .io 10 s
  if fromBe (hdr.take 4) ≠ magicWord then .error .badMagic
  else if hdr.getD 4 0 ≠ version then .error (.badVersion (hdr.getD 4 0))
  else
    let typ ← FrameType.fromU8 (hdr.getD 5 0)
    let n := fromBe (hdr.drop 6)
    if maxFrame < n then .error .tooLarge
    else if 0 < n then
      let (payload, s) ← readChunks .io n s
      .ok ((typ, payload), s)
    else .ok ((typ, []), s)

end Stepwise

/-! ## The header -/

/-- Four bytes are `MAGIC` when they are its bytes in order. -/
theorem fromBe_magic {bytes : Bytes} (h : bytes.length = 4) : fromBe bytes = magicWord ↔ bytes = magic := by
  match bytes, h with
  | [a, b, c, d], _ =>
    have ha := a.toNat_lt
    have hb := b.toNat_lt
    have hc := c.toNat_lt
    have hd := d.toNat_lt
    simp only [fromBe, magicWord, magic, List.foldl_cons, List.foldl_nil, List.cons.injEq, and_true,
      ← UInt8.toNat_inj]
    have h1 : UInt8.toNat 0x5A = 0x5A := rfl
    have h2 : UInt8.toNat 0x53 = 0x53 := rfl
    have h3 : UInt8.toNat 0x59 = 0x59 := rfl
    have h4 : UInt8.toNat 0x4E = 0x4E := rfl
    rw [h1, h2, h3, h4]
    omega

/-- The four checks of a header, with what follows them. -/
def checked {β : Type} (hdr : Bytes) (next : FrameType → ℕ → Except ProtoError β) : Except ProtoError β :=
  if fromBe (hdr.take 4) ≠ magicWord then .error .badMagic
  else if hdr.getD 4 0 ≠ version then .error (.badVersion (hdr.getD 4 0))
  else do
    let typ ← FrameType.fromU8 (hdr.getD 5 0)
    if maxFrame < fromBe (hdr.drop 6) then .error .tooLarge else next typ (fromBe (hdr.drop 6))

theorem checked_eq {β : Type} {hdr : Bytes} (h : hdr.length = 10)
    (next : FrameType → ℕ → Except ProtoError β) :
    checked hdr next = (readHeader magic version FrameType.fromU8 hdr).bind fun p => next p.1 p.2 := by
  have hmagic : fromBe (hdr.take 4) = magicWord ↔ hdr.take 4 = magic := by
    apply fromBe_magic
    rw [List.length_take, h]
    rfl
  unfold checked readHeader
  by_cases hm : hdr.take 4 = magic
  · rw [if_neg (not_not.mpr (hmagic.mpr hm)), if_neg (not_not.mpr hm)]
    by_cases hv : hdr.getD 4 0 = version
    · rw [if_neg (not_not.mpr hv), if_neg (not_not.mpr hv)]
      cases FrameType.fromU8 (hdr.getD 5 0) with
      | error e => rfl
      | ok typ =>
        change (if _ then _ else _) = Except.bind (if _ then _ else _) _
        split_ifs
        · rfl
        · rfl
    · rw [if_pos hv, if_pos hv]
      rfl
  · rw [if_pos (fun heq => hm (hmagic.mp heq)), if_pos hm]
    rfl

/-! ## Both parsers follow the codec -/

theorem readFrame_exact (buf : Bytes) :
    readFrame buf = (readExact ProtoError.io 10 buf).bind fun h =>
      (readHeader magic version FrameType.fromU8 h.1).bind fun p =>
        (readExact ProtoError.io p.2 h.2).bind fun q => .ok ((p.1, q.1), q.2) := rfl

namespace Stepwise

theorem decodeFrame_eq (buf : Bytes) : decodeFrame buf = Protocol.decodeFrame buf := by
  unfold decodeFrame Protocol.decodeFrame
  by_cases hshort : buf.length < 10
  · rw [if_pos hshort, if_pos hshort]
  · rw [if_neg hshort, if_neg hshort]
    have hlen : (buf.take 10).length = 10 := by
      rw [List.length_take]
      omega
    have htake : (buf.take 10).take 4 = buf.take 4 := by
      rw [List.take_take]
      rfl
    have hget : ∀ i < 10, (buf.take 10).getD i 0 = buf.getD i 0 := by
      intro i hi
      rw [List.getD_eq_getElem?_getD, List.getD_eq_getElem?_getD, List.getElem?_take_of_lt hi]
    have hcheck := checked_eq hlen fun typ n =>
      if buf.length < 10 + n then (.error .io : Except ProtoError (FrameType × Bytes))
      else .ok (typ, (buf.take (10 + n)).drop 10)
    rw [checked, htake, hget 4 (by decide), hget 5 (by decide)] at hcheck
    refine hcheck.trans ?_
    cases readHeader magic version FrameType.fromU8 (buf.take 10) with
    | error e => rfl
    | ok p =>
      change (if buf.length < 10 + p.2 then _ else _) = (if buf.length < 10 + p.2 then _ else _)
      rw [List.drop_take, Nat.add_sub_cancel_left]

/-- What comes after the header, on a stream. -/
def payloadFrom (s : List Bytes) (typ : FrameType) (n : ℕ) : Except ProtoError ((FrameType × Bytes) × List Bytes) :=
  if 0 < n then (readChunks ProtoError.io n s).bind fun q => .ok ((typ, q.1), q.2) else .ok ((typ, []), s)

theorem readFrame_eq (s : List Bytes) :
    readFrame s = (readChunks ProtoError.io 10 s).bind fun h => checked h.1 (payloadFrom h.2) := rfl

theorem payloadFrom_flatten (s : List Bytes) (typ : FrameType) (n : ℕ) :
    (payloadFrom s typ n).map (fun p => (p.1, p.2.flatten)) =
      (readExact ProtoError.io n s.flatten).bind fun q => .ok ((typ, q.1), q.2) := by
  have hpayload := readChunks_flatten ProtoError.io n s
  rw [← hpayload, payloadFrom]
  split_ifs with hn
  · cases readChunks ProtoError.io n s with
    | error e => rfl
    | ok q => rfl
  · obtain rfl : n = 0 := by omega
    rw [readChunks]
    rfl

/-- What the stream holds decides, not how it comes. -/
theorem readFrame_flatten (s : List Bytes) :
    (readFrame s).map (fun p => (p.1, p.2.flatten)) = Protocol.readFrame s.flatten := by
  have hhead := readChunks_flatten ProtoError.io 10 s
  rw [readFrame_eq, readFrame_exact, ← hhead]
  cases hchunks : readChunks ProtoError.io 10 s with
  | error e => rfl
  | ok h =>
    have hlen : h.1.length = 10 := by
      rw [hchunks] at hhead
      exact readExact_length hhead.symm
    change (checked h.1 (payloadFrom h.2)).map _ = (readHeader magic version FrameType.fromU8 h.1).bind _
    rw [checked_eq hlen]
    cases readHeader magic version FrameType.fromU8 h.1 with
    | error e => rfl
    | ok p => exact payloadFrom_flatten h.2 p.1 p.2

end Stepwise

/-- What is left of a stream behind a frame. -/
theorem readFrame_rest {buf rest : Bytes} {p : FrameType × Bytes} (h : readFrame buf = .ok (p, rest)) :
    rest = buf.drop (10 + p.2.length) ∧ 10 + p.2.length ≤ buf.length := by
  rw [readFrame_exact] at h
  cases hhead : readExact ProtoError.io 10 buf with
  | error e =>
    rw [hhead] at h
    cases h
  | ok head =>
    rw [hhead] at h
    change (readHeader magic version FrameType.fromU8 head.1).bind _ = _ at h
    cases hparse : readHeader magic version FrameType.fromU8 head.1 with
    | error e =>
      rw [hparse] at h
      cases h
    | ok q =>
      rw [hparse] at h
      change (readExact ProtoError.io q.2 head.2).bind _ = _ at h
      cases hpayload : readExact ProtoError.io q.2 head.2 with
      | error e =>
        rw [hpayload] at h
        cases h
      | ok got =>
        rw [hpayload] at h
        obtain ⟨rfl, rfl⟩ := Prod.mk.inj (Except.ok.inj h)
        obtain ⟨hleft, hsize⟩ := readExact_rest hhead
        obtain ⟨hleft', hsize'⟩ := readExact_rest hpayload
        have hgot := readExact_length hpayload
        rw [hleft, List.length_drop] at hsize'
        dsimp only
        rw [hleft', hleft, hgot, List.drop_drop]
        exact ⟨rfl, by omega⟩

namespace Stepwise

/-- A buffer is decoded as a stream that holds it is read, and a read that succeeds leaves the stream right behind
the frame. -/
theorem parsers_agree (s : List Bytes) :
    (∀ typ payload, decodeFrame s.flatten = .ok (typ, payload) ↔
      ∃ rest, readFrame s = .ok ((typ, payload), rest)) ∧
    (∀ typ payload rest, readFrame s = .ok ((typ, payload), rest) →
      rest.flatten = s.flatten.drop (10 + payload.length) ∧ 10 + payload.length ≤ s.flatten.length) ∧
    ∀ e, decodeFrame s.flatten = .error e ↔ readFrame s = .error e := by
  have hstream := readFrame_flatten s
  have hbuf : decodeFrame s.flatten = (Protocol.readFrame s.flatten).map Prod.fst :=
    (decodeFrame_eq s.flatten).trans (Protocol.decodeFrame_eq s.flatten)
  rw [← hstream] at hbuf
  rw [hbuf]
  cases hread : readFrame s with
  | error e =>
    refine ⟨fun typ payload => ?_, fun typ payload rest h => (nomatch h), fun e' => Iff.rfl.trans ?_⟩
    · exact ⟨fun h => (nomatch h), fun ⟨_, h⟩ => (nomatch h)⟩
    · exact ⟨fun h => congrArg _ (Except.error.inj h), fun h => congrArg _ (Except.error.inj h)⟩
  | ok p =>
    obtain ⟨⟨typ, payload⟩, rest⟩ := p
    rw [hread] at hstream
    refine ⟨fun typ' payload' => ?_, fun typ' payload' rest' h => ?_, fun e' => ?_⟩
    · constructor
      · intro h
        obtain ⟨rfl, rfl⟩ := Prod.mk.inj (Except.ok.inj h)
        exact ⟨rest, rfl⟩
      · rintro ⟨rest', h⟩
        obtain ⟨h, -⟩ := Prod.mk.inj (Except.ok.inj h)
        exact congrArg _ h
    · obtain ⟨h, rfl⟩ := Prod.mk.inj (Except.ok.inj h)
      cases h
      exact readFrame_rest hstream.symm
    · exact ⟨fun h => (nomatch h), fun h => (nomatch h)⟩

end Stepwise
end Protocol
end Zsync
