import Zsync.Model.Framing

/-! # Streams of frames delimit themselves

What several calls of `write_frame` put on a connection is read back by as many calls of `read_frame`,
and a connection that ends early yields the frames that came through whole. The LAN and the relay have
codecs of their own, and neither reads the stream of the other.

* `frames_of_stream` : the bytes written are the symbols of well-formed frames.
* `Delimited` : reading a stream, and every part of it from the front.
-/

namespace Zsync
set_option autoImplicit false
set_option maxHeartbeats 250000
open Protocol Foundations

/-- What the calls `write typ payload` put on a connection, in order. -/
def writeFrames {τ : Type} (write : τ → Bytes → Except ProtoError Bytes) :
    List (τ × Bytes) → Except ProtoError Bytes
  | [] => .ok []
  | (typ, payload) :: ps => do
    let bytes ← write typ payload
    let rest ← writeFrames write ps
    .ok (bytes ++ rest)

/-- The length of a frame on the wire. -/
def wireSize {τ : Type} (p : τ × Bytes) : ℕ := 10 + p.2.length

/-- The stream of `ps` is read back, whole or cut at `k`; in both cases the end of the stream is the
error that ends the reading. -/
def Delimited {τ : Type} (write : τ → Bytes → Except ProtoError Bytes)
    (readAll : Bytes → List (τ × Bytes) × ProtoError) (ps : List (τ × Bytes)) : Prop :=
  ∃ stream, writeFrames write ps = .ok stream ∧ readAll stream = (ps, .io) ∧
    ∀ k, readAll (stream.take k) = (wholeBefore wireSize k ps, .io)

section Stream
variable {τ : Type} {c : Codec UInt8 τ ProtoError}
  {write : τ → Bytes → Except ProtoError Bytes}

/-- Each call that the size check lets pass writes one frame. -/
def Writes (c : Codec UInt8 τ ProtoError) (write : τ → Bytes → Except ProtoError Bytes) : Prop :=
  ∀ typ payload, payload.length ≤ maxFrame →
    ∃ f : Frame c, write typ payload = .ok f.symbols ∧ f.content = (typ, payload)

theorem frames_of_stream (hw : Writes c write) {ps : List (τ × Bytes)}
    (hp : ∀ p ∈ ps, p.2.length ≤ maxFrame) :
    ∃ fs : List (Frame c), fs.map Frame.content = ps ∧
      writeFrames write ps = .ok (fs.flatMap Frame.symbols) := by
  induction ps with
  | nil => exact ⟨[], rfl, rfl⟩
  | cons p ps ih =>
    obtain ⟨fs, hfs, hrest⟩ := ih fun q hq => hp q (List.mem_cons_of_mem p hq)
    obtain ⟨f, hf, hcontent⟩ := hw p.1 p.2 (hp p List.mem_cons_self)
    refine ⟨f :: fs, ?_, ?_⟩
    · rw [List.map_cons, hfs, hcontent]
    · rw [writeFrames, hf, hrest]
      rfl

theorem symbols_length (hc : c.headerLen = 10) (f : Frame c) :
    f.symbols.length = wireSize f.content := by
  rw [Frame.symbols, List.length_append, f.length_head, hc]
  rfl

theorem delimited_of_writes (hc : c.headerLen = 10) (hw : Writes c write) {ps : List (τ × Bytes)}
    (hp : ∀ p ∈ ps, p.2.length ≤ maxFrame) : Delimited write (c.readAll .io) ps := by
  obtain ⟨fs, rfl, hstream⟩ := frames_of_stream hw hp
  refine ⟨_, hstream, c.readAll_symbols .io fs, fun k => ?_⟩
  rw [c.readAll_take .io fs k, wholeBefore_map]
  simp only [symbols_length hc]

end Stream

theorem writes_lan : Writes lanCodec encodeFrame := by
  intro typ payload hp
  have hok : encodeFrame typ payload = .ok _ := if_neg (Nat.not_lt.mpr hp)
  obtain ⟨f, hf, hbytes⟩ := encodeFrame_frame hok
  exact ⟨f, hok.trans (congrArg _ hbytes.symm), hf⟩

theorem writes_relay : Writes Relay.relayCodec Relay.frameBytes := by
  intro typ payload hp
  have hok : Relay.frameBytes typ payload = .ok _ := if_neg (Nat.not_lt.mpr hp)
  obtain ⟨f, hf, hbytes⟩ := frameBytes_frame hok
  exact ⟨f, hok.trans (congrArg _ hbytes.symm), hf⟩

/-! ## The other protocol's stream -/

/-- A header is rejected for its magic number before anything else in it is looked at. -/
theorem readHeader_foreign {τ : Type} (fromU8 : UInt8 → Except ProtoError τ) (version v typ : UInt8)
    (n : ℕ) {magic other : Bytes} (hlen : other.length = 4) (hne : other ≠ magic) :
    readHeader magic version fromU8 (headerBytes other v typ n) = .error .badMagic := by
  have htake : (headerBytes other v typ n).take 4 = other := by
    rw [headerBytes, List.append_assoc, ← hlen, List.take_left]
  unfold readHeader
  rw [htake, if_pos hne]

theorem headerBytes_length {magic : Bytes} (h : magic.length = 4) (version typ : UInt8) (n : ℕ) :
    (headerBytes magic version typ n).length = 10 := by
  rw [headerBytes, List.length_append, List.length_append, h]
  rfl

/-- What `write` writes begins with a header whose magic number `c` does not know. -/
def Foreign {τ ρ : Type} (c : Codec UInt8 ρ ProtoError)
    (write : τ → Bytes → Except ProtoError Bytes) : Prop :=
  ∀ typ payload bytes, write typ payload = .ok bytes →
    ∃ head rest, bytes = head ++ rest ∧ head.length = c.headerLen ∧ c.parse head = .error .badMagic

theorem read_foreign {τ ρ : Type} {c : Codec UInt8 ρ ProtoError}
    {write : τ → Bytes → Except ProtoError Bytes} (hf : Foreign c write) {ps : List (τ × Bytes)}
    {stream : Bytes} (hne : ps ≠ []) (h : writeFrames write ps = .ok stream) :
    c.read .io stream = .error .badMagic := by
  cases ps with
  | nil => exact absurd rfl hne
  | cons p ps =>
    rw [writeFrames] at h
    cases hfirst : write p.1 p.2 with
    | error e =>
      rw [hfirst] at h
      cases h
    | ok bytes =>
      cases hrest : writeFrames write ps with
      | error e =>
        rw [hfirst, hrest] at h
        cases h
      | ok after =>
        rw [hfirst, hrest] at h
        obtain rfl := Except.ok.inj h
        obtain ⟨head, rest, rfl, hlen, hparse⟩ := hf _ _ _ hfirst
        rw [List.append_assoc, c.read_payload .io hlen, hparse]
        rfl

theorem foreign_lan : Foreign Relay.relayCodec encodeFrame := by
  intro typ payload bytes h
  unfold encodeFrame at h
  split_ifs at h
  obtain rfl := Except.ok.inj h
  refine ⟨_, _, rfl, headerBytes_length rfl _ _ _, ?_⟩
  have hne : magic ≠ Relay.magic := by decide
  exact readHeader_foreign Relay.FrameType.fromU8 Relay.version version typ.toU8 payload.length rfl hne

theorem foreign_relay : Foreign lanCodec Relay.frameBytes := by
  intro typ payload bytes h
  unfold Relay.frameBytes at h
  split_ifs at h
  obtain rfl := Except.ok.inj h
  refine ⟨_, _, rfl, headerBytes_length rfl _ _ _, ?_⟩
  have hne : Relay.magic ≠ magic := by decide
  exact readHeader_foreign FrameType.fromU8 version Relay.version typ.toU8 payload.length rfl hne

/-! ## The result -/

/-- `ps` goes over a LAN connection and `qs` over a relay connection. -/
theorem streams_delimited (ps : List (FrameType × Bytes)) (qs : List (Relay.FrameType × Bytes))
    (hp : ∀ p ∈ ps, p.2.length ≤ maxFrame) (hq : ∀ q ∈ qs, q.2.length ≤ maxFrame) :
    Delimited encodeFrame readFrames ps ∧ Delimited Relay.frameBytes Relay.readFrames qs ∧
      (∀ stream, ps ≠ [] → writeFrames encodeFrame ps = .ok stream →
        Relay.readFrame stream = .error .badMagic) ∧
      ∀ stream, qs ≠ [] → writeFrames Relay.frameBytes qs = .ok stream →
        readFrame stream = .error .badMagic :=
  ⟨delimited_of_writes rfl writes_lan hp, delimited_of_writes rfl writes_relay hq,
    fun _ hne h => read_foreign foreign_lan hne h, fun _ hne h => read_foreign foreign_relay hne h⟩

/-- A ping whose payload is itself the frame of `Bye`, cut two bytes before its end. -/
theorem ping_bye_delimited :
    readFrames ((headerBytes magic version 7 1 ++ [0]) ++
        (headerBytes magic version 3 10 ++ (headerBytes magic version 8 0).take 8)) =
      ([(.error, [0])], .io) := by
  obtain ⟨⟨stream, hw, -, hcut⟩, -⟩ :=
    streams_delimited [(.error, [0]), (.ping, headerBytes magic version 8 0)] [(.bye, [])]
      (by decide) (by decide)
  obtain rfl := Except.ok.inj hw
  exact hcut 29

end Zsync
