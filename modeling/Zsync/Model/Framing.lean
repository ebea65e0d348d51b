import Zsync.Foundations.Streams
import Zsync.Model.Protocol

/-! # Frames of the LAN and of the relay, and the loops that read them

`protocol.rs` and `relay.rs` have the same frame under different magic numbers and types: ten bytes of
header, the last four of which are the length of the payload. The three session loops wait for the
next frame and for three other branches. Of what a loop does with a frame only the question whether
the loop goes on is kept: it may depend on how writing an answer, applying a clip, opening an envelope
or asking for the group turns out.
-/

namespace Zsync
set_option autoImplicit false
set_option maxHeartbeats 250000
open Protocol Foundations

/-! ## Headers -/

def be32 (n : ℕ) : Bytes :=
  [UInt8.ofNat (n / 2 ^ 24), UInt8.ofNat (n / 2 ^ 16), UInt8.ofNat (n / 2 ^ 8), UInt8.ofNat n]

def fromBe (bytes : Bytes) : ℕ := bytes.foldl (fun n b => n * 256 + b.toNat) 0

theorem fromBe_be32 {n : ℕ} (h : n < 2 ^ 32) : fromBe (be32 n) = n := by
  simp only [fromBe, be32, List.foldl_cons, List.foldl_nil, UInt8.toNat_ofNat']
  omega

/-- The checks of `read_frame` on its header, in the order of the source. -/
def readHeader {τ : Type} (magic : Bytes) (version : UInt8)
    (fromU8 : UInt8 → Except ProtoError τ) (hdr : Bytes) : Except ProtoError (τ × ℕ) := do
  if hdr.take 4 ≠ magic then .error .badMagic
  else if hdr.getD 4 0 ≠ version then .error (.badVersion (hdr.getD 4 0))
  else
    let typ ← fromU8 (hdr.getD 5 0)
    let n := fromBe (hdr.drop 6)
    if maxFrame < n then .error .tooLarge else .ok (typ, n)

def headerBytes (magic : Bytes) (version typ : UInt8) (n : ℕ) : Bytes :=
  magic ++ [version, typ] ++ be32 n

theorem readHeader_headerBytes {τ : Type} {magic : Bytes} {version typ : UInt8}
    {fromU8 : UInt8 → Except ProtoError τ} {t : τ} {n : ℕ} (hm : magic.length = 4)
    (ht : fromU8 typ = .ok t) (hn : n ≤ maxFrame) :
    readHeader magic version fromU8 (headerBytes magic version typ n) = .ok (t, n) := by
  have hmax : maxFrame < 2 ^ 32 := by decide
  obtain ⟨a, b, c, d, rfl⟩ : ∃ a b c d, magic = [a, b, c, d] := by
    match magic, hm with
    | [a, b, c, d], _ => exact ⟨a, b, c, d, rfl⟩
  have hlen : fromBe ((headerBytes [a, b, c, d] version typ n).drop 6) = n :=
    fromBe_be32 (Nat.lt_of_le_of_lt hn hmax)
  have hmagic : (headerBytes [a, b, c, d] version typ n).take 4 = [a, b, c, d] := rfl
  have hversion : (headerBytes [a, b, c, d] version typ n).getD 4 0 = version := rfl
  have htyp : (headerBytes [a, b, c, d] version typ n).getD 5 0 = typ := rfl
  unfold readHeader
  rw [if_neg (not_not.mpr hmagic), if_neg (not_not.mpr hversion), htyp, ht, hlen]
  exact if_neg (Nat.not_lt.mpr hn)

/-! ## `protocol.rs` -/

namespace Protocol

def lanCodec : Codec UInt8 FrameType ProtoError where
  headerLen := 10
  pos := by decide
  parse := readHeader magic version FrameType.fromU8

def encodeFrame (typ : FrameType) (payload : Bytes) : Except ProtoError Bytes :=
  if maxFrame < payload.length then .error .tooLarge
  else .ok (headerBytes magic version typ.toU8 payload.length ++ payload)

def decodeFrame (buf : Bytes) : Except ProtoError (FrameType × Bytes) :=
  if buf.length < 10 then .error .io
  else do
    let (typ, n) ← readHeader magic version FrameType.fromU8 (buf.take 10)
    if buf.length < 10 + n then .error .io else .ok (typ, (buf.drop 10).take n)

/-- `read_frame` on the bytes that are still to come. -/
def readFrame : Bytes → Except ProtoError ((FrameType × Bytes) × Bytes) := lanCodec.read .io

/-- `read_frame` again and again until it fails. -/
def readFrames : Bytes → List (FrameType × Bytes) × ProtoError := lanCodec.readAll .io

end Protocol

/-! ## `relay.rs` -/

namespace Relay

def magic : Bytes := [0x5A, 0x53, 0x59, 0x52]
def version : UInt8 := 1

inductive FrameType
  | join | joinAck | data | ping | pong | error | bye
  deriving DecidableEq, Repr

def FrameType.toU8 : FrameType → UInt8
  | .join => 1
  | .joinAck => 2
  | .data => 3
  | .ping => 4
  | .pong => 5
  | .error => 7
  | .bye => 8

def FrameType.fromU8 (v : UInt8) : Except ProtoError FrameType :=
  match v with
  | 1 => .ok .join
  | 2 => .ok .joinAck
  | 3 => .ok .data
  | 4 => .ok .ping
  | 5 => .ok .pong
  | 7 => .ok .error
  | 8 => .ok .bye
  | other => .error (.unknownType other)

theorem FrameType.fromU8_toU8 (t : FrameType) : FrameType.fromU8 t.toU8 = .ok t := by
  cases t <;> rfl

def relayCodec : Codec UInt8 FrameType ProtoError where
  headerLen := 10
  pos := by decide
  parse := readHeader magic version FrameType.fromU8

/-- The bytes that `write_frame` writes. -/
def frameBytes (typ : FrameType) (payload : Bytes) : Except ProtoError Bytes :=
  if maxFrame < payload.length then .error .tooLarge
  else .ok (headerBytes magic version typ.toU8 payload.length ++ payload)

def readFrame : Bytes → Except ProtoError ((FrameType × Bytes) × Bytes) := relayCodec.read .io

def readFrames : Bytes → List (FrameType × Bytes) × ProtoError := relayCodec.readAll .io

end Relay

/-- What is written is a frame that can be read. -/
theorem encodeFrame_frame {typ : FrameType} {payload bytes : Bytes}
    (h : encodeFrame typ payload = .ok bytes) :
    ∃ f : Frame lanCodec, f.content = (typ, payload) ∧ f.symbols = bytes := by
  unfold encodeFrame at h
  split_ifs at h with hn
  obtain rfl := Except.ok.inj h
  exact ⟨⟨typ, payload, _, rfl,
    readHeader_headerBytes rfl typ.fromU8_toU8 (Nat.not_lt.mp hn)⟩, rfl, rfl⟩

theorem frameBytes_frame {typ : Relay.FrameType} {payload bytes : Bytes}
    (h : Relay.frameBytes typ payload = .ok bytes) :
    ∃ f : Frame Relay.relayCodec, f.content = (typ, payload) ∧ f.symbols = bytes := by
  unfold Relay.frameBytes at h
  split_ifs at h with hn
  obtain rfl := Except.ok.inj h
  exact ⟨⟨typ, payload, _, rfl,
    readHeader_headerBytes rfl typ.fromU8_toU8 (Nat.not_lt.mp hn)⟩, rfl, rfl⟩

/-! ## The loops -/

/-- The branches of `select!` beside the reader. -/
inductive Branch
  /-- The stop channel changed. -/
  | stop
  | ping
  /-- A clip or payload is to be sent. -/
  | outbound
  deriving DecidableEq, Repr

def framedLoop : LoopState UInt8 FrameType → LoopEvent Branch → Option (LoopState UInt8 FrameType) :=
  LoopState.step lanCodec fun typ ok =>
    match typ with
    | .clip | .ping | .hello => ok
    | .pong | .clipAck | .helloAck => true
    | .bye | .error => false

def runRelaySession :
    LoopState UInt8 Relay.FrameType → LoopEvent Branch → Option (LoopState UInt8 Relay.FrameType) :=
  LoopState.step Relay.relayCodec fun typ ok =>
    match typ with
    | .data | .ping => ok
    | .pong | .joinAck | .join => true
    | .bye | .error => false

/-- Handling `Data` fails when the group is disabled. -/
def serveLeaf :
    LoopState UInt8 Relay.FrameType → LoopEvent Branch → Option (LoopState UInt8 Relay.FrameType) :=
  LoopState.step Relay.relayCodec fun typ ok =>
    match typ with
    | .data | .ping => ok
    | .pong | .join | .joinAck => true
    | .bye | .error => false

end Zsync
