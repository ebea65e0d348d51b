import Mathlib.Logic.Function.Basic
import Zsync.Foundations.Runs
import Zsync.Model.Group

/-! # `tlsutil.rs`: pinned certificates, and the sessions that pin them

A session with a relay looks up the pin of the hub's address, makes the handshake, and saves the
fingerprint that it saw when there was no pin: it reads all of `hub-pins.json`, and writes all of it with
one entry more. Other sessions take their steps in between.

* `loadPin`, `TofuVerifier.verify`, `PinFile.toSave` and `addPin` are the four parts.
* `Pins.step` : one step of one of the sessions. What the system answers is part of the event.
-/

namespace Zsync
set_option autoImplicit false
set_option maxHeartbeats 250000
open Protocol

/-- What `hub-pins.json` holds: nothing that is there, text that is no map, or a map. -/
inductive PinFile
  | missing
  | malformed (error : String)
  | pins (map : String → Option String)

/-- How the system answers `Path::exists` and `fs::read` on a file that is there. -/
inductive Sight
  | found
  /-- `Path::exists` fails, which it reports as `false`. -/
  | hidden
  | unreadable (error : String)

def certFingerprint [Sha256] (der : Bytes) : Bytes := (Sha256.digest der).toList

/-! ## Reading and writing pins -/

def parsePin (hub hex : String) : Except String Bytes :=
  match hex.toList.mapM hexValue with
  | some digits =>
    if digits.length = 64 then .ok (Group.pairs digits) else .error ("corrupt pin for " ++ hub)
  | none => .error ("corrupt pin for " ++ hub)

def loadPin (sight : Sight) (hub : String) : PinFile → Except String (Option Bytes)
  | .missing => .ok none
  | .malformed e =>
    match sight with
    | .found => .error e
    | .hidden => .ok none
    | .unreadable e => .error e
  | .pins map =>
    match sight with
    | .found =>
      match map hub with
      | none => .ok none
      | some hex => (parsePin hub hex).map some
    | .hidden => .ok none
    | .unreadable e => .error e

/-- The map that `save_pin` starts from: an empty one when the file cannot be read or is no map. -/
def PinFile.toSave (sight : Sight) (file : PinFile) : String → Option String :=
  match sight, file with
  | .found, .pins map => map
  | _, _ => fun _ => none

def addPin (hub : String) (pin : Bytes) (map : String → Option String) : String → Option String :=
  Function.update map hub (some (hexEncode pin))

/-! ## The handshake -/

structure TofuVerifier where
  expected : Option Bytes
  observed : Option Bytes

/-- `verify_server_cert`. -/
def TofuVerifier.verify [Sha256] (der : Bytes) (v : TofuVerifier) : Except String Unit × TofuVerifier :=
  let got := certFingerprint der
  let res := match v.expected with
    | some want => if want ≠ got then .error "ApplicationVerificationFailure" else .ok ()
    | none => .ok ()
  (res, { v with observed := some got })

/-! ## Sessions -/

inductive RelayStage
  /-- The handshake is next. -/
  | loaded
  /-- There was no pin: `save_pin` reads the file next. -/
  | unpinned (got : Bytes)
  /-- `save_pin` writes the file next. -/
  | saving (got : Bytes) (map : String → Option String)
  | joined
  | ended (error : String)

structure RelaySession where
  hub : String
  verifier : TofuVerifier
  stage : RelayStage
  /-- The pins that had been saved when it started. -/
  before : List (String × Bytes)

structure Pins where
  file : PinFile
  sessions : ℕ → Option RelaySession
  /-- The pins that were written to the file. -/
  saved : List (String × Bytes)

inductive Writing
  | done
  | refused (error : String)
  /-- The file was emptied, and the text got there in part. -/
  | torn (error : String)

inductive PinEvent
  | start (i : ℕ) (hub : String) (sight : Sight)
  | handshake (i : ℕ) (der : Bytes)
  | read (i : ℕ) (sight : Sight)
  | write (i : ℕ) (writing : Writing)

namespace Pins

/-- A leaf that never had a session. -/
def fresh : Pins := ⟨.missing, fun _ => none, []⟩

def put (i : ℕ) (session : RelaySession) (s : Pins) : Pins :=
  { s with sessions := Function.update s.sessions i (some session) }

variable [Sha256]

/-- What the handshake leaves: an error ends the session, and without a pin the fingerprint is saved. -/
def shaken (session : RelaySession) (der : Bytes) : RelaySession :=
  match session.verifier.verify der with
  | (.error e, v) => { session with verifier := v, stage := .ended e }
  | (.ok (), v) =>
    let stage := match v.expected, v.observed with
      | none, some got => .unpinned got
      | _, _ => .joined
    { session with verifier := v, stage := stage }

def step (s : Pins) : PinEvent → Option Pins
  | .start i hub sight =>
    match s.sessions i with
    | some _ => none
    | none =>
      match loadPin sight hub s.file with
      | .error e => some (s.put i ⟨hub, ⟨none, none⟩, .ended e, s.saved⟩)
      | .ok pin => some (s.put i ⟨hub, ⟨pin, none⟩, .loaded, s.saved⟩)
  | .handshake i der => do
    let session ← s.sessions i
    match session.stage with
    | .loaded => some (s.put i (shaken session der))
    | _ => none
  | .read i sight => do
    let session ← s.sessions i
    match session.stage with
    | .unpinned got => some (s.put i { session with stage := .saving got (s.file.toSave sight) })
    | _ => none
  | .write i writing => do
    let session ← s.sessions i
    match session.stage with
    | .saving got map =>
      match writing with
      | .done =>
        some { s.put i { session with stage := .joined } with
          file := .pins (addPin session.hub got map)
          saved := s.saved ++ [(session.hub, got)] }
      | .refused e => some (s.put i { session with stage := .ended e })
      | .torn e =>
        some { s.put i { session with stage := .ended e } with file := .malformed e }
    | _ => none

end Pins
end Zsync
