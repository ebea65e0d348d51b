import Mathlib.Logic.Function.Basic
import Zsync.Model.Protocol

/-! # `tlsutil.rs`: the certificate of a relay

`load_or_create_server` makes a key pair when one of the two files is missing, and then reads both. `run_server` calls
it before it binds the port, so that nothing keeps two of them apart. `std::fs::write` truncates the file before it
fills it.

* `Pem` : what is made of the bytes of the two files.
* `Stage` : how far a process has come. `Stage.perform` is its next step.
* `World.step` : a process appears, takes a step, or ends, at whatever point it is.

The mode of the key file is left out, as no step depends on it.
-/

namespace Zsync
namespace ServerCert
set_option autoImplicit false
set_option maxHeartbeats 250000

/-! ## Files -/

/-- `rustls_pemfile`, and whether rustls takes a key for a chain. -/
structure Pem where
  certs : Bytes → Option (List Bytes)
  key : Bytes → Option Bytes
  accepts : List Bytes → Bytes → Bool

/-- What `load_certs` and `load_key` find in two files, as far as it is accepted. -/
def Pem.load (pem : Pem) (cert key : Bytes) : Option (List Bytes × Bytes) :=
  (pem.certs cert).bind fun chain => ((pem.key key).filter fun k => pem.accepts chain k).map fun k => (chain, k)

structure Files where
  cert : Option Bytes
  key : Option Bytes
  deriving DecidableEq, Repr

/-- A write from the start of a file over what is there. -/
def fill (data old : Bytes) : Bytes := data ++ old.drop data.length

/-! ## Processes -/

inductive Stage
  /-- `cert_path.exists()` -/
  | lookCert
  | lookKey
  | generate
  | openCert (cert key : Bytes)
  | fillCert (cert key : Bytes)
  | openKey (key : Bytes)
  | fillKey (key : Bytes)
  | readCert
  | readKey (chain : List Bytes)
  | serving (chain : List Bytes) (key : Bytes)
  deriving DecidableEq, Repr

/-- The answer to a step. -/
inductive Outcome
  | done
  | refused
  /-- `generate_simple_self_signed`, as PEM. -/
  | made (cert key : Bytes)
  /-- A write that stopped after some bytes. -/
  | torn (n : ℕ)
  deriving DecidableEq, Repr

/-- The files after a step, and where the process goes on, if it does. `exists` takes a failure for absence. -/
def Stage.perform (pem : Pem) (f : Files) : Stage → Outcome → Option (Files × Option Stage)
  | .lookCert, .done => some (f, some (if f.cert.isSome then .lookKey else .generate))
  | .lookCert, .refused => some (f, some .generate)
  | .lookKey, .done => some (f, some (if f.key.isSome then .readCert else .generate))
  | .lookKey, .refused => some (f, some .generate)
  | .generate, .made cert key => if (pem.load cert key).isSome then some (f, some (.openCert cert key)) else none
  | .generate, .refused => some (f, none)
  | .openCert cert key, .done => some ({ f with cert := some [] }, some (.fillCert cert key))
  | .openCert _ _, .refused => some (f, none)
  | .fillCert cert key, .done => some ({ f with cert := f.cert.map (fill cert) }, some (.openKey key))
  | .fillCert cert _, .torn n => some ({ f with cert := f.cert.map (fill (cert.take n)) }, none)
  | .openKey key, .done => some ({ f with key := some [] }, some (.fillKey key))
  | .openKey _, .refused => some (f, none)
  | .fillKey key, .done => some ({ f with key := f.key.map (fill key) }, some .readCert)
  | .fillKey key, .torn n => some ({ f with key := f.key.map (fill (key.take n)) }, none)
  | .readCert, .done => some (f, (f.cert.bind pem.certs).map .readKey)
  | .readCert, .refused => some (f, none)
  | .readKey chain, .done =>
    some (f, ((f.key.bind pem.key).filter fun k => pem.accepts chain k).map (.serving chain))
  | .readKey _, .refused => some (f, none)
  | _, _ => none

/-! ## Steps -/

/-- Processes are numbered as they appear. -/
structure World where
  files : Files
  procs : ℕ → Option Stage
  next : ℕ

inductive Event
  | arrive
  | op (i : ℕ) (out : Outcome)
  /-- The process is killed, stops, or finds the port taken. -/
  | gone (i : ℕ)
  deriving DecidableEq, Repr

namespace World

def put (w : World) (i : ℕ) (outcome : Files × Option Stage) : World :=
  { w with files := outcome.1, procs := Function.update w.procs i outcome.2 }

def step (pem : Pem) (w : World) : Event → Option World
  | .arrive => some { w with procs := Function.update w.procs w.next (some .lookCert), next := w.next + 1 }
  | .op i out => (w.procs i).bind fun stage => (stage.perform pem w.files out).map (w.put i)
  | .gone i => (w.procs i).map fun _ => w.put i (w.files, none)

/-- A machine on which no relay was ever started. -/
def fresh : World := ⟨⟨none, none⟩, fun _ => none, 0⟩

end World
end ServerCert
end Zsync
