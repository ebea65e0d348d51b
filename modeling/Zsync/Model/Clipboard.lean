import Zsync.Model.Protocol
import Zsync.Foundations.FilePrograms

/-! # `clipboard/mod.rs`: items and backends

A backend is a state type with the two operations of the trait `Backend` that the hub calls. `get`
only looks; `set` may change the state also when it fails.
-/

namespace Zsync
set_option autoImplicit false
set_option maxHeartbeats 250000
open Protocol Foundations.Files

structure Item where
  mime : String
  data : Bytes
  hash : String
  path : String
  /-- Basename of a copied file; empty for ordinary text / screenshots. -/
  name : String
  deriving DecidableEq, Repr

def Item.new [Sha256] (mime : String) (data : Bytes) : Item where
  mime := if mime = "" then detectMime data else mime
  data := data
  hash := Protocol.hash data
  path := ""
  name := ""

inductive BackendError
  | payloadTooLarge
  | io (e : IoError)
  deriving DecidableEq, Repr

structure Backend (σ : Type) where
  get : σ → Except BackendError (Option Item)
  set : Item → σ → Except BackendError Item × σ

/-! ## `Memory` -/

def memory [Sha256] : Backend (Option Item) where
  get := fun s => .ok s
  set := fun item _ =>
    let stored := { item with hash := if item.hash = "" then Protocol.hash item.data else item.hash }
    (.ok stored, some stored)

/-! ## `Native` -/

/-- The clipboard of the operating system: `getter` and `setter` of `Native`. -/
structure Os (ω : Type) where
  getter : ω → Except BackendError (Option Item)
  setter : Item → ω → Except BackendError Unit × ω

/-- `Native` mirrors what it sets in `file`; reading looks at the operating system first. -/
def native {σ ω : Type} (file : Backend σ) (os : Os ω) : Backend (σ × ω) where
  get := fun s =>
    match os.getter s.2 with
    | .error e => .error e
    | .ok item =>
      let mirror := match file.get s.1 with
        | .ok stored => stored
        | .error _ => none
      match item, mirror with
      | some os, some stored =>
        if os.hash = stored.hash then
          .ok (some { os with
            name := if os.name = "" then stored.name else os.name
            mime := if startsWith os.mime "text/" && !startsWith stored.mime "text/" then stored.mime
              else os.mime })
        else if os.data = [] then .ok none
        else .ok (some os)
      | none, some stored => .ok (some stored)
      | some os, none => if os.data = [] then .ok none else .ok (some os)
      | none, none => .ok none
  set := fun item s =>
    match file.set item s.1 with
    | (.error e, file) => (.error e, (file, s.2))
    | (.ok stored, file) =>
      match os.setter stored s.2 with
      | (.error e, os) => (.error e, (file, os))
      | (.ok (), os) => (.ok stored, (file, os))

end Zsync
