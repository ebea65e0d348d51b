import Zsync.Model.Config
import Zsync.Foundations.Runs

/-! # `config.rs`: saving the state, one file operation at a time

A call of `StateFile` changes the memory under its lock, writes the temporary file, renames it over
`state.json` and returns. The process may die between any two of these steps, and is started again by
`StateFile::open`. What a file holds is a `State`, or nothing that can be read. Renaming is atomic and
a completed write stays, so a crash loses the memory and nothing else.

* `run_saved`, `run_unwritten` and `run_unrenamed` : the steps of a whole call come to what the
  operation of `StateFile` does at once.
-/

namespace Zsync
set_option autoImplicit false
set_option maxHeartbeats 250000
open Foundations

/-- The calls that save. -/
inductive StateCall
  | nextSeq
  | upsertPeer (uri : String) (enabled : Bool)
  | removePeer (uri : Option String)
  deriving DecidableEq, Repr

namespace StateCall

/-- The call as one step; `next_seq` returns its number. -/
def run (saves : Bool) (f : StateFile) : StateCall → Option ℕ × StateFile
  | .nextSeq => f.nextSeq saves
  | .upsertPeer uri enabled => (none, (f.upsertPeer saves uri enabled).2)
  | .removePeer uri => (none, (f.removePeer saves uri).2)

/-- What the call does to the memory before it saves. -/
def change (s : State) : StateCall → State
  | .nextSeq => { s with seq := (s.seq + 1) % 2 ^ 64 }
  | .upsertPeer uri enabled => { s with peers := StateFile.upsert uri enabled s.peers }
  | .removePeer (some uri) => { s with peers := s.peers.filter fun p => p.uri ≠ uri }
  | .removePeer none => { s with peers := [] }

/-- What a call returns that has saved the state `s`. -/
def value (s : State) : StateCall → Option ℕ
  | .nextSeq => some s.seq
  | .upsertPeer _ _ | .removePeer _ => none

theorem run_eq (saves : Bool) (f : StateFile) (c : StateCall) :
    c.run saves f = (if saves then c.value (c.change f.inner) else none,
      StateFile.save saves { f with inner := c.change f.inner }) := by
  cases c with
  | nextSeq => rfl
  | upsertPeer uri enabled => cases saves <;> rfl
  | removePeer uri => cases uri <;> cases saves <;> rfl

end StateCall

/-! ## Calls, crashes and restarts -/

/-- The file operation that comes next in a call. -/
inductive Stage
  | write
  | rename
  | ret
  deriving DecidableEq, Repr

structure StateProcess where
  inner : State
  /-- The call that holds the lock. -/
  busy : Option (StateCall × Stage)
  deriving DecidableEq, Repr

/-- `state.json`, `state.json.tmp`, the process if there is one, and what `next_seq` has returned. -/
structure Saving where
  disk : Option State
  tmp : Option State
  process : Option StateProcess
  returned : List ℕ
  deriving DecidableEq, Repr

inductive SaveEvent
  | reopen
  | call (c : StateCall)
  /-- Writing the temporary file; a failed write leaves nothing that can be read. -/
  | write (ok : Bool)
  | rename (ok : Bool)
  | ret
  /-- A write under way may be `torn`. -/
  | crash (torn : Bool)
  deriving DecidableEq, Repr

namespace Saving

/-- `State::default()` stands in for a file that cannot be read. -/
def readable (disk : Option State) : State := disk.getD ⟨0, []⟩

def start (disk tmp : Option State) : Saving := ⟨disk, tmp, none, []⟩

def step (s : Saving) : SaveEvent → Option Saving
  | .reopen =>
    match s.process with
    | none => some { s with process := some ⟨readable s.disk, none⟩ }
    | some _ => none
  | .call c =>
    match s.process with
    | some ⟨inner, none⟩ => some { s with process := some ⟨c.change inner, some (c, .write)⟩ }
    | _ => none
  | .write ok =>
    match s.process with
    | some ⟨inner, some (c, .write)⟩ =>
      if ok then some { s with tmp := some inner, process := some ⟨inner, some (c, .rename)⟩ }
      else some { s with tmp := none, process := some ⟨inner, none⟩ }
    | _ => none
  | .rename ok =>
    match s.process with
    | some ⟨inner, some (c, .rename)⟩ =>
      if ok then some { s with disk := s.tmp, tmp := none, process := some ⟨inner, some (c, .ret)⟩ }
      else some { s with process := some ⟨inner, none⟩ }
    | _ => none
  | .ret =>
    match s.process with
    | some ⟨inner, some (c, .ret)⟩ =>
      some { s with process := some ⟨inner, none⟩, returned := s.returned ++ (c.value inner).toList }
    | _ => none
  | .crash torn =>
    match s.process with
    | some _ => some { s with tmp := if torn then none else s.tmp, process := none }
    | none => none

/-! ### Whole calls -/

section Calls
variable (f : StateFile) (tmp : Option State) (returned : List ℕ) (c : StateCall)

/-- The process is idle and holds `f`. -/
def idle : Saving := ⟨some f.disk, tmp, some ⟨f.inner, none⟩, returned⟩

theorem run_saved :
    exec step (idle f tmp returned) [.call c, .write true, .rename true, .ret] =
      some (idle (c.run true f).2 none (returned ++ (c.run true f).1.toList)) := by
  rw [StateCall.run_eq]
  rfl

theorem run_unwritten :
    exec step (idle f tmp returned) [.call c, .write false] =
      some (idle (c.run false f).2 none returned) := by
  rw [StateCall.run_eq]
  rfl

theorem run_unrenamed :
    exec step (idle f tmp returned) [.call c, .write true, .rename false] =
      some (idle (c.run false f).2 (some (c.change f.inner)) returned) := by
  rw [StateCall.run_eq]
  rfl

end Calls
end Saving
end Zsync
