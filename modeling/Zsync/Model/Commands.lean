import Mathlib.Logic.Function.Basic
import Zsync.Model.Allowlist

/-! # `zsyncd.rs`: admin commands at the same time

Every command is a process of its own: it loads `groups.json`, writes the temporary file, which has the same
name for all of them, and renames it. Nothing keeps two commands from doing so at the same time. A rename that
finds no temporary file fails, and so may any other access to the files.

* `GroupFiles.step` : one access of one process.
* `replay` : the commands one after the other.
-/

namespace Zsync
set_option autoImplicit false
set_option maxHeartbeats 250000

deriving instance DecidableEq for AdminCommand

/-- `base` is what the process has loaded, and `file` what it saves. -/
inductive CommandPoint
  /-- Writing the temporary file is next. -/
  | writing (base file : GroupsFile)
  | renaming (base file : GroupsFile)
  /-- The process is over and has reported whether it succeeded. -/
  | reported (ok : Bool)
  deriving DecidableEq, Repr

structure Running where
  command : AdminCommand
  point : CommandPoint
  deriving DecidableEq

/-- `groups.json`, `groups.json.tmp`, and the processes. -/
structure GroupFiles where
  groups : Option OnDisk
  tmp : Option OnDisk
  running : ℕ → Option Running

inductive CommandEvent
  /-- A process starts and loads the file. -/
  | load (i : ℕ) (c : AdminCommand)
  | write (i : ℕ) (mtime : ℕ)
  /-- The temporary file cannot be written, or not to its end. -/
  | failWrite (i : ℕ) (left : Option OnDisk)
  | rename (i : ℕ)
  | failRename (i : ℕ)

def CommandEvent.process : CommandEvent → ℕ
  | .load i _ | .write i _ | .failWrite i _ | .rename i | .failRename i => i

namespace GroupFiles

def put (i : ℕ) (r : Running) (s : GroupFiles) : GroupFiles :=
  { s with running := Function.update s.running i (some r) }

variable [Sha256] [Base64]

/-- Loading, and what the command makes of the file. -/
def load (i : ℕ) (c : AdminCommand) (s : GroupFiles) : GroupFiles :=
  let base := loadGroups s.groups
  match c.run base with
  | .ok file => s.put i ⟨c, .writing base file⟩
  | .error _ => s.put i ⟨c, .reported false⟩

omit [Sha256] [Base64] in
/-- `fs::rename` takes whatever is there under the temporary name. -/
def rename (i : ℕ) (c : AdminCommand) (s : GroupFiles) : GroupFiles :=
  match s.tmp with
  | some d => { s.put i ⟨c, .reported true⟩ with groups := some d, tmp := none }
  | none => s.put i ⟨c, .reported false⟩

def step (s : GroupFiles) : CommandEvent → Option GroupFiles
  | .load i c => if (s.running i).isNone then some (s.load i c) else none
  | .write i mtime =>
    match s.running i with
    | some ⟨c, .writing base file⟩ =>
      some { s.put i ⟨c, .renaming base file⟩ with tmp := saveGroups mtime file }
    | _ => none
  | .failWrite i left =>
    match s.running i with
    | some ⟨c, .writing _ _⟩ => some { s.put i ⟨c, .reported false⟩ with tmp := left }
    | _ => none
  | .rename i =>
    match s.running i with
    | some ⟨c, .renaming _ _⟩ => some (s.rename i c)
    | _ => none
  | .failRename i =>
    match s.running i with
    | some ⟨c, .renaming _ _⟩ => some (s.put i ⟨c, .reported false⟩)
    | _ => none

end GroupFiles

/-- The commands, one after the other, or the first error. -/
def replay [Sha256] [Base64] (file : GroupsFile) (cs : List AdminCommand) : Except String GroupsFile :=
  cs.foldlM AdminCommand.run file

end Zsync
