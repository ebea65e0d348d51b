import Zsync.Model.Commands

/-! # `zsyncd.rs`: `groups.json` as bytes

Here the file is what `fs::read` makes of it: nothing, an error, or bytes, which `serde_json` parses or not.

* `loadGroups` and `saveGroups` : the functions of the source, with every way in which they can fail.
* `AdminCommand.execute` : a command from its start to its end.
* `accesses` : the same command as a process of `GroupFiles`.
-/

namespace Zsync
set_option autoImplicit false
set_option maxHeartbeats 250000
open Protocol

/-- What is found under the name of a file. -/
inductive FoundFile
  | missing
  /-- There is something, and reading it fails. -/
  | unreadable
  | bytes (content : Bytes)
  deriving DecidableEq, Repr

/-- `groups.json` and `groups.json.tmp`. -/
structure AllowFiles where
  groups : FoundFile
  tmp : FoundFile
  deriving DecidableEq, Repr

/-- How the accesses of `save_groups` go. -/
inductive SaveFate
  /-- `groups.json.tmp` cannot be opened. -/
  | unopened
  /-- It is opened, and only so many bytes are written. -/
  | torn (n : ℕ)
  | unrenamed
  | saved
  deriving DecidableEq, Repr

inductive FileChange
  | wroteTmp (content : Bytes)
  | renamedTmp
  deriving DecidableEq, Repr

inductive CommandError
  | refused (message : String)
  | io
  deriving DecidableEq, Repr

/-- What a command returns, the files it leaves, and what it has done to them. -/
structure CommandEnd where
  res : Except CommandError Unit
  files : AllowFiles
  changes : List FileChange

section
variable [Json GroupsFile]

def FoundFile.loadGroups : FoundFile → GroupsFile
  | .bytes b => (Json.decode b).getD ⟨[]⟩
  | .missing | .unreadable => ⟨[]⟩

/-- The records of the file, if anything can tell them; no file has none. -/
def FoundFile.records : FoundFile → Option GroupsFile
  | .missing => some ⟨[]⟩
  | .unreadable => none
  | .bytes b => Json.decode b

def AllowFiles.saveGroups (fate : SaveFate) (file : GroupsFile) (d : AllowFiles) : CommandEnd :=
  let text : Bytes := Json.encode file
  match fate with
  | .unopened => ⟨.error .io, d, []⟩
  | .torn n => ⟨.error .io, { d with tmp := .bytes (text.take n) }, [.wroteTmp (text.take n)]⟩
  | .unrenamed => ⟨.error .io, { d with tmp := .bytes text }, [.wroteTmp text]⟩
  | .saved => ⟨.ok (), ⟨.bytes text, .missing⟩, [.wroteTmp text, .renamedTmp]⟩

def AdminCommand.execute [Sha256] [Base64] (fate : SaveFate) (d : AllowFiles) (c : AdminCommand) :
    CommandEnd :=
  match c.run d.groups.loadGroups with
  | .error e => ⟨.error (.refused e), d, []⟩
  | .ok file => d.saveGroups fate file

/-! ## As a process of its own -/

/-- The file for somebody who looks only at what it lists; all files have the time `mtime`. -/
def FoundFile.onDisk (mtime : ℕ) : FoundFile → Option OnDisk
  | .missing => none
  | .unreadable => some ⟨.malformed, mtime⟩
  | .bytes b =>
    match Json.decode b with
    | some file => some ⟨.saved file, mtime⟩
    | none => some ⟨.malformed, mtime⟩

theorem loadGroups_onDisk (mtime : ℕ) (f : FoundFile) : Zsync.loadGroups (f.onDisk mtime) = f.loadGroups := by
  cases f with
  | missing => rfl
  | unreadable => rfl
  | bytes b =>
    unfold FoundFile.onDisk FoundFile.loadGroups
    dsimp only
    cases Json.decode (α := GroupsFile) b <;> rfl

theorem onDisk_encode (mtime : ℕ) {file : GroupsFile} (h : Json.decode (Json.encode file) = some file) :
    (FoundFile.bytes (Json.encode file)).onDisk mtime = Zsync.saveGroups mtime file := by
  unfold FoundFile.onDisk
  dsimp only
  rw [h]
  rfl

def AllowFiles.asProcess (mtime : ℕ) (d : AllowFiles) : GroupFiles :=
  ⟨d.groups.onDisk mtime, d.tmp.onDisk mtime, fun _ => none⟩

/-- The accesses of a command that is the process `0`. -/
def AdminCommand.accesses [Sha256] [Base64] (mtime : ℕ) (fate : SaveFate) (d : AllowFiles)
    (c : AdminCommand) : List CommandEvent :=
  match c.run d.groups.loadGroups, fate with
  | .error _, _ => [.load 0 c]
  | .ok _, .unopened => [.load 0 c, .failWrite 0 (d.tmp.onDisk mtime)]
  | .ok file, .torn n =>
    [.load 0 c, .failWrite 0 ((FoundFile.bytes ((Json.encode file).take n)).onDisk mtime)]
  | .ok _, .unrenamed => [.load 0 c, .write 0 mtime, .failRename 0]
  | .ok _, .saved => [.load 0 c, .write 0 mtime, .rename 0]

end
end Zsync
