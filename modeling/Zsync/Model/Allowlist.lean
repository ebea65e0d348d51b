import Zsync.Model.Group

/-! # `zsyncd.rs`: the allowlist and the admin commands

The admin commands are programs of their own. Each loads `groups.json`, changes what it read and saves it
through a temporary file. The daemon reads the same file through a cache that is keyed by the time of its
last change; `Allowlist::refresh` looks at that time, at whether there is a file, and at its content, one
after the other, and a command may save in between. The lock of the allowlist admits one `get` at a time.

`Coherent` says that the cache is the file as it is, or has another time than the file.

Beside the state, `Admission` keeps the commands that are done, the times that the file has had, and what
each `get` has returned. A time that the file has had does not come back.
-/

namespace Zsync
set_option autoImplicit false
set_option maxHeartbeats 250000
open Protocol Zsync.Group

/-! ## `groups.json` -/

structure GroupRec where
  id : String
  name : String
  enabled : Bool
  deriving DecidableEq, Repr

structure GroupsFile where
  groups : List GroupRec
  deriving DecidableEq, Repr

/-- Text that is no `GroupsFile`, or the text of one. -/
inductive GroupsText
  | malformed
  | saved (file : GroupsFile)
  deriving DecidableEq, Repr

structure OnDisk where
  text : GroupsText
  mtime : ℕ
  deriving DecidableEq, Repr

def loadGroups : Option OnDisk → GroupsFile
  | some ⟨.saved file, _⟩ => file
  | _ => ⟨[]⟩

def saveGroups (mtime : ℕ) (file : GroupsFile) : Option OnDisk := some ⟨.saved file, mtime⟩

/-! ## The commands -/

namespace Group

def gidSalt : Bytes := "zsync-gid".toUTF8.toList

def groupIdFromSecret [Sha256] (secret : Vector UInt8 32) : Bytes :=
  (Sha256.digest (gidSalt ++ secret.toList)).toList.take 16

def GroupUri.toUri [Base64] (g : GroupUri) : Except String String :=
  match g.key with
  | none => .error "group key missing"
  | some key => .ok ("zsync://" ++ hexEncode g.groupId ++ ":" ++ Base64.encode key ++ "@" ++
      formatHostPort g.host g.port)

end Group

/-- The address that `cmd_create` puts into the URI; `detected` is what `detect_advertise_ip` found. -/
def advertised (domain detected : Option String) : Except String String :=
  match domain.orElse fun _ => detected with
  | none => .error "could not detect address; pass --domain"
  | some host =>
    if host = "0.0.0.0" ∨ host = "::" then .error "--domain cannot be 0.0.0.0 / ::" else .ok host

/-- The file that is saved, and the URI that is printed. -/
def cmdCreate [Sha256] [Base64] (domain detected name : Option String) (port : ℕ)
    (secret : Vector UInt8 32) (file : GroupsFile) : Except String (GroupsFile × String) := do
  let host ← advertised domain detected
  let gid := groupIdFromSecret secret
  let id := hexEncode gid
  if file.groups.any fun g => g.id = id then
    .error ("group " ++ id ++ " already exists")
  else
    let uri ← (GroupUri.mk gid (some secret.toList) host port).toUri
    pure (⟨file.groups ++ [⟨id, name.getD "", true⟩]⟩, uri)

def setEnabled (groupId : String) (enabled : Bool) (file : GroupsFile) : Except String GroupsFile := do
  let id := hexEncode (← parseGroupId groupId.toList)
  if (file.groups.find? fun g => g.id = id).isSome then
    let i := file.groups.findIdx fun g => g.id = id
    pure ⟨file.groups.modify i fun g => { g with enabled := enabled }⟩
  else .error ("unknown group " ++ id)

def removeGroup (groupId : String) (file : GroupsFile) : Except String GroupsFile := do
  let id := hexEncode (← parseGroupId groupId.toList)
  let kept := file.groups.filter fun g => g.id ≠ id
  if kept.length = file.groups.length then .error ("unknown group " ++ id) else pure ⟨kept⟩

inductive AdminCommand
  | create (domain detected name : Option String) (port : ℕ) (secret : Vector UInt8 32)
  | enable (groupId : String)
  | disable (groupId : String)
  | deny (groupId : String)

/-- What a command saves, or the error it ends with. -/
def AdminCommand.run [Sha256] [Base64] (file : GroupsFile) : AdminCommand → Except String GroupsFile
  | .create domain detected name port secret =>
    (cmdCreate domain detected name port secret file).map Prod.fst
  | .enable groupId => setEnabled groupId true file
  | .disable groupId => setEnabled groupId false file
  | .deny groupId => removeGroup groupId file

/-! ## The cache -/

/-- A hash map as the entries it was collected from: of equal keys the last one counts. -/
structure GroupMap where
  entries : List (String × GroupRec)
  deriving DecidableEq, Repr

namespace GroupMap

def collect (file : GroupsFile) : GroupMap := ⟨file.groups.map fun g => (g.id, g)⟩

def isEmpty (m : GroupMap) : Bool := m.entries.isEmpty

def get (id : String) (m : GroupMap) : Option GroupRec :=
  (m.entries.reverse.find? fun e => e.1 = id).map Prod.snd

end GroupMap

structure Allowlist where
  mtime : Option ℕ
  groups : GroupMap
  deriving DecidableEq, Repr

namespace Allowlist

/-- The cache that `Allowlist::new` refreshes. -/
def new : Allowlist := ⟨none, ⟨[]⟩⟩

/-- The file has the time of the cache, and the cache is not empty. -/
def fresh (mtime : Option ℕ) (a : Allowlist) : Bool := mtime = a.mtime && !a.groups.isEmpty

def clear : Allowlist := ⟨none, ⟨[]⟩⟩

def reload (mtime : Option ℕ) (file : Option OnDisk) : Allowlist :=
  ⟨mtime, GroupMap.collect (loadGroups file)⟩

end Allowlist

/-- The cache is the file as it is, or has another time. -/
def Coherent (file : Option OnDisk) (allow : Allowlist) : Prop :=
  allow.mtime = file.map OnDisk.mtime → allow.groups.isEmpty = false →
    allow.groups = GroupMap.collect (loadGroups file)

/-! ## Commands and `get` at the same time -/

/-- Where a `get` stands that has looked at the time of the file. -/
inductive RefreshPoint
  /-- There was no file; `exists` is next. -/
  | looking
  /-- Reading the file is next. -/
  | reading (mtime : Option ℕ)
  deriving DecidableEq, Repr

/-- A `get` that has started after the commands `started`. -/
structure Getting where
  id : String
  started : List AdminCommand
  point : RefreshPoint

/-- What a `get` has returned, and the commands that were done when it last looked at the file. -/
structure Answer where
  id : String
  started : List AdminCommand
  done : List AdminCommand
  found : Option GroupRec

structure Admission where
  file : Option OnDisk
  allow : Allowlist
  getting : Option Getting
  /-- The command at work, and what it is going to save. -/
  admin : Option (AdminCommand × Except String GroupsFile)
  /-- The commands that are done, the last one first. -/
  done : List AdminCommand
  mtimes : List ℕ
  answers : List Answer

inductive AdmissionEvent
  /-- A command starts and loads the file. -/
  | command (c : AdminCommand)
  /-- It saves, which gives the file the time `mtime`, or ends with its error. -/
  | finish (mtime : ℕ)
  /-- `get` starts and looks at the time of the file. -/
  | get (id : String)
  /-- It looks whether there is a file. -/
  | look
  | read

namespace Admission
variable [Sha256] [Base64]

/-- The refresh is over, with the cache `allow`. -/
def answer (id : String) (started : List AdminCommand) (allow : Allowlist) (s : Admission) : Admission :=
  { s with
    allow := allow
    getting := none
    answers := s.answers ++ [⟨id, started, s.done, allow.groups.get id⟩] }

def step (s : Admission) : AdmissionEvent → Option Admission
  | .command c =>
    match s.admin with
    | none => some { s with admin := some (c, c.run (loadGroups s.file)) }
    | some _ => none
  | .finish mtime =>
    match s.admin with
    | some (c, .ok file) =>
      if mtime ∈ s.mtimes then none
      else some { s with
        file := saveGroups mtime file
        admin := none
        done := c :: s.done
        mtimes := mtime :: s.mtimes }
    | some (c, .error _) => some { s with admin := none, done := c :: s.done }
    | none => none
  | .get id =>
    match s.getting with
    | some _ => none
    | none =>
      let mtime := s.file.map OnDisk.mtime
      if s.allow.fresh mtime then some (s.answer id s.done s.allow)
      else
        let point := if mtime = none then .looking else .reading mtime
        some { s with getting := some ⟨id, s.done, point⟩ }
  | .look =>
    match s.getting with
    | some ⟨id, started, .looking⟩ =>
      if s.file.isSome then some { s with getting := some ⟨id, started, .reading none⟩ }
      else some (s.answer id started .clear)
    | _ => none
  | .read =>
    match s.getting with
    | some ⟨id, started, .reading mtime⟩ => some (s.answer id started (.reload mtime s.file))
    | _ => none

end Admission
end Zsync
