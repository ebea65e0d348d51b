import Zsync.Model.PasteOutput

/-! # `xclip`

`zsync xclip` takes the arguments of `xclip` and `xsel`, and so does the program itself under one of these names. It
copies what it reads, or pastes.

* `parseXclipArgs` : the loop over the arguments.
* `xclipCompat` : the command, over what `copy` and `paste` do.
-/

namespace Zsync
set_option autoImplicit false
set_option maxHeartbeats 250000
open Protocol Foundations.Files

/-- What a command has printed, and how it ends. -/
structure Ran where
  stdout : Bytes
  stderr : String
  res : Except String Unit

/-! ## The arguments -/

inductive XclipFlag
  | output
  | input
  | filter
  | dropLastNl
  /-- The next argument is its value. -/
  | valued
  | ignored
  | help
  | version
  | file
  deriving DecidableEq, Repr

def xclipFlag (a : String) : XclipFlag :=
  if a ∈ ["-o", "-out", "--output"] then .output
  else if a ∈ ["-i", "-in", "--input"] then .input
  else if a ∈ ["-f", "-filter"] then .filter
  else if a ∈ ["-r", "-rmlastnl"] then .dropLastNl
  else if a ∈ ["-selection", "-d", "-display", "-t", "-target", "-loops", "-l"] then .valued
  else if a ∈ ["-silent", "-quiet", "-verbose", "-noutf8", "--clipboard", "-b", "--primary", "-p", "--secondary", "-s",
      "--nodetach", "--detach", "-n", "--newline"] then .ignored
  else if a ∈ ["-h", "-help", "--help"] then .help
  else if a ∈ ["-version", "--version"] then .version
  else if startsWith a "-" then .ignored
  else .file

structure XclipOpts where
  output : Bool
  filter : Bool
  dropLastNl : Bool
  file : Option String
  deriving DecidableEq, Repr

/-- The variables of the loop. -/
structure XclipSeen extends XclipOpts where
  input : Bool
  deriving DecidableEq, Repr

def XclipSeen.start : XclipSeen := ⟨⟨false, false, false, none⟩, false⟩

def xclipHelp : String :=
  "zsync xclip: drop-in for xclip/xsel using the zsync clipboard\n" ++
  "-i / --input    copy stdin (or FILE) into zsync\n" ++
  "-o / --output   paste zsync clipboard to stdout\n" ++
  "-f / -filter    copy, then also write the bytes to stdout\n" ++
  "selections (-selection / -b) are ignored; zsync has one clipboard\n"

section Parse
variable (zsyncVersion : String)

/-- An argument that ends the process. -/
def xclipExit : XclipFlag → Option Ran
  | .help => some ⟨[], xclipHelp, .ok ()⟩
  | .version => some ⟨printLine ("xclip (zsync " ++ zsyncVersion ++ ")"), "", .ok ()⟩
  | _ => none

def XclipSeen.see (seen : XclipSeen) (a : String) : XclipSeen :=
  match xclipFlag a with
  | .output => { seen with output := true }
  | .input => { seen with input := true }
  | .filter => { seen with filter := true }
  | .dropLastNl => { seen with dropLastNl := true }
  | .file => { seen with file := some a }
  | .valued | .ignored | .help | .version => seen

def xclipLoop : List String → XclipSeen → Except Ran XclipSeen
  | [], seen => .ok seen
  | a :: rest, seen =>
    match xclipExit zsyncVersion (xclipFlag a) with
    | some ran => .error ran
    | none =>
      if xclipFlag a = .valued then
        match rest with
        | [] => .ok seen
        | _ :: rest => xclipLoop rest seen
      else xclipLoop rest (seen.see a)

def parseXclipArgs (args : List String) : Except Ran XclipOpts :=
  match xclipLoop zsyncVersion args .start with
  | .error ran => .error ran
  | .ok seen =>
    if seen.output && seen.input then .error ⟨[], "", .error "xclip: -i and -o are mutually exclusive"⟩
    else .ok seen.toXclipOpts

end Parse

/-! ## The command -/

/-- What a process is started with. Writing to its standard output may fail. -/
structure Shell where
  zsyncVersion : String
  /-- How the operating system describes an error. -/
  io : IoError → String
  stdout : Except IoError Unit
  cwd : Except IoError Path

def Shell.print (sh : Shell) (out : Bytes) : Except String Unit :=
  if out = [] then .ok () else sh.stdout.mapError sh.io

/-- A file is read as a whole, standard input up to one byte more than a clip may have. -/
def xclipRead (sh : Shell) (file : Option String) (stdin : Bytes) (d : Disk) : Except String Bytes :=
  match file with
  | some path => (d.read (.ofText path)).1.mapError fun e => "read " ++ path ++ ": " ++ sh.io e
  | none => .ok (stdin.take (maxClip + 1))

def xclipData (sh : Shell) (opts : XclipOpts) (stdin : Bytes) (d : Disk) : Except String Bytes :=
  match xclipRead sh opts.file stdin d with
  | .error e => .error e
  | .ok data =>
    if maxClip < data.length then .error "clipboard payload exceeds 10MiB"
    else if opts.dropLastNl && data.getLast? == some 10 then .ok data.dropLast
    else .ok data

section Compat
variable {τ : Type} (sh : Shell) (fetch : Bool → Bool → τ → Except String Ipc.Response × τ)
  (put : Bytes → τ → Except String Unit × τ)

/-- What `paste` prints may not reach standard output. -/
def pasteCmd (wantPath wantContent : Bool) (s : τ) (d : Disk) : Ran × τ × Disk :=
  let (resp, s) := fetch wantPath wantContent s
  match paste sh.io (fun _ _ => resp) sh.cwd wantPath wantContent d with
  | (.error e, d) => (⟨[], "", .error e⟩, s, d)
  | (.ok out, d) =>
    match sh.print out with
    | .ok () => (⟨out, "", .ok ()⟩, s, d)
    | .error e => (⟨[], "", .error e⟩, s, d)

def xclipCopy (opts : XclipOpts) (stdin : Bytes) (s : τ) (d : Disk) : Ran × τ :=
  match xclipData sh opts stdin d with
  | .error e => (⟨[], "", .error e⟩, s)
  | .ok data =>
    match if opts.filter then sh.print data else .ok () with
    | .error e => (⟨[], "", .error e⟩, s)
    | .ok () =>
      let (res, s) := put data s
      (⟨if opts.filter then data else [], "", res⟩, s)

def xclipCompat (args : List String) (stdin : Bytes) (s : τ) (d : Disk) : Ran × τ × Disk :=
  match parseXclipArgs sh.zsyncVersion args with
  | .error ran => (ran, s, d)
  | .ok opts =>
    if opts.output then pasteCmd sh fetch false true s d
    else
      let (ran, s) := xclipCopy sh put opts stdin s d
      (ran, s, d)

end Compat
end Zsync
