import Zsync.Foundations.Register
import Zsync.Model.Copying
import Zsync.Model.Projection
import Zsync.Model.Xclip

/-! # The commands of one machine

A command that finds a daemon asks it; otherwise it opens the clipboard, which reads the record that the last process
has left.

* `Machine` : a backend together with `clipboard::open`.
* `Way` : what a command finds. `Machine.put` is `put_clipboard`, `Machine.fetch` the first half of `paste`.
* `Commands` : commands one after the other, each in its own way, with whatever else happens between them.
-/

namespace Zsync
set_option autoImplicit false
set_option maxHeartbeats 250000
open Protocol Foundations Foundations.Files

/-! ## Opening -/

namespace FileBackend
variable [Json Current]

theorem openBackend_stands (dir r : Place) : Stands r (openBackend dir) := by
  refine preserves_bind (stands_createDirAll _) fun _ => preserves_bind (preserves_attempt fun d hd => ?_) fun res => ?_
  · change Rooted r (d.read _).2
    rwa [read_same]
  · cases res with
    | ok bytes => exact preserves_pure _
    | error e => exact preserves_pure _

/-- `FileBackend::open`, over what another process has left. -/
def reopen (fb : FileBackend) : Except IoError Unit × FileBackend :=
  let opened := (openBackend fb.dir).run fb.disk
  let fb := { fb with disk := opened.2, rooted := openBackend_stands fb.dir _ fb.disk fb.rooted }
  match opened.1 with
  | .ok cur => (.ok (), { fb with cur := cur })
  | .error e => (.error e, fb)

end FileBackend

/-- `open` of `clipboard/native.rs`, where the programs of the desktop are found. -/
def nativeOpen {σ ω : Type} (opens : σ → Except IoError Unit × σ) (s : σ × ω) : Except IoError Unit × σ × ω :=
  ((opens s.1).1, (opens s.1).2, s.2)

structure Machine (σ : Type) extends Served σ where
  /-- `clipboard::open`, over what another process has left. -/
  opens : σ → Except IoError Unit × σ

section Machines
variable [Sha256] [Json Current] (io : IoError → String)

def fileMachine : Machine FileBackend where
  backend := fileBackend
  name := "file"
  headless := true
  currentPath := fun fb => fb.cur.path
  io := io
  opens := FileBackend.reopen

def nativeMachine {ω : Type} (name : String) (os : Os ω) : Machine (FileBackend × ω) where
  backend := native fileBackend os
  name := name
  headless := false
  currentPath := fun s => s.1.cur.path
  io := io
  opens := nativeOpen FileBackend.reopen

end Machines

/-! ## With a daemon and without -/

/-- What `is_running` finds: a daemon with its hub, whose clipboard is that of the machine, or none. -/
inductive Way (σ : Type)
  | daemon (p : Process) (others : Ipc.Request → Ipc.Response × Bytes) (now : ℕ) (saves : Bool) (hub : Hub σ)
  | direct

/-- The daemon, with the machine's clipboard. -/
def servingAt {σ : Type} (hub : Hub σ) (s : σ) : Serving σ := ⟨{ hub with clipboard := s }, []⟩

namespace Machine
variable {σ : Type} [Sha256] [SerdeJson] (m : Machine σ)

def put (w : Way σ) (data : Bytes) (s : σ) : Except String Unit × σ :=
  match w with
  | .daemon p others now saves hub =>
    let (res, t) := m.putViaDaemon p others now saves data (servingAt hub s)
    (res, t.hub.clipboard)
  | .direct =>
    if maxClip < data.length then (.error "clipboard payload exceeds 10MiB", s)
    else
      match m.opens s with
      | (.error e, s) => (.error (m.io e), s)
      | (.ok (), s) => m.putDirect data s

def fetch (w : Way σ) (wantPath wantContent : Bool) (s : σ) : Except String Ipc.Response × σ :=
  match w with
  | .daemon p others now saves hub =>
    (Ipc.pasteViaDaemon (m.shown s) (fun req body => (m.dispatch p others now saves req body (servingAt hub s)).1)
      wantPath wantContent, s)
  | .direct =>
    if wantPath && wantContent then (.error "--path and --content are mutually exclusive", s)
    else
      match m.opens s with
      | (.error e, s) => (.error (m.io e), s)
      | (.ok (), s) => (Ipc.pasteDirect (m.shown s) wantPath wantContent, s)

end Machine

/-! ## All commands that use the clipboard -/

inductive Command
  | copy (stdin : Option Bytes) (text : List String)
  | paste (wantPath wantContent : Bool)
  | xclip (stdin : Bytes) (args : List String)

def Machine.run {σ : Type} [Sha256] [SerdeJson] (m : Machine σ) (sh : Shell) (w : Way σ) (c : Command) (s : σ)
    (d : Disk) : Ran × σ × Disk :=
  match c with
  | .copy stdin text =>
    match readCopyPayload stdin text with
    | .error e => (⟨[], "", .error e⟩, s, d)
    | .ok data =>
      let (res, s) := m.put w data s
      (⟨[], "", res⟩, s, d)
  | .paste wantPath wantContent => pasteCmd sh (m.fetch w) wantPath wantContent s d
  | .xclip stdin args => xclipCompat sh (m.fetch w) (m.put w) args stdin s d

/-! ## What they do to the clipboard -/

/-- The bytes that the command asks a backend to store. -/
def Command.offers (sh : Shell) (d : Disk) : Command → Option Bytes
  | .copy stdin text => (readCopyPayload stdin text).toOption.filter fun data => data.length ≤ maxClip
  | .paste _ _ => none
  | .xclip stdin args =>
    match parseXclipArgs sh.zsyncVersion args with
    | .error _ => none
    | .ok opts =>
      if opts.output then none
      else (xclipData sh opts stdin d).toOption.filter fun data => !opts.filter || (sh.print data).toBool

/-- The command writes the clipboard's bytes to standard output, which takes them. -/
def Command.shows (sh : Shell) (c : Command) : Bool :=
  sh.stdout.toBool &&
    match c with
    | .copy _ _ => false
    | .paste wantPath wantContent => wantContent && !wantPath
    | .xclip _ args =>
      match parseXclipArgs sh.zsyncVersion args with
      | .error _ => false
      | .ok opts => opts.output

def Command.touch (sh : Shell) (d : Disk) (c : Command) (ran : Ran) : Touch Bytes :=
  match c.offers sh d with
  | some data => .put data ran.res.toBool
  | none => if c.shows sh then .got (if ran.res.toBool then some ran.stdout else none) else .idle

/-- The clipboard of a machine, and what commands and others have done to it. -/
structure Commands (σ : Type) where
  clipboard : σ
  /-- The files outside the directory of the clipboard. -/
  disk : Disk
  log : List (Touch Bytes)

inductive CommandsEvent (σ : Type)
  | run (sh : Shell) (w : Way σ) (c : Command)
  /-- A daemon starts. -/
  | opened
  /-- Anything else changes the clipboard or the disk: a peer, the desktop, another program. -/
  | elsewhere (clipboard : σ) (disk : Disk)

def Commands.step {σ : Type} [Sha256] [SerdeJson] (m : Machine σ) (s : Commands σ) :
    CommandsEvent σ → Option (Commands σ)
  | .run sh w c =>
    let (ran, clipboard, disk) := m.run sh w c s.clipboard s.disk
    some ⟨clipboard, disk, s.log ++ [c.touch sh s.disk ran]⟩
  | .opened => some ⟨(m.opens s.clipboard).2, s.disk, s.log ++ [.idle]⟩
  | .elsewhere clipboard disk => some ⟨clipboard, disk, s.log ++ [.lost]⟩

end Zsync
