import Mathlib.Logic.Function.Basic
import Zsync.Model.Group

/-! # Starting and stopping a daemon

`zsync` and `zsyncd` are each started and stopped by commands that know the daemon by two files only: its pid file and
its socket. Every process runs a program of small steps over these files and the ports that daemons listen on, and
the steps of different processes come in any order.

* `Instr` : one step. `cleanupStale`, `start`, `stop` and the two `Daemon`s are lists of them.
* `Instr.perform` : what a step does to the files and to its process.
* `World.step` : a process takes its next step, a process appears, or one ends, at whatever point it is.

All processes have one home directory, where the files are. Which port a daemon listens on is in its environment, which
a process hands down to the daemon that it spawns. What a signal does to a process is an event of its own, since a
process may end at any point and a daemon may stop serving at any time. A pid is a positive number below `2 ^ 31`; what
`kill` makes of other numbers is left out.
-/

namespace Zsync
namespace Lifecycle
set_option autoImplicit false
set_option maxHeartbeats 250000

/-! ## The pid file -/

/-- `str::parse::<u32>` -/
def parseU32 (s : List Char) : Option ℕ :=
  let digits := match s with
    | '+' :: rest => rest
    | s => s
  if digits = [] then none
  else ((digits.mapM (digitValue 10)).map (numberOf 10)).filter fun n => n < 2 ^ 32

def pidLine (pid : ℕ) : List Char := Nat.toDigits 10 pid ++ ['\n']

/-! ## Programs -/

inductive Instr
  | readPid
  /-- `let Some(pid) = read_pid(..) else return` -/
  | readPidOrQuit
  /-- Looks whether the process is alive whose pid was read. -/
  | quitIfAlive
  /-- Leaves out the next two steps. -/
  | skipIfAlive
  | skipIfDead
  | removeSock
  | removePid
  | bindTcp
  /-- With its guard in place, a daemon that fails here still removes its files. -/
  | bindSock (guarded : Bool)
  | truncatePid
  | writePid
  /-- The listener goes to a task of its own. -/
  | acceptLoop
  /-- Until a signal comes, or `accept` fails in `run_server`. What follows is the guard. -/
  | serve
  | spawn
  | awaitUp
  | kill
  | awaitDead
  /-- Of processes that are no business of the daemon. -/
  | other
  deriving DecidableEq, Repr

inductive Role
  | daemon
  | start
  | stop
  | other
  deriving DecidableEq, Repr

def cleanupStale : List Instr := [.readPid, .skipIfAlive, .removeSock, .removePid]

def start : List Instr := [.readPid, .quitIfAlive] ++ cleanupStale ++ [.spawn, .awaitUp]

def stop : List Instr := [.readPidOrQuit, .skipIfDead, .kill, .awaitDead] ++ cleanupStale

/-- `run_agent` with `SockGuard`. -/
def runAgent : List Instr :=
  cleanupStale ++
    [.bindTcp, .bindSock false, .truncatePid, .writePid, .acceptLoop, .serve, .removeSock, .removePid]

/-- `run_server` with `start_admin` and `PidGuard`. -/
def runServer : List Instr :=
  [.bindTcp, .truncatePid, .writePid, .removeSock, .bindSock true, .serve, .removePid, .removeSock]

def Role.program (daemon : List Instr) : Role → List Instr
  | .daemon => daemon
  | .start => Lifecycle.start
  | .stop => Lifecycle.stop
  | .other => [.other]

/-! ## Processes -/

structure Proc where
  pid : ℕ
  role : Role
  /-- What `listen_port` reads. -/
  port : ℕ
  /-- What `read_pid` gave last. -/
  seen : Option ℕ
  /-- Its `accept_loop` runs. -/
  accepting : Bool
  todo : List Instr
  deriving DecidableEq, Repr

/-- What processes share. A process is known by a number that is never given again, unlike its pid. -/
structure Shared where
  /-- Who listens on a port. -/
  tcp : ℕ → Option ℕ
  /-- Who has bound the socket. It stays behind when that process ends. -/
  sock : Option ℕ
  pidFile : Option (List Char)

def Shared.readPid (s : Shared) : Option ℕ := s.pidFile.bind fun text => parseU32 (trim text)

/-- The listener of process `i` is closed. -/
def Shared.release (i : ℕ) (s : Shared) : Shared :=
  { s with tcp := fun port => if s.tcp port = some i then none else s.tcp port }

structure World where
  procs : ℕ → Option Proc
  next : ℕ
  shared : Shared

namespace World

/-- `pid_alive` -/
def alive (w : World) (pid : ℕ) : Bool := (List.range w.next).any fun i => (w.procs i).map Proc.pid = some pid

def seenAlive (w : World) (p : Proc) : Bool := p.seen.any w.alive

/-- `is_running` and a socket. -/
def up (w : World) : Bool := w.shared.sock.isSome && w.shared.readPid.any w.alive

end World

/-- The step of process `i`, which comes to `rest` after it. `ok` is the answer of the operating system, or that there
is still time. -/
def Instr.perform (w : World) (i : ℕ) (p : Proc) (rest : List Instr) (ok : Bool) : Instr → Shared × Proc
  | .readPid => (w.shared, { p with seen := if ok then w.shared.readPid else none, todo := rest })
  | .readPidOrQuit =>
    let seen := if ok then w.shared.readPid else none
    (w.shared, { p with seen := seen, todo := if seen.isSome then rest else [] })
  | .quitIfAlive => (w.shared, { p with todo := if w.seenAlive p then [] else rest })
  | .skipIfAlive => (w.shared, { p with todo := if w.seenAlive p then rest.drop 2 else rest })
  | .skipIfDead => (w.shared, { p with todo := if w.seenAlive p then rest else rest.drop 2 })
  | .removeSock => (if ok then { w.shared with sock := none } else w.shared, { p with todo := rest })
  | .removePid => (if ok then { w.shared with pidFile := none } else w.shared, { p with todo := rest })
  | .bindTcp =>
    if ok && (w.shared.tcp p.port).isNone then
      ({ w.shared with tcp := Function.update w.shared.tcp p.port (some i) }, { p with todo := rest })
    else (w.shared, { p with todo := [] })
  | .bindSock guarded =>
    if ok && w.shared.sock.isNone then ({ w.shared with sock := some i }, { p with todo := rest })
    else (w.shared, { p with todo := if guarded then rest.drop 1 else [] })
  | .truncatePid =>
    if ok then ({ w.shared with pidFile := some [] }, { p with todo := rest })
    else (w.shared, { p with todo := [] })
  | .writePid =>
    if ok then ({ w.shared with pidFile := some (pidLine p.pid) }, { p with todo := rest })
    else (w.shared, { p with todo := [] })
  | .acceptLoop => (w.shared, { p with accepting := true, todo := rest })
  | .serve => (w.shared, { p with todo := rest })
  | .spawn => (w.shared, { p with todo := if ok then rest else [] })
  | .awaitUp => (w.shared, { p with todo := if w.up then rest else if ok then p.todo else [] })
  | .kill => (w.shared, { p with todo := if ok then rest else [] })
  | .awaitDead => (w.shared, { p with todo := if w.seenAlive p then (if ok then p.todo else []) else rest })
  | .other => (w.shared, { p with todo := p.todo })

/-! ## Steps -/

inductive Event
  | arrive (pid : ℕ) (role : Role) (port : ℕ)
  /-- `child` is the pid that a spawned daemon gets. -/
  | op (i : ℕ) (ok : Bool) (child : ℕ)
  /-- `accept` fails in an `accept_loop`, which ends. The daemon serves on without it. -/
  | acceptFails (i : ℕ)
  | gone (i : ℕ)
  deriving DecidableEq, Repr

namespace World
variable (daemon : List Instr)

/-- Pids are positive, and a pid is given again only after its process has ended. -/
def enter (w : World) (pid : ℕ) (role : Role) (port : ℕ) : Option World :=
  if 0 < pid ∧ pid < 2 ^ 31 ∧ w.alive pid = false then
    some { w with
      procs := Function.update w.procs w.next (some ⟨pid, role, port, none, false, role.program daemon⟩)
      next := w.next + 1 }
  else none

/-- The port is free again, the files stay. -/
def leave (w : World) (i : ℕ) : World :=
  { w with procs := Function.update w.procs i none, shared := w.shared.release i }

def act (w : World) (i : ℕ) (outcome : Shared × Proc) : World :=
  { w with procs := Function.update w.procs i (some outcome.2), shared := outcome.1 }

def step (w : World) : Event → Option World
  | .arrive pid role port => w.enter daemon pid role port
  | .gone i => (w.procs i).map fun _ => w.leave i
  | .acceptFails i =>
    match w.procs i with
    | some p =>
      if p.accepting then some (w.act i (w.shared.release i, { p with accepting := false })) else none
    | none => none
  | .op i ok child =>
    match w.procs i with
    | none => none
    | some p =>
      match p.todo with
      | [] => none
      | instr :: rest =>
        let w := w.act i (instr.perform w i p rest ok)
        if instr = .spawn && ok then w.enter daemon child .daemon p.port else some w

end World
end Lifecycle
end Zsync
