import Zsync.Foundations.CutPrograms
import Zsync.Foundations.Runs
import Zsync.Model.FileBackend

/-! # `clipboard/file.rs`: calls of `set` that fail, are cut or overlap

`FileBackend::set` works on the files under no lock, and takes the lock of its memory at the end: two calls may
take turns after every file operation. A crash ends all calls, and the directory is opened again.

* `openBackend` is `FileBackend::open`, `view` what `get` and the file at `current_path` show.
* `SetCall` : a call, as the file operations that are left of it.
* `Projection.step` : one file operation of one call, with what the operating system answers.
* `set_runs` : a call that nobody disturbs is `FileBackend.set`.
-/

namespace Zsync
set_option autoImplicit false
set_option maxHeartbeats 250000
open Protocol Foundations Foundations.Files

namespace FileBackend

def openBackend [Json Current] (dir : Place) : Script Current := do
  Script.createDirAll (objects dir)
  match ← (Script.read (metaPath dir)).attempt with
  | .ok bytes => pure ((Json.decode bytes).getD Current.default)
  | .error _ => pure Current.default

/-- `FileBackend::get`, on its parts. -/
def getFrom (dir : Place) (cur : Current) (disk : Disk) : Except BackendError (Option Item) :=
  if cur.hash = "" then .ok none
  else
    match (disk.read ((objects dir).join cur.hash)).1 with
    | .ok data => .ok (some ⟨cur.mime, data, cur.hash, cur.path, cur.name⟩)
    | .error .notFound => .ok none
    | .error e => .error (.io e)

theorem get_eq (fb : FileBackend) : fb.get = getFrom fb.dir fb.cur fb.disk := rfl

theorem getFrom_of_read {dir : Place} {cur : Current} {d : Disk} {data : Bytes} (h : cur.hash ≠ "")
    (hread : d.read ((objects dir).join cur.hash) = (.ok data, d)) :
    getFrom dir cur d = .ok (some ⟨cur.mime, data, cur.hash, cur.path, cur.name⟩) := by
  rw [getFrom, if_neg h, hread]

def currentPath (cur : Current) : Path := Path.ofText cur.path

end FileBackend

/-- What `get` returns, and what is read at `current_path`. -/
abbrev View := Except BackendError (Option Item) × Except IoError Bytes

/-- The view when nothing that is there fails to be read. -/
def view (dir : Place) (cur : Current) (disk : Disk) : View :=
  let disk := disk.answering fun _ => .allow
  (FileBackend.getFrom dir cur disk, (disk.read (FileBackend.currentPath cur)).1)

/-! ## Calls -/

/-- How far a call has come with what others see. -/
inductive SetStage
  | untouched
  /-- It has renamed its data to its object. -/
  | stored
  /-- It has renamed its data to `current.*`. -/
  | replaced
  /-- It has renamed its record to `current.json`. -/
  | committed
  deriving DecidableEq, Repr

section Target
variable [Sha256] (item : Item)

def itemMime : String := if item.mime = "" then detectMime item.data else item.mime

def itemExt : String := extForMime (itemMime item)

def itemHash : String := if item.hash = "" then Protocol.hash item.data else item.hash

end Target

def markSet [Sha256] (dir : Place) (item : Item) : FileOp → SetStage → SetStage
  | .rename _ dst, stage =>
    if dst = (FileBackend.objects dir).join (itemHash item) then .stored
    else if dst = FileBackend.stable dir (itemExt item) then .replaced
    else if dst = FileBackend.metaPath dir then .committed
    else stage
  | _, stage => stage

structure SetCall where
  item : Item
  /-- What is left to do. -/
  prog : Script (Item × Current)
  stage : SetStage
  /-- The view when it began. -/
  before : View
  /-- No other call was there at any time. -/
  alone : Bool

structure Projection where
  dir : Place
  cur : Current
  disk : Disk
  calls : List (ℕ × SetCall)
  /-- The views before and after each call that returned an error and was alone. -/
  failed : List (View × View)

inductive ProjectionEvent
  | begin (i : ℕ) (item : Item)
  | op (i : ℕ) (v : FileOp → Verdict)
  /-- The call has no operation left: it updates the memory, or it returns its error. -/
  | finish (i : ℕ)
  | crash (v : FileOp → Verdict)

namespace Projection
variable [Sha256] [Json Current]

/-- A backend over `dir`, opened when there was no record. -/
def opened (dir : Place) (disk : Disk) : Projection := ⟨dir, Current.default, disk, [], []⟩

def seen (s : Projection) : View := view s.dir s.cur s.disk

def put (i : ℕ) (call : SetCall) (s : Projection) : Projection :=
  { s with calls := s.calls.map fun c => if c.1 = i then (i, call) else c }

def drop (i : ℕ) (s : Projection) : Projection :=
  { s with calls := s.calls.filter fun c => c.1 ≠ i }

def step (s : Projection) : ProjectionEvent → Option Projection
  | .begin i item =>
    match s.calls.lookup i with
    | some _ => none
    | none =>
      if maxClip < item.data.length then some { s with failed := s.failed ++ [(s.seen, s.seen)] }
      else
        let call : SetCall :=
          ⟨item, FileBackend.setOps s.dir item, .untouched, s.seen, s.calls.isEmpty⟩
        some { s with calls := (i, call) :: s.calls.map fun c => (c.1, { c.2 with alone := false }) }
  | .op i v => do
    let call ← s.calls.lookup i
    match call.prog with
    | .done _ => none
    | .op o next =>
      let (res, disk) := s.disk.performWith v o
      let stage := stageAfter (markSet s.dir call.item) o res call.stage
      some { s.put i { call with prog := next res, stage := stage } with disk := disk }
  | .finish i => do
    let call ← s.calls.lookup i
    match call.prog with
    | .op .. => none
    | .done (.ok (_, cur)) => some { s.drop i with cur := cur }
    | .done (.error _) =>
      let new := if call.alone then [(call.before, s.seen)] else []
      some { s.drop i with failed := s.failed ++ new }
  | .crash v =>
    match (FileBackend.openBackend s.dir).run (s.disk.answering v) with
    | (.error _, _) => none
    | (.ok cur, disk) => some { s with cur := cur, disk := disk, calls := [] }

/-! ### What a step can do -/

theorem step_begin {s t : Projection} {i : ℕ} {item : Item} (h : step s (.begin i item) = some t) :
    t = { s with failed := s.failed ++ [(s.seen, s.seen)] } ∨
    (∀ c ∈ s.calls, c.1 ≠ i) ∧ t = { s with
      calls := (i, ⟨item, FileBackend.setOps s.dir item, .untouched, s.seen, s.calls.isEmpty⟩) ::
        s.calls.map fun c => (c.1, { c.2 with alone := false }) } := by
  simp only [step] at h
  split at h
  · cases h
  · next hnone =>
    split_ifs at h
    · exact .inl (Option.some.inj h).symm
    · refine .inr ⟨fun c hc hi => ?_, (Option.some.inj h).symm⟩
      have := List.lookup_eq_none_iff.mp hnone c hc
      simp [hi] at this

theorem step_op {s t : Projection} {i : ℕ} {v : FileOp → Verdict} (h : step s (.op i v) = some t) :
    ∃ call o next, s.calls.lookup i = some call ∧ call.prog = .op o next ∧
      t = { s.put i { call with
          prog := next (s.disk.performWith v o).1
          stage := stageAfter (markSet s.dir call.item) o (s.disk.performWith v o).1 call.stage } with
        disk := (s.disk.performWith v o).2 } := by
  obtain ⟨call, hcall, h⟩ := Option.bind_eq_some_iff.mp h
  split at h
  · cases h
  · next o next hprog => exact ⟨call, o, next, hcall, hprog, (Option.some.inj h).symm⟩

theorem step_finish {s t : Projection} {i : ℕ} (h : step s (.finish i) = some t) :
    ∃ call, s.calls.lookup i = some call ∧
      ((∃ item cur, call.prog = .done (.ok (item, cur)) ∧ t = { s.drop i with cur := cur }) ∨
      ∃ e, call.prog = .done (.error e) ∧ t = { s.drop i with
        failed := s.failed ++ if call.alone then [(call.before, s.seen)] else [] }) := by
  obtain ⟨call, hcall, h⟩ := Option.bind_eq_some_iff.mp h
  refine ⟨call, hcall, ?_⟩
  split at h
  · cases h
  · next item cur hprog => exact .inl ⟨item, cur, hprog, (Option.some.inj h).symm⟩
  · next e hprog => exact .inr ⟨e, hprog, (Option.some.inj h).symm⟩

theorem step_crash {s t : Projection} {v : FileOp → Verdict} (h : step s (.crash v) = some t) :
    ∃ cur disk, (FileBackend.openBackend s.dir).run (s.disk.answering v) = (.ok cur, disk) ∧
      t = { s with cur := cur, disk := disk, calls := [] } := by
  simp only [step] at h
  split at h
  · cases h
  · next cur disk hrun => exact ⟨cur, disk, hrun, (Option.some.inj h).symm⟩

omit [Sha256] [Json Current] in
/-- The calls after one has begun. -/
theorem mem_joined {s : Projection} {i : ℕ} {call : SetCall} {c : ℕ × SetCall}
    (h : c ∈ (i, call) :: s.calls.map fun c => (c.1, { c.2 with alone := false })) :
    c = (i, call) ∨ ∃ c₀ ∈ s.calls, c = (c₀.1, { c₀.2 with alone := false }) := by
  obtain h | h := List.mem_cons.mp h
  · exact .inl h
  · obtain ⟨c₀, hc₀, rfl⟩ := List.mem_map.mp h
    exact .inr ⟨c₀, hc₀, rfl⟩

omit [Sha256] [Json Current] in
theorem mem_put {s : Projection} {i : ℕ} {call : SetCall} {c : ℕ × SetCall} (h : c ∈ (s.put i call).calls) :
    c = (i, call) ∨ c ∈ s.calls ∧ c.1 ≠ i := by
  obtain ⟨c', hc, rfl⟩ := List.mem_map.mp h
  by_cases hi : c'.1 = i
  · rw [if_pos hi]
    exact .inl rfl
  · rw [if_neg hi]
    exact .inr ⟨hc, hi⟩

omit [Sha256] [Json Current] in
theorem mem_drop {s : Projection} {i : ℕ} {c : ℕ × SetCall} :
    c ∈ (s.drop i).calls ↔ c ∈ s.calls ∧ c.1 ≠ i := by
  simp [drop, List.mem_filter]

omit [Sha256] [Json Current] in
theorem mem_of_lookup {s : Projection} {i : ℕ} {call : SetCall} (h : s.calls.lookup i = some call) :
    (i, call) ∈ s.calls := by
  obtain ⟨l₁, l₂, heq, _⟩ := List.lookup_eq_some_iff.mp h
  rw [heq]
  simp

/-! ### A call that nobody disturbs -/

/-- The operations of the only call, answered as the disk is set to answer. -/
theorem exec_ops {s : Projection} {i : ℕ} {call : SetCall} (hs : s.calls = [(i, call)]) :
    ∃ n call', call'.prog = .done (call.prog.run s.disk).1 ∧
      exec step s (List.replicate n (.op i s.disk.verdict)) =
        some { s with calls := [(i, call')], disk := (call.prog.run s.disk).2 } := by
  obtain ⟨item, prog, stage, before, alone⟩ := call
  induction prog generalizing s stage with
  | done res => exact ⟨0, _, rfl, by rw [← hs]; rfl⟩
  | op o next ih =>
    have hstep : step s (.op i s.disk.verdict) = some
        { s with
          calls := [(i, ⟨item, next (s.disk.perform o).1,
            stageAfter (markSet s.dir item) o (s.disk.perform o).1 stage, before, alone⟩)]
          disk := (s.disk.perform o).2 } := by
      simp only [step, hs, List.lookup_cons, beq_self_eq_true, Option.bind_eq_bind, Option.bind_some,
        performWith_verdict, put, List.map_cons, List.map_nil, if_true]
    obtain ⟨n, call', hprog, hrun⟩ := ih (s.disk.perform o).1 (s := { s with
      calls := [(i, ⟨item, next (s.disk.perform o).1,
        stageAfter (markSet s.dir item) o (s.disk.perform o).1 stage, before, alone⟩)]
      disk := (s.disk.perform o).2 })
      (stageAfter (markSet s.dir item) o (s.disk.perform o).1 stage) rfl
    refine ⟨n + 1, call', hprog, ?_⟩
    rw [List.replicate_succ, exec_cons_of_step step hstep]
    rw [verdict_perform] at hrun
    exact hrun

/-- The memory after a call with this result. -/
def curAfter (cur : Current) : Except IoError (Item × Current) → Current
  | .ok (_, new) => new
  | .error _ => cur

theorem finish_done {s : Projection} {i : ℕ} {call : SetCall} {res : Except IoError (Item × Current)}
    (hc : s.calls.lookup i = some call) (hp : call.prog = .done res) :
    ∃ t, step s (.finish i) = some t ∧ t.disk = s.disk ∧ t.cur = curAfter s.cur res := by
  simp only [step, hc, Option.bind_eq_bind, Option.bind_some, hp]
  cases res with
  | ok r => exact ⟨_, rfl, rfl, rfl⟩
  | error e => exact ⟨_, rfl, rfl, rfl⟩

/-- Begun, run operation by operation and finished, a call does what `FileBackend::set` does. -/
theorem set_runs (fb : FileBackend) (item : Item) (h : item.data.length ≤ maxClip) :
    ∃ n s, exec step ⟨fb.dir, fb.cur, fb.disk, [], []⟩
        (.begin 0 item :: List.replicate n (.op 0 fb.disk.verdict) ++ [.finish 0]) = some s ∧
      s.cur = (FileBackend.set item fb).2.cur ∧ s.disk = (FileBackend.set item fb).2.disk := by
  let call : SetCall := ⟨item, FileBackend.setOps fb.dir item, .untouched,
    seen ⟨fb.dir, fb.cur, fb.disk, [], []⟩, true⟩
  have hbegin : step ⟨fb.dir, fb.cur, fb.disk, [], []⟩ (.begin 0 item) =
      some ⟨fb.dir, fb.cur, fb.disk, [(0, call)], []⟩ := by
    simp only [step, List.lookup_nil, if_neg (Nat.not_lt.mpr h)]
    rfl
  obtain ⟨n, call', hprog, hrun⟩ :=
    exec_ops (s := ⟨fb.dir, fb.cur, fb.disk, [(0, call)], []⟩) rfl
  obtain ⟨t, hfinish, hdisk, hcur⟩ := finish_done (s := ⟨fb.dir, fb.cur,
    (call.prog.run fb.disk).2, [(0, call')], []⟩) (i := 0) (by simp) hprog
  have hset : (FileBackend.set item fb).2 = fb.afterSet item := by
    unfold FileBackend.set
    rw [if_neg (Nat.not_lt.mpr h)]
    split <;> rfl
  refine ⟨n, t, ?_, ?_, ?_⟩
  · rw [List.cons_append, exec_cons_of_step step hbegin, exec_append_of step hrun,
      exec_cons_of_step step hfinish]
    rfl
  · rw [hset, hcur]
    rfl
  · rw [hset, hdisk]
    rfl

end Projection
end Zsync
