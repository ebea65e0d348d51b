import Mathlib.Data.List.Infix
import Zsync.Foundations.Runs
import Zsync.Model.Lifecycle
import Zsync.Wire.HostPort

/-! # Whose socket, whose pid file

Commands find the daemon by its files. Any process may remove them: `cleanup_stale` does it when the process that the
pid file names is gone, and time passes between the look and the removal. A daemon that comes to listen writes its pid
file without a look at what is there, so that only the port keeps two of them apart.

* `Owned` : a daemon that has made its files has them until it stops serving.
* `owned_iff` : a run keeps them exactly when no file is removed, and no pid file is written, while a daemon has it.
* `Exclusive` : what the port alone gives where all processes have the same: they are never another daemon's.
* `orderly_owned` : there they are kept when no cleanup overlaps the start of a daemon.
-/

namespace Zsync
namespace Lifecycle
set_option autoImplicit false
set_option maxHeartbeats 250000
open Foundations

/-! ## The pid file -/

theorem isDigit_of_mem_toDigits {n : ℕ} {c : Char} (h : c ∈ Nat.toDigits 10 n) : c.isDigit = true :=
  Nat.isDigit_of_mem_toDigits (by decide) (by decide) h

theorem parseU32_toDigits {n : ℕ} (h : n < 2 ^ 32) : parseU32 (Nat.toDigits 10 n) = some n := by
  have hdigits := fun c (hc : c ∈ Nat.toDigits 10 n) => isDigit_of_mem_toDigits hc
  have hnumber : numberOf 10 ((Nat.toDigits 10 n).map fun c => c.toNat - 48) = n := by
    rw [← portChars_eq]
    exact numberOf_portChars n
  have hne : Nat.toDigits 10 n ≠ [] := Nat.toDigits_ne_nil
  generalize Nat.toDigits 10 n = s at hdigits hnumber hne
  cases s with
  | nil => exact absurd rfl hne
  | cons c s =>
    have hplus : c ≠ '+' := by
      rintro rfl
      exact absurd (hdigits '+' List.mem_cons_self) (by decide)
    have hparse : parseU32 (c :: s) =
        (((c :: s).mapM (digitValue 10)).map (numberOf 10)).filter fun n => n < 2 ^ 32 := by
      simp [parseU32, hplus]
    rw [hparse, mapM_digitValue hdigits, Option.map_some, hnumber]
    exact Option.filter_eq_some_iff.mpr ⟨rfl, decide_eq_true h⟩

/-- The newline goes, and no digit does. -/
theorem trim_line {s : List Char} (hne : s ≠ []) (h : ∀ c ∈ s, isWhitespace c = false) :
    trim (s ++ ['\n']) = s := by
  have hkeep : ∀ t rest : List Char, t ≠ [] → (∀ c ∈ t, isWhitespace c = false) →
      (t ++ rest).dropWhile isWhitespace = t ++ rest := by
    intro t rest hne ht
    cases t with
    | nil => exact absurd rfl hne
    | cons c t =>
      rw [List.cons_append, List.dropWhile_cons_of_neg (by simp [ht c List.mem_cons_self])]
  have hnl : isWhitespace '\n' = true := by decide
  have hreverse := hkeep s.reverse [] (by simpa using hne) fun c hc => h c (List.mem_reverse.mp hc)
  rw [List.append_nil] at hreverse
  rw [trim, hkeep s ['\n'] hne h, List.reverse_append, List.reverse_singleton, List.singleton_append,
    List.dropWhile_cons_of_pos hnl, hreverse, List.reverse_reverse]

/-- What is written is read. -/
theorem readPid_pidLine {n : ℕ} (h : n < 2 ^ 32) : parseU32 (trim (pidLine n)) = some n := by
  have hprintable : ∀ c ∈ Nat.toDigits 10 n, isWhitespace c = false := by
    intro c hc
    rw [← portChars_eq] at hc
    exact portChars_clean hc
  rw [pidLine, trim_line Nat.toDigits_ne_nil hprintable, parseU32_toDigits h]

/-! ## Programs -/

/-- It has taken the port, and not come to its end. -/
def Proc.Holds (p : Proc) : Prop := p.role = .daemon ∧ p.todo ≠ [] ∧ .bindTcp ∉ p.todo

def sockMade (todo : List Instr) : Prop := .serve ∈ todo ∧ .bindSock false ∉ todo ∧ .bindSock true ∉ todo

def pidMade (todo : List Instr) : Prop := .serve ∈ todo ∧ .writePid ∉ todo

/-- It has bound its socket, and is still to serve, or serving. -/
def Proc.SockUp (p : Proc) : Prop := p.role = .daemon ∧ sockMade p.todo

def Proc.PidUp (p : Proc) : Prop := p.role = .daemon ∧ pidMade p.todo

instance (todo : List Instr) : Decidable (sockMade todo) := inferInstanceAs (Decidable (_ ∧ _))
instance (todo : List Instr) : Decidable (pidMade todo) := inferInstanceAs (Decidable (_ ∧ _))
instance (p : Proc) : Decidable p.Holds := inferInstanceAs (Decidable (_ ∧ _))
instance (p : Proc) : Decidable p.SockUp := inferInstanceAs (Decidable (_ ∧ _))
instance (p : Proc) : Decidable p.PidUp := inferInstanceAs (Decidable (_ ∧ _))

/-- The steps that make a file. -/
def makers : List Instr := [.bindSock false, .bindSock true, .truncatePid, .writePid]

/-- A daemon that makes its files while it has the port, and takes none away between making it and serving. -/
structure Careful (daemon : List Instr) : Prop where
  binds : .bindTcp ∈ daemon
  steps : ∀ t ∈ daemon.tails, ∀ instr ∈ t.head?, instr ∈ makers ++
    [.readPid, .skipIfAlive, .removeSock, .removePid, .bindTcp, .acceptLoop, .serve]
  makes : ∀ t ∈ daemon.tails, ∀ instr ∈ t.head?, instr ∈ makers → .bindTcp ∉ t
  sock : ∀ t ∈ daemon.tails, sockMade t → .bindTcp ∉ t
  pid : ∀ t ∈ daemon.tails, pidMade t → .bindTcp ∉ t
  skips : ∀ t ∈ daemon.tails, t.head? = some .skipIfAlive → .bindTcp ∈ t.drop 3
  fails : ∀ t ∈ daemon.tails, t.head? = some (.bindSock true) → .serve ∉ t.drop 2
  removeSock : ∀ t ∈ daemon.tails, t.head? = some .removeSock → ¬ sockMade t
  removePid : ∀ t ∈ daemon.tails, t.head? = some .removePid → ¬ pidMade t
  truncates : ∀ t ∈ daemon.tails, t.head? = some .truncatePid → ¬ pidMade t
  looks : ∀ t ∈ daemon.tails, t.head? = some .readPid → .bindTcp ∈ t

theorem runAgent_careful : Careful runAgent := by
  constructor <;> decide

theorem runServer_careful : Careful runServer := by
  constructor <;> decide

/-- Commands make no files. -/
theorem commands_make_nothing {role : Role} (h : role ≠ .daemon) (daemon : List Instr) {instr : Instr}
    (hin : instr ∈ role.program daemon) : instr ∉ makers := by
  have hstart : ∀ instr ∈ start, instr ∉ makers := by decide
  have hstop : ∀ instr ∈ stop, instr ∉ makers := by decide
  cases role with
  | daemon => exact absurd rfl h
  | start => exact hstart instr hin
  | stop => exact hstop instr hin
  | other =>
    rw [List.mem_singleton.mp hin]
    decide

/-! ## One step of a process -/

section Perform
variable (w : World) (i : ℕ) (p : Proc) (instr : Instr) (rest : List Instr) (ok : Bool)

theorem perform_pid : (instr.perform w i p rest ok).2.pid = p.pid := by
  cases instr <;> simp only [Instr.perform] <;> (try split_ifs) <;> rfl

theorem perform_role : (instr.perform w i p rest ok).2.role = p.role := by
  cases instr <;> simp only [Instr.perform] <;> (try split_ifs) <;> rfl

theorem perform_port : (instr.perform w i p rest ok).2.port = p.port := by
  cases instr <;> simp only [Instr.perform] <;> (try split_ifs) <;> rfl

theorem perform_sock : (instr.perform w i p rest ok).1.sock = w.shared.sock ∨
    (instr = .removeSock ∧ ok = true ∧ (instr.perform w i p rest ok).1.sock = none) ∨
    ∃ guarded, instr = .bindSock guarded ∧ ok = true ∧ w.shared.sock = none := by
  cases instr <;> simp only [Instr.perform] <;> (try split_ifs) <;> simp_all

theorem perform_pidFile : (instr.perform w i p rest ok).1.pidFile = w.shared.pidFile ∨
    (instr = .removePid ∧ ok = true ∧ (instr.perform w i p rest ok).1.pidFile = none) ∨
    ((instr = .truncatePid ∨ instr = .writePid) ∧ ok = true) := by
  cases instr <;> simp only [Instr.perform] <;> (try split_ifs) <;> simp_all

theorem perform_tcp : (instr.perform w i p rest ok).1.tcp = w.shared.tcp ∨
    (w.shared.tcp p.port = none ∧
      (instr.perform w i p rest ok).1.tcp = Function.update w.shared.tcp p.port (some i)) := by
  cases instr <;> simp only [Instr.perform] <;> (try split_ifs) <;> simp_all

variable {p} {instr} {rest} {daemon : List Instr}

/-- A program is gone through from front to end. -/
theorem perform_todo (h : p.todo = instr :: rest) : (instr.perform w i p rest ok).2.todo <:+ p.todo := by
  have hrest : rest <:+ p.todo := h ▸ List.suffix_cons instr rest
  have hdrop : ∀ n, rest.drop n <:+ p.todo := fun n => (List.drop_suffix n rest).trans hrest
  cases instr <;> simp only [Instr.perform] <;> (try split_ifs) <;>
    first
    | exact hrest
    | exact hdrop _
    | exact List.nil_suffix
    | exact List.suffix_refl _

/-- A process goes on to what follows, ends, leaves something out, or waits. -/
theorem perform_next (h : p.todo = instr :: rest) :
    ((instr.perform w i p rest ok).2.todo = rest ∧ (instr = .skipIfAlive → w.seenAlive p = false)) ∨
    (instr.perform w i p rest ok).2.todo = [] ∨
    ((instr = .skipIfAlive ∨ instr = .skipIfDead) ∧ (instr.perform w i p rest ok).2.todo = rest.drop 2) ∨
    (instr = .bindSock true ∧ (instr.perform w i p rest ok).2.todo = rest.drop 1) ∨
    (instr ∈ [.awaitUp, .awaitDead, .other] ∧ (instr.perform w i p rest ok).2.todo = instr :: rest) := by
  cases instr <;> simp only [Instr.perform] <;> (try split_ifs) <;> simp_all

/-- The steps of a daemon. -/
theorem daemon_next (hc : Careful daemon) (ht : p.todo ∈ daemon.tails) (h : p.todo = instr :: rest) :
    (instr.perform w i p rest ok).2.todo = rest ∨ (instr.perform w i p rest ok).2.todo = [] ∨
    (instr = .skipIfAlive ∧ (instr.perform w i p rest ok).2.todo = rest.drop 2) ∨
    (instr = .bindSock true ∧ (instr.perform w i p rest ok).2.todo = rest.drop 1) := by
  have hin := hc.steps p.todo ht instr (by rw [h]; rfl)
  obtain hnext | hnext | ⟨rfl | rfl, hnext⟩ | hnext | ⟨hwaits, -⟩ :=
    perform_next w i ok h
  · exact .inl hnext.1
  · exact .inr (.inl hnext)
  · exact .inr (.inr (.inl ⟨rfl, hnext⟩))
  · simp [makers] at hin
  · exact .inr (.inr (.inr hnext))
  · simp only [List.mem_cons, List.not_mem_nil, or_false] at hwaits
    obtain rfl | rfl | rfl := hwaits <;> simp [makers] at hin

variable {w} {i} {ok}

theorem holds_perform (hc : Careful daemon) (ht : p.todo ∈ daemon.tails) (h : p.todo = instr :: rest)
    (hh : (instr.perform w i p rest ok).2.Holds) :
    p.Holds ∨ (instr = .bindTcp ∧ (instr.perform w i p rest ok).1.tcp p.port = some i) := by
  obtain ⟨hrole, hne, htcp⟩ := hh
  rw [perform_role] at hrole
  by_cases hbind : instr = .bindTcp
  · subst hbind
    simp only [Instr.perform] at hne ⊢
    split_ifs at hne ⊢
    · exact .inr ⟨trivial, Function.update_self _ _ _⟩
    · exact absurd rfl hne
  · left
    refine ⟨hrole, by rw [h]; exact List.cons_ne_nil _ _, ?_⟩
    rw [h]
    rintro (_ | ⟨_, hrest⟩)
    · exact hbind rfl
    obtain hnext | hnext | ⟨rfl, hnext⟩ | ⟨rfl, hnext⟩ := daemon_next w i ok hc ht h
    · rw [hnext] at htcp
      exact htcp hrest
    · exact hne hnext
    · have hskip := hc.skips p.todo ht (by rw [h]; rfl)
      rw [hnext] at htcp
      rw [h] at hskip
      exact htcp hskip
    · have hmake := hc.makes p.todo ht _ (by rw [h]; rfl) (by decide)
      rw [h] at hmake
      exact hmake (List.mem_cons_of_mem _ hrest)

/-- A daemon with a file that is to serve has not left anything out. -/
theorem next_of_made (hc : Careful daemon) (ht : p.todo ∈ daemon.tails) (h : p.todo = instr :: rest)
    (hmade : sockMade (instr.perform w i p rest ok).2.todo ∨ pidMade (instr.perform w i p rest ok).2.todo) :
    (instr.perform w i p rest ok).2.todo = rest := by
  have htails : (instr.perform w i p rest ok).2.todo ∈ daemon.tails :=
    (List.mem_tails _ _).mpr ((perform_todo _ _ _ h).trans ((List.mem_tails _ _).mp ht))
  have hserve : .serve ∈ (instr.perform w i p rest ok).2.todo := hmade.elim (·.1) (·.1)
  have htcp : .bindTcp ∉ (instr.perform w i p rest ok).2.todo := hmade.elim (hc.sock _ htails) (hc.pid _ htails)
  obtain hnext | hnext | ⟨rfl, hnext⟩ | ⟨rfl, hnext⟩ := daemon_next w i ok hc ht h
  · exact hnext
  · rw [hnext] at hserve
    exact absurd hserve List.not_mem_nil
  · have hskip := hc.skips p.todo ht (by rw [h]; rfl)
    rw [hnext] at htcp
    rw [h] at hskip
    exact absurd hskip htcp
  · have hfail := hc.fails p.todo ht (by rw [h]; rfl)
    rw [hnext] at hserve
    rw [h] at hfail
    exact absurd hserve hfail

/-- A socket that a daemon has after its step is new, or the daemon had it before. -/
theorem sockUp_perform (hc : Careful daemon) (ht : p.todo ∈ daemon.tails) (h : p.todo = instr :: rest)
    (hup : (instr.perform w i p rest ok).2.SockUp) :
    (instr.perform w i p rest ok).1.sock = some i ∨
      (p.SockUp ∧ (instr.perform w i p rest ok).1.sock = w.shared.sock) := by
  obtain ⟨hrole, hmade⟩ := hup
  rw [perform_role] at hrole
  have hnext := next_of_made hc ht h (.inl hmade)
  by_cases hbind : ∃ guarded, instr = .bindSock guarded
  · obtain ⟨guarded, rfl⟩ := hbind
    have hfail := hc.fails p.todo ht
    rw [h] at hfail
    have hserve := hmade.1
    simp only [Instr.perform] at hserve ⊢
    split_ifs at hserve ⊢ with hok hg
    · exact .inl rfl
    · exact absurd hserve (hfail (by rw [hg]; rfl))
    · exact absurd hserve List.not_mem_nil
  · have hbefore : p.SockUp := by
      rw [hnext] at hmade
      obtain ⟨hserve, hfalse, htrue⟩ := hmade
      have hne : ∀ guarded, ¬ .bindSock guarded = instr := fun guarded heq => hbind ⟨guarded, heq.symm⟩
      rw [Proc.SockUp, sockMade, h]
      simp [hrole, hserve, hfalse, htrue, hne]
    obtain hsame | ⟨rfl, -, -⟩ | ⟨guarded, hmaker, -⟩ := perform_sock w i p instr rest ok
    · exact .inr ⟨hbefore, hsame⟩
    · exact absurd hbefore.2 (hc.removeSock p.todo ht (by rw [h]; rfl))
    · exact absurd ⟨guarded, hmaker⟩ hbind

theorem pidUp_perform (hc : Careful daemon) (ht : p.todo ∈ daemon.tails) (h : p.todo = instr :: rest)
    (hup : (instr.perform w i p rest ok).2.PidUp) :
    (instr.perform w i p rest ok).1.pidFile = some (pidLine p.pid) ∨
      (p.PidUp ∧ (instr.perform w i p rest ok).1.pidFile = w.shared.pidFile) := by
  obtain ⟨hrole, hmade⟩ := hup
  rw [perform_role] at hrole
  have hnext := next_of_made hc ht h (.inr hmade)
  by_cases hwrite : instr = .writePid
  · subst hwrite
    have hserve := hmade.1
    simp only [Instr.perform] at hserve ⊢
    split_ifs at hserve ⊢
    · exact .inl rfl
    · exact absurd hserve List.not_mem_nil
  · have hbefore : p.PidUp := by
      rw [hnext] at hmade
      obtain ⟨hserve, hlater⟩ := hmade
      rw [Proc.PidUp, pidMade, h]
      simp [hrole, hserve, hlater, Ne.symm hwrite]
    obtain hsame | ⟨rfl, -, -⟩ | ⟨rfl | rfl, -⟩ :=
      perform_pidFile w i p instr rest ok
    · exact .inr ⟨hbefore, hsame⟩
    · exact absurd hbefore.2 (hc.removePid p.todo ht (by rw [h]; rfl))
    · exact absurd hbefore.2 (hc.truncates p.todo ht (by rw [h]; rfl))
    · exact absurd rfl hwrite

end Perform

/-! ## One step of the world -/

/-- Every process goes through its program, under a pid of its own. -/
structure Sound (daemon : List Instr) (w : World) : Prop where
  fresh : ∀ i p, w.procs i = some p → i < w.next
  pids : ∀ i p, w.procs i = some p → p.pid < 2 ^ 32
  distinct : ∀ i j p q, w.procs i = some p → w.procs j = some q → p.pid = q.pid → i = j
  tails : ∀ i p, w.procs i = some p → p.todo ∈ (p.role.program daemon).tails

/-- A daemon that has the port listens on it. -/
structure Listening (port : ℕ) (w : World) : Prop where
  ports : ∀ i p, w.procs i = some p → p.port = port
  tcp : ∀ i p, w.procs i = some p → p.Holds → w.shared.tcp port = some i

/-- A daemon that has made its files has them, until it stops serving. -/
structure Owned (w : World) : Prop where
  sock : ∀ i p, w.procs i = some p → p.SockUp → w.shared.sock = some i
  pid : ∀ i p, w.procs i = some p → p.PidUp → w.shared.pidFile = some (pidLine p.pid)

section Step
variable {daemon : List Instr} {w t : World} {i : ℕ} {p : Proc} {instr : Instr} {rest : List Instr} {ok : Bool}

/-- Whose turn it is, and what comes of it. -/
inductive Stepped (daemon : List Instr) (w : World) : Event → World → Prop
  | enter {pid : ℕ} {role : Role} {port : ℕ} {t : World} (h : w.enter daemon pid role port = some t) :
    Stepped daemon w (.arrive pid role port) t
  | fails {i : ℕ} {p : Proc} (hp : w.procs i = some p) :
    Stepped daemon w (.acceptFails i) (w.act i (w.shared.release i, { p with accepting := false }))
  | leave {i : ℕ} {p : Proc} (h : w.procs i = some p) : Stepped daemon w (.gone i) (w.leave i)
  | act {i : ℕ} {p : Proc} {instr : Instr} {rest : List Instr} {ok : Bool} {child : ℕ}
    (hp : w.procs i = some p) (h : p.todo = instr :: rest) (hspawn : (instr = .spawn && ok) = false) :
    Stepped daemon w (.op i ok child) (w.act i (instr.perform w i p rest ok))
  | spawn {i : ℕ} {p : Proc} {rest : List Instr} {child : ℕ} {t : World} (hp : w.procs i = some p)
    (h : p.todo = .spawn :: rest)
    (ht : (w.act i (Instr.spawn.perform w i p rest true)).enter daemon child .daemon p.port = some t) :
    Stepped daemon w (.op i true child) t

theorem stepped {e : Event} (h : w.step daemon e = some t) : Stepped daemon w e t := by
  cases e with
  | arrive pid role port => exact .enter h
  | gone i =>
    obtain ⟨p, hp, rfl⟩ := Option.map_eq_some_iff.mp h
    exact .leave hp
  | acceptFails i =>
    unfold World.step at h
    dsimp only at h
    split at h
    · next p hp =>
      split_ifs at h
      obtain rfl := Option.some.inj h
      exact .fails hp
    · cases h
  | op i ok child =>
    unfold World.step at h
    dsimp only at h
    split at h
    · cases h
    · next p hp =>
      split at h
      · cases h
      · next instr rest htodo =>
        split_ifs at h with hspawn
        · simp only [Bool.and_eq_true, decide_eq_true_eq] at hspawn
          obtain ⟨rfl, rfl⟩ := hspawn
          exact .spawn hp htodo h
        · cases h
          exact .act hp htodo (by simpa using hspawn)

theorem act_procs {outcome : Shared × Proc} {j : ℕ} {q : Proc} (h : (w.act i outcome).procs j = some q) :
    (j = i ∧ q = outcome.2) ∨ (j ≠ i ∧ w.procs j = some q) := by
  by_cases hj : j = i
  · subst hj
    simp only [World.act, Function.update_self] at h
    exact .inl ⟨rfl, (Option.some.inj h).symm⟩
  · simp only [World.act, Function.update_of_ne hj] at h
    exact .inr ⟨hj, h⟩

theorem leave_procs {j : ℕ} {q : Proc} (h : (w.leave i).procs j = some q) : j ≠ i ∧ w.procs j = some q := by
  by_cases hj : j = i
  · subst hj
    simp only [World.leave, Function.update_self] at h
    cases h
  · simp only [World.leave, Function.update_of_ne hj] at h
    exact ⟨hj, h⟩

/-- A new process is at the start of its program. -/
theorem enter_spec {pid : ℕ} {role : Role} {port : ℕ} (h : w.enter daemon pid role port = some t) :
    t.shared = w.shared ∧ t.next = w.next + 1 ∧ pid < 2 ^ 32 ∧ w.alive pid = false ∧
      ∀ j q, t.procs j = some q →
        (j = w.next ∧ q = ⟨pid, role, port, none, false, role.program daemon⟩) ∨
          (j ≠ w.next ∧ w.procs j = some q) := by
  unfold World.enter at h
  split_ifs at h with hpid
  obtain rfl := Option.some.inj h
  refine ⟨rfl, rfl, by omega, hpid.2.2, fun j q hq => ?_⟩
  dsimp only at hq
  by_cases hj : j = w.next
  · subst hj
    rw [Function.update_self] at hq
    exact .inl ⟨rfl, (Option.some.inj hq).symm⟩
  · rw [Function.update_of_ne hj] at hq
    exact .inr ⟨hj, hq⟩

theorem Proc.SockUp.holds (hc : Careful daemon) (ht : p.todo ∈ (p.role.program daemon).tails) (h : p.SockUp) :
    p.Holds := by
  obtain ⟨hrole, hmade⟩ := h
  rw [hrole] at ht
  exact ⟨hrole, List.ne_nil_of_mem hmade.1, hc.sock _ ht hmade⟩

theorem Proc.PidUp.holds (hc : Careful daemon) (ht : p.todo ∈ (p.role.program daemon).tails) (h : p.PidUp) :
    p.Holds := by
  obtain ⟨hrole, hmade⟩ := h
  rw [hrole] at ht
  exact ⟨hrole, List.ne_nil_of_mem hmade.1, hc.pid _ ht hmade⟩

theorem not_holds_of_new (hc : Careful daemon) (pid : ℕ) (role : Role) (port : ℕ) :
    ¬ Proc.Holds ⟨pid, role, port, none, false, role.program daemon⟩ := by
  rintro ⟨rfl, -, htcp⟩
  exact htcp hc.binds

/-! ### Programs and pids -/

theorem Sound.alive (hs : Sound daemon w) {j : ℕ} {q : Proc} (hq : w.procs j = some q) : w.alive q.pid = true := by
  rw [World.alive, List.any_eq_true]
  exact ⟨j, List.mem_range.mpr (hs.fresh j q hq), by simp [hq]⟩

theorem Sound.enter (h : Sound daemon w) {pid : ℕ} {role : Role} {port : ℕ}
    (ht : w.enter daemon pid role port = some t) : Sound daemon t := by
  obtain ⟨-, hnext, hpid, hnew, hprocs⟩ := enter_spec ht
  have hother : ∀ j q, w.procs j = some q → q.pid ≠ pid := by
    rintro j q hq rfl
    rw [h.alive hq] at hnew
    cases hnew
  constructor
  · intro j q hq
    obtain ⟨rfl, -⟩ | ⟨-, hq⟩ := hprocs j q hq
    · omega
    · have := h.fresh j q hq
      omega
  · intro j q hq
    obtain ⟨-, rfl⟩ | ⟨-, hq⟩ := hprocs j q hq
    · exact hpid
    · exact h.pids j q hq
  · intro j k q r hq hr heq
    obtain ⟨hj, rfl⟩ | ⟨-, hq⟩ := hprocs j q hq <;> obtain ⟨hk, rfl⟩ | ⟨-, hr⟩ := hprocs k r hr
    · exact hj.trans hk.symm
    · exact absurd heq.symm (hother k r hr)
    · exact absurd heq (hother j q hq)
    · exact h.distinct j k q r hq hr heq
  · intro j q hq
    obtain ⟨-, rfl⟩ | ⟨-, hq⟩ := hprocs j q hq
    · exact (List.mem_tails _ _).mpr (List.suffix_refl _)
    · exact h.tails j q hq

theorem Sound.leave (h : Sound daemon w) (i : ℕ) : Sound daemon (w.leave i) := by
  constructor
  · exact fun j q hq => h.fresh j q (leave_procs hq).2
  · exact fun j q hq => h.pids j q (leave_procs hq).2
  · exact fun j k q r hq hr => h.distinct j k q r (leave_procs hq).2 (leave_procs hr).2
  · exact fun j q hq => h.tails j q (leave_procs hq).2

/-- A process keeps its pid and goes on in its program. -/
theorem Sound.act (h : Sound daemon w) (hp : w.procs i = some p) {outcome : Shared × Proc}
    (hpid : outcome.2.pid = p.pid) (hrole : outcome.2.role = p.role) (htodo : outcome.2.todo <:+ p.todo) :
    Sound daemon (w.act i outcome) := by
  have hbefore : ∀ {j q}, (w.act i outcome).procs j = some q → ∃ r, w.procs j = some r ∧ q.pid = r.pid := by
    intro j q hq
    obtain ⟨rfl, rfl⟩ | ⟨-, hq⟩ := act_procs hq
    · exact ⟨p, hp, hpid⟩
    · exact ⟨q, hq, rfl⟩
  constructor
  · intro j q hq
    obtain ⟨r, hr, -⟩ := hbefore hq
    exact h.fresh j r hr
  · intro j q hq
    obtain ⟨r, hr, heq⟩ := hbefore hq
    exact heq ▸ h.pids j r hr
  · intro j k q r hq hr heq
    obtain ⟨q', hq', hqpid⟩ := hbefore hq
    obtain ⟨r', hr', hrpid⟩ := hbefore hr
    exact h.distinct j k q' r' hq' hr' (by rw [← hqpid, heq, hrpid])
  · intro j q hq
    obtain ⟨-, rfl⟩ | ⟨-, hq⟩ := act_procs hq
    · rw [hrole]
      exact (List.mem_tails _ _).mpr (htodo.trans ((List.mem_tails _ _).mp (h.tails i p hp)))
    · exact h.tails j q hq

theorem Sound.perform (h : Sound daemon w) (hp : w.procs i = some p) (htodo : p.todo = instr :: rest) :
    Sound daemon (w.act i (instr.perform w i p rest ok)) :=
  h.act hp (perform_pid _ _ _ _ _ _) (perform_role _ _ _ _ _ _) (perform_todo _ _ _ htodo)

theorem Sound.step (h : Sound daemon w) {e : Event} (ht : w.step daemon e = some t) : Sound daemon t := by
  cases stepped ht with
  | enter ht => exact h.enter ht
  | leave _ => exact h.leave _
  | fails hp => exact h.act hp rfl rfl (List.suffix_refl _)
  | act hp htodo _ => exact h.perform hp htodo
  | spawn hp htodo ht => exact (h.perform hp htodo).enter ht

/-! ### The port -/

/-- All processes have this port, and no `accept_loop` fails. -/
def Event.OnPort (port : ℕ) : Event → Prop
  | .arrive _ _ n => n = port
  | .acceptFails _ => False
  | _ => True

instance (port : ℕ) : ∀ e, Decidable (Event.OnPort port e)
  | .arrive _ _ n => inferInstanceAs (Decidable (n = port))
  | .acceptFails _ => inferInstanceAs (Decidable False)
  | .op .. | .gone _ => inferInstanceAs (Decidable True)

variable {port : ℕ}

theorem Listening.enter (hc : Careful daemon) (h : Listening port w) {pid : ℕ} {role : Role}
    (ht : w.enter daemon pid role port = some t) : Listening port t := by
  obtain ⟨hshared, -, -, -, hprocs⟩ := enter_spec ht
  constructor
  · intro j q hq
    obtain ⟨-, rfl⟩ | ⟨-, hq⟩ := hprocs j q hq
    · rfl
    · exact h.ports j q hq
  · intro j q hq hh
    rw [hshared]
    obtain ⟨-, rfl⟩ | ⟨-, hq⟩ := hprocs j q hq
    · exact absurd hh (not_holds_of_new hc _ _ _)
    · exact h.tcp j q hq hh

theorem Listening.leave (h : Listening port w) (i : ℕ) : Listening port (w.leave i) := by
  constructor
  · exact fun j q hq => h.ports j q (leave_procs hq).2
  · intro j q hq hh
    obtain ⟨hj, hq⟩ := leave_procs hq
    have hport := h.tcp j q hq hh
    show (if w.shared.tcp port = some i then none else w.shared.tcp port) = some j
    rw [hport, if_neg (by simpa using hj)]

theorem Listening.perform (hc : Careful daemon) (hs : Sound daemon w) (h : Listening port w)
    (hp : w.procs i = some p) (htodo : p.todo = instr :: rest) :
    Listening port (w.act i (instr.perform w i p rest ok)) := by
  have hpport := h.ports i p hp
  constructor
  · intro j q hq
    obtain ⟨-, rfl⟩ | ⟨-, hq⟩ := act_procs hq
    · rw [perform_port]
      exact hpport
    · exact h.ports j q hq
  · intro j q hq hh
    show (instr.perform w i p rest ok).1.tcp port = some j
    have hbefore : ∀ {k r}, w.procs k = some r → r.Holds →
        (instr.perform w i p rest ok).1.tcp port = some k := by
      intro k r hr hholds
      have hport := h.tcp k r hr hholds
      obtain hsame | ⟨hnone, -⟩ := perform_tcp w i p instr rest ok
      · rw [hsame, hport]
      · rw [hpport, hport] at hnone
        cases hnone
    obtain ⟨rfl, rfl⟩ | ⟨-, hq⟩ := act_procs hq
    · have hrole := hh.1
      rw [perform_role] at hrole
      have htails := hs.tails j p hp
      rw [hrole] at htails
      obtain hheld | ⟨-, hnew⟩ := holds_perform hc htails htodo hh
      · exact hbefore hp hheld
      · rw [← hpport]
        exact hnew
    · exact hbefore hq hh

theorem Listening.step (hc : Careful daemon) (hs : Sound daemon w) (h : Listening port w) {e : Event}
    (he : e.OnPort port) (ht : w.step daemon e = some t) : Listening port t := by
  cases stepped ht with
  | enter ht =>
    obtain rfl := he
    exact h.enter hc ht
  | leave _ => exact h.leave _
  | fails _ => exact he.elim
  | act hp htodo _ => exact h.perform hc hs hp htodo
  | spawn hp htodo ht =>
    rw [h.ports _ _ hp] at ht
    exact (h.perform hc hs hp htodo).enter hc ht

/-- Two processes that hold the port are one. -/
theorem Listening.alone (h : Listening port w) {j k : ℕ} {q r : Proc} (hq : w.procs j = some q)
    (hr : w.procs k = some r) (hhq : q.Holds) (hhr : r.Holds) : j = k := by
  have hport := h.tcp j q hq hhq
  rw [h.tcp k r hr hhr] at hport
  exact (Option.some.inj hport).symm

/-- Who makes a file is a daemon that has the port. -/
theorem Sound.maker (hc : Careful daemon) (h : Sound daemon w) (hp : w.procs i = some p)
    (htodo : p.todo = instr :: rest) (hmaker : instr ∈ makers) : p.Holds := by
  have htails := h.tails i p hp
  have hin : instr ∈ p.role.program daemon := by
    refine ((List.mem_tails _ _).mp htails).subset ?_
    rw [htodo]
    exact List.mem_cons_self
  by_cases hrole : p.role = .daemon
  · rw [hrole] at htails
    have hmakes := hc.makes p.todo htails instr (by rw [htodo]; rfl) hmaker
    exact ⟨hrole, by rw [htodo]; exact List.cons_ne_nil _ _, hmakes⟩
  · exact absurd hmaker (commands_make_nothing hrole daemon hin)

/-! ### The files -/

/-- The step that is taken and that the operating system does not refuse. -/
def World.taken (w : World) : Event → Option Instr
  | .op i true _ => (w.procs i).bind fun p => p.todo.head?
  | _ => none

theorem taken_op (hp : w.procs i = some p) (htodo : p.todo = instr :: rest) (child : ℕ) :
    w.taken (.op i true child) = some instr := by
  show (w.procs i).bind _ = _
  rw [hp, Option.bind_some, htodo]
  rfl

/-- The steps that change a pid file. -/
def pidWriters : List Instr := [.removePid, .truncatePid, .writePid]

/-- No file is removed, and no pid file is written, while a daemon has it. -/
structure Spares (w : World) (e : Event) : Prop where
  sock : w.taken e = some .removeSock → ∀ i < w.next, ∀ p ∈ w.procs i, ¬ p.SockUp
  pid : ∀ instr ∈ w.taken e, instr ∈ pidWriters → ∀ i < w.next, ∀ p ∈ w.procs i, ¬ p.PidUp

/-- The files of a daemon are its own, or `missing` ones. -/
structure HasFiles (missing : Prop) (w : World) : Prop where
  sock : ∀ i p, w.procs i = some p → p.SockUp → w.shared.sock = some i ∨ (missing ∧ w.shared.sock = none)
  pid : ∀ i p, w.procs i = some p → p.PidUp →
    w.shared.pidFile = some (pidLine p.pid) ∨ (missing ∧ w.shared.pidFile = none)

theorem owned_iff_hasFiles : Owned w ↔ HasFiles False w := by
  constructor
  · exact fun h => ⟨fun i p hp hup => .inl (h.sock i p hp hup), fun i p hp hup => .inl (h.pid i p hp hup)⟩
  · exact fun h => ⟨fun i p hp hup => (h.sock i p hp hup).resolve_right fun hx => hx.1,
      fun i p hp hup => (h.pid i p hp hup).resolve_right fun hx => hx.1⟩

/-- A daemon whose next step changes the pid file is yet to have it, or has served. -/
theorem not_pidMade (hc : Careful daemon) (ht : p.todo ∈ daemon.tails) (h : p.todo = instr :: rest)
    (hin : instr ∈ pidWriters) : ¬ pidMade p.todo := by
  have hhead : p.todo.head? = some instr := by rw [h]; rfl
  simp only [pidWriters, List.mem_cons, List.not_mem_nil, or_false] at hin
  obtain rfl | rfl | rfl := hin
  · exact hc.removePid p.todo ht hhead
  · exact hc.truncates p.todo ht hhead
  · exact fun hmade => hmade.2 (h ▸ List.mem_cons_self)

variable {missing : Prop}

theorem HasFiles.enter (hc : Careful daemon) (h : HasFiles missing w) {pid : ℕ} {role : Role} {port : ℕ}
    (ht : w.enter daemon pid role port = some t) : HasFiles missing t := by
  obtain ⟨hshared, -, -, -, hprocs⟩ := enter_spec ht
  have hnew := not_holds_of_new hc pid role port
  have htails : role.program daemon ∈ (role.program daemon).tails := (List.mem_tails _ _).mpr (List.suffix_refl _)
  constructor
  · intro j q hq hup
    rw [hshared]
    obtain ⟨-, rfl⟩ | ⟨-, hq⟩ := hprocs j q hq
    · exact absurd (hup.holds hc htails) hnew
    · exact h.sock j q hq hup
  · intro j q hq hup
    rw [hshared]
    obtain ⟨-, rfl⟩ | ⟨-, hq⟩ := hprocs j q hq
    · exact absurd (hup.holds hc htails) hnew
    · exact h.pid j q hq hup

theorem HasFiles.leave (h : HasFiles missing w) (i : ℕ) : HasFiles missing (w.leave i) :=
  ⟨fun j q hq => h.sock j q (leave_procs hq).2, fun j q hq => h.pid j q (leave_procs hq).2⟩

theorem HasFiles.fails (h : HasFiles missing w) (hp : w.procs i = some p) :
    HasFiles missing (w.act i (w.shared.release i, { p with accepting := false })) := by
  constructor
  · intro j q hq hup
    obtain ⟨rfl, rfl⟩ | ⟨-, hq⟩ := act_procs hq
    · exact h.sock j p hp hup
    · exact h.sock j q hq hup
  · intro j q hq hup
    obtain ⟨rfl, rfl⟩ | ⟨-, hq⟩ := act_procs hq
    · exact h.pid j p hp hup
    · exact h.pid j q hq hup

/-- A step of another process changes a file of a daemon only where it is told below. -/
theorem HasFiles.perform (hc : Careful daemon) (hs : Sound daemon w) (h : HasFiles missing w)
    (hp : w.procs i = some p) (htodo : p.todo = instr :: rest)
    (hsock : instr = .removeSock → ok = true → missing ∨ ∀ j q, w.procs j = some q → ¬ q.SockUp)
    (hpid : instr = .removePid → ok = true → missing ∨ ∀ j q, w.procs j = some q → ¬ q.PidUp)
    (hbind : instr ∈ makers → missing → ∀ j q, w.procs j = some q → q.SockUp → j = i)
    (hwrite : instr ∈ makers → instr ∈ pidWriters → ok = true → ∀ j q, w.procs j = some q → q.PidUp → j = i) :
    HasFiles missing (w.act i (instr.perform w i p rest ok)) := by
  have htails : p.role = .daemon → p.todo ∈ daemon.tails := fun hrole => by
    have := hs.tails i p hp
    rwa [hrole] at this
  constructor
  · intro j q hq hup
    show (instr.perform w i p rest ok).1.sock = some j ∨ (missing ∧ (instr.perform w i p rest ok).1.sock = none)
    obtain ⟨rfl, rfl⟩ | ⟨hj, hold⟩ := act_procs hq
    · have hrole := hup.1
      rw [perform_role] at hrole
      obtain hnew | ⟨hbefore, hsame⟩ := sockUp_perform hc (htails hrole) htodo hup
      · exact .inl hnew
      · rw [hsame]
        exact h.sock j p hp hbefore
    · obtain hsame | ⟨rfl, rfl, hnone⟩ | ⟨guarded, rfl, -, hfree⟩ := perform_sock w i p instr rest ok
      · rw [hsame]
        exact h.sock j q hold hup
      · rw [hnone]
        exact .inr ⟨(hsock rfl rfl).resolve_right fun hall => hall j q hold hup, rfl⟩
      · obtain hown | ⟨hmissing, -⟩ := h.sock j q hold hup
        · rw [hfree] at hown
          cases hown
        · exact absurd (hbind (by cases guarded <;> decide) hmissing j q hold hup) hj
  · intro j q hq hup
    show (instr.perform w i p rest ok).1.pidFile = some (pidLine q.pid) ∨
      (missing ∧ (instr.perform w i p rest ok).1.pidFile = none)
    obtain ⟨rfl, rfl⟩ | ⟨hj, hold⟩ := act_procs hq
    · have hrole := hup.1
      rw [perform_role] at hrole
      rw [perform_pid]
      obtain hnew | ⟨hbefore, hsame⟩ := pidUp_perform hc (htails hrole) htodo hup
      · exact .inl hnew
      · rw [hsame]
        exact h.pid j p hp hbefore
    · obtain hsame | ⟨rfl, rfl, hnone⟩ | ⟨hmaker, hok⟩ := perform_pidFile w i p instr rest ok
      · rw [hsame]
        exact h.pid j q hold hup
      · rw [hnone]
        exact .inr ⟨(hpid rfl rfl).resolve_right fun hall => hall j q hold hup, rfl⟩
      · have hmade : instr ∈ makers ∧ instr ∈ pidWriters := by obtain rfl | rfl := hmaker <;> decide
        exact absurd (hwrite hmade.1 hmade.2 hok j q hold hup) hj

/-- The port keeps the files of daemons apart, and a run that spares them keeps them. -/
theorem HasFiles.step (port : ℕ) (hc : Careful daemon) (hs : Sound daemon w) (h : HasFiles missing w) {e : Event}
    (hm : (missing ∧ Listening port w) ∨ (¬ missing ∧ Spares w e)) (ht : w.step daemon e = some t) :
    HasFiles missing t := by
  cases stepped ht with
  | enter ht => exact h.enter hc ht
  | leave _ => exact h.leave _
  | fails hp => exact h.fails hp
  | spawn hp htodo ht =>
    refine (h.perform hc hs hp htodo ?_ ?_ ?_ ?_).enter hc ht
    · exact fun hx => by cases hx
    · exact fun hx => by cases hx
    · exact fun hx => absurd hx (by decide)
    · exact fun hx => absurd hx (by decide)
  | @act i p instr rest ok child hp htodo _ =>
    have htaken : ok = true → w.taken (.op i ok child) = some instr := by
      rintro rfl
      exact taken_op hp htodo child
    obtain ⟨hmissing, hport⟩ | ⟨hnot, hspares⟩ := hm
    · refine h.perform hc hs hp htodo (fun _ _ => .inl hmissing) (fun _ _ => .inl hmissing) ?_ ?_
      · exact fun hmaker _ j q hq hup =>
          hport.alone hq hp (hup.holds hc (hs.tails j q hq)) (hs.maker hc hp htodo hmaker)
      · exact fun hmaker _ _ j q hq hup =>
          hport.alone hq hp (hup.holds hc (hs.tails j q hq)) (hs.maker hc hp htodo hmaker)
    · refine h.perform hc hs hp htodo (fun hi hok => .inr ?_) (fun hi hok => .inr ?_)
        (fun _ hmissing => absurd hmissing hnot) fun _ hwriter hok j q hq hup => ?_
      · exact fun j q hq => hspares.sock (hi ▸ htaken hok) j (hs.fresh j q hq) q hq
      · exact fun j q hq => hspares.pid instr (htaken hok) (hi ▸ by decide) j (hs.fresh j q hq) q hq
      · exact absurd hup (hspares.pid instr (htaken hok) hwriter j (hs.fresh j q hq) q hq)

/-- The steps of a cleanup that come after its look at the pid file. -/
def cleaners : List Instr := [.skipIfAlive, .removeSock, .removePid]

/-- It has looked at the pid file, and may remove the files. -/
def Proc.Cleaning (p : Proc) : Prop := ¬ p.Holds ∧ ∃ instr ∈ p.todo.head?, instr ∈ cleaners

/-- It has taken the port, and has not made both its files yet. -/
def Proc.Starting (p : Proc) : Prop := p.Holds ∧ .serve ∈ p.todo ∧ ¬ (p.SockUp ∧ p.PidUp)

instance (p : Proc) : Decidable p.Cleaning := inferInstanceAs (Decidable (_ ∧ _))
instance (p : Proc) : Decidable p.Starting := inferInstanceAs (Decidable (_ ∧ _))

/-- What the process whose turn it is has to do. -/
def World.turn (w : World) : Event → List Instr
  | .op i _ _ => ((w.procs i).map Proc.todo).getD []
  | _ => []

/-- No cleanup overlaps the start of a daemon, and none is refused to read the pid file. -/
structure Orderly (w : World) (e : Event) : Prop where
  read : (w.turn e).take 2 = [.readPid, .skipIfAlive] → w.taken e = some .readPid
  look : (w.turn e).take 2 = [.readPid, .skipIfAlive] → ∀ i < w.next, ∀ p ∈ w.procs i, ¬ p.Starting
  bind : (w.turn e).head? = some .bindTcp → ∀ i < w.next, ∀ p ∈ w.procs i, ¬ p.Cleaning

/-- Where the cleanups of a program stand. -/
structure Tidy (program : List Instr) : Prop where
  begins : ∀ instr ∈ program.head?, instr ∉ cleaners
  comes : ∀ t ∈ program.tails, ∀ instr ∈ t.tail.head?, instr ∈ cleaners →
    (.bindTcp ∈ program ∧ .bindTcp ∉ t) ∨
      t.take 2 ∈ [[.readPid, .skipIfAlive], [.skipIfAlive, .removeSock], [.removeSock, .removePid]]
  skips : ∀ t ∈ program.tails, t.head? = some .skipIfAlive → ∀ instr ∈ (t.drop 3).head?, instr ∉ cleaners
  dead : ∀ t ∈ program.tails, t.head? = some .skipIfDead → ∀ instr ∈ (t.drop 3).head?, instr ∉ cleaners

theorem runAgent_tidy : Tidy runAgent := by
  constructor <;> decide

theorem runServer_tidy : Tidy runServer := by
  constructor <;> decide

theorem program_tidy (hd : Tidy daemon) (role : Role) : Tidy (role.program daemon) := by
  have hstart : Tidy start := by constructor <;> decide
  have hstop : Tidy stop := by constructor <;> decide
  have hother : Tidy [.other] := by constructor <;> decide
  cases role with
  | daemon => exact hd
  | start => exact hstart
  | stop => exact hstop
  | other => exact hother

theorem daemon_of_bindTcp {role : Role} (h : .bindTcp ∈ role.program daemon) : role = .daemon := by
  have hstart : .bindTcp ∉ start := by decide
  have hstop : .bindTcp ∉ stop := by decide
  cases role with
  | daemon => rfl
  | start => exact absurd h hstart
  | stop => exact absurd h hstop
  | other => exact absurd (List.mem_singleton.mp h) (by decide)

/-- Who has the port keeps it with all steps but the last. -/
theorem holds_perform_of (h : p.todo = instr :: rest) (hp : p.Holds)
    (hne : (instr.perform w i p rest ok).2.todo ≠ []) : (instr.perform w i p rest ok).2.Holds :=
  ⟨(perform_role _ _ _ _ _ _).trans hp.1, hne, fun hmem => hp.2.2 ((perform_todo _ _ _ h).subset hmem)⟩

/-- How a process comes to clean up, or goes on with it. -/
theorem cleaning_perform (hd : Tidy daemon) (ht : p.todo ∈ (p.role.program daemon).tails)
    (h : p.todo = instr :: rest) (hmaker : instr ∈ makers → p.Holds)
    (hclean : (instr.perform w i p rest ok).2.Cleaning) :
    (p.todo.take 2 = [.readPid, .skipIfAlive] ∧ (instr.perform w i p rest ok).2.todo.head? = some .skipIfAlive ∧
      (instr.perform w i p rest ok).2.seen = if ok then w.shared.readPid else none) ∨
    (p.Cleaning ∧ (instr = .skipIfAlive → w.seenAlive p = false)) := by
  have htidy := program_tidy hd p.role
  obtain ⟨hfree, c, hhead, hcleaner⟩ := hclean
  have hne : (instr.perform w i p rest ok).2.todo ≠ [] := by
    intro hnil
    rw [hnil] at hhead
    cases hhead
  have hfree' : ¬ p.Holds := fun hp => hfree (holds_perform_of h hp hne)
  have hcleaning : instr ∈ cleaners → p.Cleaning := fun hin => ⟨hfree', instr, by rw [h]; rfl, hin⟩
  obtain ⟨hnext, hdead⟩ | hnext | ⟨hskip, hnext⟩ | ⟨rfl, hnext⟩ | ⟨hwaits, hnext⟩ :=
    perform_next w i ok h
  · rw [hnext] at hhead
    have hcomes := htidy.comes p.todo ht c (by rw [h]; exact hhead) hcleaner
    obtain ⟨hbind, htcp⟩ | htake := hcomes
    · refine absurd ⟨daemon_of_bindTcp hbind, ?_, htcp⟩ hfree'
      rw [h]
      exact List.cons_ne_nil _ _
    · rw [h] at htake ⊢
      cases rest with
      | nil => cases hhead
      | cons next rest =>
        rw [hnext]
        simp only [List.take_succ_cons, List.take_zero, List.mem_cons, List.cons.injEq, and_true, List.not_mem_nil,
          or_false] at htake ⊢
        obtain ⟨rfl, rfl⟩ | ⟨rfl, rfl⟩ | ⟨rfl, rfl⟩ := htake
        · exact .inl ⟨⟨rfl, rfl⟩, rfl, rfl⟩
        · exact .inr ⟨hcleaning (by decide), hdead⟩
        · exact .inr ⟨hcleaning (by decide), hdead⟩
  · exact absurd hnext hne
  · rw [hnext] at hhead
    obtain rfl | rfl := hskip
    · exact absurd hcleaner (htidy.skips p.todo ht (by rw [h]; rfl) c (by rw [h]; exact hhead))
    · exact absurd hcleaner (htidy.dead p.todo ht (by rw [h]; rfl) c (by rw [h]; exact hhead))
  · exact absurd (hmaker (by decide)) hfree'
  · rw [hnext] at hhead
    obtain rfl := Option.some.inj hhead
    simp only [List.mem_cons, List.not_mem_nil, or_false] at hwaits
    obtain rfl | rfl | rfl := hwaits <;> exact absurd hcleaner (by decide)

/-- A cleanup that is under way finds the daemon alive that is serving. -/
def Undisturbed (w : World) : Prop :=
  ∀ i p, w.procs i = some p → p.Cleaning → ∀ j q, w.procs j = some q → q.Holds → .serve ∈ q.todo →
    (q.SockUp ∧ q.PidUp) ∧ p.todo.head? = some .skipIfAlive ∧ p.seen = some q.pid

theorem Undisturbed.enter (hc : Careful daemon) (hd : Tidy daemon) (h : Undisturbed w) {pid : ℕ} {role : Role}
    {port : ℕ} (ht : w.enter daemon pid role port = some t) : Undisturbed t := by
  obtain ⟨-, -, -, -, hprocs⟩ := enter_spec ht
  intro j q hq hclean k r hr hholds hserve
  obtain ⟨-, rfl⟩ | ⟨-, hq⟩ := hprocs j q hq
  · obtain ⟨-, instr, hhead, hin⟩ := hclean
    exact absurd hin ((program_tidy hd role).begins instr hhead)
  · obtain ⟨-, rfl⟩ | ⟨-, hr⟩ := hprocs k r hr
    · exact absurd hholds (not_holds_of_new hc pid role port)
    · exact h j q hq hclean k r hr hholds hserve

theorem Undisturbed.leave (h : Undisturbed w) (i : ℕ) : Undisturbed (w.leave i) :=
  fun j q hq hclean k r hr => h j q (leave_procs hq).2 hclean k r (leave_procs hr).2

theorem Undisturbed.act (hc : Careful daemon) (hd : Tidy daemon) (hs : Sound daemon w) (ho : Owned w)
    (h : Undisturbed w) (hp : w.procs i = some p) (htodo : p.todo = instr :: rest)
    (hread : p.todo.take 2 = [.readPid, .skipIfAlive] → ok = true)
    (hlook : p.todo.take 2 = [.readPid, .skipIfAlive] → ∀ j q, w.procs j = some q → ¬ q.Starting)
    (hbind : instr = .bindTcp → ∀ j q, w.procs j = some q → ¬ q.Cleaning) :
    Undisturbed (w.act i (instr.perform w i p rest ok)) := by
  intro j q hq hclean k r hr hholds hserve
  obtain ⟨rfl, rfl⟩ | ⟨-, hq'⟩ := act_procs hq
  · obtain ⟨-, rfl⟩ | ⟨-, hr'⟩ := act_procs hr
    · exact absurd hholds hclean.1
    obtain ⟨htake, hhead, hseen⟩ | ⟨hbefore, hdead⟩ :=
      cleaning_perform hd (hs.tails j p hp) htodo (hs.maker hc hp htodo) hclean
    · have hup : r.SockUp ∧ r.PidUp := by
        by_contra hnot
        exact hlook htake k r hr' ⟨hholds, hserve, hnot⟩
      refine ⟨hup, hhead, ?_⟩
      rw [hseen, if_pos (hread htake), Shared.readPid, ho.pid k r hr' hup.2]
      exact readPid_pidLine (hs.pids k r hr')
    · obtain ⟨-, hhead, hseen⟩ := h j p hp hbefore k r hr' hholds hserve
      rw [htodo] at hhead
      have halive := hs.alive hr'
      have hgone := hdead (Option.some.inj hhead)
      rw [World.seenAlive, hseen, Option.any_some, halive] at hgone
      cases hgone
  · obtain ⟨rfl, rfl⟩ | ⟨-, hr'⟩ := act_procs hr
    · have hrole := hholds.1
      rw [perform_role] at hrole
      have htails := hs.tails k p hp
      rw [hrole] at htails
      obtain hbefore | ⟨hbinds, -⟩ := holds_perform hc htails htodo hholds
      · have hsub := (perform_todo w k ok htodo).subset
        obtain ⟨⟨hsock, hpid⟩, hrest⟩ := h j q hq' hclean k p hp hbefore (hsub hserve)
        rw [perform_pid]
        exact ⟨⟨⟨(perform_role _ _ _ _ _ _).trans hrole, hserve, fun hm => hsock.2.2.1 (hsub hm),
          fun hm => hsock.2.2.2 (hsub hm)⟩,
          (perform_role _ _ _ _ _ _).trans hrole, hserve, fun hm => hpid.2.2 (hsub hm)⟩, hrest⟩
      · exact absurd hclean (hbind hbinds j q hq')
    · exact h j q hq' hclean k r hr' hholds hserve

theorem turn_op (hp : w.procs i = some p) (ok : Bool) (child : ℕ) : w.turn (.op i ok child) = p.todo := by
  show ((w.procs i).map Proc.todo).getD [] = p.todo
  rw [hp]
  rfl

theorem taken_eq {e : Event} (h : w.taken e = some instr) : ∃ i p, w.procs i = some p ∧ p.todo.head? = some instr := by
  cases e with
  | arrive pid role port => cases h
  | acceptFails i => cases h
  | gone i => cases h
  | op i ok child =>
    cases ok with
    | false => cases h
    | true =>
      obtain ⟨p, hp, hhead⟩ := Option.bind_eq_some_iff.mp h
      exact ⟨i, p, hp, hhead⟩

/-- In an orderly run nobody but a daemon changes its files. -/
theorem changer_is_holder (hc : Careful daemon) (hs : Sound daemon w) (hport : Listening port w)
    (h : Undisturbed w) {e : Event} (htaken : w.taken e = some instr)
    (hin : instr = .removeSock ∨ instr ∈ pidWriters) {j : ℕ} {q : Proc} (hq : w.procs j = some q)
    (hholds : q.Holds) (hserve : .serve ∈ q.todo) : q.todo.head? = some instr := by
  obtain ⟨i, p, hp, hhead⟩ := taken_eq htaken
  by_cases hheld : p.Holds
  · obtain rfl := hport.alone hp hq hheld hholds
    obtain rfl := Option.some.inj (hp.symm.trans hq)
    exact hhead
  · obtain ⟨rest, htodo⟩ := List.head?_eq_some_iff.mp hhead
    have hmaker : instr ∉ makers := fun hmaker => hheld (hs.maker hc hp htodo hmaker)
    have hclean : p.Cleaning := by
      refine ⟨hheld, instr, hhead, ?_⟩
      simp only [pidWriters, List.mem_cons, List.not_mem_nil, or_false] at hin
      obtain rfl | rfl | rfl | rfl := hin <;> first | decide | exact absurd (by decide) hmaker
    obtain ⟨-, hskip, -⟩ := h i p hp hclean j q hq hholds hserve
    obtain rfl := Option.some.inj (hhead.symm.trans hskip)
    simp [pidWriters] at hin

theorem spares_of_undisturbed (hc : Careful daemon) (hs : Sound daemon w) (hport : Listening port w)
    (h : Undisturbed w) (e : Event) : Spares w e := by
  have htails : ∀ {j q}, w.procs j = some q → q.role = .daemon → q.todo ∈ daemon.tails := fun hq hrole => by
    have := hs.tails _ _ hq
    rwa [hrole] at this
  constructor
  · intro htaken j _ q hq hup
    have hhead := changer_is_holder hc hs hport h htaken (.inl rfl) hq (hup.holds hc (hs.tails j q hq)) hup.2.1
    exact hc.removeSock q.todo (htails hq hup.1) hhead hup.2
  · intro instr htaken hin j _ q hq hup
    have hhead := changer_is_holder hc hs hport h htaken (.inr hin) hq (hup.holds hc (hs.tails j q hq)) hup.2.1
    obtain ⟨rest, htodo⟩ := List.head?_eq_some_iff.mp hhead
    exact not_pidMade hc (htails hq hup.1) htodo hin hup.2

theorem Undisturbed.fails (h : Undisturbed w) (hp : w.procs i = some p) {shared : Shared} :
    Undisturbed (w.act i (shared, { p with accepting := false })) := by
  have hbefore : ∀ {j q}, (w.act i (shared, { p with accepting := false })).procs j = some q →
      ∃ r, w.procs j = some r ∧ q.pid = r.pid ∧ q.role = r.role ∧ q.todo = r.todo ∧ q.seen = r.seen := by
    intro j q hq
    obtain ⟨rfl, rfl⟩ | ⟨-, hq⟩ := act_procs hq
    · exact ⟨p, hp, rfl, rfl, rfl, rfl⟩
    · exact ⟨q, hq, rfl, rfl, rfl, rfl⟩
  intro j q hq hclean k r hr hholds hserve
  obtain ⟨q', hq', -, hqrole, hqtodo, hqseen⟩ := hbefore hq
  obtain ⟨r', hr', hrpid, hrrole, hrtodo, -⟩ := hbefore hr
  simp only [Proc.Cleaning, Proc.Holds, hqrole, hqtodo] at hclean
  simp only [Proc.Holds, hrrole, hrtodo] at hholds
  have hkept := h j q' hq' hclean k r' hr' hholds (hrtodo ▸ hserve)
  simp only [Proc.SockUp, Proc.PidUp, hrrole, hrtodo, hqtodo, hqseen, hrpid]
  exact hkept

theorem Undisturbed.step (hc : Careful daemon) (hd : Tidy daemon) (hs : Sound daemon w) (ho : Owned w)
    (h : Undisturbed w) {e : Event} (horder : Orderly w e) (ht : w.step daemon e = some t) : Undisturbed t := by
  have hact : ∀ {i p instr rest ok child}, w.procs i = some p → p.todo = instr :: rest → e = .op i ok child →
      Undisturbed (w.act i (instr.perform w i p rest ok)) := by
    rintro i p instr rest ok child hp htodo rfl
    have hturn := turn_op hp ok child
    refine h.act hc hd hs ho hp htodo (fun htake => ?_) (fun htake j q hq => ?_) fun hbind j q hq => ?_
    · have htaken := horder.read (hturn ▸ htake)
      cases ok with
      | true => rfl
      | false => cases htaken
    · exact horder.look (hturn ▸ htake) j (hs.fresh j q hq) q hq
    · refine horder.bind ?_ j (hs.fresh j q hq) q hq
      rw [hturn, htodo, hbind]
      rfl
  cases stepped ht with
  | enter ht => exact h.enter hc hd ht
  | leave _ => exact h.leave _
  | fails hp => exact h.fails hp
  | act hp htodo _ => exact hact hp htodo rfl
  | spawn hp htodo ht => exact (hact hp htodo rfl).enter hc hd ht

end Step

/-! ## Runs -/

/-- What the port alone gives: there is one daemon, and a file that it has made is its own or missing. -/
structure Exclusive (w : World) : Prop where
  alone : ∀ i p j q, w.procs i = some p → w.procs j = some q → p.Holds → q.Holds → i = j
  sock : ∀ i p, w.procs i = some p → p.SockUp → w.shared.sock = some i ∨ w.shared.sock = none
  pid : ∀ i p, w.procs i = some p → p.PidUp →
    w.shared.pidFile = some (pidLine p.pid) ∨ w.shared.pidFile = none

section Run
variable {daemon : List Instr} {w t : World} {es : List Event}

/-- Nothing runs. Files of earlier daemons may be there. -/
def World.Quiet (w : World) : Prop := ∀ i, w.procs i = none

theorem sound_quiet (h : w.Quiet) : Sound daemon w := by
  have hnone : ∀ i p, w.procs i ≠ some p := fun i p hp => by simp [h i] at hp
  exact ⟨fun i p hp => absurd hp (hnone i p), fun i p hp => absurd hp (hnone i p),
    fun i _ p _ hp => absurd hp (hnone i p), fun i p hp => absurd hp (hnone i p)⟩

theorem listening_quiet (h : w.Quiet) (port : ℕ) : Listening port w :=
  ⟨fun i p hp => by simp [h i] at hp, fun i p hp => by simp [h i] at hp⟩

theorem hasFiles_quiet (h : w.Quiet) (missing : Prop) : HasFiles missing w :=
  ⟨fun i p hp => by simp [h i] at hp, fun i p hp => by simp [h i] at hp⟩

theorem undisturbed_quiet (h : w.Quiet) : Undisturbed w := fun i p hp => by simp [h i] at hp

/-- Both daemons, whatever else runs and in whatever order, as long as all have one port and accept on it. -/
theorem run_exclusive (hd : daemon = runAgent ∨ daemon = runServer) (hw : w.Quiet) (port : ℕ)
    (hport : ∀ e ∈ es, Event.OnPort port e) (hrun : exec (World.step daemon) w es = some t) : Exclusive t := by
  have hc : Careful daemon := by
    obtain rfl | rfl := hd
    · exact runAgent_careful
    · exact runServer_careful
  have hkept : Sound daemon t ∧ Listening port t ∧ HasFiles True t := by
    refine exec_guarded (I := fun w => Sound daemon w ∧ Listening port w ∧ HasFiles True w) ?_
      ⟨sound_quiet hw, listening_quiet hw port, hasFiles_quiet hw True⟩ (guarded_of_forall _ hport w) hrun
    rintro s e u ⟨hs, hl, hf⟩ he hstep
    exact ⟨hs.step hstep, hl.step hc hs he hstep, hf.step port hc hs (.inl ⟨trivial, hl⟩) hstep⟩
  obtain ⟨-, hl, hf⟩ := hkept
  constructor
  · exact fun i p j q hp hq hhp hhq => hl.alone hp hq hhp hhq
  · exact fun i p hp hup => (hf.sock i p hp hup).imp_right fun h => h.2
  · exact fun i p hp hup => (hf.pid i p hp hup).imp_right fun h => h.2

/-- Where all have one port, the files of a daemon are safe as long as nobody looks at the pid file, to clean up,
while a daemon is making its files or without being let to read it, and no daemon takes the port while something is
cleaned up. -/
theorem orderly_owned (hd : daemon = runAgent ∨ daemon = runServer) (hw : w.Quiet) (port : ℕ)
    (hport : ∀ e ∈ es, Event.OnPort port e) (horder : Guarded (World.step daemon) Orderly w es)
    (hrun : exec (World.step daemon) w es = some t) : Owned t := by
  have hc : Careful daemon ∧ Tidy daemon := by
    obtain rfl | rfl := hd
    · exact ⟨runAgent_careful, runAgent_tidy⟩
    · exact ⟨runServer_careful, runServer_tidy⟩
  have hstart : Sound daemon w ∧ Listening port w ∧ Owned w ∧ Undisturbed w :=
    ⟨sound_quiet hw, listening_quiet hw port, owned_iff_hasFiles.mpr (hasFiles_quiet hw False),
      undisturbed_quiet hw⟩
  refine (exec_guarded (I := fun w => Sound daemon w ∧ Listening port w ∧ Owned w ∧ Undisturbed w) ?_ hstart
    (horder.and _ (guarded_of_forall _ hport w)) hrun).2.2.1
  rintro s e u ⟨hs, hl, ho, h⟩ ⟨horder, he⟩ hstep
  have hspares := spares_of_undisturbed hc.1 hs hl h e
  exact ⟨hs.step hstep, hl.step hc.1 hs he hstep,
    owned_iff_hasFiles.mpr
      ((owned_iff_hasFiles.mp ho).step port hc.1 hs (.inr ⟨not_false, hspares⟩) hstep),
    h.step hc.1 hc.2 hs ho horder hstep⟩

end Run

/-! ### A crash, a start and a race -/

/-- The files that a daemon leaves behind when it crashes. -/
def crashed : World := ⟨fun _ => none, 1, ⟨fun _ => none, some 0, some (pidLine 41)⟩⟩

theorem crashed_quiet : crashed.Quiet := fun _ => rfl

def ops (i : ℕ) (n : ℕ) : List Event := List.replicate n (.op i true 43)

/-- A command cleans up and starts the daemon. Another one finds it running, and a third one stops it. -/
def startedRun : List Event :=
  .arrive 42 .start 43721 :: ops 1 7 ++ ops 2 9 ++ [.arrive 44 .start 43721] ++ ops 3 2 ++ ops 1 1 ++
    [.arrive 45 .stop 43721] ++ ops 4 3 ++ ops 2 3 ++ [.gone 2] ++ ops 4 5

/-- The same with the other daemon, which writes its pid first. -/
def racedServerRun : List Event :=
  .arrive 43 .daemon 43721 :: ops 1 2 ++ [.arrive 44 .start 43721] ++ ops 2 4 ++ ops 1 3 ++ ops 2 1

instance (w : World) (e : Event) : Decidable (Spares w e) :=
  decidable_of_iff (_ ∧ _) ⟨fun h => ⟨h.1, h.2⟩, fun h => ⟨h.sock, h.pid⟩⟩

instance (w : World) (e : Event) : Decidable (Orderly w e) :=
  decidable_of_iff (_ ∧ _ ∧ _) ⟨fun h => ⟨h.1, h.2.1, h.2.2⟩, fun h => ⟨h.read, h.look, h.bind⟩⟩

theorem startedRun_owned :
    (exec (World.step runAgent) crashed startedRun).isSome ∧
      ∀ t, exec (World.step runAgent) crashed startedRun = some t → Owned t :=
  ⟨by decide +kernel, fun _ ht =>
    orderly_owned (.inl rfl) crashed_quiet 43721 (by decide) (by decide +kernel) ht⟩

/-- The socket is gone, and nobody else has it. -/
theorem racedServer_exclusive :
    (exec (World.step runServer) crashed racedServerRun).map (fun t => t.shared.sock) = some none ∧
      ∀ t, exec (World.step runServer) crashed racedServerRun = some t → Exclusive t :=
  ⟨by decide +kernel, fun _ ht => run_exclusive (.inr rfl) crashed_quiet 43721 (by decide) ht⟩

end Lifecycle
end Zsync
