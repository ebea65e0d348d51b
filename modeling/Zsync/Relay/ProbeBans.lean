import Zsync.Model.Handshake

/-! # Bans that collection does not touch

`ProbeTracker` forgets entries whenever anybody asks about any address. `FailWindow` is what it keeps of one address when
it never forgets: an automaton that sees only the failures and successes of this address.

* `Follows` : the entry of an address, or that there is none any more, tells as much as the automaton.
* `isBanned_iff_window` : after any calls about any addresses, `is_banned` answers as the automaton does, as long as no
  address fails 2^32 times in one window. The counter is a `u32` and wraps there.
-/

namespace Zsync
set_option autoImplicit false
set_option maxHeartbeats 250000

/-! ## One address, without collection -/

inductive OwnCall
  | fail
  | ok
  deriving DecidableEq, Repr

structure FailWindow where
  start : Instant
  fails : ℕ
  bannedUntil : Option Instant
  deriving DecidableEq, Repr

namespace FailWindow

/-- The ban lasts until `t`, exclusively. -/
def lasts (now : Instant) (bannedUntil : Option Instant) : Bool :=
  match bannedUntil with
  | some t => now < t
  | none => false

/-- A failure starts a window when there is none, or when it comes too late for the old one. -/
def opened (now : Instant) : Option FailWindow → FailWindow
  | none => ⟨now, 0, none⟩
  | some w => if probeWindow < now - w.start then { w with start := now, fails := 0 } else w

def counted (now : Instant) (w : FailWindow) : FailWindow :=
  { w with
    fails := w.fails + 1
    bannedUntil := if 8 ≤ w.fails + 1 then some (now + probeBan) else w.bannedUntil }

def step (w : Option FailWindow) : Instant × OwnCall → Option FailWindow
  | (now, .fail) => some (counted now (opened now w))
  | (_, .ok) => none

def after (w : Option FailWindow) (calls : List (Instant × OwnCall)) : Option FailWindow := calls.foldl step w

def banned (now : Instant) (w : Option FailWindow) : Bool := lasts now (w.bind FailWindow.bannedUntil)

/-- No window holds 2^32 failures. -/
def CountFits : Option FailWindow → List (Instant × OwnCall) → Prop
  | _, [] => True
  | w, c :: cs => (∀ v ∈ step w c, v.fails < 2 ^ 32) ∧ CountFits (step w c) cs

instance decidableCountFits : ∀ w cs, Decidable (CountFits w cs)
  | _, [] => inferInstanceAs (Decidable True)
  | w, c :: cs =>
    have := decidableCountFits (step w c) cs
    inferInstanceAs (Decidable ((∀ v ∈ step w c, v.fails < 2 ^ 32) ∧ CountFits (step w c) cs))

end FailWindow

/-! ## Calls about any addresses -/

structure Probing where
  now : Instant
  probes : ProbeTracker

inductive ProbeEvent
  | tick (d : ℕ)
  | fail (ip : IpAddr)
  | ok (ip : IpAddr)
  /-- `pause` is the time between the two readings of the clock. -/
  | isBanned (ip : IpAddr) (pause : ℕ)
  deriving DecidableEq, Repr

namespace Probing

def start (now : Instant) : Probing := ⟨now, ProbeTracker.new⟩

def step (s : Probing) : ProbeEvent → Probing
  | .tick d => { s with now := s.now + d }
  | .fail ip => { s with probes := s.probes.fail s.now ip }
  | .ok ip => { s with probes := s.probes.ok ip }
  | .isBanned ip pause => ⟨s.now + pause, (s.probes.isBanned s.now (s.now + pause) ip).2⟩

def run (s : Probing) (es : List ProbeEvent) : Probing := es.foldl step s

/-- The answer to an `is_banned` that comes next. -/
def answer (s : Probing) (ip : IpAddr) (pause : ℕ) : Bool := (s.probes.isBanned s.now (s.now + pause) ip).1

end Probing

/-- The failures and successes of one address, each with its time. -/
def ownCalls (ip : IpAddr) : Instant → List ProbeEvent → List (Instant × OwnCall)
  | _, [] => []
  | now, .tick d :: es => ownCalls ip (now + d) es
  | now, .fail who :: es => if who = ip then (now, .fail) :: ownCalls ip now es else ownCalls ip now es
  | now, .ok who :: es => if who = ip then (now, .ok) :: ownCalls ip now es else ownCalls ip now es
  | now, .isBanned _ pause :: es => ownCalls ip (now + pause) es

/-! ## The entry follows the automaton -/

open FailWindow

theorem lasts_later {now later : Instant} (hle : now ≤ later) {b : Option Instant} (h : lasts now b = false) :
    lasts later b = false := by
  cases b with
  | none => rfl
  | some t =>
    have ht := of_decide_eq_false h
    exact decide_eq_false (Nat.not_lt.mpr (Nat.le_trans (Nat.not_lt.mp ht) hle))

/-- The bans end at the same time, or are over. -/
def SameBan (now : Instant) (b b' : Option Instant) : Prop :=
  b = b' ∨ lasts now b = false ∧ lasts now b' = false

theorem SameBan.later {now later : Instant} (hle : now ≤ later) {b b' : Option Instant} (h : SameBan now b b') :
    SameBan later b b' :=
  h.imp_right fun ⟨h, h'⟩ => ⟨lasts_later hle h, lasts_later hle h'⟩

theorem SameBan.lasts {now : Instant} {b b' : Option Instant} (h : SameBan now b b') :
    FailWindow.lasts now b = FailWindow.lasts now b' := by
  obtain rfl | ⟨h, h'⟩ := h
  · rfl
  · rw [h, h']

def Follows (now : Instant) : Option ProbeState → Option FailWindow → Prop
  | none, none => True
  -- The entry was collected: the next failure opens a window, and no ban is left.
  | none, some w => probeWindow < now - w.start ∧ lasts now w.bannedUntil = false
  | some s, some w => s.fails.toNat = w.fails ∧ s.window = w.start ∧ SameBan now s.bannedUntil w.bannedUntil
  | some _, none => False

variable {now : Instant} {s : Option ProbeState} {w : Option FailWindow}

theorem Follows.later {later : Instant} (hle : now ≤ later) (h : Follows now s w) : Follows later s w := by
  cases s with
  | none =>
    cases w with
    | none => trivial
    | some w => exact ⟨Nat.lt_of_lt_of_le h.1 (Nat.sub_le_sub_right hle w.start), lasts_later hle h.2⟩
  | some s =>
    cases w with
    | none => exact h
    | some w => exact ⟨h.1, h.2.1, h.2.2.later hle⟩

theorem Follows.gc (h : Follows now s w) :
    Follows now (s.filter fun s => ProbeTracker.banned now s || decide (now - s.window ≤ probeWindow)) w := by
  cases s with
  | none => exact h
  | some s =>
    cases w with
    | none => exact h.elim
    | some w =>
      rw [Option.filter_some]
      split_ifs with hkept
      · exact h
      · obtain ⟨_, hwindow, hban⟩ := h
        rw [Bool.not_eq_true, Bool.or_eq_false_iff] at hkept
        have hold := of_decide_eq_false hkept.2
        rw [hwindow] at hold
        refine ⟨Nat.lt_of_not_le hold, ?_⟩
        rw [← hban.lasts]
        exact hkept.1

/-- The answer of `is_banned`, once it has collected. -/
theorem Follows.answer (h : Follows now s w) :
    lasts now (s.bind ProbeState.bannedUntil) = FailWindow.banned now w := by
  cases s with
  | none =>
    cases w with
    | none => rfl
    | some w => exact h.2.symm
  | some s =>
    cases w with
    | none => exact h.elim
    | some w => exact h.2.2.lasts

/-- The entry that `fail` counts the failure in. -/
def reopened (now : Instant) (s : Option ProbeState) : ProbeState :=
  let s := s.getD ⟨0, now, none⟩
  if probeWindow < now - s.window then { s with fails := 0, window := now } else s

/-- What `fail` makes of an entry. -/
def failed (now : Instant) (s : Option ProbeState) : ProbeState :=
  let s := { reopened now s with fails := (reopened now s).fails + 1 }
  if probeMaxFails ≤ s.fails then { s with bannedUntil := some (now + probeBan) } else s

theorem fail_inner (p : ProbeTracker) (now : Instant) (ip : IpAddr) :
    (p.fail now ip).inner = Function.update p.inner ip (some (failed now (p.inner ip))) := rfl

/-- One more failure, in a window that both have open. -/
theorem follows_counted {s : ProbeState} {w : FailWindow} (h : Follows now (some s) (some w))
    (hfits : w.fails + 1 < 2 ^ 32) :
    Follows now
      (some (if probeMaxFails ≤ s.fails + 1 then ⟨s.fails + 1, s.window, some (now + probeBan)⟩
        else ⟨s.fails + 1, s.window, s.bannedUntil⟩))
      (some (counted now w)) := by
  obtain ⟨hfails, hwindow, hban⟩ := h
  have hcount : (s.fails + 1).toNat = w.fails + 1 := by
    rw [UInt32.toNat_add, hfails]
    exact Nat.mod_eq_of_lt hfits
  have hmax : probeMaxFails ≤ s.fails + 1 ↔ 8 ≤ w.fails + 1 := by
    rw [UInt32.le_iff_toNat_le, hcount]
    rfl
  unfold counted
  split_ifs with hle hle' hle'
  · exact ⟨hcount, hwindow, .inl rfl⟩
  · exact absurd (hmax.mp hle) hle'
  · exact absurd (hmax.mpr hle') hle
  · exact ⟨hcount, hwindow, hban⟩

theorem Follows.opened (h : Follows now s w) : Follows now (some (reopened now s)) (some (FailWindow.opened now w)) := by
  unfold reopened FailWindow.opened
  cases s with
  | none =>
    have hnow : ¬ probeWindow < now - now := by
      rw [Nat.sub_self]
      exact Nat.not_lt_zero _
    dsimp only [Option.getD_none]
    rw [if_neg hnow]
    cases w with
    | none => exact ⟨rfl, rfl, .inl rfl⟩
    | some w =>
      dsimp only
      rw [if_pos h.1]
      exact ⟨rfl, rfl, .inr ⟨rfl, h.2⟩⟩
  | some s =>
    cases w with
    | none => exact h.elim
    | some w =>
      obtain ⟨hfails, hwindow, hban⟩ := h
      dsimp only [Option.getD_some]
      rw [hwindow]
      split_ifs
      · exact ⟨rfl, rfl, hban⟩
      · exact ⟨hfails, hwindow, hban⟩

theorem Follows.fail (h : Follows now s w) (hfits : ∀ v ∈ FailWindow.step w (now, .fail), v.fails < 2 ^ 32) :
    Follows now (some (failed now s)) (FailWindow.step w (now, .fail)) :=
  follows_counted h.opened (hfits _ rfl)

/-! ## Runs -/

namespace Probing

/-- Every entry follows its automaton. -/
theorem follows_run (ip : IpAddr) (s : Probing) (w : Option FailWindow) (es : List ProbeEvent)
    (h : Follows s.now (s.probes.inner ip) w) (hfits : CountFits w (ownCalls ip s.now es)) :
    Follows (s.run es).now ((s.run es).probes.inner ip) (after w (ownCalls ip s.now es)) := by
  induction es generalizing s w with
  | nil => exact h
  | cons e es ih =>
    cases e with
    | tick d => exact ih (s.step (.tick d)) w (h.later (Nat.le_add_right _ _)) hfits
    | isBanned who pause =>
      exact ih (s.step (.isBanned who pause)) w (h.gc.later (Nat.le_add_right _ _)) hfits
    | fail who =>
      have hown : ownCalls ip s.now (.fail who :: es) =
          if who = ip then (s.now, .fail) :: ownCalls ip s.now es else ownCalls ip s.now es := rfl
      rw [hown] at hfits ⊢
      by_cases hwho : who = ip
      · subst hwho
        rw [if_pos rfl] at hfits ⊢
        refine ih (s.step (.fail who)) _ ?_ hfits.2
        have hself : ((s.step (.fail who)).probes.inner who) = some (failed s.now (s.probes.inner who)) :=
          Function.update_self ..
        rw [hself]
        exact h.fail hfits.1
      · rw [if_neg hwho] at hfits ⊢
        refine ih (s.step (.fail who)) w ?_ hfits
        have hother : (s.step (.fail who)).probes.inner ip = s.probes.inner ip :=
          Function.update_of_ne (Ne.symm hwho) ..
        rw [hother]
        exact h
    | ok who =>
      have hown : ownCalls ip s.now (.ok who :: es) =
          if who = ip then (s.now, .ok) :: ownCalls ip s.now es else ownCalls ip s.now es := rfl
      rw [hown] at hfits ⊢
      by_cases hwho : who = ip
      · subst hwho
        rw [if_pos rfl] at hfits ⊢
        refine ih (s.step (.ok who)) none ?_ hfits.2
        have hself : (s.step (.ok who)).probes.inner who = none := Function.update_self ..
        rw [hself]
        trivial
      · rw [if_neg hwho] at hfits ⊢
        refine ih (s.step (.ok who)) w ?_ hfits
        have hother : (s.step (.ok who)).probes.inner ip = s.probes.inner ip :=
          Function.update_of_ne (Ne.symm hwho) ..
        rw [hother]
        exact h

theorem answer_eq (s : Probing) (ip : IpAddr) (pause : ℕ) :
    s.answer ip pause = lasts (s.now + pause) (((s.probes.gc s.now).inner ip).bind ProbeState.bannedUntil) := by
  unfold answer ProbeTracker.isBanned
  dsimp only
  cases (s.probes.gc s.now).inner ip with
  | none => rfl
  | some s => rfl

theorem answer_follows {s : Probing} {ip : IpAddr} {w : Option FailWindow}
    (h : Follows s.now (s.probes.inner ip) w) (pause : ℕ) :
    s.answer ip pause = FailWindow.banned (s.now + pause) w := by
  rw [answer_eq]
  exact (h.gc.later (Nat.le_add_right s.now pause)).answer

/-- `is_banned` answers as the automaton that sees only the calls for this address and forgets nothing. -/
theorem isBanned_iff_window (t : Instant) (es : List ProbeEvent) (ip : IpAddr) (pause : ℕ)
    (h : CountFits none (ownCalls ip t es)) :
    ((start t).run es).answer ip pause =
      FailWindow.banned (((start t).run es).now + pause) (after none (ownCalls ip t es)) :=
  answer_follows (follows_run ip (start t) none es trivial h) pause

theorem isBanned_window_eight :
    ((start 0).run (List.replicate 8 (.fail "203.0.113.9"))).answer "203.0.113.9" 5 = true :=
  (isBanned_iff_window 0 (List.replicate 8 (.fail "203.0.113.9")) "203.0.113.9" 5 (by decide)).trans (by decide)

/-! ### The counter wraps -/

section Wrapping
variable (t : Instant) (ip : IpAddr)

theorem ownCalls_fails (n : ℕ) (es : List ProbeEvent) :
    ownCalls ip t (List.replicate n (.fail ip) ++ es) = List.replicate n (t, .fail) ++ ownCalls ip t es := by
  induction n with
  | zero => rfl
  | succ n ih =>
    rw [List.replicate_succ, List.replicate_succ, List.cons_append, List.cons_append, ownCalls, if_pos rfl, ih]

theorem opened_now (w : FailWindow) (h : w.start = t) : opened t (some w) = w := by
  have hnow : ¬ probeWindow < t - w.start := by
    rw [h, Nat.sub_self]
    exact Nat.not_lt_zero _
  rw [opened, if_neg hnow]

theorem countable_fails {w : FailWindow} (hw : w.start = t) {n : ℕ} (h : w.fails + n < 2 ^ 32) :
    CountFits (some w) (List.replicate n (t, .fail)) := by
  induction n generalizing w with
  | zero => trivial
  | succ n ih =>
    rw [List.replicate_succ, CountFits, FailWindow.step, opened_now t w hw]
    refine ⟨fun v hv => ?_, ih (w := counted t w) hw ?_⟩
    · obtain rfl := Option.some.inj hv
      change w.fails + 1 < 2 ^ 32
      omega
    · change w.fails + 1 + n < 2 ^ 32
      omega

theorem after_fails {w : FailWindow} (hw : w.start = t) (n : ℕ) :
    after (some w) (List.replicate (n + 1) (t, .fail)) =
      some ⟨t, w.fails + (n + 1), if 8 ≤ w.fails + (n + 1) then some (t + probeBan) else w.bannedUntil⟩ := by
  induction n with
  | zero =>
    change FailWindow.step (some w) (t, .fail) = _
    rw [FailWindow.step, opened_now t w hw, counted, hw]
  | succ n ih =>
    rw [List.replicate_succ', after, List.foldl_append]
    rw [after] at ih
    rw [ih]
    change FailWindow.step _ (t, .fail) = _
    rw [FailWindow.step, opened_now t _ rfl, counted, ← Nat.add_assoc w.fails (n + 1) 1]
    dsimp only
    split_ifs with hnext hold
    · rfl
    · exact absurd (Nat.le_succ_of_le hold) hnext
    · rfl

theorem now_fails (n : ℕ) : ((start t).run (List.replicate n (.fail ip))).now = t := by
  induction n with
  | zero => rfl
  | succ n ih =>
    rw [List.replicate_succ', run, List.foldl_append]
    exact ih

/-- After one failure and so many more at once the entry counts them all. -/
theorem entry_fails {n : ℕ} (h : 8 ≤ n + 2) (hfits : n + 2 < 2 ^ 32) :
    ∃ s : ProbeState, ((start t).run (List.replicate (n + 2) (.fail ip))).probes.inner ip = some s ∧
      s.fails.toNat = n + 2 ∧ s.window = t ∧ s.bannedUntil = some (t + probeBan) := by
  have hown : ownCalls ip t (List.replicate (n + 2) (.fail ip)) = List.replicate (n + 2) (t, .fail) := by
    have happ := ownCalls_fails t ip (n + 2) []
    rwa [List.append_nil, ownCalls, List.append_nil] at happ
  have hfirst : FailWindow.step none (t, .fail) = some ⟨t, 1, none⟩ := rfl
  have hcount : CountFits none (List.replicate (n + 2) (t, .fail)) := by
    rw [List.replicate_succ, CountFits, hfirst]
    refine ⟨fun v hv => ?_, countable_fails t rfl ?_⟩
    · obtain rfl := Option.some.inj hv
      change 1 < 2 ^ 32
      decide
    · change 1 + (n + 1) < 2 ^ 32
      omega
  have hafter : after none (List.replicate (n + 2) (t, .fail)) = some ⟨t, n + 2, some (t + probeBan)⟩ := by
    have hrest := after_fails t (w := ⟨t, 1, none⟩) rfl n
    dsimp only at hrest
    rw [List.replicate_succ, after, List.foldl_cons, hfirst]
    rw [after] at hrest
    rw [hrest, if_pos (by omega)]
    congr 2
    omega
  have hfollows := follows_run ip (start t) none (List.replicate (n + 2) (.fail ip)) trivial
    (by rw [start, hown]; exact hcount)
  rw [now_fails] at hfollows
  change Follows t _ (after none (ownCalls ip t _)) at hfollows
  rw [hown, hafter] at hfollows
  cases hentry : ((start t).run (List.replicate (n + 2) (.fail ip))).probes.inner ip with
  | none =>
    rw [hentry] at hfollows
    have hold := hfollows.1
    rw [Nat.sub_self] at hold
    exact absurd hold (Nat.not_lt_zero _)
  | some s =>
    rw [hentry] at hfollows
    obtain ⟨hfails, hwindow, hban⟩ := hfollows
    refine ⟨s, rfl, hfails, hwindow, hban.resolve_right fun hover => ?_⟩
    have hlasts : ¬ t < t + probeBan := of_decide_eq_false hover.2
    have hpos : 0 < probeBan := by decide
    exact hlasts (Nat.lt_add_of_pos_right hpos)

end Wrapping

/-- So many failures at once, one more a nanosecond later, and then what is left of the first ban. -/
def manyFails (n : ℕ) : List ProbeEvent :=
  List.replicate n (.fail "203.0.113.9") ++ [.tick 1, .fail "203.0.113.9", .tick (probeBan - 1)]

/-- At 2^32 the counter is zero again, and the last failure extends no ban. -/
theorem failed_wraps {s : ProbeState} (h : (s.fails + 1).toNat = 0) (hwindow : s.window = 0)
    (hban : s.bannedUntil = some (0 + probeBan)) : (failed 1 (some s)).bannedUntil = some probeBan := by
  have hopen : reopened 1 (some s) = s := by
    unfold reopened
    dsimp only [Option.getD_some]
    rw [hwindow, if_neg (by decide)]
  have hsmall : ¬ probeMaxFails ≤ s.fails + 1 := by
    rw [UInt32.le_iff_toNat_le, h]
    decide
  unfold failed
  rw [hopen]
  dsimp only
  rw [if_neg hsmall, hban, Nat.zero_add]

/-- Collection revives no ban. -/
theorem lasts_gc {p : ProbeTracker} {now : Instant} {ip : IpAddr}
    (h : lasts now ((p.inner ip).bind ProbeState.bannedUntil) = false) :
    lasts (now + 0) (((p.gc now).inner ip).bind ProbeState.bannedUntil) = false := by
  unfold ProbeTracker.gc
  cases hs : p.inner ip with
  | none =>
    dsimp only
    rw [hs]
    rfl
  | some s =>
    rw [hs] at h
    dsimp only
    rw [hs, Option.filter_some]
    split_ifs
    · exact h
    · rfl

theorem manyFails_run (n : ℕ) :
    ∃ many : Probing, (start 0).run (List.replicate n (.fail "203.0.113.9")) = many ∧ many.now = 0 ∧
      (start 0).run (manyFails n) = many.run [.tick 1, .fail "203.0.113.9", .tick (probeBan - 1)] := by
  refine ⟨_, rfl, now_fails 0 "203.0.113.9" n, ?_⟩
  rw [run, manyFails, List.foldl_append]
  rfl

theorem manyFails_now (n : ℕ) : ((start 0).run (manyFails n)).now = probeBan := by
  obtain ⟨many, _, hnow, hrun⟩ := manyFails_run n
  rw [hrun]
  change many.now + 1 + (probeBan - 1) = probeBan
  rw [hnow]
  decide

theorem manyFails_answer {n : ℕ} (hn : n + 2 + 1 = 2 ^ 32) :
    ((start 0).run (manyFails (n + 2))).answer "203.0.113.9" 0 = false := by
  obtain ⟨s, hs, hfails, hwindow, hban⟩ := entry_fails 0 "203.0.113.9" (n := n) (by omega) (by omega)
  have hzero : (s.fails + 1).toNat = 0 := by
    rw [UInt32.toNat_add, hfails]
    change (n + 2 + 1) % 2 ^ 32 = 0
    rw [hn]
    exact Nat.mod_self _
  have hlate := manyFails_now (n + 2)
  obtain ⟨many, hmany, hnow, hrun⟩ := manyFails_run (n + 2)
  rw [hmany] at hs
  have hinner : (many.run [.tick 1, .fail "203.0.113.9", .tick (probeBan - 1)]).probes.inner "203.0.113.9" =
      some (failed (many.now + 1) (many.probes.inner "203.0.113.9")) := by
    change (many.probes.fail (many.now + 1) "203.0.113.9").inner "203.0.113.9" = _
    rw [fail_inner, Function.update_self]
  rw [answer_eq, hlate, hrun]
  apply lasts_gc
  rw [hinner, hnow, hs, Option.bind_some, failed_wraps hzero hwindow hban]
  decide

theorem manyFails_banned {n : ℕ} (hn : n + 2 + 1 = 2 ^ 32) :
    FailWindow.banned probeBan (after none (ownCalls "203.0.113.9" 0 (manyFails (n + 2)))) = true := by
  have hfirst : FailWindow.step none (0, .fail) = some ⟨0, 1, none⟩ := rfl
  have hrest := after_fails 0 (w := ⟨0, 1, none⟩) rfl n
  rw [after] at hrest
  rw [manyFails, ownCalls_fails, after, List.foldl_append, List.replicate_succ, List.foldl_cons, hfirst, hrest]
  change FailWindow.banned probeBan (FailWindow.step (some ⟨0, 1 + (n + 1), _⟩) (1, .fail)) = true
  have hopen : ∀ b, opened 1 (some ⟨0, 1 + (n + 1), b⟩) = ⟨0, 1 + (n + 1), b⟩ := by
    intro b
    rw [opened]
    dsimp only
    rw [if_neg (by decide)]
  rw [FailWindow.step, hopen, counted, FailWindow.banned, Option.bind_some]
  dsimp only
  rw [if_pos (by omega)]
  decide

/-- With 2^32 failures in one window the relay unbans the address too early. -/
theorem manyFails_unbanned :
    ((start 0).run (manyFails (2 ^ 32 - 1))).answer "203.0.113.9" 0 ≠
      FailWindow.banned (((start 0).run (manyFails (2 ^ 32 - 1))).now + 0)
        (after none (ownCalls "203.0.113.9" 0 (manyFails (2 ^ 32 - 1)))) := by
  have hanswer := manyFails_answer (n := 4294967293) rfl
  have hbanned := manyFails_banned (n := 4294967293) rfl
  have hsize : 2 ^ 32 - 1 = 4294967293 + 2 := rfl
  rw [hsize, hanswer, manyFails_now, Nat.add_zero, hbanned]
  exact Bool.false_ne_true

end Probing
end Zsync
