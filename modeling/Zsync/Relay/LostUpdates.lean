import Mathlib.Data.List.Permutation
import Zsync.Foundations.Sequenced
import Zsync.Model.Commands
import Zsync.Relay.Admission

/-! # Admin commands that meet

Between loading `groups.json` and renaming a new version into its place, a command does not look at it again.

* `InOrder` : the file is what the commands that have reported success leave one after the other.
* `updates_kept` : in a run in which each rename moves what its own process wrote, over the file that the
  process has loaded, every state is like that.
-/

namespace Zsync
set_option autoImplicit false
set_option maxHeartbeats 250000
open Protocol Foundations Zsync.Group

section
variable [Sha256] [Base64] {file : GroupsFile}

/-- Each group is what the commands make of it, one after the other. A command about another group leaves it
as it is. -/
theorem replay_lists {want : String → Option GroupRec} {cs : List AdminCommand} {file' : GroupsFile}
    (h : Lists file want) (hrun : replay file cs = .ok file') :
    Lists file' fun id => cs.foldl (fun before c => c.on id before) (want id) := by
  induction cs generalizing file want with
  | nil =>
    obtain rfl := Except.ok.inj hrun
    exact h
  | cons c cs ih =>
    unfold replay at hrun
    rw [List.foldlM_cons] at hrun
    cases hc : c.run file with
    | error e =>
      rw [hc] at hrun
      cases hrun
    | ok next =>
      rw [hc] at hrun
      exact ih ((obeys h c).saved next hc) hrun

end

namespace GroupFiles

/-! ## The order of the renames -/

/-- The command of a process that has reported success. -/
def succeeded (s : GroupFiles) (i : ℕ) : Option AdminCommand :=
  match s.running i with
  | some ⟨c, .reported true⟩ => some c
  | _ => none

variable {s t : GroupFiles} {i : ℕ} {c : AdminCommand}

theorem succeeded_eq_some : s.succeeded i = some c ↔ s.running i = some ⟨c, .reported true⟩ := by
  unfold succeeded
  split
  · next c' hrunning =>
    rw [hrunning]
    simp
  · next hnone =>
    refine iff_of_false (by simp) fun hrunning => hnone c hrunning

/-- A process that is at work has not succeeded. -/
theorem succeeded_working {r : Running} (h : s.running i = some r) (hr : r.point ≠ .reported true) :
    s.succeeded i = none := by
  cases hc : s.succeeded i with
  | none => rfl
  | some c =>
    have hrunning := succeeded_eq_some.mp hc
    rw [h] at hrunning
    exact absurd (congrArg Running.point (Option.some.inj hrunning)) hr

theorem succeeded_update {r : Running} (hrun : t.running = Function.update s.running i (some r))
    {done : Option AdminCommand} (hr : ∀ c, done = some c ↔ r = ⟨c, .reported true⟩) :
    t.succeeded = Function.update s.succeeded i done := by
  funext j
  apply Option.ext
  intro c
  rw [succeeded_eq_some, hrun, Function.update_apply, Function.update_apply]
  split_ifs
  · rw [Option.some.injEq, ← hr c]
  · rw [succeeded_eq_some]

/-- The processes that have reported success, in an order in which their commands make the file. -/
def InOrder [Sha256] [Base64] (file : GroupsFile) (s : GroupFiles) (order : List (ℕ × AdminCommand)) : Prop :=
  Sequenced AdminCommand.run file (loadGroups s.groups) s.succeeded order

variable [Sha256] [Base64] {file : GroupsFile} {order : List (ℕ × AdminCommand)}

/-- Process `i` goes on and has not succeeded. -/
theorem InOrder.goes {r : Running} (h : InOrder file s order) (hi : s.succeeded i = none)
    (hr : r.point ≠ .reported true) (hrun : t.running = Function.update s.running i (some r))
    (hgroups : t.groups = s.groups) : InOrder file t order := by
  have hsame : t.succeeded = s.succeeded := by
    have hnot : ∀ c, none = some c ↔ r = ⟨c, .reported true⟩ := by
      intro c
      refine iff_of_false (by simp) ?_
      rintro rfl
      exact hr rfl
    rw [succeeded_update hrun hnot, ← hi, Function.update_eq_self]
  unfold InOrder
  rw [hsame, hgroups]
  exact h

theorem InOrder.succeeds (h : InOrder file s order) (hi : s.succeeded i = none)
    (hrun : t.running = Function.update s.running i (some ⟨c, .reported true⟩))
    (hgroups : c.run (loadGroups s.groups) = .ok (loadGroups t.groups)) :
    InOrder file t (order ++ [(i, c)]) := by
  have hdone : ∀ c', some c = some c' ↔ Running.mk c (.reported true) = ⟨c', .reported true⟩ := by
    intro c'
    simp
  unfold InOrder
  rw [succeeded_update hrun hdone]
  exact Sequenced.add h hi hgroups

/-! ## One step -/

omit [Sha256] [Base64] in
/-- A rename moves what its own process wrote, over the file that the process has loaded. -/
def undisturbed (s : GroupFiles) : CommandEvent → Bool
  | .rename i =>
    match s.running i with
    | some ⟨_, .renaming base file⟩ =>
      loadGroups s.groups = base && s.tmp.all fun d => d.text = .saved file
    | _ => true
  | _ => true

/-- What the process is going to save is what its command makes of the file it has loaded. -/
def Planned (r : Running) : Prop :=
  ∀ base saved, r.point = .writing base saved ∨ r.point = .renaming base saved →
    r.command.run base = .ok saved

structure Inv (file : GroupsFile) (s : GroupFiles) : Prop where
  planned : ∀ i r, s.running i = some r → Planned r
  serial : ∃ order, InOrder file s order

theorem planned_reported (c : AdminCommand) (ok : Bool) : Planned ⟨c, .reported ok⟩ := by
  rintro base saved (h | h) <;> cases h

/-- The processes that are not at work keep their plans. -/
theorem Inv.planned_update {r : Running} (h : Inv file s) (hplan : Planned r)
    (hrun : t.running = Function.update s.running i (some r)) : ∀ j r', t.running j = some r' → Planned r' := by
  intro j r' hj
  rw [hrun, Function.update_apply] at hj
  split_ifs at hj
  · rw [← Option.some.inj hj]
    exact hplan
  · exact h.planned j r' hj

/-- Process `i` goes on, and the file stays as it is. -/
theorem Inv.goes {r : Running} (h : Inv file s) (hi : s.succeeded i = none)
    (hr : r.point ≠ .reported true) (hplan : Planned r)
    (hrun : t.running = Function.update s.running i (some r)) (hgroups : t.groups = s.groups) :
    Inv file t := by
  obtain ⟨order, horder⟩ := h.serial
  exact ⟨h.planned_update hplan hrun, order, horder.goes hi hr hrun hgroups⟩

theorem Inv.load (h : Inv file s) (hi : s.running i = none) (c : AdminCommand) : Inv file (s.load i c) := by
  have hnot : s.succeeded i = none := by
    rw [succeeded, hi]
  unfold GroupFiles.load
  dsimp only
  cases hc : c.run (loadGroups s.groups) with
  | error e => exact h.goes hnot (by simp) (planned_reported c false) rfl rfl
  | ok saved =>
    have hplan : Planned ⟨c, .writing (loadGroups s.groups) saved⟩ := by
      rintro base saved' (hpoint | hpoint)
      · obtain ⟨rfl, rfl⟩ := CommandPoint.writing.inj hpoint
        exact hc
      · cases hpoint
    exact h.goes hnot (by simp) hplan rfl rfl

/-- The rename over the file that was loaded is one more command in the order. -/
theorem Inv.rename {base saved : GroupsFile} (h : Inv file s)
    (hi : s.running i = some ⟨c, .renaming base saved⟩) (hsafe : undisturbed s (.rename i) = true) :
    Inv file (s.rename i c) := by
  have hnot := succeeded_working hi (by simp)
  simp only [undisturbed, hi, Bool.and_eq_true, decide_eq_true_eq] at hsafe
  obtain ⟨hbase, htmp⟩ := hsafe
  unfold GroupFiles.rename
  cases hd : s.tmp with
  | none => exact h.goes hnot (by simp) (planned_reported c false) rfl rfl
  | some d =>
    obtain ⟨order, horder⟩ := h.serial
    have hload : loadGroups (some d) = saved := by
      obtain ⟨text, mtime⟩ := d
      rw [hd, Option.all_some, decide_eq_true_eq] at htmp
      obtain rfl : text = .saved saved := htmp
      rfl
    have hsaved : c.run (loadGroups s.groups) = .ok (loadGroups (some d)) := by
      rw [hbase, hload]
      exact h.planned i _ hi base saved (.inr rfl)
    exact ⟨h.planned_update (planned_reported c true) rfl, _, horder.succeeds hnot rfl hsaved⟩

theorem Inv.step {e : CommandEvent} (h : Inv file s) (hsafe : undisturbed s e = true)
    (hs : GroupFiles.step s e = some t) : Inv file t := by
  cases e with
  | load i c =>
    simp only [GroupFiles.step] at hs
    split_ifs at hs with hi
    obtain rfl := Option.some.inj hs
    exact h.load (Option.isNone_iff_eq_none.mp hi) c
  | write i mtime =>
    simp only [GroupFiles.step] at hs
    split at hs
    · next c base saved hi =>
      obtain rfl := Option.some.inj hs
      have hplan : Planned ⟨c, .renaming base saved⟩ := by
        rintro base' saved' (hpoint | hpoint)
        · cases hpoint
        · obtain ⟨rfl, rfl⟩ := CommandPoint.renaming.inj hpoint
          exact h.planned i _ hi base saved (.inl rfl)
      exact h.goes (succeeded_working hi (by simp)) (by simp) hplan rfl rfl
    · cases hs
  | failWrite i left =>
    simp only [GroupFiles.step] at hs
    split at hs
    · next c base saved hi =>
      obtain rfl := Option.some.inj hs
      exact h.goes (succeeded_working hi (by simp)) (by simp) (planned_reported c false) rfl rfl
    · cases hs
  | rename i =>
    simp only [GroupFiles.step] at hs
    split at hs
    · next c base saved hi =>
      obtain rfl := Option.some.inj hs
      exact h.rename hi hsafe
    · cases hs
  | failRename i =>
    simp only [GroupFiles.step] at hs
    split at hs
    · next c base saved hi =>
      obtain rfl := Option.some.inj hs
      exact h.goes (succeeded_working hi (by simp)) (by simp) (planned_reported c false) rfl rfl
    · cases hs

/-! ## Whole runs -/

/-- In a run in which no rename is disturbed, the file is at any time what the commands that have reported
success make of the first one, one after the other; and so is each group that the first file listed once. -/
theorem updates_kept {es : List CommandEvent} (hidle : ∀ i, s.running i = none)
    (hsafe : Guarded step (fun s e => undisturbed s e = true) s es) (hrun : exec step s es = some t) :
    ∃ order, InOrder (loadGroups s.groups) t order ∧
      ∀ want, Lists (loadGroups s.groups) want → Lists (loadGroups t.groups) fun id =>
        (order.map Prod.snd).foldl (fun before c => c.on id before) (want id) := by
  have hstart : Inv (loadGroups s.groups) s := by
    refine ⟨fun i r hr => ?_, [], Sequenced.start fun i => ?_⟩
    · rw [hidle i] at hr
      cases hr
    · rw [succeeded, hidle i]
  obtain ⟨order, h⟩ := (exec_guarded (fun _ _ _ h hsafe hs => Inv.step h hsafe hs) hstart hsafe hrun).serial
  exact ⟨order, h, fun want hwant => replay_lists hwant h.replayed⟩

/-- A step is of one process, and leaves the others where they are. -/
theorem step_others {e : CommandEvent} (hs : step s e = some t) (hi : e.process ≠ i) :
    t.running i = s.running i := by
  have hput : ∀ (j : ℕ) (r : Running), j ≠ i → (s.put j r).running i = s.running i :=
    fun j r hj => Function.update_of_ne (Ne.symm hj) _ _
  cases e with
  | load j c =>
    simp only [step] at hs
    split_ifs at hs
    obtain rfl := Option.some.inj hs
    unfold GroupFiles.load
    dsimp only
    split <;> exact hput j _ hi
  | write j mtime =>
    simp only [step] at hs
    split at hs
    · obtain rfl := Option.some.inj hs
      exact hput j _ hi
    · cases hs
  | failWrite j left =>
    simp only [step] at hs
    split at hs
    · obtain rfl := Option.some.inj hs
      exact hput j _ hi
    · cases hs
  | rename j =>
    simp only [step] at hs
    split at hs
    · obtain rfl := Option.some.inj hs
      unfold GroupFiles.rename
      split <;> exact hput j _ hi
    · cases hs
  | failRename j =>
    simp only [step] at hs
    split at hs
    · obtain rfl := Option.some.inj hs
      exact hput j _ hi
    · cases hs

theorem run_others {es : List CommandEvent} (hrun : exec step s es = some t)
    (hi : ∀ e ∈ es, e.process ≠ i) : t.running i = s.running i := by
  have hstep : ∀ u e v, u.running i = s.running i → e.process ≠ i → step u e = some v →
      v.running i = s.running i := fun u e v hu he hs => (step_others hs he).trans hu
  exact exec_guarded hstep rfl (guarded_of_forall step hi s) hrun

/-! ### A group is disabled while another one is created -/

omit [Sha256] [Base64] in
/-- `zeroGroup` is enabled. -/
def oneGroup : GroupFiles := ⟨saveGroups 1 ⟨[⟨zeroGroup, "", true⟩]⟩, none, fun _ => none⟩

omit [Sha256] [Base64] in
def disableOne : AdminCommand := .disable zeroGroup

omit [Sha256] [Base64] in
def createOther : AdminCommand := .create none (some "10.0.0.5") none 43721 (Vector.replicate 32 1)

omit [Sha256] [Base64] in
def oneByOne : List CommandEvent :=
  [.load 0 disableOne, .write 0 2, .rename 0, .load 1 createOther, .write 1 3, .rename 1]

omit [Sha256] [Base64] in
/-- The second command loads the file before the first one has renamed. -/
def atOnce : List CommandEvent :=
  [.load 0 disableOne, .load 1 createOther, .write 0 2, .rename 0, .write 1 3, .rename 1]

omit [Sha256] [Base64] in
theorem oneByOne_kept :
    letI := zeroSecretSha256
    letI := sampleBase64
    ∃ t order, exec step oneGroup oneByOne = some t ∧ InOrder (loadGroups oneGroup.groups) t order := by
  let _ := zeroSecretSha256
  let _ := sampleBase64
  have hsafe : Guarded step (fun s e => undisturbed s e = true) oneGroup oneByOne := by decide +kernel
  have hsome : (exec step oneGroup oneByOne).isSome = true := by decide +kernel
  obtain ⟨t, hrun⟩ := Option.isSome_iff_exists.mp hsome
  obtain ⟨order, h, -⟩ := updates_kept (fun _ => rfl) hsafe hrun
  exact ⟨t, order, hrun, h⟩

omit [Sha256] [Base64] in
/-- Both commands have reported success, and the group is enabled: that is so in no order. -/
theorem disable_lost :
    letI := zeroSecretSha256
    letI := sampleBase64
    ∃ t, exec step oneGroup atOnce = some t ∧ t.running 0 = some ⟨disableOne, .reported true⟩ ∧
      t.running 1 = some ⟨createOther, .reported true⟩ ∧
      ((loadGroups t.groups).groups.find? fun g => g.id = zeroGroup) = some ⟨zeroGroup, "", true⟩ ∧
      ∀ order, ¬ InOrder (loadGroups oneGroup.groups) t order := by
  let _ := zeroSecretSha256
  let _ := sampleBase64
  have hseen : (exec step oneGroup atOnce).map (fun t => (t.running 0, t.running 1, loadGroups t.groups)) =
      some (some ⟨disableOne, .reported true⟩, some ⟨createOther, .reported true⟩,
        ⟨[⟨zeroGroup, "", true⟩, ⟨"00000000000000000000000000000000", "", true⟩]⟩) := by decide +kernel
  obtain ⟨t, hrun, hseen⟩ := Option.map_eq_some_iff.mp hseen
  obtain ⟨h0, hseen⟩ := Prod.mk.inj hseen
  obtain ⟨h1, hgroups⟩ := Prod.mk.inj hseen
  refine ⟨t, hrun, h0, h1, ?_, fun order h => ?_⟩
  · rw [hgroups]
    decide +kernel
  · have hothers : ∀ i, i ≠ 0 → i ≠ 1 → t.running i = none := by
      intro i hi0 hi1
      refine run_others (s := oneGroup) hrun ?_
      simp [atOnce, CommandEvent.process, Ne.symm hi0, Ne.symm hi1]
    have hperm : order.Perm [(0, disableOne), (1, createOther)] := by
      refine Sequenced.perm h (by simp) fun i c => ?_
      rw [succeeded_eq_some]
      by_cases hi0 : i = 0
      · subst hi0
        simp [h0, eq_comm]
      · by_cases hi1 : i = 1
        · subst hi1
          simp [h1, eq_comm]
        · simp [hothers i hi0 hi1, hi0, hi1]
    have hreplayed := h.replayed
    rw [hgroups] at hreplayed
    obtain rfl | rfl := List.perm_pair.mp hperm
    · exact absurd (congrArg Except.toOption hreplayed) (by decide +kernel)
    · exact absurd (congrArg Except.toOption hreplayed) (by decide +kernel)

end GroupFiles
end Zsync
