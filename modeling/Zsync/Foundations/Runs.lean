import Mathlib.Tactic.Common
import Mathlib.Data.List.Basic

/-! # Runs of a partial step function

A system is a state type `σ`, an event type `ε` and `step : σ → ε → Option σ`, where `none` says
that the event is not enabled. Nothing here knows what the states are.

* `exec step s es` runs a list of events, and fails when one of them is not enabled.
* `Along step P s es` says that `P` holds in every state the run visits, the first and the last
  included.
* `Guarded step C s es` says that every step of the run meets the condition `C`, which looks at
  the state before the step and at the event.
* `exec_invariant` and `exec_guarded` are the induction rules; `along_iff_guarded` turns an exact
  condition on one step into an exact condition on whole runs.
* `exec_related` and `exec_observed` compare the runs of two systems on the same events.
* `recorded step note` also keeps a history, to which each step adds what `note` says of it.
-/

namespace Foundations
set_option autoImplicit false
set_option maxHeartbeats 250000

universe u v w
variable {σ : Type u} {ε : Type v} {η : Type w} (step : σ → ε → Option σ)

/-! ## Executions -/

def exec : σ → List ε → Option σ
  | s, [] => some s
  | s, e :: es => (step s e).bind fun t => exec t es

@[simp] theorem exec_nil (s : σ) : exec step s [] = some s := rfl

theorem exec_cons (s : σ) (e : ε) (es : List ε) :
    exec step s (e :: es) = (step s e).bind fun t => exec step t es := rfl

theorem exec_cons_of_step {s t : σ} {e : ε} (h : step s e = some t) (es : List ε) :
    exec step s (e :: es) = exec step t es := by
  rw [exec_cons, h, Option.bind_some]

theorem exec_cons_eq_some {s t : σ} {e : ε} {es : List ε}
    (h : exec step s (e :: es) = some t) : ∃ u, step s e = some u ∧ exec step u es = some t := by
  rw [exec_cons] at h
  exact Option.bind_eq_some_iff.mp h

theorem exec_append (s : σ) (es fs : List ε) :
    exec step s (es ++ fs) = (exec step s es).bind fun t => exec step t fs := by
  induction es generalizing s with
  | nil => simp
  | cons e es ih =>
    rw [List.cons_append, exec_cons, exec_cons]
    cases step s e with
    | none => rfl
    | some t => simpa using ih t

theorem exec_append_of {s t : σ} {es : List ε} (h : exec step s es = some t) (fs : List ε) :
    exec step s (es ++ fs) = exec step t fs := by
  rw [exec_append, h, Option.bind_some]

/-! ## Invariants of runs -/

/-- Every step of the run meets `C`. -/
def Guarded (C : σ → ε → Prop) : σ → List ε → Prop
  | _, [] => True
  | s, e :: es => C s e ∧ ∀ t, step s e = some t → Guarded C t es

/-- Every state of the run meets `P`. -/
def Along (P : σ → Prop) : σ → List ε → Prop
  | s, [] => P s
  | s, e :: es => P s ∧ ∀ t, step s e = some t → Along P t es

theorem guarded_append {C : σ → ε → Prop} {s t : σ} {es fs : List ε}
    (h : Guarded step C s (es ++ fs)) (hr : exec step s es = some t) :
    Guarded step C s es ∧ Guarded step C t fs := by
  induction es generalizing s with
  | nil =>
    obtain rfl := Option.some.inj hr
    exact ⟨trivial, h⟩
  | cons e es ih =>
    obtain ⟨u, hu, hr⟩ := exec_cons_eq_some step hr
    refine ⟨⟨h.1, fun t ht => ?_⟩, (ih (h.2 u hu) hr).2⟩
    obtain rfl := Option.some.inj (hu.symm.trans ht)
    exact (ih (h.2 _ hu) hr).1

theorem Guarded.append {C : σ → ε → Prop} {s : σ} {es fs : List ε} (h : Guarded step C s es)
    (hfs : ∀ t, exec step s es = some t → Guarded step C t fs) : Guarded step C s (es ++ fs) := by
  induction es generalizing s with
  | nil => exact hfs s rfl
  | cons e es ih =>
    exact ⟨h.1, fun u hu => ih (h.2 u hu) fun t ht => hfs t (by rw [exec_cons_of_step step hu, ht])⟩

theorem guarded_of_forall {p : ε → Prop} {es : List ε} (h : ∀ e ∈ es, p e) (s : σ) :
    Guarded step (fun _ => p) s es := by
  induction es generalizing s with
  | nil => exact trivial
  | cons e es ih =>
    obtain ⟨he, hes⟩ := List.forall_mem_cons.mp h
    exact ⟨he, fun t _ => ih hes t⟩

theorem guarded_of_always {C : σ → ε → Prop} (h : ∀ s e, C s e) (s : σ) (es : List ε) :
    Guarded step C s es := by
  induction es generalizing s with
  | nil => exact trivial
  | cons e es ih => exact ⟨h s e, fun t _ => ih t⟩

theorem Guarded.and {C D : σ → ε → Prop} {s : σ} {es : List ε} (hC : Guarded step C s es)
    (hD : Guarded step D s es) : Guarded step (fun s e => C s e ∧ D s e) s es := by
  induction es generalizing s with
  | nil => exact trivial
  | cons e es ih => exact ⟨⟨hC.1, hD.1⟩, fun t ht => ih (hC.2 t ht) (hD.2 t ht)⟩

/-- A run has a last event of a kind, or none at all. -/
theorem exec_last (p : ε → Prop) [DecidablePred p] {s t : σ} {es : List ε}
    (hr : exec step s es = some t) :
    (∀ e ∈ es, ¬ p e) ∨ ∃ es₁ e es₂ u v, es = es₁ ++ e :: es₂ ∧ p e ∧ (∀ x ∈ es₂, ¬ p x) ∧
      exec step s es₁ = some u ∧ step u e = some v ∧ exec step v es₂ = some t := by
  induction es generalizing s with
  | nil => exact .inl fun e he => absurd he List.not_mem_nil
  | cons e es ih =>
    obtain ⟨v, hv, hr⟩ := exec_cons_eq_some step hr
    obtain hnone | ⟨es₁, x, es₂, u, w, hes, hx, hnone, h1, h2, h3⟩ := ih hr
    · by_cases he : p e
      · exact .inr ⟨[], e, es, s, v, rfl, he, hnone, rfl, hv, hr⟩
      · exact .inl (List.forall_mem_cons.mpr ⟨he, hnone⟩)
    · refine .inr ⟨e :: es₁, x, es₂, u, w, by rw [hes]; rfl, hx, hnone, ?_, h2, h3⟩
      rw [exec_cons_of_step step hv, h1]

/-- The condition can be evaluated on a given run. -/
instance decidableGuarded (C : σ → ε → Prop) [∀ s e, Decidable (C s e)] :
    ∀ (s : σ) (es : List ε), Decidable (Guarded step C s es)
  | _, [] => isTrue trivial
  | s, e :: es =>
    have : Decidable (∀ t, step s e = some t → Guarded step C t es) :=
      match step s e with
      | none => isTrue fun _ ht => nomatch ht
      | some t =>
        have := decidableGuarded C t es
        decidable_of_iff (Guarded step C t es)
          ⟨fun hg _ ht => Option.some.inj ht ▸ hg, fun hg => hg t rfl⟩
    inferInstanceAs (Decidable (C s e ∧ _))

variable {step}

theorem Guarded.imp {C D : σ → ε → Prop} (himp : ∀ s e, C s e → D s e) {s : σ} {es : List ε}
    (h : Guarded step C s es) : Guarded step D s es := by
  induction es generalizing s with
  | nil => exact trivial
  | cons e es ih => exact ⟨himp s e h.1, fun t ht => ih (h.2 t ht)⟩

theorem Along.imp {P Q : σ → Prop} (himp : ∀ s, P s → Q s) {s : σ} {es : List ε}
    (h : Along step P s es) : Along step Q s es := by
  induction es generalizing s with
  | nil => exact himp s h
  | cons e es ih => exact ⟨himp s h.1, fun t ht => ih (h.2 t ht)⟩

theorem exec_guarded {C : σ → ε → Prop} {I : σ → Prop}
    (hstep : ∀ s e t, I s → C s e → step s e = some t → I t)
    {s t : σ} {es : List ε} (hs : I s) (hC : Guarded step C s es) (h : exec step s es = some t) :
    I t := by
  induction es generalizing s with
  | nil =>
    simp only [exec_nil, Option.some.injEq] at h
    exact h ▸ hs
  | cons e es ih =>
    obtain ⟨u, hu, ht⟩ := exec_cons_eq_some step h
    exact ih (hstep s e u hs hC.1 hu) (hC.2 u hu) ht

/-- A condition that implies another one under an invariant that it keeps. -/
theorem Guarded.imp_of_kept {C D : σ → ε → Prop} {I : σ → Prop}
    (hstep : ∀ s e t, I s → C s e → step s e = some t → I t) (himp : ∀ s e, I s → C s e → D s e)
    {s : σ} {es : List ε} (hs : I s) (h : Guarded step C s es) : Guarded step D s es := by
  induction es generalizing s with
  | nil => exact trivial
  | cons e es ih => exact ⟨himp s e hs h.1, fun t ht => ih (hstep s e t hs h.1 ht) (h.2 t ht)⟩

theorem exec_invariant {I : σ → Prop} (hstep : ∀ s e t, I s → step s e = some t → I t)
    {s t : σ} {es : List ε} (hs : I s) (h : exec step s es = some t) : I t := by
  induction es generalizing s with
  | nil =>
    simp only [exec_nil, Option.some.injEq] at h
    exact h ▸ hs
  | cons e es ih =>
    obtain ⟨u, hu, ht⟩ := exec_cons_eq_some step h
    exact ih (hstep s e u hs hu) ht

theorem along_head {P : σ → Prop} {s : σ} {es : List ε} (h : Along step P s es) : P s := by
  cases es with
  | nil => exact h
  | cons e es => exact h.1

/-- The last state of a run along which `P` holds meets `P`. -/
theorem along_last {P : σ → Prop} {s t : σ} {es : List ε} (h : Along step P s es)
    (ht : exec step s es = some t) : P t := by
  induction es generalizing s with
  | nil =>
    simp only [exec_nil, Option.some.injEq] at ht
    exact ht ▸ h
  | cons e es ih =>
    obtain ⟨u, hu, hx⟩ := exec_cons_eq_some step ht
    exact ih (h.2 u hu) hx

/-- Where `P` holds before every step and at the end, it holds along the run. -/
theorem along_of_guarded {P : σ → Prop} {s t : σ} {es : List ε} (h : Guarded step (fun s _ => P s) s es)
    (ht : exec step s es = some t) (hP : P t) : Along step P s es := by
  induction es generalizing s with
  | nil =>
    obtain rfl := Option.some.inj ht
    exact hP
  | cons e es ih =>
    obtain ⟨u, hu, hx⟩ := exec_cons_eq_some step ht
    refine ⟨h.1, fun v hv => ?_⟩
    obtain rfl := Option.some.inj (hu.symm.trans hv)
    exact ih (h.2 _ hu) hx

/-- If, under the invariant `I`, a step from a good state leads to a good state exactly when it
meets `C`, then a run stays good exactly when all its steps meet `C`. The invariant may rest on the state
being good. -/
theorem along_iff_guarded_of {I P : σ → Prop} {C : σ → ε → Prop}
    (hI : ∀ s e t, I s → P s → step s e = some t → I t)
    (hP : ∀ s e t, I s → P s → step s e = some t → (P t ↔ C s e))
    {s : σ} {es : List ε} (hs : I s) (hPs : P s) (hrun : (exec step s es).isSome) :
    Along step P s es ↔ Guarded step C s es := by
  induction es generalizing s with
  | nil => exact ⟨fun _ => trivial, fun _ => hPs⟩
  | cons e es ih =>
    obtain ⟨w, hw⟩ := Option.isSome_iff_exists.mp hrun
    obtain ⟨u, hu, hx⟩ := exec_cons_eq_some step hw
    have hsome : (exec step u es).isSome := by rw [hx]; rfl
    have hstep := hP s e u hs hPs hu
    constructor
    · intro h
      have hu' := h.2 u hu
      have hC := hstep.mp (along_head hu')
      refine ⟨hC, fun t ht => ?_⟩
      obtain rfl : u = t := Option.some.inj (hu.symm.trans ht)
      exact (ih (hI s e u hs hPs hu) (along_head hu') hsome).mp hu'
    · intro h
      refine ⟨hPs, fun t ht => ?_⟩
      obtain rfl : u = t := Option.some.inj (hu.symm.trans ht)
      exact (ih (hI s e u hs hPs hu) (hstep.mpr h.1) hsome).mpr (h.2 u hu)

theorem along_iff_guarded {I P : σ → Prop} {C : σ → ε → Prop}
    (hI : ∀ s e t, I s → step s e = some t → I t)
    (hP : ∀ s e t, I s → P s → step s e = some t → (P t ↔ C s e))
    {s : σ} {es : List ε} (hs : I s) (hPs : P s) (hrun : (exec step s es).isSome) :
    Along step P s es ↔ Guarded step C s es :=
  along_iff_guarded_of (fun s e t h _ ht => hI s e t h ht) hP hs hPs hrun

/-- When what is lost stays lost, the last state tells whether all steps met the condition. -/
theorem last_iff_guarded {I P : σ → Prop} {C D : σ → ε → Prop}
    (hI : ∀ s e t, I s → D s e → step s e = some t → I t)
    (hP : ∀ s e t, I s → P s → D s e → step s e = some t → (P t ↔ C s e))
    (hlost : ∀ s e t, I s → ¬ P s → D s e → step s e = some t → ¬ P t)
    {s t : σ} {es : List ε} (hs : I s) (hPs : P s) (hD : Guarded step D s es) (ht : exec step s es = some t) :
    P t ↔ Guarded step C s es := by
  have hstays : ∀ {fs : List ε} {u : σ}, I u → ¬ P u → Guarded step D u fs → exec step u fs = some t → ¬ P t := by
    intro fs u hu hPu hDu hx
    have hinv : I t ∧ ¬ P t := exec_guarded (I := fun s => I s ∧ ¬ P s) (fun s e t hs hD hstep =>
      ⟨hI s e t hs.1 hD hstep, hlost s e t hs.1 hs.2 hD hstep⟩) ⟨hu, hPu⟩ hDu hx
    exact hinv.2
  induction es generalizing s with
  | nil =>
    obtain rfl := Option.some.inj ht
    exact ⟨fun _ => trivial, fun _ => hPs⟩
  | cons e es ih =>
    obtain ⟨u, hu, hx⟩ := exec_cons_eq_some step ht
    have hstep := hP s e u hs hPs hD.1 hu
    have hIu := hI s e u hs hD.1 hu
    constructor
    · intro hPt
      have hPu : P u := by
        by_contra hPu
        exact hstays hIu hPu (hD.2 u hu) hx hPt
      refine ⟨hstep.mp hPu, fun v hv => ?_⟩
      obtain rfl := Option.some.inj (hu.symm.trans hv)
      exact (ih hIu hPu (hD.2 u hu) hx).mp hPt
    · intro hC
      exact (ih hIu (hstep.mpr hC.1) (hD.2 u hu) hx).mpr (hC.2 u hu)

/-! ## Two runs -/

section
universe x y
variable {τ : Type x} {ω : Type y} {step' : τ → ε → Option τ}

/-- Systems that stay related step by step run the same events, and end in related states. -/
theorem exec_related {R : σ → τ → Prop} (h : ∀ s t e, R s t → Option.Rel R (step s e) (step' t e))
    {s : σ} {t : τ} (hst : R s t) (es : List ε) : Option.Rel R (exec step s es) (exec step' t es) := by
  induction es generalizing s t with
  | nil => exact .some hst
  | cons e es ih =>
    have hnext := h s t e hst
    rw [exec_cons, exec_cons]
    generalize step s e = x at hnext ⊢
    generalize step' t e = y at hnext ⊢
    cases hnext with
    | some hnext => exact ih hnext
    | none => exact .none

/-- What is seen of related states is seen of the runs. -/
theorem exec_observed {R : σ → τ → Prop} {see : σ → ω} {see' : τ → ω} (hsee : ∀ s t, R s t → see s = see' t)
    (h : ∀ s t e, R s t → Option.Rel R (step s e) (step' t e)) {s : σ} {t : τ} (hst : R s t) (es : List ε) :
    (exec step s es).map see = (exec step' t es).map see' := by
  have hend := exec_related h hst es
  generalize exec step s es = x at hend ⊢
  generalize exec step' t es = y at hend ⊢
  cases hend with
  | some hend => exact congrArg some (hsee _ _ hend)
  | none => rfl

end

/-! ## Histories -/

/-- `note s e t` is what the step from `s` to `t` adds. -/
def recorded (step : σ → ε → Option σ) (note : σ → ε → σ → List η) :
    σ × List η → ε → Option (σ × List η)
  | (s, history), e => (step s e).map fun t => (t, history ++ note s e t)

theorem recorded_eq_some {note : σ → ε → σ → List η} {s t : σ × List η} {e : ε}
    (h : recorded step note s e = some t) :
    step s.1 e = some t.1 ∧ t.2 = s.2 ++ note s.1 e t.1 := by
  obtain ⟨u, hu, rfl⟩ := Option.map_eq_some_iff.mp h
  exact ⟨hu, rfl⟩

/-- The history does not matter for the run. -/
theorem exec_of_recorded {note : σ → ε → σ → List η} {s t : σ × List η} {es : List ε}
    (h : exec (recorded step note) s es = some t) : exec step s.1 es = some t.1 := by
  induction es generalizing s with
  | nil =>
    obtain rfl := Option.some.inj h
    rfl
  | cons e es ih =>
    obtain ⟨u, hu, ht⟩ := exec_cons_eq_some _ h
    rw [exec_cons_of_step step (recorded_eq_some hu).1]
    exact ih ht

end Foundations
