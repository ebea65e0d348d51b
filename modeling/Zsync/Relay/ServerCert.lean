import Zsync.Foundations.Runs
import Zsync.Model.ServerCert

/-! # A relay keeps its certificate

Devices pin the certificate that a relay shows them first. So it has to show the same one as long as its files are
there, whatever process serves.

* `Sound` : while somebody makes the files nobody else is there, and what a process has read is what the files hold.
* `identity_permanent` : once a process serves, all that serve later show the same certificate, when the first starts
  do not overlap.
* `restarts_iff` : and when all have ended, the relay can be started again exactly when no process was stopped between
  the creation of its key file and its being filled.
-/

namespace Zsync
namespace ServerCert
set_option autoImplicit false
set_option maxHeartbeats 250000
open Foundations

/-! ## Stages -/

/-- It is making the two files. -/
def Stage.making : Stage → Bool
  | .generate | .openCert _ _ | .fillCert _ _ | .openKey _ | .fillKey _ => true
  | _ => false

/-- It may come to make them. -/
def Stage.early : Stage → Bool
  | .lookCert | .lookKey => true
  | stage => stage.making

theorem early_of_making {stage : Stage} (h : stage.making = true) : stage.early = true := by
  cases stage <;> simp_all [Stage.making, Stage.early]

/-- What a process knows of the files, when nobody else changes them. -/
def Fits (pem : Pem) (f : Files) : Stage → Prop
  | .lookCert => True
  | .lookKey => f.cert.isSome
  | .generate => f.key = none
  | .openCert cert key => f.key = none ∧ (pem.load cert key).isSome
  | .fillCert cert key => f.key = none ∧ f.cert = some [] ∧ (pem.load cert key).isSome
  | .openKey key => f.key = none ∧ ∃ cert, f.cert = some cert ∧ (pem.load cert key).isSome
  | .fillKey key => f.key = some [] ∧ ∃ cert, f.cert = some cert ∧ (pem.load cert key).isSome
  | .readCert => f.cert.isSome ∧ f.key.isSome
  | .readKey chain => f.key.isSome ∧ f.cert.bind pem.certs = some chain
  | .serving chain key => ∃ c k, f.cert = some c ∧ f.key = some k ∧ pem.load c k = some (chain, key)

theorem load_eq_some {pem : Pem} {cert key : Bytes} {chain : List Bytes} {k : Bytes} :
    pem.load cert key = some (chain, k) ↔ pem.certs cert = some chain ∧ pem.key key = some k ∧ pem.accepts chain k := by
  constructor
  · intro h
    obtain ⟨chain', hcerts, h⟩ := Option.bind_eq_some_iff.mp h
    obtain ⟨k', hkey, heq⟩ := Option.map_eq_some_iff.mp h
    obtain ⟨rfl, rfl⟩ := Prod.mk.inj heq
    obtain ⟨hkey, haccepts⟩ := Option.filter_eq_some_iff.mp hkey
    exact ⟨hcerts, hkey, haccepts⟩
  · rintro ⟨hcerts, hkey, haccepts⟩
    rw [Pem.load, hcerts, hkey]
    simp [haccepts]

/-- Both files are there, and no process can use them. -/
def Wedged (pem : Pem) (f : Files) : Prop :=
  ∃ cert key, f.cert = some cert ∧ f.key = some key ∧ pem.load cert key = none

/-- Whoever is past the making has found both files. -/
theorem Fits.exist {pem : Pem} {f : Files} {stage : Stage} (h : Fits pem f stage) (hlate : stage.early = false) :
    f.cert.isSome ∧ f.key.isSome := by
  cases stage with
  | readCert => exact h
  | readKey chain =>
    obtain ⟨cert, hcert, -⟩ := Option.bind_eq_some_iff.mp h.2
    exact ⟨by simp [hcert], h.1⟩
  | serving chain key =>
    obtain ⟨c, k, hc, hk, -⟩ := h
    exact ⟨by simp [hc], by simp [hk]⟩
  | _ => simp [Stage.early, Stage.making] at hlate

/-! ## One step of a process -/

section Perform
variable {pem : Pem} {f f' : Files} {stage : Stage} {out : Outcome} {next : Option Stage}

theorem perform_files (h : stage.perform pem f out = some (f', next)) : f' = f ∨ stage.making = true := by
  cases stage <;> cases out <;> simp_all [Stage.perform, Stage.making]

/-- No file goes, and the certificate is made first. -/
theorem perform_blank (hblank : f.cert = none → f.key = none) (hfit : Fits pem f stage)
    (h : stage.perform pem f out = some (f', next)) : f'.cert = none → f'.key = none := by
  cases stage <;> cases out <;> simp_all [Stage.perform, Fits] <;> grind

/-- What is known after a step, unless `exists` was wrong. -/
theorem perform_fits (hblank : f.cert = none → f.key = none) (hfit : Fits pem f stage)
    (hlook : out = .refused → stage ≠ .lookCert ∧ stage ≠ .lookKey)
    (h : stage.perform pem f out = some (f', next)) : ∀ t, next = some t → Fits pem f' t := by
  intro t ht
  subst ht
  cases stage <;> cases out <;>
    simp only [Stage.perform, Option.some.injEq, Prod.mk.injEq, reduceCtorEq, and_false] at h
  case lookCert.done =>
    obtain ⟨rfl, rfl⟩ := h
    split_ifs with hcert
    · exact hcert
    · exact hblank (by simpa using hcert)
  case lookCert.refused => exact absurd rfl (hlook rfl).1
  case lookKey.done =>
    obtain ⟨rfl, rfl⟩ := h
    split_ifs with hkey
    · exact ⟨hfit, hkey⟩
    · simpa [Fits] using hkey
  case lookKey.refused => exact absurd rfl (hlook rfl).2
  case generate.made =>
    split_ifs at h with hload
    obtain ⟨rfl, hnext⟩ := Prod.mk.inj (Option.some.inj h)
    obtain rfl := Option.some.inj hnext
    exact ⟨hfit, hload⟩
  case openCert.done =>
    obtain ⟨rfl, rfl⟩ := h
    exact ⟨hfit.1, rfl, hfit.2⟩
  case fillCert.done cert key =>
    obtain ⟨rfl, rfl⟩ := h
    obtain ⟨hkey, hcert, hload⟩ := hfit
    exact ⟨hkey, cert, by simp [hcert, fill], hload⟩
  case openKey.done =>
    obtain ⟨rfl, rfl⟩ := h
    exact ⟨rfl, hfit.2⟩
  case fillKey.done =>
    obtain ⟨rfl, rfl⟩ := h
    obtain ⟨hkey, cert, hcert, -⟩ := hfit
    exact ⟨by simp [hcert], by simp [hkey]⟩
  case readCert.done =>
    obtain ⟨rfl, hnext⟩ := h
    obtain ⟨chain, hchain, rfl⟩ := Option.map_eq_some_iff.mp hnext
    exact ⟨hfit.2, hchain⟩
  case readKey.done =>
    obtain ⟨rfl, hnext⟩ := h
    obtain ⟨key, hkey, rfl⟩ := Option.map_eq_some_iff.mp hnext
    obtain ⟨hkey, haccepts⟩ := Option.filter_eq_some_iff.mp hkey
    obtain ⟨c, hc, hcerts⟩ := Option.bind_eq_some_iff.mp hfit.2
    obtain ⟨k, hk, hkeys⟩ := Option.bind_eq_some_iff.mp hkey
    exact ⟨c, k, hc, hk, load_eq_some.mpr ⟨hcerts, hkeys, haccepts⟩⟩

theorem perform_late (hlate : stage.early = false) (h : stage.perform pem f out = some (f', next)) :
    ∀ t, next = some t → t.early = false := by
  intro t ht
  subst ht
  cases stage with
  | readCert =>
    cases out with
    | done =>
      obtain ⟨-, hnext⟩ := Prod.mk.inj (Option.some.inj h)
      obtain ⟨chain, -, rfl⟩ := Option.map_eq_some_iff.mp hnext
      rfl
    | _ => simp [Stage.perform] at h
  | readKey chain =>
    cases out with
    | done =>
      obtain ⟨-, hnext⟩ := Prod.mk.inj (Option.some.inj h)
      obtain ⟨key, -, rfl⟩ := Option.map_eq_some_iff.mp hnext
      rfl
    | _ => simp [Stage.perform] at h
  | serving chain key => cases out <;> simp [Stage.perform] at h
  | _ => simp [Stage.early, Stage.making] at hlate

/-- Who comes to make the files has found one missing. -/
theorem perform_making (hlook : out = .refused → stage ≠ .lookCert ∧ stage ≠ .lookKey)
    (h : stage.perform pem f out = some (f', next)) :
    ∀ t, next = some t → t.making = true → stage.making = true ∨ f.cert = none ∨ f.key = none := by
  intro t ht hmaking
  by_cases hlate : stage.early = false
  · have hearly := early_of_making hmaking
    rw [perform_late hlate h t ht] at hearly
    cases hearly
  · subst ht
    cases stage with
    | lookCert =>
      cases out with
      | done =>
        obtain ⟨-, hnext⟩ := Prod.mk.inj (Option.some.inj h)
        obtain rfl := Option.some.inj hnext
        split_ifs at hmaking with hcert
        · cases hmaking
        · exact .inr (.inl (by simpa using hcert))
      | refused => exact absurd rfl (hlook rfl).1
      | _ => simp [Stage.perform] at h
    | lookKey =>
      cases out with
      | done =>
        obtain ⟨-, hnext⟩ := Prod.mk.inj (Option.some.inj h)
        obtain rfl := Option.some.inj hnext
        split_ifs at hmaking with hkey
        · cases hmaking
        · exact .inr (.inr (by simpa using hkey))
      | refused => exact absurd rfl (hlook rfl).2
      | _ => simp [Stage.perform] at h
    | readCert | readKey | serving => exact absurd rfl hlate
    | _ => exact .inl rfl

/-- Who makes the files and has begun with the key is about to fill it. -/
theorem fillKey_of_making (hfit : Fits pem f stage) (hmaking : stage.making = true) (hw : Wedged pem f) :
    ∃ key, stage = .fillKey key := by
  obtain ⟨-, key, -, hkey, -⟩ := hw
  have hne : f.key ≠ none := by simp [hkey]
  cases stage with
  | generate => exact absurd hfit hne
  | openCert | fillCert | openKey => exact absurd hfit.1 hne
  | fillKey key => exact ⟨key, rfl⟩
  | _ => cases hmaking

/-- Files that cannot be used are left by who goes on to fill the key, or by who did not fill it. -/
theorem perform_wedged (hfit : Fits pem f stage) (hmaking : stage.making = true)
    (h : stage.perform pem f out = some (f', next)) (hw : Wedged pem f') :
    (∃ key, next = some (.fillKey key)) ∨ ∃ key n, stage = .fillKey key ∧ out = .torn n := by
  obtain ⟨cert', key', hcert', hkey', hload⟩ := hw
  have hkept : f.key = none → f'.key = f.key → False := by
    intro hnone hsame
    rw [hsame, hnone] at hkey'
    cases hkey'
  cases stage <;> cases out <;> simp only [Stage.perform, Option.some.injEq, Prod.mk.injEq, reduceCtorEq] at h
  case generate.made =>
    split_ifs at h
    obtain ⟨rfl, -⟩ := Prod.mk.inj (Option.some.inj h)
    exact (hkept hfit rfl).elim
  case openKey.done key =>
    exact .inl ⟨key, h.2.symm⟩
  case fillKey.done key =>
    obtain ⟨rfl, -⟩ := h
    obtain ⟨hempty, cert, hcert, hsome⟩ := hfit
    obtain rfl := Option.some.inj (hcert.symm.trans hcert')
    have hkey : key = key' := by simpa [hempty, fill] using hkey'
    rw [hkey, hload] at hsome
    cases hsome
  case fillKey.torn key n => exact .inr ⟨key, n, rfl, rfl⟩
  all_goals
    first
    | exact (hkept hfit.1 (h.1 ▸ rfl)).elim
    | exact (hkept hfit (h.1 ▸ rfl)).elim
    | cases hmaking

end Perform

/-! ## All processes -/

namespace World
variable {pem : Pem} {w t : World} {e : Event}

/-- `exists` does not take a file that is there for a missing one. -/
def answered (w : World) : Event → Bool
  | .op i .refused => w.procs i != some .lookCert && w.procs i != some .lookKey
  | _ => true

/-- Nobody is started while another one may make the files. -/
def alone (w : World) : Event → Bool
  | .arrive => (List.range w.next).all fun i => (w.procs i).all fun stage => !stage.early
  | _ => true

def Orderly (w : World) (e : Event) : Prop := w.answered e = true ∧ w.alone e = true

instance (w : World) (e : Event) : Decidable (w.Orderly e) := inferInstanceAs (Decidable (_ ∧ _))

structure Sound (pem : Pem) (w : World) : Prop where
  blank : w.files.cert = none → w.files.key = none
  known : ∀ i, w.next ≤ i → w.procs i = none
  fits : ∀ i stage, w.procs i = some stage → Fits pem w.files stage
  lone : ∀ i j p q, w.procs i = some p → w.procs j = some q → p.early = true → q.early = true → i = j
  apart : ∀ i j p q, w.procs i = some p → w.procs j = some q → p.making = true → q.early = true

theorem fresh_sound : Sound pem fresh :=
  ⟨fun _ => rfl, fun _ _ => rfl, fun _ _ h => (by cases h), fun _ _ _ _ h => (by cases h),
    fun _ _ _ _ h => (by cases h)⟩

/-- Who makes the files is the only process. -/
theorem Sound.only (h : Sound pem w) {i j : ℕ} {p q : Stage} (hp : w.procs i = some p) (hq : w.procs j = some q)
    (hmaking : p.making = true) : i = j :=
  h.lone i j p q hp hq (early_of_making hmaking) (h.apart i j p q hp hq hmaking)

theorem answered_op {i : ℕ} {out : Outcome} {stage : Stage} (h : w.answered (.op i out) = true)
    (hp : w.procs i = some stage) : out = .refused → stage ≠ .lookCert ∧ stage ≠ .lookKey := by
  rintro rfl
  simpa [answered, hp] using h

/-- What a process does. -/
theorem op_spec {i : ℕ} {out : Outcome} (h : w.step pem (.op i out) = some t) :
    ∃ stage f' next, w.procs i = some stage ∧ stage.perform pem w.files out = some (f', next) ∧
      t = w.put i (f', next) := by
  obtain ⟨stage, hp, h⟩ := Option.bind_eq_some_iff.mp h
  obtain ⟨⟨f', next⟩, hperform, rfl⟩ := Option.map_eq_some_iff.mp h
  exact ⟨stage, f', next, hp, hperform, rfl⟩

theorem put_procs (i j : ℕ) (outcome : Files × Option Stage) :
    (w.put i outcome).procs j = if j = i then outcome.2 else w.procs j := Function.update_apply ..

theorem Sound.op (hs : Sound pem w) {i : ℕ} {out : Outcome} (ha : w.answered (.op i out) = true)
    (h : w.step pem (.op i out) = some t) : Sound pem t := by
  obtain ⟨stage, f', next, hp, hperform, rfl⟩ := op_spec h
  have hlook := answered_op ha hp
  have hfit := hs.fits i stage hp
  -- When the files change, there is no other process.
  have hother : ∀ j q, j ≠ i → w.procs j = some q → f' = w.files ∧ stage.making = false := by
    intro j q hj hq
    have hmaking : stage.making = false := by
      rw [← Bool.not_eq_true]
      exact fun hm => hj (hs.only hp hq hm).symm
    refine ⟨(perform_files hperform).resolve_right fun hm => ?_, hmaking⟩
    rw [hmaking] at hm
    cases hm
  constructor
  case blank => exact perform_blank hs.blank hfit hperform
  case known =>
    intro j hj
    have hi : w.next ≤ j := hj
    rw [put_procs, if_neg, hs.known j hi]
    rintro rfl
    rw [hs.known j hi] at hp
    cases hp
  case fits =>
    intro j q hq
    rw [put_procs] at hq
    split_ifs at hq with hj
    · exact perform_fits hs.blank hfit hlook hperform q hq
    · change Fits pem f' q
      rw [(hother j q hj hq).1]
      exact hs.fits j q hq
  case lone =>
    have hearly : ∀ p, next = some p → p.early = true → stage.early = true := by
      intro p hnext hearly
      by_contra hlate
      rw [perform_late (by simpa using hlate) hperform p hnext] at hearly
      cases hearly
    intro j k p q hj hk hpe hqe
    rw [put_procs] at hj hk
    split_ifs at hj hk with hji hki hki
    · rw [hji, hki]
    · rw [hji]
      exact hs.lone i k stage q hp hk (hearly p hj hpe) hqe
    · rw [hki]
      exact hs.lone j i p stage hj hp hpe (hearly q hk hqe)
    · exact hs.lone j k p q hj hk hpe hqe
  case apart =>
    intro j k p q hj hk hmaking
    rw [put_procs] at hj hk
    split_ifs at hj hk with hji hki hki
    · rw [← Option.some.inj (hj.symm.trans hk)]
      exact early_of_making hmaking
    · -- Somebody past the making has found both files.
      by_contra hlate
      obtain ⟨hcert, hkey⟩ := (hs.fits k q hk).exist (by simpa using hlate)
      obtain hm | hnone | hnone := perform_making hlook hperform p hj hmaking
      · rw [(hother k q hki hk).2] at hm
        cases hm
      · simp [hnone] at hcert
      · simp [hnone] at hkey
    · exact absurd (hs.only hj hp hmaking) hji
    · exact hs.apart j k p q hj hk hmaking

theorem Sound.arrive (hs : Sound pem w) (ha : w.alone .arrive = true) (h : w.step pem .arrive = some t) :
    Sound pem t := by
  obtain rfl := Option.some.inj h
  have hlate : ∀ j q, w.procs j = some q → q.early = false := by
    intro j q hq
    have hj : j < w.next := by
      by_contra hj
      rw [hs.known j (Nat.not_lt.mp hj)] at hq
      cases hq
    have hall := List.all_eq_true.mp ha j (List.mem_range.mpr hj)
    simpa [hq] using hall
  have hprocs : ∀ j p, Function.update w.procs w.next (some .lookCert) j = some p →
      (j = w.next ∧ p = .lookCert) ∨ (w.procs j = some p ∧ p.early = false) := by
    intro j p hp
    rw [Function.update_apply] at hp
    split_ifs at hp with hj
    · exact .inl ⟨hj, (Option.some.inj hp).symm⟩
    · exact .inr ⟨hp, hlate j p hp⟩
  constructor
  case blank => exact hs.blank
  case known =>
    intro j hj
    have hnext : w.next + 1 ≤ j := hj
    change Function.update w.procs w.next (some .lookCert) j = none
    rw [Function.update_of_ne (by omega)]
    exact hs.known j (by omega)
  case fits =>
    intro j p hp
    obtain ⟨-, rfl⟩ | ⟨hp, -⟩ := hprocs j p hp
    · exact trivial
    · exact hs.fits j p hp
  case lone =>
    intro j k p q hj hk hp hq
    obtain ⟨rfl, -⟩ | ⟨-, hlate⟩ := hprocs j p hj
    · obtain ⟨rfl, -⟩ | ⟨-, hlate⟩ := hprocs k q hk
      · rfl
      · rw [hlate] at hq
        cases hq
    · rw [hlate] at hp
      cases hp
  case apart =>
    intro j k p q hj hk hmaking
    obtain ⟨-, rfl⟩ | ⟨-, hlate⟩ := hprocs j p hj
    · cases hmaking
    · rw [early_of_making hmaking] at hlate
      cases hlate

theorem gone_spec {i : ℕ} (h : w.step pem (.gone i) = some t) :
    t.files = w.files ∧ t.next = w.next ∧ t.procs i = none ∧ (∀ j, j ≠ i → t.procs j = w.procs j) ∧
      ∀ j p, t.procs j = some p → w.procs j = some p := by
  obtain ⟨stage, -, rfl⟩ := Option.map_eq_some_iff.mp h
  have hi : (w.put i (w.files, none)).procs i = none := by rw [put_procs, if_pos rfl]
  have hj : ∀ j, j ≠ i → (w.put i (w.files, none)).procs j = w.procs j := fun j hj => by rw [put_procs, if_neg hj]
  refine ⟨rfl, rfl, hi, hj, fun j p hp => ?_⟩
  rw [put_procs] at hp
  split_ifs at hp
  exact hp

theorem Sound.gone (hs : Sound pem w) {i : ℕ} (h : w.step pem (.gone i) = some t) : Sound pem t := by
  obtain ⟨hfiles, hnext, -, -, hprocs⟩ := gone_spec h
  constructor
  case blank =>
    rw [hfiles]
    exact hs.blank
  case known =>
    intro j hj
    by_contra hne
    obtain ⟨p, hp⟩ := Option.ne_none_iff_exists'.mp hne
    have hbefore := hprocs j p hp
    rw [hs.known j (hnext ▸ hj)] at hbefore
    cases hbefore
  case fits =>
    intro j p hp
    rw [hfiles]
    exact hs.fits j p (hprocs j p hp)
  case lone => exact fun j k p q hj hk => hs.lone j k p q (hprocs j p hj) (hprocs k q hk)
  case apart => exact fun j k p q hj hk => hs.apart j k p q (hprocs j p hj) (hprocs k q hk)

theorem Sound.step (hs : Sound pem w) (ho : w.Orderly e) (h : w.step pem e = some t) : Sound pem t := by
  cases e with
  | arrive => exact hs.arrive ho.2 h
  | op i out => exact hs.op ho.1 h
  | gone i => exact hs.gone h

/-! ## Files that stand -/

/-- Both files are there, and nobody is going to change them. -/
structure Settled (pem : Pem) (cert key : Bytes) (w : World) : Prop where
  files : w.files = ⟨some cert, some key⟩
  fits : ∀ i stage, w.procs i = some stage → Fits pem w.files stage
  idle : ∀ i stage, w.procs i = some stage → stage.making = false

theorem Settled.step {cert key : Bytes} (hs : Settled pem cert key w) (ha : w.answered e = true)
    (h : w.step pem e = some t) : Settled pem cert key t := by
  have hblank : w.files.cert = none → w.files.key = none := by simp [hs.files]
  cases e with
  | arrive =>
    obtain rfl := Option.some.inj h
    refine ⟨hs.files, fun j p hp => ?_, fun j p hp => ?_⟩
    · change Function.update w.procs w.next (some .lookCert) j = some p at hp
      rw [Function.update_apply] at hp
      split_ifs at hp
      · rw [← Option.some.inj hp]
        exact trivial
      · exact hs.fits j p hp
    · change Function.update w.procs w.next (some .lookCert) j = some p at hp
      rw [Function.update_apply] at hp
      split_ifs at hp
      · rw [← Option.some.inj hp]
        rfl
      · exact hs.idle j p hp
  | gone i =>
    obtain ⟨hfiles, -, -, -, hprocs⟩ := gone_spec h
    refine ⟨hfiles ▸ hs.files, fun j p hp => ?_, fun j p hp => hs.idle j p (hprocs j p hp)⟩
    rw [hfiles]
    exact hs.fits j p (hprocs j p hp)
  | op i out =>
    obtain ⟨stage, f', next, hp, hperform, rfl⟩ := op_spec h
    have hlook := answered_op ha hp
    have hidle := hs.idle i stage hp
    have hsame : f' = w.files := (perform_files hperform).resolve_right (by simp [hidle])
    refine ⟨hsame.trans hs.files, fun j q hq => ?_, fun j q hq => ?_⟩
    · rw [put_procs] at hq
      split_ifs at hq
      · exact perform_fits hblank (hs.fits i stage hp) hlook hperform q hq
      · change Fits pem f' q
        rw [hsame]
        exact hs.fits j q hq
    · rw [put_procs] at hq
      split_ifs at hq
      · rw [← Bool.not_eq_true]
        intro hmaking
        have hfound := perform_making hlook hperform q hq hmaking
        simp [hidle, hs.files] at hfound
      · exact hs.idle j q hq

theorem Settled.serving {cert key : Bytes} (hs : Settled pem cert key w) {i : ℕ} {chain : List Bytes} {k : Bytes}
    (hp : w.procs i = some (.serving chain k)) : pem.load cert key = some (chain, k) := by
  obtain ⟨c, k', hc, hk, hload⟩ := hs.fits i _ hp
  rw [hs.files] at hc hk
  obtain rfl := Option.some.inj hc
  obtain rfl := Option.some.inj hk
  exact hload

/-- Once somebody serves, the files stand. -/
theorem Sound.settled (hs : Sound pem w) {i : ℕ} {chain : List Bytes} {k : Bytes}
    (hp : w.procs i = some (.serving chain k)) : ∃ cert key, Settled pem cert key w := by
  obtain ⟨cert, key, hcert, hkey, -⟩ := hs.fits i _ hp
  refine ⟨cert, key, by rw [← hcert, ← hkey], hs.fits, fun j q hq => ?_⟩
  rw [← Bool.not_eq_true]
  intro hmaking
  have hearly := hs.apart j i q _ hq hp hmaking
  cases hearly

variable {es es₁ es₂ : List Event} {u v : World}

theorem settled_run {cert key : Bytes} (hs : Settled pem cert key u)
    (ha : Guarded (step pem) (fun w e => w.answered e = true) u es) (h : exec (step pem) u es = some v) :
    Settled pem cert key v :=
  exec_guarded (fun _ _ _ hs ha hstep => hs.step ha hstep) hs ha h

theorem sound_run (ho : Guarded (step pem) Orderly fresh es) (h : exec (step pem) fresh es = some u) : Sound pem u :=
  exec_guarded (fun _ _ _ hs ho hstep => hs.step ho hstep) fresh_sound ho h

/-- Whatever is started, stopped or killed later, also at the same time. -/
theorem identity_permanent (h₁ : exec (step pem) fresh es₁ = some u) (ho : Guarded (step pem) Orderly fresh es₁)
    (h₂ : exec (step pem) u es₂ = some v) (ha : Guarded (step pem) (fun w e => w.answered e = true) u es₂) {i j : ℕ}
    {chain chain' : List Bytes} {key key' : Bytes} (hu : u.procs i = some (.serving chain key))
    (hv : v.procs j = some (.serving chain' key')) : chain' = chain ∧ key' = key := by
  obtain ⟨cert, k, hs⟩ := (sound_run ho h₁).settled hu
  have hbefore := hs.serving hu
  have hafter := (settled_run hs ha h₂).serving hv
  exact Prod.mk.inj (Option.some.inj (hafter.symm.trans hbefore))

/-! ## Starting again -/

/-- Somebody is still to fill the key file, if it cannot be used. -/
def Recovers (pem : Pem) (w : World) : Prop :=
  Wedged pem w.files → ∃ i key, w.procs i = some (.fillKey key)

/-- A process ends at its key file, and leaves there no key. -/
def CutsKey (pem : Pem) (w : World) (e : Event) : Prop :=
  ∃ i key n, w.procs i = some (.fillKey key) ∧ (e = .gone i ∧ n = 0 ∨ e = .op i (.torn n)) ∧
    ∀ cert, w.files.cert = some cert → pem.load cert (key.take n) = none

/-- Nobody can serve any more. -/
theorem stuck_of_wedged (hw : Wedged pem u.files) (hidle : ∀ i stage, u.procs i = some stage → stage.making = false)
    (hs : Sound pem u) (ha : Guarded (step pem) (fun w e => w.answered e = true) u es)
    (h : exec (step pem) u es = some v) (i : ℕ) (chain : List Bytes) (k : Bytes) :
    v.procs i ≠ some (.serving chain k) := by
  obtain ⟨cert, key, hcert, hkey, hload⟩ := hw
  have hsettled : Settled pem cert key u := ⟨by rw [← hcert, ← hkey], hs.fits, hidle⟩
  intro hp
  rw [(settled_run hsettled ha h).serving hp] at hload
  cases hload

theorem not_recovers_iff (hs : Sound pem w) :
    ¬ Recovers pem w ↔ Wedged pem w.files ∧ ∀ i stage, w.procs i = some stage → stage.making = false := by
  constructor
  · intro h
    obtain ⟨hw, hnobody⟩ := Classical.not_imp.mp h
    refine ⟨hw, fun i stage hp => ?_⟩
    rw [← Bool.not_eq_true]
    intro hmaking
    obtain ⟨key, rfl⟩ := fillKey_of_making (hs.fits i stage hp) hmaking hw
    exact hnobody ⟨i, key, hp⟩
  · rintro ⟨hw, hidle⟩ h
    obtain ⟨i, key, hp⟩ := h hw
    cases hidle i _ hp

/-- What is lost stays lost. -/
theorem not_recovers_step (hs : Sound pem w) (h : ¬ Recovers pem w) (ho : w.Orderly e) (hstep : w.step pem e = some t) :
    ¬ Recovers pem t := by
  obtain ⟨⟨cert, key, hcert, hkey, hload⟩, hidle⟩ := (not_recovers_iff hs).mp h
  have hsettled : Settled pem cert key w := ⟨by rw [← hcert, ← hkey], hs.fits, hidle⟩
  have hafter := hsettled.step ho.1 hstep
  refine (not_recovers_iff (hs.step ho hstep)).mpr ⟨⟨cert, key, ?_, ?_, hload⟩, hafter.idle⟩
  · rw [hafter.files]
  · rw [hafter.files]

/-- A cut leaves the other file as it was, and nobody to make them again. -/
theorem CutsKey.lost (hs : Sound pem w) (hcut : CutsKey pem w e) (hstep : w.step pem e = some t) :
    Wedged pem t.files ∧ ∀ i stage, t.procs i = some stage → stage.making = false := by
  obtain ⟨i, key, n, hp, he, hbad⟩ := hcut
  obtain ⟨hempty, cert, hcert, -⟩ := hs.fits i _ hp
  -- The process was the only one, and has ended.
  have hend : ∀ f, t = w.put i (f, none) → ∀ j stage, t.procs j = some stage → stage.making = false := by
    rintro f rfl j stage hj
    rw [put_procs] at hj
    split_ifs at hj with hji
    exact absurd (hs.only hp hj rfl).symm hji
  obtain ⟨rfl, rfl⟩ | rfl := he
  · obtain ⟨stage, -, rfl⟩ := Option.map_eq_some_iff.mp hstep
    exact ⟨⟨cert, [], hcert, hempty, hbad cert hcert⟩, hend _ rfl⟩
  · obtain ⟨stage, f', next, hp', hperform, rfl⟩ := op_spec hstep
    obtain rfl := Option.some.inj (hp.symm.trans hp')
    obtain ⟨rfl, rfl⟩ := Prod.mk.inj (Option.some.inj hperform)
    refine ⟨⟨cert, key.take n, hcert, ?_, hbad cert hcert⟩, hend _ rfl⟩
    change w.files.key.map (fill (key.take n)) = some (key.take n)
    simp [hempty, fill]

/-- Without a cut somebody is left to fill the key file. -/
theorem recovers_of_uncut (hs : Sound pem w) (hr : Recovers pem w) (hcut : ¬ CutsKey pem w e)
    (hstep : w.step pem e = some t) : Recovers pem t := by
  intro hw
  cases e with
  | arrive =>
    obtain rfl := Option.some.inj hstep
    obtain ⟨i, key, hp⟩ := hr hw
    refine ⟨i, key, ?_⟩
    change Function.update w.procs w.next (some .lookCert) i = some (.fillKey key)
    rw [Function.update_of_ne, hp]
    rintro rfl
    rw [hs.known w.next (Nat.le_refl _)] at hp
    cases hp
  | gone j =>
    obtain ⟨hfiles, -, -, hprocs, -⟩ := gone_spec hstep
    have hw' : Wedged pem w.files := hfiles ▸ hw
    obtain ⟨i, key, hp⟩ := hr hw'
    refine ⟨i, key, ?_⟩
    rw [hprocs i, hp]
    rintro rfl
    refine hcut ⟨i, key, 0, hp, .inl ⟨rfl, rfl⟩, fun cert hcert => ?_⟩
    obtain ⟨cert', key', hcert', hkey', hload⟩ := hw'
    obtain ⟨hempty, -⟩ := hs.fits i _ hp
    obtain rfl := Option.some.inj (hcert.symm.trans hcert')
    obtain rfl := Option.some.inj (hempty.symm.trans hkey')
    exact hload
  | op j out =>
    obtain ⟨stage, f', next, hp, hperform, rfl⟩ := op_spec hstep
    have hfit := hs.fits j stage hp
    by_cases hmaking : stage.making = true
    · obtain ⟨key, rfl⟩ | ⟨key, n, rfl, rfl⟩ := perform_wedged hfit hmaking hperform hw
      · exact ⟨j, key, by rw [put_procs, if_pos rfl]⟩
      · refine absurd ⟨j, key, n, hp, .inr rfl, fun cert hcert => ?_⟩ hcut
        obtain ⟨rfl, -⟩ := Prod.mk.inj (Option.some.inj hperform)
        obtain ⟨cert', key', hcert', hkey', hload⟩ := hw
        obtain rfl := Option.some.inj (hcert.symm.trans hcert')
        have hfilled : w.files.key.map (fill (key.take n)) = some key' := hkey'
        rw [hfit.1] at hfilled
        obtain rfl : key.take n = key' := by simpa [fill] using hfilled
        exact hload
    · have hsame : f' = w.files := (perform_files hperform).resolve_right hmaking
      have hw' : Wedged pem w.files := hsame ▸ hw
      obtain ⟨i, key, hpi⟩ := hr hw'
      refine ⟨i, key, ?_⟩
      rw [put_procs, if_neg, hpi]
      rintro rfl
      obtain rfl := Option.some.inj (hp.symm.trans hpi)
      exact hmaking rfl

theorem recovers_iff_uncut (h : exec (step pem) fresh es = some w) (ho : Guarded (step pem) Orderly fresh es) :
    Recovers pem w ↔ Guarded (step pem) (fun w e => ¬ CutsKey pem w e) fresh es := by
  refine last_iff_guarded (I := Sound pem) (fun s e t hs ho hstep => hs.step ho hstep) ?_
    (fun s e t hs hr ho hstep => not_recovers_step hs hr ho hstep) fresh_sound ?_ ho h
  · intro s e t hs hr ho hstep
    constructor
    · intro ht hcut
      exact (not_recovers_iff (hs.step ho hstep)).mpr (hcut.lost hs hstep) ht
    · exact fun hcut => recovers_of_uncut hs hr hcut hstep
  · rintro ⟨cert, key, hcert, -⟩
    cases hcert

/-! ## A start that nothing disturbs -/

theorem exec_put {f : Files} {stage : Stage} {i : ℕ} {out : Outcome} {r : Files × Option Stage}
    (h : stage.perform pem f out = some r) (es : List Event) :
    exec (step pem) (w.put i (f, some stage)) (.op i out :: es) = exec (step pem) (w.put i r) es := by
  refine exec_cons_of_step _ ?_ es
  have hp : (w.put i (f, some stage)).procs i = some stage := by rw [put_procs, if_pos rfl]
  have hfiles : (w.put i (f, some stage)).files = f := rfl
  rw [step, hp, Option.bind_some, hfiles, h, Option.map_some, put, put, Function.update_idem]
  rfl

/-- Two files that fit lead to a process that serves. -/
theorem serves_of_load {cert key : Bytes} {chain : List Bytes} {k : Bytes} (hload : pem.load cert key = some (chain, k))
    (i : ℕ) : exec (step pem) (w.put i (⟨some cert, some key⟩, some .readCert)) [.op i .done, .op i .done] =
      some (w.put i (⟨some cert, some key⟩, some (.serving chain k))) := by
  obtain ⟨hcerts, hkey, haccepts⟩ := load_eq_some.mp hload
  have hchain : Stage.perform pem ⟨some cert, some key⟩ .readCert .done =
      some (⟨some cert, some key⟩, some (.readKey chain)) := by simp [Stage.perform, hcerts]
  have hserving : Stage.perform pem ⟨some cert, some key⟩ (.readKey chain) .done =
      some (⟨some cert, some key⟩, some (.serving chain k)) := by simp [Stage.perform, hkey, haccepts]
  rw [exec_put hchain, exec_put hserving]
  rfl

/-- Whoever finds a file missing makes both. -/
theorem makes_of_load {cert key : Bytes} (hload : (pem.load cert key).isSome) (f : Files) (i : ℕ) (es : List Event) :
    exec (step pem) (w.put i (f, some .generate))
        ([.op i (.made cert key), .op i .done, .op i .done, .op i .done, .op i .done] ++ es) =
      exec (step pem) (w.put i (⟨some cert, some key⟩, some .readCert)) es := by
  have hmade : Stage.perform pem f .generate (.made cert key) = some (f, some (.openCert cert key)) := if_pos hload
  simp only [List.cons_append, List.nil_append]
  rw [exec_put hmade, exec_put rfl, exec_put rfl, exec_put rfl, exec_put rfl]
  simp [fill]

/-- A start that nothing disturbs comes to serve, unless the files are there and cannot be used. -/
theorem serves_of_not_wedged {cert key : Bytes} (hload : (pem.load cert key).isSome) (hw : ¬ Wedged pem w.files) :
    ∃ es, (∀ i, .op i .refused ∉ es) ∧ ∃ v i chain k, exec (step pem) w es = some v ∧
      v.procs i = some (.serving chain k) := by
  obtain ⟨⟨chain, k⟩, hpair⟩ := Option.isSome_iff_exists.mp hload
  let i := w.next
  let w₀ : World := { w with next := w.next + 1 }
  have harrive : step pem w .arrive = some (w₀.put i (w.files, some .lookCert)) := rfl
  have hserving : ∀ (f : Files) (chain : List Bytes) (k : Bytes),
      (w₀.put i (f, some (.serving chain k))).procs i = some (.serving chain k) := by
    intro f chain k
    rw [put_procs, if_pos rfl]
  cases hcert : w.files.cert with
  | none =>
    have hlook : Stage.perform pem w.files .lookCert .done = some (w.files, some .generate) := by
      simp [Stage.perform, hcert]
    refine ⟨.arrive :: .op i .done :: ([.op i (.made cert key), .op i .done, .op i .done, .op i .done, .op i .done] ++
      [.op i .done, .op i .done]), by simp, _, i, chain, k, ?_, hserving ⟨some cert, some key⟩ chain k⟩
    rw [exec_cons_of_step _ harrive, exec_put hlook, makes_of_load hload, serves_of_load hpair]
  | some c =>
    have hlook : Stage.perform pem w.files .lookCert .done = some (w.files, some .lookKey) := by
      simp [Stage.perform, hcert]
    cases hkey : w.files.key with
    | none =>
      have hlookKey : Stage.perform pem w.files .lookKey .done = some (w.files, some .generate) := by
        simp [Stage.perform, hkey]
      refine ⟨.arrive :: .op i .done :: .op i .done :: ([.op i (.made cert key), .op i .done, .op i .done,
        .op i .done, .op i .done] ++ [.op i .done, .op i .done]), by simp, _, i, chain, k, ?_,
        hserving ⟨some cert, some key⟩ chain k⟩
      rw [exec_cons_of_step _ harrive, exec_put hlook, exec_put hlookKey, makes_of_load hload, serves_of_load hpair]
    | some k' =>
      have hlookKey : Stage.perform pem w.files .lookKey .done = some (w.files, some .readCert) := by
        simp [Stage.perform, hkey]
      have hfiles : w.files = ⟨some c, some k'⟩ := by rw [← hcert, ← hkey]
      cases hold : pem.load c k' with
      | none => exact absurd ⟨c, k', hcert, hkey, hold⟩ hw
      | some held =>
        obtain ⟨chain', held⟩ := held
        refine ⟨[.arrive, .op i .done, .op i .done, .op i .done, .op i .done], by simp, _, i, chain', held, ?_,
          hserving ⟨some c, some k'⟩ chain' held⟩
        rw [exec_cons_of_step _ harrive, exec_put hlook, exec_put hlookKey, hfiles, serves_of_load hold]

theorem answered_of_not_refused (hno : ∀ i, .op i .refused ∉ es) : ∀ e ∈ es, ∀ w : World, w.answered e = true := by
  intro e he w
  cases e with
  | op i out =>
    cases out with
    | refused => exact absurd he (hno i)
    | _ => rfl
  | _ => rfl

/-- When all processes have ended, a relay can be started again exactly when none of them has left a key file without
a key. -/
theorem restarts_iff (h : exec (step pem) fresh es = some w) (ho : Guarded (step pem) Orderly fresh es)
    (hquiet : ∀ i, w.procs i = none) {cert key : Bytes} (hpair : (pem.load cert key).isSome) :
    (∃ es' v i chain k, Guarded (step pem) (fun w e => w.answered e = true) w es' ∧ exec (step pem) w es' = some v ∧
        v.procs i = some (.serving chain k)) ↔
      Guarded (step pem) (fun w e => ¬ CutsKey pem w e) fresh es := by
  have hs := sound_run ho h
  have hidle : ∀ i stage, w.procs i = some stage → stage.making = false := by simp [hquiet]
  have hrecovers : Recovers pem w ↔ ¬ Wedged pem w.files := by
    rw [← not_iff_not, not_recovers_iff hs, not_not]
    exact and_iff_left hidle
  rw [← recovers_iff_uncut h ho, hrecovers]
  constructor
  · rintro ⟨es', v, i, chain, k, ha, hv, hp⟩ hw
    exact stuck_of_wedged hw hidle hs ha hv i chain k hp
  · intro hw
    obtain ⟨es', hno, v, i, chain, k, hv, hp⟩ := serves_of_not_wedged hpair hw
    refine ⟨es', v, i, chain, k, ?_, hv, hp⟩
    exact (guarded_of_forall _ (answered_of_not_refused hno) w).imp fun w e h => h w

/-! ### Runs of a relay with short files -/

/-- A certificate and a key of one byte each, which have to be the same. -/
def bytePem : Pem where
  certs := fun b => some (b.map fun x => [x])
  key := fun b => if b = [] then none else some b
  accepts := fun chain k => chain = [k]

/-- Process `i` makes the files and comes to serve. -/
def making (i : ℕ) (b : UInt8) : List Event :=
  [.op i (.made [b] [b]), .op i .done, .op i .done, .op i .done, .op i .done, .op i .done, .op i .done]

def firstStart : List Event := [.arrive, .op 0 .done] ++ making 0 1

/-- It is killed, and two are started at once. -/
def laterStarts : List Event :=
  [.gone 0, .arrive, .arrive, .op 1 .done, .op 2 .done, .op 2 .done, .op 2 .done, .op 1 .done, .op 2 .done]

theorem laterStarts_same :
    ∃ u v, exec (step bytePem) fresh firstStart = some u ∧ exec (step bytePem) u laterStarts = some v ∧
      ∀ chain key, v.procs 2 = some (.serving chain key) → chain = [[1]] ∧ key = [1] := by
  have hfirst : (exec (step bytePem) fresh firstStart).map (fun w => w.procs 0) =
      some (some (.serving [[1]] [1])) := by decide
  obtain ⟨u, hu, hserve⟩ := Option.map_eq_some_iff.mp hfirst
  have hboth : (exec (step bytePem) fresh (firstStart ++ laterStarts)).isSome := by decide
  rw [exec_append_of _ hu] at hboth
  obtain ⟨v, hv⟩ := Option.isSome_iff_exists.mp hboth
  have hanswered : Guarded (step bytePem) (fun w e => w.answered e = true) u laterStarts :=
    (guarded_append _ (by decide : Guarded (step bytePem) (fun w e => w.answered e = true) fresh
      (firstStart ++ laterStarts)) hu).2
  exact ⟨u, v, hu, hv, fun chain key hp => identity_permanent hu (by decide) hv hanswered hserve hp⟩

/-- Two first starts at once: the second one replaces the files of the first, which serves already. -/
def racedStarts : List Event :=
  [.arrive, .arrive, .op 0 .done, .op 1 .done] ++ making 0 1 ++ making 1 2 ++
    [.gone 0, .arrive, .op 2 .done, .op 2 .done, .op 2 .done, .op 2 .done]

theorem racedStarts_differ :
    Guarded (step bytePem) (fun w e => w.answered e = true) fresh racedStarts ∧
      ((exec (step bytePem) fresh (racedStarts.take 11)).map fun w => w.procs 0) = some (some (.serving [[1]] [1])) ∧
      ((exec (step bytePem) fresh racedStarts).map fun w => w.procs 2) = some (some (.serving [[2]] [2])) := by
  decide

/-- The relay is killed when it has created its key file. -/
def cutStart : List Event :=
  [.arrive, .op 0 .done, .op 0 (.made [1] [1]), .op 0 .done, .op 0 .done, .op 0 .done]

theorem cutStart_stuck :
    ∃ w, exec (step bytePem) fresh (cutStart ++ [.gone 0]) = some w ∧
      ¬ ∃ es' v i chain k, Guarded (step bytePem) (fun w e => w.answered e = true) w es' ∧
        exec (step bytePem) w es' = some v ∧ v.procs i = some (.serving chain k) := by
  have hcut : (exec (step bytePem) fresh cutStart).map (fun w => (w.procs 0, w.files, w.next)) =
      some (some (.fillKey [1]), ⟨some [1], some []⟩, 1) := by decide
  obtain ⟨u, hu, hstate⟩ := Option.map_eq_some_iff.mp hcut
  obtain ⟨hp, hrest⟩ := Prod.mk.inj hstate
  obtain ⟨hfiles, hnext⟩ := Prod.mk.inj hrest
  have hgone : exec (step bytePem) u [.gone 0] = some (u.put 0 (u.files, none)) := by
    rw [exec_cons_of_step (t := u.put 0 (u.files, none)) _ (by simp [step, hp])]
    rfl
  have hrun := (exec_append_of _ hu [.gone 0]).trans hgone
  have ho : Guarded (step bytePem) Orderly fresh (cutStart ++ [.gone 0]) := by decide
  have hquiet : ∀ i, (u.put 0 (u.files, none)).procs i = none := by
    intro i
    rw [put_procs]
    split_ifs with hi
    · rfl
    · exact (sound_run (guarded_append _ ho hu).1 hu).known i (by omega)
  refine ⟨_, hrun, fun hserves => ?_⟩
  have hpair : (bytePem.load [1] [1]).isSome := by decide
  have huncut := (restarts_iff hrun ho hquiet hpair).mp hserves
  refine ((guarded_append _ huncut hu).2).1 ⟨0, [1], 0, hp, .inl ⟨rfl, rfl⟩, fun cert hcert => ?_⟩
  rw [hfiles] at hcert
  obtain rfl := Option.some.inj hcert
  decide

end World
end ServerCert
end Zsync
