import Zsync.Model.Pins

/-! # Pins that stay

Once the certificate of a hub is pinned, the pin should stay, and every session that starts after should
accept this certificate only. The file is one map for all hubs, which each session reads, changes and writes
as a whole.

* `Trusted` : the pins that were saved are in the file, and a session that starts after accepts no other
  certificate (`Trusted.rejects`).
* `InTurn` : nobody writes a map without a pin that was saved, or another pin for the same hub, or half a
  file; and a session to a hub with a saved pin does not miss the file.
* `trusted_iff_inTurn` : pins stay, and are kept to, exactly when all steps are in turn.
-/

namespace Zsync
set_option autoImplicit false
set_option maxHeartbeats 250000
open Protocol Foundations

/-! ## A pin is read back -/

theorem parsePin_hexEncode (hub : String) {pin : Bytes} (h : pin.length = 32) :
    parsePin hub (hexEncode pin) = .ok pin := by
  obtain ⟨digits, hm, hlen, hpairs⟩ := Group.mapM_hexChars pin
  unfold parsePin
  rw [hexEncode, String.toList_ofList, hm]
  dsimp only
  rw [if_pos (by omega), hpairs]

theorem loadPin_addPin_self (hub : String) {pin : Bytes} (h : pin.length = 32)
    (map : String → Option String) :
    loadPin .found hub (.pins (addPin hub pin map)) = .ok (some pin) := by
  unfold loadPin addPin
  simp only [Function.update_self]
  rw [parsePin_hexEncode hub h]
  rfl

theorem loadPin_addPin_of_ne {hub other : String} (h : other ≠ hub) (pin : Bytes)
    (map : String → Option String) :
    loadPin .found other (.pins (addPin hub pin map)) = loadPin .found other (.pins map) := by
  unfold loadPin addPin
  simp only [Function.update_of_ne h]

namespace Pins

/-! ## What should hold -/

structure Trusted (s : Pins) : Prop where
  kept : ∀ p ∈ s.saved, loadPin .found p.1 s.file = .ok (some p.2)
  /-- What a session that is about to shake hands will compare the certificate with. -/
  keptTo : ∀ i session, s.sessions i = some session → session.stage = .loaded →
    ∀ p ∈ session.before, p.1 = session.hub → session.verifier.expected = some p.2

def toWrite : RelayStage → Option (Bytes × (String → Option String))
  | .saving got map => some (got, map)
  | _ => none

variable [Sha256]

/-- No other certificate gets through the handshake. -/
theorem Trusted.rejects {s : Pins} (h : Trusted s) {i : ℕ} {session : RelaySession}
    (hi : s.sessions i = some session) (hl : session.stage = .loaded) {p : String × Bytes} (hp : p ∈ session.before)
    (hhub : p.1 = session.hub) {der : Bytes} (hne : certFingerprint der ≠ p.2) :
    ∃ e, (shaken session der).stage = .ended e := by
  have hexp := h.keptTo i session hi hl p hp hhub
  refine ⟨"ApplicationVerificationFailure", ?_⟩
  simp only [shaken, TofuVerifier.verify, hexp, ne_eq, Ne.symm hne, not_false_eq_true, if_true]

def InTurn (s : Pins) : PinEvent → Prop
  | .start _ hub .hidden => ∀ p ∈ s.saved, p.1 ≠ hub
  | .write i .done => ∀ session ∈ s.sessions i, ∀ w ∈ toWrite session.stage, ∀ p ∈ s.saved,
      if p.1 = session.hub then p.2 = w.1 else loadPin .found p.1 (.pins w.2) = .ok (some p.2)
  | .write _ (.torn _) => s.saved = []
  | _ => True

instance (s : Pins) (e : PinEvent) : Decidable (InTurn s e) :=
  match e with
  | .start _ _ .found => isTrue trivial
  | .start _ _ .hidden => inferInstanceAs (Decidable (∀ p ∈ s.saved, _))
  | .start _ _ (.unreadable _) => isTrue trivial
  | .handshake .. => isTrue trivial
  | .read .. => isTrue trivial
  | .write i .done => inferInstanceAs (Decidable (∀ session ∈ s.sessions i,
      ∀ w ∈ toWrite session.stage, ∀ p ∈ s.saved,
        if p.1 = session.hub then p.2 = w.1 else loadPin .found p.1 (.pins w.2) = .ok (some p.2)))
  | .write _ (.refused _) => isTrue trivial
  | .write _ (.torn _) => inferInstanceAs (Decidable (s.saved = []))

/-! ## What a step can do -/

inductive Took (s : Pins) : PinEvent → Pins → Prop
  | failed {i : ℕ} {hub : String} {sight : Sight} {e : String} : loadPin sight hub s.file = .error e →
      Took s (.start i hub sight) (s.put i ⟨hub, ⟨none, none⟩, .ended e, s.saved⟩)
  | started {i : ℕ} {hub : String} {sight : Sight} {pin : Option Bytes} :
      loadPin sight hub s.file = .ok pin →
      Took s (.start i hub sight) (s.put i ⟨hub, ⟨pin, none⟩, .loaded, s.saved⟩)
  | shaken {i : ℕ} {der : Bytes} {session : RelaySession} :
      s.sessions i = some session →
      Took s (.handshake i der) (s.put i (shaken session der))
  | read {i : ℕ} {sight : Sight} {session : RelaySession} {got : Bytes} :
      s.sessions i = some session → session.stage = .unpinned got →
      Took s (.read i sight) (s.put i { session with stage := .saving got (s.file.toSave sight) })
  | written {i : ℕ} {session : RelaySession} {got : Bytes} {map : String → Option String} :
      s.sessions i = some session → session.stage = .saving got map →
      Took s (.write i .done)
        { s.put i { session with stage := .joined } with
          file := .pins (addPin session.hub got map)
          saved := s.saved ++ [(session.hub, got)] }
  | refused {i : ℕ} {session : RelaySession} {e : String} :
      s.sessions i = some session →
      Took s (.write i (.refused e)) (s.put i { session with stage := .ended e })
  | torn {i : ℕ} {session : RelaySession} {e : String} :
      s.sessions i = some session →
      Took s (.write i (.torn e))
        { s.put i { session with stage := .ended e } with file := .malformed e }

theorem took {s t : Pins} {e : PinEvent} (h : step s e = some t) : Took s e t := by
  cases e with
  | start i hub sight =>
    simp only [step] at h
    split at h
    · cases h
    · split at h
      · next e he =>
        cases h
        exact .failed he
      · next pin hpin =>
        cases h
        exact .started hpin
  | handshake i der =>
    obtain ⟨session, hs, h⟩ := Option.bind_eq_some_iff.mp h
    split at h
    · cases h
      exact .shaken hs
    · cases h
  | read i sight =>
    obtain ⟨session, hs, h⟩ := Option.bind_eq_some_iff.mp h
    split at h
    · next got hgot =>
      cases h
      exact .read hs hgot
    · cases h
  | write i writing =>
    obtain ⟨session, hs, h⟩ := Option.bind_eq_some_iff.mp h
    split at h
    · next got map hgot =>
      cases writing with
      | done =>
        cases h
        exact .written hs hgot
      | refused e =>
        cases h
        exact .refused hs
      | torn e =>
        cases h
        exact .torn hs
    · cases h

/-- After the handshake there is a fingerprint to save, or none is needed, or the session is over. -/
theorem shaken_stage (session : RelaySession) (der : Bytes) : (shaken session der).stage ≠ .loaded ∧
    (∀ got map, (shaken session der).stage ≠ .saving got map) ∧
    ∀ got, (shaken session der).stage = .unpinned got → got = certFingerprint der := by
  obtain ⟨hub, ⟨expected, observed⟩, stage, before⟩ := session
  unfold shaken TofuVerifier.verify
  cases expected with
  | none => simp
  | some want =>
    by_cases hw : want = certFingerprint der
    · simp [hw]
    · simp [hw]

/-! ## The invariant -/

/-- What is saved, or will be, is a fingerprint. -/
structure Inv (s : Pins) : Prop where
  pinSize : ∀ p ∈ s.saved, p.2.length = 32
  gotSize : ∀ i session, s.sessions i = some session → ∀ got,
    session.stage = .unpinned got ∨ (∃ map, session.stage = .saving got map) → got.length = 32

theorem fingerprint_length (der : Bytes) : (certFingerprint der).length = 32 := by
  simp [certFingerprint]

omit [Sha256] in
theorem inv_fresh : Inv fresh := by
  refine ⟨?_, ?_⟩ <;> simp [fresh]

omit [Sha256] in
theorem trusted_fresh : Trusted fresh := by
  refine ⟨?_, ?_⟩ <;> simp [fresh]

omit [Sha256] in
/-- The invariant when one session changes. -/
theorem Inv.update {s t : Pins} (h : Inv s) {i : ℕ} {session : RelaySession}
    (ht : t.sessions = Function.update s.sessions i (some session))
    (hsize : ∀ p ∈ t.saved, p.2.length = 32)
    (hgot : ∀ got, session.stage = .unpinned got ∨ (∃ map, session.stage = .saving got map) →
      got.length = 32) : Inv t := by
  refine ⟨hsize, fun j => ?_⟩
  by_cases hj : j = i
  · subst hj
    simpa [ht] using hgot
  · simpa [ht, Function.update_of_ne hj] using h.gotSize j

theorem inv_step {s t : Pins} {e : PinEvent} (h : Inv s) (ht : step s e = some t) : Inv t := by
  cases took ht with
  | failed => exact h.update rfl h.pinSize (by simp)
  | started => exact h.update rfl h.pinSize (by simp)
  | @shaken i der session hi =>
    obtain ⟨-, hsaving, hunpinned⟩ := shaken_stage session der
    refine h.update rfl h.pinSize fun got hgot => ?_
    obtain hgot | ⟨map, hgot⟩ := hgot
    · rw [hunpinned got hgot]
      exact fingerprint_length _
    · exact absurd hgot (hsaving got map)
  | read hi hgot =>
    refine h.update rfl h.pinSize fun got' hgot' => ?_
    obtain hgot' | ⟨map, hgot'⟩ := hgot'
    · cases hgot'
    · cases hgot'
      exact h.gotSize _ _ hi _ (.inl hgot)
  | @written i session got map hi hgot =>
    refine h.update rfl (fun p hp => ?_) (by simp)
    obtain hp | hp := List.mem_append.mp hp
    · exact h.pinSize p hp
    · obtain rfl := List.mem_singleton.mp hp
      exact h.gotSize _ _ hi _ (.inr ⟨map, hgot⟩)
  | refused => exact h.update rfl h.pinSize (by simp)
  | torn => exact h.update rfl h.pinSize (by simp)

/-! ## One step -/

omit [Sha256] in
/-- A session goes on: what counts is the pins in the file. -/
theorem trusted_update_iff {s t : Pins} (hs : Trusted s) {i : ℕ} {session : RelaySession}
    (ht : t.sessions = Function.update s.sessions i (some session)) (hstage : session.stage ≠ .loaded) :
    Trusted t ↔ ∀ p ∈ t.saved, loadPin .found p.1 t.file = .ok (some p.2) := by
  refine ⟨fun h => h.kept, fun h => ⟨h, fun j => ?_⟩⟩
  by_cases hj : j = i
  · subst hj
    simp [ht, hstage]
  · simpa [ht, Function.update_of_ne hj] using hs.keptTo j

omit [Sha256] in
/-- A session that starts looks for the pins that were saved. -/
theorem trusted_start_iff {s : Pins} (hs : Trusted s) (i : ℕ) (hub : String) (pin : Option Bytes) :
    Trusted (s.put i ⟨hub, ⟨pin, none⟩, .loaded, s.saved⟩) ↔ ∀ p ∈ s.saved, p.1 = hub → pin = some p.2 := by
  constructor
  · intro h
    exact h.keptTo i _ (Function.update_self ..) rfl
  · intro h
    refine ⟨hs.kept, fun j session hj hl => ?_⟩
    simp only [put, Function.update_apply] at hj
    split_ifs at hj
    · obtain rfl := Option.some.inj hj
      exact h
    · exact hs.keptTo j session hj hl

omit [Sha256] in
/-- What `load_pin` gives for a hub with a saved pin. -/
theorem loadPin_saved {s : Pins} (hs : Trusted s) {hub : String} {sight : Sight} {pin : Option Bytes}
    (hload : loadPin sight hub s.file = .ok pin) {p : String × Bytes} (hp : p ∈ s.saved) (hhub : p.1 = hub) :
    (sight = .found ∧ pin = some p.2) ∨ (sight = .hidden ∧ pin = none) := by
  have hkept := hs.kept p hp
  rw [hhub] at hkept
  cases sight with
  | found =>
    rw [hload] at hkept
    exact .inl ⟨rfl, Except.ok.inj hkept⟩
  | hidden =>
    refine .inr ⟨rfl, ?_⟩
    cases hfile : s.file <;> rw [hfile] at hload <;> exact (Except.ok.inj hload).symm
  | unreadable e =>
    cases hfile : s.file with
    | missing =>
      rw [hfile] at hkept
      cases hkept
    | malformed e =>
      rw [hfile] at hload
      cases hload
    | pins map =>
      rw [hfile] at hload
      cases hload

omit [Sha256] in
/-- A session writes the map that it read, with its own pin. -/
theorem kept_writes_iff {saved : List (String × Bytes)} {hub : String} {got : Bytes}
    {map : String → Option String} (hgot : got.length = 32) :
    (∀ p ∈ saved ++ [(hub, got)], loadPin .found p.1 (.pins (addPin hub got map)) = .ok (some p.2)) ↔
      ∀ p ∈ saved, if p.1 = hub then p.2 = got else loadPin .found p.1 (.pins map) = .ok (some p.2) := by
  have hself := loadPin_addPin_self hub hgot map
  have hread : ∀ p : String × Bytes, loadPin .found p.1 (.pins (addPin hub got map)) = .ok (some p.2) ↔
      if p.1 = hub then p.2 = got else loadPin .found p.1 (.pins map) = .ok (some p.2) := by
    intro p
    split_ifs with hp
    · rw [hp, hself]
      simp [eq_comm]
    · rw [loadPin_addPin_of_ne hp]
  rw [List.forall_mem_append, List.forall_mem_singleton, and_iff_left hself]
  exact forall₂_congr fun p _ => hread p

theorem trusted_step_iff {s t : Pins} {e : PinEvent} (h : Inv s) (hs : Trusted s)
    (ht : step s e = some t) : Trusted t ↔ InTurn s e := by
  cases took ht with
  | @failed i hub sight e he =>
    rw [trusted_update_iff hs rfl (by simp)]
    refine iff_of_true hs.kept ?_
    cases sight with
    | found => trivial
    | unreadable e' => trivial
    | hidden =>
      cases hfile : s.file <;> rw [hfile] at he <;> cases he
  | @started i hub sight pin hload =>
    rw [trusted_start_iff hs]
    cases sight with
    | found =>
      refine iff_of_true (fun p hp hhub => ?_) trivial
      obtain ⟨-, hpin⟩ | ⟨hsight, -⟩ := loadPin_saved hs hload hp hhub
      · exact hpin
      · cases hsight
    | hidden =>
      refine forall₂_congr fun p hp => ⟨fun hpin hhub => ?_, fun hne hhub => absurd hhub hne⟩
      obtain ⟨hsight, -⟩ | ⟨-, hnone⟩ := loadPin_saved hs hload hp hhub
      · cases hsight
      · rw [hpin hhub] at hnone
        cases hnone
    | unreadable e =>
      refine iff_of_true (fun p hp hhub => ?_) trivial
      obtain ⟨hsight, -⟩ | ⟨hsight, -⟩ := loadPin_saved hs hload hp hhub
      · cases hsight
      · cases hsight
  | @shaken i der session hi =>
    rw [trusted_update_iff hs rfl (shaken_stage session der).1]
    exact iff_of_true hs.kept trivial
  | read =>
    rw [trusted_update_iff hs rfl (by simp)]
    exact iff_of_true hs.kept trivial
  | @written i session got map hi hgot =>
    rw [trusted_update_iff hs rfl (by simp), InTurn, hi]
    have hsize := h.gotSize _ _ hi _ (.inr ⟨map, hgot⟩)
    simpa [hgot, toWrite] using kept_writes_iff hsize
  | refused =>
    rw [trusted_update_iff hs rfl (by simp)]
    exact iff_of_true hs.kept trivial
  | torn hi =>
    rw [trusted_update_iff hs rfl (by simp)]
    refine ⟨fun hall => ?_, fun hnil p hp => ?_⟩
    · apply List.eq_nil_iff_forall_not_mem.mpr
      intro p hp
      have := hall p hp
      cases this
    · rw [InTurn] at hnil
      change p ∈ s.saved at hp
      rw [hnil] at hp
      cases hp

/-! ## The result -/

/-- In every run of a leaf's sessions, pins stay in the file and are kept to all along iff every step is
in turn. -/
theorem trusted_iff_inTurn (es : List PinEvent) (hrun : (exec step fresh es).isSome) :
    Along step Trusted fresh es ↔ Guarded step InTurn fresh es :=
  along_iff_guarded_of (fun _ _ _ h _ ht => inv_step h ht)
    (fun _ _ _ h hs ht => trusted_step_iff h hs ht) inv_fresh trusted_fresh hrun

end Pins

/-! ### One relay under two addresses -/

/-- A self-signed certificate for `zsyncd`. -/
def relayCert : Bytes :=
  [0x30, 0x82, 0x01, 0x04, 0x30, 0x81, 0xb7, 0xa0, 0x03, 0x02, 0x01, 0x02, 0x02, 0x01, 0x01, 0x30,
    0x05, 0x06, 0x03, 0x2b, 0x65, 0x70, 0x30, 0x11, 0x31, 0x0f, 0x30, 0x0d, 0x06, 0x03, 0x55, 0x04,
    0x03, 0x0c, 0x06, 0x7a, 0x73, 0x79, 0x6e, 0x63, 0x64, 0x30, 0x1e, 0x17, 0x0d, 0x32, 0x36, 0x31,
    0x31, 0x32, 0x30, 0x30, 0x31, 0x34, 0x30, 0x32, 0x37, 0x5a, 0x17, 0x0d, 0x33, 0x36, 0x31, 0x31,
    0x31, 0x37, 0x30, 0x31, 0x34, 0x30, 0x32, 0x37, 0x5a, 0x30, 0x11, 0x31, 0x0f, 0x30, 0x0d, 0x06,
    0x03, 0x55, 0x04, 0x03, 0x0c, 0x06, 0x7a, 0x73, 0x79, 0x6e, 0x63, 0x64, 0x30, 0x2a, 0x30, 0x05,
    0x06, 0x03, 0x2b, 0x65, 0x70, 0x03, 0x21, 0x00, 0xab, 0xbf, 0x87, 0x55, 0x14, 0x15, 0xdd, 0x56,
    0x32, 0x9c, 0x39, 0x7f, 0x4b, 0xcc, 0x43, 0x88, 0xd9, 0x78, 0x57, 0xf0, 0xbc, 0xf7, 0x5d, 0xce,
    0x97, 0x6f, 0x47, 0xbc, 0x87, 0x7a, 0x8b, 0x7b, 0xa3, 0x34, 0x30, 0x32, 0x30, 0x11, 0x06, 0x03,
    0x55, 0x1d, 0x11, 0x04, 0x0a, 0x30, 0x08, 0x82, 0x06, 0x7a, 0x73, 0x79, 0x6e, 0x63, 0x64, 0x30,
    0x1d, 0x06, 0x03, 0x55, 0x1d, 0x0e, 0x04, 0x16, 0x04, 0x14, 0x93, 0x88, 0x3a, 0x69, 0x77, 0x92,
    0xfa, 0x1a, 0xff, 0xb0, 0x9d, 0x75, 0x92, 0x14, 0xf7, 0xff, 0xce, 0x92, 0x1d, 0x97, 0x30, 0x05,
    0x06, 0x03, 0x2b, 0x65, 0x70, 0x03, 0x41, 0x00, 0x7d, 0x3d, 0x8b, 0xf2, 0xe7, 0xe4, 0xb7, 0x7f,
    0x21, 0xbd, 0xdd, 0xa2, 0xa1, 0x56, 0x2f, 0x51, 0xfb, 0xe9, 0x4d, 0x33, 0xb6, 0x3e, 0xd2, 0x5b,
    0x29, 0x64, 0xaf, 0x78, 0xaf, 0x5d, 0x4f, 0xc8, 0xf8, 0x70, 0x1f, 0xf5, 0x41, 0x02, 0xcc, 0x00,
    0x2a, 0xea, 0xf9, 0x28, 0xef, 0x00, 0x3e, 0x05, 0x3e, 0xa1, 0xbd, 0x10, 0x16, 0xa3, 0x97, 0x6b,
    0x95, 0xf3, 0xce, 0x3a, 0x9e, 0x0c, 0x30, 0x06]

/-- SHA-256 at this certificate. -/
abbrev certSha256 : Sha256 where
  digest := fun data =>
    if data = relayCert then
      #v[0xdf, 0x10, 0x2c, 0xbf, 0x5c, 0xb5, 0x8e, 0xa7, 0x44, 0x44, 0x73, 0xf3, 0xb2, 0xa5, 0x1d, 0x6a,
        0xd2, 0x0d, 0xad, 0x9d, 0x75, 0xf2, 0x2e, 0xeb, 0xde, 0xfc, 0x1e, 0x75, 0xac, 0x44, 0x7e, 0x4d]
    else Vector.replicate 32 0

def relayPin : Bytes := letI := certSha256; certFingerprint relayCert

/-- A session to an address that has no pin yet. -/
def firstSession (i : ℕ) (hub : String) : List PinEvent :=
  [.start i hub .found, .handshake i relayCert, .read i .found, .write i .done]

/-- The two addresses are pinned one after the other, and a third session meets the first pin. -/
def oneByOne : List PinEvent :=
  firstSession 0 "10.0.0.7:43721" ++ firstSession 1 "[2001:db8::7]:43721" ++
    [.start 2 "10.0.0.7:43721" .found, .handshake 2 relayCert]

theorem oneByOne_trusted :
    letI := certSha256
    Along Pins.step Pins.Trusted Pins.fresh oneByOne :=
  (@Pins.trusted_iff_inTurn certSha256 oneByOne (by decide +kernel)).mpr (by decide +kernel)

/-- Two sessions save at the same time: both have read the file before one of them writes. -/
def atOnce : List PinEvent :=
  [.start 0 "10.0.0.7:43721" .found, .start 1 "[2001:db8::7]:43721" .found, .handshake 0 relayCert,
    .handshake 1 relayCert, .read 0 .found, .read 1 .found, .write 0 .done, .write 1 .done]

/-- The pin of the first address was written, and is gone. -/
theorem atOnce_lost :
    letI := certSha256
    ∃ s, exec Pins.step Pins.fresh atOnce = some s ∧ ("10.0.0.7:43721", relayPin) ∈ s.saved ∧
      loadPin .found "10.0.0.7:43721" s.file = .ok none ∧ ¬ Pins.Trusted s := by
  let _ := certSha256
  have h : (exec Pins.step Pins.fresh atOnce).map
      (fun s => (s.saved.head?, loadPin .found "10.0.0.7:43721" s.file)) =
      some (some ("10.0.0.7:43721", relayPin), .ok none) := by decide +kernel
  obtain ⟨s, hs, he⟩ := Option.map_eq_some_iff.mp h
  obtain ⟨hsaved, hload⟩ := Prod.mk.inj he
  have hmem := List.mem_of_mem_head? hsaved
  refine ⟨s, hs, hmem, hload, fun ht => ?_⟩
  have hkept := ht.kept _ hmem
  rw [hload] at hkept
  cases hkept

end Zsync
