import Zsync.Daemon.Restart
import Zsync.Storage.Containment

/-! # The mirror of the native clipboard

`Native::set` stores what it sets under `clips/` as well, and `Native::get` answers from there when the
operating system has nothing to offer. The watcher cannot tell such an answer from a copy of its user.

* `native_get` : what the watcher finds comes from the operating system, or from the mirror alone.
* `FromOs` : every clip that was minted carries what the operating system returned at that poll.
* `fromOs_iff_unmirrored` : that is so in all states of a run exactly when the mirror alone never holds
  anything that the watcher would send.
-/

namespace Zsync
set_option autoImplicit false
set_option maxHeartbeats 250000
open Protocol Foundations

section Native
variable {σ ω : Type} (file : Backend σ) (os : Os ω)

/-- What the getter of the operating system returns, when it returns anything. -/
def osData (s : σ × ω) : Option Bytes :=
  match os.getter s.2 with
  | .ok (some item) => some item.data
  | _ => none

/-- What the mirror holds while the operating system offers nothing. -/
def mirrored (s : σ × ω) : Option Item :=
  match os.getter s.2, file.get s.1 with
  | .ok none, .ok stored => stored
  | _, _ => none

variable {file os}

theorem native_get {s : σ × ω} {item : Item} (h : (native file os).get s = .ok (some item)) :
    osData os s = some item.data ∨ osData os s = none ∧ mirrored file os s = some item := by
  unfold native at h
  unfold osData mirrored
  dsimp only at h
  cases hos : os.getter s.2 with
  | error e => simp [hos] at h
  | ok found =>
    rw [hos] at h
    cases found with
    | none =>
      refine .inr ⟨rfl, ?_⟩
      cases hfile : file.get s.1 with
      | error e => simp [hfile] at h
      | ok stored =>
        rw [hfile] at h
        cases stored with
        | none => simp at h
        | some stored => simpa using h
    | some found =>
      -- Whatever is taken from the mirror, the data is the system's.
      refine .inl ?_
      dsimp only at h ⊢
      split at h
      · next os' stored hfound hstored =>
        obtain rfl := Option.some.inj hfound
        by_cases hhash : found.hash = stored.hash
        · rw [if_pos hhash] at h
          obtain rfl := Option.some.inj (Except.ok.inj h)
          rfl
        · rw [if_neg hhash] at h
          split_ifs at h
          · cases h
          · obtain rfl := Option.some.inj (Except.ok.inj h)
            rfl
      · next hfound _ => cases hfound
      · next os' hfound hnone =>
        obtain rfl := Option.some.inj hfound
        split_ifs at h
        · cases h
        · obtain rfl := Option.some.inj (Except.ok.inj h)
          rfl
      · cases h

/-- While the system offers nothing, the watcher finds what the mirror holds. -/
theorem native_get_mirrored {s : σ × ω} {item : Item} (h : mirrored file os s = some item) :
    (native file os).get s = .ok (some item) ∧ osData os s = none := by
  unfold mirrored at h
  split at h
  · next stored hos hfile =>
    subst h
    simp [native, osData, hos, hfile]
  · cases h

end Native

theorem look_eq_some {σ : Type} {B : Backend σ} {s : σ} {item : Item} :
    look B s = some item ↔ B.get s = .ok (some item) ∧ item.data ≠ [] := by
  unfold look
  split
  · next found hget =>
    rw [hget]
    split_ifs with hnil
    · simp only [false_iff, not_and, not_not]
      intro heq
      obtain rfl := Option.some.inj (Except.ok.inj heq)
      exact hnil
    · constructor
      · intro heq
        obtain rfl := Option.some.inj heq
        exact ⟨rfl, hnil⟩
      · rintro ⟨heq, -⟩
        exact Except.ok.inj heq
  · next hget =>
    simp only [reduceCtorEq, false_iff, not_and]
    exact fun heq => absurd heq (hget item)

/-! ## What is minted -/

namespace Watcher
variable {σ ω : Type} [Sha256] (file : Backend σ) (os : Os ω)

/-- The clips that a poll mints, each with what the operating system returned at that poll. -/
def mints (s : Watcher (σ × ω)) (e : WatchEvent (σ × ω)) (t : Watcher (σ × ω)) :
    List (Clip × Option Bytes) :=
  match e with
  | .settle _ =>
    (t.emitted.drop s.emitted.length).map fun out => (out.clip, osData os s.hub.clipboard)
  | _ => []

def FromOs (x : Watcher (σ × ω) × List (Clip × Option Bytes)) : Prop :=
  ∀ m ∈ x.2, m.2 = some m.1.data

/-- The mirror alone holds nothing that the watcher would send: what it holds was seen last, or is not
noticed by the hub, or its number cannot be saved. -/
def Unmirrored (s : Watcher (σ × ω)) : WatchEvent (σ × ω) → Prop
  | .settle saves => ∀ item ∈ mirrored file os s.hub.clipboard,
      item.data ≠ s.last → Hub.Notices s.now item s.hub → saves = false
  | _ => True

instance (s : Watcher (σ × ω)) : ∀ e, Decidable (Unmirrored file os s e)
  | .settle _ => inferInstanceAs (Decidable (∀ item ∈ _, _))
  | .op _ | .tick | .wake | .restart _ => inferInstanceAs (Decidable True)

variable {file os} {s t : Watcher (σ × ω)}

/-- What a settled poll emits: nothing, or the one clip of the content that it found. -/
theorem settle_emits (B : Backend σ) (s : Watcher σ) (saves : Bool) :
    (s.settle B saves).emitted = s.emitted ∨
      ∃ item clip, look B s.hub.clipboard = some item ∧ item.data ≠ s.last ∧
        Hub.Notices s.now item s.hub ∧ saves = true ∧ clip.data = item.data ∧
        (s.settle B saves).emitted = s.emitted ++ [⟨clip, none⟩] := by
  unfold settle
  dsimp only
  cases hl : look B s.hub.clipboard with
  | none => exact .inl rfl
  | some item =>
    dsimp only
    split_ifs with hlast
    · exact .inl rfl
    · have h := Hub.localObserved_observed s.now saves item s.hub
      generalize s.hub.localObserved s.now saves item = ret at h
      cases h with
      | skipped hn => exact .inl (List.append_nil _)
      | unsaved hn hs => exact .inl (List.append_nil _)
      | sent hn hs => exact .inr ⟨item, _, rfl, hlast, hn, hs, rfl, rfl⟩

theorem settle_sent {B : Backend σ} {s : Watcher σ} {item : Item} (hl : look B s.hub.clipboard = some item)
    (hlast : item.data ≠ s.last) (hn : Hub.Notices s.now item s.hub) :
    ∃ clip, clip.data = item.data ∧ (s.settle B true).emitted = s.emitted ++ [⟨clip, none⟩] := by
  unfold settle
  dsimp only
  rw [hl]
  dsimp only
  rw [if_neg hlast]
  have h := Hub.localObserved_observed s.now true item s.hub
  generalize s.hub.localObserved s.now true item = ret at h
  cases h with
  | skipped hn' => exact absurd hn hn'
  | unsaved hn' hs => cases hs
  | sent hn' hs => exact ⟨_, rfl, rfl⟩

theorem fromOs_step_iff {x y : Watcher (σ × ω) × List (Clip × Option Bytes)} {e : WatchEvent (σ × ω)}
    (hx : FromOs x) (hs : recorded (step (native file os)) (mints os) x e = some y) :
    FromOs y ↔ Unmirrored file os x.1 e := by
  obtain ⟨hstep, hh⟩ := recorded_eq_some hs
  cases e with
  | settle saves =>
    have hy : y.1 = x.1.settle (native file os) saves := by
      simp only [step] at hstep
      split_ifs at hstep
      exact (Option.some.inj hstep).symm
    constructor
    · intro h item hitem hlast hn
      obtain ⟨hget, hnone⟩ := native_get_mirrored hitem
      cases saves with
      | false => rfl
      | true =>
        obtain ⟨clip, hdata, hsent⟩ :=
          settle_sent (look_eq_some.mpr ⟨hget, hn.nonempty⟩) hlast hn
        have hmem : (clip, osData os x.1.hub.clipboard) ∈ y.2 := by
          rw [hh, mints, hy, hsent, List.drop_left]
          exact List.mem_append_right _ List.mem_cons_self
        have := h _ hmem
        dsimp only at this
        rw [hnone] at this
        cases this
    · intro h m hm
      rw [hh] at hm
      obtain hm | hm := List.mem_append.mp hm
      · exact hx m hm
      · rw [mints, hy] at hm
        obtain hsame | ⟨item, clip, hl, hlast, hn, rfl, hdata, hsent⟩ :=
          settle_emits (native file os) x.1 saves
        · rw [hsame, List.drop_length] at hm
          exact absurd hm List.not_mem_nil
        · rw [hsent, List.drop_left] at hm
          obtain rfl := List.mem_singleton.mp hm
          dsimp only
          rw [hdata]
          obtain hos | ⟨hnone, hmirror⟩ := native_get (look_eq_some.mp hl).1
          · exact hos
          · have := h item hmirror hlast hn
            cases this
  | _ =>
    refine iff_of_true (fun m hm => ?_) trivial
    rw [hh] at hm
    exact hx m (by simpa [mints] using hm)

/-- Over every mirror and every operating system: each clip that the watcher mints carries what the
system returned at that poll, in all states of a run, exactly when no poll of the run finds something to
send in the mirror alone. -/
theorem fromOs_iff_unmirrored {es : List (WatchEvent (σ × ω))}
    (hrun : (exec (recorded (step (native file os)) (mints os)) (s, []) es).isSome) :
    Along (recorded (step (native file os)) (mints os)) FromOs (s, []) es ↔
      Guarded (recorded (step (native file os)) (mints os)) (fun x => Unmirrored file os x.1) (s, [])
        es :=
  along_iff_guarded (I := fun _ => True) (fun _ _ _ _ _ => trivial)
    (fun _ _ _ _ hx hs => fromOs_step_iff hx hs) trivial
    (fun _ hm => absurd hm List.not_mem_nil) hrun

end Watcher

/-! ### A clip that is only in the mirror -/

/-- A system whose clipboard can be read and written. -/
def plainOs : Os (Option Item) where
  getter := fun s => .ok s
  setter := fun item _ => (.ok (), some item)

def nativeStart : Watcher (FileBackend × Option Item) :=
  Watcher.boot "desktop" (homeBackend, none) ⟨0, []⟩ 5 0

/-- What `clips/` holds after `hi` was applied. -/
def hiMirror [Sha256] [Json Current] : FileBackend :=
  (FileBackend.set (Hub.remoteItem hiClip) homeBackend).2

/-- A copy of the user is what the system returns. -/
theorem yoCopied_fromOs :
    letI := sampleSha256
    letI := sampleJson
    Along (recorded (Watcher.step (native fileBackend plainOs)) (Watcher.mints plainOs)) Watcher.FromOs
      (nativeStart, []) [.op (.put (homeBackend, some yoItem)), .wake, .settle true] := by
  let _ := sampleSha256
  let _ := sampleJson
  refine (Watcher.fromOs_iff_unmirrored (by decide +kernel)).mpr ?_
  decide

/-- `hi` is applied; after a restart the system's clipboard is empty, and the watcher sends `hi` from
the mirror as a copy of the user. -/
theorem hiMirror_minted :
    letI := sampleSha256
    letI := sampleJson
    ∃ x, exec (recorded (Watcher.step (native fileBackend plainOs)) (Watcher.mints plainOs))
        (nativeStart, []) [.op (.deliver hiClip none), .restart (hiMirror, none), .wake, .settle true] =
          some x ∧
      x.2.map (fun m => (m.1.data, m.2)) = [([104, 105], none)] ∧ ¬ Watcher.FromOs x := by
  let _ := sampleSha256
  let _ := sampleJson
  have hrun : (exec (recorded (Watcher.step (native fileBackend plainOs)) (Watcher.mints plainOs))
      (nativeStart, []) [.op (.deliver hiClip none), .restart (hiMirror, none), .wake,
        .settle true]).map (fun x => x.2.map fun m => (m.1.data, m.2)) =
          some [([104, 105], none)] := by
    decide +kernel
  obtain ⟨x, hx, hmints⟩ := Option.map_eq_some_iff.mp hrun
  refine ⟨x, hx, hmints, fun h => ?_⟩
  obtain ⟨m, hm, heq⟩ : ∃ m ∈ x.2, (m.1.data, m.2) = (([104, 105] : Bytes), none) :=
    List.mem_map.mp (by rw [hmints]; exact List.mem_cons_self)
  have hnone : m.2 = none := congrArg Prod.snd heq
  rw [h m hm] at hnone
  cases hnone

end Zsync
