import Zsync.Daemon.Mirror
import Zsync.Hubs.Echo
import Zsync.Hubs.FailedApply

/-! # A copy that fails half way

`local_observed` and `local_push` suppress the hash of the content before they persist the sequence
number, and `local_push` writes the clipboard before that as well. Neither takes anything back when a
later step fails.

* `Retryable` asks that a failed operation leaves a copy that can still be sent.
* `Strands` is the condition of a push that does not: what the backend answers and stores, the ring before
  the push, and whether the number can be saved.
* `retryable_iff` : the operation leaves the copy retryable exactly under `Spared`.
* `settle_stuck`, `stuck_run` : whatever came of a settled poll, the watcher never sends what it found
  there, as long as it finds nothing else.
-/

namespace Zsync
set_option autoImplicit false
set_option maxHeartbeats 250000
open Protocol Foundations

/-- A hash is suppressed at every later time exactly when it is in the ring. -/
theorem Suppress.has_forever_iff (s : Suppress) (now : ℕ) {h : String} (hne : h ≠ "") :
    (∀ later, now ≤ later → s.has later h = true) ↔ h ∈ s.ring := by
  constructor
  · intro hall
    by_contra hr
    -- An entry of the map is stale `ttl + 1` ticks after it was made.
    have hlate : ∀ t, s.items h = some t → False := fun t ht => by
      obtain ⟨-, ⟨t', ht', hrec⟩ | hmem⟩ :=
        (s.has_iff (now + (t + s.ttl + 1)) h).mp (hall _ (Nat.le_add_right _ _))
      · obtain rfl := Option.some.inj (ht.symm.trans ht')
        omega
      · exact hr hmem
    obtain ⟨-, ⟨t, ht, -⟩ | hmem⟩ := (s.has_iff now h).mp (hall now (Nat.le_refl now))
    · exact hlate t ht
    · exact hr hmem
  · intro hr later _
    exact s.has_of_mem_ring later hne hr

namespace Hub
variable {σ : Type} [Sha256] (B : Backend σ) (now : ℕ) (saves : Bool)

/-- The two operations that mint a copy of the user. -/
inductive LocalCall
  | observed (item : Item)
  | push (item : Item)

/-- The content is on the clipboard, and the watcher that finds it there will never send it. -/
def Stranded (data : Bytes) (hub : Hub σ) : Prop :=
  ∃ cur, look B hub.clipboard = some cur ∧ cur.data = data ∧
    ∀ later, now ≤ later → hub.suppress.has later (hashed cur).hash = true

/-- The hub notices the item again and sends it, at any later time at which the number can be saved. -/
def Resends (item : Item) (hub : Hub σ) : Prop :=
  ∀ later, now ≤ later → ∃ clip, clip.data = item.data ∧
    (hub.localObserved later true item).res = .ok (some clip) ∧
    (hub.localObserved later true item).out = [⟨clip, none⟩]

def Retryable (hub : Hub σ) : LocalCall → Prop
  | .observed item => ∀ e, (hub.localObserved now saves item).res = .error e →
      (hub.localObserved now saves item).hub.suppress = hub.suppress ∧
      Resends now item (hub.localObserved now saves item).hub
  | .push item => ∀ e, (hub.localPush B now saves item).res = .error e →
      (hub.localPush B now saves item).out = [] ∧
      ¬ Stranded B now item.data (hub.localPush B now saves item).hub

/-! ## When that is so -/

/-- The clipboard shows the content, and its hash is in the ring once the hashes in `marked` are added: it
is one of them, or it is there already and they do not push it out. -/
def Shows (data : Bytes) (clipboard : σ) (suppress : Suppress) (marked : List String) : Prop :=
  ∃ cur, look B clipboard = some cur ∧ cur.data = data ∧
    ((hashed cur).hash ∈ marked ∨ (hashed cur).hash ∈ suppress.spares marked)

/-- The content is too large and was there before; or the backend stores it although its `set` fails; or it
stores it, and the number cannot be saved. -/
def Strands (item : Item) (hub : Hub σ) : Prop :=
  if maxClip < item.data.length then Shows B item.data hub.clipboard hub.suppress []
  else
    match B.set (hashed item) hub.clipboard with
    | (.error _, clipboard) => Shows B item.data clipboard hub.suppress [(hashed item).hash]
    | (.ok stored, clipboard) =>
      saves = false ∧ Shows B item.data clipboard hub.suppress [(hashed item).hash, stored.hash]

def Spared (hub : Hub σ) : LocalCall → Prop
  | .observed item => saves = true ∨ ¬ Notices now item hub
  | .push item => ¬ Strands B saves item hub

variable {B now saves} {hub : Hub σ} {item : Item}

theorem localPush_error_out {e : HubError} (he : (hub.localPush B now saves item).res = .error e) :
    (hub.localPush B now saves item).out = [] := by
  have h := localPush_pushed B now saves item hub
  generalize hub.localPush B now saves item = ret at h he
  cases h with
  | tooLarge _ => rfl
  | failed _ _ _ _ => rfl
  | unsaved _ _ _ _ _ => rfl
  | sent _ _ _ _ _ => cases he

/-- The state that the content is stranded in, from the clipboard and the ring before. -/
theorem stranded_iff_shows {data : Bytes} {after : Hub σ} {suppress : Suppress} {marked : List String}
    (hfew : marked.length ≤ 8) (hs : after.suppress = suppress.adds now marked) :
    Stranded B now data after ↔ Shows B data after.clipboard suppress marked := by
  unfold Stranded Shows
  refine exists_congr fun cur => and_congr_right fun _ => and_congr_right fun _ => ?_
  rw [hs, Suppress.has_forever_iff _ now (hashed_hash_ne cur)]
  exact suppress.mem_ring_adds_iff now hfew (hashed_hash_ne cur)

/-- A push fails and leaves the content stranded exactly under `Strands`. -/
theorem strands_iff : Strands B saves item hub ↔ (∃ e, (hub.localPush B now saves item).res = .error e) ∧
    Stranded B now item.data (hub.localPush B now saves item).hub := by
  have h := localPush_pushed B now saves item hub
  generalize hub.localPush B now saves item = ret at h
  unfold Strands
  cases h with
  | tooLarge h =>
    rw [if_pos h, and_iff_right ⟨HubError.payloadTooLarge, rfl⟩]
    exact (stranded_iff_shows (Nat.zero_le _) rfl).symm
  | failed hl e clipboard hset =>
    have hadds : (hub.suppressed now (hashed item).hash).suppress =
        hub.suppress.adds now [(hashed item).hash] := rfl
    rw [if_neg (Nat.not_lt.mpr hl), hset, and_iff_right ⟨HubError.backend e, rfl⟩]
    symm
    exact stranded_iff_shows (by simp) hadds
  | unsaved hl hs stored clipboard hset =>
    have hadds : ((hub.wrote now item clipboard stored).bumped false).suppress =
        hub.suppress.adds now [(hashed item).hash, stored.hash] := rfl
    rw [if_neg (Nat.not_lt.mpr hl), hset]
    dsimp only
    rw [and_iff_right hs, and_iff_right ⟨HubError.persistSeq, rfl⟩]
    symm
    exact stranded_iff_shows (by simp) hadds
  | sent hl hs stored clipboard hset =>
    rw [if_neg (Nat.not_lt.mpr hl), hset]
    refine iff_of_false (fun h => Bool.noConfusion (h.1.symm.trans hs)) fun ⟨⟨e, he⟩, _⟩ => ?_
    cases he

/-- A poll that fails has suppressed the content for good: the next poll skips it. -/
theorem localObserved_error {e : HubError} (he : (hub.localObserved now saves item).res = .error e)
    (later : ℕ) :
    Notices now item hub ∧ saves = false ∧
    ((hub.localObserved now saves item).hub.localObserved later true item).res = .ok none := by
  have h := localObserved_observed now saves item hub
  generalize hub.localObserved now saves item = ret at h he
  cases h with
  | skipped _ => cases he
  | sent _ _ => cases he
  | unsaved hn hs =>
    refine ⟨hn, hs, localObserved_none_iff later item _ |>.mpr fun hagain => ?_⟩
    have hmem := Suppress.mem_ring_add hub.suppress now (hashed_hash_ne item)
    have hhas := Suppress.has_of_mem_ring _ later (hashed_hash_ne item) hmem
    exact Bool.noConfusion (hagain.unsuppressed.symm.trans hhas)

theorem localObserved_unsaved (hn : Notices now item hub) (hs : saves = false) :
    (hub.localObserved now saves item).res = .error .persistSeq := by
  have h := localObserved_observed now saves item hub
  generalize hub.localObserved now saves item = ret at h
  cases h with
  | skipped h => exact absurd hn h
  | unsaved _ _ => rfl
  | sent _ hs' => exact Bool.noConfusion (hs.symm.trans hs')

/-- For every hub, backend and item, and every outcome of the writes: the operation leaves the copy
retryable exactly when it is spared. -/
theorem retryable_iff (B : Backend σ) (now : ℕ) (saves : Bool) (hub : Hub σ) (call : LocalCall) :
    Retryable B now saves hub call ↔ Spared B now saves hub call := by
  cases call with
  | observed item =>
    constructor
    · intro h
      by_contra hn
      obtain ⟨hsaves, hnotices⟩ : saves = false ∧ Notices now item hub := by
        simpa [Spared, not_or] using hn
      have he := localObserved_unsaved hnotices hsaves
      obtain ⟨clip, -, hres, -⟩ := (h _ he).2 now (Nat.le_refl now)
      rw [(localObserved_error he now).2.2] at hres
      cases hres
    · rintro h e he
      obtain ⟨hn, hs, -⟩ := localObserved_error he now
      obtain h | h := h
      · exact Bool.noConfusion (hs.symm.trans h)
      · exact absurd hn h
  | push item =>
    have hstrands : Strands B saves item hub ↔ _ := @strands_iff _ _ B now saves hub item
    constructor
    · intro h hn
      obtain ⟨⟨e, he⟩, hs⟩ := hstrands.mp hn
      exact (h e he).2 hs
    · intro h e he
      exact ⟨localPush_error_out he, fun hs => h (hstrands.mpr ⟨⟨e, he⟩, hs⟩)⟩

/-- With a backend that stores what it is given, every push whose number is not saved strands what the
user copied. -/
theorem stranded_of_unsaved (hB : Exact B) (hne : item.data ≠ []) (hl : item.data.length ≤ maxClip) :
    Stranded B now item.data (hub.localPush B now false item).hub := by
  obtain ⟨stored, clipboard, hset, hget, hdata, hhash⟩ :=
    hB (hashed item) hub.clipboard (hashed_hash_ne item) hl
  have hdata' : stored.data = item.data := hdata
  refine (strands_iff.mp ?_).2
  rw [Strands, if_neg (Nat.not_lt.mpr hl), hset]
  refine ⟨rfl, stored, look_eq_some.mpr ⟨hget, by rw [hdata']; exact hne⟩, hdata', .inl ?_⟩
  have hne' : stored.hash ≠ "" := hhash ▸ hashed_hash_ne item
  rw [hashed_of_ne hne', hhash]
  exact List.mem_cons_self

end Hub

/-! ## The watcher afterwards -/

namespace Watcher
variable {σ : Type} [Sha256] {B : Backend σ} {s t : Watcher σ}

/-- Whatever the watcher finds on the clipboard is what it saw last or suppressed for good. -/
def Stuck (B : Backend σ) (s : Watcher σ) : Prop :=
  ∀ cur, look B s.hub.clipboard = some cur →
    cur.data = s.last ∨ (Hub.hashed cur).hash ∈ s.hub.suppress.ring

/-- The daemon goes on and the clipboard is left alone. -/
inductive Idle : WatchEvent σ → Prop
  | tick : Idle .tick
  | wake : Idle .wake
  | settle (saves : Bool) : Idle (.settle saves)

theorem settle_clipboard (saves : Bool) : (s.settle B saves).hub.clipboard = s.hub.clipboard := by
  unfold settle
  dsimp only
  cases look B s.hub.clipboard with
  | none => rfl
  | some item =>
    dsimp only
    split_ifs
    · rfl
    · have h := Hub.localObserved_observed s.now saves item s.hub
      generalize s.hub.localObserved s.now saves item = ret at h
      cases h <;> rfl

/-- What a settled poll found counts as seen, also when sending it failed. -/
theorem settle_last {item : Item} (hl : look B s.hub.clipboard = some item) (saves : Bool) :
    (s.settle B saves).last = item.data := by
  unfold settle
  dsimp only
  rw [hl]
  dsimp only
  split_ifs with hlast
  · exact hlast.symm
  · rfl

theorem settle_stuck (saves : Bool) : Stuck B (s.settle B saves) := by
  intro cur hcur
  rw [settle_clipboard] at hcur
  exact .inl (settle_last hcur saves).symm

theorem stuck_of_stranded {data : Bytes} (h : Hub.Stranded B s.now data s.hub) : Stuck B s := by
  obtain ⟨cur, hcur, -, hforever⟩ := h
  intro cur' hcur'
  obtain rfl := Option.some.inj (hcur.symm.trans hcur')
  exact .inr ((Suppress.has_forever_iff _ s.now (Hub.hashed_hash_ne cur)).mp hforever)

theorem Stuck.settle (h : Stuck B s) (saves : Bool) : (s.settle B saves).emitted = s.emitted := by
  obtain hsame | ⟨item, -, hl, hlast, hn, -⟩ := settle_emits B s saves
  · exact hsame
  · obtain hseen | hmem := h item hl
    · exact absurd hseen hlast
    · have hhas := s.hub.suppress.has_of_mem_ring s.now (Hub.hashed_hash_ne item) hmem
      exact Bool.noConfusion (hn.unsuppressed.symm.trans hhas)

theorem Stuck.step {e : WatchEvent σ} (h : Stuck B s) (he : Idle e)
    (hs : Watcher.step B s e = some t) : Stuck B t ∧ t.emitted = s.emitted := by
  cases he with
  | tick =>
    obtain rfl := Option.some.inj hs
    exact ⟨h, rfl⟩
  | wake =>
    simp only [Watcher.step] at hs
    split_ifs at hs
    obtain rfl := Option.some.inj hs
    unfold wake
    split
    · exact ⟨h, rfl⟩
    · split_ifs
      · exact ⟨h, rfl⟩
      · exact ⟨h, rfl⟩
  | settle saves =>
    simp only [Watcher.step] at hs
    split_ifs at hs
    obtain rfl := Option.some.inj hs
    exact ⟨settle_stuck saves, h.settle saves⟩

/-- Nothing is sent any more, however long the daemon goes on. -/
theorem stuck_run {es : List (WatchEvent σ)} (h : Stuck B s) (hidle : ∀ e ∈ es, Idle e)
    (hrun : exec (Watcher.step B) s es = some t) : t.emitted = s.emitted := by
  have hstep : ∀ u e v, Stuck B u ∧ u.emitted = s.emitted → Idle e → Watcher.step B u e = some v →
      Stuck B v ∧ v.emitted = s.emitted := fun u e v hu he hs => by
    obtain ⟨hv, hout⟩ := hu.1.step he hs
    exact ⟨hv, hout.trans hu.2⟩
  exact (exec_guarded hstep ⟨h, rfl⟩ (guarded_of_forall _ hidle s) hrun).2

end Watcher

/-! ### A copy while `state.json.tmp` cannot be written -/

/-- The first copy of the user is stored, and cannot be sent any more. -/
theorem hiPush_stranded :
    letI := sampleSha256
    ¬ Hub.Retryable memory 0 false desktop (.push hiItem) := by
  let _ := sampleSha256
  intro h
  rw [Hub.Retryable] at h
  refine (h .persistSeq (by decide)).2 ?_
  exact Hub.stranded_of_unsaved memory_exact (by decide) (by decide)

end Zsync
