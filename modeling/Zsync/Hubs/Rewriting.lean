import Zsync.Hubs.Echo

/-! # Backends that rewrite what they are given

After a write the hub suppresses the hash it was given and the hash of the stored item, and does not
look at what the backend hands back. Whether the watcher then stays silent depends on the read-back
alone.

* `Outlasts` is what the echo table will answer after a write, said of the table before it.
* `silent_iff` : after a successful write the watcher is silent about the read-back exactly when
  that is empty, too large, or outlasts the write in the table.
* `rewriting_silent` adds whole runs: between two hubs whose read-backs are covered, the frames on
  the wire are bounded by what the users did.
-/

namespace Zsync
set_option autoImplicit false
set_option maxHeartbeats 250000
open Protocol Foundations

/-! ## After one write -/

/-- The table `s` suppresses `x` at `later`, once `hashes` were added. -/
def Suppress.Outlasts (s : Suppress) (later : ℕ) (hashes : List String) (x : String) : Prop :=
  x ∈ hashes ∨ s.Recent later x ∨
    x ∈ s.ring.drop (s.ring.length + (Suppress.named hashes).length - s.max)

namespace Hub
variable {σ : Type} [Sha256] {B : Backend σ}

/-- Looking at the read-back mints nothing, emits nothing and changes nothing. -/
def Silent (B : Backend σ) (later : ℕ) (hub : Hub σ) : Prop :=
  ∀ saves back, B.get hub.clipboard = .ok (some back) →
    hub.localObserved later saves back = ⟨.ok none, hub, []⟩

theorem silent_iff_not_notices (later : ℕ) (hub : Hub σ) :
    Silent B later hub ↔
      ∀ back, B.get hub.clipboard = .ok (some back) → ¬ Notices later back hub := by
  constructor
  · intro h back hback
    exact (localObserved_none_iff later back hub).mp (by rw [h true back hback])
  · intro h saves back hback
    exact localObserved_of_not_notices (h back hback) saves

theorem not_notices_iff (now : ℕ) (item : Item) (hub : Hub σ) :
    ¬ Notices now item hub ↔ item.data = [] ∨ maxClip < item.data.length ∨
      hub.suppress.has now (hashed item).hash = true := by
  constructor
  · intro h
    by_contra hn
    rw [not_or, not_or, Nat.not_lt, Bool.not_eq_true] at hn
    exact h ⟨hn.1, hn.2.1, hn.2.2⟩
  · rintro (h | h | h) hn
    · exact hn.nonempty h
    · exact absurd hn.fits (Nat.not_le.mpr h)
    · exact Bool.noConfusion (h.symm.trans hn.unsuppressed)

theorem silent_iff {now later : ℕ} (hle : now ≤ later) {hub after : Hub σ} {item stored : Item}
    (hw : Writes B now hub after item stored) :
    Silent B later after ↔
      ∀ back, B.get (B.set item hub.clipboard).2 = .ok (some back) →
        back.data = [] ∨ maxClip < back.data.length ∨
          hub.suppress.Outlasts later [item.hash, stored.hash] (hashed back).hash := by
  obtain ⟨_, _, hset, hsup⟩ := hw.effect
  have hhas : ∀ back, after.suppress.has later (hashed back).hash = true ↔
      hub.suppress.Outlasts later [item.hash, stored.hash] (hashed back).hash := by
    intro back
    rw [hsup, Suppress.has_adds _ hle (by simp)]
    exact and_iff_right (hashed_hash_ne back)
  rw [silent_iff_not_notices, hset]
  refine forall_congr' fun back => imp_congr Iff.rfl ?_
  rw [not_notices_iff, hhas]

end Hub

/-! ## Two hubs -/

namespace Net
variable {ι σ : Type} {P : Peering ι}

/-- Each hub has at most one peer. -/
def OnePeer (P : Peering ι) : Prop := ∀ l l', P.source l = P.source l' → P.target l = P.target l'

theorem onePeer_link (a b : String) : OnePeer (link a b) := by
  rintro ⟨_, d⟩ ⟨_, d'⟩ h
  cases d <;> cases d' <;> simp_all [Peering.source, Peering.target, link]

/-- A link carries only what its sender minted. -/
def Minted (P : Peering ι) (n : Net ι σ) : Prop :=
  ∀ l, (n.carried l).length ≤ (n.minted (P.source l)).length

theorem Start.minted_only {n : Net ι σ} (hn : Start n) : Minted P n := by
  intro l
  rw [hn.carried l]
  exact Nat.zero_le _

theorem Minted.mint {n : Net ι σ} (hn : Minted P n) {hub after : Hub σ} {outs : List Outbound}
    (h : String) (w : Writer) (hm : hub.Mints after outs) :
    Minted P ((n.setHub h after w).mint P h outs) := by
  cases hm with
  | silent =>
    rw [mint_nil]
    exact hn
  | one clip =>
    intro l
    have hle := hn l
    rw [mint_carried, mint_minted, Peering.frames_none, setHub_carried, setHub_minted]
    by_cases hl : P.source l = h
    · rw [if_pos hl, hl, Function.update_self, List.length_append, List.length_append]
      rw [hl] at hle
      exact Nat.add_le_add hle (Nat.le_refl 1)
    · rw [if_neg hl, Function.update_of_ne hl]
      exact hle

variable [DecidableEq ι] [Sha256]

theorem Minted.step (hP : OnePeer P) (B : String → Backend σ) (put : Item → σ → σ) {n m : Net ι σ}
    {e : NetEvent ι} (hn : Minted P n) (hs : Net.step P B put n e = some m) : Minted P m := by
  cases e with
  | copy h item =>
    obtain rfl := Option.some.inj hs
    exact hn
  | push h saves item =>
    obtain rfl := Option.some.inj hs
    exact hn.mint h _ (Hub.localPush_mints _ _ _ _ _)
  | poll h saves =>
    obtain rfl | ⟨item, hget, rfl⟩ := step_poll hs
    · exact hn
    · exact hn.mint h _ (Hub.localObserved_mints _ _ _ _)
  | deliver l i =>
    generalize hb : P.target l = b
    obtain ⟨clip, hi, rfl⟩ := step_deliver hb hs
    -- The only peer of `b` is where the frame came from, and that is skipped.
    have hnone : ∀ x, P.source x = b →
        P.frames x ((n.hub b).applyFrom (B b) n.clock clip (P.source l)).out = [] := by
      intro x hx
      have hpeer : P.target x = P.source l := by
        rw [← P.target_back l]
        exact hP x l.back (by rw [hx, P.source_back, hb])
      rw [Hub.applyFrom_out]
      split_ifs
      · rw [Peering.frames_some, if_neg fun hc => hc.2 hpeer]
      · rfl
    intro x
    rw [forward_carried, forward_minted, setHub_carried, setHub_minted, take_carried, take_minted]
    split_ifs with hx
    · rw [hnone x hx, List.map_nil, List.append_nil]
      exact hn x
    · exact hn x
  | drop l i =>
    obtain ⟨clip, -, rfl⟩ := step_drop hs
    exact hn
  | tick d =>
    obtain rfl := Option.some.inj hs
    exact hn

end Net

/-! ## Both together -/

def emptyHub : Hub (Option Item) := Hub.new "desktop" none ⟨⟨0, []⟩, ⟨0, []⟩⟩ 5

/-- After one write, and over whole runs of two hubs. -/
theorem rewriting_silent [Sha256] :
    (∀ {σ : Type} {B : Backend σ} {now later : ℕ} {hub after : Hub σ} {item stored : Item},
      now ≤ later → Hub.Writes B now hub after item stored →
      (Hub.Silent B later after ↔
        ∀ back, B.get (B.set item hub.clipboard).2 = .ok (some back) →
          back.data = [] ∨ maxClip < back.data.length ∨
            hub.suppress.Outlasts later [item.hash, stored.hash] (Hub.hashed back).hash)) ∧
    ∀ {ι σ : Type} [DecidableEq ι] {P : Peering ι} {B : String → Backend σ} {put : Item → σ → σ}
      {n m : Net ι σ} {es : List (NetEvent ι)},
      Net.OnePeer P → (∀ h, Covers (B h)) → Net.Start n → (∀ h, n.writer h = .user) →
      exec (Net.step P B put) n es = some m →
      ∀ l, (m.carried l).length ≤ 1 + es.countP (Net.Prompts (P.source l)) := by
  refine ⟨fun hle hw => Hub.silent_iff hle hw, ?_⟩
  intro ι σ _ P B put n m es hP hB hn hwriter hr l
  have hminted : Net.Minted P m :=
    exec_invariant (fun _ _ _ hi hs => hi.step hP B put hs) hn.minted_only hr
  have hsettled : Net.Settled B n := fun h hw => absurd (hwriter h) hw
  have hdebt : Net.debt (P.source l) n = 1 := by
    rw [Net.debt, Net.pending, hn.minted, if_pos (hwriter _)]
    rfl
  have hle := Net.minted_le_prompts P put hB hsettled hr (P.source l)
  rw [hdebt] at hle
  exact (hminted l).trans hle

theorem rewriting_silent_desktop :
    letI := sampleSha256
    Hub.Silent memory 5 (emptyHub.applyRemote memory 0 hiClip).hub ∧
      ∃ m, exec (Net.step (link "laptop" "desktop") (fun _ => memory) fun item _ => some item)
          Net.freshNet (lateLook ((), false)) = some m ∧
        (m.carried ((), false)).length ≤ 1 + (lateLook ((), false)).countP (Net.Prompts "laptop") := by
  let _ := sampleSha256
  refine ⟨?_, ?_⟩
  · refine (rewriting_silent.1 (Nat.zero_le 5)
      (.applied hiClip (Hub.remoteItem hiClip) (some (Hub.remoteItem hiClip)) (by decide) rfl)).mpr ?_
    intro back hback
    obtain rfl := Option.some.inj (Except.ok.inj hback)
    exact .inr (.inr (.inl (by decide)))
  · obtain ⟨m, hm⟩ : ∃ m, exec (Net.step (link "laptop" "desktop") (fun _ => memory)
        fun item _ => some item) Net.freshNet (lateLook ((), false)) = some m := ⟨_, rfl⟩
    exact ⟨m, hm, rewriting_silent.2 (Net.onePeer_link _ _) (fun _ => memory_exact.covers)
      Net.freshNet_start (fun _ => rfl) hm ((), false)⟩

/-! ### A clipboard that ends text with a newline -/

/-- The system's clipboard holds text; a newline is added when it does not end in one. -/
def newlineOs [Sha256] : Os Bytes where
  getter := fun text => .ok (if text = [] then none else some (Item.new "text/plain" text))
  setter := fun item _ =>
    (.ok (), if item.data.getLast? = some 10 then item.data else item.data ++ [10])

def newlineHub : Hub (Option Item × Bytes) := Hub.new "desktop" (none, []) ⟨⟨0, []⟩, ⟨0, []⟩⟩ 5

/-- The remote `hi` is read back as `hi\n`, and sent as a new copy. -/
theorem newline_echo :
    letI := sampleSha256
    Hub.Writes (native memory newlineOs) 0 newlineHub
        (newlineHub.applyRemote (native memory newlineOs) 0 hiClip).hub (Hub.remoteItem hiClip)
        (Hub.remoteItem hiClip) ∧
      ¬ Hub.Silent (native memory newlineOs) 0
        (newlineHub.applyRemote (native memory newlineOs) 0 hiClip).hub := by
  let _ := sampleSha256
  refine ⟨.applied hiClip _ _ (by decide) rfl, fun h => ?_⟩
  have hecho := congrArg Ret.out (h true (Item.new "text/plain" [104, 105, 10]) (by decide))
  revert hecho
  decide

end Zsync
