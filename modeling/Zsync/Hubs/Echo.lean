import Zsync.Hubs.Network

/-! # Echo suppression

A hub that writes its clipboard leaves the hash of what it wrote in the ring of the echo table, and
only the next write of the clipboard can push it out. So a watcher that reads the content back finds
its hash in the table, however much time has passed.

* `Covers` says of a backend that it does not fail and that what it returns after a write is passed
  over once the written hashes are suppressed; `Exact` is the special case of a backend that returns
  what was set.
* `Settled` is the invariant: content that was written by the hub, or noticed since its user put it
  there, has its hash in the ring.
* `no_echo` : in every run the watcher is silent about the hub's own writes, and a hub mints only
  for `zsync copy` or for content of its user.
* `minted_le_prompts` bounds what a hub mints by what its user did.
-/

namespace Zsync
set_option autoImplicit false
set_option maxHeartbeats 250000
open Protocol Foundations

/-! ## Backends -/

section Backends
variable {σ : Type} [Sha256]

/-- The watcher passes this over when the hashes `hs` are suppressed. -/
def Covered (hs : List String) (item : Item) : Prop :=
  item.data = [] ∨ maxClip < item.data.length ∨ (Hub.hashed item).hash ∈ hs

/-- What is read back after a write is covered by the hashes that the write suppresses. -/
def Covers (B : Backend σ) : Prop :=
  ∀ item s, item.hash ≠ "" → item.data.length ≤ maxClip →
    ∃ stored s', B.set item s = (.ok stored, s') ∧
      ∀ back, B.get s' = .ok (some back) → Covered [item.hash, stored.hash] back

/-- `get` returns exactly the last item set, and nothing fails. -/
def Exact (B : Backend σ) : Prop :=
  ∀ item s, item.hash ≠ "" → item.data.length ≤ maxClip →
    ∃ stored s', B.set item s = (.ok stored, s') ∧ B.get s' = .ok (some stored) ∧
      stored.data = item.data ∧ stored.hash = item.hash

theorem Exact.covers {B : Backend σ} (hB : Exact B) : Covers B := by
  intro item s hne hl
  obtain ⟨stored, s', hset, hget, _, hh⟩ := hB item s hne hl
  refine ⟨stored, s', hset, fun back hback => .inr (.inr ?_)⟩
  obtain rfl : stored = back := Option.some.inj (Except.ok.inj (hget.symm.trans hback))
  rw [Hub.hashed_of_ne (hh ▸ hne), hh]
  exact List.mem_cons_self

theorem memory_exact : Exact memory := by
  intro item s hne _
  rw [Hub.memory_set, Hub.hashed_of_ne hne]
  exact ⟨item, some item, rfl, rfl, rfl, rfl⟩

end Backends

/-! ## One hub -/

namespace Hub
variable {σ : Type} [Sha256] {B : Backend σ}

/-- A successful write: the operation, the item handed to the backend and the item it stored. -/
inductive Writes (B : Backend σ) (now : ℕ) (hub : Hub σ) : Hub σ → Item → Item → Prop
  | applied (clip : Clip) (stored : Item) (s : σ) (hl : Lands B clip hub)
    (hset : B.set (remoteItem clip) hub.clipboard = (.ok stored, s)) :
    Writes B now hub (hub.applyRemote B now clip).hub (remoteItem clip) stored
  | pushed (saves : Bool) (item stored : Item) (s : σ) (hl : item.data.length ≤ maxClip)
    (hset : B.set (hashed item) hub.clipboard = (.ok stored, s)) :
    Writes B now hub (hub.localPush B now saves item).hub (hashed item) stored

/-- It suppresses the hash of the item and the hash of what was stored. -/
theorem Writes.effect {now : ℕ} {hub after : Hub σ} {item stored : Item}
    (h : Writes B now hub after item stored) :
    item.hash ≠ "" ∧ item.data.length ≤ maxClip ∧
    B.set item hub.clipboard = (.ok stored, after.clipboard) ∧
    after.suppress = hub.suppress.adds now [item.hash, stored.hash] := by
  cases h with
  | applied clip _ s hl hset =>
    have hne : clip.clipMeta.hash ≠ "" := hl.verified.hash_eq ▸ hash_ne_empty clip.data
    rw [applyRemote_stored B now hl hset]
    exact ⟨hne, hl.verified.fits, hset, rfl⟩
  | pushed saves item _ s hl hset =>
    have h := localPush_pushed B now saves item hub
    generalize hub.localPush B now saves item = ret at h
    cases h with
    | tooLarge h => exact absurd hl (Nat.not_le.mpr h)
    | failed _ e s' hset' =>
      rw [hset] at hset'
      cases hset'
    | unsaved _ _ stored' s' hset' =>
      rw [hset] at hset'
      cases hset'
      exact ⟨hashed_hash_ne item, hl, hset, rfl⟩
    | sent _ _ stored' s' hset' =>
      rw [hset] at hset'
      cases hset'
      exact ⟨hashed_hash_ne item, hl, hset, rfl⟩

/-- The present content is covered by the ring. -/
def Ringed (B : Backend σ) (hub : Hub σ) : Prop :=
  ∀ item, B.get hub.clipboard = .ok (some item) → Covered hub.suppress.ring item

theorem not_notices_of_covered {hub : Hub σ} {item : Item} (h : Covered hub.suppress.ring item)
    (now : ℕ) : ¬ Notices now item hub := by
  intro hn
  obtain h | h | h := h
  · exact hn.nonempty h
  · exact absurd hn.fits (Nat.not_le.mpr h)
  · have hhas := hub.suppress.has_of_mem_ring now (hashed_hash_ne item) h
    exact Bool.noConfusion (hhas.symm.trans hn.unsuppressed)

theorem Writes.ringed (hB : Covers B) {now : ℕ} {hub after : Hub σ} {item stored : Item}
    (h : Writes B now hub after item stored) : Ringed B after := by
  obtain ⟨hne, hl, hset, hsup⟩ := h.effect
  obtain ⟨stored', s', hset', hcov⟩ := hB item hub.clipboard hne hl
  rw [hset] at hset'
  obtain ⟨hst, hs⟩ := Prod.mk.inj hset'
  obtain rfl := Except.ok.inj hst
  intro back hback
  rw [hs] at hback
  refine (hcov back hback).imp_right (Or.imp_right fun hmem => ?_)
  rw [hsup]
  exact Suppress.mem_ring_adds _ _ (by simp) hmem (hashed_hash_ne back)

theorem localObserved_of_not_notices {now : ℕ} {item : Item} {hub : Hub σ}
    (hn : ¬ Notices now item hub) (saves : Bool) :
    hub.localObserved now saves item = ⟨.ok none, hub, []⟩ := by
  have h := localObserved_observed now saves item hub
  generalize hub.localObserved now saves item = ret at h
  cases h with
  | skipped _ => rfl
  | unsaved h _ => exact absurd h hn
  | sent h _ => exact absurd h hn

theorem set_not_error (hB : Covers B) {item : Item} {s s' : σ} {e : BackendError}
    (hne : item.hash ≠ "") (hl : item.data.length ≤ maxClip) : B.set item s ≠ (.error e, s') := by
  obtain ⟨stored, _, hset, _⟩ := hB item s hne hl
  rw [hset]
  intro h
  cases h

theorem localPush_ringed (hB : Covers B) (now : ℕ) (saves : Bool) {item : Item} {hub : Hub σ}
    (hw : PushWrites B item hub) : Ringed B (hub.localPush B now saves item).hub := by
  cases hset : B.set (hashed item) hub.clipboard with
  | mk res s =>
    cases res with
    | error e => exact absurd hset (set_not_error hB (hashed_hash_ne item) hw.1)
    | ok stored => exact (Writes.pushed saves item stored s hw.1 hset).ringed hB

theorem localPush_idle (hB : Covers B) (now : ℕ) (saves : Bool) {item : Item} {hub : Hub σ}
    (hw : ¬ PushWrites B item hub) :
    (hub.localPush B now saves item).hub = hub ∧ (hub.localPush B now saves item).out = [] := by
  have h := localPush_pushed B now saves item hub
  generalize hub.localPush B now saves item = ret at h
  cases h with
  | tooLarge h => exact ⟨rfl, rfl⟩
  | failed hl e s hset => exact absurd hset (set_not_error hB (hashed_hash_ne item) hl)
  | unsaved hl _ stored s hset => exact absurd ⟨hl, by rw [hset]; rfl⟩ hw
  | sent hl _ stored s hset => exact absurd ⟨hl, by rw [hset]; rfl⟩ hw

theorem localObserved_ringed (now : ℕ) (saves : Bool) {item : Item} {hub : Hub σ}
    (hget : B.get hub.clipboard = .ok (some item)) (hn : Notices now item hub) :
    Ringed B (hub.localObserved now saves item).hub := by
  have hadd : Ringed B (hub.suppressed now (hashed item).hash) := by
    intro back hback
    obtain rfl : item = back := Option.some.inj (Except.ok.inj (hget.symm.trans hback))
    exact .inr (.inr (Suppress.mem_ring_add _ _ (hashed_hash_ne item)))
  have h := localObserved_observed now saves item hub
  generalize hub.localObserved now saves item = ret at h
  cases h with
  | skipped h => exact absurd hn h
  | unsaved _ _ => exact hadd
  | sent _ _ => exact hadd

/-- A remote clip that is written is ringed; one that is not written leaves ringed content so. -/
theorem applyRemote_ringed (hB : Covers B) (now : ℕ) {clip : Clip} {hub : Hub σ}
    (h : ApplyWrites B clip hub ∨ Ringed B hub) : Ringed B (hub.applyRemote B now clip).hub := by
  have hap := applyRemote_applied B now clip hub
  generalize hub.applyRemote B now clip = ret at hap
  cases hap with
  | rejected reason hv => exact h.resolve_left fun hw => hv hw.1.verified
  | own hv ho => exact h.resolve_left fun hw => hw.1.remote ho
  | duplicate hv ho hf =>
    exact h.resolve_left fun hw => Bool.noConfusion (hf.symm.trans hw.1.fresh)
  | present hv ho hf hp =>
    have hne : clip.clipMeta.hash ≠ "" := hv.hash_eq ▸ hash_ne_empty clip.data
    intro item hget
    have hhash : item.hash = clip.clipMeta.hash := by
      have hget' : B.get hub.clipboard = .ok (some item) := hget
      rw [Hub.present, hget'] at hp
      exact of_decide_eq_true hp
    refine .inr (.inr ?_)
    rw [hashed_of_ne (hhash ▸ hne), hhash]
    exact Suppress.mem_ring_add _ _ hne
  | failed hl e s hset =>
    have hne : clip.clipMeta.hash ≠ "" := hl.verified.hash_eq ▸ hash_ne_empty clip.data
    exact absurd hset (set_not_error hB hne hl.verified.fits)
  | stored hl item s hset =>
    have hw : Writes B now hub (hub.applyRemote B now clip).hub (remoteItem clip) item :=
      .applied clip item s hl hset
    have hringed := hw.ringed hB
    rw [applyRemote_stored B now hl hset] at hringed
    exact hringed

end Hub

/-! ## The whole network -/

namespace Net
variable {ι σ : Type} [Sha256] [DecidableEq ι] (P : Peering ι)
variable (B : String → Backend σ) (put : Item → σ → σ)

def Settled (n : Net ι σ) : Prop := ∀ h, n.writer h ≠ .user → (n.hub h).Ringed (B h)

variable {B}

omit [DecidableEq ι] in
/-- Only the hub of `h` and its writer change. -/
theorem Settled.setHub {n : Net ι σ} (hn : Settled B n) {h : String} {hub : Hub σ} {w : Writer}
    (hw : w ≠ .user → hub.Ringed (B h)) : Settled B (n.setHub h hub w) := by
  intro x hx
  rw [setHub_writer, Function.update_apply] at hx
  rw [setHub_hub, Function.update_apply]
  split_ifs at hx ⊢ with hxh
  · rw [hxh]
    exact hw hx
  · exact hn x hx

theorem Settled.step (hB : ∀ h, Covers (B h)) {n m : Net ι σ} {e : NetEvent ι} (hn : Settled B n)
    (hs : step P B put n e = some m) : Settled B m := by
  cases e with
  | copy h item =>
    obtain rfl := Option.some.inj hs
    exact hn.setHub fun hw => absurd rfl hw
  | push h saves item =>
    obtain rfl := Option.some.inj hs
    change Settled B (n.setHub h _ _)
    apply hn.setHub
    intro hw
    by_cases hp : (n.hub h).PushWrites (B h) item
    · exact Hub.localPush_ringed (hB h) n.clock saves hp
    · rw [if_neg hp] at hw
      rw [(Hub.localPush_idle (hB h) n.clock saves hp).1]
      exact hn h hw
  | poll h saves =>
    obtain rfl | ⟨item, hget, rfl⟩ := step_poll hs
    · exact hn
    · change Settled B (n.setHub h _ _)
      apply hn.setHub
      intro hw
      by_cases hno : (n.hub h).Notices n.clock item
      · exact Hub.localObserved_ringed n.clock saves hget hno
      · rw [Hub.localObserved_of_not_notices hno]
        rw [if_neg fun h => hno h.2] at hw
        exact hn h hw
  | deliver l i =>
    generalize hb : P.target l = b
    obtain ⟨clip, hi, rfl⟩ := step_deliver hb hs
    change Settled B ((n.take l i clip).setHub b _ _)
    apply Settled.setHub (n := n.take l i clip) hn
    intro hw
    rw [Hub.applyFrom_hub]
    apply Hub.applyRemote_ringed (hB b) n.clock
    by_cases hwrites : (n.hub b).ApplyWrites (B b) clip
    · exact .inl hwrites
    · rw [if_neg hwrites] at hw
      exact .inr (hn b hw)
  | drop l i =>
    obtain ⟨clip, -, rfl⟩ := step_drop hs
    exact hn
  | tick d =>
    obtain rfl := Option.some.inj hs
    exact hn

theorem settled_run (hB : ∀ h, Covers (B h)) {n m : Net ι σ} {es : List (NetEvent ι)}
    (hn : ∀ h, n.writer h = .user) (hr : exec (step P B put) n es = some m) : Settled B m :=
  exec_invariant (fun _ _ _ hi hs => hi.step P put hB hs) (fun h hw => absurd (hn h) hw) hr

omit [DecidableEq ι] in
theorem Settled.silent {n : Net ι σ} (hn : Settled B n) {h : String} (hw : n.writer h ≠ .user)
    {item : Item} (hget : (B h).get (n.hub h).clipboard = .ok (some item)) (now : ℕ) (saves : Bool) :
    (n.hub h).localObserved now saves item = ⟨.ok none, n.hub h, []⟩ :=
  Hub.localObserved_of_not_notices (Hub.not_notices_of_covered (hn h hw item hget) now) saves

/-- What minting moves: the log of minted copies and the counter. -/
def SameMint (h : String) (n m : Net ι σ) : Prop :=
  m.minted h = n.minted h ∧ (m.hub h).state.inner.seq = (n.hub h).state.inner.seq

omit [Sha256] [DecidableEq ι] in
/-- An operation at another hub, or one that keeps counter and emits nothing. -/
theorem sameMint_mint {n : Net ι σ} {h x : String} {hub : Hub σ} (w : Writer) {outs : List Outbound}
    (hx : h ≠ x ∨ hub.state.inner.seq = (n.hub x).state.inner.seq ∧ outs = []) :
    SameMint h n ((n.setHub x hub w).mint P x outs) := by
  rw [SameMint, mint_minted, mint_hub, setHub_hub, setHub_minted, Function.update_apply,
    Function.update_apply]
  split_ifs with hhx
  · obtain ⟨hseq, rfl⟩ := hx.resolve_left fun hne => hne hhx
    rw [hhx]
    exact ⟨List.append_nil _, hseq⟩
  · exact ⟨rfl, rfl⟩

/-- A step mints only for `zsync copy` or for content that its user put there. -/
theorem Settled.mint_cause {n m : Net ι σ} {e : NetEvent ι} (hn : Settled B n)
    (hs : Net.step P B put n e = some m) (h : String) :
    (∃ saves item, e = .push h saves item) ∨ (∃ saves, e = .poll h saves ∧ n.writer h = .user) ∨
      SameMint h n m := by
  cases e with
  | copy x item =>
    obtain rfl := Option.some.inj hs
    refine .inr (.inr ⟨rfl, ?_⟩)
    rw [setHub_hub, Function.update_apply]
    split_ifs with hx
    · rw [hx]
    · rfl
  | push x saves item =>
    obtain rfl := Option.some.inj hs
    by_cases hx : h = x
    · exact .inl ⟨saves, item, hx ▸ rfl⟩
    · exact .inr (.inr (sameMint_mint P _ (.inl hx)))
  | poll x saves =>
    obtain rfl | ⟨item, hget, rfl⟩ := step_poll hs
    · exact .inr (.inr ⟨rfl, rfl⟩)
    · by_cases hx : h = x
      · subst hx
        by_cases hw : n.writer h = .user
        · exact .inr (.inl ⟨saves, rfl, hw⟩)
        · rw [hn.silent hw hget]
          exact .inr (.inr (sameMint_mint P _ (.inr ⟨rfl, rfl⟩)))
      · exact .inr (.inr (sameMint_mint P _ (.inl hx)))
  | deliver l i =>
    generalize hb : P.target l = b
    obtain ⟨clip, hi, rfl⟩ := step_deliver hb hs
    refine .inr (.inr ⟨rfl, ?_⟩)
    rw [forward_hub, setHub_hub, Function.update_apply]
    split_ifs with hx
    · rw [hx, Hub.applyFrom_hub, (Hub.applyRemote_kept (B b) n.clock clip (n.hub b)).2]
    · rfl
  | drop l i =>
    obtain ⟨clip, -, rfl⟩ := step_drop hs
    exact .inr (.inr ⟨rfl, rfl⟩)
  | tick d =>
    obtain rfl := Option.some.inj hs
    exact .inr (.inr ⟨rfl, rfl⟩)

/-- No echo is minted: the watcher is silent about what the hub wrote, and a step that moves a
counter or mints is a `zsync copy` or looks at content of the user. -/
theorem no_echo (hB : ∀ h, Exact (B h)) {n m : Net ι σ} {es : List (NetEvent ι)}
    (hn : ∀ h, n.writer h = .user) (hr : exec (step P B put) n es = some m) :
    (∀ h now saves item, m.writer h = .hub → (B h).get (m.hub h).clipboard = .ok (some item) →
      (m.hub h).localObserved now saves item = ⟨.ok none, m.hub h, []⟩) ∧
    ∀ e t h, step P B put m e = some t → ¬ SameMint h m t →
      (∃ saves item, e = .push h saves item) ∨ ∃ saves, e = .poll h saves ∧ m.writer h = .user := by
  have hm : Settled B m := settled_run P put (fun h => (hB h).covers) hn hr
  refine ⟨fun h now saves item hw hget => ?_, fun e t h hs hne => ?_⟩
  · exact hm.silent (by rw [hw]; simp) hget now saves
  · obtain hc | hc | hc := hm.mint_cause P put hs h
    · exact .inl hc
    · exact .inr hc
    · exact absurd hc hne

/-! ## What a hub mints and what its user did -/

def Prompts (h : String) : NetEvent ι → Bool
  | .copy x _ => x = h
  | .push x _ _ => x = h
  | _ => false

/-- Content of the user that nobody has noticed yet. -/
def pending (h : String) (n : Net ι σ) : ℕ := if n.writer h = .user then 1 else 0

omit [Sha256] [DecidableEq ι] in
theorem pending_le_one (h : String) (n : Net ι σ) : pending h n ≤ 1 := by
  unfold pending
  split_ifs <;> omega

/-- Minted copies and pending content together: each of the user's actions adds at most one. -/
def debt (h : String) (n : Net ι σ) : ℕ := (n.minted h).length + pending h n

omit [Sha256] [DecidableEq ι] in
theorem debt_mint (h x : String) (n : Net ι σ) (hub : Hub σ) (w : Writer) (outs : List Outbound) :
    debt h ((n.setHub x hub w).mint P x outs) =
      if h = x then (n.minted x).length + outs.length + (if w = .user then 1 else 0)
      else debt h n := by
  rw [debt, pending, mint_minted, mint_writer, setHub_writer, setHub_minted, Function.update_apply,
    Function.update_apply]
  split_ifs
  · rw [List.length_append, List.length_map]
  · rw [List.length_append, List.length_map]
  · next h1 h2 => rw [debt, pending, if_pos h2]
  · next h1 h2 => rw [debt, pending, if_neg h2]

omit [Sha256] [DecidableEq ι] in
theorem mints_length_le {hub after : Hub σ} {outs : List Outbound} (h : hub.Mints after outs) :
    outs.length ≤ 1 := by
  cases h <;> simp

omit [DecidableEq ι] in
/-- A push mints at most one copy, and leaves pending content pending or writes over it. -/
theorem push_debt (hB : ∀ h, Covers (B h)) (n : Net ι σ) (h : String) (saves : Bool) (item : Item) :
    ((n.hub h).localPush (B h) n.clock saves item).out.length +
      (if (if (n.hub h).PushWrites (B h) item then .hub else n.writer h) = Writer.user then 1 else 0) ≤
      pending h n + 1 := by
  by_cases hp : (n.hub h).PushWrites (B h) item
  · have hlen := mints_length_le (Hub.localPush_mints (B h) n.clock saves item (n.hub h))
    rw [if_pos hp, if_neg (by simp)]
    omega
  · rw [(Hub.localPush_idle (hB h) n.clock saves hp).2, if_neg hp, List.length_nil, ← pending]
    omega

omit [DecidableEq ι] in
/-- A poll mints only what was pending, and then it is not pending any more. -/
theorem Settled.poll_debt {n : Net ι σ} (hn : Settled B n) {h : String} {item : Item}
    (hget : (B h).get (n.hub h).clipboard = .ok (some item)) (saves : Bool) :
    ((n.hub h).localObserved n.clock saves item).out.length +
      (if (if n.writer h = .user ∧ (n.hub h).Notices n.clock item then .observed
        else n.writer h) = Writer.user then 1 else 0) ≤ pending h n := by
  by_cases hw : n.writer h = .user
  · by_cases hno : (n.hub h).Notices n.clock item
    · have hlen := mints_length_le (Hub.localObserved_mints n.clock saves item (n.hub h))
      have hp : pending h n = 1 := if_pos hw
      have hnoticed : (if n.writer h = .user ∧ (n.hub h).Notices n.clock item then .observed
          else n.writer h) = Writer.observed := if_pos ⟨hw, hno⟩
      rw [hnoticed, if_neg (by simp)]
      omega
    · have hkept : (if n.writer h = .user ∧ (n.hub h).Notices n.clock item then .observed
          else n.writer h) = n.writer h := if_neg fun hc => hno hc.2
      rw [Hub.localObserved_of_not_notices hno, hkept, List.length_nil, ← pending]
      omega
  · have hkept : (if n.writer h = .user ∧ (n.hub h).Notices n.clock item then .observed
        else n.writer h) = n.writer h := if_neg fun hc => hw hc.1
    rw [hn.silent hw hget, hkept, List.length_nil, ← pending]
    omega

theorem Settled.debt_step (hB : ∀ h, Covers (B h)) {n m : Net ι σ} {e : NetEvent ι}
    (hn : Settled B n) (hs : Net.step P B put n e = some m) (h : String) :
    debt h m ≤ debt h n + (if Prompts h e then 1 else 0) := by
  have hself : debt h n = (n.minted h).length + pending h n := rfl
  have hone := pending_le_one h n
  cases e with
  | copy x item =>
    obtain rfl := Option.some.inj hs
    rw [debt, pending, setHub_minted, setHub_writer, Function.update_apply]
    by_cases hx : h = x
    · rw [if_pos hx, if_pos rfl, if_pos (by simp [Prompts, hx])]
      omega
    · rw [if_neg hx]
      exact Nat.le_add_right _ _
  | push x saves item =>
    obtain rfl := Option.some.inj hs
    rw [debt_mint]
    by_cases hx : h = x
    · subst hx
      have hprompt : (if Prompts h (.push h saves item : NetEvent ι) then 1 else 0) = 1 := by simp [Prompts]
      have hpush := push_debt hB n h saves item
      rw [if_pos rfl, hprompt]
      omega
    · rw [if_neg hx]
      exact Nat.le_add_right _ _
  | poll x saves =>
    obtain rfl | ⟨item, hget, rfl⟩ := step_poll hs
    · exact Nat.le_add_right _ _
    · rw [debt_mint]
      by_cases hx : h = x
      · subst hx
        have hpoll := hn.poll_debt hget saves
        rw [if_pos rfl]
        omega
      · rw [if_neg hx]
        exact Nat.le_add_right _ _
  | deliver l i =>
    generalize hb : P.target l = b
    obtain ⟨clip, hi, rfl⟩ := step_deliver hb hs
    refine Nat.le_trans ?_ (Nat.le_add_right _ _)
    apply Nat.add_le_add (Nat.le_refl _)
    rw [pending, pending, forward_writer, setHub_writer, take_writer, Function.update_apply]
    by_cases hx : h = b
    · rw [if_pos hx, hx]
      by_cases hw : (n.hub b).ApplyWrites (B b) clip
      · rw [if_pos hw, if_neg (by decide)]
        exact Nat.zero_le _
      · rw [if_neg hw]
    · rw [if_neg hx]
  | drop l i =>
    obtain ⟨clip, -, rfl⟩ := step_drop hs
    exact Nat.le_add_right _ _
  | tick d =>
    obtain rfl := Option.some.inj hs
    exact Nat.le_add_right _ _

/-- A hub mints at most one copy for each action of its user, and one for what its user had put on
the clipboard before. -/
theorem minted_le_prompts (hB : ∀ h, Covers (B h)) {n m : Net ι σ} {es : List (NetEvent ι)}
    (hn : Settled B n) (hr : exec (step P B put) n es = some m) (h : String) :
    (m.minted h).length ≤ debt h n + es.countP (Prompts h) := by
  have hdebt : debt h m ≤ debt h n + es.countP (Prompts h) := by
    induction es generalizing n with
    | nil =>
      obtain rfl := Option.some.inj hr
      exact Nat.le_refl _
    | cons e es ih =>
      obtain ⟨t, ht, hr⟩ := exec_cons_eq_some _ hr
      have hstep := hn.debt_step P put hB ht h
      have hrest := ih (hn.step P put hB ht) hr
      rw [List.countP_cons]
      omega
  exact (Nat.le_add_right _ _).trans hdebt

end Net

/-! ### A copy that arrives and is looked at again much later -/

/-- A push, its delivery, a long wait and a look of the watcher. -/
def lateLook {ι : Type} (l : Link ι) : List (NetEvent ι) :=
  [.push "laptop" true ⟨"text/plain", [104, 105], "", "", ""⟩, .deliver l 0,
    .tick 100000, .poll "desktop" true]

theorem no_echo_desktop :
    letI := sampleSha256
    ∃ m, exec (Net.memoryStep triangle) Net.freshNet (lateLook (0, false)) = some m ∧ m.writer "desktop" = .hub ∧
      ∀ item, memory.get (m.hub "desktop").clipboard = .ok (some item) →
        (m.hub "desktop").localObserved 200000 true item = ⟨.ok none, m.hub "desktop", []⟩ := by
  let _ := sampleSha256
  obtain ⟨m, hm⟩ : ∃ m, exec (Net.memoryStep triangle) Net.freshNet (lateLook (0, false)) = some m := ⟨_, rfl⟩
  have hw : m.writer "desktop" = .hub := by
    have hmap : (exec (Net.memoryStep triangle) Net.freshNet (lateLook (0, false))).map
        (fun m => m.writer "desktop") = some .hub := by decide
    rw [hm] at hmap
    exact Option.some.inj hmap
  refine ⟨m, hm, hw, fun item hget => ?_⟩
  exact (Net.no_echo triangle _ (fun _ => memory_exact) (fun _ => rfl) hm).1 "desktop" 200000 true
    item hw hget

end Zsync
