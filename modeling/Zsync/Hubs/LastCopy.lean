import Zsync.Foundations.Forest
import Zsync.Hubs.Agreement
import Zsync.Model.Fanout

/-! # The last copy arrives

One user runs `zsync copy`, at the hub `o` of a forest, and the loops of the sessions are as slow as they
like: a loop that lags loses clips, though never the last one, and the hubs behind it never see them.
Here clips arrive whole; `Hubs.WholeFrames` has the bytes.

* `Source`, `Follows` : the copies that `o` has pushed, and what another hub has accepted of them.
* `Routed` : what has arrived over an edge and what is on its way end with the last clip emitted.
* `Flows.copies_arrive` : each hub accepts a subsequence of the copies, and when no loop has anything left
  to do, every hub that is connected to `o` holds the last one.
-/

namespace Zsync
set_option autoImplicit false
set_option maxHeartbeats 250000
open Protocol Foundations

/-! ## One `zsync copy` -/

namespace Hub
variable {σ : Type} [Sha256] {B : Backend σ}

theorem Copied.skip {saves : Bool} {hub : Hub σ} {data : Bytes} {ret : Ret σ Clip}
    (h : Copied B saves hub data ret) {out : Outbound} (hout : out ∈ ret.out) : out.skip = none := by
  cases h with
  | refused _ => cases hout
  | unsaved _ _ _ _ _ => cases hout
  | sent _ _ _ _ =>
    obtain rfl := List.mem_singleton.mp hout
    rfl

theorem forwards_of_exact (hB : Exact B) {clip : Clip} (hub : Hub σ) (hv : Verified clip) :
    Forwards B clip hub := by
  refine ⟨hv, fun _ => ?_⟩
  have hne : clip.clipMeta.hash ≠ "" := hv.hash_eq ▸ hash_ne_empty clip.data
  obtain ⟨stored, s, hset, _⟩ := hB (remoteItem clip) hub.clipboard hne hv.fits
  rw [hset]
  rfl

theorem localPush_keeps_ringed (hB : Exact B) (now : ℕ) (saves : Bool) (item : Item) {hub : Hub σ}
    (h : Ringed B hub) : Ringed B (hub.localPush B now saves item).hub := by
  by_cases hw : PushWrites B item hub
  · exact localPush_ringed hB.covers now saves hw
  · rw [(localPush_idle hB.covers now saves hw).1]
    exact h

end Hub

/-! ## The invariant -/

namespace Fanout
variable {σ : Type} [Sha256] (B : String → Backend σ) (S : Set Bytes) (o : String) (s₀ : ℕ)

/-- The watcher has nothing to say about the clipboard, and its content is one of `S`. -/
structure Calm (h : String) (hub : Hub σ) : Prop where
  nodeId : hub.nodeId = h
  ringed : hub.Ringed (B h)
  held : hub.HoldsOnly (B h) S

/-- The copies of `o` are numbered from `s₀` on. -/
structure Source (n : Fanout σ (List Clip)) : Prop where
  calm : Calm B S o (n.hub o)
  emitted : n.emitted o = n.pushed
  accepted : n.accepted o = []
  clips : ∀ c ∈ n.pushed, Verified c ∧ c.clipMeta.originId = o ∧ c.data ∈ S ∧
    s₀ < c.clipMeta.seq ∧ c.clipMeta.seq ≤ (n.hub o).state.inner.seq
  start : s₀ ≤ (n.hub o).state.inner.seq
  order : n.pushed.Pairwise fun c d => c.clipMeta.seq < d.clipMeta.seq
  latest : ∀ c, n.latest = some c → n.pushed.getLast? = some c ∧ (n.hub o).Holds (B o) c.data

/-- A hub other than `o` emits what it accepts, and holds the last of it. -/
structure Follows (h : String) (n : Fanout σ (List Clip)) : Prop where
  calm : Calm B S h (n.hub h)
  accepted : n.accepted h = n.emitted h
  seen : ∀ s, (n.hub h).seen.last o = some s →
    s ≤ s₀ ∨ ∃ c ∈ n.emitted h, c.clipMeta.seq = s
  holds : ∀ c, (n.emitted h).getLast? = some c → (n.hub h).Holds (B h) c.data

/-- The edge leads away from `o`. -/
def Away (G : SimpleGraph String) (a b : String) : Prop := G.Adj a b ∧ ∃ k, Reaches G o a b k

/-- What has gone over the edge and what is on its way. -/
def flow (a b : String) (n : Fanout σ (List Clip)) : List Clip := n.emitted b ++ (n.wire a b ++ n.waiting a b)

/-- Clips go away from `o`, and no edge loses the last one. -/
structure Routed (G : SimpleGraph String) (n : Fanout σ (List Clip)) : Prop where
  skips : ∀ a, ∀ out ∈ (n.tx a).log,
    a = o ∧ out.skip = none ∨ ∃ p, out.skip = some p ∧ Away o G p a
  away : ∀ a b, n.wire a b ≠ [] → Away o G a b
  keeps : ∀ a b, Away o G a b → KeepsLast (n.flow a b) (n.emitted a)

structure Flows (G : SimpleGraph String) (n : Fanout σ (List Clip)) : Prop where
  source : Source B S o s₀ n
  follows : ∀ h, h ≠ o → Follows B S o s₀ h n
  routed : Routed o G n

/-- Before the first copy: the sessions are up, the watchers have nothing to say, and no number of `o`
was seen that `o` has not used. -/
structure Opens {ω : Type} (idle : ω) (n : Fanout σ ω) : Prop where
  calm : ∀ h, Calm B S h (n.hub h)
  seen : ∀ h s, (n.hub h).seen.last o = some s → s ≤ (n.hub o).state.inner.seq
  tx : ∀ h, n.tx h = Channel.new
  wire : ∀ a b, n.wire a b = idle
  pushed : n.pushed = []
  latest : n.latest = none
  accepted : ∀ h, n.accepted h = []

/-- Only `o` pushes, with the hash that its callers fill in, and its number does not wrap. -/
def Pushes {ω : Type} (n : Fanout σ ω) (h : String) (item : Item) : Prop :=
  h = o ∧ (item.hash = "" ∨ item.hash = Protocol.hash item.data) ∧ item.data ∈ S ∧
    (n.hub o).state.inner.seq + 1 < 2 ^ 64

def Plays (n : Fanout σ (List Clip)) : FanoutEvent → Prop
  | .push h _ item => Pushes S o n h item
  | _ => True

variable {B S o s₀} {G : SimpleGraph String} {n m : Fanout σ (List Clip)}

/-! ## What the invariant says of the copies -/

section Routes
omit [Sha256]

theorem Away.next (hG : G.IsAcyclic) {a b c : String} (h : Away o G a b) (hbc : G.Adj b c)
    (hca : c ≠ a) : Away o G b c := by
  obtain ⟨hab, k, hk⟩ := h
  exact ⟨hbc, k + 1, hk.next hG hab hbc hca⟩

theorem Away.ne {a b : String} (h : Away o G a b) : b ≠ o := by
  obtain ⟨_, _, hk⟩ := h
  exact hk.source_ne.symm

theorem Away.unique (hG : G.IsAcyclic) {a a' b : String} (h : Away o G a b) (h' : Away o G a' b) :
    a = a' := by
  obtain ⟨hab, _, hk⟩ := h
  obtain ⟨hab', _, hk'⟩ := h'
  exact hk.unique hG hab hk' hab'

theorem Away.asymm (hG : G.IsAcyclic) {a b : String} (h : Away o G a b) : ¬ Away o G b a := by
  obtain ⟨hab, _, hk⟩ := h
  rintro ⟨_, _, hk'⟩
  exact hk.asymm hG hab hk'

/-- What a hub emits comes from `o`. -/
theorem Routed.emitted_sublist (h : Routed o G n) (hs : n.emitted o = n.pushed) {a : String}
    (hreach : G.Reachable o a) : (n.emitted a).Sublist n.pushed := by
  refine reachable_induction (P := fun x => (n.emitted x).Sublist n.pushed) ?_ ?_ hreach
  · rw [hs]
  · intro x y k hxy hk hx
    exact ((List.sublist_append_left _ _).trans (h.keeps x y ⟨hxy, k, hk⟩).1).trans hx

theorem Routed.flow_sublist (h : Routed o G n) (hs : n.emitted o = n.pushed) {a b : String}
    (hab : Away o G a b) : (n.flow a b).Sublist n.pushed := by
  have hreach : G.Reachable o a := by
    obtain ⟨_, _, hk⟩ := hab
    exact hk.reachable
  exact (h.keeps a b hab).1.trans (h.emitted_sublist hs hreach)

/-- The hub of `x` emits `outs`, and what has gone over the edge to it stays in the flow. -/
theorem Routed.emit (h : Routed o G n) (x : String) (outs : List Outbound)
    (hskips : ∀ out ∈ outs, x = o ∧ out.skip = none ∨ ∃ p, out.skip = some p ∧ Away o G p x)
    (htx : ∀ a, m.tx a = if a = x then (n.tx a).sends outs else n.tx a)
    (hwire : ∀ a b, m.wire a b ≠ [] → n.wire a b ≠ [])
    (hto : ∀ a b, b ≠ x → m.wire a b = n.wire a b)
    (hin : ∀ a, Away o G a x → m.flow a x = n.flow a x) : Routed o G m := by
  have hother : ∀ a, a ≠ x → m.tx a = n.tx a := fun a ha => by rw [htx, if_neg ha]
  refine ⟨fun a out hout => ?_, fun a b hw => h.away a b (hwire a b hw), fun a b hab => ?_⟩
  · by_cases ha : a = x
    · rw [htx, if_pos ha, Channel.sends_log, List.mem_append] at hout
      exact hout.elim (h.skips a out) fun hnew => ha ▸ hskips out hnew
    · exact h.skips a out (hother a ha ▸ hout)
  · by_cases hb : b = x
    · have ha : a ≠ x := fun ha => hab.1.ne (ha.trans hb.symm)
      have hemit : m.emitted a = n.emitted a := by rw [emitted, hother a ha, emitted]
      rw [hb, hin a (hb ▸ hab), hemit, ← hb]
      exact h.keeps a b hab
    · have hemit : m.emitted b = n.emitted b := by rw [emitted, hother b hb, emitted]
      by_cases ha : a = x
      · -- What is new waits behind everything else.
        have hlog : m.emitted a = n.emitted a ++ outs.map Outbound.clip := by
          rw [emitted, htx, if_pos ha, Channel.sends_log, List.map_append, emitted]
        have hwait : m.waiting a b = n.waiting a b ++ outs.map Outbound.clip := by
          rw [waiting, htx, if_pos ha, Channel.sends_pending, List.map_append, waiting]
        rw [flow, hemit, hto a b hb, hwait, hlog, ← List.append_assoc, ← List.append_assoc,
          List.append_assoc (n.emitted b)]
        exact (h.keeps a b hab).concat _
      · have hlog : m.emitted a = n.emitted a := by rw [emitted, hother a ha, emitted]
        have hwait : m.waiting a b = n.waiting a b := by rw [waiting, hother a ha, waiting]
        rw [flow, hemit, hto a b hb, hwait, hlog]
        exact h.keeps a b hab

/-- A loop skips its peer exactly when the edge leads towards `o`. -/
theorem Routed.skip_iff (hG : G.IsAcyclic) (h : Routed o G n) {a b : String} (hadj : G.Adj a b)
    {out : Outbound} (hout : out ∈ (n.tx a).log) : out.skip = some b ↔ ¬ Away o G a b := by
  constructor
  · intro hskip hab
    obtain ⟨_, hnone⟩ | ⟨p, hp, hpa⟩ := h.skips a out hout
    · cases hnone.symm.trans hskip
    · obtain rfl := Option.some.inj (hp.symm.trans hskip)
      exact hpa.asymm hG hab
  · intro hnot
    by_contra hskip
    apply hnot
    obtain ⟨rfl, _⟩ | ⟨p, hp, hpa⟩ := h.skips a out hout
    · exact ⟨hadj, 0, Reaches.start hadj⟩
    · exact hpa.next hG hadj fun hbp => hskip (hbp ▸ hp)

/-- On an edge towards `o` a loop writes nothing. -/
theorem Routed.writes_towards (hG : G.IsAcyclic) (h : Routed o G n) {a b : String} (hadj : G.Adj a b)
    (hnot : ¬ Away o G a b) {msg : Received Outbound} {rest : Channel String Outbound}
    (hrecv : (n.tx a).recv broadcastCap b = some (msg, rest)) : writes b msg = [] := by
  obtain ⟨_, _, ⟨out, rfl, hnext⟩ | ⟨lost, rfl, _⟩⟩ := Channel.recv_cases hrecv
  · have hout : out ∈ (n.tx a).log := Channel.mem_log_of_pending (hnext ▸ List.mem_cons_self)
    exact if_pos ((h.skip_iff hG hadj hout).mpr hnot)
  · rfl

/-- On an edge away from `o` it writes what it receives, and what it loses is not the last. -/
theorem Routed.writes_away (hG : G.IsAcyclic) (h : Routed o G n) {a b : String} (hab : Away o G a b)
    {msg : Received Outbound} {rest : Channel String Outbound}
    (hrecv : (n.tx a).recv broadcastCap b = some (msg, rest)) :
    KeepsLast (n.emitted b ++ (n.wire a b ++ writes b msg ++ (rest.pending b).map Outbound.clip))
      (n.emitted a) := by
  have hkeeps := h.keeps a b hab
  rw [flow, waiting] at hkeeps
  obtain ⟨_, _, ⟨out, rfl, hnext⟩ | ⟨lost, rfl, hnext, hlen⟩⟩ := Channel.recv_cases hrecv
  · have hout : out ∈ (n.tx a).log := Channel.mem_log_of_pending (hnext ▸ List.mem_cons_self)
    have hw : writes b (.message out) = [out.clip] :=
      if_neg fun hskip => (h.skip_iff hG hab.1 hout).mp hskip hab
    rw [hnext, List.map_cons] at hkeeps
    rw [hw, List.append_assoc]
    exact hkeeps
  · have hw : writes b (.lagged lost.length) = [] := rfl
    rw [hnext, List.map_append, ← List.append_assoc] at hkeeps
    rw [hw, List.append_nil, ← List.append_assoc]
    refine hkeeps.lose fun hnil => ?_
    -- A loop that lagged has as many messages left as the channel keeps.
    rw [List.map_eq_nil_iff] at hnil
    rw [hnil] at hlen
    cases hlen

theorem tx_log {tx : String → Channel String Outbound} {a : String} {rest : Channel String Outbound}
    (h : rest.log = (tx a).log) (x : String) : (Function.update tx a rest x).log = (tx x).log := by
  rw [Function.update_apply]
  split_ifs with hx
  · rw [h, hx]
  · rfl

/-- The loop of `a` for `b` receives from the channel. -/
theorem Routed.recv (hG : G.IsAcyclic) (h : Routed o G n) {a b : String} (hadj : G.Adj a b)
    {msg : Received Outbound} {rest : Channel String Outbound}
    (hrecv : (n.tx a).recv broadcastCap b = some (msg, rest))
    (htx : m.tx = Function.update n.tx a rest)
    (hwire : m.wire a b = n.wire a b ++ writes b msg)
    (hother : ∀ x y, ¬ (x = a ∧ y = b) → m.wire x y = n.wire x y) : Routed o G m := by
  obtain ⟨hlog, hpending, _⟩ := Channel.recv_cases hrecv
  have hlogs : ∀ x, (m.tx x).log = (n.tx x).log := fun x => htx ▸ tx_log hlog x
  have hemit : ∀ x, m.emitted x = n.emitted x := fun x => congrArg (List.map Outbound.clip) (hlogs x)
  have hwait : ∀ x y, ¬ (x = a ∧ y = b) → m.waiting x y = n.waiting x y := by
    intro x y hxy
    rw [waiting, waiting, htx, Function.update_apply]
    split_ifs with hx
    · rw [hpending y fun hy => hxy ⟨hx, hy⟩, hx]
    · rfl
  refine ⟨fun x out hout => h.skips x out (hlogs x ▸ hout), fun x y hxy => ?_, fun x y hxy => ?_⟩
  · by_cases hedge : x = a ∧ y = b
    · obtain ⟨rfl, rfl⟩ := hedge
      by_contra hnot
      have hempty : n.wire x y = [] := by
        by_contra hne
        exact hnot (h.away x y hne)
      apply hxy
      rw [hwire, hempty, h.writes_towards hG hadj hnot hrecv]
      rfl
    · exact h.away x y (hother x y hedge ▸ hxy)
  · rw [flow, hemit, hemit]
    by_cases hedge : x = a ∧ y = b
    · obtain ⟨rfl, rfl⟩ := hedge
      have hself : m.waiting x y = (rest.pending y).map Outbound.clip := by
        rw [waiting, htx, Function.update_self]
      rw [hwire, hself]
      exact h.writes_away hG hxy hrecv
    · rw [hother x y hedge, hwait x y hedge]
      exact h.keeps x y hxy

end Routes

/-- A clip on its way is new to the hub it goes to. -/
theorem Flows.fresh (h : Flows B S o s₀ G n) {a b : String} (hab : Away o G a b) {c : Clip}
    (hc : c ∈ n.wire a b ++ n.waiting a b) :
    (n.hub b).seen.fresh o c.clipMeta.seq = true := by
  have hsub := h.routed.flow_sublist h.source.emitted hab
  have hpair := h.source.order.sublist hsub
  rw [flow, List.pairwise_append] at hpair
  have hmem : c ∈ n.pushed := hsub.subset (List.mem_append_right _ hc)
  obtain ⟨_, _, _, hs₀, _⟩ := h.source.clips c hmem
  rw [SeenSeq.fresh]
  split
  · next prev hprev =>
    apply decide_eq_true
    obtain hle | ⟨d, hd, rfl⟩ := (h.follows b hab.ne).seen prev hprev
    · exact Nat.lt_of_le_of_lt hle hs₀
    · exact hpair.2.2 d hd c hc
  · rfl

/-! ## One step -/

theorem Source.congr (h : Source B S o s₀ n) (hhub : m.hub o = n.hub o)
    (hemit : m.emitted o = n.emitted o) (hacc : m.accepted o = n.accepted o)
    (hpushed : m.pushed = n.pushed) (hlatest : m.latest = n.latest) : Source B S o s₀ m where
  calm := hhub ▸ h.calm
  emitted := by rw [hemit, hpushed, h.emitted]
  accepted := hacc.trans h.accepted
  clips := by
    rw [hpushed, hhub]
    exact h.clips
  start := hhub ▸ h.start
  order := hpushed ▸ h.order
  latest := by
    rw [hlatest, hpushed, hhub]
    exact h.latest

/-- `o` advances its number and pushes at most one clip under it. -/
theorem Source.push (h : Source B S o s₀ n) (clips : List Clip) (hcalm : Calm B S o (m.hub o))
    (hseq : (m.hub o).state.inner.seq = (n.hub o).state.inner.seq + 1)
    (hemit : m.emitted o = n.emitted o ++ clips) (hpushed : m.pushed = n.pushed ++ clips)
    (hacc : m.accepted o = n.accepted o) (hfew : clips.length ≤ 1)
    (hclips : ∀ c ∈ clips, Verified c ∧ c.clipMeta.originId = o ∧ c.data ∈ S ∧
      c.clipMeta.seq = (n.hub o).state.inner.seq + 1)
    (hlatest : ∀ c, m.latest = some c → m.pushed.getLast? = some c ∧ (m.hub o).Holds (B o) c.data) :
    Source B S o s₀ m where
  calm := hcalm
  emitted := by rw [hemit, hpushed, h.emitted]
  accepted := hacc.trans h.accepted
  clips := by
    intro c hc
    rw [hpushed, List.mem_append] at hc
    rw [hseq]
    obtain hc | hc := hc
    · obtain ⟨hv, ho, hd, hlow, hle⟩ := h.clips c hc
      exact ⟨hv, ho, hd, hlow, Nat.le_succ_of_le hle⟩
    · obtain ⟨hv, ho, hd, heq⟩ := hclips c hc
      have := h.start
      exact ⟨hv, ho, hd, by omega, Nat.le_of_eq heq⟩
  start := hseq ▸ Nat.le_succ_of_le h.start
  order := by
    rw [hpushed, List.pairwise_append]
    refine ⟨h.order, ?_, fun c hc d hd => ?_⟩
    · match clips, hfew with
      | [], _ => exact List.Pairwise.nil
      | [c], _ => exact List.pairwise_singleton _ _
    · obtain ⟨_, _, _, _, hle⟩ := h.clips c hc
      have := (hclips d hd).2.2.2
      omega
  latest := hlatest

/-- Whatever came of a `local_push` at `o`. -/
theorem Source.copied (h : Source B S o s₀ n) {saves : Bool} {data : Bytes} {ret : Ret σ Clip}
    (hcopied : Hub.Copied (B o) saves (n.hub o) data ret) (hringed : ret.hub.Ringed (B o))
    (hd : data ∈ S) (hc : (n.hub o).state.inner.seq + 1 < 2 ^ 64) :
    Source B S o s₀ ((n.emit o ret.hub ret.out).returned ret.res) := by
  have hnext : (n.hub o).nextSeq = (n.hub o).state.inner.seq + 1 := Nat.mod_eq_of_lt hc
  cases hcopied with
  | refused _ =>
    rw [emit_nil]
    exact h
  | unsaved _ after hn hq hholds =>
    have hhub : (n.emit o after []).hub o = after := Function.update_self _ _ _
    refine h.push [] ?_ ?_ ?_ (List.append_nil _).symm rfl (Nat.zero_le 1)
      (fun c hmem => absurd hmem List.not_mem_nil) fun c hlast => by cases hlast
    · rw [returned_hub, hhub]
      exact ⟨hn.trans h.calm.nodeId, hringed, hholds.only hd⟩
    · rw [returned_hub, hhub, hq, hnext]
    · show (n.emit o after []).emitted o = _
      rw [emit_emitted, if_pos rfl]
      rfl
  | sent _ after clip hsent =>
    have hhub : (n.emit o after [⟨clip, none⟩]).hub o = after := Function.update_self _ _ _
    obtain ⟨horigin, hseq⟩ := Prod.mk.inj hsent.copyId
    refine h.push [clip] ?_ ?_ ?_ rfl rfl (Nat.le_refl 1) (fun c hmem => ?_) fun c hlast => ?_
    · rw [returned_hub, hhub]
      exact ⟨hsent.nodeId.trans h.calm.nodeId, hringed, hsent.holds.only hd⟩
    · rw [returned_hub, hhub, hsent.seq, hnext]
    · show (n.emit o after [⟨clip, none⟩]).emitted o = _
      rw [emit_emitted, if_pos rfl]
      rfl
    · obtain rfl := List.mem_singleton.mp hmem
      exact ⟨hsent.verified, horigin.trans h.calm.nodeId, hsent.payload ▸ hd, hseq.trans hnext⟩
    · obtain rfl := Option.some.inj hlast
      rw [returned_hub, hhub]
      exact ⟨List.getLast?_concat, hsent.payload ▸ hsent.holds⟩

theorem Follows.congr {x : String} (h : Follows B S o s₀ x n) (hhub : m.hub x = n.hub x)
    (hemit : m.emitted x = n.emitted x) (hacc : m.accepted x = n.accepted x) :
    Follows B S o s₀ x m where
  calm := hhub ▸ h.calm
  accepted := by rw [hacc, hemit, h.accepted]
  seen := by
    rw [hhub, hemit]
    exact h.seen
  holds := by
    rw [hhub, hemit]
    exact h.holds

/-- The hub of `x` accepts a clip. -/
theorem Follows.accept {x : String} (h : Follows B S o s₀ x n) {clip : Clip}
    (hcalm : Calm B S x (m.hub x)) (hemit : m.emitted x = n.emitted x ++ [clip])
    (hacc : m.accepted x = n.accepted x ++ [clip])
    (hseen : (m.hub x).seen.last o = some clip.clipMeta.seq)
    (hholds : (m.hub x).Holds (B x) clip.data) : Follows B S o s₀ x m where
  calm := hcalm
  accepted := by rw [hacc, hemit, h.accepted]
  seen := by
    intro s hs
    obtain rfl := Option.some.inj (hseen.symm.trans hs)
    refine .inr ⟨clip, ?_, rfl⟩
    rw [hemit]
    exact List.mem_append_right _ (List.mem_singleton_self clip)
  holds := by
    intro c hc
    rw [hemit, List.getLast?_concat] at hc
    exact Option.some.inj hc ▸ hholds

/-- What a clip does to the hub at which it arrives. -/
theorem Flows.arrives (hB : ∀ h, Exact (B h)) (hS : Set.InjOn Protocol.hash S)
    (h : Flows B S o s₀ G n) {a b : String} (hab : Away o G a b) {clip : Clip}
    (hmem : clip ∈ n.wire a b ++ n.waiting a b) :
    HubOp.Accepted (n.hub b) clip ∧
      ∃ after, (n.hub b).applyFrom (B b) n.clock clip a =
          ⟨((n.hub b).applyRemote (B b) n.clock clip).res, after, [⟨clip, some a⟩]⟩ ∧
        Calm B S b after ∧ after.seen.last o = some clip.clipMeta.seq ∧
        after.Holds (B b) clip.data := by
  have hpushed : clip ∈ n.pushed :=
    (h.routed.flow_sublist h.source.emitted hab).subset (List.mem_append_right _ hmem)
  obtain ⟨hv, ho, hd, -, -⟩ := h.source.clips clip hpushed
  have hcalm := (h.follows b hab.ne).calm
  have hother : clip.clipMeta.originId ≠ (n.hub b).nodeId := by
    rw [ho, hcalm.nodeId]
    exact hab.ne.symm
  have hfresh : (n.hub b).seen.fresh clip.clipMeta.originId clip.clipMeta.seq = true := by
    rw [ho]
    exact h.fresh hab hmem
  have hout : ((n.hub b).applyFrom (B b) n.clock clip a).out = [⟨clip, some a⟩] := by
    rw [Hub.applyFrom_out, if_pos (Hub.forwards_of_exact (hB b) (n.hub b) hv)]
  obtain ⟨hholds, hseen⟩ := Hub.applyRemote_holds (hB b) hS n.clock hcalm.held hd hv hother hfresh
  refine ⟨⟨hv, hother, hfresh⟩, ((n.hub b).applyRemote (B b) n.clock clip).hub, ?_, ?_, ?_, hholds⟩
  · rw [← Hub.applyFrom_res, ← Hub.applyFrom_hub, ← hout]
  · exact ⟨(Hub.applyRemote_kept (B b) n.clock clip (n.hub b)).1.trans hcalm.nodeId,
      Hub.applyRemote_ringed (hB b).covers n.clock (.inr hcalm.ringed), hholds.only hd⟩
  · rw [hseen, ← ho]
    exact Function.update_self _ _ _

section Step
variable [DecidableRel G.Adj]

/-- A copy of the user is behind everything that waits. -/
theorem Flows.push (hB : ∀ h, Exact (B h)) (h : Flows B S o s₀ G n) {saves : Bool} {item : Item}
    (hh : item.hash = "" ∨ item.hash = Protocol.hash item.data) (hd : item.data ∈ S)
    (hc : (n.hub o).state.inner.seq + 1 < 2 ^ 64)
    (hs : step G B n (.push o saves item) = some m) : Flows B S o s₀ G m := by
  obtain rfl := Option.some.inj hs
  have hringed := Hub.localPush_keeps_ringed (hB o) n.clock saves item h.source.calm.ringed
  have hcopied := Hub.localPush_copied (hB o) n.clock saves (n.hub o) hh
  generalize (n.hub o).localPush (B o) n.clock saves item = ret at hringed hcopied
  refine ⟨h.source.copied hcopied hringed hd hc, fun x hx => ?_, ?_⟩
  · have hhub : (n.emit o ret.hub ret.out).hub x = n.hub x := Function.update_of_ne hx _ _
    refine (h.follows x hx).congr (by rw [returned_hub, hhub]) ?_ (by rw [returned_accepted]; rfl)
    rw [emitted, returned_tx, emit_tx, if_neg hx, emitted]
  · refine h.routed.emit o ret.out (fun out hout => .inl ⟨rfl, hcopied.skip hout⟩)
      (fun a => ?_) (fun a b hw => ?_) (fun a b _ => ?_) fun a ha => absurd rfl ha.ne
    · rw [returned_tx, emit_tx]
    · rwa [returned_wire] at hw
    · rw [returned_wire]
      rfl

/-- A clip that arrives is accepted, held and emitted. -/
theorem Flows.deliver (hG : G.IsAcyclic) (hB : ∀ h, Exact (B h)) (hS : Set.InjOn Protocol.hash S)
    (h : Flows B S o s₀ G n) {a b : String} (hs : step G B n (.deliver a b) = some m) :
    Flows B S o s₀ G m := by
  obtain ⟨clip, rest, hw, rfl⟩ := step_deliver hs
  have hab : Away o G a b := h.routed.away a b (by rw [hw]; exact List.cons_ne_nil _ _)
  have hmem : clip ∈ n.wire a b ++ n.waiting a b := by
    rw [hw]
    exact List.mem_cons_self
  obtain ⟨haccepted, after, happ, hcalm, hlast, hholds⟩ := h.arrives hB hS hab hmem
  rw [happ]
  have hacc : (n.accept b clip).accepted = Function.update n.accepted b (n.accepted b ++ [clip]) :=
    if_pos haccepted
  refine ⟨?_, fun x hx => ?_, ?_⟩
  · refine h.source.congr (Function.update_of_ne hab.ne.symm _ _) ?_ ?_ rfl rfl
    · rw [emit_emitted, if_neg hab.ne.symm]
      rfl
    · show (n.accept b clip).accepted o = _
      rw [hacc, Function.update_of_ne hab.ne.symm]
  · by_cases hxb : x = b
    · subst hxb
      have hhub : (((n.accept x clip).setWire a x rest).emit x after [⟨clip, some a⟩]).hub x = after :=
        Function.update_self _ _ _
      refine (h.follows x hx).accept (by rw [hhub]; exact hcalm) ?_ ?_ (by rw [hhub]; exact hlast)
        (by rw [hhub]; exact hholds)
      · rw [emit_emitted, if_pos rfl]
        rfl
      · show (n.accept x clip).accepted x = _
        rw [hacc, Function.update_self]
    · refine (h.follows x hx).congr (Function.update_of_ne hxb _ _) ?_ ?_
      · rw [emit_emitted, if_neg hxb]
        rfl
      · show (n.accept b clip).accepted x = _
        rw [hacc, Function.update_of_ne hxb]
  · refine h.routed.emit b [⟨clip, some a⟩] (fun out hout => .inr ⟨a, ?_, hab⟩) (fun x => emit_tx ..)
      (fun x y hxy => ?_) (fun x y hy => if_neg fun hxy => hy hxy.2) fun x hx => ?_
    · rw [List.mem_singleton.mp hout]
    · change (if x = a ∧ y = b then rest else n.wire x y) ≠ [] at hxy
      split_ifs at hxy with hedge
      · rw [hedge.1, hedge.2, hw]
        exact List.cons_ne_nil _ _
      · exact hxy
    · -- The clip has moved from the wire to what the hub has emitted.
      obtain rfl := hx.unique hG hab
      rw [flow, flow, emit_emitted, if_pos rfl, emit_waiting, if_neg hab.1.ne, hw]
      show n.emitted b ++ [clip] ++ ((if x = x ∧ b = b then rest else n.wire x b) ++ n.waiting x b) = _
      rw [if_pos ⟨rfl, rfl⟩, List.append_assoc]
      rfl

theorem Flows.poll (h : Flows B S o s₀ G n) {x : String} {saves : Bool}
    (hs : step G B n (.poll x saves) = some m) : m = n := by
  have hcalm : Calm B S x (n.hub x) := by
    by_cases hx : x = o
    · exact hx ▸ h.source.calm
    · exact (h.follows x hx).calm
  simp only [step] at hs
  split at hs
  · next item hget =>
    rw [Hub.localObserved_of_not_notices (Hub.not_notices_of_covered (hcalm.ringed item hget) n.clock),
      emit_nil] at hs
    exact (Option.some.inj hs).symm
  · exact (Option.some.inj hs).symm

theorem Flows.step (hG : G.IsAcyclic) (hB : ∀ h, Exact (B h)) (hS : Set.InjOn Protocol.hash S)
    (h : Flows B S o s₀ G n) {e : FanoutEvent} (hp : Plays S o n e)
    (hs : Fanout.step G B n e = some m) : Flows B S o s₀ G m := by
  cases e with
  | push x saves item =>
    obtain ⟨rfl, hh, hd, hc⟩ := hp
    exact h.push hB hh hd hc hs
  | poll x saves =>
    obtain rfl := h.poll hs
    exact h
  | recv a b =>
    obtain ⟨hadj, msg, rest, hrecv, rfl⟩ := step_recv hs
    have hemit : ∀ x, Fanout.emitted x ({ n with tx := Function.update n.tx a rest }.setWire a b
        (n.wire a b ++ writes b msg)) = n.emitted x :=
      fun x => congrArg (List.map Outbound.clip) (tx_log (Channel.recv_cases hrecv).1 x)
    refine ⟨h.source.congr rfl (hemit o) rfl rfl rfl,
      fun x hx => (h.follows x hx).congr rfl (hemit x) rfl, ?_⟩
    exact h.routed.recv hG hadj hrecv rfl (if_pos ⟨rfl, rfl⟩) fun x y hxy => if_neg hxy
  | deliver a b => exact h.deliver hG hB hS hs
  | tick d =>
    obtain rfl := Option.some.inj hs
    exact ⟨h.source.congr rfl rfl rfl rfl rfl, fun x hx => (h.follows x hx).congr rfl rfl rfl,
      h.routed.skips, h.routed.away, h.routed.keeps⟩

end Step

/-! ## Whole runs -/

theorem Opens.flows (h : Opens B S o [] n) : Flows B S o (n.hub o).state.inner.seq G n := by
  have hemit : ∀ x, n.emitted x = [] := fun x => by
    rw [emitted, h.tx]
    rfl
  refine ⟨⟨h.calm o, ?_, h.accepted o, ?_, Nat.le_refl _, ?_, ?_⟩, fun x _ => ⟨h.calm x, ?_, ?_, ?_⟩,
    ⟨?_, ?_, ?_⟩⟩
  · rw [hemit, h.pushed]
  · rw [h.pushed]
    exact fun c hc => absurd hc List.not_mem_nil
  · rw [h.pushed]
    exact List.Pairwise.nil
  · intro c hc
    rw [h.latest] at hc
    cases hc
  · rw [h.accepted, hemit]
  · exact fun s hs => .inl (h.seen x s hs)
  · intro c hc
    rw [hemit] at hc
    cases hc
  · intro a out hout
    rw [h.tx] at hout
    cases hout
  · exact fun a b hw => absurd (h.wire a b) hw
  · intro a b _
    have hflow : n.flow a b = n.emitted a := by
      rw [flow, hemit, hemit, h.wire, waiting, h.tx]
      rfl
    exact hflow ▸ KeepsLast.refl _

/-- No loop has anything to receive or to read. -/
def Quiet (G : SimpleGraph String) (n : Fanout σ (List Clip)) : Prop :=
  ∀ a b, G.Adj a b → n.wire a b = [] ∧ (n.tx a).pending b = []

omit [Sha256] in
/-- When all loops have caught up, the last clip pushed is the last one that each hub emitted. -/
theorem Routed.last_emitted (h : Routed o G n) (hs : n.emitted o = n.pushed) (hq : Quiet G n)
    {a : String} (hreach : G.Reachable o a) : (n.emitted a).getLast? = n.pushed.getLast? := by
  refine reachable_induction (P := fun x => (n.emitted x).getLast? = n.pushed.getLast?) ?_ ?_ hreach
  · rw [hs]
  · intro x y k hxy hk hx
    obtain ⟨hwire, hpending⟩ := hq x y hxy
    have hkeeps := (h.keeps x y ⟨hxy, k, hk⟩).2
    rw [flow, hwire, waiting, hpending, List.map_nil, List.append_nil, List.append_nil] at hkeeps
    rw [hkeeps, hx]

/-- Each hub accepts a subsequence of the copies. -/
theorem Flows.accepted_sublist (h : Flows B S o s₀ G n) (x : String) :
    (n.accepted x).Sublist n.pushed := by
  by_cases hx : x = o
  · rw [hx, h.source.accepted]
    exact List.nil_sublist _
  · rw [(h.follows x hx).accepted]
    cases hlog : (n.tx x).log with
    | nil =>
      rw [emitted, hlog]
      exact List.nil_sublist _
    | cons out outs =>
      obtain ⟨hxo, _⟩ | ⟨p, _, hp⟩ := h.routed.skips x out (hlog ▸ List.mem_cons_self)
      · exact absurd hxo hx
      · exact (List.sublist_append_left _ _).trans (h.routed.flow_sublist h.source.emitted hp)

theorem Flows.emitted_pushed (h : Flows B S o s₀ G n) {x : String} {c : Clip} (hc : c ∈ n.emitted x) :
    c ∈ n.pushed := by
  by_cases hx : x = o
  · rw [← h.source.emitted, ← hx]
    exact hc
  · apply (h.accepted_sublist x).subset
    rw [(h.follows x hx).accepted]
    exact hc

/-- In a forest in which one hub pushes, every hub accepts a subsequence of what was pushed, in the
order of its numbers. Once no session loop has anything left to do, the last copy is on every clipboard
that is connected to that hub. -/
theorem Flows.copies_arrive (h : Flows B S o s₀ G n) :
    (∀ x, (n.accepted x).Sublist n.pushed ∧
      (n.accepted x).Pairwise fun c d => c.clipMeta.seq < d.clipMeta.seq) ∧
    (Quiet G n → ∀ c, n.latest = some c → n.pushed.getLast? = some c ∧
      ∀ x, G.Reachable o x → (n.hub x).Holds (B x) c.data) := by
  refine ⟨fun x => ⟨h.accepted_sublist x, h.source.order.sublist (h.accepted_sublist x)⟩, ?_⟩
  intro hq c hc
  obtain ⟨hlast, hhere⟩ := h.source.latest c hc
  refine ⟨hlast, fun x hreach => ?_⟩
  by_cases hx : x = o
  · exact hx ▸ hhere
  · apply (h.follows x hx).holds
    rw [h.routed.last_emitted h.source.emitted hq hreach, hlast]

end Fanout
end Zsync
