import Mathlib.Data.Set.Function
import Zsync.Hubs.Echo

/-! # Two hubs and their last copy

Two hubs are joined by one session, their users copy with `zsync copy`, and frames arrive in order.
Sequence numbers are compared within one origin only, so nothing decides between copies of the two
users: each hub keeps what it wrote last.

* `outcome` is what a clipboard will hold once the frames on their way to it have arrived. Arrivals
  do not change it, and a copy sets it on the other side.
* `Crossed` : a copy is made while the last frame on its way to that hub has other content.
* `agreement` : once nothing is in flight, the clipboards agree exactly when the last copy of the run
  was not crossed.
-/

namespace Zsync
set_option autoImplicit false
set_option maxHeartbeats 250000
open Protocol Foundations

/-! ## One hub -/

namespace Hub
variable {σ : Type} [Sha256] {B : Backend σ}

/-- The clipboard holds `data`, under its hash. -/
def Holds (B : Backend σ) (hub : Hub σ) (data : Bytes) : Prop :=
  ∃ item, B.get hub.clipboard = .ok (some item) ∧ item.data = data ∧ item.hash = Protocol.hash data

/-- What is on the clipboard has its hash, and is one of the contents `S`. -/
def HoldsOnly (B : Backend σ) (S : Set Bytes) (hub : Hub σ) : Prop :=
  ∀ item, B.get hub.clipboard = .ok (some item) →
    item.data ∈ S ∧ item.hash = Protocol.hash item.data

theorem Holds.only {S : Set Bytes} {hub : Hub σ} {data : Bytes} (h : Holds B hub data)
    (hd : data ∈ S) : HoldsOnly B S hub := by
  obtain ⟨item, hget, hdata, hhash⟩ := h
  intro other hother
  obtain rfl := Option.some.inj (Except.ok.inj (hget.symm.trans hother))
  exact ⟨hdata ▸ hd, hdata ▸ hhash⟩

/-- A clip that the hub has not seen ends up on its clipboard. -/
theorem applyRemote_holds (hB : Exact B) {S : Set Bytes} (hS : Set.InjOn Protocol.hash S) (now : ℕ)
    {clip : Clip} {hub : Hub σ} (hheld : HoldsOnly B S hub) (hd : clip.data ∈ S)
    (hv : Verified clip) (ho : clip.clipMeta.originId ≠ hub.nodeId)
    (hf : hub.seen.fresh clip.clipMeta.originId clip.clipMeta.seq = true) :
    Holds B (hub.applyRemote B now clip).hub clip.data ∧
      (hub.applyRemote B now clip).hub.seen = (hub.sawClip clip).seen := by
  have hne : clip.clipMeta.hash ≠ "" := hv.hash_eq ▸ hash_ne_empty clip.data
  have h := applyRemote_applied B now clip hub
  generalize hub.applyRemote B now clip = ret at h
  cases h with
  | rejected reason h => exact absurd hv h
  | own _ h => exact absurd h ho
  | duplicate _ _ h => exact Bool.noConfusion (h.symm.trans hf)
  | present _ _ _ hp =>
    refine ⟨?_, rfl⟩
    unfold present at hp
    split at hp
    · next cur hcur =>
      obtain ⟨hmem, hhash⟩ := hheld cur hcur
      have hsame : Protocol.hash cur.data = Protocol.hash clip.data := by
        rw [← hhash, ← hv.hash_eq]
        exact of_decide_eq_true hp
      have hdata : cur.data = clip.data := hS hmem hd hsame
      exact ⟨cur, hcur, hdata, hdata ▸ hhash⟩
    · cases hp
  | failed hl e s hset =>
    obtain ⟨stored, s', hset', _⟩ := hB (remoteItem clip) hub.clipboard hne hv.fits
    rw [hset] at hset'
    cases hset'
  | stored hl item s hset =>
    obtain ⟨stored, s', hset', hget, hdata, hhash⟩ := hB (remoteItem clip) hub.clipboard hne hv.fits
    rw [hset] at hset'
    cases hset'
    exact ⟨⟨item, hget, hdata, hhash.trans hv.hash_eq⟩, rfl⟩

/-- What a successful `zsync copy` sends and leaves. -/
structure Sent (B : Backend σ) (hub : Hub σ) (data : Bytes) (after : Hub σ) (clip : Clip) : Prop where
  verified : Verified clip
  copyId : clip.copyId = (hub.nodeId, hub.nextSeq)
  payload : clip.data = data
  holds : Holds B after data
  nodeId : after.nodeId = hub.nodeId
  seen : after.seen = hub.seen
  seq : after.state.inner.seq = hub.nextSeq

/-- What `local_push` does over an exact backend. -/
inductive Copied (B : Backend σ) (saves : Bool) (hub : Hub σ) (data : Bytes) : Ret σ Clip → Prop
  | refused (h : maxClip < data.length) : Copied B saves hub data ⟨.error .payloadTooLarge, hub, []⟩
  | unsaved (hs : saves = false) (after : Hub σ) (hn : after.nodeId = hub.nodeId)
    (hq : after.state.inner.seq = hub.nextSeq) (hh : Holds B after data) :
    Copied B saves hub data ⟨.error .persistSeq, after, []⟩
  | sent (hs : saves = true) (after : Hub σ) (clip : Clip) (hsent : Sent B hub data after clip) :
    Copied B saves hub data ⟨.ok clip, after, [⟨clip, none⟩]⟩

theorem localPush_copied (hB : Exact B) (now : ℕ) (saves : Bool) {item : Item} (hub : Hub σ)
    (hh : item.hash = "" ∨ item.hash = Protocol.hash item.data) :
    Copied B saves hub item.data (hub.localPush B now saves item) := by
  have hhashed : (hashed item).hash = Protocol.hash item.data := by
    obtain hh | hh := hh
    · exact if_pos hh
    · rw [hashed_of_ne (hh ▸ hash_ne_empty item.data), hh]
  have h := localPush_pushed B now saves item hub
  generalize hub.localPush B now saves item = ret at h
  cases h with
  | tooLarge hl => exact .refused hl
  | failed hl e s hset =>
    obtain ⟨stored, s', hset', _⟩ := hB (hashed item) hub.clipboard (hashed_hash_ne item) hl
    rw [hset] at hset'
    cases hset'
  | unsaved hl hs stored s hset =>
    obtain ⟨stored', s', hset', hget, hdata, hhash⟩ :=
      hB (hashed item) hub.clipboard (hashed_hash_ne item) hl
    rw [hset] at hset'
    cases hset'
    exact .unsaved hs _ rfl (bumped_seq _ _) ⟨stored, hget, hdata, hhash.trans hhashed⟩
  | sent hl hs stored s hset =>
    obtain ⟨stored', s', hset', hget, hdata, hhash⟩ :=
      hB (hashed item) hub.clipboard (hashed_hash_ne item) hl
    rw [hset] at hset'
    cases hset'
    have hclip : stored.hash = Protocol.hash stored.data := by
      rw [hhash, hhashed, hdata]
      rfl
    have hfits : stored.data.length ≤ maxClip := hdata ▸ hl
    exact .sent hs _ _ ⟨⟨hclip, rfl, hfits⟩, rfl, hdata, ⟨stored, hget, hdata, hhash.trans hhashed⟩,
      rfl, rfl, bumped_seq _ _⟩

theorem localPush_sent (hB : Exact B) (now : ℕ) {item : Item} (hub : Hub σ)
    (hh : item.hash = "" ∨ item.hash = Protocol.hash item.data) (hl : item.data.length ≤ maxClip) :
    ∃ clip, (hub.localPush B now true item).out = [⟨clip, none⟩] ∧
      Sent B hub item.data (hub.localPush B now true item).hub clip := by
  have h := localPush_copied hB now true hub hh
  generalize hub.localPush B now true item = ret at h
  cases h with
  | refused h => exact absurd hl (Nat.not_le.mpr h)
  | unsaved hs _ _ _ _ => cases hs
  | sent _ after clip hsent => exact ⟨clip, rfl, hsent⟩

end Hub

/-! ## Two hubs -/

namespace Net
variable {ι σ : Type} (P : Peering ι) (B : String → Backend σ)

/-- What is on the clipboard of `h`. -/
def content (h : String) (n : Net ι σ) : Option Bytes :=
  match (B h).get (n.hub h).clipboard with
  | .ok (some item) => some item.data
  | _ => none

/-- What will be on the clipboard at the far end of `l` once the frames of `l` have arrived. -/
def outcome (l : Link ι) (n : Net ι σ) : Option Bytes :=
  match (n.wire l).getLast? with
  | some clip => some clip.data
  | none => content B (P.target l) n

theorem content_of_holds [Sha256] {h : String} {n : Net ι σ} {data : Bytes}
    (hh : (n.hub h).Holds (B h) data) : content B h n = some data := by
  obtain ⟨item, hget, hdata, _⟩ := hh
  rw [content, hget]
  exact congrArg some hdata

theorem outcome_quiet {l : Link ι} {n : Net ι σ} (hq : n.wire l = []) :
    outcome P B l n = content B (P.target l) n := by
  rw [outcome, hq]
  rfl

/-- Both clipboards hold the same content. -/
def Agrees (a b : String) (n : Net ι σ) : Prop := content B a n = content B b n

instance (a b : String) (n : Net ι σ) : Decidable (Agrees B a b n) :=
  inferInstanceAs (Decidable (_ = _))

/-- The last frame on its way along `l` carries other content than `item`. -/
def Crossed (l : Link ι) (item : Item) (n : Net ι σ) : Prop :=
  ∃ clip, (n.wire l).getLast? = some clip ∧ clip.data ≠ item.data

/-- A `zsync copy` that is not refused for its size. -/
def Copies : NetEvent ι → Prop
  | .push _ _ item => item.data.length ≤ maxClip
  | _ => False

instance : DecidablePred (Copies : NetEvent ι → Prop) := fun e =>
  match e with
  | .push _ _ item => inferInstanceAs (Decidable (item.data.length ≤ maxClip))
  | .copy .. | .poll .. | .deliver .. | .drop .. | .tick .. => inferInstanceAs (Decidable False)

/-- The users copy, and the oldest frame of a queue arrives. -/
inductive Plays [Sha256] (a b : String) (S : Set Bytes) : NetEvent Unit → Prop
  | copy (h : String) (item : Item) (hh : h = a ∨ h = b)
    (hash : item.hash = "" ∨ item.hash = Protocol.hash item.data) (hd : item.data ∈ S) :
    Plays a b S (.push h true item)
  | deliver (l : Link Unit) : Plays a b S (.deliver l 0)
  | tick (d : ℕ) : Plays a b S (.tick d)

/-- The last copy of the run was crossed. -/
def LastCrossed [Sha256] (a b : String) (put : Item → σ → σ) (n : Net Unit σ)
    (es : List (NetEvent Unit)) : Prop :=
  ∃ es₁ l saves item es₂ t, es = es₁ ++ .push ((link a b).target l) saves item :: es₂ ∧
    item.data.length ≤ maxClip ∧ (∀ e ∈ es₂, ¬ Copies e) ∧
    exec (step (link a b) B put) n es₁ = some t ∧ Crossed l item t

/-! ### The invariant -/

/-- The frames along `l`, and what its far end has seen of its near end. -/
structure Side [Sha256] (S : Set Bytes) (l : Link ι) (n : Net ι σ) : Prop where
  nodeId : (n.hub (P.source l)).nodeId = P.source l
  held : (n.hub (P.source l)).HoldsOnly (B (P.source l)) S
  clips : ∀ clip ∈ n.wire l, Verified clip ∧ clip.clipMeta.originId = P.source l ∧ clip.data ∈ S
  order : (n.wire l).Pairwise fun c d => c.clipMeta.seq < d.clipMeta.seq
  sent : ∀ clip ∈ n.wire l, clip.clipMeta.seq ≤ (n.hub (P.source l)).state.inner.seq
  unseen : ∀ clip ∈ n.wire l,
    (n.hub (P.target l)).seen.fresh (P.source l) clip.clipMeta.seq = true
  seen : ∀ seq, (n.hub (P.target l)).seen.last (P.source l) = some seq →
    seq ≤ (n.hub (P.source l)).state.inner.seq

/-- Two hubs that agree, before anything was copied: neither has seen a number that its peer has not
used. -/
structure Opens [Sha256] (S : Set Bytes) (a b : String) (n : Net ι σ) : Prop where
  start : Start n
  equal : Agrees B a b n
  held : ∀ h, (n.hub h).HoldsOnly (B h) S
  seen : ∀ x y seq, (n.hub y).seen.last x = some seq → seq ≤ (n.hub x).state.inner.seq

theorem Opens.side [Sha256] {B : String → Backend σ} {S : Set Bytes} {a b : String} {n : Net ι σ}
    (hn : Opens B S a b n) (l : Link ι) : Side P B S l n where
  nodeId := hn.start.nodeId _
  held := hn.held _
  clips := fun _ hclip => absurd (hn.start.wire l ▸ hclip) List.not_mem_nil
  order := hn.start.wire l ▸ List.Pairwise.nil
  sent := fun _ hclip => absurd (hn.start.wire l ▸ hclip) List.not_mem_nil
  unseen := fun _ hclip => absurd (hn.start.wire l ▸ hclip) List.not_mem_nil
  seen := hn.seen _ _

/-! ### One step -/

section Step
variable [Sha256] {B} {S : Set Bytes} {a b : String} (hab : a ≠ b) (put : Item → σ → σ)

omit [Sha256] in
include hab in
theorem link_ends_ne (l : Link Unit) : (link a b).source l ≠ (link a b).target l := by
  obtain ⟨_, d⟩ := l
  cases d
  · exact hab
  · exact hab.symm

omit [Sha256] in
theorem link_eq_or_back (l l' : Link Unit) : l' = l ∨ l' = l.back := by
  obtain ⟨_, d⟩ := l
  obtain ⟨_, d'⟩ := l'
  cases d <;> cases d' <;> simp [Link.back]

omit [Sha256] in
theorem link_target {h : String} (hh : h = a ∨ h = b) : ∃ l, (link a b).target l = h := by
  obtain rfl | rfl := hh
  · exact ⟨((), true), rfl⟩
  · exact ⟨((), false), rfl⟩

include hab in
/-- The oldest frame arrives, and is not sent back. -/
theorem deliver_front {n m : Net Unit σ} {l : Link Unit}
    (hs : step (link a b) B put n (.deliver l 0) = some m) :
    ∃ clip rest, n.wire l = clip :: rest ∧ m.wire l = rest ∧ m.wire l.back = n.wire l.back ∧
      m.hub = Function.update n.hub ((link a b).target l)
        ((n.hub ((link a b).target l)).applyRemote (B ((link a b).target l)) n.clock clip).hub := by
  have hne := link_ends_ne hab l
  obtain ⟨clip, hi, rfl⟩ := step_deliver rfl hs
  cases hw : n.wire l with
  | nil =>
    rw [hw] at hi
    cases hi
  | cons c rest =>
    rw [hw] at hi
    obtain rfl : c = clip := Option.some.inj hi
    refine ⟨c, rest, rfl, ?_, ?_, ?_⟩
    · rw [forward_wire, if_neg hne, setHub_wire, take_wire, Function.update_self, hw]
      rfl
    · have hnone : (link a b).frames l.back ((n.hub ((link a b).target l)).applyFrom
          (B ((link a b).target l)) n.clock c ((link a b).source l)).out = [] := by
        rw [Hub.applyFrom_out]
        split_ifs
        · rw [Peering.frames_some, if_neg fun hc => hc.2 (Peering.target_back _ _)]
        · rfl
      have hback : l.back ≠ l := by
        intro hl
        exact hne (by rw [← (link a b).target_back l, hl])
      rw [forward_wire, if_pos (Peering.source_back _ _), hnone, List.append_nil, setHub_wire,
        take_wire, Function.update_of_ne hback]
    · rw [forward_hub, setHub_hub, take_hub, Hub.applyFrom_hub]

include hab in
theorem push_sends {n m : Net Unit σ} {l : Link Unit} {item : Item} {clip : Clip}
    (hout : ((n.hub ((link a b).source l)).localPush (B ((link a b).source l)) n.clock true item).out =
      [⟨clip, none⟩])
    (hs : step (link a b) B put n (.push ((link a b).source l) true item) = some m) :
    m.wire l = n.wire l ++ [clip] ∧ m.wire l.back = n.wire l.back ∧
      m.hub = Function.update n.hub ((link a b).source l)
        ((n.hub ((link a b).source l)).localPush (B ((link a b).source l)) n.clock true item).hub := by
  simp only [step, hout] at hs
  obtain rfl := Option.some.inj hs
  refine ⟨?_, ?_, rfl⟩
  · rw [mint_wire, if_pos rfl, Peering.frames_none, setHub_wire]
  · rw [mint_wire, if_neg fun hc => link_ends_ne hab l (hc.symm.trans (Peering.source_back _ _)),
      setHub_wire]

theorem push_refused {n m : Net Unit σ} {h : String} {item : Item} (hl : maxClip < item.data.length)
    (hs : step (link a b) B put n (.push h true item) = some m) :
    m.hub = n.hub ∧ m.wire = n.wire := by
  have hret : (n.hub h).localPush (B h) n.clock true item = ⟨.error .payloadTooLarge, n.hub h, []⟩ := by
    rw [Hub.localPush, if_pos hl]
  simp only [step, hret] at hs
  obtain rfl := Option.some.inj hs
  rw [mint_nil, setHub_hub, setHub_wire]
  exact ⟨Function.update_eq_self _ _, rfl⟩

omit [Sha256] in
theorem content_congr {h : String} {n m : Net ι σ} (hhub : m.hub h = n.hub h) :
    content B h m = content B h n := by
  rw [content, content, hhub]

variable {P} in
omit [Sha256] in
theorem outcome_congr {l : Link ι} {n m : Net ι σ}
    (hhub : m.hub (P.target l) = n.hub (P.target l)) (hwire : m.wire l = n.wire l) :
    outcome P B l m = outcome P B l n := by
  rw [outcome, outcome, hwire, content_congr hhub]

section Keep
variable {P}

theorem Side.keep {l : Link ι} {n m : Net ι σ} (h : Side P B S l n) (hw : m.wire l = n.wire l)
    (hid : (m.hub (P.source l)).nodeId = (n.hub (P.source l)).nodeId)
    (hheld : (m.hub (P.source l)).HoldsOnly (B (P.source l)) S)
    (hseq : (n.hub (P.source l)).state.inner.seq ≤ (m.hub (P.source l)).state.inner.seq)
    (hseen : (m.hub (P.target l)).seen = (n.hub (P.target l)).seen) : Side P B S l m where
  nodeId := hid.trans h.nodeId
  held := hheld
  clips := hw ▸ h.clips
  order := hw ▸ h.order
  sent := fun clip hclip => (h.sent clip (hw ▸ hclip)).trans hseq
  unseen := fun clip hclip => hseen ▸ h.unseen clip (hw ▸ hclip)
  seen := fun seq hlast => (h.seen seq (hseen ▸ hlast)).trans hseq

theorem Side.arrive {l : Link ι} {n m : Net ι σ} {clip : Clip} {rest : List Clip}
    (h : Side P B S l n) (hn : n.wire l = clip :: rest) (hm : m.wire l = rest)
    (hhub : m.hub (P.source l) = n.hub (P.source l))
    (hseen : (m.hub (P.target l)).seen = ((n.hub (P.target l)).sawClip clip).seen) :
    Side P B S l m := by
  have hsub : ∀ c ∈ rest, c ∈ n.wire l := fun c hc => hn ▸ List.mem_cons_of_mem _ hc
  have hmem : clip ∈ n.wire l := hn ▸ List.mem_cons_self
  have horder := h.order
  rw [hn, List.pairwise_cons] at horder
  have hlast : (m.hub (P.target l)).seen.last (P.source l) = some clip.clipMeta.seq := by
    rw [hseen, ← (h.clips clip hmem).2.1]
    exact Function.update_self _ _ _
  refine ⟨hhub ▸ h.nodeId, hhub ▸ h.held, ?_, hm ▸ horder.2, ?_, ?_, ?_⟩
  · rw [hm]
    exact fun c hc => h.clips c (hsub c hc)
  · rw [hm, hhub]
    exact fun c hc => h.sent c (hsub c hc)
  · rw [hm]
    intro c hc
    rw [SeenSeq.fresh, hlast]
    exact decide_eq_true (horder.1 c hc)
  · intro seq hs
    rw [hlast] at hs
    rw [hhub, ← Option.some.inj hs]
    exact h.sent clip hmem

theorem Side.send {l : Link ι} {n m : Net ι σ} {clip : Clip} {after : Hub σ} {data : Bytes}
    (h : Side P B S l n) (hc : (n.hub (P.source l)).state.inner.seq + 1 < 2 ^ 64) (hd : data ∈ S)
    (hsent : (n.hub (P.source l)).Sent (B (P.source l)) data after clip)
    (hw : m.wire l = n.wire l ++ [clip]) (hx : m.hub (P.source l) = after)
    (hy : m.hub (P.target l) = n.hub (P.target l)) : Side P B S l m := by
  have hnext : (n.hub (P.source l)).nextSeq = (n.hub (P.source l)).state.inner.seq + 1 :=
    Nat.mod_eq_of_lt hc
  have hid := Prod.mk.inj hsent.copyId
  have hseq : (m.hub (P.source l)).state.inner.seq = (n.hub (P.source l)).state.inner.seq + 1 := by
    rw [hx, hsent.seq, hnext]
  have hclip : clip.clipMeta.seq = (n.hub (P.source l)).state.inner.seq + 1 := hid.2.trans hnext
  refine ⟨?_, ?_, ?_, ?_, ?_, ?_, ?_⟩
  · rw [hx, hsent.nodeId, h.nodeId]
  · rw [hx]
    exact hsent.holds.only hd
  · rw [hw, List.forall_mem_append, List.forall_mem_singleton]
    exact ⟨h.clips, hsent.verified, hid.1.trans h.nodeId, hsent.payload ▸ hd⟩
  · rw [hw, List.pairwise_append]
    refine ⟨h.order, List.pairwise_singleton _ _, fun c hcin d hd => ?_⟩
    have hle := h.sent c hcin
    rw [List.mem_singleton.mp hd]
    omega
  · rw [hw, hseq, List.forall_mem_append, List.forall_mem_singleton]
    exact ⟨fun c hcin => (h.sent c hcin).trans (Nat.le_succ _), hclip.le⟩
  · rw [hw, hy, List.forall_mem_append, List.forall_mem_singleton]
    refine ⟨h.unseen, ?_⟩
    rw [SeenSeq.fresh]
    split
    · next prev hprev =>
      have hle := h.seen prev hprev
      exact decide_eq_true (by omega)
    · rfl
  · rw [hy, hseq]
    exact fun seq hs => (h.seen seq hs).trans (Nat.le_succ _)

end Keep

/-- Both directions of the session. -/
def Joined (B : String → Backend σ) (S : Set Bytes) (a b : String) (n : Net Unit σ) : Prop :=
  ∀ l, Side (link a b) B S l n

theorem joined_of_sides {l : Link Unit} {n : Net Unit σ} (h : Side (link a b) B S l n)
    (hback : Side (link a b) B S l.back n) : Joined B S a b n := by
  intro l'
  obtain rfl | rfl := link_eq_or_back l l'
  · exact h
  · exact hback

theorem Joined.congr {n m : Net Unit σ} (h : Joined B S a b n) (hhub : m.hub = n.hub)
    (hwire : m.wire = n.wire) : Joined B S a b m := by
  intro l
  exact (h l).keep (by rw [hwire]) (by rw [hhub]) (hhub ▸ (h l).held) (by rw [hhub]) (by rw [hhub])

include hab in
/-- An arrival keeps both directions, and what both clipboards will hold. -/
theorem deliver_keeps (hB : ∀ h, Exact (B h)) (hS : Set.InjOn Protocol.hash S) {l : Link Unit}
    {n m : Net Unit σ} (hn : Joined B S a b n)
    (hs : step (link a b) B put n (.deliver l 0) = some m) :
    Joined B S a b m ∧ ∀ l', outcome (link a b) B l' m = outcome (link a b) B l' n := by
  have hne := link_ends_ne hab l
  obtain ⟨clip, rest, hw, hm, hback, hhub⟩ := deliver_front hab put hs
  have hxy := hn l
  have hyx := hn l.back
  have hmem : clip ∈ n.wire l := hw ▸ List.mem_cons_self
  obtain ⟨hv, hid, hd⟩ := hxy.clips clip hmem
  have hname := hyx.nodeId
  have hheld := hyx.held
  rw [Peering.source_back] at hname hheld
  have hother : clip.clipMeta.originId ≠ (n.hub ((link a b).target l)).nodeId := by
    rw [hid, hname]
    exact hne
  obtain ⟨hholds, hseen⟩ := Hub.applyRemote_holds (hB _) hS n.clock hheld hd hv hother
    (hid ▸ hxy.unseen clip hmem)
  obtain ⟨hkept, hstate⟩ := Hub.applyRemote_kept (B ((link a b).target l)) n.clock clip
    (n.hub ((link a b).target l))
  have hx : m.hub ((link a b).source l) = n.hub ((link a b).source l) := by
    rw [hhub, Function.update_of_ne hne]
  have hy := congrFun hhub ((link a b).target l)
  rw [Function.update_self] at hy
  rw [← hy] at hholds hseen hkept hstate
  refine ⟨joined_of_sides (hxy.arrive hw hm hx hseen) (hyx.keep hback ?_ ?_ ?_ ?_), fun l' => ?_⟩
  · rw [Peering.source_back, hkept]
  · rw [Peering.source_back]
    exact hholds.only hd
  · rw [Peering.source_back, hstate]
  · rw [Peering.target_back, hx]
  · obtain rfl | rfl := link_eq_or_back l l'
    · rw [outcome, outcome, hm, hw]
      cases rest with
      | nil => exact content_of_holds B hholds
      | cons c rest =>
        have hlast : (clip :: c :: rest).getLast? = (c :: rest).getLast? := List.getLast?_cons_cons
        rw [hlast, List.getLast?_cons]
    · exact outcome_congr (by rw [Peering.target_back, hx]) hback

include hab in
/-- A copy keeps both directions, and is what the other clipboard will hold. -/
theorem push_keeps (hB : ∀ h, Exact (B h)) {l : Link Unit} {n m : Net Unit σ} {item : Item}
    (hn : Joined B S a b n) (hh : item.hash = "" ∨ item.hash = Protocol.hash item.data)
    (hl : item.data.length ≤ maxClip) (hd : item.data ∈ S)
    (hc : (n.hub ((link a b).source l)).state.inner.seq + 1 < 2 ^ 64)
    (hs : step (link a b) B put n (.push ((link a b).source l) true item) = some m) :
    Joined B S a b m ∧ (outcome (link a b) B l m = outcome (link a b) B l.back m ↔
      ¬ Crossed l.back item n) := by
  have hne := link_ends_ne hab l
  obtain ⟨clip, hout, hsent⟩ := Hub.localPush_sent (hB _) n.clock (n.hub ((link a b).source l)) hh hl
  obtain ⟨hw, hback, hhub⟩ := push_sends hab put hout hs
  have hx := congrFun hhub ((link a b).source l)
  rw [Function.update_self] at hx
  have hy : m.hub ((link a b).target l) = n.hub ((link a b).target l) := by
    rw [hhub, Function.update_of_ne hne.symm]
  have hback' : Side (link a b) B S l.back m := by
    refine (hn l.back).keep hback ?_ ?_ ?_ ?_
    · rw [Peering.source_back, hy]
    · have hheld := (hn l.back).held
      rw [Peering.source_back] at hheld ⊢
      rw [hy]
      exact hheld
    · rw [Peering.source_back, hy]
    · rw [Peering.target_back, hx, hsent.seen]
  refine ⟨joined_of_sides ((hn l).send hc hd hsent hw hx hy) hback', ?_⟩
  have hthere : outcome (link a b) B l m = some item.data := by
    rw [outcome, hw, List.getLast?_concat]
    exact congrArg some hsent.payload
  have hhere : content B ((link a b).source l) m = some item.data :=
    content_of_holds B (hx ▸ hsent.holds)
  rw [hthere, outcome, hback, Peering.target_back, hhere]
  unfold Crossed
  cases (n.wire l.back).getLast? with
  | none => simp
  | some c => simp [eq_comm]

end Step

/-! ### Whole runs -/

section Run
variable [Sha256] {B} {S : Set Bytes} {a b : String} (put : Item → σ → σ)

/-- Both clipboards will hold the same content. -/
def Converges (B : String → Backend σ) (a b : String) (n : Net Unit σ) : Prop :=
  ∀ l : Link Unit, outcome (link a b) B l n = outcome (link a b) B l.back n

omit [Sha256] in
theorem converges_iff (l : Link Unit) (n : Net Unit σ) :
    Converges B a b n ↔ outcome (link a b) B l n = outcome (link a b) B l.back n := by
  refine ⟨fun h => h l, fun h l' => ?_⟩
  obtain rfl | rfl := link_eq_or_back l l'
  · exact h
  · rw [Link.back_back]
    exact h.symm

omit [Sha256] in
theorem converges_congr {n m : Net Unit σ}
    (h : ∀ l, outcome (link a b) B l m = outcome (link a b) B l n) :
    Converges B a b m ↔ Converges B a b n := by
  rw [Converges, Converges]
  exact forall_congr' fun l => by rw [h, h]

variable (hab : a ≠ b) (hB : ∀ h, Exact (B h)) (hS : Set.InjOn Protocol.hash S)
include hab hB

/-- A copy sets what both clipboards will hold, unless it is crossed. -/
theorem Joined.copy {n m : Net Unit σ} {l : Link Unit} {saves : Bool} {item : Item}
    (hn : Joined B S a b n) (hp : Plays a b S (.push ((link a b).target l) saves item))
    (hc : Counts n (.push ((link a b).target l) saves item : NetEvent Unit))
    (hl : item.data.length ≤ maxClip)
    (hs : step (link a b) B put n (.push ((link a b).target l) saves item) = some m) :
    Joined B S a b m ∧ (Converges B a b m ↔ ¬ Crossed l item n) := by
  cases hp with
  | copy _ _ hh hhash hd =>
    rw [← (link a b).source_back l] at hs hc
    obtain ⟨hjoined, hiff⟩ := push_keeps hab put hB hn hhash hl hd hc hs
    rw [Link.back_back] at hiff
    rw [converges_iff l.back, Link.back_back]
    exact ⟨hjoined, hiff⟩

include hS

theorem Joined.step {n m : Net Unit σ} {e : NetEvent Unit} (hn : Joined B S a b n)
    (hp : Plays a b S e) (hc : Counts n e) (hs : Net.step (link a b) B put n e = some m) :
    Joined B S a b m ∧ (¬ Copies e → (Converges B a b m ↔ Converges B a b n)) := by
  have hall := hp
  cases hp with
  | copy h item hh hhash hd =>
    by_cases hl : item.data.length ≤ maxClip
    · obtain ⟨l, rfl⟩ := link_target hh
      exact ⟨(hn.copy put hab hB hall hc hl hs).1, fun hcopy => absurd hl hcopy⟩
    · obtain ⟨hhub, hwire⟩ := push_refused put (Nat.not_le.mp hl) hs
      exact ⟨hn.congr hhub hwire, fun _ => converges_congr fun l =>
        outcome_congr (congrFun hhub _) (congrFun hwire l)⟩
  | deliver l =>
    obtain ⟨hjoined, hout⟩ := deliver_keeps hab put hB hS hn hs
    exact ⟨hjoined, fun _ => converges_congr hout⟩
  | tick d =>
    obtain rfl := Option.some.inj hs
    exact ⟨hn.congr rfl rfl, fun _ => converges_congr fun _ => rfl⟩

/-- Without copies, what the clipboards will hold stays. -/
theorem converges_run {n m : Net Unit σ} {es : List (NetEvent Unit)} (hn : Joined B S a b n)
    (hg : Guarded (step (link a b) B put) (fun n e => Plays a b S e ∧ Counts n e) n es)
    (hr : exec (step (link a b) B put) n es = some m) (hquiet : ∀ e ∈ es, ¬ Copies e) :
    Converges B a b m ↔ Converges B a b n := by
  induction es generalizing n with
  | nil =>
    obtain rfl := Option.some.inj hr
    exact Iff.rfl
  | cons e es ih =>
    obtain ⟨t, ht, hr⟩ := exec_cons_eq_some _ hr
    obtain ⟨hjoined, hkeep⟩ := hn.step put hab hB hS hg.1.1 hg.1.2 ht
    have hrest := ih hjoined (hg.2 t ht) hr fun x hx => hquiet x (List.mem_cons_of_mem _ hx)
    exact hrest.trans (hkeep (hquiet e List.mem_cons_self))

/-- The copy after which nobody copies decides. -/
theorem converges_after_copy {n t m : Net Unit σ} {es₁ es₂ : List (NetEvent Unit)} {l : Link Unit}
    {saves : Bool} {item : Item} (hn : Joined B S a b n)
    (hg : Guarded (step (link a b) B put) (fun n e => Plays a b S e ∧ Counts n e) n
      (es₁ ++ .push ((link a b).target l) saves item :: es₂))
    (hr : exec (step (link a b) B put) n (es₁ ++ .push ((link a b).target l) saves item :: es₂) =
      some m)
    (ht : exec (step (link a b) B put) n es₁ = some t) (hl : item.data.length ≤ maxClip)
    (hquiet : ∀ e ∈ es₂, ¬ Copies e) : Converges B a b m ↔ ¬ Crossed l item t := by
  obtain ⟨hg₁, hg₂⟩ := guarded_append _ hg ht
  have hjoined : Joined B S a b t :=
    exec_guarded (fun _ _ _ hi hc hs => (hi.step put hab hB hS hc.1 hc.2 hs).1) hn hg₁ ht
  rw [exec_append_of _ ht] at hr
  obtain ⟨u, hu, hr⟩ := exec_cons_eq_some _ hr
  obtain ⟨hjoined', hcopy⟩ := hjoined.copy put hab hB hg₂.1.1 hg₂.1.2 hl hu
  exact (converges_run put hab hB hS hjoined' (hg₂.2 u hu) hr hquiet).trans hcopy

/-- Once nothing is in flight, the two clipboards hold the same content exactly when the last copy
was not crossed by a frame with other content. -/
theorem agreement {n m : Net Unit σ} {es : List (NetEvent Unit)} (hn : Opens B S a b n)
    (hg : Guarded (step (link a b) B put) (fun n e => Plays a b S e ∧ Counts n e) n es)
    (hr : exec (step (link a b) B put) n es = some m) (hq : ∀ l, m.wire l = []) :
    Agrees B a b m ↔ ¬ LastCrossed B a b put n es := by
  have hjoined : Joined B S a b n := hn.side (link a b)
  have hquiet : ∀ t : Net Unit σ, (∀ l, t.wire l = []) → (Agrees B a b t ↔ Converges B a b t) := by
    intro t ht
    rw [converges_iff ((), true), outcome_quiet _ B (ht _), outcome_quiet _ B (ht _)]
    exact Iff.rfl
  rw [hquiet m hq]
  constructor
  · rintro hm ⟨es₁, l, saves, item, es₂, t, rfl, hl, hnone, ht, hcross⟩
    exact (converges_after_copy put hab hB hS hjoined hg hr ht hl hnone).mp hm hcross
  · intro hnot
    obtain hnone | ⟨es₁, e, es₂, t, u, rfl, hcopy, hnone, ht, hu, _⟩ := exec_last _ Copies hr
    · exact (converges_run put hab hB hS hjoined hg hr hnone).mpr
        ((hquiet n hn.start.wire).mp hn.equal)
    · cases e with
      | push h saves item =>
        have hplays := (guarded_append _ hg ht).2.1.1
        obtain ⟨l, rfl⟩ : ∃ l, (link a b).target l = h := by
          cases hplays with
          | copy _ _ hh _ _ => exact link_target hh
        apply (converges_after_copy put hab hB hS hjoined hg hr ht hcopy hnone).mpr
        exact fun hcross => hnot ⟨es₁, l, saves, item, es₂, t, rfl, hcopy, hnone, ht, hcross⟩
      | copy h item => exact absurd hcopy id
      | poll h saves => exact absurd hcopy id
      | deliver l i => exact absurd hcopy id
      | drop l i => exact absurd hcopy id
      | tick d => exact absurd hcopy id

end Run

end Net

/-! ### A copy that arrives, and copies that cross -/

section Sample
open Net

def linkStep [Sha256] : Net Unit (Option Item) → NetEvent Unit → Option (Net Unit (Option Item)) :=
  step (link "laptop" "desktop") (fun _ => memory) fun item _ => some item

theorem freshNet_opens [Sha256] (S : Set Bytes) (a b : String) :
    Opens (fun _ => memory) S a b (freshNet : Net Unit _) where
  start := freshNet_start
  equal := rfl
  held := fun _ _ h => nomatch h
  seen := fun _ _ _ h => nomatch h

/-- Both copy before the other's frame arrives. -/
def crossingRun : List (NetEvent Unit) :=
  [.push "laptop" true ⟨"text/plain", [104, 105], "", "", ""⟩,
    .push "desktop" true ⟨"text/plain", [121, 111], "", "", ""⟩,
    .deliver ((), false) 0, .deliver ((), true) 0]

/-- A later copy that meets no frame on its way. -/
def settlingRun : List (NetEvent Unit) :=
  [.push "desktop" true ⟨"text/plain", [121, 111], "", "", ""⟩, .deliver ((), true) 0]

theorem crossing_plays [Sha256] :
    ∀ e ∈ crossingRun ++ settlingRun, Plays "laptop" "desktop" {[104, 105], [121, 111]} e := by
  simp only [crossingRun, settlingRun, List.cons_append, List.nil_append, List.forall_mem_cons]
  exact ⟨.copy _ _ (.inl rfl) (.inl rfl) (.inl rfl), .copy _ _ (.inr rfl) (.inl rfl) (.inr rfl),
    .deliver _, .deliver _, .copy _ _ (.inr rfl) (.inl rfl) (.inr rfl), .deliver _,
    fun _ h => absurd h List.not_mem_nil⟩

theorem forall_link {p : Link Unit → Prop} (h : p ((), false) ∧ p ((), true)) : ∀ l, p l := by
  rintro ⟨_, d⟩
  cases d
  · exact h.1
  · exact h.2

theorem crossing_quiet :
    letI := sampleSha256
    ∃ m, exec linkStep freshNet crossingRun = some m ∧
      (m.wire ((), false) = [] ∧ m.wire ((), true) = []) ∧
      ¬ Agrees (fun _ => memory) "laptop" "desktop" m := by
  let _ := sampleSha256
  exact ⟨_, rfl, by decide, by decide⟩

theorem settling_quiet :
    letI := sampleSha256
    ∃ m, exec linkStep freshNet (crossingRun ++ settlingRun) = some m ∧
      (m.wire ((), false) = [] ∧ m.wire ((), true) = []) ∧
      Agrees (fun _ => memory) "laptop" "desktop" m := by
  let _ := sampleSha256
  exact ⟨_, rfl, by decide, by decide⟩

/-- The last copy of the crossing is crossed; the copy that settles it is not. -/
theorem agreement_hi :
    letI := sampleSha256
    let put : Item → Option Item → Option Item := fun item _ => some item
    (∃ m, exec linkStep freshNet crossingRun = some m ∧
      ¬ Agrees (fun _ => memory) "laptop" "desktop" m ∧
      LastCrossed (fun _ => memory) "laptop" "desktop" put freshNet crossingRun) ∧
    ∃ m, exec linkStep freshNet (crossingRun ++ settlingRun) = some m ∧
      Agrees (fun _ => memory) "laptop" "desktop" m ∧
      ¬ LastCrossed (fun _ => memory) "laptop" "desktop" put freshNet (crossingRun ++ settlingRun) := by
  let _ := sampleSha256
  have hinj : Set.InjOn Protocol.hash ({[104, 105], [121, 111]} : Set Bytes) := by
    rintro _ (rfl | rfl) _ (rfl | rfl) h
    · rfl
    · revert h
      decide
    · revert h
      decide
    · rfl
  have hcounts : Guarded linkStep Counts freshNet (crossingRun ++ settlingRun) := by decide
  have hplayed := (guarded_of_forall linkStep crossing_plays freshNet).and _ hcounts
  refine ⟨?_, ?_⟩
  · obtain ⟨m, hm, hquiet, hnot⟩ := crossing_quiet
    have hiff := agreement _ (by decide) (fun _ => memory_exact) hinj (freshNet_opens _ _ _)
      (guarded_append _ hplayed hm).1 hm (forall_link hquiet)
    exact ⟨m, hm, hnot, not_not.mp fun hno => hnot (hiff.mpr hno)⟩
  · obtain ⟨m, hm, hquiet, hagree⟩ := settling_quiet
    exact ⟨m, hm, hagree, (agreement _ (by decide) (fun _ => memory_exact) hinj
      (freshNet_opens _ _ _) hplayed hm (forall_link hquiet)).mp hagree⟩

/-- Each ends with what the other had. -/
theorem crossing_copies :
    letI := sampleSha256
    Agrees (fun _ => memory) "laptop" "desktop" (freshNet : Net Unit _) ∧
    ∃ m, exec linkStep freshNet crossingRun = some m ∧
      (m.wire ((), false) = [] ∧ m.wire ((), true) = []) ∧
      ¬ Agrees (fun _ => memory) "laptop" "desktop" m := by
  let _ := sampleSha256
  exact ⟨by decide, crossing_quiet⟩

end Sample
end Zsync
