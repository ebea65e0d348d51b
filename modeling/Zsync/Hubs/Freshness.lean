import Zsync.Model.Lifetime

/-! # Only verified, fresh clips reach the clipboard

The clipboard is the recording one, so that what `apply_remote` writes to it can be told from the
outside. Between the deliveries anything may happen at the hub.

* `Delivery` : what one delivery writes, and what it leaves in the table of sequence numbers.
* `Ascending` : the invariant that ties the writes of a run to that table.
* `verified_fresh_written` : the whole of it.
-/

namespace Zsync
set_option autoImplicit false
set_option maxHeartbeats 250000
open Protocol Foundations

/-- A clip that was delivered, and an item that the delivery wrote. -/
structure ClipWrite where
  clip : Clip
  item : Item

namespace ClipWrite

/-- The second write is of another origin, or newer. -/
def Below (a b : ClipWrite) : Prop :=
  a.clip.clipMeta.originId = b.clip.clipMeta.originId → a.clip.clipMeta.seq < b.clip.clipMeta.seq

end ClipWrite

namespace Lifetime
variable {σ : Type} [Sha256]

/-- The items that a delivery wrote. -/
def clipWrites (s : Lifetime (σ × List Item)) :
    LifeEvent (σ × List Item) → Lifetime (σ × List Item) → List ClipWrite
  | .op (.deliver clip _), t =>
    (t.hub.clipboard.2.drop s.hub.clipboard.2.length).map fun item => ⟨clip, item⟩
  | _, _ => []

/-! ## One delivery -/

inductive Delivery (clip : Clip) (hub t : Hub (σ × List Item)) : Prop
  | dropped (h : ¬ HubOp.Accepted hub clip) (ht : t = hub)
  | accepted (h : HubOp.Accepted hub clip) (hseen : t.seen = (hub.sawClip clip).seen)
    (hlog : t.clipboard.2 = hub.clipboard.2 ∨
      t.clipboard.2 = hub.clipboard.2 ++ [Hub.remoteItem clip])

theorem delivery (B : Backend σ) (now : ℕ) (clip : Clip) (fromPeer : Option String)
    (hub : Hub (σ × List Item)) :
    Delivery clip hub ((HubOp.deliver clip fromPeer).run (recording B) now hub) := by
  rw [HubOp.run_deliver]
  have h := hub.applyRemote_applied (recording B) now clip
  generalize hub.applyRemote (recording B) now clip = ret at h
  cases h with
  | rejected reason hv => exact .dropped (fun ha => hv ha.1) rfl
  | own hv ho => exact .dropped (fun ha => ha.2.1 ho) rfl
  | duplicate hv ho hf => exact .dropped (fun ha => Bool.noConfusion (hf.symm.trans ha.2.2)) rfl
  | present hv ho hf hp => exact .accepted ⟨hv, ho, hf⟩ rfl (.inl rfl)
  | failed hl e clipboard hset =>
    obtain ⟨-, rfl⟩ := Prod.mk.inj hset
    exact .accepted (HubOp.accepted_of_lands hl) rfl (.inr rfl)
  | stored hl item clipboard hset =>
    obtain ⟨-, rfl⟩ := Prod.mk.inj hset
    exact .accepted (HubOp.accepted_of_lands hl) rfl (.inr rfl)

/-! ## Runs -/

/-- The writes of a run are of accepted clips, and each is newer than those of its origin before. -/
structure Ascending (nodeId : String) (s : Lifetime (σ × List Item) × List ClipWrite) : Prop where
  node : s.1.hub.nodeId = nodeId
  verified : ∀ w ∈ s.2, w.item = Hub.remoteItem w.clip ∧ Verified w.clip ∧
    w.clip.clipMeta.originId ≠ nodeId
  seen : ∀ w ∈ s.2, s.1.hub.seen.UpTo w.clip.clipMeta.originId w.clip.clipMeta.seq
  below : s.2.Pairwise ClipWrite.Below

variable {B : Backend σ} {nodeId : String}

/-- A step that writes nothing for a clip. -/
theorem Ascending.quiet {s t : Lifetime (σ × List Item) × List ClipWrite} (h : Ascending nodeId s)
    (hwrites : t.2 = s.2) (hnode : t.1.hub.nodeId = s.1.hub.nodeId)
    (hseen : ∀ o n, s.1.hub.seen.UpTo o n → t.1.hub.seen.UpTo o n) : Ascending nodeId t where
  node := hnode.trans h.node
  verified := hwrites ▸ h.verified
  seen := fun w hw => hseen _ _ (h.seen w (hwrites ▸ hw))
  below := hwrites ▸ h.below

theorem Ascending.deliver {s t : Lifetime (σ × List Item) × List ClipWrite} {clip : Clip}
    {fromPeer : Option String} (h : Ascending nodeId s)
    (hs : recorded (Lifetime.step (recording B)) clipWrites s (.op (.deliver clip fromPeer)) = some t) :
    Ascending nodeId t := by
  obtain ⟨hstep, hnote⟩ := recorded_eq_some hs
  obtain hsame := Option.some.inj hstep
  have hnode : t.1.hub.nodeId = s.1.hub.nodeId := by
    rw [← hsame]
    exact HubOp.run_nodeId _
  have hd : Delivery clip s.1.hub t.1.hub := by
    rw [← hsame]
    exact delivery B s.1.now clip fromPeer s.1.hub
  change t.2 = s.2 ++ (t.1.hub.clipboard.2.drop s.1.hub.clipboard.2.length).map _ at hnote
  cases hd with
  | dropped hna ht =>
    rw [ht, List.drop_length, List.map_nil, List.append_nil] at hnote
    exact h.quiet hnote hnode fun o n hn => by rwa [ht]
  | accepted ha hseen hlog =>
    have hkeep : ∀ o n, s.1.hub.seen.UpTo o n → t.1.hub.seen.UpTo o n := by
      intro o n hn
      rw [hseen]
      exact hn.update ha.2.2
    obtain hlog | hlog := hlog
    · rw [hlog, List.drop_length, List.map_nil, List.append_nil] at hnote
      exact h.quiet hnote hnode hkeep
    · rw [hlog, List.drop_left, List.map_singleton] at hnote
      have hmem : ∀ w ∈ t.2, w ∈ s.2 ∨ w = ⟨clip, Hub.remoteItem clip⟩ := by
        intro w hw
        rw [hnote] at hw
        exact (List.mem_append.mp hw).imp_right List.mem_singleton.mp
      refine ⟨hnode.trans h.node, fun w hw => ?_, fun w hw => ?_, ?_⟩
      · obtain hold | rfl := hmem w hw
        · exact h.verified w hold
        · exact ⟨rfl, ha.1, h.node ▸ ha.2.1⟩
      · obtain hold | rfl := hmem w hw
        · exact hkeep _ _ (h.seen w hold)
        · rw [hseen]
          exact SeenSeq.upTo_update _ _ _
      · rw [hnote]
        refine List.pairwise_append.mpr ⟨h.below, List.pairwise_singleton _ _, ?_⟩
        intro w hw x hx ho
        obtain rfl := List.mem_singleton.mp hx
        have hup := h.seen w hw
        rw [ho] at hup
        exact hup.lt_of_fresh ha.2.2

theorem Ascending.step {s t : Lifetime (σ × List Item) × List ClipWrite}
    {e : LifeEvent (σ × List Item)} (h : Ascending nodeId s)
    (hs : recorded (Lifetime.step (recording B)) clipWrites s e = some t) : Ascending nodeId t := by
  have hother : ∀ o : HubOp (σ × List Item), e = .op o → clipWrites s.1 e t.1 = [] →
      Ascending nodeId t := by
    rintro o rfl hnil
    obtain ⟨hstep, hnote⟩ := recorded_eq_some hs
    obtain hsame := Option.some.inj hstep
    rw [hnil, List.append_nil] at hnote
    refine h.quiet hnote ?_ fun o n hn => ?_
    · rw [← hsame]
      exact HubOp.run_nodeId _
    · rw [← hsame]
      exact HubOp.run_upTo _ hn
  cases e with
  | op o =>
    cases o with
    | deliver clip fromPeer => exact h.deliver hs
    | push item saves => exact hother _ rfl rfl
    | observe item saves => exact hother _ rfl rfl
    | put clipboard => exact hother _ rfl rfl
  | tick =>
    obtain ⟨hstep, hnote⟩ := recorded_eq_some hs
    obtain hsame := Option.some.inj hstep
    refine h.quiet (hnote.trans (List.append_nil _)) ?_ fun o n hn => ?_
    · rw [← hsame]
    · rwa [← hsame]

/-! ## The result -/

/-- The clip is not to be applied: it is not what it says, it is the hub's own, or it is not newer than
what was accepted, or written, of its origin. -/
def Unwanted (hub : Hub (σ × List Item)) (writes : List ClipWrite) (clip : Clip) : Prop :=
  ¬ Verified clip ∨ clip.clipMeta.originId = hub.nodeId ∨
    hub.seen.fresh clip.clipMeta.originId clip.clipMeta.seq = false ∨
    ∃ w ∈ writes, w.clip.clipMeta.originId = clip.clipMeta.originId ∧
      clip.clipMeta.seq ≤ w.clip.clipMeta.seq

theorem Ascending.not_accepted {s : Lifetime (σ × List Item) × List ClipWrite}
    (h : Ascending nodeId s) {clip : Clip} (hu : Unwanted s.1.hub s.2 clip) :
    ¬ HubOp.Accepted s.1.hub clip := by
  intro ha
  obtain hv | ho | hf | ⟨w, hw, ho, hle⟩ := hu
  · exact hv ha.1
  · exact ha.2.1 ho
  · exact Bool.noConfusion (hf.symm.trans ha.2.2)
  · have hstale := (h.seen w hw).stale hle
    rw [ho] at hstale
    exact Bool.noConfusion (hstale.symm.trans ha.2.2)

/-- Whatever is delivered to a hub, and whatever happens in between: each write stores the data of a
verified clip of another origin, the writes for one origin have increasing numbers, and a clip that is
not to be applied changes nothing at all. -/
theorem verified_fresh_written {hub : Hub (σ × List Item)} {now : ℕ}
    {es : List (LifeEvent (σ × List Item))} {s : Lifetime (σ × List Item)} {writes : List ClipWrite}
    (hr : exec (recorded (Lifetime.step (recording B)) clipWrites) (⟨hub, now⟩, []) es =
      some (s, writes)) :
    (∀ w ∈ writes, w.item.data = w.clip.data ∧ Verified w.clip ∧
        w.clip.clipMeta.originId ≠ hub.nodeId) ∧
      writes.Pairwise ClipWrite.Below ∧
      ∀ clip fromPeer, Unwanted s.hub writes clip →
        (HubOp.deliver clip fromPeer).run (recording B) s.now s.hub = s.hub := by
  have hstart : Ascending hub.nodeId (⟨hub, now⟩, []) :=
    ⟨rfl, fun _ hw => absurd hw List.not_mem_nil, fun _ hw => absurd hw List.not_mem_nil, .nil⟩
  have h : Ascending hub.nodeId (s, writes) :=
    exec_invariant (fun _ _ _ h hs => h.step hs) hstart hr
  refine ⟨fun w hw => ?_, h.below, fun clip fromPeer hu => ?_⟩
  · obtain ⟨hitem, hv, ho⟩ := h.verified w hw
    exact ⟨by rw [hitem]; rfl, hv, ho⟩
  · cases delivery B s.now clip fromPeer s.hub with
    | dropped _ ht => exact ht
    | accepted ha _ _ => exact absurd ha (h.not_accepted hu)

end Lifetime

/-! ### A clip, the same clip again, and an altered one -/

/-- `hi` with a flipped bit. -/
def flippedClip : Clip := { hiClip with data := [104, 104] }

def deliveries : List (LifeEvent (Option Item × List Item)) :=
  [.op (.deliver flippedClip (some "laptop")), .op (.deliver hiClip none),
    .op (.deliver hiClip (some "laptop"))]

theorem deliveries_written :
    letI := sampleSha256
    ∃ s writes, exec (recorded (Lifetime.step (recording memory)) Lifetime.clipWrites)
        (⟨Hub.new "desktop" (none, []) ⟨⟨0, []⟩, ⟨0, []⟩⟩ 5, 0⟩, []) deliveries = some (s, writes) ∧
      writes.map (fun w => w.item.data) = [[104, 105]] ∧
      (HubOp.deliver flippedClip none).run (recording memory) s.now s.hub = s.hub := by
  let _ := sampleSha256
  obtain ⟨⟨s, writes⟩, hr⟩ : ∃ t,
      exec (recorded (Lifetime.step (recording memory)) Lifetime.clipWrites)
        (⟨Hub.new "desktop" (none, []) ⟨⟨0, []⟩, ⟨0, []⟩⟩ 5, 0⟩, []) deliveries = some t := ⟨_, rfl⟩
  have h := (Lifetime.verified_fresh_written hr).2.2 flippedClip none (.inl (by decide))
  refine ⟨s, writes, hr, ?_, h⟩
  obtain ⟨rfl, rfl⟩ := Prod.mk.inj (Option.some.inj hr)
  decide

end Zsync
