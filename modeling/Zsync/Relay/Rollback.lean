import Zsync.Model.GroupLeaf
import Zsync.Wire.ClipCodec
import Zsync.Hubs.UserCopies

/-! # What a relay can make a leaf apply again

A relay can keep the envelopes of a group and hand them out again. Within one life of the daemon the
table of sequence numbers turns them away; the table is lost with the daemon, and nothing else about
an envelope is remembered.

* `NoRollback` : an envelope that was applied is newer than all that was taken of its sender before, from
  the relay or from anywhere else.
* `Unreplayed` : an envelope that would be applied is newer than what was taken in earlier lives.
* `noRollback_iff` : all states of a run are free of rollbacks exactly when its envelopes are so.
-/

namespace Zsync
set_option autoImplicit false
set_option maxHeartbeats 250000
open Protocol Foundations

namespace GroupLeaf
variable {σ : Type} [Sha256] [Json ClipMeta] [Aead] {key : Vector UInt8 32}
  {groupId : Vector UInt8 16} {B : Backend σ} {s t : GroupLeaf σ}

/-- If the second is an envelope that was applied, it is of another sender, or newer. -/
def Newer (a b : Taken) : Prop := b.unsealed = true → a.origin = b.origin → a.seq < b.seq

def NoRollback (s : GroupLeaf σ) : Prop := (s.earlier ++ s.taken).Pairwise Newer

/-- An envelope that would be applied is newer than all that was taken of its sender in earlier lives. -/
def Unreplayed (B : Backend σ) (s : GroupLeaf σ) : LeafEvent (σ := σ) key groupId → Prop
  | .data e => ∀ sender clip, readEnvelope key groupId e.bytes = some (sender, clip) →
      Applies B clip s.hub → ∀ a ∈ s.earlier, a.origin = sender → a.seq < clip.clipMeta.seq
  | _ => True

/-- The table covers what was taken in this life. -/
def Covered (s : GroupLeaf σ) : Prop := ∀ a ∈ s.taken, s.hub.seen.UpTo a.origin a.seq

/-! ## One step -/

/-- What an envelope adds to the history, and what it keeps of the table. -/
theorem data_step {e : SealedBytes key groupId} (hs : step B s (.data e) = some t) :
    t.earlier = s.earlier ∧ t.hub.nodeId = s.hub.nodeId ∧
      (∀ o n, s.hub.seen.UpTo o n → t.hub.seen.UpTo o n) ∧
      (t.taken = s.taken ∧
          (∀ sender clip, readEnvelope key groupId e.bytes = some (sender, clip) →
            ¬ Applies B clip s.hub) ∨
        ∃ sender clip, readEnvelope key groupId e.bytes = some (sender, clip) ∧
          t.hub.seen = (s.hub.sawClip clip).seen ∧
          (t.taken = s.taken ++ [⟨sender, clip.clipMeta.seq, true⟩] ∧ Applies B clip s.hub ∨
            t.taken = s.taken ++ [⟨sender, clip.clipMeta.seq, false⟩] ∧ ¬ Applies B clip s.hub)) := by
  obtain rfl := Option.some.inj hs
  refine ⟨rfl, ?_⟩
  cases hread : readEnvelope key groupId e.bytes with
  | none =>
    obtain ⟨hhub, hnote⟩ : (onData key groupId B s.now e.bytes s.hub).hub = s.hub ∧
        takenOf key groupId e.bytes (onData key groupId B s.now e.bytes s.hub) = [] :=
      onData_unread hread
    refine ⟨congrArg Hub.nodeId hhub, fun o n h => ?_, .inl ⟨?_, fun _ _ h => by cases h⟩⟩
    · dsimp only
      rwa [hhub]
    · dsimp only
      rw [hnote, List.append_nil]
  | some p =>
    obtain ⟨sender, clip⟩ := p
    have ho : Takes B true sender clip s.hub (onData key groupId B s.now e.bytes s.hub).hub
        (takenOf key groupId e.bytes (onData key groupId B s.now e.bytes s.hub)) := onData_read hread
    refine ⟨ho.node, fun o n h => ?_, ?_⟩
    · obtain hseen | ⟨hf, hseen⟩ := ho.seen
      · dsimp only
        rwa [hseen]
      · dsimp only
        rw [hseen]
        exact h.update hf
    · dsimp only
      obtain ⟨hnil, hnot⟩ | ⟨hseen, htaken⟩ := ho.cases
      · rw [hnil, List.append_nil]
        refine .inl ⟨rfl, fun sender' clip' h => ?_⟩
        obtain ⟨-, rfl⟩ := Prod.mk.inj (Option.some.inj h)
        exact hnot
      · refine .inr ⟨sender, clip, rfl, hseen, ?_⟩
        exact htaken.imp (fun h => ⟨by rw [h.1], h.2⟩) fun h => ⟨by rw [h.1], h.2⟩

/-- Another operation adds only what the table then covers, and nothing that came in an envelope. -/
theorem op_step {o : HubOp σ} (hs : step B s (.op o : LeafEvent (σ := σ) key groupId) = some t) :
    t.earlier = s.earlier ∧ (∀ o n, s.hub.seen.UpTo o n → t.hub.seen.UpTo o n) ∧
      ∃ new, t.taken = s.taken ++ new ∧ ∀ a ∈ new, a.unsealed = false ∧ t.hub.seen.UpTo a.origin a.seq := by
  obtain rfl := Option.some.inj hs
  refine ⟨rfl, fun _ _ h => o.run_upTo h, _, rfl, fun a ha => ?_⟩
  cases o with
  | deliver clip fromPeer =>
    dsimp only
    rw [HubOp.run_deliver]
    have htakes := takes_applyRemote B s.now false clip.clipMeta.originId clip s.hub
    obtain ⟨hnil, -⟩ | ⟨hseen, htaken⟩ := htakes.cases
    · rw [HubOp.taken, hnil] at ha
      cases ha
    · have hone : HubOp.taken B s.now s.hub (.deliver clip fromPeer) =
          [⟨clip.clipMeta.originId, clip.clipMeta.seq, false⟩] := htaken.elim (fun h => h.1) fun h => h.1
      rw [hone] at ha
      obtain rfl := List.mem_singleton.mp ha
      rw [hseen]
      exact ⟨rfl, SeenSeq.upTo_update _ _ _⟩
  | push item saves => cases ha
  | observe item saves => cases ha
  | put clipboard => cases ha

theorem Covered.step {e : LeafEvent (σ := σ) key groupId} (h : Covered s)
    (hs : GroupLeaf.step B s e = some t) : Covered t := by
  cases e with
  | data e =>
    obtain ⟨-, -, hkeep, ⟨htaken, -⟩ | ⟨sender, clip, hread, hseen, htaken⟩⟩ := data_step hs
    · intro a hmem
      exact hkeep _ _ (h a (htaken ▸ hmem))
    · have hlast : ∀ w, t.taken = s.taken ++ [⟨sender, clip.clipMeta.seq, w⟩] → Covered t := by
        intro w htaken a hmem
        rw [htaken] at hmem
        obtain hmem | hmem := List.mem_append.mp hmem
        · exact hkeep _ _ (h a hmem)
        · obtain rfl := List.mem_singleton.mp hmem
          rw [hseen, ← e.own sender clip hread]
          exact SeenSeq.upTo_update _ _ _
      exact htaken.elim (fun h => hlast _ h.1) fun h => hlast _ h.1
  | op o =>
    obtain ⟨-, hkeep, new, htaken, hnew⟩ := op_step hs
    intro a hmem
    rw [htaken] at hmem
    obtain hmem | hmem := List.mem_append.mp hmem
    · exact hkeep _ _ (h a hmem)
    · exact (hnew a hmem).2
  | tick =>
    obtain rfl := Option.some.inj hs
    exact h
  | restart clipboard =>
    obtain rfl := Option.some.inj hs
    exact fun a hmem => absurd hmem List.not_mem_nil

omit [Sha256] [Json ClipMeta] [Aead] in
/-- What did not come in an envelope is free to be older. -/
theorem NoRollback.append (h : NoRollback s) {new : List Taken} (hnew : ∀ a ∈ new, a.unsealed = false)
    (hearlier : t.earlier = s.earlier) (htaken : t.taken = s.taken ++ new) : NoRollback t := by
  rw [NoRollback, hearlier, htaken, ← List.append_assoc, List.pairwise_append]
  refine ⟨h, ?_, fun a _ b hb hw => ?_⟩
  · exact List.pairwise_of_forall_mem_list fun a _ b hb hw => by rw [hnew b hb] at hw; cases hw
  · rw [hnew b hb] at hw
    cases hw

theorem noRollback_step_iff {e : LeafEvent (σ := σ) key groupId} (hc : Covered s)
    (h : NoRollback s) (hs : step B s e = some t) : NoRollback t ↔ Unreplayed B s e := by
  cases e with
  | data e =>
    obtain ⟨hearlier, -, -, ⟨htaken, hnot⟩ | ⟨sender, clip, hread, hseen, hcases⟩⟩ := data_step hs
    · refine iff_of_true ?_ fun sender clip hread ha => absurd ha (hnot sender clip hread)
      rw [NoRollback, hearlier, htaken]
      exact h
    obtain ⟨htaken, ha⟩ | ⟨htaken, hnot⟩ := hcases
    · rw [NoRollback, hearlier, htaken, ← List.append_assoc, List.pairwise_append]
      constructor
      · rintro ⟨-, -, hbelow⟩ sender' clip' hread' - a hmem ho
        obtain ⟨rfl, rfl⟩ := Prod.mk.inj (Option.some.inj (hread.symm.trans hread'))
        exact hbelow a (List.mem_append_left _ hmem) _ List.mem_cons_self rfl ho
      · intro hsafe
        refine ⟨h, List.pairwise_singleton _ _, fun a hmem b hb _ ho => ?_⟩
        obtain rfl := List.mem_singleton.mp hb
        obtain hmem | hmem := List.mem_append.mp hmem
        · exact hsafe sender clip hread ha a hmem ho
        · -- In this life the table has turned away everything that is not newer.
          have hup := hc a hmem
          rw [ho, ← e.own sender clip hread] at hup
          exact hup.lt_of_fresh ha.1.fresh
    · -- Its content was on the clipboard already.
      refine iff_of_true (h.append (fun a ha => ?_) hearlier htaken) fun sender' clip' hread' ha => ?_
      · rw [List.mem_singleton.mp ha]
      · obtain ⟨-, rfl⟩ := Prod.mk.inj (Option.some.inj (hread.symm.trans hread'))
        exact absurd ha hnot
  | op o =>
    obtain ⟨hearlier, -, new, htaken, hnew⟩ := op_step hs
    exact iff_of_true (h.append (fun a ha => (hnew a ha).1) hearlier htaken) trivial
  | tick =>
    obtain rfl := Option.some.inj hs
    exact iff_of_true h trivial
  | restart clipboard =>
    obtain rfl := Option.some.inj hs
    refine iff_of_true ?_ trivial
    rw [NoRollback, List.append_nil]
    exact h

/-! ## Whole runs -/

/-- A leaf whose daemon is started for the first time. -/
def first (nodeId : String) (clipboard : σ) (state : StateFile) (ttl : ℕ) : GroupLeaf σ :=
  ⟨Hub.new nodeId clipboard state ttl, 0, ttl, [], []⟩

/-- Nothing is rolled back in any state of a run exactly when no envelope that would be applied is as
old as a clip that an earlier life took of its sender. -/
theorem noRollback_iff {nodeId : String} {clipboard : σ} {state : StateFile} {ttl : ℕ}
    {es : List (LeafEvent (σ := σ) key groupId)}
    (hrun : (exec (step B) (first nodeId clipboard state ttl) es).isSome) :
    Along (step B) NoRollback (first nodeId clipboard state ttl) es ↔
      Guarded (step B) (Unreplayed B) (first nodeId clipboard state ttl) es :=
  along_iff_guarded (I := Covered) (fun _ _ _ h hs => h.step hs)
    (fun _ _ _ hc h hs => noRollback_step_iff hc h hs) (fun _ hmem => absurd hmem List.not_mem_nil)
    List.Pairwise.nil hrun

end GroupLeaf

/-! ### An envelope that comes again -/

/-- `hi`, sealed by the leaf `03..03` for the group `02..02`. -/
def hiEnvelope : Bytes :=
  [Group.envelopeVer] ++ (Vector.replicate 16 3).toList ++ be64 1 ++ (Vector.replicate 24 4).toList ++
    hiCiphertext

theorem hiBody_decoded : letI := sampleMetaJson; decodeClip hiBody = .ok relayClip := by
  let _ := sampleMetaJson
  have hbody : hiBody = be16 (metaBytes relayClip.clipMeta).length ++ metaBytes relayClip.clipMeta ++
      [104, 105] := by
    rw [hiMeta_length]
    rfl
  rw [hbody]
  exact decodeClip_parts relayClip_encodable.metaFits sampleMetaJson_roundTrip.nonempty
    sampleMetaJson_roundTrip.decode_encode rfl (by decide)

theorem hiEnvelope_read :
    letI := sampleMetaJson
    letI := sampleAead
    readEnvelope (.replicate 32 1) (.replicate 16 2) hiEnvelope =
      some (relayClip.clipMeta.originId, relayClip) := by
  let _ := sampleMetaJson
  let _ := sampleAead
  have hdec : Aead.decrypt (Aead.expand (.replicate 32 1)) (.replicate 24 4)
      (Group.additional (.replicate 16 2) (.replicate 16 3) 1) hiCiphertext = some hiBody :=
    if_pos ⟨if_pos rfl, rfl, rfl, rfl⟩
  have hlen : 16 ≤ hiCiphertext.length := by
    rw [hiCiphertext_length]
    decide
  have hopen := Group.open_seal (by decide) hlen hdec
  have hhex : hexEncode (Vector.replicate 16 3).toList = relayClip.clipMeta.originId := by decide
  unfold readEnvelope hiEnvelope
  rw [hopen]
  dsimp only
  rw [hiBody_decoded]
  dsimp only
  rw [hhex]

def sealedHi :
    letI := sampleMetaJson
    letI := sampleAead
    SealedBytes (.replicate 32 1) (.replicate 16 2) :=
  let _ := sampleMetaJson
  let _ := sampleAead
  ⟨hiEnvelope, fun sender clip h => by
    rw [hiEnvelope_read] at h
    obtain ⟨rfl, rfl⟩ := Prod.mk.inj (Option.some.inj h)
    rfl⟩

def firstDesktop : GroupLeaf (Option Item) :=
  GroupLeaf.first "desktop" none ⟨⟨0, []⟩, ⟨0, []⟩⟩ 5

/-- The relay hands the envelope out twice. -/
def twiceRun :
    letI := sampleMetaJson
    letI := sampleAead
    List (LeafEvent (σ := Option Item) (.replicate 32 1) (.replicate 16 2)) :=
  let _ := sampleMetaJson
  let _ := sampleAead
  [.data sealedHi, .data sealedHi, .restart none]

/-- `hi` is applied, the user copies `yo`, the daemon is restarted, and the envelope comes again. -/
def replayRun :
    letI := sampleSha256
    letI := sampleMetaJson
    letI := sampleAead
    List (LeafEvent (σ := Option Item) (.replicate 32 1) (.replicate 16 2)) :=
  let _ := sampleSha256
  let _ := sampleMetaJson
  let _ := sampleAead
  [.data sealedHi, .op (.put (some yoItem)), .restart (some yoItem), .data sealedHi]

theorem twiceRun_noRollback :
    letI := sampleSha256
    letI := sampleMetaJson
    letI := sampleAead
    Along (GroupLeaf.step memory) GroupLeaf.NoRollback firstDesktop twiceRun := by
  let _ := sampleSha256
  let _ := sampleMetaJson
  let _ := sampleAead
  refine (GroupLeaf.noRollback_iff rfl).mpr
    ⟨?_, fun t ht => ⟨?_, fun u hu => ⟨trivial, fun _ _ => trivial⟩⟩⟩
  · intro sender clip hread ha a hmem
    exact absurd hmem List.not_mem_nil
  · intro sender clip hread ha a hmem
    rw [(GroupLeaf.data_step ht).1] at hmem
    exact absurd hmem List.not_mem_nil

theorem applies_relayClip :
    letI := sampleSha256
    ∀ hub : Hub (Option Item), hub.nodeId = "desktop" → hub.seen = SeenSeq.empty →
      hub.clipboard = none ∨ hub.clipboard = some yoItem → Applies memory relayClip hub := by
  let _ := sampleSha256
  intro hub hnode hseen hclip
  refine ⟨⟨by decide, by rw [hnode]; decide, by rw [hseen]; rfl, ?_⟩, rfl⟩
  obtain hclip | hclip := hclip
  · rw [Hub.present, hclip]
    rfl
  · rw [Hub.present, hclip]
    decide

/-- The envelope is applied. -/
theorem sealedHi_applied :
    letI := sampleSha256
    letI := sampleMetaJson
    letI := sampleAead
    ∀ s t : GroupLeaf (Option Item), GroupLeaf.step memory s (.data sealedHi) = some t →
      Applies memory relayClip s.hub →
      t.earlier = s.earlier ∧ t.hub.nodeId = s.hub.nodeId ∧
        t.taken = s.taken ++ [⟨relayClip.clipMeta.originId, 1, true⟩] := by
  let _ := sampleSha256
  let _ := sampleMetaJson
  let _ := sampleAead
  intro s t hs ha
  obtain ⟨hearlier, hnode, -, ⟨-, hnot⟩ | ⟨sender, clip, hread, -, hcases⟩⟩ := GroupLeaf.data_step hs
  · exact absurd ha (hnot _ _ hiEnvelope_read)
  · obtain ⟨rfl, rfl⟩ := Prod.mk.inj (Option.some.inj (hiEnvelope_read.symm.trans hread))
    obtain ⟨htaken, -⟩ | ⟨-, hnot⟩ := hcases
    · exact ⟨hearlier, hnode, htaken⟩
    · exact absurd ha hnot

theorem replayRun_rollsBack :
    letI := sampleSha256
    letI := sampleMetaJson
    letI := sampleAead
    ¬ Along (GroupLeaf.step memory) GroupLeaf.NoRollback firstDesktop replayRun := by
  let _ := sampleSha256
  let _ := sampleMetaJson
  let _ := sampleAead
  intro h
  obtain ⟨s₁, hs₁⟩ : ∃ t, GroupLeaf.step memory firstDesktop (.data sealedHi) = some t := ⟨_, rfl⟩
  obtain ⟨hearlier, hnode, htaken⟩ := sealedHi_applied _ _ hs₁ (applies_relayClip _ rfl rfl (.inl rfl))
  obtain ⟨s₂, hs₂⟩ : ∃ t, GroupLeaf.step memory s₁ (.op (.put (some yoItem))) = some t := ⟨_, rfl⟩
  obtain ⟨s₃, hs₃⟩ : ∃ t, GroupLeaf.step memory s₂ (.restart (some yoItem)) = some t := ⟨_, rfl⟩
  have hdown : s₃.hub = Hub.new "desktop" (some yoItem) s₃.hub.state 5 ∧ s₃.taken = [] ∧
      s₃.earlier = s₁.earlier ++ s₁.taken := by
    obtain rfl := Option.some.inj hs₂
    obtain rfl := Option.some.inj hs₃
    have hnode' : s₁.hub.nodeId = "desktop" := hnode
    have httl : s₁.ttl = 5 := by
      obtain rfl := Option.some.inj hs₁
      rfl
    refine ⟨?_, rfl, congrArg (s₁.earlier ++ ·) (List.append_nil _)⟩
    show Hub.new s₁.hub.nodeId _ _ s₁.ttl = _
    rw [hnode', httl]
    rfl
  obtain ⟨s₄, hs₄⟩ : ∃ t, GroupLeaf.step memory s₃ (.data sealedHi) = some t := ⟨_, rfl⟩
  have ha : Applies memory relayClip s₃.hub := by
    rw [hdown.1]
    exact applies_relayClip _ rfl rfl (.inr rfl)
  obtain ⟨hearlier₄, -, htaken₄⟩ := sealedHi_applied _ _ hs₄ ha
  have hlast : s₄.NoRollback := (((h.2 s₁ hs₁).2 s₂ hs₂).2 s₃ hs₃).2 s₄ hs₄
  -- Both lives have applied the same envelope.
  have htwo : s₄.earlier ++ s₄.taken =
      [⟨relayClip.clipMeta.originId, 1, true⟩, ⟨relayClip.clipMeta.originId, 1, true⟩] := by
    rw [hearlier₄, htaken₄, hdown.2.1, hdown.2.2, hearlier, htaken]
    rfl
  rw [GroupLeaf.NoRollback, htwo] at hlast
  have hlt := (List.pairwise_cons.mp hlast).1 _ List.mem_cons_self rfl rfl
  exact Nat.lt_irrefl 1 hlt

end Zsync
