import Zsync.Foundations.Forest
import Zsync.Hubs.Network

/-! # Forwarding in a network of hubs

`apply_from` forwards whenever the acknowledgement is ok, also for a duplicate and for the hub's own
clip; the only guard of a hop is that the ingress peer is skipped. So what counts is where the copies
of a hub can run: over every framed session, and over its own relay sessions.

* `ForwardsOnce` : each hub forwarded each copy at most once and never one of its own, and no link
  carried two frames of one copy.
* `Peering.Acyclic` : nowhere two links from one hub to another, and no cycle among the peers that
  the copies of one hub can run between.
* `Tracked` is the invariant that makes this enough: a copy runs along the paths away from its
  origin, and it is counted on every link.
* `forwardsOnce_iff_acyclic` : all runs over a peering forward once exactly when it has no cycle.
-/

namespace Zsync
set_option autoImplicit false
set_option maxHeartbeats 250000
open Protocol Foundations

/-! ## Where copies can run -/

namespace Peering
variable {ι : Type} (P : Peering ι)

/-- Copies of `o` can run along `l`: a relay session carries only what its own hub minted. -/
def Runs (o : String) (l : Link ι) : Prop := P.kind l.1 = .framed ∨ P.source l = o

/-- The peers between which copies of `o` can run. -/
def graph (o : String) : SimpleGraph String where
  Adj := fun a b => a ≠ b ∧ ∃ l, P.source l = a ∧ P.target l = b ∧ (P.Runs o l ∨ P.Runs o l.back)
  symm := ⟨by
    rintro a b ⟨hne, l, rfl, rfl, h⟩
    exact ⟨hne.symm, l.back, P.source_back l, P.target_back l, by rw [Link.back_back]; exact h.symm⟩⟩
  loopless := ⟨fun _ h => h.1 rfl⟩

/-- No hub has two links to another or one to itself, and the copies of no hub can run in a circle. -/
structure Acyclic : Prop where
  single : ∀ l l', P.source l = P.source l' → P.target l = P.target l' → l = l'
  forest : ∀ o, (P.graph o).IsAcyclic

variable {P}

/-- The two directions of a session of a hub with itself would be two links. -/
theorem Acyclic.ends_ne (h : P.Acyclic) (l : Link ι) : P.source l ≠ P.target l := by
  intro heq
  have hback : l = l.back := by
    apply h.single
    · rw [source_back, heq]
    · rw [target_back, heq]
  have hdir := congrArg Prod.snd hback
  cases hl : l.2 <;> simp [Link.back, hl] at hdir

theorem Acyclic.adj (h : P.Acyclic) {o : String} {l : Link ι} (hr : P.Runs o l) :
    (P.graph o).Adj (P.source l) (P.target l) := ⟨h.ends_ne l, l, rfl, rfl, .inl hr⟩

/-- Away from `o`, its copies run over framed sessions only. -/
theorem framed_of_adj {o a b : String} (h : (P.graph o).Adj a b) (ha : a ≠ o) (hb : b ≠ o) :
    ∃ l, P.source l = a ∧ P.target l = b ∧ P.kind l.1 = .framed := by
  obtain ⟨-, l, rfl, rfl, (h | h) | (h | h)⟩ := h
  · exact ⟨l, rfl, rfl, h⟩
  · exact absurd h ha
  · exact ⟨l, rfl, rfl, h⟩
  · rw [source_back] at h
    exact absurd h hb

/-- A link over which copies of `o` come to another hub than `o`. -/
theorem runs_of_adj {o a b : String} (h : (P.graph o).Adj a b) (hb : b ≠ o) :
    ∃ l, P.source l = a ∧ P.target l = b ∧ P.Runs o l := by
  obtain ⟨-, l, rfl, rfl, h | (h | h)⟩ := h
  · exact ⟨l, rfl, rfl, h⟩
  · exact ⟨l, rfl, rfl, .inl h⟩
  · rw [source_back] at h
    exact absurd h hb

end Peering

namespace Net
variable {ι σ : Type}

structure ForwardsOnce (n : Net ι σ) : Prop where
  once : ∀ h, (n.forwarded h).Nodup
  foreign : ∀ h, ∀ id ∈ n.forwarded h, id.1 ≠ h
  frames : ∀ l, (n.carried l).Nodup

/-! ## The invariant -/

/-- A copy that runs along `l` comes from the side of its near end. -/
def Comes (P : Peering ι) (id : CopyId) (l : Link ι) : Prop :=
  P.Runs id.1 l ∧ ∃ k, Reaches (P.graph id.1) id.1 (P.source l) (P.target l) k

structure Tracked (P : Peering ι) (n : Net ι σ) : Prop where
  nodeId : ∀ h, (n.hub h).nodeId = h
  minted : ∀ h, (n.minted h).Nodup
  mints : ∀ h, ∀ id ∈ n.minted h, id.1 = h ∧ id.2 ≤ (n.hub h).state.inner.seq
  wires : ∀ l id, ((n.wire l).map Clip.copyId).count id + (n.gone l).count id =
    (n.carried l).count id
  links : ∀ l, ∀ id ∈ n.carried l, Comes P id l
  emits : ∀ l id, (n.carried l).count id ≤
    (n.minted (P.source l)).count id + (n.forwarded (P.source l)).count id
  ingress : ∀ b, ∀ id ∈ n.forwarded b, ∃ l, P.target l = b ∧ Comes P id l
  relays : ∀ l id, Comes P id l → (n.forwarded (P.target l)).count id ≤ (n.gone l).count id

variable {P : Peering ι}

theorem Start.tracked {n : Net ι σ} (hn : Start n) : Tracked P n where
  nodeId := hn.nodeId
  minted := fun h => by simp [hn.minted h]
  mints := fun h => by simp [hn.minted h]
  wires := fun l id => by simp [hn.wire l, hn.gone l, hn.carried l]
  links := fun l => by simp [hn.carried l]
  emits := fun l id => by simp [hn.carried l]
  ingress := fun b => by simp [hn.forwarded b]
  relays := fun l id _ => by simp [hn.forwarded]

/-! ## What the invariant gives -/

theorem Tracked.own_not_forwarded {n : Net ι σ} (hn : Tracked P n) {h : String} {id : CopyId}
    (hid : id ∈ n.forwarded h) : id.1 ≠ h := by
  obtain ⟨l, rfl, _, k, hk⟩ := hn.ingress h id hid
  exact hk.source_ne

/-- What a hub emitted of one copy, given what it forwarded of copies from elsewhere. -/
theorem Tracked.emitted_le_one {n : Net ι σ} (hn : Tracked P n) (a : String) (id : CopyId)
    (hf : id.1 ≠ a → (n.forwarded a).count id ≤ 1) :
    (n.minted a).count id + (n.forwarded a).count id ≤ 1 := by
  by_cases ho : id.1 = a
  · have hzero : (n.forwarded a).count id = 0 :=
      List.count_eq_zero.mpr fun hm => hn.own_not_forwarded hm ho
    have hone := List.nodup_iff_count_le_one.mp (hn.minted a) id
    omega
  · have hzero : (n.minted a).count id = 0 :=
      List.count_eq_zero.mpr fun hm => ho (hn.mints a id hm).1
    have hone := hf ho
    omega

/-- By induction on the distance that the copy has travelled. -/
theorem Tracked.forwarded_le_one {n : Net ι σ} (hn : Tracked P n) {l : Link ι} {id : CopyId} {k : ℕ}
    (hr : P.Runs id.1 l) (hk : Reaches (P.graph id.1) id.1 (P.source l) (P.target l) k) :
    (n.forwarded (P.target l)).count id ≤ 1 := by
  induction k using Nat.strong_induction_on generalizing l with
  | _ k ih =>
    have hemit : (n.minted (P.source l)).count id + (n.forwarded (P.source l)).count id ≤ 1 := by
      apply hn.emitted_le_one _ id
      intro ho
      obtain ⟨x, j, hj, hadj, hx⟩ := hk.back ho
      obtain ⟨l', hsource, htarget, hr'⟩ := Peering.runs_of_adj hadj (Ne.symm ho)
      rw [← htarget]
      rw [← hsource, ← htarget] at hx
      exact ih j (by omega) hr' hx
    have hrelay := hn.relays l id ⟨hr, k, hk⟩
    have hwire := hn.wires l id
    have hcarried := hn.emits l id
    omega

theorem Tracked.forwarded_count {n : Net ι σ} (hn : Tracked P n) (b : String) (id : CopyId) :
    (n.forwarded b).count id ≤ 1 := by
  by_cases hm : id ∈ n.forwarded b
  · obtain ⟨l, rfl, hr, k, hk⟩ := hn.ingress b id hm
    exact hn.forwarded_le_one hr hk
  · rw [List.count_eq_zero.mpr hm]
    exact Nat.zero_le 1

theorem Tracked.forwardsOnce {n : Net ι σ} (hn : Tracked P n) : ForwardsOnce n where
  once := fun h => List.nodup_iff_count_le_one.mpr (hn.forwarded_count h)
  foreign := fun _ _ hid => hn.own_not_forwarded hid
  frames := by
    intro l
    apply List.nodup_iff_count_le_one.mpr
    intro id
    have hemit := hn.emitted_le_one (P.source l) id fun _ => hn.forwarded_count _ id
    have hcarried := hn.emits l id
    omega

/-! ## One step -/

/-- A hub that keeps its name and does not lower its counter. -/
theorem Tracked.setHub {n : Net ι σ} (hn : Tracked P n) {h : String} {hub : Hub σ} (w : Writer)
    (hname : hub.nodeId = h) (hseq : (n.hub h).state.inner.seq ≤ hub.state.inner.seq) :
    Tracked P (n.setHub h hub w) := by
  have hle : ∀ a, (n.hub a).state.inner.seq ≤ ((n.setHub h hub w).hub a).state.inner.seq := by
    intro a
    rw [setHub_hub, Function.update_apply]
    split_ifs with ha
    · rw [ha]
      exact hseq
    · exact Nat.le_refl _
  refine ⟨fun a => ?_, hn.minted, fun a id hid => ?_, hn.wires, hn.links, hn.emits, hn.ingress,
    hn.relays⟩
  · rw [setHub_hub, Function.update_apply]
    split_ifs with ha
    · rw [ha]
      exact hname
    · exact hn.nodeId a
  · exact ⟨(hn.mints a id hid).1, (hn.mints a id hid).2.trans (hle a)⟩

/-- A frame leaves the wire. -/
theorem Tracked.take [DecidableEq ι] {n : Net ι σ} (hn : Tracked P n) {l : Link ι} {i : ℕ}
    {clip : Clip} (hi : (n.wire l)[i]? = some clip) : Tracked P (n.take l i clip) := by
  have hgone : ∀ x id, (n.gone x).count id ≤ ((n.take l i clip).gone x).count id := by
    intro x id
    rw [take_gone, Function.update_apply]
    split_ifs with hx
    · rw [hx, List.count_append]
      exact Nat.le_add_right _ _
    · exact Nat.le_refl _
  refine ⟨hn.nodeId, hn.minted, hn.mints, fun x id => ?_, hn.links, hn.emits, hn.ingress,
    fun x id hc => (hn.relays x id hc).trans (hgone x id)⟩
  have hw := hn.wires x id
  rw [take_wire, take_gone, take_carried, Function.update_apply, Function.update_apply]
  split_ifs with hx
  · rw [hx] at hw ⊢
    obtain ⟨hlt, hget⟩ := List.getElem?_eq_some_iff.mp hi
    have hperm := (List.getElem_cons_eraseIdx_perm hlt).map Clip.copyId
    have hcount := hperm.count_eq id
    rw [List.map_cons, List.count_cons, hget] at hcount
    rw [List.count_append, List.count_singleton]
    omega
  · exact hw

/-- How often `id` stands in a log that `h` appended to. -/
theorem count_update_append (log : String → List CopyId) (h : String) (ids : List CopyId)
    (a : String) (id : CopyId) :
    (Function.update log h (log h ++ ids) a).count id =
      (log a).count id + if a = h then ids.count id else 0 := by
  rw [Function.update_apply]
  split_ifs with ha
  · rw [ha, List.count_append]
  · rfl

/-- What is emitted lies on the wire and is counted on its link. -/
theorem emit_conserves {n : Net ι σ} {l : Link ι} {id : CopyId} (h : String) (outs : List Outbound)
    (hw : ((n.wire l).map Clip.copyId).count id + (n.gone l).count id = (n.carried l).count id) :
    (((n.emit P h outs).wire l).map Clip.copyId).count id + (n.gone l).count id =
      ((n.emit P h outs).carried l).count id := by
  rw [emit_wire, emit_carried]
  split_ifs
  · rw [List.map_append, List.count_append, List.count_append]
    omega
  · exact hw

/-- A link carries what it carried before, or what its sender does not skip. -/
theorem mem_emit_carried {n : Net ι σ} {h : String} {l : Link ι} {id : CopyId} {outs : List Outbound}
    (hid : id ∈ (n.emit P h outs).carried l) :
    id ∈ n.carried l ∨ P.source l = h ∧ id ∈ (P.frames l outs).map Clip.copyId := by
  rw [emit_carried] at hid
  split_ifs at hid with hc
  · obtain hid | hid := List.mem_append.mp hid
    · exact .inl hid
    · exact .inr ⟨hc, hid⟩
  · exact .inl hid

theorem count_emit_carried_le (h : String) (outs : List Outbound) (n : Net ι σ) (l : Link ι)
    (id : CopyId) : ((n.emit P h outs).carried l).count id ≤
      (n.carried l).count id +
        if P.source l = h then (outs.map fun out => out.clip.copyId).count id else 0 := by
  have hsub : ((P.frames l outs).map Clip.copyId).count id ≤
      (outs.map fun out => out.clip.copyId).count id := by
    rw [Peering.frames, List.map_map]
    exact (List.filter_sublist.map _).count_le id
  rw [emit_carried]
  split_ifs
  · rw [List.count_append]
    omega
  · exact Nat.le_refl _

/-- A new copy, with a number above all the earlier ones. -/
theorem Tracked.mint (hP : P.Acyclic) {n : Net ι σ} (hn : Tracked P n) {h : String} {clip : Clip}
    (ho : clip.clipMeta.originId = h)
    (hnew : ∀ id ∈ n.minted h, id.2 < clip.clipMeta.seq)
    (hseq : clip.clipMeta.seq ≤ (n.hub h).state.inner.seq) :
    Tracked P (n.mint P h [⟨clip, none⟩]) := by
  refine ⟨hn.nodeId, fun a => ?_, fun a id hid => ?_, fun l id => emit_conserves h _ (hn.wires l id),
    fun l id hid => ?_, fun l id => ?_, hn.ingress, hn.relays⟩
  · rw [mint_minted, Function.update_apply]
    split_ifs
    · have hnot : clip.copyId ∉ n.minted h := fun hm => Nat.lt_irrefl _ (hnew _ hm)
      exact List.concat_eq_append ▸ (hn.minted h).concat hnot
    · exact hn.minted a
  · rw [mint_minted, Function.update_apply] at hid
    split_ifs at hid with ha
    · obtain hid | hid := List.mem_append.mp hid
      · rw [ha]
        exact hn.mints h id hid
      · rw [List.mem_singleton.mp hid, ha]
        exact ⟨ho, hseq⟩
    · exact hn.mints a id hid
  · obtain hid | ⟨hl, hid⟩ := mem_emit_carried hid
    · exact hn.links l id hid
    · rw [Peering.frames_none, List.map_singleton, List.mem_singleton] at hid
      have hsrc : id.1 = P.source l := by
        rw [hid, hl]
        exact ho
      have hruns : P.Runs id.1 l := .inr hsrc.symm
      have hadj := hP.adj hruns
      refine ⟨hruns, 0, ?_⟩
      rw [← hsrc] at hadj ⊢
      exact Reaches.start hadj
  · have he := hn.emits l id
    have hle := count_emit_carried_le (P := P) h [⟨clip, none⟩] n l id
    rw [mint_minted, count_update_append]
    exact Nat.le_trans hle (by rw [mint_forwarded]; omega)

/-- A copy is handed on: it came once more along `l` than it was forwarded before. -/
theorem Tracked.forward (hP : P.Acyclic) {n : Net ι σ} (hn : Tracked P n) {l : Link ι} {clip : Clip}
    (hc : Comes P clip.copyId l)
    (hslack : (n.forwarded (P.target l)).count clip.copyId < (n.gone l).count clip.copyId) :
    Tracked P (n.forward P (P.target l) [⟨clip, some (P.source l)⟩]) := by
  obtain ⟨hruns, k, hk⟩ := hc
  have hadj := hP.adj hruns
  refine ⟨hn.nodeId, hn.minted, hn.mints, fun x id => emit_conserves _ _ (hn.wires x id),
    fun x id hid => ?_, fun x id => ?_, fun b id hid => ?_, fun x id hcome => ?_⟩
  · obtain hid | ⟨hx, hid⟩ := mem_emit_carried hid
    · exact hn.links x id hid
    · rw [Peering.frames_some] at hid
      split_ifs at hid with hgo
      · rw [List.map_singleton, List.mem_singleton] at hid
        rw [hid]
        have hxruns : P.Runs clip.copyId.1 x := .inl hgo.1
        have hxadj := hP.adj hxruns
        rw [hx] at hxadj
        refine ⟨hxruns, k + 1, ?_⟩
        rw [hx]
        exact hk.next (hP.forest _) hadj hxadj hgo.2
      · cases hid
  · have he := hn.emits x id
    have hle := count_emit_carried_le (P := P) (P.target l) [⟨clip, some (P.source l)⟩] n x id
    rw [forward_forwarded, count_update_append]
    exact Nat.le_trans hle (by rw [forward_minted]; omega)
  · rw [forward_forwarded, Function.update_apply] at hid
    split_ifs at hid with hb
    · obtain hid | hid := List.mem_append.mp hid
      · rw [hb]
        exact hn.ingress _ id hid
      · rw [List.mem_singleton.mp hid, hb]
        exact ⟨l, rfl, hruns, k, hk⟩
    · exact hn.ingress b id hid
  · have hr := hn.relays x id hcome
    rw [forward_forwarded, count_update_append, forward_gone]
    split_ifs with hx
    · rw [List.map_singleton, List.count_singleton]
      split_ifs with hid
      · have hid := eq_of_beq hid
        obtain ⟨hxruns, j, hj⟩ := hcome
        have hxadj := hP.adj hxruns
        rw [← hid, hx] at hj hxadj
        have hsource : P.source x = P.source l := hj.unique (hP.forest _) hxadj hk hadj
        obtain rfl : x = l := hP.single x l hsource hx
        rw [← hid]
        exact hslack
      · omega
    · exact hr

theorem Tracked.minting (hP : P.Acyclic) {n : Net ι σ} (hn : Tracked P n) {h : String} {after : Hub σ}
    {outs : List Outbound} (w : Writer) (hm : (n.hub h).Mints after outs)
    (hwrap : (n.hub h).state.inner.seq + 1 < 2 ^ 64) :
    Tracked P ((n.setHub h after w).mint P h outs) := by
  have hnext : (n.hub h).nextSeq = (n.hub h).state.inner.seq + 1 := Nat.mod_eq_of_lt hwrap
  cases hm with
  | silent hname _ hq =>
    rw [mint_nil]
    apply hn.setHub w (hname.trans (hn.nodeId h))
    rw [hnext] at hq
    omega
  | one clip hname _ hq hid =>
    have hset : Tracked P (n.setHub h after w) :=
      hn.setHub w (hname.trans (hn.nodeId h)) (by rw [hq, hnext]; exact Nat.le_succ _)
    refine hset.mint hP (hid.1.trans (hn.nodeId h)) (fun id hmem => ?_) ?_
    · have hle := (hn.mints h id hmem).2
      rw [hid.2, hnext]
      omega
    · rw [setHub_hub, Function.update_self, hq, hid.2]

section Runs
variable [DecidableEq ι] [Sha256] (B : String → Backend σ) (put : Item → σ → σ)

theorem Tracked.step (hP : P.Acyclic) {n m : Net ι σ} {e : NetEvent ι} (hn : Tracked P n)
    (hc : Counts n e) (hs : step P B put n e = some m) : Tracked P m := by
  cases e with
  | copy h item =>
    obtain rfl := Option.some.inj hs
    exact hn.setHub .user (hn.nodeId h) (Nat.le_refl _)
  | push h saves item =>
    obtain rfl := Option.some.inj hs
    exact hn.minting hP _ (Hub.localPush_mints _ _ _ _ _) hc
  | poll h saves =>
    obtain rfl | ⟨item, hget, rfl⟩ := step_poll hs
    · exact hn
    · exact hn.minting hP _ (Hub.localObserved_mints _ _ _ _) hc
  | deliver l i =>
    obtain ⟨clip, hi, rfl⟩ := step_deliver rfl hs
    have hkept := Hub.applyRemote_kept (B (P.target l)) n.clock clip (n.hub (P.target l))
    have hmem : clip.copyId ∈ (n.wire l).map Clip.copyId :=
      List.mem_map_of_mem (List.mem_of_getElem? hi)
    have hwire := hn.wires l clip.copyId
    have hpos := List.count_pos_iff.mpr hmem
    have hcome : Comes P clip.copyId l := hn.links l _ (List.count_pos_iff.mp (by omega))
    have hset : Tracked P ((n.take l i clip).setHub (P.target l)
        ((n.hub (P.target l)).applyFrom (B (P.target l)) n.clock clip (P.source l)).hub
        (if (n.hub (P.target l)).ApplyWrites (B (P.target l)) clip then .hub
          else n.writer (P.target l))) := by
      refine (hn.take hi).setHub _ ?_ ?_
      · rw [Hub.applyFrom_hub, hkept.1]
        exact hn.nodeId _
      · rw [Hub.applyFrom_hub, hkept.2]
        exact Nat.le_refl _
    rw [Hub.applyFrom_out]
    by_cases hf : (n.hub (P.target l)).Forwards (B (P.target l)) clip
    · rw [if_pos hf]
      apply hset.forward hP hcome
      have hrelay := hn.relays l _ hcome
      rw [setHub_forwarded, setHub_gone, take_forwarded, take_gone, Function.update_self,
        List.count_append, List.count_singleton_self]
      omega
    · rw [if_neg hf, forward_nil]
      exact hset
  | drop l i =>
    obtain ⟨clip, hi, rfl⟩ := step_drop hs
    exact hn.take hi
  | tick d =>
    obtain rfl := Option.some.inj hs
    exact ⟨hn.nodeId, hn.minted, hn.mints, hn.wires, hn.links, hn.emits, hn.ingress, hn.relays⟩

/-- Without cycles every run forwards once. -/
theorem forwardsOnce_of_acyclic (hP : P.Acyclic) {n m : Net ι σ} {es : List (NetEvent ι)}
    (hn : Start n) (hc : Guarded (Net.step P B put) Counts n es)
    (hr : exec (Net.step P B put) n es = some m) : ForwardsOnce m :=
  (exec_guarded (fun _ _ _ hi hc hs => hi.step B put hP hc hs) hn.tracked hc hr).forwardsOnce

end Runs

/-! ## Two ways from one hub to another -/

section Cycle
variable [DecidableEq ι] [Sha256]

theorem push_memory (hub : Hub (Option Item)) (now : ℕ) {item : Item}
    (hh : item.hash = Protocol.hash item.data) (hl : item.data.length ≤ maxClip) :
    ∃ clip, (hub.localPush memory now true item).out = [⟨clip, none⟩] ∧ Verified clip := by
  have hid : Hub.hashed item = item := Hub.hashed_of_ne (hh ▸ hash_ne_empty item.data)
  have h := Hub.localPush_pushed memory now true item hub
  generalize hub.localPush memory now true item = ret at h
  cases h with
  | tooLarge h => exact absurd hl (Nat.not_le.mpr h)
  | failed _ e clipboard he =>
    rw [Hub.memory_set] at he
    cases he
  | unsaved _ hs => cases hs
  | sent _ _ stored clipboard he =>
    rw [Hub.memory_set, hid, hid] at he
    obtain rfl : item = stored := Except.ok.inj (congrArg Prod.fst he)
    exact ⟨_, rfl, hh, rfl, hl⟩

/-- A first copy of a hub lies on all its links. -/
theorem copied (P : Peering ι) (v : String) :
    ∃ e m clip, memoryStep P freshNet e = some m ∧ Counts freshNet e ∧ Verified clip ∧
      ∀ l, P.source l = v → clip ∈ m.wire l := by
  let item : Item := Item.new "text/plain" [104, 105]
  have hfits : item.data.length ≤ maxClip := by
    change 2 ≤ maxClip
    decide
  have hhash : item.hash = Protocol.hash item.data := rfl
  obtain ⟨clip, hout, hv⟩ := push_memory ((freshNet : Net ι _).hub v) 0 hhash hfits
  refine ⟨.push v true item, _, clip, rfl, ?_, hv, fun l hl => ?_⟩
  · change 0 + 1 < 2 ^ 64
    decide
  · change clip ∈ (Net.mint P v ((freshNet.hub v).localPush memory 0 true item).out _).wire l
    rw [hout, mint_wire, if_pos hl, Peering.frames_none]
    exact List.mem_append_right _ (List.mem_singleton_self _)

/-- A frame arrives, is counted, and goes on over the other framed sessions; other frames stay. -/
theorem deliver_memory {n : Net ι (Option Item)} {l : Link ι} {clip : Clip} (hv : Verified clip)
    (hin : clip ∈ n.wire l) :
    ∃ i m, memoryStep P n (.deliver l i) = some m ∧
      (∀ b, (m.forwarded b).count clip.copyId =
        (n.forwarded b).count clip.copyId + if b = P.target l then 1 else 0) ∧
      (∀ x, P.source x = P.target l → P.kind x.1 = .framed → P.target x ≠ P.source l →
        clip ∈ m.wire x) ∧
      ∀ x, x ≠ l → clip ∈ n.wire x → clip ∈ m.wire x := by
  obtain ⟨i, hi⟩ := List.getElem?_of_mem hin
  have hf : (n.hub (P.target l)).Forwards memory clip := ⟨hv, fun _ => rfl⟩
  have hout := Hub.applyFrom_out memory n.clock clip (n.hub (P.target l)) (P.source l)
  rw [if_pos hf] at hout
  obtain ⟨hub, w, hstep⟩ : ∃ hub w, memoryStep P n (.deliver l i) =
      some (((n.take l i clip).setHub (P.target l) hub w).forward P (P.target l)
        [⟨clip, some (P.source l)⟩]) := by
    refine ⟨((n.hub (P.target l)).applyFrom memory n.clock clip (P.source l)).hub,
      if (n.hub (P.target l)).ApplyWrites memory clip then .hub else n.writer (P.target l), ?_⟩
    rw [memoryStep, Net.step]
    simp only [hi, hout]
  refine ⟨i, _, hstep, fun b => ?_, fun x hx hloop hne => ?_, fun x hx hmem => ?_⟩
  · rw [forward_forwarded, count_update_append, List.map_singleton, List.count_singleton_self]
    rfl
  · rw [forward_wire, if_pos hx, Peering.frames_some, if_pos ⟨hloop, hne⟩]
    exact List.mem_append_right _ (List.mem_singleton_self _)
  · have hkept : clip ∈ (n.take l i clip).wire x := by
      rw [take_wire, Function.update_of_ne hx]
      exact hmem
    rw [forward_wire, setHub_wire]
    split_ifs
    · exact List.mem_append_left _ hkept
    · exact hkept

/-- A frame runs along a path away from the hub that it came from. -/
theorem travels {o u w : String} (q : (P.graph o).Walk u w) {l : Link ι} {n : Net ι (Option Item)}
    {clip : Clip} (hu : P.target l = u) (hq : q.IsPath) (ho : o ∉ q.support)
    (hl : P.source l ∉ q.support) (hv : Verified clip) (hin : clip ∈ n.wire l) :
    ∃ es m, Guarded (memoryStep P) Counts n es ∧ exec (memoryStep P) n es = some m ∧
      0 < (m.forwarded w).count clip.copyId ∧
      ∀ x, x ≠ l → P.source x ∉ q.support → clip ∈ n.wire x → clip ∈ m.wire x := by
  induction q generalizing l n with
  | nil =>
    obtain ⟨i, m, hm, hcount, -, hstay⟩ := deliver_memory (P := P) hv hin
    refine ⟨[.deliver l i], m, ⟨trivial, fun _ _ => trivial⟩, exec_cons_of_step _ hm [], ?_,
      fun x hx _ => hstay x hx⟩
    rw [hcount, if_pos hu.symm]
    exact Nat.succ_pos _
  | @cons u v w h p ih =>
    obtain ⟨i, m, hm, -, hwire, hstay⟩ := deliver_memory (P := P) hv hin
    rw [SimpleGraph.Walk.support_cons, List.mem_cons, not_or] at ho hl
    obtain ⟨hp, hnot⟩ := (SimpleGraph.Walk.cons_isPath_iff _ _).mp hq
    have hvo : v ≠ o := fun hvo => ho.2 (hvo ▸ p.start_mem_support)
    obtain ⟨l', hsource, htarget, hloop⟩ := Peering.framed_of_adj h (Ne.symm ho.1) hvo
    have hne : P.target l' ≠ P.source l := by
      intro hback
      rw [htarget] at hback
      exact hl.2 (hback ▸ p.start_mem_support)
    have hin' := hwire l' (hsource.trans hu.symm) hloop hne
    obtain ⟨es, t, hg, hr, hpos, hkeep⟩ := ih htarget hp ho.2 (hsource ▸ hnot) hin'
    refine ⟨.deliver l i :: es, t, ⟨trivial, fun s hs => ?_⟩, ?_, hpos, fun x hx hsupp hmem => ?_⟩
    · obtain rfl := Option.some.inj (hm.symm.trans hs)
      exact hg
    · rw [exec_cons_of_step _ hm]
      exact hr
    · rw [SimpleGraph.Walk.support_cons, List.mem_cons, not_or] at hsupp
      have hxl : x ≠ l' := by
        rintro rfl
        exact hsupp.1 hsource
      exact hkeep x hxl hsupp.2 (hstay x hx hmem)

/-- A frame that is still on its way to a hub that forwarded the copy before. -/
theorem forwards_twice {n : Net ι (Option Item)} {l : Link ι} {clip : Clip} (hv : Verified clip)
    (hin : clip ∈ n.wire l) (hpos : 0 < (n.forwarded (P.target l)).count clip.copyId) :
    ∃ i m, memoryStep P n (.deliver l i) = some m ∧ ¬ ForwardsOnce m := by
  obtain ⟨i, m, hm, hcount, -, -⟩ := deliver_memory (P := P) hv hin
  refine ⟨i, m, hm, fun h => ?_⟩
  have hone := List.nodup_iff_count_le_one.mp (h.once (P.target l)) clip.copyId
  rw [hcount, if_pos rfl] at hone
  omega

/-- Over two links from one hub to another the same copy comes twice. -/
theorem twice_of_parallel {l l' : Link ι} (hne : l ≠ l') (hsource : P.source l = P.source l')
    (htarget : P.target l = P.target l') :
    ∃ es m, Guarded (memoryStep P) Counts freshNet es ∧ exec (memoryStep P) freshNet es = some m ∧
      ¬ ForwardsOnce m := by
  obtain ⟨e, n, clip, hn, hc, hv, hwire⟩ := copied P (P.source l)
  obtain ⟨i, m, hm, hcount, -, hstay⟩ := deliver_memory (P := P) hv (hwire l rfl)
  have hpos : 0 < (m.forwarded (P.target l')).count clip.copyId := by
    rw [hcount, if_pos htarget.symm]
    exact Nat.succ_pos _
  obtain ⟨j, t, ht, hnot⟩ := forwards_twice hv (hstay l' hne.symm (hwire l' hsource.symm)) hpos
  refine ⟨[e, .deliver l i, .deliver l' j], t, ⟨hc, fun _ _ => ⟨trivial, fun _ _ =>
    ⟨trivial, fun _ _ => trivial⟩⟩⟩, ?_, hnot⟩
  rw [exec_cons_of_step _ hn, exec_cons_of_step _ hm, exec_cons_of_step _ ht]
  rfl

/-- Around a cycle a copy comes from both sides to the last hub before its origin. -/
theorem twice_of_cycle {o v : String} (c : (P.graph o).Walk v v) (hc : c.IsCycle)
    (ho : o = v ∨ o ∉ c.support) :
    ∃ es m, Guarded (memoryStep P) Counts freshNet es ∧ exec (memoryStep P) freshNet es = some m ∧
      ¬ ForwardsOnce m := by
  obtain ⟨u, w, q, hu, hw, hne, hq, hv, hsupp⟩ := path_of_isCycle hc
  obtain ⟨-, l, hsource, htarget, -⟩ := hu
  obtain ⟨-, l', hsource', htarget', -⟩ := hw
  have hoq : o ∉ q.support := by
    obtain rfl | ho := ho
    · exact hv
    · exact fun hmem => ho (hsupp o hmem)
  have hll : l' ≠ l := by
    rintro rfl
    exact hne (htarget.symm.trans htarget')
  obtain ⟨e, n, clip, hn, hcount, hclip, hwire⟩ := copied P v
  obtain ⟨es, m, hg, hr, hpos, hkeep⟩ :=
    travels q htarget hq hoq (hsource ▸ hv) hclip (hwire l hsource)
  rw [← htarget'] at hpos
  obtain ⟨i, t, ht, hnot⟩ :=
    forwards_twice hclip (hkeep l' hll (hsource' ▸ hv) (hwire l' hsource')) hpos
  refine ⟨e :: (es ++ [.deliver l' i]), t, ⟨hcount, fun s hs => ?_⟩, ?_, hnot⟩
  · obtain rfl := Option.some.inj (hn.symm.trans hs)
    exact hg.append _ fun _ _ => ⟨trivial, fun _ _ => trivial⟩
  · rw [exec_cons_of_step _ hn, exec_append_of _ hr, exec_cons_of_step _ ht]
    rfl

end Cycle

/-! ## Exactly the peerings without cycles -/

theorem forwardsOnce_iff_acyclic [Sha256] {ι : Type} [DecidableEq ι] (P : Peering ι) :
    (∀ (σ : Type) (B : String → Backend σ) (put : Item → σ → σ) (n m : Net ι σ)
      (es : List (NetEvent ι)), Start n → Guarded (step P B put) Counts n es →
      exec (step P B put) n es = some m → ForwardsOnce m) ↔ P.Acyclic := by
  constructor
  · intro h
    have hmemory : ¬ ∃ es m, Guarded (memoryStep P) Counts freshNet es ∧
        exec (memoryStep P) freshNet es = some m ∧ ¬ ForwardsOnce m := by
      rintro ⟨es, m, hg, hr, hnot⟩
      exact hnot (h _ _ _ _ m es freshNet_start hg hr)
    refine ⟨fun l l' hsource htarget => ?_, fun o v c hc => ?_⟩
    · by_contra hne
      exact hmemory (twice_of_parallel hne hsource htarget)
    · by_cases ho : o ∈ c.support
      · exact hmemory (twice_of_cycle (c.rotate o ho) (hc.rotate ho) (.inl rfl))
      · exact hmemory (twice_of_cycle c hc (.inr ho))
  · intro hP σ B put n m es hn hc hr
    exact forwardsOnce_of_acyclic B put hP hn hc hr

end Net

/-- `laptop` copies `hi`; the frame goes round and `laptop` sends it on as if it were new. -/
theorem triangle_forwards_own :
    letI := sampleSha256
    ∃ m, exec (Net.memoryStep triangle) Net.freshNet
        [.push "laptop" true (Item.new "text/plain" [104, 105]), .deliver (0, false) 0,
          .deliver (1, false) 0, .deliver (2, false) 0] = some m ∧
      ¬ Net.ForwardsOnce m := by
  let _ := sampleSha256
  refine ⟨_, rfl, fun h => ?_⟩
  exact h.foreign "laptop" ("laptop", 1) (by decide) rfl

end Zsync
