import Zsync.Model.Daemon

/-! # Connecting and disconnecting one peer

`connect` saves the canonical form of an address, `disconnect` looks the address up as it was typed.
When it is not found, `disconnect` goes on to stop every peer.

* `stopPeers_lookup` and `stopPeers_stopped` : what stopping a list of addresses does to each entry.
* `UndoesConnect` and `LeavesOthers` are the two halves of what `disconnect` is for.
* `disconnect_exact_iff` : both hold exactly when the address is its own canonical form, and is saved
  or no other peer runs.
-/

namespace Zsync
set_option autoImplicit false
set_option maxHeartbeats 250000
open Transport

namespace Runtime

/-! ## Stopping -/

theorem dropPeer_lookup (key : String) (rt : Runtime) (w : String) :
    (rt.dropPeer key).peers.lookup w = if w = key then none else rt.peers.lookup w := by
  unfold dropPeer
  cases h : rt.peers.lookup key with
  | none =>
    split_ifs with hw
    · rw [hw, h]
    · rfl
  | some chan =>
    split_ifs with hw
    · rw [hw]
      exact AList.lookup_erase _ _
    · exact AList.lookup_erase_ne hw

theorem dropPeer_stopped (key : String) (rt : Runtime) (w : String) (g : ℕ) :
    (w, g) ∈ (rt.dropPeer key).stopped ↔
      (w, g) ∈ rt.stopped ∨ w = key ∧ rt.peers.lookup w = some g := by
  unfold dropPeer
  cases h : rt.peers.lookup key with
  | none =>
    have hnot : ¬ (w = key ∧ rt.peers.lookup w = some g) := by
      rintro ⟨rfl, hg⟩
      rw [h] at hg
      cases hg
    simp only [hnot, or_false]
  | some chan =>
    have hhead : (w, g) = (key, chan) ↔ w = key ∧ rt.peers.lookup w = some g := by
      rw [Prod.mk.injEq]
      apply and_congr_right
      intro hw
      rw [hw, h, Option.some.injEq]
      exact eq_comm
    rw [List.mem_cons, hhead]
    exact or_comm

@[simp] theorem dropPeer_state (key : String) (rt : Runtime) : (rt.dropPeer key).state = rt.state := by
  unfold dropPeer
  split <;> rfl

@[simp] theorem addPeer_state (key : String) (rt : Runtime) : (rt.addPeer key).state = rt.state := rfl

section Peers
variable [Base64]

/-- The entry of `w` goes when one of the addresses names it. -/
theorem stopPeers_lookup (uris : List String) (rt : Runtime) (w : String) :
    (rt.stopPeers uris).peers.lookup w =
      if w ∈ uris.map stopKey then none else rt.peers.lookup w := by
  induction uris generalizing rt with
  | nil => simp [stopPeers]
  | cons uri uris ih =>
    have hcons : rt.stopPeers (uri :: uris) = (rt.stopPeer uri).stopPeers uris := rfl
    rw [hcons, ih, stopPeer, dropPeer_lookup, List.map_cons]
    by_cases hw : w = stopKey uri
    · simp [hw]
    · simp [hw]

theorem stopPeers_stopped (uris : List String) (rt : Runtime) (w : String) (g : ℕ) :
    (w, g) ∈ (rt.stopPeers uris).stopped ↔
      (w, g) ∈ rt.stopped ∨ w ∈ uris.map stopKey ∧ rt.peers.lookup w = some g := by
  induction uris generalizing rt with
  | nil => simp [stopPeers]
  | cons uri uris ih =>
    have hcons : rt.stopPeers (uri :: uris) = (rt.stopPeer uri).stopPeers uris := rfl
    rw [hcons, ih, stopPeer, dropPeer_lookup, dropPeer_stopped, List.map_cons, List.mem_cons]
    by_cases hw : w = stopKey uri
    · simp [hw]
    · simp [hw]

section
variable {α : Type} {f : Runtime → α} (hdrop : ∀ key rt, f (rt.dropPeer key) = f rt)
include hdrop

/-- Stopping many peers leaves what stopping one leaves. -/
theorem stopPeers_keeps (uris : List String) (rt : Runtime) : f (rt.stopPeers uris) = f rt := by
  induction uris generalizing rt with
  | nil => rfl
  | cons uri uris ih =>
    have hcons : rt.stopPeers (uri :: uris) = (rt.stopPeer uri).stopPeers uris := rfl
    rw [hcons, ih, stopPeer, hdrop]

theorem spawnPeer_keeps (hkeys : ∀ (rt : Runtime) keys, f { rt with keys := keys } = f rt)
    (hadd : ∀ key rt, f (rt.addPeer key) = f rt) (io : RequestIo) (uri : String) (forceDial : Bool) (rt : Runtime) :
    f (rt.spawnPeer io uri forceDial).1 = f rt := by
  unfold spawnPeer
  split
  · rfl
  · split
    · exact hkeys _ _
    · dsimp only
      split
      · rw [hadd, hkeys]
      · split_ifs
        · rw [hadd, hkeys]
        · rw [hadd, hdrop, hkeys]
        · rw [hkeys]

end

@[simp] theorem stopPeers_state (uris : List String) (rt : Runtime) :
    (rt.stopPeers uris).state = rt.state := stopPeers_keeps dropPeer_state uris rt

@[simp] theorem spawnPeer_state (io : RequestIo) (uri : String) (forceDial : Bool) (rt : Runtime) :
    (rt.spawnPeer io uri forceDial).1.state = rt.state :=
  spawnPeer_keeps dropPeer_state (fun _ _ => rfl) addPeer_state io uri forceDial rt

/-! ## The two requests -/

/-- The key of the target is at hand: no relay, a key in the address, or a saved key. -/
def Resolves (target : PeerTarget) (dir : String → Group.KeyFile) : Prop :=
  ∀ relay, target.relay = some relay →
    relay.key ≠ none ∨ ∃ key, Group.loadGroupKey relay.groupId dir = .ok key

theorem resolveRelay_ok {io : Except String Unit} {target resolved : PeerTarget}
    {dir : String → Group.KeyFile} (h : (resolveRelay io target dir).1 = .ok resolved) :
    resolved.uri = target.uri ∧ Resolves target dir := by
  unfold resolveRelay at h
  cases hrelay : target.relay with
  | none =>
    rw [hrelay] at h
    obtain rfl := Except.ok.inj h
    exact ⟨rfl, fun relay hr => by rw [hrelay] at hr; cases hr⟩
  | some relay =>
    rw [hrelay] at h
    dsimp only at h
    cases hkey : relay.key with
    | some key =>
      rw [hkey] at h
      refine ⟨?_, fun r hr => ?_⟩
      · cases io with
        | error e => cases h
        | ok u =>
          obtain rfl := Except.ok.inj h
          rfl
      · obtain rfl : relay = r := Option.some.inj (hrelay.symm.trans hr)
        exact .inl (by rw [hkey]; exact Option.some_ne_none key)
    | none =>
      rw [hkey] at h
      cases hload : Group.loadGroupKey relay.groupId dir with
      | error e =>
        rw [hload] at h
        cases h
      | ok key =>
        rw [hload] at h
        obtain rfl := Except.ok.inj h
        refine ⟨rfl, fun r hr => .inr ⟨key, ?_⟩⟩
        obtain rfl : relay = r := Option.some.inj (hrelay.symm.trans hr)
        exact hload

theorem resolveRelay_of_resolves {target : PeerTarget} {dir : String → Group.KeyFile}
    (h : Resolves target dir) : ∃ resolved, (resolveRelay (.ok ()) target dir).1 = .ok resolved := by
  unfold resolveRelay
  cases hrelay : target.relay with
  | none => exact ⟨target, rfl⟩
  | some relay =>
    dsimp only
    cases hkey : relay.key with
    | some key => exact ⟨target, rfl⟩
    | none =>
      obtain hne | ⟨key, hload⟩ := h relay hrelay
      · exact absurd hkey hne
      · dsimp only
        rw [hload]
        exact ⟨_, rfl⟩

/-- A request to connect that is answered with ok saves the canonical address. -/
theorem connect_ok {io : RequestIo} {uri : String} {rt : Runtime}
    (h : (rt.connect io uri).res = .ok ()) :
    ∃ target, parsePeer uri = .ok target ∧ Resolves target rt.keys ∧
      (rt.connect io uri).rt.state = (rt.state.upsertPeer true target.uri true).2 := by
  unfold connect at h ⊢
  cases hparse : parsePeer uri with
  | error e =>
    rw [hparse] at h
    cases h
  | ok target =>
    rw [hparse] at h
    dsimp only at h ⊢
    cases hres : resolveRelay io.group target rt.keys with
    | mk res keys =>
      rw [hres] at h
      cases res with
      | error e => cases h
      | ok resolved =>
        obtain ⟨huri, hresolves⟩ := resolveRelay_ok (congrArg Prod.fst hres)
        dsimp only at h ⊢
        cases hio : io.state with
        | error e =>
          rw [hio] at h
          cases h
        | ok u =>
          refine ⟨target, rfl, hresolves, ?_⟩
          dsimp only
          rw [spawnPeer_state, huri]
          rfl

theorem connect_of_resolves {uri : String} {rt : Runtime} {target : PeerTarget}
    (ht : parsePeer uri = .ok target) (hr : Resolves target rt.keys) :
    (rt.connect ⟨.ok (), .ok ()⟩ uri).res = .ok () := by
  obtain ⟨resolved, hres⟩ := resolveRelay_of_resolves hr
  unfold connect
  rw [ht]
  dsimp only
  cases hpair : resolveRelay (.ok ()) target rt.keys with
  | mk res keys =>
    rw [hpair] at hres
    obtain rfl : res = .ok resolved := hres
    rfl

def doomed (uri : String) (rt : Runtime) : List String :=
  if rt.state.Saved uri then [uri] else rt.peers.keys

def forget (saves : Bool) (uri : String) (rt : Runtime) : Runtime :=
  { rt with state := StateFile.save saves { rt.state with inner :=
      { rt.state.inner with peers := rt.state.inner.peers.filter fun p => p.uri ≠ uri } } }

theorem disconnect_failed {io : RequestIo} {e : String} (hio : io.state = .error e) (uri : String)
    (rt : Runtime) : rt.disconnect io (some uri) = ⟨.error e, rt.forget false uri, none⟩ := by
  unfold disconnect
  rw [hio, StateFile.removePeer_some]
  rfl

theorem disconnect_done {io : RequestIo} (hio : io.state = .ok ()) (uri : String) (rt : Runtime) :
    rt.disconnect io (some uri) = ⟨.ok (), (rt.forget true uri).stopPeers (rt.doomed uri), none⟩ := by
  unfold disconnect
  rw [hio, StateFile.removePeer_some, doomed]
  by_cases h : rt.state.Saved uri
  · rw [if_pos h, if_pos h]
    rfl
  · rw [if_neg h, if_neg h]
    rfl

/-! ## What `disconnect` is for -/

/-- The peer saved as `uri` is gone from `state.json`, and its session was told to stop. -/
structure Undone (uri : String) (before after : Runtime) : Prop where
  saved : ∀ p ∈ after.state.disk.peers, p.uri ≠ uri
  gone : after.peers.lookup (stopKey uri) = none
  stopped : ∀ g, before.peers.lookup (stopKey uri) = some g → (stopKey uri, g) ∈ after.stopped

/-- Connecting to `uri` and disconnecting `uri` again leaves no trace of the peer. -/
def UndoesConnect (uri : String) (rt : Runtime) : Prop :=
  ∀ io io' target, parsePeer uri = .ok target → (rt.connect io uri).res = .ok () →
    ((rt.connect io uri).rt.disconnect io' (some uri)).res = .ok () →
    Undone target.uri (rt.connect io uri).rt ((rt.connect io uri).rt.disconnect io' (some uri)).rt

/-- The saved peers that `uri` does not name. -/
def others (uri : String) (state : State) : List PeerState :=
  state.peers.filter fun p => stopKey p.uri ≠ stopKey uri

/-- The peers that `uri` does not name stay saved, in memory and in a `state.json` that was up to
date, and their entries and stop channels stay as they were. -/
structure OthersKept (uri : String) (before after : Runtime) : Prop where
  saved : others uri after.state.inner = others uri before.state.inner
  disk : before.state.disk = before.state.inner →
    others uri after.state.disk = others uri before.state.disk
  peers : ∀ w, w ≠ stopKey uri → after.peers.lookup w = before.peers.lookup w
  stopped : ∀ w g, w ≠ stopKey uri → ((w, g) ∈ after.stopped ↔ (w, g) ∈ before.stopped)

def LeavesOthers (uri : String) (rt : Runtime) : Prop :=
  ∀ io, OthersKept uri rt (rt.disconnect io (some uri)).rt

theorem others_forget (uri : String) (peers : List PeerState) (seq seq' : ℕ) :
    others uri ⟨seq, peers.filter fun p => p.uri ≠ uri⟩ = others uri ⟨seq', peers⟩ := by
  unfold others
  rw [List.filter_filter]
  apply List.filter_congr
  intro p _
  by_cases h : p.uri = uri
  · simp [h]
  · simp [h]

/-! ## Exactly when it does its task -/

/-- The address is its own canonical form, unless connecting to it fails. -/
def Canonical (uri : String) (rt : Runtime) : Prop :=
  ∀ target, parsePeer uri = .ok target → Resolves target rt.keys → uri = target.uri

/-- The address is saved as it is written, or no other running peer can be stopped by name. -/
def Shielded (uri : String) (rt : Runtime) : Prop :=
  rt.state.Saved uri ∨ ∀ w ∈ rt.peers.keys, stopKey w ∈ rt.peers.keys → stopKey w = stopKey uri

theorem undoesConnect_iff (uri : String) (rt : Runtime) :
    UndoesConnect uri rt ↔ Canonical uri rt := by
  constructor
  · intro h target ht hr
    have hok := connect_of_resolves ht hr
    obtain ⟨target', ht', _, hstate⟩ := connect_ok hok
    obtain rfl : target' = target := Except.ok.inj (ht'.symm.trans ht)
    have hsaved : (rt.connect ⟨.ok (), .ok ()⟩ uri).rt.state.Saved target'.uri := by
      rw [hstate]
      exact StateFile.upsertPeer_saved true _ _ _
    generalize hrt : (rt.connect ⟨.ok (), .ok ()⟩ uri).rt = rt₁ at hsaved
    have hundone := h ⟨.ok (), .ok ()⟩ ⟨.ok (), .ok ()⟩ target' ht hok
    rw [hrt, disconnect_done rfl] at hundone
    by_contra hne
    obtain ⟨p, hp, huri⟩ := List.mem_map.mp hsaved
    refine (hundone rfl).saved p ?_ huri
    rw [stopPeers_state]
    exact List.mem_filter.mpr ⟨hp, decide_eq_true (huri ▸ Ne.symm hne)⟩
  · intro h io io' target ht hok hok'
    obtain ⟨target', ht', hr, hstate⟩ := connect_ok hok
    obtain rfl : target' = target := Except.ok.inj (ht'.symm.trans ht)
    have huri : uri = target'.uri := h target' ht hr
    have hsaved : (rt.connect io uri).rt.state.Saved uri := by
      rw [hstate, huri]
      exact StateFile.upsertPeer_saved true _ _ _
    generalize (rt.connect io uri).rt = rt₁ at hsaved hok'
    cases hio : io'.state with
    | error e =>
      rw [disconnect_failed hio] at hok'
      cases hok'
    | ok u =>
      have hnamed : stopKey uri ∈ [uri].map stopKey := List.mem_singleton_self _
      rw [disconnect_done hio, doomed, if_pos hsaved, ← huri]
      refine ⟨fun p hp => ?_, ?_, fun g hg => ?_⟩
      · rw [stopPeers_state] at hp
        exact of_decide_eq_true (List.mem_filter.mp hp).2
      · rw [stopPeers_lookup, if_pos hnamed]
      · rw [stopPeers_stopped]
        exact .inr ⟨hnamed, hg⟩

theorem leavesOthers_iff (uri : String) (rt : Runtime) :
    LeavesOthers uri rt ↔ Shielded uri rt := by
  constructor
  · intro h
    have hkept := (h ⟨.ok (), .ok ()⟩).peers
    rw [disconnect_done rfl, doomed] at hkept
    by_cases hsaved : rt.state.Saved uri
    · exact .inl hsaved
    · refine .inr fun w hw hmem => ?_
      by_contra hne
      have hlookup := hkept (stopKey w) hne
      rw [if_neg hsaved, stopPeers_lookup, if_pos (List.mem_map_of_mem hw)] at hlookup
      exact AList.lookup_eq_none.mp hlookup.symm (AList.mem_keys.mpr hmem)
  · intro h io
    cases hio : io.state with
    | error e =>
      rw [disconnect_failed hio]
      exact ⟨others_forget _ _ _ _, fun _ => rfl, fun _ _ => rfl, fun _ _ _ => Iff.rfl⟩
    | ok u =>
      rw [disconnect_done hio]
      have hspared : ∀ w, w ≠ stopKey uri → w ∈ (rt.doomed uri).map stopKey →
          rt.peers.lookup w = none := by
        intro w hne hw
        obtain ⟨v, hv, rfl⟩ := List.mem_map.mp hw
        unfold doomed at hv
        split_ifs at hv with hsaved
        · rw [List.mem_singleton.mp hv] at hne
          exact absurd rfl hne
        · refine AList.lookup_eq_none.mpr fun hmem => hne ?_
          exact h.resolve_left hsaved v hv (AList.mem_keys.mp hmem)
      refine ⟨?_, fun hdisk => ?_, fun w hne => ?_, fun w g hne => ?_⟩
      · rw [stopPeers_state]
        exact others_forget _ _ _ _
      · rw [stopPeers_state, hdisk]
        exact others_forget _ _ _ _
      · rw [stopPeers_lookup]
        split_ifs with hw
        · exact (hspared w hne hw).symm
        · rfl
      · rw [stopPeers_stopped]
        apply or_iff_left
        rintro ⟨hw, hg⟩
        rw [show (rt.forget true uri).peers = rt.peers from rfl, hspared w hne hw] at hg
        cases hg

end Peers

/-- `disconnect` undoes the matching `connect` and leaves the other peers alone exactly when the
address is canonical and either saved or alone. -/
theorem disconnect_exact_iff [Base64] (uri : String) (rt : Runtime) :
    UndoesConnect uri rt ∧ LeavesOthers uri rt ↔ Canonical uri rt ∧ Shielded uri rt :=
  and_congr (undoesConnect_iff uri rt) (leavesOthers_iff uri rt)

end Runtime

/-! ### An address without its port -/

abbrev noBase64 : Base64 where
  encode := fun _ => ""
  decode := fun _ => none

/-- One peer, saved and running. -/
def onePeer : Runtime where
  state := ⟨⟨0, [⟨"10.0.0.9:43721", true⟩]⟩, ⟨0, [⟨"10.0.0.9:43721", true⟩]⟩⟩
  peers := (∅ : AList fun _ : String => ℕ).insert "10.0.0.9:43721" 0
  stopped := []
  channels := 1
  live := ∅
  keys := fun _ => .missing

/-- Disconnecting `10.0.0.2` keeps `10.0.0.2:43721` saved and stops the other peer. -/
theorem shortAddress_stops_other :
    letI := noBase64
    ¬ Runtime.UndoesConnect "10.0.0.2" onePeer ∧ ¬ Runtime.LeavesOthers "10.0.0.2" onePeer := by
  let _ := noBase64
  refine ⟨fun h => ?_, fun h => ?_⟩
  · exact (h ⟨.ok (), .ok ()⟩ ⟨.ok (), .ok ()⟩ ⟨"10.0.0.2:43721", "10.0.0.2", 43721, none⟩ rfl rfl
      rfl).saved ⟨"10.0.0.2:43721", true⟩ (by decide) rfl
  · have hkept := (h ⟨.ok (), .ok ()⟩).peers "10.0.0.9:43721" (by decide)
    revert hkept
    decide

end Zsync
