import Mathlib.Tactic.Common
import Mathlib.Algebra.Group.Nat.Defs
import Mathlib.Data.List.Basic

/-! # `config.rs`: the state file

`StateFile` is the state held in memory together with what `state.json` holds. Saving writes a
temporary file and renames it; the caller passes whether both succeeded. The operations change the
memory first and save afterwards, as the source does.
-/

namespace Zsync
set_option autoImplicit false
set_option maxHeartbeats 250000

structure PeerState where
  uri : String
  enabled : Bool
  deriving DecidableEq, Repr

structure State where
  seq : ℕ
  peers : List PeerState
  deriving DecidableEq, Repr

structure StateFile where
  inner : State
  disk : State
  deriving DecidableEq, Repr

namespace StateFile

/-- `StateFile::save`; `saves` says whether the file operations succeed. -/
def save (saves : Bool) (f : StateFile) : StateFile :=
  if saves then { f with disk := f.inner } else f

/-- `g.seq += 1` on a `u64`, then save. -/
def nextSeq (saves : Bool) (f : StateFile) : Option ℕ × StateFile :=
  let seq := (f.inner.seq + 1) % 2 ^ 64
  let f := save saves { f with inner := { f.inner with seq := seq } }
  (if saves then some seq else none, f)

def upsert (uri : String) (enabled : Bool) (peers : List PeerState) : List PeerState :=
  if (peers.find? fun p => p.uri = uri).isSome then
    peers.modify (peers.findIdx fun p => p.uri = uri) fun p => { p with enabled := enabled }
  else peers ++ [⟨uri, enabled⟩]

def upsertPeer (saves : Bool) (uri : String) (enabled : Bool) (f : StateFile) : Bool × StateFile :=
  (saves, save saves { f with inner := { f.inner with peers := upsert uri enabled f.inner.peers } })

def removePeer (saves : Bool) (uri : Option String) (f : StateFile) :
    Option (List String) × StateFile :=
  let (removed, peers) := match uri with
    | some uri =>
      let kept := f.inner.peers.filter fun p => p.uri ≠ uri
      (if kept.length = f.inner.peers.length then [] else [uri], kept)
    | none => (f.inner.peers.map PeerState.uri, [])
  (if saves then some removed else none,
    save saves { f with inner := { f.inner with peers := peers } })

@[simp] theorem save_inner (saves : Bool) (f : StateFile) : (save saves f).inner = f.inner := by
  unfold save
  split_ifs <;> rfl

/-- `uri` is the address of a saved peer. -/
def Saved (uri : String) (f : StateFile) : Prop := uri ∈ f.inner.peers.map PeerState.uri

instance (uri : String) (f : StateFile) : Decidable (Saved uri f) :=
  inferInstanceAs (Decidable (_ ∈ _))

theorem modify_uris (enabled : Bool) (i : ℕ) (peers : List PeerState) :
    (peers.modify i fun p => { p with enabled := enabled }).map PeerState.uri =
      peers.map PeerState.uri := by
  induction peers generalizing i with
  | nil => simp
  | cons p peers ih =>
    cases i with
    | zero => simp
    | succ i => simp [ih i]

theorem upsert_uris (uri : String) (enabled : Bool) (peers : List PeerState) :
    (upsert uri enabled peers).map PeerState.uri =
      if uri ∈ peers.map PeerState.uri then peers.map PeerState.uri
      else peers.map PeerState.uri ++ [uri] := by
  have hfind : (peers.find? fun p => p.uri = uri).isSome ↔ uri ∈ peers.map PeerState.uri := by
    rw [List.find?_isSome, List.mem_map]
    simp only [decide_eq_true_eq]
  unfold upsert
  by_cases h : uri ∈ peers.map PeerState.uri
  · rw [if_pos (hfind.mpr h), if_pos h, modify_uris]
  · rw [if_neg (fun hs => h (hfind.mp hs)), if_neg h, List.map_append]
    rfl

theorem upsertPeer_saved (saves : Bool) (uri : String) (enabled : Bool) (f : StateFile) :
    Saved uri (upsertPeer saves uri enabled f).2 := by
  unfold Saved upsertPeer
  rw [save_inner, upsert_uris]
  split_ifs with h
  · exact h
  · exact List.mem_append_right _ (List.mem_singleton_self _)

/-- What `remove_peer` takes out, and what it keeps. -/
theorem removePeer_some (saves : Bool) (uri : String) (f : StateFile) :
    removePeer saves (some uri) f =
      (if saves then some (if Saved uri f then [uri] else []) else none,
        save saves { f with inner :=
          { f.inner with peers := f.inner.peers.filter fun p => p.uri ≠ uri } }) := by
  have hlen : (f.inner.peers.filter fun p => p.uri ≠ uri).length = f.inner.peers.length ↔
      ¬ Saved uri f := by
    rw [List.length_filter_eq_length_iff, Saved, List.mem_map]
    simp
  unfold removePeer
  simp only [hlen, ite_not]

end StateFile
end Zsync
