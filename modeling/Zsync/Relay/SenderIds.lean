import Zsync.Model.SessionLoops

/-! # The sender bytes of a node id

`sender_from_node_id` reads the first 32 digits of an id as 16 bytes. The ids that `new_node_id` makes are
written from 16 bytes, so they are read back.

* `senderFromNodeId_hexEncode` : the sender bytes of a fresh id are the bytes it was made of.
* `Canonical` : the sender bytes of an id spell it.
-/

namespace Zsync
set_option autoImplicit false
set_option maxHeartbeats 250000
open Protocol

namespace Group

/-- The byte that stands for a digit. -/
def digitByte (n : UInt8) : UInt8 := UInt8.ofNat (hexDigit n).toNat

def hexPair (b : UInt8) : Bytes := [digitByte (b >>> 4), digitByte (b &&& 0xf)]

theorem digitByte_spec {n : UInt8} (h : n.toNat < 16) : String.utf8EncodeChar (hexDigit n) = [digitByte n] ∧
    digitByte n < 0x80 ∧ hexValue (Char.ofNat (digitByte n).toNat) = some n.toNat := by
  have hall : ∀ k < 16, String.utf8EncodeChar (hexDigit (UInt8.ofNat k)) = [digitByte (UInt8.ofNat k)] ∧
      digitByte (UInt8.ofNat k) < 0x80 ∧
      hexValue (Char.ofNat (digitByte (UInt8.ofNat k)).toNat) = some k := by decide
  have hn := hall n.toNat h
  rwa [UInt8.ofNat_toNat] at hn

theorem hexPair_ascii {b x : UInt8} (h : x ∈ hexPair b) : x < 0x80 := by
  obtain ⟨hhigh, hlow⟩ := halves b
  have hb := b.toNat_lt
  simp only [hexPair, List.mem_cons, List.not_mem_nil, or_false] at h
  obtain rfl | rfl := h
  · exact (digitByte_spec (by omega)).2.1
  · exact (digitByte_spec (by omega)).2.1

theorem hexByte_hexPair (b : UInt8) : hexByte (hexPair b) = some b := by
  obtain ⟨hhigh, hlow⟩ := halves b
  have hb := b.toNat_lt
  obtain ⟨-, -, hh⟩ := digitByte_spec (n := b >>> 4) (by omega)
  obtain ⟨-, -, hl⟩ := digitByte_spec (n := b &&& 0xf) (by omega)
  have hsum : b.toNat / 16 * 16 + b.toNat % 16 = b.toNat := by omega
  rw [hexPair, hexByte_digits hh hl, hhigh, hlow, hsum, UInt8.ofNat_toNat]

theorem utf8_hexChars (bytes : Bytes) : utf8 (hexChars bytes) = bytes.flatMap hexPair := by
  rw [utf8, hexChars, List.flatMap_assoc]
  congr 1
  funext b
  obtain ⟨hhigh, hlow⟩ := halves b
  have hb := b.toNat_lt
  simp only [List.flatMap_cons, List.flatMap_nil, List.append_nil, hexPair]
  rw [(digitByte_spec (n := b >>> 4) (by omega)).1, (digitByte_spec (n := b &&& 0xf) (by omega)).1]
  rfl

/-- The pairs of a row of pairs. -/
theorem flatMap_pair {bytes : Bytes} {i : ℕ} (h : i < bytes.length) :
    ((bytes.flatMap hexPair).drop (i * 2)).take 2 = hexPair bytes[i] := by
  induction bytes generalizing i with
  | nil => cases h
  | cons b bytes ih =>
    have hlen : (hexPair b).length = 2 := rfl
    rw [List.flatMap_cons]
    cases i with
    | zero => exact List.take_left' hlen
    | succ i =>
      have hi : (i + 1) * 2 = 2 + i * 2 := by omega
      rw [hi, ← List.drop_drop, List.drop_left' hlen]
      exact ih (Nat.lt_of_succ_lt_succ h)

theorem pairs_length (bytes : Bytes) : (bytes.flatMap hexPair).length = 2 * bytes.length := by
  induction bytes with
  | nil => rfl
  | cons b bytes ih =>
    rw [List.flatMap_cons, List.length_append, ih, List.length_cons]
    have hlen : (hexPair b).length = 2 := rfl
    omega

/-- Between ASCII characters any place is a boundary. -/
theorem isBoundary_ascii {bytes : Bytes} (h : ∀ b ∈ bytes, b < 0x80) {i : ℕ} (hi : i ≤ bytes.length) :
    isBoundary bytes i = true := by
  unfold isBoundary
  obtain rfl | hlt := Nat.eq_or_lt_of_le hi
  · simp
  · rw [List.getElem?_eq_getElem hlt]
    simp [h _ (List.getElem_mem hlt)]

theorem senderByte_hexPair {bytes : Bytes} {i : ℕ} (h : i < bytes.length) :
    senderByte (bytes.flatMap hexPair) i = .ok bytes[i] := by
  have hascii : ∀ b ∈ bytes.flatMap hexPair, b < 0x80 := by
    intro b hb
    obtain ⟨x, -, hx⟩ := List.mem_flatMap.mp hb
    exact hexPair_ascii hx
  have hlen := pairs_length bytes
  unfold senderByte
  rw [isBoundary_ascii hascii (by omega), isBoundary_ascii hascii (by omega), flatMap_pair h,
    hexByte_hexPair]
  rfl

theorem mapM_ok {α β ε : Type} {f : α → Except ε β} {g : α → β} {xs : List α}
    (h : ∀ x ∈ xs, f x = .ok (g x)) : xs.mapM f = .ok (xs.map g) := by
  induction xs with
  | nil => rfl
  | cons x xs ih =>
    obtain ⟨hx, hxs⟩ := List.forall_mem_cons.mp h
    rw [List.mapM_cons, hx, ih hxs]
    rfl

/-- The id is read when every pair of its bytes is. -/
theorem senderFromNodeId_of_bytes {nodeId : String} {f : ℕ → UInt8} (hlen : 32 ≤ (utf8 (trim nodeId.toList)).length)
    (h : ∀ i < 16, senderByte (utf8 (trim nodeId.toList)) i = .ok (f i)) :
    senderFromNodeId nodeId = .ok (Vector.ofFn fun k => f k) := by
  unfold senderFromNodeId
  dsimp only
  rw [if_neg (Nat.not_lt.mpr hlen), mapM_ok fun i hi => h i (List.mem_range.mp hi)]
  refine congrArg Except.ok (Vector.ext fun k hk => ?_)
  rw [Vector.getElem_ofFn, Vector.getElem_ofFn, List.getD_eq_getElem _ _ (by simpa using hk), List.getElem_map,
    List.getElem_range]

/-- The id that `new_node_id` makes of 16 bytes has them as its sender bytes. -/
theorem senderFromNodeId_hexEncode (v : Vector UInt8 16) :
    senderFromNodeId (hexEncode v.toList) = .ok v := by
  have hv : v.toList.length = 16 := Vector.length_toList
  have hbytes : utf8 (trim (hexEncode v.toList).toList) = v.toList.flatMap hexPair := by
    rw [hexEncode, String.toList_ofList, trim_hexChars, utf8_hexChars]
  have hread : ∀ i < 16, senderByte (utf8 (trim (hexEncode v.toList).toList)) i = .ok (v.toList.getD i 0) := by
    intro i hi
    have hlt : i < v.toList.length := by omega
    rw [hbytes, senderByte_hexPair hlt, List.getD_eq_getElem _ _ hlt]
  rw [senderFromNodeId_of_bytes (by rw [hbytes, pairs_length]; omega) hread]
  refine congrArg Except.ok (Vector.ext fun k hk => ?_)
  rw [Vector.getElem_ofFn, List.getD_eq_getElem _ _ (by omega), Vector.getElem_toList]

end Group

/-- The sender bytes of the id, if it has any, spell it. -/
def Canonical (nodeId : String) : Prop :=
  ∀ sender, Group.senderFromNodeId nodeId = .ok sender → hexEncode sender.toList = nodeId

theorem canonical_hexEncode (v : Vector UInt8 16) : Canonical (hexEncode v.toList) := by
  intro sender h
  rw [Group.senderFromNodeId_hexEncode] at h
  rw [Except.ok.inj h]

/-- An id without sender bytes never gets into a relay session. -/
theorem canonical_iff {nodeId : String} : Canonical nodeId ↔
    (∃ e, Group.senderFromNodeId nodeId = .error e) ∨ ∃ v : Vector UInt8 16, nodeId = hexEncode v.toList := by
  constructor
  · intro h
    cases hid : Group.senderFromNodeId nodeId with
    | error e => exact .inl ⟨e, rfl⟩
    | ok sender => exact .inr ⟨sender, (h sender hid).symm⟩
  · rintro (⟨e, he⟩ | ⟨v, rfl⟩)
    · intro sender h
      rw [he] at h
      cases h
    · exact canonical_hexEncode v

/-- A node that finds no id makes one that its sender bytes spell. -/
theorem canonical_fresh (file : Option String) (random : Vector UInt8 16)
    (h : ∀ s, file = some s → trim s.toList = []) : Canonical (loadOrCreateNodeId file random) := by
  cases file with
  | none => exact canonical_hexEncode random
  | some s =>
    have hempty : String.ofList (trim s.toList) = "" := by rw [h s rfl]
    rw [loadOrCreateNodeId]
    rw [if_neg (not_not.mpr hempty)]
    exact canonical_hexEncode random

end Zsync
