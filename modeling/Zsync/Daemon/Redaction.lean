import Mathlib.Data.List.Basic
import Mathlib.Data.List.TakeWhile
import Zsync.Model.Net

/-! # What is shown of a relay's address

The text of the group key stands between `:` and `@` in a `zsync://` address. `display_uri` leaves it out
when the address parses, and shows the address as it is when it does not; the daemon calls it on the
addresses that did not parse.

* `parse_rawUri` : how `parse_group_uri` cuts an address, whatever its parts hold.
* `Valid` : all parts of the address are accepted.
* `hidden_iff_valid` : two key texts are told apart unless both addresses are valid.
-/

namespace Zsync
set_option autoImplicit false
set_option maxHeartbeats 250000

namespace Transport
open Protocol Zsync.Group

/-! ## The parts of an address -/

def rawUri (g k r : String) : String := "zsync://" ++ g ++ ":" ++ k ++ "@" ++ r

def visible (s : String) : List Char := s.toList.filter fun c => !isWhitespace c

def gidText (g : List Char) : List Char :=
  match splitOnce ':' g with
  | some (gid, _) => gid
  | none => g

def hostText (r : List Char) : List Char :=
  match rsplitOnce '@' r with
  | some (_, host) => host
  | none => r

/-- What is decoded as the key: a `:` in `g` and an `@` in `r` make it longer than `k`. -/
def keyText (g k r : List Char) : List Char :=
  let left := match splitOnce ':' g with
    | some (_, key) => key ++ [':']
    | none => []
  let right := match rsplitOnce '@' r with
    | some (key, _) => '@' :: key
    | none => []
  left ++ k ++ right

def unspecified (host : List Char) : Prop :=
  String.ofList host = "" ∨ String.ofList host = "0.0.0.0" ∨ String.ofList host = "::"

instance (host : List Char) : Decidable (unspecified host) := inferInstanceAs (Decidable (_ ∨ _ ∨ _))

theorem visible_rawUri (g k r : String) :
    (rawUri g k r).toList.filter (fun c => !isWhitespace c) =
      "zsync://".toList ++ (visible g ++ ':' :: visible k ++ '@' :: visible r) := by
  have hz : "zsync://".toList.filter (fun c => !isWhitespace c) = "zsync://".toList := by decide
  have hc : ":".toList.filter (fun c => !isWhitespace c) = [':'] := by decide
  have ha : "@".toList.filter (fun c => !isWhitespace c) = ['@'] := by decide
  unfold rawUri visible
  simp only [String.toList_append, List.filter_append, hz, hc, ha, List.append_assoc,
    List.cons_append, List.nil_append]

theorem rsplit_rest (g k r : List Char) :
    rsplitOnce '@' (g ++ ':' :: k ++ '@' :: r) =
      some (g ++ ':' :: (k ++ match rsplitOnce '@' r with
        | some (key, _) => '@' :: key
        | none => []), hostText r) := by
  rw [rsplitOnce_append, hostText]
  cases rsplitOnce '@' r with
  | none => simp
  | some p => simp

theorem split_creds (g k right : List Char) :
    splitOnce ':' (g ++ ':' :: (k ++ right)) =
      some (gidText g, (match splitOnce ':' g with
        | some (_, key) => key ++ [':']
        | none => []) ++ k ++ right) := by
  rw [splitOnce_append, gidText]
  cases splitOnce ':' g with
  | none => simp
  | some p => simp

section
variable [Base64]

/-- What `parse_group_uri` does with the parts. -/
def parseParts (gid key host : List Char) : Except String GroupUri := do
  let key ← parseKey key
  let groupId ← parseGroupId gid
  let (host, port) ← Group.splitHostPort host
  if unspecified host then
    .error ("zsync:// host cannot be unspecified (" ++ String.ofList host ++ ")")
  else .ok ⟨groupId, some key, String.ofList host, port⟩

theorem parse_rawUri (g k r : String) :
    parseGroupUri (rawUri g k r).toList =
      parseParts (gidText (visible g)) (keyText (visible g) (visible k) (visible r))
        (hostText (visible r)) := by
  have hdrop := List.dropPrefix?_append_of_beq
    (visible g ++ ':' :: visible k ++ '@' :: visible r) (beq_self_eq_true "zsync://".toList)
  unfold parseGroupUri
  dsimp only
  rw [visible_rawUri, hdrop]
  dsimp only
  rw [rsplit_rest]
  dsimp only
  rw [split_creds]
  rfl

/-- All parts of the address are accepted. -/
structure Valid (g k r : String) : Prop where
  group : ∃ id, parseGroupId (gidText (visible g)) = .ok id
  key : ∃ key, parseKey (keyText (visible g) (visible k) (visible r)) = .ok key
  host : ∃ host port, Group.splitHostPort (hostText (visible r)) = .ok (host, port) ∧ ¬ unspecified host

theorem parseParts_ok_iff {gid key host : List Char} {u : GroupUri} :
    parseParts gid key host = .ok u ↔
      ∃ key' id host' port, parseKey key = .ok key' ∧ parseGroupId gid = .ok id ∧
        Group.splitHostPort host = .ok (host', port) ∧ ¬ unspecified host' ∧
        u = ⟨id, some key', String.ofList host', port⟩ := by
  unfold parseParts
  cases parseKey key with
  | error e => simp [bind, Except.bind]
  | ok key' =>
    cases parseGroupId gid with
    | error e => simp [bind, Except.bind]
    | ok id =>
      cases Group.splitHostPort host with
      | error e => simp [bind, Except.bind]
      | ok p =>
        obtain ⟨host', port⟩ := p
        by_cases hu : unspecified host'
        · simp [bind, Except.bind, hu]
        · simp [bind, Except.bind, hu, eq_comm]

theorem parse_ok_iff {g k r : String} :
    (∃ u, parseGroupUri (rawUri g k r).toList = .ok u) ↔ Valid g k r := by
  simp only [parse_rawUri, parseParts_ok_iff]
  constructor
  · rintro ⟨_, key, id, host, port, hkey, hid, hhost, hu, -⟩
    exact ⟨⟨id, hid⟩, ⟨key, hkey⟩, ⟨host, port, hhost, hu⟩⟩
  · rintro ⟨⟨id, hid⟩, ⟨key, hkey⟩, ⟨host, port, hhost, hu⟩⟩
    exact ⟨_, key, id, host, port, hkey, hid, hhost, hu, rfl⟩

/-- The redacted form does not depend on the key text. -/
theorem redacted_same {g k k' r : String} {u u' : GroupUri}
    (h : parseGroupUri (rawUri g k r).toList = .ok u)
    (h' : parseGroupUri (rawUri g k' r).toList = .ok u') : u.redacted = u'.redacted := by
  rw [parse_rawUri, parseParts_ok_iff] at h h'
  obtain ⟨key, id, host, port, -, hid, hhost, -, rfl⟩ := h
  obtain ⟨key', id', host', port', -, hid', hhost', -, rfl⟩ := h'
  rw [hid] at hid'
  rw [hhost] at hhost'
  cases hid'
  cases hhost'
  rfl

end

/-! ## A redacted address holds no key -/

theorem splitOnce_skip {c : Char} {a : List Char} (h : c ∉ a) (s : List Char) :
    splitOnce c (a ++ s) = (splitOnce c s).map fun (left, right) => (a ++ left, right) := by
  induction a with
  | nil =>
    rw [List.nil_append]
    cases splitOnce c s <;> rfl
  | cons d a ih =>
    obtain ⟨hd, ha⟩ := not_or.mp (mt List.mem_cons.mpr h)
    rw [List.cons_append, splitOnce_cons, if_neg (Ne.symm hd), ih ha]
    cases splitOnce c s <;> rfl

theorem mem_trim {c : Char} {s : List Char} (hc : isWhitespace c = false) (h : c ∈ s) :
    c ∈ trim s := by
  have hdrop : ∀ t : List Char, c ∈ t → c ∈ t.dropWhile isWhitespace := by
    intro t ht
    rw [← List.takeWhile_append_dropWhile (p := isWhitespace) (l := t)] at ht
    obtain ht | ht := List.mem_append.mp ht
    · have := List.mem_takeWhile_imp ht
      rw [hc] at this
      cases this
    · exact ht
  unfold trim
  simpa using hdrop _ (List.mem_reverse.mpr (hdrop s h))

theorem not_groupId {s : List Char} {id : Bytes} (h : '@' ∈ s) : parseGroupId s ≠ .ok id := by
  intro hid
  unfold parseGroupId at hid
  dsimp only at hid
  split at hid
  · next digits hm =>
    have := mapM_hexValue hm (mem_trim (by decide) h)
    exact absurd this (by decide)
  · cases hid

/-- An address with a `:` after its group id is not the redacted form of an address. -/
theorem redacted_ne [Base64] {g k k' r : String} {u : GroupUri}
    (h : parseGroupUri (rawUri g k r).toList = .ok u) : u.redacted ≠ rawUri g k' r := by
  intro he
  rw [parse_rawUri, parseParts_ok_iff] at h
  obtain ⟨key, id, host, port, -, hid, -, -, rfl⟩ := h
  refine not_groupId ?_ hid
  -- What precedes the first `:` is the group id on one side, and goes on to the `@` on the other.
  have hhex : (hexEncode id).toList.filter (fun c => !isWhitespace c) = (hexEncode id).toList := by
    apply List.filter_eq_self.mpr
    intro c hc
    rw [hexEncode, String.toList_ofList] at hc
    have hall : (hexDigits.all fun c => !isWhitespace c) = true := by decide
    exact List.all_eq_true.mp hall c (mem_hexChars hc)
  have hcolon : ':' ∉ (hexEncode id).toList ++ ['@'] := by
    intro hm
    rw [hexEncode, String.toList_ofList] at hm
    obtain hm | hm := List.mem_append.mp hm
    · exact absurd (mem_hexChars hm) (by decide)
    · exact absurd hm (by decide)
  have hchars : visible (GroupUri.redacted ⟨id, some key, String.ofList host, port⟩) =
      visible (rawUri g k' r) := congrArg visible he
  have hz : "zsync://".toList.filter (fun c => !isWhitespace c) = "zsync://".toList := by decide
  have ha : "@".toList.filter (fun c => !isWhitespace c) = ['@'] := by decide
  rw [visible, visible, visible_rawUri, GroupUri.redacted] at hchars
  simp only [String.toList_append, List.filter_append, hz, ha, hhex] at hchars
  rw [List.append_assoc, List.append_assoc, ← List.append_assoc (hexEncode id).toList] at hchars
  have hrest := congrArg (splitOnce ':') (List.append_cancel_left hchars)
  rw [splitOnce_skip hcolon, List.append_assoc, List.cons_append, split_creds] at hrest
  obtain ⟨p, -, hp⟩ := Option.map_eq_some_iff.mp hrest
  rw [← (Prod.mk.inj hp).1]
  simp

/-! ## The result -/

theorem rawUri_injective {g k k' r : String} (h : rawUri g k r = rawUri g k' r) : k = k' := by
  have hchars := congrArg String.toList h
  unfold rawUri at hchars
  simp only [String.toList_append, List.append_assoc, List.append_cancel_left_eq] at hchars
  exact String.toList_inj.mp (List.append_cancel_right hchars)

section
variable [Base64] {g k k' r : String}

theorem displayUri_valid {u : GroupUri} (h : parseGroupUri (rawUri g k r).toList = .ok u) :
    displayUri (rawUri g k r) = u.redacted := by
  rw [displayUri, h]

theorem displayUri_invalid (h : ¬ Valid g k r) : displayUri (rawUri g k r) = rawUri g k r := by
  unfold displayUri
  split
  · next u hu => exact absurd (parse_ok_iff.mp ⟨u, hu⟩) h
  · rfl

theorem parsePeer_uri {t : PeerTarget} (h : parsePeer (rawUri g k r) = .ok t) :
    ∃ u, parseGroupUri (rawUri g k r).toList = .ok u ∧ t.uri = u.redacted := by
  have hparse : parseGroupUri ((rawUri g k r).toList.filter fun c => !isWhitespace c) =
      parseGroupUri (rawUri g k r).toList := by
    unfold parseGroupUri
    simp only [List.filter_filter, Bool.and_self]
  unfold parsePeer at h
  dsimp only at h
  rw [hparse, visible_rawUri] at h
  rw [if_neg (by simp), if_neg (by simp [List.isPrefixOf]), if_neg (by simp [List.isPrefixOf]),
    if_pos (by simp [List.isPrefixOf])] at h
  cases hu : parseGroupUri (rawUri g k r).toList with
  | error e =>
    rw [hu] at h
    cases h
  | ok u =>
    rw [hu] at h
    cases h
    exact ⟨u, rfl, rfl⟩

theorem display_same_iff :
    displayUri (rawUri g k r) = displayUri (rawUri g k' r) ↔
      k = k' ∨ Valid g k r ∧ Valid g k' r := by
  by_cases h : Valid g k r
  · obtain ⟨u, hu⟩ := parse_ok_iff.mpr h
    by_cases h' : Valid g k' r
    · obtain ⟨u', hu'⟩ := parse_ok_iff.mpr h'
      rw [displayUri_valid hu, displayUri_valid hu']
      exact iff_of_true (redacted_same hu hu') (.inr ⟨h, h'⟩)
    · rw [displayUri_valid hu, displayUri_invalid h']
      refine iff_of_false (redacted_ne hu) ?_
      rintro (rfl | ⟨-, hv⟩)
      · exact h' h
      · exact h' hv
  · rw [displayUri_invalid h]
    constructor
    · intro he
      by_cases h' : Valid g k' r
      · obtain ⟨u', hu'⟩ := parse_ok_iff.mpr h'
        rw [displayUri_valid hu'] at he
        exact absurd he.symm (redacted_ne hu')
      · rw [displayUri_invalid h'] at he
        exact .inl (rawUri_injective he)
    · rintro (rfl | ⟨hv, -⟩)
      · exact (displayUri_invalid h).symm
      · exact absurd hv h

end

/-- Two addresses that differ in the key text are shown alike, and saved alike, exactly when both are
valid. -/
theorem hidden_iff_valid [Base64] (g k k' r : String) :
    (displayUri (rawUri g k r) = displayUri (rawUri g k' r) ∧
        ∀ t t', parsePeer (rawUri g k r) = .ok t → parsePeer (rawUri g k' r) = .ok t' →
          t.uri = t'.uri) ↔
      k = k' ∨ Valid g k r ∧ Valid g k' r := by
  rw [← display_same_iff]
  refine ⟨fun h => h.1, fun h => ⟨h, fun t t' ht ht' => ?_⟩⟩
  obtain ⟨u, hu, huri⟩ := parsePeer_uri ht
  obtain ⟨u', hu', huri'⟩ := parsePeer_uri ht'
  rw [huri, huri', redacted_same hu hu']

/-- A key is good, and the host that follows it is not: the whole key is shown. -/
theorem unspecified_shown :
    letI := sampleBase64
    displayUri (rawUri "02020202020202020202020202020202"
        "AQEBAQEBAQEBAQEBAQEBAQEBAQEBAQEBAQEBAQEBAQE" "0.0.0.0") ≠
      displayUri (rawUri "02020202020202020202020202020202"
        "AgICAgICAgICAgICAgICAgICAgICAgICAgICAgICAgI" "0.0.0.0") := by
  let _ := sampleBase64
  have hinvalid : ∀ k, ¬ Valid "02020202020202020202020202020202" k "0.0.0.0" := by
    rintro k ⟨-, -, host, port, hhost, hu⟩
    have hsplit : Group.splitHostPort (hostText (visible "0.0.0.0")) = .ok ("0.0.0.0".toList, 43721) := by
      decide +kernel
    rw [hsplit] at hhost
    cases hhost
    exact hu (by decide)
  rw [displayUri_invalid (hinvalid _), displayUri_invalid (hinvalid _)]
  exact fun h => absurd (rawUri_injective h) (by decide)

end Transport
end Zsync
