import Mathlib.Algebra.Order.BigOperators.Group.List
import Mathlib.Data.List.Perm.Basic
import Zsync.Foundations.Runs
import Zsync.Model.Admin
import Zsync.Relay.Registration

/-! # Reading the status of a relay

The daemon prints all rooms on one line, with the texts that devices have sent about themselves. The command
reads the line with a limit.

* `status_size` : how long the line is, by the texts that are listed. The order of the groups does not matter.
* `status_read_iff` : the line is read back, with all counts and devices, exactly when it is short enough.
-/

namespace Zsync
set_option autoImplicit false
set_option maxHeartbeats 250000
open Foundations Foundations.Json

namespace Ipc
open Serial

/-! ## Iterating the rooms -/

/-- An order in which the rooms can be iterated. -/
structure Iterates (order : List String) (rooms : Rooms) : Prop where
  nodup : order.Nodup
  mem : ∀ g, g ∈ order ↔ (rooms.inner g).isSome

namespace Iterates
variable {order order' : List String} {rooms : Rooms}

theorem perm (h : Iterates order rooms) (h' : Iterates order' rooms) : order'.Perm order :=
  (List.perm_ext_iff_of_nodup h'.nodup h.nodup).mpr fun g => (h'.mem g).trans (h.mem g).symm

theorem setGroup (h : Iterates order rooms) (group : String) (members : Option (List Member)) :
    ∃ order', Iterates order' (rooms.setGroup group members) := by
  have hothers : ∀ g, g ∈ order.filter (fun g => g ≠ group) ↔ (rooms.inner g).isSome ∧ g ≠ group := by
    intro g
    rw [List.mem_filter, decide_eq_true_iff, h.mem]
  have hinner : ∀ g, (rooms.setGroup group members).inner g = if g = group then members else rooms.inner g :=
    fun g => Function.update_apply _ _ _ _
  have hnodup := h.nodup.filter fun g => decide (g ≠ group)
  cases members with
  | none =>
    refine ⟨_, hnodup, fun g => ?_⟩
    rw [hothers, hinner]
    split_ifs with hg <;> simp [hg]
  | some members =>
    refine ⟨group :: order.filter (fun g => g ≠ group), ?_, fun g => ?_⟩
    · refine List.nodup_cons.mpr ⟨fun hmem => ?_, hnodup⟩
      exact ((hothers group).mp hmem).2 rfl
    · rw [List.mem_cons, hothers, hinner]
      split_ifs with hg <;> simp [hg]

/-- What a hash map over the same groups lists. -/
theorem listed {α : Type} (h : Iterates order rooms) (f : List Member → α) :
    (Dict.listed order fun g => (rooms.inner g).map f) = ⟨order.map fun g => (g, f (rooms.members g))⟩ := by
  have hall : ∀ g ∈ order, (((rooms.inner g).map f).map fun x => (g, x)) = some (g, f (rooms.members g)) := by
    intro g hg
    obtain ⟨members, hmembers⟩ := Option.isSome_iff_exists.mp ((h.mem g).mp hg)
    rw [Rooms.members, hmembers]
    rfl
  rw [Dict.listed, List.filterMap_congr hall, List.filterMap_eq_map']

theorem get_listed {α : Type} (h : Iterates order rooms) (f : List Member → α) (g : String) :
    (Dict.listed order fun g => (rooms.inner g).map f).get g = (rooms.inner g).map f := by
  refine Dict.get_listed g fun hne => (h.mem g).mpr ?_
  cases hg : rooms.inner g with
  | none => exact absurd (by rw [hg]; rfl) hne
  | some members => rfl

end Iterates

/-- The rooms are as they were, or one group was set. -/
def SetsOne (rooms rooms' : Rooms) : Prop :=
  rooms' = rooms ∨ ∃ group members, rooms' = rooms.setGroup group members

theorem apply_setsOne (rooms : Rooms) (op : RoomsOp) : SetsOne rooms (rooms.apply op) := by
  cases op with
  | join group device hostname peer tx stop => exact .inr ⟨_, _, rfl⟩
  | leave group device =>
    show SetsOne rooms (rooms.leave group device)
    unfold Rooms.leave
    cases rooms.inner group with
    | none => exact .inl rfl
    | some members => exact .inr ⟨_, _, rfl⟩
  | kick group device =>
    show SetsOne rooms (rooms.kick group device).2.1
    unfold Rooms.kick
    cases rooms.inner group with
    | none => exact .inl rfl
    | some members =>
      dsimp only
      cases members.find? (Rooms.isDevice device) with
      | none => exact .inl rfl
      | some m => exact .inr ⟨_, _, rfl⟩
  | kickGroup group =>
    show SetsOne rooms (rooms.kickGroup group).1
    unfold Rooms.kickGroup
    cases rooms.inner group with
    | none => exact .inl rfl
    | some members => exact .inr ⟨_, _, rfl⟩

theorem rooms_step {r t : RelayServer} {e : RelayEvent} (h : RelayServer.step r e = some t) :
    SetsOne r.rooms t.rooms := by
  rw [RelayServer.rooms_of_step h]
  cases r.roomsOp e with
  | none => exact .inl rfl
  | some op => exact apply_setsOne r.rooms op

theorem iterates_step {r t : RelayServer} {e : RelayEvent} (h : ∃ order, Iterates order r.rooms)
    (hs : RelayServer.step r e = some t) : ∃ order, Iterates order t.rooms := by
  obtain ⟨order, h⟩ := h
  obtain hsame | ⟨group, members, hset⟩ := rooms_step hs
  · rw [hsame]
    exact ⟨order, h⟩
  · rw [hset]
    exact h.setGroup group members

/-- The rooms of a relay can always be iterated. -/
theorem iterates_run {r t : RelayServer} {es : List RelayEvent} (hr : r.Boots)
    (hrun : exec RelayServer.step r es = some t) : ∃ order, Iterates order t.rooms := by
  refine exec_invariant (fun _ _ _ => iterates_step) ⟨[], List.nodup_nil, fun g => ?_⟩ hrun
  rw [hr.rooms g]
  simp

/-! ## How long the line is -/

def decimals (n : ℕ) : ℕ := (Nat.toDigits 10 n).length

/-- The three texts of a device in quotes, and what stands around them. -/
def deviceSize (m : Member) : ℕ := 34 + quoteSize m.deviceId + quoteSize m.hostname + quoteSize m.peer

/-- A group is listed twice: with its count, and with its devices. -/
def groupSize (group : String) (members : List Member) : ℕ :=
  2 * quoteSize group + 4 + decimals (UInt64.ofNat members.length).toNat + (members.map deviceSize).sum +
    (members.length - 1)

def statusSize (srv : Listener) (order : List String) (rooms : Rooms) : ℕ :=
  51 + decimals srv.pid.toNat + decimals srv.port.toNat +
    (order.map fun g => groupSize g (rooms.members g)).sum + 2 * (order.length - 1)

theorem statusSize_perm {srv : Listener} {order order' : List String} {rooms : Rooms}
    (h : Iterates order rooms) (h' : Iterates order' rooms) :
    statusSize srv order rooms = statusSize srv order' rooms := by
  have hperm := ((h.perm h').map fun g => groupSize g (rooms.members g)).sum_eq
  rw [statusSize, statusSize, hperm, (h.perm h').length_eq]

theorem size_num (n : ℕ) : (Value.num n).size = decimals n := by
  rw [Value.size, decimals]

theorem size_device (m : Member) :
    (toValue (LiveDevice.mk m.deviceId m.hostname m.peer)).size = deviceSize m := by
  have hdevice : quoteSize "device_id" = 11 := by decide
  have hhostname : quoteSize "hostname" = 10 := by decide
  have hpeer : quoteSize "peer" = 6 := by decide
  change (Value.obj [("device_id", .str m.deviceId), ("hostname", .str m.hostname), ("peer", .str m.peer)]).size = _
  rw [Value.size, membersSize, membersSize, membersSize, membersSize, memberSize, memberSize, memberSize,
    Value.size, Value.size, Value.size, hdevice, hhostname, hpeer, deviceSize]
  simp only [List.length_cons, List.length_nil]
  omega

theorem size_devices (members : List Member) :
    (toValue (members.map fun m => LiveDevice.mk m.deviceId m.hostname m.peer)).size =
      2 + (members.map deviceSize).sum + (members.length - 1) := by
  have hall : (fun d : LiveDevice => (toValue d).size) ∘
      (fun m : Member => LiveDevice.mk m.deviceId m.hostname m.peer) = deviceSize := funext size_device
  rw [size_list, List.map_map, hall, List.length_map]

theorem snapshot_map (rooms : Rooms) (g : String) :
    (rooms.snapshot g).map UInt64.ofNat = (rooms.inner g).map fun members => UInt64.ofNat members.length := by
  rw [Rooms.snapshot, Option.map_map]
  rfl

theorem size_online {order : List String} {rooms : Rooms} (h : Iterates order rooms) :
    (toValue (Dict.listed order fun g => (rooms.snapshot g).map UInt64.ofNat)).size =
      2 + (order.map fun g => quoteSize g + 1 + decimals (UInt64.ofNat (rooms.members g).length).toNat).sum +
        (order.length - 1) := by
  have hsize : ∀ n : UInt64, (toValue n).size = decimals n.toNat := fun n => size_num n.toNat
  rw [funext (snapshot_map rooms), h.listed, Dict.size_dict, List.map_map, List.length_map]
  refine congrArg (fun n => 2 + n + (order.length - 1)) (congrArg List.sum (List.map_congr_left fun g _ => ?_))
  exact congrArg (quoteSize g + 1 + ·) (hsize _)

/-- The bytes of a group in the list of devices. -/
def devicesSize (group : String) (members : List Member) : ℕ :=
  quoteSize group + 1 + (2 + (members.map deviceSize).sum + (members.length - 1))

theorem size_members {order : List String} {rooms : Rooms} (h : Iterates order rooms) :
    (toValue (Dict.listed order fun g => rooms.liveDevices g)).size =
      2 + (order.map fun g => devicesSize g (rooms.members g)).sum + (order.length - 1) := by
  have hlive := h.listed fun members => members.map fun m => LiveDevice.mk m.deviceId m.hostname m.peer
  unfold Rooms.liveDevices
  rw [hlive, Dict.size_dict, List.map_map, List.length_map]
  refine congrArg (fun n => 2 + n + (order.length - 1)) (congrArg List.sum (List.map_congr_left fun g _ => ?_))
  exact congrArg (quoteSize g + 1 + ·) (size_devices (rooms.members g))

/-- The order in which the rooms are iterated makes no difference. -/
theorem status_size {srv : Listener} {order order' : List String} {rooms : Rooms} (h : Iterates order rooms)
    (h' : Iterates order' rooms) :
    (dispatchStatus srv order order' rooms).value.size = statusSize srv order rooms := by
  have hvalue : (dispatchStatus srv order order' rooms).value = .obj [("ok", .bool true),
      ("online", toValue (Dict.listed order fun g => (rooms.snapshot g).map UInt64.ofNat)),
      ("pid", .num srv.pid.toNat), ("port", .num srv.port.toNat),
      ("members", toValue (Dict.listed order' fun g => rooms.liveDevices g))] := rfl
  have hperm := ((h.perm h').map fun g => devicesSize g (rooms.members g)).sum_eq
  have hlen := (h.perm h').length_eq
  have hsum : (order.map fun g => groupSize g (rooms.members g)).sum =
      (order.map fun g => quoteSize g + 1 + decimals (UInt64.ofNat (rooms.members g).length).toNat).sum +
        (order.map fun g => devicesSize g (rooms.members g)).sum := by
    rw [← List.sum_map_add]
    refine congrArg List.sum (List.map_congr_left fun g _ => ?_)
    rw [groupSize, devicesSize]
    omega
  have hnames : quoteSize "ok" = 4 ∧ quoteSize "online" = 8 ∧ quoteSize "pid" = 5 ∧ quoteSize "port" = 6 ∧
      quoteSize "members" = 9 := by decide
  obtain ⟨h1, h2, h3, h4, h5⟩ := hnames
  have hok : (Value.bool true).size = 4 := rfl
  rw [hvalue, Value.size, membersSize_eq]
  simp only [List.map_cons, List.map_nil, List.sum_cons, List.sum_nil, memberSize, h1, h2, h3, h4, h5, hok,
    size_num, size_online h, size_members h', List.length_cons, List.length_nil]
  rw [statusSize, hsum]
  omega

/-! ## Reading it -/

section
variable [SerdeJson]

theorem readLineJson_printed {η : Type} [FromFields η] {v : Value} {x : η} (h : SerdeJson.Compact v)
    (hx : fromValue η v = some x) (hfits : v.size ≤ maxHeader) :
    readLineJson η (printed v) = .ok ((x, lengthField v), []) := by
  have hline : (utf8 (SerdeJson.print v)).length ≤ maxHeader := by
    rw [h.print_eq, compact_size]
    exact hfits
  have hslice : fromSlice (utf8 (SerdeJson.print v)) = some v := by
    rw [fromSlice, ofUtf8_utf8, Option.bind_some, h.keeps.parse_print]
  exact readLineJson_line (newline_notMem_utf8 h.keeps.oneLine) hline hslice hx []

theorem readLineJson_long {η : Type} [FromFields η] {v : Value} (h : SerdeJson.Compact v)
    (hlong : maxHeader < v.size) : readLineJson η (printed v) = .error .headerTooLarge := by
  have hline : maxHeader < (utf8 (SerdeJson.print v)).length := by
    rw [h.print_eq, compact_size]
    exact hlong
  have hread := readLine_long newline maxHeader IpcError.closed IpcError.headerTooLarge
    (newline_notMem_utf8 h.keeps.oneLine) hline [newline]
  unfold readLineJson printed
  rw [hread]
  rfl

def statusReq (action : String) : AdminReq := ⟨action, none, none⟩

/-- The command reads an answer with the online counts and the devices of all groups. -/
def StatusRead (srv : Listener) (order order' : List String) (rooms : Rooms) (action : String) : Prop :=
  ∃ resp, adminRoundtrip (statusReq action) (handleAdmin srv order order' rooms) = .ok resp ∧
    (∀ g, (resp.online.get g).map UInt64.toNat = rooms.snapshot g) ∧
    ∀ g, resp.members.get g = rooms.liveDevices g

/-- `serde_json` keeps the request and the answer. -/
structure KeepsStatus (srv : Listener) (rooms : Rooms) (action : String) : Prop where
  request : SerdeJson.Compact (statusReq action).value
  answer : ∀ order order', Iterates order rooms → Iterates order' rooms →
    SerdeJson.Compact (dispatchStatus srv order order' rooms).value

variable {srv : Listener} {order order' : List String} {rooms : Rooms} {action : String}

theorem handleAdmin_status (hact : action = "ls" ∨ action = "status")
    (hkeeps : SerdeJson.Compact (statusReq action).value) :
    handleAdmin srv order order' rooms (printed (statusReq action).value) =
      printed (dispatchStatus srv order order' rooms).value := by
  have hsize : (statusReq action).value.size ≤ maxHeader := by
    obtain rfl | rfl := hact <;> decide
  have hvalue : fromValue AdminReq (statusReq action).value = some (statusReq action) :=
    AdminReq.read_entries (statusReq action)
  rw [handleAdmin, readLineJson_printed hkeeps hvalue hsize]
  dsimp only
  rw [dispatchAdmin, statusReq, if_pos hact]

omit [SerdeJson] in
theorem snapshot_listed (h : Iterates order rooms) (hfits : statusSize srv order rooms ≤ maxHeader) (g : String) :
    (((rooms.snapshot g).map UInt64.ofNat).map UInt64.toNat) = rooms.snapshot g := by
  cases hg : rooms.inner g with
  | none =>
    rw [Rooms.snapshot, hg]
    rfl
  | some members =>
    have hmem : g ∈ order := (h.mem g).mpr (by rw [hg]; rfl)
    have hgroup : groupSize g (rooms.members g) ≤ (order.map fun g => groupSize g (rooms.members g)).sum :=
      List.le_sum_of_mem (List.mem_map.mpr ⟨g, hmem, rfl⟩)
    have hmembers : rooms.members g = members := by
      rw [Rooms.members, hg]
      rfl
    -- Every device takes at least one byte.
    have hone : ∀ n ∈ members.map deviceSize, 1 ≤ n := by
      intro n hn
      obtain ⟨m, -, rfl⟩ := List.mem_map.mp hn
      rw [deviceSize]
      omega
    have hcount := List.length_le_sum_of_one_le (members.map deviceSize) hone
    rw [List.length_map] at hcount
    have hlt : members.length < 2 ^ 64 := by
      rw [hmembers, groupSize] at hgroup
      rw [statusSize] at hfits
      have hmax : maxHeader < 2 ^ 64 := by decide
      omega
    rw [Rooms.snapshot, hg, Option.map_some, Option.map_some, Option.map_some, UInt64.toNat_ofNat',
      Nat.mod_eq_of_lt hlt]

/-- One order for the counts, and another one for the devices. -/
theorem statusRead_iff (hact : action = "ls" ∨ action = "status") (hkeeps : KeepsStatus srv rooms action)
    (h : Iterates order rooms) (h' : Iterates order' rooms) :
    StatusRead srv order order' rooms action ↔ statusSize srv order rooms ≤ maxHeader := by
  have hanswer := hkeeps.answer order order' h h'
  have hsize := @status_size srv order order' rooms h h'
  unfold StatusRead adminRoundtrip
  rw [handleAdmin_status hact hkeeps.request]
  by_cases hfits : statusSize srv order rooms ≤ maxHeader
  · have hvalue : fromValue AdminResp (dispatchStatus srv order order' rooms).value =
        some (dispatchStatus srv order order' rooms) :=
      AdminResp.read_entries (dispatchStatus srv order order' rooms)
    rw [readLineJson_printed hanswer hvalue (hsize ▸ hfits)]
    have honline := h.get_listed (fun members => UInt64.ofNat members.length)
    have hlive := h'.get_listed fun members => members.map fun m => LiveDevice.mk m.deviceId m.hostname m.peer
    refine iff_of_true ⟨_, rfl, fun g => ?_, hlive⟩ hfits
    rw [← snapshot_listed h hfits g, snapshot_map, ← honline g]
    change ((Dict.listed order fun g => (rooms.snapshot g).map UInt64.ofNat).get g).map UInt64.toNat = _
    rw [funext (snapshot_map rooms)]
  · rw [readLineJson_long hanswer (hsize ▸ Nat.not_le.mp hfits)]
    refine iff_of_false ?_ hfits
    rintro ⟨resp, hresp, -⟩
    cases hresp

/-- In every state that a relay reaches, `ls` and `status` are answered with what is online exactly when the
listed texts, escaped and with what stands around them, are no longer than a header may be. -/
theorem status_read_iff {r t : RelayServer} {es : List RelayEvent} (hr : r.Boots)
    (hrun : exec RelayServer.step r es = some t) (hact : action = "ls" ∨ action = "status")
    (hkeeps : KeepsStatus srv t.rooms action) :
    ∃ order, Iterates order t.rooms ∧
      ((∀ order₁ order₂, Iterates order₁ t.rooms → Iterates order₂ t.rooms →
          StatusRead srv order₁ order₂ t.rooms action) ↔
        statusSize srv order t.rooms ≤ maxHeader) := by
  obtain ⟨order, h⟩ := iterates_run hr hrun
  refine ⟨order, h, fun hall => (statusRead_iff hact hkeeps h h).mp (hall order order h h), ?_⟩
  intro hfits order₁ order₂ h₁ h₂
  exact (statusRead_iff hact hkeeps h₁ h₂).mpr (statusSize_perm h h₁ ▸ hfits)

/-! ### One device that has joined -/

def zsyncd : Listener := ⟨4242, 7645⟩

def someGroup : String := "00112233445566778899aabbccddeeff"

def joinsAs (device : String) : List RelayEvent :=
  [.allow 0 someGroup device "pixel" "10.0.0.7:50114", .join 0, .joinAck 0 true]

def roomOf (device : String) : Rooms :=
  Rooms.setGroup someGroup (some [⟨device, "pixel", "10.0.0.7:50114", 0, 0⟩]) ⟨fun _ => Option.none⟩

omit [SerdeJson] in
theorem joinsAs_run (device : String) : ∃ t, exec RelayServer.step emptyRelay (joinsAs device) = some t ∧
    t.rooms = roomOf device := ⟨_, rfl, rfl⟩

omit [SerdeJson] in
theorem roomOf_inner (device g : String) : (roomOf device).inner g =
    if g = someGroup then some [⟨device, "pixel", "10.0.0.7:50114", 0, 0⟩] else Option.none :=
  Function.update_apply _ _ _ _

omit [SerdeJson] in
theorem roomOf_iterates (device : String) : Iterates [someGroup] (roomOf device) := by
  refine ⟨List.pairwise_singleton _ _, fun g => ?_⟩
  rw [roomOf_inner, List.mem_singleton]
  split_ifs with h <;> simp [h]

/-- What is answered while the device is the only one. -/
def answerTo (device : String) : Value := (dispatchStatus zsyncd [someGroup] [someGroup] (roomOf device)).value

/-- `serde_json` at the request and the answer. -/
abbrev statusSerde (device : String) : SerdeJson where
  print := Value.compact
  parse := fun text =>
    if text = (statusReq "status").value.compact then some (statusReq "status").value
    else if text = (answerTo device).compact then some (answerTo device)
    else Option.none

omit [SerdeJson] in
theorem statusSerde_keeps (device : String) :
    letI := statusSerde device
    KeepsStatus zsyncd (roomOf device) "status" := by
  let _ := statusSerde device
  have hreq : (statusReq "status").value.compact.take 3 = "\x7b\"a".toList := by decide
  have hans : (answerTo device).compact.take 3 = "\x7b\"o".toList := by
    obtain ⟨fields, hfields⟩ : ∃ fields, answerTo device = .obj (("ok", .bool true) :: fields) := ⟨_, rfl⟩
    rw [hfields]
    rfl
  have hne : (answerTo device).compact ≠ (statusReq "status").value.compact := by
    intro heq
    rw [heq, hreq] at hans
    exact absurd hans (by decide)
  refine ⟨⟨rfl, if_pos rfl⟩, fun order order' h h' => ?_⟩
  -- There is one order only.
  obtain rfl := List.perm_singleton.mp ((roomOf_iterates device).perm h)
  obtain rfl := List.perm_singleton.mp ((roomOf_iterates device).perm h')
  exact ⟨rfl, (if_neg hne).trans (if_pos rfl)⟩

omit [SerdeJson] in
theorem phone_status :
    letI := statusSerde "phone"
    StatusRead zsyncd [someGroup] [someGroup] (roomOf "phone") "status" := by
  let _ := statusSerde "phone"
  obtain ⟨t, hrun, hrooms⟩ := joinsAs_run "phone"
  have hkeeps : KeepsStatus zsyncd t.rooms "status" := hrooms ▸ statusSerde_keeps "phone"
  obtain ⟨order, h, hiff⟩ := status_read_iff ⟨fun _ => rfl, fun _ => rfl⟩ hrun (.inr rfl) hkeeps
  rw [hrooms] at h hiff
  obtain rfl := List.perm_singleton.mp ((roomOf_iterates "phone").perm h)
  have hfits : statusSize zsyncd [someGroup] (roomOf "phone") ≤ maxHeader := by decide +kernel
  exact hiff.mpr hfits _ _ h h

/-- As long as a header may be. -/
def longName : String := String.ofList (List.replicate maxHeader 'a')

omit [SerdeJson] in
theorem quoteSize_letters (n : ℕ) : quoteSize (String.ofList (List.replicate n 'a')) = 2 + n := by
  have hone : escapeSize 'a' = 1 := by decide
  rw [quoteSize, String.toList_ofList, List.map_replicate, hone, List.sum_replicate_nat, Nat.mul_one]

omit [SerdeJson] in
theorem longName_size : maxHeader < quoteSize longName := by
  have hlt : ∀ n : ℕ, n < 2 + n := fun n => Nat.lt_add_of_pos_left (Nat.zero_lt_two)
  exact Nat.lt_of_lt_of_eq (hlt maxHeader) (quoteSize_letters maxHeader).symm

omit [SerdeJson] in
theorem roomOf_size (device : String) :
    quoteSize device ≤ statusSize zsyncd [someGroup] (roomOf device) := by
  have hmembers : (roomOf device).members someGroup = [⟨device, "pixel", "10.0.0.7:50114", 0, 0⟩] := by
    rw [Rooms.members, roomOf_inner, if_pos rfl]
    rfl
  simp only [statusSize, List.map_cons, List.map_nil, List.sum_cons, List.sum_nil, hmembers, groupSize,
    deviceSize]
  omega

omit [SerdeJson] in
/-- The name fits into the frame of a `Join`, and after that nobody can ask for the status. -/
theorem longName_unreadable :
    letI := statusSerde longName
    longName.toList.length + 1024 ≤ Protocol.maxFrame ∧
      ∃ t, exec RelayServer.step emptyRelay (joinsAs longName) = some t ∧
        adminRoundtrip (statusReq "status") (handleAdmin zsyncd [someGroup] [someGroup] t.rooms) =
          .error .headerTooLarge ∧
        ¬ StatusRead zsyncd [someGroup] [someGroup] t.rooms "status" := by
  let _ := statusSerde longName
  have hframe : longName.toList.length + 1024 ≤ Protocol.maxFrame := by
    rw [longName, String.toList_ofList, List.length_replicate]
    decide
  obtain ⟨t, hrun, hrooms⟩ := joinsAs_run longName
  have hkeeps := statusSerde_keeps longName
  have h := roomOf_iterates longName
  have hlong : maxHeader < statusSize zsyncd [someGroup] (roomOf longName) :=
    Nat.lt_of_lt_of_le longName_size (roomOf_size longName)
  have herror : adminRoundtrip (statusReq "status")
      (handleAdmin zsyncd [someGroup] [someGroup] (roomOf longName)) = .error .headerTooLarge := by
    rw [adminRoundtrip, handleAdmin_status (.inr rfl) hkeeps.request,
      readLineJson_long (hkeeps.answer _ _ h h) (@status_size zsyncd _ _ _ h h ▸ hlong)]
    rfl
  rw [← hrooms] at herror
  refine ⟨hframe, t, hrun, herror, ?_⟩
  rintro ⟨resp, hresp, -⟩
  rw [herror] at hresp
  cases hresp

end
end Ipc
end Zsync
