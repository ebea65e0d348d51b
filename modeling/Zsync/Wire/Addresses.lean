import Zsync.Daemon.Redaction
import Zsync.Wire.HostPort

/-! # Addresses that are read back

A peer is saved under the canonical form of its address, and whenever it is started or stopped that form is
parsed again. The two kinds of address are printed and parsed by different functions.

* `Parsed` : what `parse_peer` accepts.
* `reparse_lan_iff`, `reparse_relay_iff` : which hosts survive being printed and parsed.
* `parsePeer_fixpoint_iff` : an address leads to a fixpoint of `parse_peer` exactly when its host
  survives, told from the text of the address.
-/

namespace Zsync
set_option autoImplicit false
set_option maxHeartbeats 250000
open Protocol

namespace Transport
open Zsync.Group
theorem formatHostPort_toList (host : List Char) (port : ℕ) :
    (formatHostPort (String.ofList host) port).toList =
      if ':' ∈ host then '[' :: (host ++ ']' :: ':' :: portChars port)
      else host ++ ':' :: portChars port := by
  unfold formatHostPort
  rw [String.toList_ofList]
  split_ifs <;> simp [portChars]

/-- The address without `tcp://`. -/
def lanAddress (s : List Char) : List Char := (s.dropPrefix? "tcp://".toList).getD s

/-- What `parse_peer` makes of an address that no scheme claims. -/
def parseLan (s : List Char) : Except String PeerTarget := do
  let (host, port) ← splitHostPort (lanAddress s)
  if String.ofList host = "" then .error "missing host"
  else .ok ⟨formatHostPort (String.ofList host) port, String.ofList host, port, none⟩

/-- What is refused, and what goes to `group.rs`. -/
def schemes : List (List Char) :=
  ["ssh://".toList, "iroh://".toList, "endpoint".toList, "zsync://".toList]

theorem parseLan_ok {s : List Char} {t : PeerTarget} (h : parseLan s = .ok t) :
    ∃ host port, Group.splitHostPort (lanAddress s) = .ok (host, port) ∧ host ≠ [] ∧
      t = ⟨formatHostPort (String.ofList host) port, String.ofList host, port, none⟩ := by
  rw [parseLan, splitHostPort_eq] at h
  cases hsplit : Group.splitHostPort (lanAddress s) with
  | error e =>
    rw [hsplit] at h
    cases h
  | ok p =>
    obtain ⟨host, port⟩ := p
    rw [hsplit] at h
    change (if String.ofList host = "" then _ else _) = _ at h
    split_ifs at h with hempty
    refine ⟨host, port, rfl, fun hnil => hempty ?_, (Except.ok.inj h).symm⟩
    rw [hnil]

theorem filter_clean {s : List Char} (h : ∀ c ∈ s, isWhitespace c = false) :
    s.filter (fun c => !isWhitespace c) = s := by
  refine List.filter_eq_self.mpr fun c hc => ?_
  rw [h c hc]
  rfl

theorem visible_eq {s : String} (h : ∀ c ∈ s.toList, isWhitespace c = false) : visible s = s.toList :=
  filter_clean h

theorem visible_clean {raw : String} {c : Char} (h : c ∈ visible raw) : isWhitespace c = false := by
  simpa using (List.mem_filter.mp h).2

theorem lanAddress_subset {s : List Char} {c : Char} (h : c ∈ lanAddress s) : c ∈ s := by
  unfold lanAddress at h
  cases hd : s.dropPrefix? "tcp://".toList with
  | none =>
    rw [hd] at h
    exact h
  | some t =>
    rw [hd] at h
    obtain ⟨p, hp, -⟩ := List.dropPrefix?_eq_some_iff.mp hd
    rw [hp]
    exact List.mem_append_right _ h

/-- No scheme ends in a host and its port. -/
theorem scheme_not_prefix {q r host : List Char} {port : ℕ} (hq : ':' ∉ q) (hhost : ':' ∉ host) :
    ¬ q ++ ':' :: '/' :: r <+: host ++ ':' :: portChars port := by
  rintro ⟨t, ht⟩
  have hleft : splitOnce ':' (q ++ ':' :: '/' :: r ++ t) = some (q, '/' :: (r ++ t)) :=
    splitOnce_eq_some.mpr ⟨by simp, hq⟩
  rw [ht, splitOnce_eq_some.mpr ⟨rfl, hhost⟩] at hleft
  have hslash : '/' ∈ portChars port := by
    rw [(Prod.mk.inj (Option.some.inj hleft)).2]
    exact List.mem_cons_self
  exact absurd hslash (not_mem_portChars (by decide))

/-- `t'` names the same peer, with or without its key. -/
structure SamePeer (t t' : PeerTarget) : Prop where
  uri : t'.uri = t.uri
  host : t'.host = t.host
  port : t'.port = t.port
  group : t'.relay.map RelayPeer.groupId = t.relay.map RelayPeer.groupId

theorem parseLan_same_iff {host s : List Char} {port : ℕ} (hne : host ≠ []) (hs : lanAddress s = s) :
    (∃ t', parseLan s = .ok t' ∧
        SamePeer ⟨formatHostPort (String.ofList host) port, String.ofList host, port, none⟩ t') ↔
      Group.splitHostPort s = .ok (host, port) := by
  constructor
  · rintro ⟨t', h, hsame⟩
    obtain ⟨host', port', hsplit, -, rfl⟩ := parseLan_ok h
    rw [hs] at hsplit
    have hhost : host' = host := String.ofList_injective hsame.host
    have hport : port' = port := hsame.port
    rw [hsplit, hhost, hport]
  · intro h
    refine ⟨_, ?_, ⟨rfl, rfl, rfl, rfl⟩⟩
    have hempty : String.ofList host ≠ "" := fun he => hne (by simpa using congrArg String.toList he)
    rw [parseLan, hs, splitHostPort_eq, h]
    exact if_neg hempty

theorem lanAddress_eq {s : List Char} (h : ¬ "tcp://".toList <+: s) : lanAddress s = s := by
  unfold lanAddress
  cases hd : s.dropPrefix? "tcp://".toList with
  | none => rfl
  | some t =>
    obtain ⟨p, hp, hbeq⟩ := List.dropPrefix?_eq_some_iff.mp hd
    exact absurd ⟨t, by rw [hp, eq_of_beq hbeq]⟩ h

theorem except_bind_ok {ε α β : Type} {x : Except ε α} {f : α → Except ε β} {b : β}
    (h : x >>= f = .ok b) : ∃ a, x = .ok a ∧ f a = .ok b := by
  cases x with
  | error e => cases h
  | ok a => exact ⟨a, rfl, h⟩

theorem parseGroupId_length {s : List Char} {id : Bytes} (h : parseGroupId s = .ok id) :
    id.length = 16 := by
  unfold parseGroupId at h
  dsimp only at h
  split at h
  · split_ifs at h with hlen
    rw [← Except.ok.inj h, length_pairs, hlen]
  · cases h

/-- The rest of `parse_group_uri`, once the key is known. -/
def parseRest (gid : List Char) (key : Option Bytes) (hostport : List Char) :
    Except String GroupUri := do
  let groupId ← parseGroupId gid
  let (host, port) ← Group.splitHostPort hostport
  if unspecified host then
    .error ("zsync:// host cannot be unspecified (" ++ String.ofList host ++ ")")
  else .ok ⟨groupId, key, String.ofList host, port⟩

theorem parseRest_ok {gid hostport : List Char} {key : Option Bytes} {g : GroupUri}
    (h : parseRest gid key hostport = .ok g) : g.groupId.length = 16 ∧ ¬ unspecified g.host.toList ∧
      Group.splitHostPort hostport = .ok (g.host.toList, g.port) := by
  obtain ⟨id, hid, h⟩ := except_bind_ok h
  obtain ⟨⟨host, port⟩, hsplit, h⟩ := except_bind_ok h
  dsimp only at h
  split_ifs at h with hun
  obtain rfl := Except.ok.inj h
  rw [String.toList_ofList]
  exact ⟨parseGroupId_length hid, hun, hsplit⟩

theorem hostText_append {a hostport : List Char} (h : '@' ∉ hostport) :
    hostText (a ++ '@' :: hostport) = hostport := by
  rw [hostText, rsplitOnce_eq_some.mpr ⟨rfl, h⟩]

theorem hexChars_clean {id : Bytes} {c : Char} (h : c ∈ hexChars id) : isWhitespace c = false := by
  have hall : (hexDigits.all fun c => isWhitespace c = false) = true := by decide
  exact of_decide_eq_true (List.all_eq_true.mp hall c (mem_hexChars h))

section
variable [Base64]

/-- `parse_peer` past the whitespace. -/
def parseVisible (s : List Char) : Except String PeerTarget :=
  if s = [] then .error "empty peer address"
  else if "ssh://".toList.isPrefixOf s then
    .error "ssh:// is no longer supported; use `zsync connect <ip>`"
  else if "iroh://".toList.isPrefixOf s || "endpoint".toList.isPrefixOf s then
    .error "iroh is gone; use `zsync connect <ip>`"
  else if "zsync://".toList.isPrefixOf s then (parseGroupUri s).map peerFromGroup
  else parseLan s

theorem parsePeer_eq (raw : String) : parsePeer raw = parseVisible (visible raw) := rfl

theorem parsePeer_lan {raw : String} (hne : visible raw ≠ [])
    (hs : ∀ p ∈ schemes, ¬ p <+: visible raw) : parsePeer raw = parseLan (visible raw) := by
  simp only [schemes, List.forall_mem_cons, List.not_mem_nil, false_imp_iff, implies_true, and_true,
    ← List.isPrefixOf_iff_prefix] at hs
  obtain ⟨hssh, hiroh, hend, hz⟩ := hs
  have hgone : ¬ ("iroh://".toList.isPrefixOf (visible raw) ||
      "endpoint".toList.isPrefixOf (visible raw)) = true := by
    rw [Bool.or_eq_true, not_or]
    exact ⟨hiroh, hend⟩
  rw [parsePeer_eq, parseVisible, if_neg hne, if_neg hssh, if_neg hgone, if_neg hz]

theorem parsePeer_relay {raw : String} (hz : "zsync://".toList <+: visible raw) :
    parsePeer raw = (parseGroupUri (visible raw)).map peerFromGroup := by
  obtain ⟨rest, hrest⟩ := hz
  rw [parsePeer_eq, parseVisible, ← hrest, if_neg (by simp), if_neg (by simp [List.isPrefixOf]),
    if_neg (by simp [List.isPrefixOf]), if_pos (by simp [List.isPrefixOf])]

/-- What `parse_peer` accepts. -/
inductive Parsed (raw : String) : PeerTarget → Prop
  | lan (host : List Char) (port : ℕ) (hs : ∀ p ∈ schemes, ¬ p <+: visible raw)
    (hsplit : Group.splitHostPort (lanAddress (visible raw)) = .ok (host, port)) (hne : host ≠ []) :
    Parsed raw ⟨formatHostPort (String.ofList host) port, String.ofList host, port, none⟩
  | relay (g : GroupUri) (hz : "zsync://".toList <+: visible raw)
    (hparse : parseGroupUri (visible raw) = .ok g) : Parsed raw (peerFromGroup g)

theorem parsePeer_parsed {raw : String} {t : PeerTarget} (h : parsePeer raw = .ok t) : Parsed raw t := by
  rw [parsePeer_eq, parseVisible] at h
  split_ifs at h with hnil hssh hiroh hz
  · rw [List.isPrefixOf_iff_prefix] at hz
    cases hg : parseGroupUri (visible raw) with
    | error e =>
      rw [hg] at h
      cases h
    | ok g =>
      rw [hg] at h
      obtain rfl := Except.ok.inj h
      exact .relay g hz hg
  · have hs : ∀ p ∈ schemes, ¬ p <+: visible raw := by
      rw [Bool.or_eq_true, not_or] at hiroh
      simp only [schemes, List.forall_mem_cons, List.not_mem_nil, false_imp_iff, implies_true, and_true,
        ← List.isPrefixOf_iff_prefix]
      exact ⟨hssh, hiroh.1, hiroh.2, hz⟩
    obtain ⟨host, port, hsplit, hne, rfl⟩ := parseLan_ok h
    exact .lan host port hs hsplit hne

/-! ## The second time -/

theorem reparse_lan_iff {host : List Char} {port : ℕ} (hne : host ≠ []) (hport : port < 2 ^ 16)
    (hclean : ∀ c ∈ host, isWhitespace c = false) :
    (∃ t', parsePeer (formatHostPort (String.ofList host) port) = .ok t' ∧
        SamePeer ⟨formatHostPort (String.ofList host) port, String.ofList host, port, none⟩ t') ↔
      LanHost host := by
  have hvisible : visible (formatHostPort (String.ofList host) port) =
      (formatHostPort (String.ofList host) port).toList := by
    refine visible_eq fun c hc => printed_clean port hclean ?_
    rw [formatHostPort_toList] at hc
    split_ifs at hc
    · exact hc
    · simp only [List.mem_cons, List.mem_append] at hc ⊢
      tauto
  rw [formatHostPort_toList] at hvisible
  unfold LanHost
  by_cases hcolon : ':' ∈ host
  · rw [if_pos hcolon] at hvisible ⊢
    have hs : ∀ p ∈ schemes, ¬ p <+: visible (formatHostPort (String.ofList host) port) := by
      rw [hvisible]
      simp [schemes]
    rw [parsePeer_lan (by simp [hvisible]) hs, parseLan_same_iff hne (lanAddress_eq (by simp [hvisible])),
      hvisible, split_brackets_iff hport]
  · rw [if_neg hcolon] at hvisible ⊢
    have hno : ∀ q r, ':' ∉ q →
        ¬ q ++ ':' :: '/' :: r <+: visible (formatHostPort (String.ofList host) port) := by
      intro q r hq
      rw [hvisible]
      exact scheme_not_prefix hq hcolon
    by_cases hend : "endpoint".toList <+: host
    · refine iff_of_false ?_ fun h => h.2 hend
      rintro ⟨t', h, -⟩
      have hpre : "endpoint".toList <+: visible (formatHostPort (String.ofList host) port) := by
        rw [hvisible]
        exact (endpoint_named _).mpr hend
      cases parsePeer_parsed h with
      | lan host' port' hs hsplit hne' => exact hs _ (by simp [schemes]) hpre
      | relay g hz hparse => exact hno "zsync".toList ['/'] (by decide) hz
    · have hs : ∀ p ∈ schemes, ¬ p <+: visible (formatHostPort (String.ofList host) port) := by
        simp only [schemes, List.forall_mem_cons, List.not_mem_nil, false_imp_iff, implies_true, and_true]
        refine ⟨hno "ssh".toList ['/'] (by decide), hno "iroh".toList ['/'] (by decide), ?_,
          hno "zsync".toList ['/'] (by decide)⟩
        rw [hvisible]
        exact fun h => hend ((endpoint_named _).mp h)
      rw [parsePeer_lan (by simp [hvisible]) hs,
        parseLan_same_iff hne (lanAddress_eq (hno "tcp".toList ['/'] (by decide))), hvisible,
        split_plain_iff hport]
      exact ⟨fun h => ⟨h.2, hend⟩, fun h => ⟨hcolon, h.1⟩⟩

/-! ### Addresses of relays -/

theorem parseGroupUri_eq {creds hostport : List Char} (hat : '@' ∉ hostport)
    (hclean : ∀ c ∈ "zsync://".toList ++ (creds ++ '@' :: hostport), isWhitespace c = false) :
    parseGroupUri ("zsync://".toList ++ (creds ++ '@' :: hostport)) =
      match splitOnce ':' creds with
      | some (gid, key) => do parseRest gid (some (← parseKey key)) hostport
      | none => parseRest creds none hostport := by
  have hfilter := filter_clean hclean
  have hdrop := List.dropPrefix?_append_of_beq (creds ++ '@' :: hostport)
    (beq_self_eq_true "zsync://".toList)
  have hcut : rsplitOnce '@' (creds ++ '@' :: hostport) = some (creds, hostport) :=
    rsplitOnce_eq_some.mpr ⟨rfl, hat⟩
  unfold parseGroupUri
  dsimp only
  rw [hfilter, hdrop]
  dsimp only
  rw [hcut]
  dsimp only
  cases splitOnce ':' creds with
  | none => rfl
  | some p =>
    obtain ⟨gid, key⟩ := p
    dsimp only
    cases parseKey key <;> rfl

/-- What `parse_group_uri` accepts. -/
theorem parseGroupUri_ok {s : List Char} {g : GroupUri} (hclean : ∀ c ∈ s, isWhitespace c = false)
    (h : parseGroupUri s = .ok g) :
    ∃ creds hostport, s = "zsync://".toList ++ (creds ++ '@' :: hostport) ∧ '@' ∉ hostport ∧
      g.groupId.length = 16 ∧ ¬ unspecified g.host.toList ∧
      Group.splitHostPort hostport = .ok (g.host.toList, g.port) := by
  have hparts : ∃ creds hostport, s = "zsync://".toList ++ (creds ++ '@' :: hostport) ∧
      '@' ∉ hostport := by
    unfold parseGroupUri at h
    dsimp only at h
    rw [filter_clean hclean] at h
    split at h
    · next rest hd =>
      obtain ⟨p, hs, hbeq⟩ := List.dropPrefix?_eq_some_iff.mp hd
      obtain rfl := eq_of_beq hbeq
      split at h
      · next creds hostport hcut =>
        obtain ⟨rfl, hat⟩ := rsplitOnce_eq_some.mp hcut
        exact ⟨creds, hostport, hs, hat⟩
      · cases h
    · cases h
  obtain ⟨creds, hostport, rfl, hat⟩ := hparts
  refine ⟨creds, hostport, rfl, hat, ?_⟩
  rw [parseGroupUri_eq hat hclean] at h
  split at h
  · obtain ⟨key, -, h⟩ := except_bind_ok h
    exact parseRest_ok h
  · exact parseRest_ok h

/-- What was printed without the key is parsed up to its host. -/
theorem parse_redacted {g : GroupUri} {host : List Char} (hhost : g.host = String.ofList host)
    (hclean : ∀ c ∈ host, isWhitespace c = false) (hat : '@' ∉ host) :
    parsePeer g.redacted =
      (parseRest (hexChars g.groupId) none (Group.formatHostPort g.host g.port).toList).map
        peerFromGroup := by
  have hchars : g.redacted.toList = "zsync://".toList ++
      (hexChars g.groupId ++ '@' :: (Group.formatHostPort g.host g.port).toList) := by
    simp [GroupUri.redacted, hexEncode]
  have hcolon : splitOnce ':' (hexChars g.groupId) = none := by
    rw [splitOnce_eq_none]
    exact fun hm => absurd (mem_hexChars hm) (by decide)
  have hall : ∀ c ∈ g.redacted.toList, isWhitespace c = false := by
    intro c hc
    rw [hchars] at hc
    obtain hc | hc := List.mem_append.mp hc
    · have hz : ("zsync://".toList.all fun c => isWhitespace c = false) = true := by decide
      exact of_decide_eq_true (List.all_eq_true.mp hz c hc)
    · obtain hc | hc := List.mem_append.mp hc
      · exact hexChars_clean hc
      · obtain rfl | hc := List.mem_cons.mp hc
        · decide
        · rw [hhost] at hc
          exact printed_clean _ hclean (Group.mem_format hc)
  have hvisible := visible_eq hall
  rw [hchars] at hvisible hall
  have hnone : '@' ∉ (Group.formatHostPort g.host g.port).toList := by
    rw [hhost]
    exact Group.at_notMem_format hat
  rw [parsePeer_relay (by rw [hvisible]; exact List.prefix_append _ _), hvisible,
    parseGroupUri_eq hnone hall, hcolon]

theorem reparse_relay_iff {g : GroupUri} {host : List Char} (hid : g.groupId.length = 16)
    (hhost : g.host = String.ofList host) (hport : g.port < 2 ^ 16) (hun : ¬ unspecified host)
    (hclean : ∀ c ∈ host, isWhitespace c = false) (hat : '@' ∉ host) :
    (∃ t', parsePeer g.redacted = .ok t' ∧ SamePeer (peerFromGroup g) t') ↔ RelayHost host := by
  have hsplit := Group.split_format_iff host hport
  rw [← hhost] at hsplit
  rw [parse_redacted hhost hclean hat, ← hsplit]
  constructor
  · rintro ⟨t', h, hsame⟩
    cases hr : parseRest (hexChars g.groupId) none (Group.formatHostPort g.host g.port).toList with
    | error e =>
      rw [hr] at h
      cases h
    | ok g' =>
      rw [hr] at h
      obtain rfl := Except.ok.inj h
      have hfound := (parseRest_ok hr).2.2
      have hhost' : g'.host = g.host := hsame.host
      have hport' : g'.port = g.port := hsame.port
      rw [hhost', hport', hhost, String.toList_ofList] at hfound
      rw [hhost]
      exact hfound
  · intro h
    refine ⟨peerFromGroup ⟨g.groupId, none, g.host, g.port⟩, ?_, ⟨rfl, rfl, rfl, rfl⟩⟩
    rw [parseRest, parseGroupId_hexChars hid, h]
    change Except.map _ (if unspecified host then _ else _) = _
    rw [if_neg hun, hhost]
    rfl

/-! ## The result -/

/-- What follows the last `@` of a relay's address, or the address of a LAN peer, can be printed. -/
def Reprintable (raw : String) : Prop :=
  if "zsync://".toList.isPrefixOf (visible raw) then RelayText (hostText (visible raw))
  else LanText (lanAddress (visible raw))

theorem parsePeer_fixpoint_iff {raw : String} {t : PeerTarget} (h : parsePeer raw = .ok t) :
    (∃ t', parsePeer t.uri = .ok t' ∧ SamePeer t t') ↔ Reprintable raw := by
  unfold Reprintable
  cases parsePeer_parsed h with
  | lan host port hs hsplit hne =>
    have hz : ¬ "zsync://".toList.isPrefixOf (visible raw) = true := by
      rw [List.isPrefixOf_iff_prefix]
      exact hs _ (by simp [schemes])
    rw [if_neg hz, lanText_iff hsplit]
    refine reparse_lan_iff hne (split_port_lt hsplit) fun c hc => ?_
    exact visible_clean (lanAddress_subset (split_subset hsplit hc))
  | relay g hz hparse =>
    rw [if_pos (List.isPrefixOf_iff_prefix.mpr hz)]
    obtain ⟨creds, hostport, hs, hat, hid, hun, hsplit⟩ :=
      parseGroupUri_ok (fun c hc => visible_clean hc) hparse
    have hafter : hostText (visible raw) = hostport := by
      rw [hs, ← List.append_assoc]
      exact hostText_append hat
    rw [hafter, relayText_iff hsplit]
    refine reparse_relay_iff hid String.ofList_toList.symm (split_port_lt hsplit) hun (fun c hc => ?_)
      fun hc => hat (split_subset hsplit hc)
    have hmem : c ∈ visible raw := by
      rw [hs]
      exact List.mem_append_right _ (List.mem_append_right _
        (List.mem_cons_of_mem _ (split_subset hsplit hc)))
    exact visible_clean hmem

end

/-- An IPv6 address in brackets is kept. -/
theorem loopback_kept :
    letI := sampleBase64
    ∃ t', parsePeer "[::1]:43721" = .ok t' ∧ SamePeer ⟨"[::1]:43721", "::1", 43721, none⟩ t' := by
  let _ := sampleBase64
  have hparse : @parsePeer sampleBase64 "tcp:// [::1]" = .ok ⟨"[::1]:43721", "::1", 43721, none⟩ := by
    decide +kernel
  have hscheme : ¬ "zsync://".toList.isPrefixOf (visible "tcp:// [::1]") = true := by decide
  refine (@parsePeer_fixpoint_iff sampleBase64 _ _ hparse).mpr ?_
  rw [Reprintable, if_neg hscheme]
  exact .inl (by decide)

/-- An IPv6 address with a zone is put into brackets by `net.rs` only: its port becomes a part of it. -/
theorem zoned_moves :
    letI := sampleBase64
    ¬ ∀ t, parsePeer "zsync://02020202020202020202020202020202@[fe80::1%eth0]:9000" = .ok t →
      ∃ t', parsePeer t.uri = .ok t' ∧ SamePeer t t' := by
  let _ := sampleBase64
  have hfirst : @parsePeer sampleBase64 "zsync://02020202020202020202020202020202@[fe80::1%eth0]:9000" =
      .ok ⟨"zsync://02020202020202020202020202020202@fe80::1%eth0:9000", "fe80::1%eth0", 9000,
        some ⟨List.replicate 16 2, none⟩⟩ := by decide +kernel
  have hsecond : @parsePeer sampleBase64 "zsync://02020202020202020202020202020202@fe80::1%eth0:9000" =
      .ok ⟨"zsync://02020202020202020202020202020202@fe80::1%eth0:9000:43721", "fe80::1%eth0:9000", 43721,
        some ⟨List.replicate 16 2, none⟩⟩ := by decide +kernel
  intro h
  obtain ⟨t', ht', hsame⟩ := h _ hfirst
  rw [hsecond] at ht'
  obtain rfl := Except.ok.inj ht'
  exact absurd hsame.port (by decide)

end Transport
end Zsync
