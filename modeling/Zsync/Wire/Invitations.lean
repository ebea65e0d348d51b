import Zsync.Model.Allowlist
import Zsync.Wire.Addresses

/-! # The address that `group create` prints

The secret of a group is printed once, as a part of its address, and not stored. The host in it is
what the operator wrote after `--domain`, as it stands.

* `Importable` : the hosts that come out of the printed address as they went in.
* `create_imports_iff` : an address is imported as the group that was created exactly for these.
-/

namespace Zsync
set_option autoImplicit false
set_option maxHeartbeats 250000
open Protocol

namespace Group
open Transport

/-- A text without whitespace and `@` that is not empty, and is an IPv6 address or else holds no colon and
does not start with `[`. -/
structure Importable (host : String) : Prop where
  clean : ∀ c ∈ host.toList, isWhitespace c = false
  noAt : '@' ∉ host.toList
  nonempty : host ≠ ""
  found : RelayHost host.toList

/-- What the crate `base64` promises of the secret. -/
structure KeyText [Base64] (secret : Bytes) : Prop where
  decoded : Base64.decode (Base64.encode secret) = some secret
  alphabet : ∀ c ∈ (Base64.encode secret).toList, c ∈ UrlSafe.alphabet

theorem alphabet_clean {c : Char} (h : c ∈ UrlSafe.alphabet) : isWhitespace c = false := by
  have hall : (UrlSafe.alphabet.all fun c => isWhitespace c = false) = true := by decide +kernel
  exact of_decide_eq_true (List.all_eq_true.mp hall c h)

theorem advertised_ok {domain detected : Option String} {host : String}
    (h : advertised domain detected = .ok host) : host ≠ "0.0.0.0" ∧ host ≠ "::" := by
  unfold advertised at h
  split at h
  · cases h
  · split_ifs at h with hun
    obtain rfl := Except.ok.inj h
    exact not_or.mp hun

section
variable [Base64]

/-- `to_uri`, as characters. -/
def inviteChars (id : Bytes) (key host : String) (port : ℕ) : List Char :=
  "zsync://".toList ++
    (hexChars id ++ ':' :: key.toList ++ '@' :: (formatHostPort host port).toList)

theorem toUri_chars {g : GroupUri} {key : Bytes} {uri : String} (hkey : g.key = some key)
    (h : g.toUri = .ok uri) :
    uri.toList = inviteChars g.groupId (Base64.encode key) g.host g.port := by
  unfold GroupUri.toUri at h
  rw [hkey] at h
  obtain rfl := Except.ok.inj h
  unfold inviteChars hexEncode
  generalize formatHostPort g.host g.port = fmt
  generalize Base64.encode key = text
  simp

theorem cmdCreate_ok [Sha256] {domain detected name : Option String} {port : ℕ}
    {secret : Vector UInt8 32} {file file' : GroupsFile} {uri host : String}
    (hhost : advertised domain detected = .ok host)
    (h : cmdCreate domain detected name port secret file = .ok (file', uri)) :
    uri.toList = inviteChars (groupIdFromSecret secret) (Base64.encode secret.toList) host port := by
  unfold cmdCreate at h
  obtain ⟨host', hhost', h⟩ := except_bind_ok h
  obtain rfl := Except.ok.inj (hhost'.symm.trans hhost)
  dsimp only at h
  generalize groupIdFromSecret secret = gid at h ⊢
  by_cases hold : (file.groups.any fun g => g.id = hexEncode gid) = true
  · rw [if_pos hold] at h
    cases h
  · rw [if_neg hold] at h
    obtain ⟨uri', huri, h⟩ := except_bind_ok h
    obtain ⟨-, rfl⟩ := Prod.mk.inj (Except.ok.inj h)
    exact toUri_chars rfl huri

theorem parseGroupUri_filter (s : List Char) :
    parseGroupUri s = parseGroupUri (s.filter fun c => !isWhitespace c) := by
  unfold parseGroupUri
  simp only [List.filter_filter, Bool.and_self]

/-- A host that was imported holds no whitespace and no `@`. -/
theorem imported_host {s : List Char} {g : GroupUri} (h : parseGroupUri s = .ok g) :
    (∀ c ∈ g.host.toList, isWhitespace c = false) ∧ '@' ∉ g.host.toList ∧ g.host ≠ "" := by
  rw [parseGroupUri_filter] at h
  have hclean : ∀ c ∈ s.filter (fun c => !isWhitespace c), isWhitespace c = false :=
    fun c hc => by simpa using (List.mem_filter.mp hc).2
  obtain ⟨creds, hostport, hs, hat, -, hun, hsplit⟩ := parseGroupUri_ok hclean h
  refine ⟨fun c hc => hclean c ?_, fun hc => hat (split_subset hsplit hc), fun he => hun (.inl ?_)⟩
  · rw [hs]
    exact List.mem_append_right _ (List.mem_append_right _
      (List.mem_cons_of_mem _ (split_subset hsplit hc)))
  · rw [he]
    rfl

omit [Base64] in
theorem inviteChars_clean {id : Bytes} {key host : String} {port : ℕ}
    (hkey : ∀ c ∈ key.toList, c ∈ UrlSafe.alphabet) (hhost : ∀ c ∈ host.toList, isWhitespace c = false)
    {c : Char} (hc : c ∈ inviteChars id key host port) : isWhitespace c = false := by
  obtain hc | hc := List.mem_append.mp hc
  · have hz : ("zsync://".toList.all fun c => isWhitespace c = false) = true := by decide
    exact of_decide_eq_true (List.all_eq_true.mp hz c hc)
  · obtain hc | hc := List.mem_append.mp hc
    · obtain hc | hc := List.mem_append.mp hc
      · exact hexChars_clean hc
      · obtain rfl | hc := List.mem_cons.mp hc
        · decide
        · exact alphabet_clean (hkey c hc)
    · obtain rfl | hc := List.mem_cons.mp hc
      · decide
      · rw [← String.ofList_toList (s := host)] at hc
        exact printed_clean _ hhost (mem_format hc)

/-- The address is cut where it was put together. -/
theorem parse_invite {id : Bytes} {host : String} {secret : Bytes} {port : ℕ} (hkey : KeyText secret)
    (hlen : secret.length = 32) (hhost : ∀ c ∈ host.toList, isWhitespace c = false)
    (hat : '@' ∉ host.toList) :
    parseGroupUri (inviteChars id (Base64.encode secret) host port) =
      parseRest (hexChars id) (some secret) (formatHostPort host port).toList := by
  have hfmt : '@' ∉ (formatHostPort host port).toList := by
    rw [← String.ofList_toList (s := host)]
    exact at_notMem_format hat
  have hcolon : ':' ∉ hexChars id := fun hm => absurd (mem_hexChars hm) (by decide)
  have hcut : splitOnce ':' (hexChars id ++ ':' :: (Base64.encode secret).toList) =
      some (hexChars id, (Base64.encode secret).toList) := splitOnce_eq_some.mpr ⟨rfl, hcolon⟩
  have hparse : parseKey (Base64.encode secret).toList = .ok secret := by
    rw [parseKey, String.ofList_toList, hkey.decoded]
    exact if_pos hlen
  have hclean : ∀ c ∈ inviteChars id (Base64.encode secret) host port, isWhitespace c = false :=
    fun c hc => inviteChars_clean hkey.alphabet hhost hc
  have h := parseGroupUri_eq hfmt hclean
  rw [hcut] at h
  dsimp only at h
  rw [hparse] at h
  exact h

theorem import_iff {id : Bytes} {host : String} {secret : Bytes} {port : ℕ} (hid : id.length = 16)
    (hkey : KeyText secret) (hlen : secret.length = 32) (hport : port < 2 ^ 16)
    (hhost : host ≠ "0.0.0.0" ∧ host ≠ "::") :
    parseGroupUri (inviteChars id (Base64.encode secret) host port) =
        .ok ⟨id, some secret, host, port⟩ ↔ Importable host := by
  have hofList : String.ofList host.toList = host := String.ofList_toList
  have hsplit := split_format_iff host.toList hport
  rw [hofList] at hsplit
  by_cases hgood : (∀ c ∈ host.toList, isWhitespace c = false) ∧ '@' ∉ host.toList ∧ host ≠ ""
  · obtain ⟨hspace, hat, hne⟩ := hgood
    have hun : ¬ unspecified host.toList := by
      rw [unspecified, hofList, not_or, not_or]
      exact ⟨hne, hhost⟩
    rw [parse_invite hkey hlen hspace hat]
    constructor
    · intro h
      exact ⟨hspace, hat, hne, hsplit.mp (parseRest_ok h).2.2⟩
    · intro h
      rw [parseRest, parseGroupId_hexChars hid, hsplit.mpr h.found]
      change (if unspecified host.toList then _ else _) = _
      rw [if_neg hun, hofList]
  · exact iff_of_false (fun h => hgood (imported_host h)) fun h => hgood ⟨h.clean, h.noAt, h.nonempty⟩

end

/-! ## The result -/

theorem groupIdFromSecret_length [Sha256] (secret : Vector UInt8 32) :
    (groupIdFromSecret secret).length = 16 := by
  rw [groupIdFromSecret, List.length_take, Vector.length_toList]
  rfl

theorem create_imports_iff [Sha256] [Base64] {domain detected name : Option String} {port : ℕ}
    {secret : Vector UInt8 32} {file file' : GroupsFile} {uri host : String} (hport : port < 2 ^ 16)
    (hkey : KeyText secret.toList) (hhost : advertised domain detected = .ok host)
    (h : cmdCreate domain detected name port secret file = .ok (file', uri)) :
    parseGroupUri uri.toList =
        .ok ⟨groupIdFromSecret secret, some secret.toList, host, port⟩ ↔ Importable host := by
  rw [cmdCreate_ok hhost h]
  exact import_iff (groupIdFromSecret_length secret) hkey Vector.length_toList hport (advertised_ok hhost)

/-! ### The secret `01..01` -/

/-- SHA-256 at the text from which the id of the group is made. -/
abbrev gidSha256 : Sha256 where
  digest := fun data =>
    if data = gidSalt ++ List.replicate 32 1 then
      #v[0xca, 0x31, 0x64, 0xd9, 0xfb, 0xcc, 0x3d, 0x9e, 0xf5, 0xea, 0x9a, 0x8b, 0x0d, 0xc7, 0x96,
      0xb5, 0x16, 0xff, 0xdd, 0x6b, 0xef, 0x60, 0x2b, 0x1d, 0xc1, 0x5e, 0xb4, 0x0a, 0xfe, 0x57,
      0x5c, 0x8f]
    else sampleSha256.digest data

def oneSecret : Vector UInt8 32 := .replicate 32 1

theorem oneSecret_text : letI := sampleBase64; KeyText oneSecret.toList := by
  let _ := sampleBase64
  have hall : (((@Base64.encode sampleBase64 oneSecret.toList).toList).all fun c =>
      c ∈ UrlSafe.alphabet) = true := by decide +kernel
  exact ⟨by decide +kernel, fun c hc => of_decide_eq_true (List.all_eq_true.mp hall c hc)⟩

/-- A group at a public address is imported as it was created. -/
theorem publicGroup_imported :
    letI := gidSha256
    letI := sampleBase64
    ∃ file uri, cmdCreate (some "8.8.8.8") none none 43721 oneSecret ⟨[]⟩ = .ok (file, uri) ∧
      parseGroupUri uri.toList =
        .ok ⟨groupIdFromSecret oneSecret, some oneSecret.toList, "8.8.8.8", 43721⟩ := by
  let _ := gidSha256
  let _ := sampleBase64
  have hcreate : ∃ file uri, @cmdCreate gidSha256 sampleBase64 (some "8.8.8.8") none none 43721 oneSecret
      ⟨[]⟩ = .ok (file, uri) := ⟨_, _, rfl⟩
  obtain ⟨file, uri, hcreate⟩ := hcreate
  have hchars : ("8.8.8.8".toList.all fun c => isWhitespace c = false) = true := by decide
  have himport : Importable "8.8.8.8" :=
    ⟨fun c hc => of_decide_eq_true (List.all_eq_true.mp hchars c hc), by decide, by decide,
      .inr ⟨by decide, rfl⟩⟩
  exact ⟨file, uri, hcreate, (@create_imports_iff gidSha256 sampleBase64 _ _ _ _ _ _ _ _ _ (by decide)
    oneSecret_text rfl hcreate).mpr himport⟩

/-- A domain with a port is printed with a second port, and imported as a host that does not exist. -/
theorem portedGroup_lost :
    letI := gidSha256
    letI := sampleBase64
    ∃ file uri, cmdCreate (some "box.lan:9000") none none 43721 oneSecret ⟨[]⟩ = .ok (file, uri) ∧
      parseGroupUri uri.toList ≠
        .ok ⟨groupIdFromSecret oneSecret, some oneSecret.toList, "box.lan:9000", 43721⟩ := by
  let _ := gidSha256
  let _ := sampleBase64
  refine ⟨_, _, rfl, ?_⟩
  decide +kernel

end Group
end Zsync
