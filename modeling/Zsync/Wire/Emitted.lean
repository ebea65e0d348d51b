import Zsync.Model.FileBackend
import Zsync.Relay.Rollback

/-! # Clips that a hub emits

The data of a clip is measured before the hub broadcasts it. The rest of its meta comes from the request, the
clipboard or a file name, and is measured by the encoder of each session, when the clip is out already.

* `Shipped` : the backends that `clipboard::open` and the tests build.
* `Sendable` : the clip can be encoded for both transports, and whoever decodes it can verify it.
* `emitted_sendable_iff` : clips that are forwarded are sendable, and a local clip exactly when its meta fits.
-/

namespace Zsync
set_option autoImplicit false
set_option maxHeartbeats 250000
open Protocol Foundations.Files

/-! ## What a backend returns -/

def Item.kind (item : Item) : String := if item.mime = "" then detectMime item.data else item.mime

/-- The item that a successful `set` returns: its path aside, it is the one that was given. -/
def Faithful {σ : Type} (B : Backend σ) : Prop :=
  ∀ item s stored s', item.hash ≠ "" → B.set item s = (.ok stored, s') →
    stored.data = item.data ∧ stored.hash = item.hash ∧ stored.name = item.name ∧ stored.kind = item.kind

inductive Shipped [Sha256] [Json Current] : (σ : Type) → Backend σ → Prop
  | memory : Shipped (Option Item) memory
  | file : Shipped FileBackend fileBackend
  | native {ω : Type} (os : Os ω) : Shipped (FileBackend × ω) (native fileBackend os)

theorem memory_faithful [Sha256] : Faithful memory := by
  intro item s stored s' hne h
  obtain ⟨hok, -⟩ := Prod.mk.inj h
  obtain rfl := Except.ok.inj hok
  exact ⟨rfl, if_neg hne, rfl, rfl⟩

theorem native_faithful {σ ω : Type} {file : Backend σ} (os : Os ω) (hfile : Faithful file) :
    Faithful (native file os) := by
  intro item s stored s' hne h
  unfold native at h
  dsimp only at h
  cases hset : file.set item s.1 with
  | mk res disk =>
    rw [hset] at h
    cases res with
    | error e => cases (Prod.mk.inj h).1
    | ok mirrored =>
      dsimp only at h
      cases hos : os.setter mirrored s.2 with
      | mk res' o =>
        rw [hos] at h
        cases res' with
        | error e => cases (Prod.mk.inj h).1
        | ok u =>
          obtain rfl := Except.ok.inj (Prod.mk.inj h).1
          exact hfile item s.1 _ disk hne hset

theorem fileBackend_faithful [Sha256] [Json Current] : Faithful fileBackend := by
  intro item fb stored fb' hne h
  change FileBackend.set item fb = _ at h
  unfold FileBackend.set at h
  split_ifs at h with hbig
  · cases (Prod.mk.inj h).1
  cases hrun : (FileBackend.setOps fb.dir item).run fb.disk with
  | mk res d =>
    rw [hrun] at h
    cases res with
    | error e => cases (Prod.mk.inj h).1
    | ok p =>
      obtain ⟨item', cur⟩ := p
      obtain rfl : item' = stored := Except.ok.inj (Prod.mk.inj h).1
      -- Whatever the files were, the item is put together at the end.
      obtain ⟨_, d₁, -, hrest⟩ := Script.run_bind_ok_inv hrun
      obtain ⟨offer, d₂, -, hsave⟩ := Script.run_bind_ok_inv hrest
      obtain ⟨abs, d₃, -, hwrite⟩ := Script.run_bind_ok_inv hsave
      obtain ⟨_, d₄, -, hpure⟩ := Script.run_bind_ok_inv hwrite
      obtain ⟨rfl, -⟩ := Prod.mk.inj (Except.ok.inj (Prod.mk.inj hpure).1)
      refine ⟨rfl, if_neg hne, rfl, ?_⟩
      unfold Item.kind
      dsimp only
      by_cases hm : item.mime = ""
      · rw [if_pos hm]
        exact ite_self _
      · rw [if_neg hm, if_neg hm]

theorem Shipped.faithful [Sha256] [Json Current] {σ : Type} {B : Backend σ} (h : Shipped σ B) :
    Faithful B := by
  cases h with
  | memory => exact memory_faithful
  | file => exact fileBackend_faithful
  | native os => exact native_faithful os fileBackend_faithful

/-! ## What can be sent -/

theorem hashed_hash [Sha256] {item : Item} (h : item.hash = "" ∨ item.hash = Protocol.hash item.data) :
    (Hub.hashed item).hash = Protocol.hash item.data := by
  rw [Hub.hashed]
  dsimp only
  split_ifs with hempty
  · rfl
  · exact h.resolve_left hempty

section
variable {σ : Type} [Json ClipMeta]

/-- The clip can be encoded for the LAN and for a relay, and its body is decoded to a clip that is verified. -/
def Sendable [Sha256] (clip : Clip) : Prop :=
  ∃ body frame received, encodeClipBody clip = .ok body ∧ encodeClip clip = .ok frame ∧
    decodeFrame frame = .ok (.clip, body) ∧ decodeClip body = .ok received ∧ verifyClip received = .ok ()

/-- `serde_json` reads this meta back, and has read it from no fewer bytes than it writes. -/
structure Reencodes (m : ClipMeta) : Prop extends JsonRoundTrip m where
  noLonger : ∀ bytes, Json.decode bytes = some m → (Json.encode m).length ≤ bytes.length

/-- The meta under which an item goes out. -/
def Hub.packedMeta [Sha256] (item : Item) (hub : Hub σ) : ClipMeta :=
  ⟨hub.nodeId, hub.nextSeq, item.kind, Protocol.hash item.data, item.data.length, item.name⟩

def Hub.MetaFits [Sha256] (item : Item) (hub : Hub σ) : Prop :=
  (Json.encode (hub.packedMeta item)).length ≤ maxMeta

theorem sendable_iff [Sha256] {clip : Clip} (hj : JsonRoundTrip (sized clip))
    (hh : clip.clipMeta.hash = Protocol.hash clip.data) (hfits : clip.data.length ≤ maxClip) :
    Sendable clip ↔ (Json.encode (sized clip)).length ≤ maxMeta := by
  constructor
  · rintro ⟨body, frame, received, hbody, -⟩
    by_contra hlong
    obtain ⟨e, he⟩ := encodeClipBody_error fun h : Encodable clip => hlong h.metaFits
    rw [he] at hbody
    cases hbody
  · intro hm
    have h : Encodable clip := ⟨hfits, hm⟩
    obtain ⟨frame, hframe, hdec⟩ := encodeClip_ok h
    refine ⟨_, frame, _, encodeClipBody_ok h, hframe, hdec, decodeClip_clipBody h hj, ?_⟩
    exact (verifyClip_ok_iff _).mpr ⟨hh, rfl, hfits⟩

/-- A clip that was decoded and verified can be sent on. -/
theorem sendable_decoded [Sha256] {payload : Bytes} {clip : Clip} (hd : decodeClip payload = .ok clip)
    (hv : Verified clip) (hj : Reencodes clip.clipMeta) : Sendable clip := by
  obtain ⟨hsize, hfits, metaBytes, -, hlen, hdec, -⟩ := decodeClip_exact hd
  have hsized : sized clip = clip.clipMeta := by
    rw [sized, ← hsize]
  refine (sendable_iff (hsized ▸ hj.toJsonRoundTrip) hv.hash_eq hfits).mpr ?_
  rw [hsized]
  exact Nat.le_trans (hj.noLonger metaBytes hdec) hlen

theorem minted_sendable_iff [Sha256] {hub : Hub σ} {item : Item} {mime : String}
    (hmime : (if mime = "" then detectMime item.data else mime) = item.kind)
    (hj : JsonRoundTrip (hub.packedMeta item)) (hfits : item.data.length ≤ maxClip) :
    Sendable (hub.minted mime item.name item.data (Protocol.hash item.data)) ↔ hub.MetaFits item := by
  have hmeta : sized (hub.minted mime item.name item.data (Protocol.hash item.data)) =
      hub.packedMeta item := by
    rw [sized, Hub.minted, hmime]
    rfl
  rw [sendable_iff (hmeta ▸ hj) rfl hfits, hmeta, Hub.MetaFits]

/-- A clip of the user can be sent exactly when its meta fits into 16 KiB; a clip that is forwarded always
can. -/
theorem emitted_sendable_iff [Sha256] [Json Current] {B : Backend σ} {hub : Hub σ} {item : Item} (now : ℕ)
    (saves : Bool) (hB : Shipped σ B) (hhash : item.hash = "" ∨ item.hash = Protocol.hash item.data)
    (hj : JsonRoundTrip (hub.packedMeta item)) :
    (∀ clip, (hub.localObserved now saves item).res = .ok (some clip) →
        (Sendable clip ↔ hub.MetaFits item)) ∧
      (∀ clip, (hub.localPush B now saves item).res = .ok clip → (Sendable clip ↔ hub.MetaFits item)) ∧
      ∀ payload clip peer, decodeClip payload = .ok clip → Reencodes clip.clipMeta →
        ∀ out ∈ (hub.applyFrom B now clip peer).out, Sendable out.clip := by
  refine ⟨fun clip hres => ?_, fun clip hres => ?_, fun payload clip peer hd hre out hout => ?_⟩
  · have h := Hub.localObserved_observed now saves item hub
    generalize hub.localObserved now saves item = ret at h hres
    cases h with
    | skipped hn => cases hres
    | unsaved hn hs => cases hres
    | sent hn hs =>
      obtain rfl := Option.some.inj (Except.ok.inj hres)
      rw [hashed_hash hhash]
      exact minted_sendable_iff rfl hj hn.fits
  · have h := Hub.localPush_pushed B now saves item hub
    generalize hub.localPush B now saves item = ret at h hres
    cases h with
    | tooLarge hl => cases hres
    | failed hl e clipboard hset => cases hres
    | unsaved hl hs stored clipboard hset => cases hres
    | sent hl hs stored clipboard hset =>
      obtain rfl := Except.ok.inj hres
      obtain ⟨hdata, hhash', hname, hkind⟩ :=
        hB.faithful _ _ _ _ (Hub.hashed_hash_ne item) hset
      have hdata' : stored.data = item.data := hdata
      have hname' : stored.name = item.name := hname
      rw [hashed_hash hhash] at hhash'
      rw [hdata', hname', hhash']
      refine minted_sendable_iff ?_ hj hl
      rw [← hdata']
      exact hkind
  · rw [Hub.applyFrom_out] at hout
    split_ifs at hout with hf
    · obtain rfl := List.mem_singleton.mp hout
      exact sendable_decoded hd hf.1 hre
    · cases hout

end

/-! ### A short and a long kind of text -/

def relayHub : Hub (Option Item) := Hub.new relayClip.clipMeta.originId none ⟨⟨0, []⟩, ⟨0, []⟩⟩ 5

theorem localPush_memory [Sha256] {item : Item} (hub : Hub (Option Item)) (h : item.data.length ≤ maxClip) :
    (hub.localPush memory 0 true item).res =
        .ok (hub.minted item.mime item.name item.data (Hub.hashed item).hash) ∧
      (hub.localPush memory 0 true item).out =
        [⟨hub.minted item.mime item.name item.data (Hub.hashed item).hash, none⟩] := by
  have hp := Hub.localPush_pushed memory 0 true item hub
  generalize hub.localPush memory 0 true item = ret at hp
  cases hp with
  | tooLarge hl => exact absurd hl (Nat.not_lt.mpr h)
  | failed hl e clipboard hset => cases hset
  | unsaved hl hs stored clipboard hset => cases hs
  | sent hl hs stored clipboard hset =>
    have hne := Hub.hashed_hash_ne item
    obtain ⟨hdata, hh, hname, -⟩ := memory_faithful _ _ _ _ hne hset
    have hmime : stored.mime = item.mime := by
      obtain ⟨hok, -⟩ := Prod.mk.inj hset
      obtain rfl := Except.ok.inj hok
      rfl
    rw [hdata, hh, hname, hmime]
    exact ⟨rfl, rfl⟩

theorem relayHub_sends :
    letI := sampleSha256
    letI := sampleMetaJson
    ∃ clip, (relayHub.localPush memory 0 true hiItem).res = .ok clip ∧ Sendable clip := by
  let _ := sampleSha256
  let _ := sampleMetaJson
  let _ : Json Current := ⟨fun _ => [], fun _ => none⟩
  have hmeta : relayHub.packedMeta hiItem = relayClip.clipMeta := by decide +kernel
  have hres := (localPush_memory relayHub (show hiItem.data.length ≤ maxClip by decide)).1
  refine ⟨_, hres, ((emitted_sendable_iff 0 true .memory (.inr rfl) ?_).2.1 _ hres).mpr ?_⟩
  · rw [hmeta]
    exact sampleMetaJson_roundTrip
  · rw [Hub.MetaFits, hmeta]
    exact relayClip_encodable.metaFits

def letters (n : ℕ) : String := String.ofList (List.replicate n 'a')

theorem letters_length (n : ℕ) : (letters n).toList.length = n := by
  rw [letters, String.toList_ofList, List.length_replicate]

/-- `hi`, of a kind of 17000 letters. -/
def longItem [Sha256] : Item := { hiItem with mime := letters 17000 }

theorem length_le_left (s t : String) : s.toList.length ≤ (s ++ t).toList.length := by
  rw [String.toList_append, List.length_append]
  exact Nat.le_add_right _ _

theorem length_le_right (s t : String) : t.toList.length ≤ (s ++ t).toList.length := by
  rw [String.toList_append, List.length_append]
  exact Nat.le_add_left _ _

theorem metaBytes_mime (m : ClipMeta) : m.mime.toList.length ≤ (metaBytes m).length := by
  rw [metaBytes, List.length_map]
  unfold metaText
  generalize (if m.name = "" then "" else ",\"name\":\"" ++ m.name ++ "\"") = name
  apply Nat.le_trans (length_le_right _ _)
  -- What stands after the mime.
  apply Nat.le_trans (length_le_left _ _)
  apply Nat.le_trans (length_le_left _ _)
  apply Nat.le_trans (length_le_left _ _)
  apply Nat.le_trans (length_le_left _ _)
  apply Nat.le_trans (length_le_left _ _)
  exact length_le_left _ _

/-- It is emitted, and no session can write it. -/
theorem longItem_emitted :
    letI := sampleSha256
    letI := sampleMetaJson
    ∃ clip, (relayHub.localPush memory 0 true longItem).res = .ok clip ∧
      (relayHub.localPush memory 0 true longItem).out = [⟨clip, none⟩] ∧ ¬ Sendable clip := by
  let _ := sampleSha256
  let _ := sampleMetaJson
  have htwo : 2 ≤ maxClip := by decide
  obtain ⟨hres, hout⟩ := localPush_memory relayHub (show longItem.data.length ≤ maxClip from htwo)
  refine ⟨_, hres, hout, ?_⟩
  rintro ⟨body, frame, received, hbody, -⟩
  have hlen : longItem.mime.toList.length = 17000 := letters_length 17000
  generalize hclip : relayHub.minted longItem.mime longItem.name longItem.data (Hub.hashed longItem).hash = clip
    at hbody
  have hmime : clip.clipMeta.mime = longItem.mime := by
    rw [← hclip, Hub.minted]
    dsimp only
    refine if_neg fun hempty => ?_
    rw [hempty] at hlen
    exact absurd hlen (by decide)
  have hlong : maxMeta < (metaBytes (sized clip)).length := by
    refine Nat.lt_of_lt_of_le ?_ (metaBytes_mime (sized clip))
    change maxMeta < clip.clipMeta.mime.toList.length
    rw [hmime, hlen]
    decide
  obtain ⟨e, he⟩ := encodeClipBody_error fun h : Encodable clip => Nat.not_le.mpr hlong h.metaFits
  rw [he] at hbody
  cases hbody

end Zsync
