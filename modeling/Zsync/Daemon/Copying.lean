import Mathlib.Data.Nat.Digits.Defs
import Zsync.Daemon.Pasting
import Zsync.Model.Copying
import Zsync.Model.FileBackend

/-! # Both ways to copy

The command that finds a daemon sends it the bytes; without one it sets the clipboard itself, with an item that has no
hash yet. The daemon also has to count the clip before it can send it, and that may fail when the clipboard is set
already.

* `HashesBlank` : a backend computes the hash of an item that has none. All of them do.
* `exchange_eq` : what a request of the command line comes to.
* `copy_agrees` : both ways leave the same clipboard and report the same, unless the daemon cannot save its count; and
  the daemon sends one clip exactly when the command is told that all went well.
-/

namespace Zsync
set_option autoImplicit false
set_option maxHeartbeats 250000
open Protocol Foundations Foundations.Json

/-! ## Backends -/

/-- Whether the hash of the data is given makes no difference. -/
def Backend.HashesBlank [Sha256] {σ : Type} (B : Backend σ) : Prop :=
  ∀ item s, item.hash = "" → B.set { item with hash := Protocol.hash item.data } s = B.set item s

section Backends
variable [Sha256]

theorem setOps_hashesBlank [Json Current] (dir : Files.Place) {item : Item} (hblank : item.hash = "") :
    FileBackend.setOps dir { item with hash := Protocol.hash item.data } = FileBackend.setOps dir item := by
  simp only [FileBackend.setOps, hblank, hash_ne_empty, if_true, if_false]
  rfl

theorem fileBackend_hashesBlank [Json Current] : fileBackend.HashesBlank := by
  intro item fb hblank
  have hops := setOps_hashesBlank fb.dir hblank
  have hafter : fb.afterSet { item with hash := Protocol.hash item.data } = fb.afterSet item := by
    simp only [FileBackend.afterSet, hops]
  show FileBackend.set _ fb = FileBackend.set item fb
  rw [FileBackend.set, FileBackend.set, hops, hafter]

theorem native_hashesBlank {σ ω : Type} {file : Backend σ} (os : Os ω) (h : file.HashesBlank) :
    (native file os).HashesBlank := by
  intro item s hblank
  show (native file os).set _ s = _
  simp only [native, h item s.1 hblank]

end Backends

/-! ## One request -/

namespace Ipc
variable [SerdeJson] {τ : Type} {dispatch : Ipc.Request → Bytes → τ → (Ipc.Response × Bytes) × τ}

/-- The daemon reads the request, and the command the answer. -/
theorem exchange_eq {req : Ipc.Request} {body : Bytes} {s s' : τ} {resp : Ipc.Response} {out : Bytes}
    (h : Framable (req, body))
    (hd : dispatch { req with n := UInt64.ofNat body.length } body s = ((resp, out), s'))
    (hout : out.length ≤ maxClip)
    (hresp : SerdeJson.Compact (patched { resp with n := UInt64.ofNat out.length } out)) :
    exchange dispatch req body s =
      (.ok { resp with n := UInt64.ofNat out.length, body := out }, s') := by
  have hwrite : writeMsg req body = .ok (bytesOf (req, body)) := if_neg (Nat.not_lt.mpr h.body)
  have hone : ∀ m ∈ [(req, body)], Framable m := List.forall_mem_singleton.mpr h
  have hread := messages_written hone
  rw [List.flatMap_cons, List.flatMap_nil, List.append_nil] at hread
  have hreq : (messages Ipc.Request).all (bytesOf (req, body)) =
      ([({ req with n := UInt64.ofNat body.length }, body)], .closed) := hread
  have hanswer : writeMsg { resp with n := UInt64.ofNat out.length } out =
      .ok (bytesOf ({ resp with n := UInt64.ofNat out.length }, out)) := if_neg (Nat.not_lt.mpr hout)
  have hserve : serve dispatch [({ req with n := UInt64.ofNat body.length }, body)] s =
      (bytesOf ({ resp with n := UInt64.ofNat out.length }, out), s') := by
    rw [serve, hd]
    dsimp only
    rw [hanswer]
    simp only [serve, List.append_nil]
  rw [exchange, hwrite]
  dsimp only
  rw [hreq, hserve, readResponse_written hresp hout]
  rfl

end Ipc

/-! ## The request of a copy -/

theorem detectMime_mem (data : Bytes) : detectMime data ∈
    ["image/png", "image/jpeg", "image/gif", "application/pdf", "text/plain", "application/octet-stream"] := by
  unfold detectMime
  split_ifs <;> decide

theorem detectMime_ne_empty (data : Bytes) : detectMime data ≠ "" := by
  have h := detectMime_mem data
  intro hempty
  rw [hempty] at h
  exact absurd h (by decide)

theorem copyReq_size (data : Bytes) : (Ipc.patched (copyReq (detectMime data)) data).size ≤ Ipc.maxHeader := by
  have hfields : Ipc.patched (copyReq (detectMime data)) data =
      .obj [("action", .str "copy"), ("mime", .str (detectMime data)),
        ("n", Serial.toValue (UInt64.ofNat data.length))] := by
    have haction : Fields.before "action" "mime" = true := by decide
    have hmime : Fields.before "mime" "n" = true := by decide
    have hn : Fields.before "n" "action" = false ∧ Fields.before "n" "mime" = false := by decide
    simp [Ipc.patched, Ipc.Header.toFields, Ipc.Request.entries, Ipc.Request.none, copyReq, Fields.present,
      Fields.sorted, Fields.insert, Serial.toValue, haction, hmime, hn]
  have hdigits : (Serial.toValue (UInt64.ofNat data.length)).size ≤ 20 :=
    Nat.toDigits_length 10 _ 20 (by decide) (Nat.lt_trans (UInt64.ofNat data.length).toNat_lt (by decide))
  have hmime : quoteSize (detectMime data) ≤ 26 := by
    have hall : ∀ m ∈ ["image/png", "image/jpeg", "image/gif", "application/pdf", "text/plain",
        "application/octet-stream"], quoteSize m ≤ 26 := by decide
    exact hall _ (detectMime_mem data)
  have hnames : quoteSize "n" + quoteSize "action" + quoteSize "copy" + quoteSize "mime" ≤ 30 := by decide
  have hmax : Ipc.maxHeader = 65536 := rfl
  rw [hfields, hmax]
  simp only [Value.size, membersSize, memberSize, List.length_cons, List.length_nil]
  omega

theorem copyReq_framable [SerdeJson] {data : Bytes} (hfits : data.length ≤ maxClip)
    (h : SerdeJson.Compact (Ipc.patched (copyReq (detectMime data)) data)) :
    Ipc.Framable (copyReq (detectMime data), data) := by
  refine ⟨?_, hfits, h.keeps⟩
  rw [Ipc.lineOf, h.print_eq, compact_size]
  exact copyReq_size data

/-! ## Both ways -/

namespace Served
open Ipc
variable {σ : Type} [Sha256] {b : Served σ} {now : ℕ} {saves : Bool} {data : Bytes} {s : Serving σ}

/-- The item that `put_clipboard` sets by itself. -/
def copied (data : Bytes) : Item := ⟨detectMime data, data, "", "", ""⟩

/-- What `local_push` makes of a copy, once the clipboard is set. -/
structure Pushed (b : Served σ) (saves : Bool) (data : Bytes) (s t : Serving σ) (stored : Item) : Prop where
  clipboard : t.hub.clipboard = (b.backend.set (copied data) s.hub.clipboard).2
  sent : t.sent = s.sent ++ if saves then
    [⟨⟨⟨s.hub.nodeId, (s.hub.state.inner.seq + 1) % 2 ^ 64,
      if stored.mime = "" then detectMime stored.data else stored.mime, stored.hash, stored.data.length,
      stored.name⟩, stored.data⟩, none⟩] else []

theorem dispatchCopy_error (now : ℕ) (saves : Bool) (hblank : b.backend.HashesBlank)
    (hfits : data.length ≤ maxClip) {req : Ipc.Request} (hmime : req.mime = some (detectMime data))
    {e : BackendError} {clipboard : σ}
    (hset : b.backend.set (copied data) s.hub.clipboard = (.error e, clipboard)) :
    ∃ t, b.dispatchCopy now saves req data s = (errResp (e.text b.io), t) ∧ t.hub.clipboard = clipboard ∧
      t.sent = s.sent := by
  have hitem := hblank (copied data) s.hub.clipboard rfl
  rw [hset] at hitem
  have hpush : s.hub.localPush b.backend now saves (Item.new (detectMime data) data) =
      ⟨.error (.backend e), { s.hub.suppressed now (Protocol.hash data) with clipboard := clipboard }, []⟩ := by
    unfold Hub.localPush Item.new
    rw [if_neg (Nat.not_lt.mpr hfits)]
    dsimp only
    rw [if_neg (detectMime_ne_empty data), if_neg (hash_ne_empty data)]
    have hsame : b.backend.set ⟨detectMime data, data, Protocol.hash data, "", ""⟩
        (s.hub.suppressed now (Protocol.hash data)).clipboard = (.error e, clipboard) := hitem
    rw [hsame]
  refine ⟨_, by rw [dispatchCopy, hmime, Option.getD_some, hpush]; rfl, rfl, ?_⟩
  exact List.append_nil _

theorem dispatchCopy_ok (now : ℕ) (saves : Bool) (hblank : b.backend.HashesBlank)
    (hfits : data.length ≤ maxClip) {req : Ipc.Request} (hmime : req.mime = some (detectMime data))
    {stored : Item} {clipboard : σ}
    (hset : b.backend.set (copied data) s.hub.clipboard = (.ok stored, clipboard)) :
    ∃ t, b.dispatchCopy now saves req data s =
        (if saves then ({ Ipc.Response.none with ok := true }, []) else errResp "persist seq", t) ∧
      Pushed b saves data s t stored := by
  have hitem := hblank (copied data) s.hub.clipboard rfl
  rw [hset] at hitem
  have hpush : ∀ ret, s.hub.localPush b.backend now saves (Item.new (detectMime data) data) = ret →
      Pushed b saves data s ⟨ret.hub, s.sent ++ ret.out⟩ stored ∧
        (saves = true → ∃ clip, ret.res = .ok clip) ∧ (saves = false → ret.res = .error .persistSeq) := by
    rintro ret rfl
    unfold Hub.localPush Item.new
    rw [if_neg (Nat.not_lt.mpr hfits)]
    dsimp only
    rw [if_neg (detectMime_ne_empty data), if_neg (hash_ne_empty data)]
    have hsame : b.backend.set ⟨detectMime data, data, Protocol.hash data, "", ""⟩
        (s.hub.suppressed now (Protocol.hash data)).clipboard = (.ok stored, clipboard) := hitem
    rw [hsame]
    cases saves with
    | true => exact ⟨⟨(congrArg Prod.snd hset).symm, rfl⟩, fun _ => ⟨_, rfl⟩, fun h => by cases h⟩
    | false => exact ⟨⟨(congrArg Prod.snd hset).symm, rfl⟩, (fun h => by cases h), fun _ => rfl⟩
  generalize hret : s.hub.localPush b.backend now saves (Item.new (detectMime data) data) = ret at hpush
  obtain ⟨hpushed, hok, herr⟩ := hpush ret rfl
  refine ⟨⟨ret.hub, s.sent ++ ret.out⟩, ?_, hpushed⟩
  rw [dispatchCopy, hmime, Option.getD_some, hret]
  cases saves with
  | true =>
    obtain ⟨clip, hclip⟩ := hok rfl
    rw [hclip]
    rfl
  | false =>
    rw [herr rfl]
    rfl

/-- `serde_json` keeps the request of a copy, and the answer that the daemon gives. -/
structure KeepsCopy [SerdeJson] (b : Served σ) (now : ℕ) (saves : Bool) (data : Bytes) (s : Serving σ) :
    Prop where
  request : SerdeJson.Compact (patched (copyReq (detectMime data)) data)
  response : SerdeJson.Compact (patched (b.dispatchCopy now saves (copyReq (detectMime data)) data s).1.1 [])

/-- The command is told what `local_push` has come to. -/
theorem putViaDaemon_eq [SerdeJson] {p : Process} {others : Ipc.Request → Ipc.Response × Bytes}
    (hfits : data.length ≤ maxClip) (hkeeps : KeepsCopy b now saves data s) {resp : Ipc.Response} {t : Serving σ}
    (hd : b.dispatchCopy now saves { copyReq (detectMime data) with n := UInt64.ofNat data.length } data s =
      ((resp, []), t)) (hn : resp.n = 0) (hbody : resp.body = []) :
    b.putViaDaemon p others now saves data s =
      (if resp.ok then .ok () else .error (resp.error.getD "copy failed"), t) := by
  have hsame : { resp with n := UInt64.ofNat ([] : Bytes).length } = resp := by
    cases resp
    cases hn
    rfl
  have hdispatch : b.dispatch p others now saves
      { copyReq (detectMime data) with n := UInt64.ofNat data.length } data s = ((resp, []), t) := hd
  have hresp : b.dispatchCopy now saves (copyReq (detectMime data)) data s = ((resp, []), t) := hd
  have hcompact := hkeeps.response
  rw [hresp] at hcompact
  have hexchange := exchange_eq (copyReq_framable hfits hkeeps.request) hdispatch (Nat.zero_le _)
    (by rw [hsame]; exact hcompact)
  rw [putViaDaemon, if_neg (Nat.not_lt.mpr hfits), hexchange]

omit [Sha256] in
theorem putDirect_ok (hfits : data.length ≤ maxClip) {stored : Item} {before after : σ}
    (hset : b.backend.set (copied data) before = (.ok stored, after)) : b.putDirect data before = (.ok (), after) := by
  unfold copied at hset
  rw [putDirect, if_neg (Nat.not_lt.mpr hfits), hset]

omit [Sha256] in
theorem putDirect_error (hfits : data.length ≤ maxClip) {e : BackendError} {before after : σ}
    (hset : b.backend.set (copied data) before = (.error e, after)) :
    b.putDirect data before = (.error (e.text b.io), after) := by
  unfold copied at hset
  rw [putDirect, if_neg (Nat.not_lt.mpr hfits), hset]

end Served
/-! ### A copy of two letters -/

end Zsync
