import Zsync.Model.Ipc

/-! # Streams of IPC messages

What any number of calls of `write_msg` put on a connection is read back by the loop of `handle_ipc`: a body
may hold any bytes, newlines too, and a text in a header any characters.

* `messages_written` : for any type of headers.
* `requests_framed` : for the requests that `handle_ipc` reads.
-/

namespace Zsync
set_option autoImplicit false
set_option maxHeartbeats 250000
open Protocol Foundations Foundations.Json

namespace Ipc
variable {η : Type} [Header η] [SerdeJson]

/-- What the calls of `write_msg` put on a connection, in order. -/
def writeMsgs : List (η × Bytes) → Except String Bytes
  | [] => .ok []
  | (header, body) :: ms => do
    let bytes ← writeMsg header body
    let rest ← writeMsgs ms
    .ok (bytes ++ rest)

/-- A message that can be written and read: its line fits, its body fits, and `serde_json` keeps the value. -/
structure Framable (m : η × Bytes) : Prop where
  line : (lineOf m.1 m.2).length ≤ maxHeader
  body : m.2.length ≤ maxClip
  keeps : SerdeJson.Keeps (patched m.1 m.2)

def bytesOf (m : η × Bytes) : Bytes := lineOf m.1 m.2 ++ newline :: m.2

theorem writeMsgs_ok {ms : List (η × Bytes)} (h : ∀ m ∈ ms, Framable m) :
    writeMsgs ms = .ok (ms.flatMap bytesOf) := by
  induction ms with
  | nil => rfl
  | cons m ms ih =>
    obtain ⟨hm, hms⟩ := List.forall_mem_cons.mp h
    have hwrite : writeMsg m.1 m.2 = .ok (bytesOf m) := if_neg (Nat.not_lt.mpr hm.body)
    rw [writeMsgs, hwrite, ih hms]
    rfl

/-- The messages come out in order, and then the connection is closed. -/
theorem messages_written {ms : List (η × Bytes)} (h : ∀ m ∈ ms, Framable m) :
    (messages η).all (ms.flatMap bytesOf) =
      (ms.map fun m => (Header.received (UInt64.ofNat m.2.length) m.1, m.2), .closed) := by
  have hend : (messages η).take [] = .error .closed := rfl
  refine (messages η).all_written hend fun m hm rest => ?_
  obtain ⟨hline, hbody, hkeeps⟩ := h m hm
  exact readMessage_written hkeeps hline hbody rest

/-- Whatever is in the headers and bodies, the loop of `handle_ipc` reads what was written, and each header
tells the length of its body. -/
theorem requests_framed {ms : List (Request × Bytes)} (h : ∀ m ∈ ms, Framable m) :
    ∃ stream, writeMsgs ms = .ok stream ∧
      (messages Request).all stream =
        (ms.map fun m => ({ m.1 with n := UInt64.ofNat m.2.length }, m.2), .closed) ∧
      ∀ m ∈ ((messages Request).all stream).1, m.1.n.toNat = m.2.length := by
  have hread := messages_written h
  refine ⟨_, writeMsgs_ok h, hread, fun m hm => ?_⟩
  rw [hread] at hm
  obtain ⟨m', hm', rfl⟩ := List.mem_map.mp hm
  exact toNat_length (h m' hm').body

/-! ### Two requests -/

/-- A text with a newline and quotes, after which the body follows; the length in the header is stale. -/
def copyRequest : Request × Bytes :=
  ({ Request.none with action := "copy", mime := some "te\nxt/\"plain\"", n := 7 }, [10, 123, 10])

def pasteRequest : Request × Bytes := ({ Request.none with action := "paste", pathOnly := some false }, [])

/-- `serde_json` at the headers of both. -/
abbrev sampleSerde : SerdeJson where
  print := Value.compact
  parse := fun text =>
    if text = (patched copyRequest.1 copyRequest.2).compact then some (patched copyRequest.1 copyRequest.2)
    else if text = (patched pasteRequest.1 pasteRequest.2).compact then
      some (patched pasteRequest.1 pasteRequest.2)
    else none

omit [SerdeJson] in
theorem twoRequests_framed :
    letI := sampleSerde
    ∃ stream, writeMsgs [copyRequest, pasteRequest] = .ok stream ∧
      (messages Request).all stream =
        ([({ copyRequest.1 with n := 3 }, [10, 123, 10]), (pasteRequest.1, [])], .closed) := by
  let _ := sampleSerde
  have hcopy : Framable copyRequest := ⟨by decide +kernel, by decide, ⟨by decide +kernel, if_pos rfl⟩⟩
  have hne : ¬ (patched pasteRequest.1 pasteRequest.2).compact =
      (patched copyRequest.1 copyRequest.2).compact := by decide +kernel
  have hpaste : Framable pasteRequest :=
    ⟨by decide +kernel, by decide, ⟨by decide +kernel, (if_neg hne).trans (if_pos rfl)⟩⟩
  have hall : ∀ m ∈ [copyRequest, pasteRequest], Framable m := by simp [hcopy, hpaste]
  obtain ⟨stream, hwrite, hread, -⟩ := requests_framed hall
  exact ⟨stream, hwrite, hread⟩

end Ipc
end Zsync
