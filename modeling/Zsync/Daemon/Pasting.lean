import Zsync.Model.Paste
import Zsync.Wire.IpcStreams

/-! # Both ways to paste

The daemon sends what it would have pasted over a connection whose messages have a limit. The clipboard of the
operating system has none.

* `readResponse_written` : a response that was written is read back with its body.
* `paste_agrees_iff` : both ways give the same response, or the same error, exactly for contents that fit into
  a message.
-/

namespace Zsync
set_option autoImplicit false
set_option maxHeartbeats 250000
open Protocol Foundations Foundations.Json

namespace Ipc

/-! ## One answer -/

theorem bufLine_append {line : Bytes} (h : newline ∉ line) (rest : Bytes) :
    bufLine (line ++ newline :: rest) = (line ++ [newline], rest) := by
  have hall : ∀ b ∈ line, decide (b ≠ newline) = true := fun b hb => decide_eq_true fun heq => h (heq ▸ hb)
  have hspan : (line ++ newline :: rest).span (fun b => b ≠ newline) = (line, newline :: rest) := by
    rw [List.span_eq_takeWhile_dropWhile, List.takeWhile_append_of_pos hall, List.dropWhile_append_of_pos hall]
    simp
  rw [bufLine, hspan]

/-- The braces of an object stand at its ends. -/
theorem trim_compact (fields : Fields) :
    trim ((Value.obj fields).compact ++ ['\n']) = (Value.obj fields).compact := by
  rw [Value.compact]
  generalize members true fields = ms
  have hopen : isWhitespace '{' = false := by decide
  have hclose : isWhitespace '}' = false := by decide
  have hnl : isWhitespace '\n' = true := by decide
  have hrev : ('{' :: (ms ++ ['}']) ++ ['\n']).reverse = '\n' :: '}' :: ('{' :: ms).reverse := by simp
  unfold trim
  rw [List.cons_append, List.dropWhile_cons_of_neg (by simp [hopen]), ← List.cons_append, hrev,
    List.dropWhile_cons_of_pos hnl, List.dropWhile_cons_of_neg (by simp [hclose])]
  simp

variable [SerdeJson]

/-- A response that was written is read back, and nothing is left over. -/
theorem readResponse_written {resp : Response} {body : Bytes} (h : SerdeJson.Compact (patched resp body))
    (hbody : body.length ≤ maxClip) :
    readResponse (bytesOf (resp, body)) = .ok { resp with n := UInt64.ofNat body.length, body := body } := by
  have hn := toNat_length hbody
  have hline := bufLine_append (newline_notMem_lineOf h.keeps) body
  have htext : ofUtf8 (lineOf resp body ++ [newline]) = some ((patched resp body).compact ++ ['\n']) := by
    have hnl : [newline] = utf8 ['\n'] := rfl
    rw [lineOf, h.print_eq, hnl, ← utf8_append, ofUtf8_utf8]
  have htrim : trim ((patched resp body).compact ++ ['\n']) = (patched resp body).compact := trim_compact _
  have hexact : readExactBody body.length body = .ok (body, []) := by
    rw [readExactBody, if_neg (Nat.not_lt.mpr hbody)]
    have hread := readExact_append IpcError.eof body []
    rwa [List.append_nil] at hread
  have hvalue : fromValue Response (patched resp body) =
      some { resp with n := UInt64.ofNat body.length, body := [] } := fromValue_patched resp body
  unfold readResponse bytesOf
  rw [hline]
  dsimp only
  rw [if_neg (by simp), htext]
  dsimp only
  rw [htrim, h.parse_compact, Option.bind_some, hvalue]
  dsimp only
  rw [hn, hexact]
  rfl

/-- A connection on which the daemon has written nothing. -/
theorem readResponse_nil : readResponse [] = .error .closed := rfl

/-- The daemon reads the one request that a command sends. -/
theorem handleIpc_written {dispatch : Request → Bytes → Response × Bytes} {req : Request} {body : Bytes}
    (h : Framable (req, body)) : handleIpc dispatch (bytesOf (req, body)) =
      answers dispatch [({ req with n := UInt64.ofNat body.length }, body)] := by
  have hone : ∀ m ∈ [(req, body)], Framable m := List.forall_mem_singleton.mpr h
  have hread := messages_written hone
  rw [List.flatMap_cons, List.flatMap_nil, List.append_nil] at hread
  rw [handleIpc, hread]
  rfl

/-- What a command is told. -/
theorem roundtrip_eq {dispatch : Request → Bytes → Response × Bytes} {req : Request} {body : Bytes}
    (h : Framable (req, body)) :
    roundtrip dispatch req body =
      match readResponse (answers dispatch [({ req with n := UInt64.ofNat body.length }, body)]) with
      | .ok resp => .ok resp
      | .error e => .error e.message := by
  have hwrite : writeMsg req body = .ok (bytesOf (req, body)) := if_neg (Nat.not_lt.mpr h.body)
  rw [← handleIpc_written h, roundtrip, hwrite]
  rfl

theorem answers_single {dispatch : Request → Bytes → Response × Bytes} {req : Request} {body : Bytes}
    {resp : Response} {out : Bytes} (h : dispatch req body = (resp, out)) :
    answers dispatch [(req, body)] =
      if maxClip < out.length then [] else bytesOf ({ resp with n := UInt64.ofNat out.length }, out) := by
  rw [answers, h]
  dsimp only
  unfold writeMsg
  split_ifs
  · rfl
  · exact List.append_nil _

/-! ## The result -/

/-- `serde_json` keeps the request of a paste, and the response where it is printed. -/
structure KeepsPaste (b : Shown) (wantPath wantContent : Bool) : Prop where
  request : SerdeJson.Compact (patched (pasteReq wantPath wantContent) [])
  response : (dispatchPaste b).2.length ≤ maxClip →
    SerdeJson.Compact (patched (dispatchPaste b).1 (dispatchPaste b).2)

theorem pasteReq_framable {b : Shown} {wantPath wantContent : Bool} (h : KeepsPaste b wantPath wantContent) :
    Framable (pasteReq wantPath wantContent, []) := by
  refine ⟨?_, Nat.zero_le _, h.request.keeps⟩
  have hall : ∀ p c : Bool, (patched (pasteReq p c) []).size ≤ maxHeader := by decide
  rw [lineOf, h.request.print_eq, compact_size]
  exact hall wantPath wantContent

omit [SerdeJson] in
theorem dispatchPaste_n (b : Shown) :
    { (dispatchPaste b).1 with n := UInt64.ofNat (dispatchPaste b).2.length } = (dispatchPaste b).1 := by
  unfold dispatchPaste
  cases b.get with
  | error e => rfl
  | ok o =>
    cases o with
    | none => rfl
    | some item => rfl

/-- The content reaches the command whole, or the daemon closes the connection. -/
theorem roundtrip_paste {b : Shown} {others : Request → Bytes → Response × Bytes} {wantPath wantContent : Bool}
    (h : KeepsPaste b wantPath wantContent) :
    roundtrip (dispatch b others) (pasteReq wantPath wantContent) [] =
      if maxClip < (dispatchPaste b).2.length then .error "ipc: connection closed"
      else .ok { (dispatchPaste b).1 with body := (dispatchPaste b).2 } := by
  have hdispatch : dispatch b others { pasteReq wantPath wantContent with n := UInt64.ofNat 0 } [] =
      ((dispatchPaste b).1, (dispatchPaste b).2) := if_pos rfl
  rw [roundtrip_eq (pasteReq_framable h), List.length_nil, answers_single hdispatch, dispatchPaste_n]
  by_cases hlong : maxClip < (dispatchPaste b).2.length
  · rw [if_pos hlong, if_pos hlong, readResponse_nil]
    rfl
  · have hle := Nat.not_lt.mp hlong
    have hread := readResponse_written (h.response hle) hle
    have hn := congrArg (fun r => { r with body := (dispatchPaste b).2 }) (dispatchPaste_n b)
    dsimp only at hn
    rw [if_neg hlong, if_neg hlong, hread, hn]

theorem pasteViaDaemon_fits {b : Shown} {others : Request → Bytes → Response × Bytes}
    {wantPath wantContent : Bool} (h : KeepsPaste b wantPath wantContent)
    (hfits : ∀ item, b.get = .ok (some item) → item.data.length ≤ maxClip) :
    pasteViaDaemon b others wantPath wantContent = pasteDirect b wantPath wantContent := by
  have hlen : ¬ maxClip < (dispatchPaste b).2.length := by
    unfold dispatchPaste
    cases hget : b.get with
    | error e => exact Nat.not_lt_zero _
    | ok o =>
      cases o with
      | none => exact Nat.not_lt_zero _
      | some item => exact Nat.not_lt.mpr (hfits item hget)
  unfold pasteViaDaemon pasteDirect
  split_ifs
  · rfl
  · rw [roundtrip_paste h, if_neg hlen]
    unfold dispatchPaste
    cases b.get with
    | error e => rfl
    | ok o =>
      cases o with
      | none => rfl
      | some item => rfl

theorem pasteViaDaemon_long {b : Shown} {others : Request → Bytes → Response × Bytes}
    {wantPath wantContent : Bool} {item : Item} (h : KeepsPaste b wantPath wantContent)
    (hone : (wantPath && wantContent) = false) (hget : b.get = .ok (some item))
    (hlong : maxClip < item.data.length) :
    pasteViaDaemon b others wantPath wantContent = .error "ipc: connection closed" := by
  have hlen : maxClip < (dispatchPaste b).2.length := by
    rw [dispatchPaste, hget]
    exact hlong
  rw [pasteViaDaemon, hone, roundtrip_paste h, if_pos hlen]
  rfl

/-- What `write_paste` looks at. -/
def Response.pasted (r : Response) : Option String × Option String × Option String × Option Bool × Bytes :=
  (r.mime, r.name, r.path, r.headless, r.body)

/-- With both flags there is an error on both ways. -/
theorem paste_agrees_iff {b : Shown} {others : Request → Bytes → Response × Bytes} {wantPath wantContent : Bool}
    (h : KeepsPaste b wantPath wantContent) :
    (pasteViaDaemon b others wantPath wantContent).map Response.pasted =
        (pasteDirect b wantPath wantContent).map Response.pasted ↔
      (wantPath && wantContent) = true ∨
        ∀ item, b.get = .ok (some item) → item.data.length ≤ maxClip := by
  by_cases hboth : (wantPath && wantContent) = true
  · have hvia : pasteViaDaemon b others wantPath wantContent = pasteDirect b wantPath wantContent := by
      rw [pasteViaDaemon, pasteDirect, if_pos hboth, if_pos hboth]
    exact iff_of_true (congrArg (Except.map Response.pasted) hvia) (Or.inl hboth)
  · by_cases hfits : ∀ item, b.get = .ok (some item) → item.data.length ≤ maxClip
    · exact iff_of_true (congrArg (Except.map Response.pasted) (pasteViaDaemon_fits h hfits)) (Or.inr hfits)
    · refine iff_of_false ?_ (not_or.mpr ⟨hboth, hfits⟩)
      push Not at hfits
      obtain ⟨item, hget, hlong⟩ := hfits
      have hone := Bool.not_eq_true _ |>.mp hboth
      rw [pasteViaDaemon_long h hone hget hlong, pasteDirect, if_neg hboth, hget]
      intro heq
      cases heq

/-! ### A content that fits, and one that does not -/

/-- A copied file on a machine without a display. -/
def shownFile (data : Bytes) : Shown where
  get := .ok (some ⟨"image/png", data, "", "", "cat.png"⟩)
  headless := true
  currentPath := "/home/me/.local/share/zsync/current.png"

/-- `serde_json` at the request and the response. -/
abbrev pasteSerde (b : Shown) : SerdeJson where
  print := Value.compact
  parse := fun text =>
    if text = (patched (pasteReq false true) []).compact then some (patched (pasteReq false true) [])
    else if text = (patched (dispatchPaste b).1 (dispatchPaste b).2).compact then
      some (patched (dispatchPaste b).1 (dispatchPaste b).2)
    else none

def noOthers : Request → Bytes → Response × Bytes := fun req _ => errResp ("unknown action " ++ req.action)

omit [SerdeJson] in
/-- The body holds a newline. -/
theorem shownFile_pasted :
    letI := pasteSerde (shownFile [10, 7])
    (pasteViaDaemon (shownFile [10, 7]) noOthers false true).map Response.pasted =
      .ok (some "image/png", some "cat.png", some "/home/me/.local/share/zsync/current.png", some true, [10, 7]) := by
  let _ := pasteSerde (shownFile [10, 7])
  have hne : ¬ (patched (dispatchPaste (shownFile [10, 7])).1 (dispatchPaste (shownFile [10, 7])).2).compact =
      (patched (pasteReq false true) []).compact := by decide +kernel
  have hkeeps : KeepsPaste (shownFile [10, 7]) false true :=
    ⟨⟨rfl, if_pos rfl⟩, fun _ => ⟨rfl, (if_neg hne).trans (if_pos rfl)⟩⟩
  have hfits : ∀ item, (shownFile [10, 7]).get = .ok (some item) → item.data.length ≤ maxClip := by
    intro item hget
    cases hget
    decide
  exact (paste_agrees_iff hkeeps).mpr (Or.inr hfits)

omit [SerdeJson] in
/-- A file of one byte more than a message holds is pasted without a daemon, and not through it. -/
theorem longFile_unpasted :
    letI := pasteSerde (shownFile (List.replicate (maxClip + 1) 0))
    pasteViaDaemon (shownFile (List.replicate (maxClip + 1) 0)) noOthers false true =
        .error "ipc: connection closed" ∧
      (pasteDirect (shownFile (List.replicate (maxClip + 1) 0)) false true).map Response.pasted =
        .ok (some "image/png", some "cat.png", some "/home/me/.local/share/zsync/current.png", some true,
          List.replicate (maxClip + 1) 0) := by
  generalize hdata : List.replicate (maxClip + 1) (0 : UInt8) = data
  have hlong : maxClip < data.length := by
    rw [← hdata, List.length_replicate]
    exact Nat.lt_succ_self _
  let _ := pasteSerde (shownFile data)
  have hkeeps : KeepsPaste (shownFile data) false true :=
    ⟨⟨rfl, if_pos rfl⟩, fun hle => absurd hlong (Nat.not_lt.mpr hle)⟩
  exact ⟨pasteViaDaemon_long hkeeps rfl rfl hlong, rfl⟩

end Ipc
end Zsync
