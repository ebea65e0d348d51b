import Mathlib.Data.List.Basic
import Zsync.Foundations.Runs

/-! # Reading frames in a loop of competing branches

A frame is a header of fixed length, which tells a type and the length of the payload, and then the
payload. A reader takes one symbol at a time and keeps what it took; so every way of cutting the
stream into chunks is a way of interleaving its steps with others. The loop around it also waits for
other branches: when one of them wins, the reader is dropped with what it has taken, and a new one
starts. Nothing here knows what symbols and types are.

* `feed` is one step of the reader.
* `Within f r rest` : the reader `r` has taken a proper part of the frame `f`, and `rest` is left.
* `processed_prefix` : when no other branch wins while the reader has taken something, the frames
  processed are a prefix of the frames sent, and nothing of them is lost.
-/

namespace Foundations
set_option autoImplicit false
set_option maxHeartbeats 250000

universe u v w x

structure Codec (α : Type u) (τ : Type v) (ε : Type w) where
  headerLen : ℕ
  pos : 0 < headerLen
  parse : List α → Except ε (τ × ℕ)

structure Frame {α : Type u} {τ : Type v} {ε : Type w} (c : Codec α τ ε) where
  typ : τ
  payload : List α
  head : List α
  length_head : head.length = c.headerLen
  parse_head : c.parse head = .ok (typ, payload.length)

/-- What a reader has taken. -/
inductive Reading (α : Type u) (τ : Type v)
  | header (got : List α)
  | payload (typ : τ) (n : ℕ) (got : List α)
  deriving DecidableEq, Repr

inductive Fed (α : Type u) (τ : Type v) (ε : Type w)
  | more (r : Reading α τ)
  | frame (typ : τ) (payload : List α)
  | failed (e : ε)

variable {α : Type u} {τ : Type v} {ε : Type w} {β : Type x} (c : Codec α τ ε)

namespace Reading

def fresh : Reading α τ := .header []

/-- Take one more symbol. An empty payload is complete with its header. -/
def feed (r : Reading α τ) (b : α) : Fed α τ ε :=
  match r with
  | .header got =>
    if (got ++ [b]).length < c.headerLen then .more (.header (got ++ [b]))
    else
      match c.parse (got ++ [b]) with
      | .error e => .failed e
      | .ok (typ, n) => if n = 0 then .frame typ [] else .more (.payload typ n [])
  | .payload typ n got =>
    if (got ++ [b]).length < n then .more (.payload typ n (got ++ [b])) else .frame typ (got ++ [b])

/-- Take symbols until the frame is complete, and tell what is left. -/
def feeds (r : Reading α τ) : List α → Fed α τ ε × List α
  | [] => (.more r, [])
  | b :: bs =>
    match r.feed c b with
    | .more r => r.feeds bs
    | fed => (fed, bs)

end Reading

/-! ## One frame -/

namespace Frame
variable {c}

def symbols (f : Frame c) : List α := f.head ++ f.payload

def content (f : Frame c) : τ × List α := (f.typ, f.payload)

/-- The reader has taken a proper part of the frame, and `rest` is left. -/
def Within (f : Frame c) (rest : List α) : Reading α τ → Prop
  | .header got => got.length < c.headerLen ∧ f.symbols = got ++ rest
  | .payload typ n got =>
    typ = f.typ ∧ n = f.payload.length ∧ got.length < n ∧ f.payload = got ++ rest

theorem within_fresh (f : Frame c) : f.Within f.symbols .fresh := ⟨c.pos, rfl⟩

theorem Within.rest_ne_nil {f : Frame c} {rest : List α} {r : Reading α τ} (h : f.Within rest r) :
    rest ≠ [] := by
  rintro rfl
  cases r with
  | header got =>
    have hlen := congrArg List.length h.2
    rw [symbols, List.length_append, List.length_append, f.length_head, List.length_nil] at hlen
    have hlt := h.1
    omega
  | payload typ n got =>
    have hlen := congrArg List.length h.2.2.2
    rw [List.length_append, List.length_nil] at hlen
    have hlt := h.2.2.1
    have hn := h.2.1
    omega

/-- The next symbol keeps the reader within the frame, or completes the frame. -/
theorem Within.feed {f : Frame c} {b : α} {rest : List α} {r : Reading α τ}
    (h : f.Within (b :: rest) r) :
    (∃ r', r.feed c b = .more r' ∧ f.Within rest r') ∨
      r.feed c b = .frame f.typ f.payload ∧ rest = [] := by
  cases r with
  | header got =>
    obtain ⟨hlt, hsym⟩ := h
    have hgot : f.head ++ f.payload = (got ++ [b]) ++ rest := by
      rw [List.append_assoc]
      exact hsym
    by_cases hmore : (got ++ [b]).length < c.headerLen
    · exact .inl ⟨.header (got ++ [b]), if_pos hmore, hmore, hgot⟩
    · have hlen : f.head.length = (got ++ [b]).length := by
        rw [f.length_head]
        rw [List.length_append, List.length_singleton] at hmore ⊢
        omega
      obtain ⟨hhead, hpayload⟩ := List.append_inj hgot hlen
      have hparse : c.parse (got ++ [b]) = .ok (f.typ, f.payload.length) := hhead ▸ f.parse_head
      have hfeed : (Reading.header got).feed c b =
          if f.payload.length = 0 then .frame f.typ [] else .more (.payload f.typ f.payload.length []) := by
        rw [Reading.feed, if_neg hmore, hparse]
      by_cases hempty : f.payload.length = 0
      · refine .inr ⟨?_, ?_⟩
        · rw [hfeed, if_pos hempty, List.length_eq_zero_iff.mp hempty]
        · rw [← hpayload, List.length_eq_zero_iff.mp hempty]
      · refine .inl ⟨_, hfeed.trans (if_neg hempty), rfl, rfl, ?_, hpayload⟩
        exact Nat.pos_of_ne_zero hempty
  | payload typ n got =>
    obtain ⟨rfl, rfl, hlt, hpayload⟩ := h
    have hgot : f.payload = (got ++ [b]) ++ rest := by
      rw [List.append_assoc]
      exact hpayload
    by_cases hmore : (got ++ [b]).length < f.payload.length
    · exact .inl ⟨_, if_pos hmore, rfl, rfl, hmore, hgot⟩
    · have hlen := congrArg List.length hgot
      rw [List.length_append] at hlen
      have hrest : rest = [] := List.length_eq_zero_iff.mp (by omega)
      rw [hrest, List.append_nil] at hgot
      exact .inr ⟨(if_neg hmore).trans (by rw [hgot]), hrest⟩

end Frame

/-! ## The loop -/

structure LoopState (α : Type u) (τ : Type v) where
  /-- What was sent and not yet taken. -/
  stream : List α
  reading : Reading α τ
  processed : List (τ × List α)
  ended : Bool

inductive LoopEvent (β : Type x)
  /-- The reader takes one symbol; `ok` says whether handling a complete frame succeeds. -/
  | take (ok : Bool)
  /-- Another branch wins. -/
  | other (branch : β) (goesOn : Bool)
  /-- The stream fails or ends. -/
  | close
  deriving DecidableEq, Repr

namespace LoopState

/-- `handle typ ok` tells whether the loop goes on after a frame of type `typ`. -/
def step (handle : τ → Bool → Bool) (s : LoopState α τ) : LoopEvent β → Option (LoopState α τ)
  | .take ok =>
    match s.ended, s.stream with
    | true, _ => none
    | false, [] => none
    | false, b :: rest =>
      match s.reading.feed c b with
      | .more r => some { s with stream := rest, reading := r }
      | .frame typ payload =>
        some ⟨rest, .fresh, s.processed ++ [(typ, payload)], !handle typ ok⟩
      | .failed _ => some { s with stream := rest, ended := true }
  | .other _ goesOn =>
    if s.ended then none else some { s with reading := .fresh, ended := !goesOn }
  | .close => if s.ended then none else some { s with ended := true }

def start {c : Codec α τ ε} (fs : List (Frame c)) : LoopState α τ :=
  ⟨fs.flatMap Frame.symbols, .fresh, [], false⟩

/-- No other branch wins while the reader has taken something, unless the loop ends with it. -/
def Whole (s : LoopState α τ) : LoopEvent β → Prop
  | .other _ true => s.reading = .fresh
  | _ => True

instance [DecidableEq α] [DecidableEq τ] (s : LoopState α τ) (e : LoopEvent β) :
    Decidable (Whole s e) :=
  match e with
  | .other _ true => inferInstanceAs (Decidable (s.reading = .fresh))
  | .other _ false | .take _ | .close => inferInstanceAs (Decidable True)

/-- The frames that are still to come, of which the reader may have taken a part. -/
inductive Coming {c : Codec α τ ε} : List (Frame c) → List α → Reading α τ → Prop
  | none : Coming [] [] .fresh
  | some (f : Frame c) (fs : List (Frame c)) (rest : List α) (r : Reading α τ)
    (h : f.Within rest r) : Coming (f :: fs) (rest ++ fs.flatMap Frame.symbols) r

theorem coming_fresh {c : Codec α τ ε} (fs : List (Frame c)) :
    Coming fs (fs.flatMap Frame.symbols) .fresh := by
  cases fs with
  | nil => exact .none
  | cons f fs => exact .some f fs f.symbols .fresh f.within_fresh

/-- The next symbol is taken from the first frame. -/
theorem Coming.feed {c : Codec α τ ε} {fs : List (Frame c)} {b : α} {rest : List α} {r : Reading α τ}
    (h : Coming fs (b :: rest) r) :
    (∃ r', r.feed c b = .more r' ∧ Coming fs rest r') ∨
      ∃ f fs', fs = f :: fs' ∧ r.feed c b = .frame f.typ f.payload ∧ Coming fs' rest .fresh := by
  generalize hsym : b :: rest = sym at h
  cases h with
  | none => cases hsym
  | some f fs' left r hwithin =>
    cases left with
    | nil => exact absurd rfl hwithin.rest_ne_nil
    | cons b' left =>
      obtain ⟨rfl, rfl⟩ := List.cons_eq_cons.mp hsym
      obtain ⟨r', hfeed, hwithin'⟩ | ⟨hfeed, rfl⟩ := hwithin.feed
      · exact .inl ⟨r', hfeed, .some f fs' left r' hwithin'⟩
      · exact .inr ⟨f, fs', rfl, hfeed, coming_fresh fs'⟩

/-- So are the next symbols, up to the end of the frame. -/
theorem Coming.feeds {c : Codec α τ ε} {fs : List (Frame c)} {stream : List α} {r : Reading α τ}
    (h : Coming fs stream r) (k : ℕ) :
    (∃ r', (r.feeds c (stream.take k)).1 = .more r' ∧
        Coming fs ((r.feeds c (stream.take k)).2 ++ stream.drop k) r') ∨
      ∃ f fs', fs = f :: fs' ∧ (r.feeds c (stream.take k)).1 = .frame f.typ f.payload ∧
        Coming fs' ((r.feeds c (stream.take k)).2 ++ stream.drop k) .fresh := by
  induction k generalizing stream r with
  | zero => exact .inl ⟨r, rfl, h⟩
  | succ k ih =>
    cases stream with
    | nil => exact .inl ⟨r, rfl, h⟩
    | cons b rest =>
      rw [List.take_succ_cons, List.drop_succ_cons, Reading.feeds]
      obtain ⟨r', hfeed, hrest⟩ | ⟨f, fs', rfl, hfeed, hrest⟩ := h.feed
      · rw [hfeed]
        exact ih hrest
      · rw [hfeed]
        dsimp only
        rw [List.take_append_drop]
        exact .inr ⟨f, fs', rfl, rfl, hrest⟩

/-- More frames are sent. -/
theorem Coming.append {c : Codec α τ ε} {fs : List (Frame c)} {stream : List α} {r : Reading α τ}
    (h : Coming fs stream r) (gs : List (Frame c)) :
    Coming (fs ++ gs) (stream ++ gs.flatMap Frame.symbols) r := by
  cases h with
  | none => exact coming_fresh gs
  | some f fs rest r hwithin =>
    rw [List.append_assoc, ← List.flatMap_append]
    exact .some f (fs ++ gs) rest r hwithin

theorem Coming.nil {c : Codec α τ ε} {fs : List (Frame c)} {r : Reading α τ} (h : Coming fs [] r) :
    fs = [] := by
  generalize hsym : ([] : List α) = sym at h
  cases h with
  | none => rfl
  | some f fs' rest r hwithin =>
    exact absurd (List.append_eq_nil_iff.mp hsym.symm).1 hwithin.rest_ne_nil

/-- The frames sent are those processed and those still to come. -/
def Aligned {c : Codec α τ ε} (fs : List (Frame c)) (s : LoopState α τ) : Prop :=
  ∃ before after, fs = before ++ after ∧ s.processed = before.map Frame.content ∧
    (s.ended = false → Coming after s.stream s.reading)

variable {c} {handle : τ → Bool → Bool}

theorem Aligned.end {fs : List (Frame c)} {s t : LoopState α τ} (h : Aligned fs s)
    (hp : t.processed = s.processed) (he : t.ended = true) : Aligned fs t := by
  obtain ⟨before, after, hfs, hproc, _⟩ := h
  exact ⟨before, after, hfs, hp.trans hproc, fun hf => Bool.noConfusion (he.symm.trans hf)⟩

/-- A step that drops no part of a frame keeps the loop aligned. -/
theorem Aligned.step {fs : List (Frame c)} {s t : LoopState α τ} {e : LoopEvent β}
    (h : Aligned fs s) (hw : s.Whole e) (hs : LoopState.step c handle s e = some t) : Aligned fs t := by
  cases e with
  | take ok =>
    obtain ⟨before, after, hfs, hproc, hcoming⟩ := h
    simp only [LoopState.step] at hs
    split at hs
    · cases hs
    · cases hs
    · next b rest hended hstream =>
      have hc := hcoming hended
      rw [hstream] at hc
      obtain ⟨r', hfeed, hrest⟩ | ⟨f, fs', rfl, hfeed, hrest⟩ := hc.feed
      · rw [hfeed] at hs
        obtain rfl := Option.some.inj hs
        exact ⟨before, after, hfs, hproc, fun _ => hrest⟩
      · rw [hfeed] at hs
        obtain rfl := Option.some.inj hs
        refine ⟨before ++ [f], fs', by rw [hfs, List.append_assoc]; rfl, ?_, fun _ => hrest⟩
        rw [hproc, List.map_append]
        rfl
  | other branch goesOn =>
    simp only [LoopState.step] at hs
    split_ifs at hs with hended
    obtain rfl := Option.some.inj hs
    cases goesOn with
    | false => exact h.end rfl rfl
    | true =>
      obtain ⟨before, after, hfs, hproc, hcoming⟩ := h
      have hfresh : s.reading = .fresh := hw
      refine ⟨before, after, hfs, hproc, fun _ => ?_⟩
      have hc := hcoming (eq_false_of_ne_true hended)
      rwa [hfresh] at hc
  | close =>
    simp only [LoopState.step] at hs
    split_ifs at hs
    obtain rfl := Option.some.inj hs
    exact h.end rfl rfl

theorem aligned_start (fs : List (Frame c)) : Aligned fs (start fs) :=
  ⟨[], fs, rfl, rfl, fun _ => coming_fresh fs⟩

theorem aligned_run {fs : List (Frame c)} {t : LoopState α τ} {es : List (LoopEvent β)}
    (hw : Guarded (step c handle) Whole (start fs) es)
    (hr : exec (step c handle) (start fs) es = some t) : Aligned fs t :=
  exec_guarded (fun _ _ _ h hw hs => h.step hw hs) (aligned_start fs) hw hr

/-- The frames processed are a prefix of the frames sent. -/
theorem processed_prefix {fs : List (Frame c)} {t : LoopState α τ} {es : List (LoopEvent β)}
    (hw : Guarded (step c handle) Whole (start fs) es)
    (hr : exec (step c handle) (start fs) es = some t) : t.processed <+: fs.map Frame.content := by
  obtain ⟨before, after, rfl, hproc, _⟩ := aligned_run hw hr
  rw [hproc, List.map_append]
  exact List.prefix_append _ _

/-- And a loop that goes on has processed every frame once the stream is empty. -/
theorem processed_all {fs : List (Frame c)} {t : LoopState α τ} {es : List (LoopEvent β)}
    (hw : Guarded (step c handle) Whole (start fs) es)
    (hr : exec (step c handle) (start fs) es = some t) (hended : t.ended = false)
    (hstream : t.stream = []) : t.processed = fs.map Frame.content := by
  obtain ⟨before, after, rfl, hproc, hcoming⟩ := aligned_run hw hr
  have hc := hcoming hended
  rw [hstream] at hc
  rw [hproc, hc.nil, List.append_nil]

end LoopState
end Foundations
