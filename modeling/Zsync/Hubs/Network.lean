import Mathlib.Order.Nat
import Zsync.Foundations.Runs
import Zsync.Hubs.Outcomes

/-! # Hubs joined by sessions

A `Peering` lists the sessions between hubs: two hubs may have any number of them, and a hub may
reach itself. Each session has two links, one for each direction, with a queue of clip frames of its
own. What a hub emits goes to all its links: `framed_loop` writes what did not come from the hub at
the other end, `run_relay_session` only what its hub minted. (The members of a relay group are
joined in pairs; hubs are named by their ids, which the sender of an envelope spells as they are.)
A delivery takes any frame of a queue (the oldest one is frame `0`) and runs `apply_from`; a frame
may also be lost, for a session that lags, ends or starts again.

Beside the state, `Net` keeps a history: who put the present content on each clipboard, the copies
that each hub minted and forwarded, and the frames that each link carried and gave up.
-/

namespace Zsync
set_option autoImplicit false
set_option maxHeartbeats 250000
open Protocol

/-- What names a local copy: its origin and its sequence number. -/
abbrev CopyId := String × ℕ

def Protocol.Clip.copyId (clip : Clip) : CopyId := (clip.clipMeta.originId, clip.clipMeta.seq)

/-- Who put the present content on a clipboard: its user, whose copy may have been noticed since, or
the hub itself. -/
inductive Writer
  | user
  | observed
  | hub
  deriving DecidableEq, Repr

/-- Which loop serves a session. -/
inductive SessionKind
  | framed
  | relay
  deriving DecidableEq, Repr

/-- A session in one of its directions; `true` is the way back to the hub that dialled. -/
abbrev Link (ι : Type) := ι × Bool

/-- The other direction of the session. -/
def Link.back {ι : Type} (l : Link ι) : Link ι := (l.1, !l.2)

@[simp] theorem Link.back_back {ι : Type} (l : Link ι) : l.back.back = l :=
  Prod.ext rfl (Bool.not_not l.2)

/-- The sessions of a network. -/
structure Peering (ι : Type) where
  dials : ι → String
  answers : ι → String
  kind : ι → SessionKind

namespace Peering
variable {ι : Type} (P : Peering ι)

def source (l : Link ι) : String := if l.2 then P.answers l.1 else P.dials l.1

def target (l : Link ι) : String := if l.2 then P.dials l.1 else P.answers l.1

@[simp] theorem source_back (l : Link ι) : P.source l.back = P.target l := by
  obtain ⟨s, d⟩ := l
  cases d <;> rfl

@[simp] theorem target_back (l : Link ι) : P.target l.back = P.source l := by
  obtain ⟨s, d⟩ := l
  cases d <;> rfl

/-- Whether the loop at the near end of `l` writes `out`. -/
def passes (l : Link ι) (out : Outbound) : Bool :=
  match P.kind l.1 with
  | .framed => out.skip ≠ some (P.target l)
  | .relay => out.skip.isNone

def frames (l : Link ι) (outs : List Outbound) : List Clip :=
  (outs.filter (P.passes l)).map Outbound.clip

theorem frames_none (l : Link ι) (clip : Clip) : P.frames l [⟨clip, none⟩] = [clip] := by
  have hp : P.passes l ⟨clip, none⟩ = true := by
    unfold passes
    split <;> simp
  rw [frames, List.filter_cons_of_pos hp]
  rfl

/-- A forwarded clip goes on over framed sessions, except to where it came from. -/
theorem frames_some (l : Link ι) (clip : Clip) (a : String) : P.frames l [⟨clip, some a⟩] =
    if P.kind l.1 = .framed ∧ P.target l ≠ a then [clip] else [] := by
  have hp : P.passes l ⟨clip, some a⟩ = true ↔ P.kind l.1 = .framed ∧ P.target l ≠ a := by
    unfold passes
    cases P.kind l.1 with
    | framed => simpa using ne_comm
    | relay => simp
  rw [frames]
  split_ifs with h
  · rw [List.filter_cons_of_pos (hp.mpr h)]
    rfl
  · rw [List.filter_cons_of_neg fun hc => h (hp.mp hc)]
    rfl

end Peering

structure Net (ι σ : Type) where
  hub : String → Hub σ
  wire : Link ι → List Clip
  clock : ℕ
  writer : String → Writer
  minted : String → List CopyId
  forwarded : String → List CopyId
  carried : Link ι → List CopyId
  gone : Link ι → List CopyId

inductive NetEvent (ι : Type)
  /-- The user puts an item on the clipboard of `h`. -/
  | copy (h : String) (item : Item)
  /-- `zsync copy` at `h`. -/
  | push (h : String) (saves : Bool) (item : Item)
  /-- The watcher of `h` reads the clipboard. -/
  | poll (h : String) (saves : Bool)
  | deliver (l : Link ι) (i : ℕ)
  | drop (l : Link ι) (i : ℕ)
  | tick (d : ℕ)
  deriving DecidableEq, Repr

namespace Hub
variable {σ : Type} [Sha256] (B : Backend σ)

def PushWrites (item : Item) (hub : Hub σ) : Prop :=
  item.data.length ≤ maxClip ∧ (B.set (hashed item) hub.clipboard).1.isOk = true

instance (item : Item) (hub : Hub σ) : Decidable (PushWrites B item hub) :=
  inferInstanceAs (Decidable (_ ∧ _))

def ApplyWrites (clip : Clip) (hub : Hub σ) : Prop :=
  Lands B clip hub ∧ (B.set (remoteItem clip) hub.clipboard).1.isOk = true

instance (clip : Clip) (hub : Hub σ) : Decidable (ApplyWrites B clip hub) :=
  inferInstanceAs (Decidable (_ ∧ _))

end Hub

namespace Net
variable {ι σ : Type} (P : Peering ι)

/-- Every session of `h` writes what it is not told to skip. -/
def emit (h : String) (outs : List Outbound) (n : Net ι σ) : Net ι σ :=
  { n with
    wire := fun l => if P.source l = h then n.wire l ++ P.frames l outs else n.wire l
    carried := fun l =>
      if P.source l = h then n.carried l ++ (P.frames l outs).map Clip.copyId else n.carried l }

def take [DecidableEq ι] (l : Link ι) (i : ℕ) (clip : Clip) (n : Net ι σ) : Net ι σ :=
  { n with
    wire := Function.update n.wire l ((n.wire l).eraseIdx i)
    gone := Function.update n.gone l (n.gone l ++ [clip.copyId]) }

def setHub (h : String) (hub : Hub σ) (w : Writer) (n : Net ι σ) : Net ι σ :=
  { n with hub := Function.update n.hub h hub, writer := Function.update n.writer h w }

/-- Record the copies that `h` minted or forwarded, and emit them. -/
def mint (h : String) (outs : List Outbound) (n : Net ι σ) : Net ι σ :=
  emit P h outs { n with
    minted := Function.update n.minted h (n.minted h ++ outs.map fun out => out.clip.copyId) }

def forward (h : String) (outs : List Outbound) (n : Net ι σ) : Net ι σ :=
  emit P h outs { n with
    forwarded := Function.update n.forwarded h (n.forwarded h ++ outs.map fun out => out.clip.copyId) }

section Step
variable [DecidableEq ι] [Sha256] (B : String → Backend σ) (put : Item → σ → σ)

def step (n : Net ι σ) : NetEvent ι → Option (Net ι σ)
  | .copy h item =>
    some (n.setHub h { n.hub h with clipboard := put item (n.hub h).clipboard } .user)
  | .push h saves item =>
    let ret := (n.hub h).localPush (B h) n.clock saves item
    let w := if (n.hub h).PushWrites (B h) item then .hub else n.writer h
    some ((n.setHub h ret.hub w).mint P h ret.out)
  | .poll h saves =>
    match (B h).get (n.hub h).clipboard with
    | .ok (some item) =>
      let ret := (n.hub h).localObserved n.clock saves item
      let w := if n.writer h = .user ∧ (n.hub h).Notices n.clock item then .observed else n.writer h
      some ((n.setHub h ret.hub w).mint P h ret.out)
    | _ => some n
  | .deliver l i =>
    match (n.wire l)[i]? with
    | none => none
    | some clip =>
      let b := P.target l
      let ret := (n.hub b).applyFrom (B b) n.clock clip (P.source l)
      let w := if (n.hub b).ApplyWrites (B b) clip then .hub else n.writer b
      some (((n.take l i clip).setHub b ret.hub w).forward P b ret.out)
  | .drop l i =>
    match (n.wire l)[i]? with
    | none => none
    | some clip => some (n.take l i clip)
  | .tick d => some { n with clock := n.clock + d }

end Step

/-! ## What a step did -/

section Inversion
variable {P} [DecidableEq ι] [Sha256] {B : String → Backend σ} {put : Item → σ → σ} {n m : Net ι σ}

theorem step_poll {h : String} {saves : Bool} (hs : step P B put n (.poll h saves) = some m) :
    m = n ∨ ∃ item, (B h).get (n.hub h).clipboard = .ok (some item) ∧
      m = (n.setHub h ((n.hub h).localObserved n.clock saves item).hub
          (if n.writer h = .user ∧ (n.hub h).Notices n.clock item then .observed
            else n.writer h)).mint P h ((n.hub h).localObserved n.clock saves item).out := by
  simp only [step] at hs
  split at hs
  · next item hget =>
    exact .inr ⟨item, hget, (Option.some.inj hs).symm⟩
  · exact .inl (Option.some.inj hs).symm

theorem step_deliver {l : Link ι} {i : ℕ} {b : String} (hb : P.target l = b)
    (hs : step P B put n (.deliver l i) = some m) :
    ∃ clip, (n.wire l)[i]? = some clip ∧
      m = ((n.take l i clip).setHub b ((n.hub b).applyFrom (B b) n.clock clip (P.source l)).hub
          (if (n.hub b).ApplyWrites (B b) clip then .hub else n.writer b)).forward P b
        ((n.hub b).applyFrom (B b) n.clock clip (P.source l)).out := by
  subst hb
  simp only [step] at hs
  split at hs
  · cases hs
  · next clip hi =>
    exact ⟨clip, hi, (Option.some.inj hs).symm⟩

theorem step_drop {l : Link ι} {i : ℕ} (hs : step P B put n (.drop l i) = some m) :
    ∃ clip, (n.wire l)[i]? = some clip ∧ m = n.take l i clip := by
  simp only [step] at hs
  split at hs
  · cases hs
  · next clip hi =>
    exact ⟨clip, hi, (Option.some.inj hs).symm⟩

end Inversion

/-! ## Reading a changed network -/

section Fields
variable (h : String) (hub : Hub σ) (w : Writer) (outs : List Outbound) (n : Net ι σ) (l : Link ι)

@[simp] theorem setHub_hub : (n.setHub h hub w).hub = Function.update n.hub h hub := rfl
@[simp] theorem setHub_wire : (n.setHub h hub w).wire = n.wire := rfl
@[simp] theorem setHub_writer : (n.setHub h hub w).writer = Function.update n.writer h w := rfl
@[simp] theorem setHub_minted : (n.setHub h hub w).minted = n.minted := rfl
@[simp] theorem setHub_forwarded : (n.setHub h hub w).forwarded = n.forwarded := rfl
@[simp] theorem setHub_carried : (n.setHub h hub w).carried = n.carried := rfl
@[simp] theorem setHub_gone : (n.setHub h hub w).gone = n.gone := rfl

theorem emit_wire : (n.emit P h outs).wire l =
    if P.source l = h then n.wire l ++ P.frames l outs else n.wire l := rfl

theorem emit_carried : (n.emit P h outs).carried l =
    if P.source l = h then n.carried l ++ (P.frames l outs).map Clip.copyId else n.carried l := rfl

@[simp] theorem mint_hub : (n.mint P h outs).hub = n.hub := rfl
@[simp] theorem mint_writer : (n.mint P h outs).writer = n.writer := rfl
@[simp] theorem mint_forwarded : (n.mint P h outs).forwarded = n.forwarded := rfl
@[simp] theorem mint_gone : (n.mint P h outs).gone = n.gone := rfl

theorem mint_wire : (n.mint P h outs).wire l =
    if P.source l = h then n.wire l ++ P.frames l outs else n.wire l := rfl

theorem mint_carried : (n.mint P h outs).carried l =
    if P.source l = h then n.carried l ++ (P.frames l outs).map Clip.copyId else n.carried l := rfl

theorem mint_minted : (n.mint P h outs).minted =
    Function.update n.minted h (n.minted h ++ outs.map fun out => out.clip.copyId) := rfl

@[simp] theorem forward_hub : (n.forward P h outs).hub = n.hub := rfl
@[simp] theorem forward_writer : (n.forward P h outs).writer = n.writer := rfl
@[simp] theorem forward_minted : (n.forward P h outs).minted = n.minted := rfl
@[simp] theorem forward_gone : (n.forward P h outs).gone = n.gone := rfl

theorem forward_wire : (n.forward P h outs).wire l =
    if P.source l = h then n.wire l ++ P.frames l outs else n.wire l := rfl

theorem forward_carried : (n.forward P h outs).carried l =
    if P.source l = h then n.carried l ++ (P.frames l outs).map Clip.copyId else n.carried l := rfl

theorem forward_forwarded : (n.forward P h outs).forwarded =
    Function.update n.forwarded h (n.forwarded h ++ outs.map fun out => out.clip.copyId) := rfl

variable [DecidableEq ι] (i : ℕ) (clip : Clip)

@[simp] theorem take_hub : (n.take l i clip).hub = n.hub := rfl
@[simp] theorem take_writer : (n.take l i clip).writer = n.writer := rfl
@[simp] theorem take_minted : (n.take l i clip).minted = n.minted := rfl
@[simp] theorem take_forwarded : (n.take l i clip).forwarded = n.forwarded := rfl
@[simp] theorem take_carried : (n.take l i clip).carried = n.carried := rfl

theorem take_wire :
    (n.take l i clip).wire = Function.update n.wire l ((n.wire l).eraseIdx i) := rfl

theorem take_gone :
    (n.take l i clip).gone = Function.update n.gone l (n.gone l ++ [clip.copyId]) := rfl

end Fields

theorem emit_nil (h : String) (n : Net ι σ) : n.emit P h [] = n := by
  have hw : ∀ l, (n.emit P h []).wire l = n.wire l := by
    intro l
    rw [emit_wire]
    exact (if_congr Iff.rfl (List.append_nil _) rfl).trans (ite_self _)
  have hc : ∀ l, (n.emit P h []).carried l = n.carried l := by
    intro l
    rw [emit_carried]
    exact (if_congr Iff.rfl (List.append_nil _) rfl).trans (ite_self _)
  calc n.emit P h [] = { n with wire := (n.emit P h []).wire, carried := (n.emit P h []).carried } := rfl
    _ = n := by rw [funext hw, funext hc]

theorem mint_nil (h : String) (n : Net ι σ) : n.mint P h [] = n := by
  rw [mint, emit_nil, List.map_nil, List.append_nil, Function.update_eq_self]

theorem forward_nil (h : String) (n : Net ι σ) : n.forward P h [] = n := by
  rw [forward, emit_nil, List.map_nil, List.append_nil, Function.update_eq_self]

/-- A network before anything was copied: every hub knows its own name, nothing is in flight. -/
structure Start (n : Net ι σ) : Prop where
  nodeId : ∀ h, (n.hub h).nodeId = h
  wire : ∀ l, n.wire l = []
  minted : ∀ h, n.minted h = []
  forwarded : ∀ h, n.forwarded h = []
  carried : ∀ l, n.carried l = []
  gone : ∀ l, n.gone l = []

/-- The counter of the hub that may mint does not wrap. -/
def Counts (n : Net ι σ) : NetEvent ι → Prop
  | .push h _ _ => (n.hub h).state.inner.seq + 1 < 2 ^ 64
  | .poll h _ => (n.hub h).state.inner.seq + 1 < 2 ^ 64
  | _ => True

instance (n : Net ι σ) : ∀ e, Decidable (Counts n e)
  | .push .. | .poll .. => inferInstanceAs (Decidable (_ < _))
  | .copy .. | .deliver .. | .drop .. | .tick .. => inferInstanceAs (Decidable True)

/-! ## Hubs with the in-memory backend -/

def memoryStep [DecidableEq ι] [Sha256] :
    Net ι (Option Item) → NetEvent ι → Option (Net ι (Option Item)) :=
  step P (fun _ => memory) fun item _ => some item

def freshNet : Net ι (Option Item) where
  hub := fun h => Hub.new h none ⟨⟨0, []⟩, ⟨0, []⟩⟩ 0
  wire := fun _ => []
  clock := 0
  writer := fun _ => .user
  minted := fun _ => []
  forwarded := fun _ => []
  carried := fun _ => []
  gone := fun _ => []

theorem freshNet_start : Start (freshNet : Net ι _) :=
  ⟨fun _ => rfl, fun _ => rfl, fun _ => rfl, fun _ => rfl, fun _ => rfl, fun _ => rfl⟩

end Net

/-- Two hubs, joined by one session. -/
def link (a b : String) : Peering Unit := ⟨fun _ => a, fun _ => b, fun _ => .framed⟩

/-- Three hubs, each joined to the other two. -/
def triangle : Peering (Fin 3) where
  dials := fun s => ["laptop", "desktop", "phone"].get s
  answers := fun s => ["desktop", "phone", "laptop"].get s
  kind := fun _ => .framed

end Zsync
