import Zsync.Storage.CutCalls

/-! # What `get` and `current_path` show, over every run

Calls of `set` fail, are cut by crashes and overlap. Whenever none is in progress, `get` should give nothing or
the data of one call in full, and the file at `current_path` should hold these bytes.

* `Projects` is that statement, and that a lone call which fails changes neither. It fails: `set` replaces
  `current.*` and empties `drop` before it commits its record (`cutShort_loses`).
* `Orderly` is the condition on a step. Calls overlap only while all but one of them are still before the
  rename of their object, and no two that have the same hash are; a call fails or is cut between the rename of
  `current.*` and that of `current.json` only while nothing is current.
* `Upright` is the invariant that carries it through the run (`orderly_projects`).
-/

namespace Zsync
set_option autoImplicit false
set_option maxHeartbeats 250000
open Protocol Foundations Foundations.Files FileBackend

namespace Projection
variable [Sha256] [Json Current]

/-! ## The property and the condition -/

/-- The items of the calls of a run. -/
def begun (es : List ProjectionEvent) : List Item :=
  es.filterMap fun
    | .begin _ item => some item
    | _ => none

structure Projects (sets : List Item) (s : Projection) : Prop where
  whole : s.calls = [] → s.seen.1 = .ok none ∨ ∃ item ∈ sets, ∃ got, s.seen.1 = .ok (some got) ∧
    got.data = item.data ∧ got.hash = Protocol.hash got.data ∧ s.seen.2 = .ok got.data
  failed : ∀ p ∈ s.failed, p.1 = p.2

/-- Nothing is current, and nothing would be after a crash. -/
def Vacant (s : Projection) : Prop :=
  s.cur = Current.default ∧ record s.dir s.disk = Current.default

/-- The next operation, if it succeeds, leaves the call past its object. -/
def Advances (dir : Place) (call : SetCall) : Prop :=
  match call.prog with
  | .op o _ => markSet dir call.item o call.stage ≠ .untouched
  | .done _ => False

def Orderly (s : Projection) : ProjectionEvent → Prop
  | .begin _ item => (item.name = "" ∨ FileName item.name) ∧
      ∀ c ∈ s.calls, c.2.stage = .untouched → itemHash c.2.item ≠ itemHash item
  | .op i _ => ∀ call ∈ s.calls.lookup i, Advances s.dir call →
      ∀ c ∈ s.calls, c.1 ≠ i → c.2.stage = .untouched
  | .finish i => ∀ call ∈ s.calls.lookup i, call.stage = .replaced → Vacant s
  | .crash _ => (∃ c ∈ s.calls, c.2.stage = .replaced) → Vacant s

/-! ## Opening -/

omit [Sha256] in
/-- `open` gives the record or nothing, and changes no file. -/
theorem openBackend_ok {dir : Place} (hdir : ∀ seg ∈ dir, Plain seg) {d d' : Disk} {cur : Current}
    (h : (openBackend dir).run d = (.ok cur, d')) :
    d' = (d.createDirAll (objects dir)).2 ∧ (cur = Current.default ∨ cur = record dir d') := by
  obtain ⟨_, d₁, hcreate, h⟩ := Script.run_bind_ok_inv h
  have hd₁ : d₁ = (d.createDirAll (objects dir)).2 := (congrArg Prod.snd hcreate).symm
  obtain ⟨res, d₂, hread, h⟩ := Script.run_bind_ok_inv h
  have hrun : (Except.ok (d₁.read (metaPath dir)).1, (d₁.read (metaPath dir)).2) =
      (Except.ok res, d₂) := (Script.run_attempt _ _).symm.trans hread
  obtain ⟨hres, hd₂⟩ := Prod.mk.inj hrun
  rw [read_same] at hd₂
  subst hd₂
  have hres := Except.ok.inj hres
  subst hres
  cases hr : (d₁.read (metaPath dir)).1 with
  | ok bytes =>
    rw [hr] at h
    obtain ⟨hcur, rfl⟩ := Prod.mk.inj h
    have hbytes := content_of_read hr
    rw [metaPath_eq, aside_meta.1.place hdir] at hbytes
    refine ⟨hd₁, .inr ?_⟩
    rw [record, hbytes]
    exact (Except.ok.inj hcur).symm
  | error e =>
    rw [hr] at h
    obtain ⟨hcur, rfl⟩ := Prod.mk.inj h
    exact ⟨hd₁, .inl (Except.ok.inj hcur).symm⟩

omit [Json Current] in
/-- Making directories takes nothing from what a record shows. -/
theorem shows_createDirAll {dir : Place} {known : Bytes → Prop} {cur : Current} {data : Option Bytes}
    {d : Disk} (p : Path) (h : Shows dir known cur data d) :
    Shows dir known cur data (d.createDirAll p).2 :=
  h.performWith (o := .createDirAll p) (fun _ _ => trivial) (fun _ _ => trivial) d.verdict

/-! ## Storing the object -/

section Storing
variable {dir : Place} {known : Bytes → Prop} {data : Bytes} {d : Disk}

/-- The object of these bytes, and the file that is renamed to it. -/
abbrev objectFile (dir : Place) (data : Bytes) : Path := ⟨spot dir ["objects", Protocol.hash data]⟩

abbrev objectTmp (dir : Place) (data : Bytes) : Path :=
  ⟨spot dir ["objects", Protocol.hash data ++ ".tmp"]⟩

/-- The call is about to rename its object. -/
def Moving (dir : Place) (item : Item) (prog : Script (Item × Current)) : Prop :=
  ∃ next, prog = .op (.rename (objectTmp dir item.data) (objectFile dir item.data)) next ∧
    (∀ e, next (.error e) = .done (.error e)) ∧ next (.ok ()) = afterObject dir item

omit [Json Current] in
theorem tmp_object (hdir : ∀ seg ∈ dir, Plain seg) (data : Bytes) :
    tmpPath ((objects dir).join (Protocol.hash data)) = objectTmp dir data := by
  have hh := hash_plain data
  rw [object_eq hh.1]
  refine tmp_spot (l := ["objects"]) hdir fun seg hs => ?_
  simp only [List.cons_append, List.nil_append, List.mem_cons, List.not_mem_nil, or_false] at hs
  obtain rfl | rfl := hs
  · decide
  · exact hh.2

/-- The first two operations of a call. -/
theorem setOps_begins (hdir : ∀ seg ∈ dir, Plain seg) {item : Item}
    (hh : itemHash item = Protocol.hash item.data) :
    ∃ next, setOps dir item = .op (.write (objectTmp dir item.data) item.data) next ∧
      (∀ e, next (.error e) = .done (.error e)) ∧ Moving dir item (next (.ok ())) := by
  have hops : ∃ next, setOps dir item =
        .op (.write (tmpPath ((objects dir).join (itemHash item))) item.data) next ∧
      (∀ e, next (.error e) = .done (.error e)) ∧
      ∃ next', next (.ok ()) = .op (.rename (tmpPath ((objects dir).join (itemHash item)))
          ((objects dir).join (itemHash item))) next' ∧
        (∀ e, next' (.error e) = .done (.error e)) ∧ next' (.ok ()) = afterObject dir item :=
    ⟨_, rfl, fun _ => rfl, _, rfl, fun _ => rfl, rfl⟩
  rw [hh, tmp_object hdir, object_eq (hash_plain item.data).1] at hops
  exact hops

omit [Sha256] [Json Current] in
theorem objects_plain {name : String} (hn : Plain name) : ∀ seg ∈ ["objects", name], Plain seg := by
  intro seg hs
  simp only [List.mem_cons, List.not_mem_nil, or_false] at hs
  obtain rfl | rfl := hs
  · decide
  · exact hn

omit [Json Current] in
theorem apart_performWith {o : FileOp} (hr : ∀ p, o ≠ .removeDirAll p)
    (hq : ∀ q, ¬ spot dir ["objects"] <+: q → Spares q o) (v : FileOp → Verdict)
    (hs : ∀ data, known data → Stored dir data d → Stored dir data (d.performWith v o).2) :
    Apart dir known d (d.performWith v o).2 :=
  ⟨fun _ h => rooted_perform (d := d.answering v) h fun p hp => absurd hp (hr p),
    fun q h => content_perform (d := d.answering v) (hq q h), hs⟩

omit [Json Current] in
theorem write_apart (hdir : ∀ seg ∈ dir, Plain seg) (v : FileOp → Verdict) :
    Apart dir known d (d.performWith v (.write (objectTmp dir data) data)).2 := by
  have hp := objects_plain (tmp_plain (Protocol.hash data))
  refine apart_performWith (fun p h => by cases h) (fun q hq => ?_) v fun x _ hx => hx.performWith ?_ v
  · change Path.place ⟨spot dir _⟩ ≠ q
    rw [place_spot hdir hp]
    rintro rfl
    exact hq (by simp)
  · exact spares_write hdir hp (by simpa using (hash_ne_tmp x data).symm) _

omit [Json Current] in
theorem write_content (hdir : ∀ seg ∈ dir, Plain seg) {v : FileOp → Verdict} {r : Unit}
    (hok : (d.performWith v (.write (objectTmp dir data) data)).1 = .ok r) :
    (d.performWith v (.write (objectTmp dir data) data)).2.content (objectTmp dir data).segs = some data := by
  have ht := objects_plain (tmp_plain (Protocol.hash data))
  have hat : FileAt (objectTmp dir data).place data
      (d.performWith v (.write (objectTmp dir data) data)).2 :=
    fileAt_write (d := d.answering v) (spot_plain hdir ht) hok
  rw [place_spot hdir ht] at hat
  exact hat.2

omit [Json Current] in
theorem rename_apart (hdir : ∀ seg ∈ dir, Plain seg) (hinj : ∀ x, known x →
      Protocol.hash x = Protocol.hash data → x = data)
    (hsrc : d.content (spot dir ["objects", Protocol.hash data ++ ".tmp"]) = some data)
    (v : FileOp → Verdict) {r : Unit}
    (hok : (d.performWith v (.rename (objectTmp dir data) (objectFile dir data))).1 = .ok r) :
    Stored dir data (d.performWith v (.rename (objectTmp dir data) (objectFile dir data))).2 ∧
    Apart dir known d (d.performWith v (.rename (objectTmp dir data) (objectFile dir data))).2 := by
  have ht := objects_plain (tmp_plain (Protocol.hash data))
  have hf := objects_plain (hash_plain data).2
  have hstored : FileAt (objectFile dir data).place data
      (d.performWith v (.rename (objectTmp dir data) (objectFile dir data))).2 := by
    refine fileAt_rename (d := d.answering v) (object_plain hdir data) ?_ hok
    rw [place_spot hdir ht]
    exact hsrc
  rw [place_spot hdir hf] at hstored
  refine ⟨hstored, apart_performWith (fun p h => by cases h) (fun q hq => ?_) v fun x hx hd => ?_⟩
  · change Path.place ⟨spot dir _⟩ ≠ q ∧ Path.place ⟨spot dir _⟩ ≠ q
    rw [place_spot hdir ht, place_spot hdir hf]
    constructor
    · rintro rfl
      exact hq (by simp)
    · rintro rfl
      exact hq (by simp)
  · by_cases hh : Protocol.hash x = Protocol.hash data
    · rw [hinj x hx hh]
      exact hstored
    · exact hd.performWith (spares_rename hdir ht hf (by simpa using (hash_ne_tmp x data).symm)
        (by simpa using Ne.symm hh)) v

end Storing

/-! ## The invariant -/

section Invariant
variable (dir : Place) (sets : List Item)

/-- The bytes of a call of the run. -/
def Known (data : Bytes) : Prop := ∃ item ∈ sets, item.data = data

/-- A call that has not stored its object: not begun, about to rename it, or failed. -/
def Waiting (call : SetCall) (d : Disk) : Prop :=
  call.prog = setOps dir call.item ∨
  (Moving dir call.item call.prog ∧ d.content (objectTmp dir call.item.data).segs = some call.item.data) ∨
  ∃ e, call.prog = .done (.error e)

/-- The memory shows what it should, and so does the record. -/
def Calm (cur : Current) (d : Disk) : Prop :=
  ∃ m m', Shows dir (Known sets) cur m d ∧ Shows dir (Known sets) (record dir d) m' d

/-- A call that has stored its object may be cut anywhere, and leaves the objects alone. -/
def Busy (cur : Current) (call : SetCall) (d : Disk) : Prop :=
  AllOps (Outside dir) call.prog ∧ ∃ old m m', Safe (Apart dir (Known sets)) (markSet dir call.item)
    (Held dir (Known sets) call.item cur old m m') (Finished dir call.item) call.stage call.prog d

/-- The call has not changed what is shown. -/
def Quiet (cur : Current) (call : SetCall) : Prop :=
  call.stage = .untouched ∨ call.stage = .stored ∨ cur = Current.default

structure Upright (s : Projection) : Prop where
  dir_eq : s.dir = dir
  keys : ∀ c ∈ s.calls, ∀ c' ∈ s.calls, c.1 = c'.1 → c = c'
  items : ∀ c ∈ s.calls, Given dir c.2.item ∧ c.2.item ∈ sets
  waiting : ∀ c ∈ s.calls, c.2.stage = .untouched → Waiting dir c.2 s.disk
  /-- No two calls write to the same temporary object. -/
  apart : ∀ c ∈ s.calls, ∀ c' ∈ s.calls, c.2.stage = .untouched → c'.2.stage = .untouched →
    itemHash c.2.item = itemHash c'.2.item → c.1 = c'.1
  calm : (∀ c ∈ s.calls, c.2.stage = .untouched) → Calm dir sets s.cur s.disk
  /-- One call at a time is past its object. -/
  busy : ∀ c ∈ s.calls, c.2.stage ≠ .untouched →
    (∀ c' ∈ s.calls, c'.1 ≠ c.1 → c'.2.stage = .untouched) ∧ Busy dir sets s.cur c.2 s.disk
  alone : ∀ c ∈ s.calls, c.2.alone = true → s.calls = [c] ∧ (Quiet s.cur c.2 → c.2.before = s.seen)
  failed : ∀ p ∈ s.failed, p.1 = p.2

end Invariant

section Parts
variable {dir : Place} {sets : List Item} {cur : Current} {call : SetCall} {d d' : Disk}

theorem Calm.after (h : Calm dir sets cur d) (hd : Apart dir (Known sets) d d') : Calm dir sets cur d' := by
  obtain ⟨m, m', hm, hm'⟩ := h
  have hrecord := stable_record (record dir d) hd rfl
  refine ⟨m, m', stable_shows cur m hd hm, ?_⟩
  rw [hrecord]
  exact stable_shows _ m' hd hm'

theorem Busy.after (h : Busy dir sets cur call d) (hd : Apart dir (Known sets) d d') :
    Busy dir sets cur call d' := by
  obtain ⟨hout, old, m, m', hsafe⟩ := h
  exact ⟨hout, old, m, m', hsafe.after Apart.trans hd⟩

theorem Waiting.performWith (h : Waiting dir call d) {o : FileOp}
    (ho : Spares (objectTmp dir call.item.data).segs o) (v : FileOp → Verdict) :
    Waiting dir call (d.performWith v o).2 := by
  obtain h | ⟨hmove, hd⟩ | h := h
  · exact .inl h
  · exact .inr (.inl ⟨hmove, (content_perform (d := d.answering v) ho).trans hd⟩)
  · exact .inr (.inr h)

omit [Json Current] in
/-- Views agree as long as the record shows the same bytes. -/
theorem view_eq {known : Bytes → Prop} {m : Option Bytes} (hdir : ∀ seg ∈ dir, FileName seg)
    (h : Shows dir known cur m d) (h' : Shows dir known cur m d') : view dir cur d' = view dir cur d := by
  rw [h.view hdir, h'.view hdir]

omit [Json Current] in
/-- An operation beside the objects does not lead back to an earlier stage. -/
theorem markSet_outside {item : Item} (hh : itemHash item = Protocol.hash item.data)
    (hdir : ∀ seg ∈ dir, Plain seg) {o : FileOp} (ho : Outside dir o) {stage : SetStage}
    (h : markSet dir item o stage = .untouched ∨ markSet dir item o stage = .stored) :
    markSet dir item o stage = stage := by
  cases o with
  | rename src dst =>
    have hne : dst ≠ (objects dir).join (itemHash item) := by
      rintro rfl
      have := (ho (spot dir ["objects", Protocol.hash item.data]) (by simp)).2
      rw [hh, object_eq (hash_plain item.data).1, place_spot hdir (objects_plain (hash_plain item.data).2)] at this
      exact this rfl
    simp only [markSet, if_neg hne] at h ⊢
    split_ifs at h ⊢
    · simp at h
    · simp at h
    · rfl
  | _ => rfl

end Parts

/-! ### An operation -/

section Operation
variable {dir : Place} {sets : List Item} {s : Projection} {i : ℕ} {call call' : SetCall} {d : Disk}

/-- One call goes on, and the others keep what they rely on. -/
theorem Upright.put (h : Upright dir sets s) (hc : s.calls.lookup i = some call)
    (hsame : call'.item = call.item ∧ call'.alone = call.alone ∧ call'.before = call.before)
    (hback : call'.stage = .untouched → call.stage = .untouched)
    (hwaiting : call'.stage = .untouched → Waiting dir call' d)
    (hothers : ∀ c ∈ s.calls, c.1 ≠ i → c.2.stage = .untouched → Waiting dir c.2 d)
    (hcalm : (∀ c ∈ s.calls, c.2.stage = .untouched) → call'.stage = .untouched → Calm dir sets s.cur d)
    (hbusy : call'.stage ≠ .untouched → (∀ c ∈ s.calls, c.1 ≠ i → c.2.stage = .untouched) ∧
      Busy dir sets s.cur call' d)
    (hbusyOthers : ∀ c ∈ s.calls, c.1 ≠ i → c.2.stage ≠ .untouched → call'.stage = .untouched ∧
      Busy dir sets s.cur c.2 d)
    (hview : s.calls = [(i, call)] → Quiet s.cur call' → Quiet s.cur call ∧ view dir s.cur d = s.seen) :
    Upright dir sets { s.put i call' with disk := d } := by
  have hmem := mem_of_lookup hc
  have hcall : ∀ c ∈ s.calls, c.1 = i → c = (i, call) := fun c hcs hi => h.keys c hcs _ hmem hi
  obtain ⟨hitem, halone, hbefore⟩ := hsame
  constructor
  case dir_eq => exact h.dir_eq
  case keys =>
    intro c hc c' hc' hi
    obtain rfl | ⟨hcs, hci⟩ := mem_put hc
    · obtain rfl | ⟨_, hci'⟩ := mem_put hc'
      · rfl
      · exact absurd hi.symm hci'
    · obtain rfl | ⟨hcs', _⟩ := mem_put hc'
      · exact absurd hi hci
      · exact h.keys c hcs c' hcs' hi
  case items =>
    intro c hc
    obtain rfl | ⟨hcs, _⟩ := mem_put hc
    · rw [hitem]
      exact h.items _ hmem
    · exact h.items c hcs
  case waiting =>
    intro c hc hstage
    obtain rfl | ⟨hcs, hci⟩ := mem_put hc
    · exact hwaiting hstage
    · exact hothers c hcs hci hstage
  case apart =>
    intro c hc c' hc' hstage hstage' hhash
    obtain rfl | ⟨hcs, hci⟩ := mem_put hc
    · obtain rfl | ⟨hcs', _⟩ := mem_put hc'
      · rfl
      · exact h.apart (i, call) hmem c' hcs' (hback hstage) hstage'
          ((congrArg itemHash hitem).symm.trans hhash)
    · obtain rfl | ⟨hcs', _⟩ := mem_put hc'
      · exact h.apart c hcs (i, call) hmem hstage (hback hstage')
          (hhash.trans (congrArg itemHash hitem))
      · exact h.apart c hcs c' hcs' hstage hstage' hhash
  case calm =>
    intro hall
    have hput : (i, call') ∈ (s.put i call').calls :=
      List.mem_map.mpr ⟨(i, call), hmem, by simp⟩
    have hstage : call'.stage = .untouched := hall _ hput
    refine hcalm (fun c hcs => ?_) hstage
    by_cases hi : c.1 = i
    · rw [hcall c hcs hi]
      exact hback hstage
    · refine hall c (List.mem_map.mpr ⟨c, hcs, ?_⟩)
      rw [if_neg hi]
  case busy =>
    intro c hc hstage
    obtain rfl | ⟨hcs, hci⟩ := mem_put hc
    · refine ⟨fun c' hc' hi => ?_, (hbusy hstage).2⟩
      obtain rfl | ⟨hcs', hci'⟩ := mem_put hc'
      · exact absurd rfl hi
      · exact (hbusy hstage).1 c' hcs' hci'
    · obtain ⟨hun, hb⟩ := hbusyOthers c hcs hci hstage
      refine ⟨fun c' hc' hi => ?_, hb⟩
      obtain rfl | ⟨hcs', _⟩ := mem_put hc'
      · exact hun
      · exact (h.busy c hcs hstage).1 c' hcs' hi
  case alone =>
    intro c hc hal
    obtain rfl | ⟨hcs, hci⟩ := mem_put hc
    · obtain ⟨hone, hb⟩ := h.alone _ hmem (halone.symm.trans hal)
      refine ⟨?_, fun hq => ?_⟩
      · simp [Projection.put, hone]
      · obtain ⟨hq', hv⟩ := hview hone hq
        have hdir := h.dir_eq
        change call'.before = view s.dir s.cur d
        rw [hdir, hbefore, hb hq', ← hv]
    · have hone := (h.alone c hcs hal).1
      rw [hone] at hmem
      exact absurd (congrArg Prod.fst (List.mem_singleton.mp hmem)).symm hci
  case failed => exact h.failed

/-- A call that stays before the rename of its object. -/
theorem Upright.op_waiting (hdir : ∀ seg ∈ dir, FileName seg) (h : Upright dir sets s)
    (hc : s.calls.lookup i = some call)
    (hsame : call'.item = call.item ∧ call'.alone = call.alone ∧ call'.before = call.before)
    (hstage : call.stage = .untouched) (hstage' : call'.stage = .untouched) (hwaiting : Waiting dir call' d)
    (hothers : ∀ c ∈ s.calls, c.1 ≠ i → c.2.stage = .untouched → Waiting dir c.2 d)
    (hd : Apart dir (Known sets) s.disk d) : Upright dir sets { s.put i call' with disk := d } := by
  refine h.put hc hsame (fun _ => hstage) (fun _ => hwaiting) hothers (fun hall _ => (h.calm hall).after hd)
    (fun hne => absurd hstage' hne) (fun c hcs hi hne => ?_) (fun hone _ => ⟨.inl hstage, ?_⟩)
  · exact ⟨hstage', (h.busy c hcs hne).2.after hd⟩
  · obtain ⟨m, _, hm, _⟩ := h.calm (by simp [hone, hstage])
    rw [seen, h.dir_eq]
    exact view_eq hdir hm (stable_shows _ _ hd hm)

/-- The call renames its object. -/
theorem Upright.op_store (hdir : ∀ seg ∈ dir, FileName seg) (h : Upright dir sets s)
    (hc : s.calls.lookup i = some call)
    (hsame : call'.item = call.item ∧ call'.alone = call.alone ∧ call'.before = call.before)
    (hstage : call.stage = .untouched) (hstage' : call'.stage = .stored)
    (hprog : call'.prog = afterObject dir call.item)
    (halone : ∀ c ∈ s.calls, c.1 ≠ i → c.2.stage = .untouched)
    (hothers : ∀ c ∈ s.calls, c.1 ≠ i → c.2.stage = .untouched → Waiting dir c.2 d)
    (hstored : Stored dir call.item.data d) (hd : Apart dir (Known sets) s.disk d) :
    Upright dir sets { s.put i call' with disk := d } := by
  have hplain : ∀ seg ∈ dir, Plain seg := fun seg hs => (hdir seg hs).1
  have hmem := mem_of_lookup hc
  obtain ⟨hg, hsets⟩ := h.items _ hmem
  have hcalls : ∀ c ∈ s.calls, c.2.stage = .untouched := by
    intro c hcs
    by_cases hi : c.1 = i
    · rw [h.keys c hcs _ hmem hi]
      exact hstage
    · exact halone c hcs hi
  obtain ⟨m, m', hm, hm'⟩ := (h.calm hcalls).after hd
  refine h.put hc hsame (fun hun => ?_) (fun hun => ?_) hothers (fun _ hun => ?_) (fun _ => ⟨halone, ?_⟩)
    (fun c hcs hi hne => absurd (halone c hcs hi) hne) (fun _ _ => ⟨.inl hstage, ?_⟩)
  · rw [hstage'] at hun
    cases hun
  · rw [hstage'] at hun
    cases hun
  · rw [hstage'] at hun
    cases hun
  · rw [Busy, hprog, hsame.1, hstage']
    exact ⟨afterObject_outside hplain hg, record dir d, m, m',
      safe_afterObject hplain hg ⟨_, hsets, rfl⟩ ⟨hstored, hm, rfl, hm'⟩⟩
  · obtain ⟨m, _, hm, _⟩ := h.calm hcalls
    rw [seen, h.dir_eq]
    exact view_eq hdir hm (stable_shows _ _ hd hm)

/-- An operation of the call that is past its object. -/
theorem Upright.op_busy (hdir : ∀ seg ∈ dir, FileName seg) (h : Upright dir sets s)
    (hc : s.calls.lookup i = some call) (hstage : call.stage ≠ .untouched) {o : FileOp}
    {next : Except IoError o.Reply → Script (Item × Current)} (hprog : call.prog = .op o next)
    (v : FileOp → Verdict) :
    Upright dir sets { s.put i { call with
        prog := next (s.disk.performWith v o).1
        stage := stageAfter (markSet dir call.item) o (s.disk.performWith v o).1 call.stage } with
      disk := (s.disk.performWith v o).2 } := by
  have hplain : ∀ seg ∈ dir, Plain seg := fun seg hs => (hdir seg hs).1
  have hmem := mem_of_lookup hc
  obtain ⟨hg, hsets⟩ := h.items _ hmem
  obtain ⟨hothers, hout, old, m, m', hsafe⟩ := h.busy _ hmem hstage
  rw [hprog] at hout hsafe
  have hC := (hsafe s.disk (Apart.refl _)).1
  have hsafe' := (hsafe s.disk (Apart.refl _)).2 v
  have hC' := hsafe'.now Apart.refl
  let stage' := stageAfter (markSet dir call.item) o (s.disk.performWith v o).1 call.stage
  have hkeep : stage' = .untouched ∨ stage' = .stored → stage' = call.stage := by
    intro hst
    cases hres : (s.disk.performWith v o).1 with
    | ok r =>
      simp only [stage', hres, stageAfter] at hst ⊢
      exact markSet_outside hg.hash_eq hplain hout.1 hst
    | error e => simp only [stage', hres, stageAfter]
  have hpast : stage' ≠ .untouched := fun hun => hstage ((hkeep (.inl hun)).symm.trans hun)
  refine h.put hc ⟨rfl, rfl, rfl⟩ (fun hun => absurd hun hpast) (fun hun => absurd hun hpast)
    (fun c hcs hi hun => (h.waiting c hcs hun).performWith (hout.1 _ (by simp)) v)
    (fun _ hun => absurd hun hpast) (fun _ => ⟨hothers, hout.2 _, old, m, m', hsafe'⟩)
    (fun c hcs hi hne => absurd (hothers c hcs hi) hne) (fun _ hq => ?_)
  rw [seen, h.dir_eq]
  obtain hun | hst | hcur := hq
  · exact absurd hun hpast
  · have hsame : call.stage = .stored := (hkeep (.inr hst)).symm.trans hst
    change Held dir _ call.item _ old m m' stage' _ at hC'
    have hst' : stage' = .stored := hst
    rw [hsame] at hC
    rw [hst'] at hC'
    exact ⟨.inr (.inl hsame), view_eq hdir hC.2.1 hC'.2.1⟩
  · have hnone : ∀ d, Shows dir (Known sets) s.cur none d := fun _ => hcur
    exact ⟨.inr (.inr hcur), view_eq hdir (hnone _) (hnone _)⟩

/-- Calls that have not stored their objects have different ones. -/
theorem Upright.differ (h : Upright dir sets s) (hc : s.calls.lookup i = some call)
    (hstage : call.stage = .untouched) :
    ∀ c ∈ s.calls, c.1 ≠ i → c.2.stage = .untouched →
      Protocol.hash c.2.item.data ≠ Protocol.hash call.item.data := by
  intro c hcs hi hun heq
  have hmem := mem_of_lookup hc
  refine hi (h.apart c hcs (i, call) hmem hun hstage ?_)
  rw [(h.items c hcs).1.hash_eq, (h.items _ hmem).1.hash_eq]
  exact heq

/-- The first operation of a call. -/
theorem Upright.op_write (hdir : ∀ seg ∈ dir, FileName seg) (h : Upright dir sets s)
    (hc : s.calls.lookup i = some call) (hstage : call.stage = .untouched)
    {next : Except IoError Unit → Script (Item × Current)} (herr : ∀ e, next (.error e) = .done (.error e))
    (hok : Moving dir call.item (next (.ok ()))) (v : FileOp → Verdict) :
    Upright dir sets { s.put i { call with
        prog := next (s.disk.performWith v (.write (objectTmp dir call.item.data) call.item.data)).1
        stage := stageAfter (markSet dir call.item) (.write (objectTmp dir call.item.data) call.item.data)
          (s.disk.performWith v (.write (objectTmp dir call.item.data) call.item.data)).1 call.stage } with
      disk := (s.disk.performWith v (.write (objectTmp dir call.item.data) call.item.data)).2 } := by
  have hplain : ∀ seg ∈ dir, Plain seg := fun seg hs => (hdir seg hs).1
  have htmp := objects_plain (tmp_plain (Protocol.hash call.item.data))
  refine h.op_waiting hdir hc ⟨rfl, rfl, rfl⟩ hstage ?_ ?_ (fun c hcs hi hun => ?_) (write_apart hplain v)
  · cases hres : (s.disk.performWith v (.write (objectTmp dir call.item.data) call.item.data)).1 with
    | ok r => exact hstage
    | error e => exact hstage
  · cases hres : (s.disk.performWith v (.write (objectTmp dir call.item.data) call.item.data)).1 with
    | ok r => exact .inr (.inl ⟨hok, write_content hplain hres⟩)
    | error e => exact .inr (.inr ⟨e, herr e⟩)
  · refine (h.waiting c hcs hun).performWith (spares_write hplain htmp ?_ _) v
    simpa using (h.differ hc hstage c hcs hi hun).symm

/-- The second operation of a call: with it the call has stored its object. -/
theorem Upright.op_rename (hdir : ∀ seg ∈ dir, FileName seg)
    (hcol : ∀ a ∈ sets, ∀ b ∈ sets, Protocol.hash a.data = Protocol.hash b.data → a.data = b.data)
    (h : Upright dir sets s) (hc : s.calls.lookup i = some call) (hstage : call.stage = .untouched)
    {next : Except IoError Unit → Script (Item × Current)} (herr : ∀ e, next (.error e) = .done (.error e))
    (hok : next (.ok ()) = afterObject dir call.item)
    (hsrc : s.disk.content (objectTmp dir call.item.data).segs = some call.item.data)
    (halone : ∀ c ∈ s.calls, c.1 ≠ i → c.2.stage = .untouched) (v : FileOp → Verdict) :
    Upright dir sets { s.put i { call with
        prog := next (s.disk.performWith v
          (.rename (objectTmp dir call.item.data) (objectFile dir call.item.data))).1
        stage := stageAfter (markSet dir call.item)
          (.rename (objectTmp dir call.item.data) (objectFile dir call.item.data))
          (s.disk.performWith v
            (.rename (objectTmp dir call.item.data) (objectFile dir call.item.data))).1 call.stage } with
      disk := (s.disk.performWith v
        (.rename (objectTmp dir call.item.data) (objectFile dir call.item.data))).2 } := by
  have hplain : ∀ seg ∈ dir, Plain seg := fun seg hs => (hdir seg hs).1
  obtain ⟨hg, hsets⟩ := h.items _ (mem_of_lookup hc)
  cases hres : (s.disk.performWith v
    (.rename (objectTmp dir call.item.data) (objectFile dir call.item.data))).1 with
  | ok r =>
    have htmp := objects_plain (tmp_plain (Protocol.hash call.item.data))
    have hfile := objects_plain (hash_plain call.item.data).2
    have hmark : markSet dir call.item (.rename (objectTmp dir call.item.data)
        (objectFile dir call.item.data)) call.stage = .stored := by
      rw [markSet_spot hg.hash_eq, if_pos rfl]
    have hinj : ∀ x, Known sets x → Protocol.hash x = Protocol.hash call.item.data → x = call.item.data := by
      rintro x ⟨item, hi, rfl⟩ heq
      exact hcol item hi _ hsets heq
    obtain ⟨hstored, hd⟩ := rename_apart hplain hinj hsrc v hres
    refine h.op_store hdir hc ⟨rfl, rfl, rfl⟩ hstage hmark hok halone (fun c hcs hi hun => ?_) hstored hd
    refine (h.waiting c hcs hun).performWith (spares_rename hplain htmp hfile ?_ ?_) v
    · simpa using (h.differ hc hstage c hcs hi hun).symm
    · simpa using hash_ne_tmp call.item.data c.2.item.data
  | error e =>
    have hsame : (s.disk.performWith v (.rename (objectTmp dir call.item.data)
        (objectFile dir call.item.data))).2 = s.disk.answering v :=
      rename_error (d := s.disk.answering v) hres
    rw [hsame]
    exact h.op_waiting hdir hc ⟨rfl, rfl, rfl⟩ hstage hstage (.inr (.inr ⟨e, herr e⟩))
      (fun c hcs _ hun => h.waiting c hcs hun) (Apart.answering s.disk v)

/-- A step by one operation keeps the invariant. -/
theorem Upright.op (hdir : ∀ seg ∈ dir, FileName seg)
    (hcol : ∀ a ∈ sets, ∀ b ∈ sets, Protocol.hash a.data = Protocol.hash b.data → a.data = b.data)
    (h : Upright dir sets s) {v : FileOp → Verdict} {t : Projection} (ho : Orderly s (.op i v))
    (ht : step s (.op i v) = some t) : Upright dir sets t := by
  obtain rfl := h.dir_eq
  obtain ⟨call, o, next, hc, hprog, rfl⟩ := step_op ht
  have hmem := mem_of_lookup hc
  by_cases hstage : call.stage = .untouched
  · have hg := (h.items _ hmem).1
    obtain hset | ⟨⟨next', hops, herr, hok⟩, hsrc⟩ | ⟨e, hdone⟩ := h.waiting _ hmem hstage
    · obtain ⟨next', hops, herr, hok⟩ := setOps_begins (fun seg hs => (hdir seg hs).1) hg.hash_eq
      cases hprog.symm.trans (hset.trans hops)
      exact h.op_write hdir hc hstage herr hok v
    · cases hprog.symm.trans hops
      have hadvances : Advances s.dir call := by
        rw [Advances, hprog]
        change markSet s.dir call.item _ _ ≠ .untouched
        rw [markSet_spot hg.hash_eq, if_pos rfl]
        exact SetStage.noConfusion
      exact h.op_rename hdir hcol hc hstage herr hok hsrc (ho call hc hadvances) v
    · cases hprog.symm.trans hdone
  · exact h.op_busy hdir hc hstage hprog v

end Operation

/-! ### The other steps -/

section Steps
variable {dir : Place} {sets : List Item} {s t : Projection} {i : ℕ}

theorem Upright.begin {item : Item} (h : Upright dir sets s) (hg : Given dir item) (hsets : item ∈ sets)
    (ho : Orderly s (.begin i item)) (ht : step s (.begin i item) = some t) : Upright dir sets t := by
  obtain rfl | ⟨hnew, rfl⟩ := step_begin ht
  · refine ⟨h.dir_eq, h.keys, h.items, h.waiting, h.apart, h.calm, h.busy, h.alone, fun p hp => ?_⟩
    obtain hp | hp := List.mem_append.mp hp
    · exact h.failed p hp
    · rw [List.mem_singleton.mp hp]
  · constructor
    case dir_eq => exact h.dir_eq
    case keys =>
      intro c hc c' hc' hi
      obtain rfl | ⟨c₀, hc₀, rfl⟩ := mem_joined hc
      · obtain rfl | ⟨c₀', hc₀', rfl⟩ := mem_joined hc'
        · rfl
        · exact absurd hi.symm (hnew c₀' hc₀')
      · obtain rfl | ⟨c₀', hc₀', rfl⟩ := mem_joined hc'
        · exact absurd hi (hnew c₀ hc₀)
        · rw [h.keys c₀ hc₀ c₀' hc₀' hi]
    case items =>
      intro c hc
      obtain rfl | ⟨c₀, hc₀, rfl⟩ := mem_joined hc
      · exact ⟨hg, hsets⟩
      · exact h.items c₀ hc₀
    case waiting =>
      intro c hc hun
      obtain rfl | ⟨c₀, hc₀, rfl⟩ := mem_joined hc
      · exact .inl (by rw [h.dir_eq])
      · exact h.waiting c₀ hc₀ hun
    case apart =>
      intro c hc c' hc' hun hun' hhash
      obtain rfl | ⟨c₀, hc₀, rfl⟩ := mem_joined hc
      · obtain rfl | ⟨c₀', hc₀', rfl⟩ := mem_joined hc'
        · rfl
        · exact absurd hhash.symm (ho.2 c₀' hc₀' hun')
      · obtain rfl | ⟨c₀', hc₀', rfl⟩ := mem_joined hc'
        · exact absurd hhash (ho.2 c₀ hc₀ hun)
        · exact h.apart c₀ hc₀ c₀' hc₀' hun hun' hhash
    case calm =>
      intro hall
      exact h.calm fun c hc => hall (c.1, { c.2 with alone := false })
        (List.mem_cons_of_mem _ (List.mem_map.mpr ⟨c, hc, rfl⟩))
    case busy =>
      intro c hc hne
      obtain rfl | ⟨c₀, hc₀, rfl⟩ := mem_joined hc
      · exact absurd rfl hne
      · obtain ⟨hothers, hbusy⟩ := h.busy c₀ hc₀ hne
        refine ⟨fun c' hc' hi => ?_, hbusy⟩
        obtain rfl | ⟨c₀', hc₀', rfl⟩ := mem_joined hc'
        · rfl
        · exact hothers c₀' hc₀' hi
    case alone =>
      intro c hc hal
      obtain rfl | ⟨c₀, hc₀, rfl⟩ := mem_joined hc
      · refine ⟨?_, fun _ => rfl⟩
        rw [List.isEmpty_iff.mp hal]
        rfl
      · cases hal
    case failed => exact h.failed

/-- What the record shows survives a crash. -/
theorem Upright.durable (h : Upright dir sets s) {v : FileOp → Verdict} (ho : Orderly s (.crash v)) :
    ∃ m, Shows dir (Known sets) (record dir s.disk) m s.disk := by
  by_cases hall : ∀ c ∈ s.calls, c.2.stage = .untouched
  · obtain ⟨_, m, _, hm⟩ := h.calm hall
    exact ⟨m, hm⟩
  · push Not at hall
    obtain ⟨c, hc, hne⟩ := hall
    obtain ⟨_, _, old, m, m', hsafe⟩ := h.busy c hc hne
    have hC := hsafe.now Apart.refl
    cases hstage : c.2.stage with
    | untouched => exact absurd hstage hne
    | stored =>
      rw [hstage] at hC
      exact ⟨m', hC.2.2.1 ▸ hC.2.2.2⟩
    | replaced =>
      have hvacant := (ho ⟨c, hc, hstage⟩).2
      rw [h.dir_eq] at hvacant
      exact ⟨none, hvacant⟩
    | committed =>
      rw [hstage] at hC
      exact ⟨some c.2.item.data, hC.1 ▸ hC.2⟩

/-- Without calls, only what is shown matters. -/
theorem upright_idle (hdir : s.dir = dir) (hcalls : s.calls = []) (hcalm : Calm dir sets s.cur s.disk)
    (hfailed : ∀ p ∈ s.failed, p.1 = p.2) : Upright dir sets s := by
  have hnone : ∀ c, c ∉ s.calls := by simp [hcalls]
  exact ⟨hdir, fun c hc => absurd hc (hnone c), fun c hc => absurd hc (hnone c),
    fun c hc => absurd hc (hnone c), fun c hc => absurd hc (hnone c), fun _ => hcalm,
    fun c hc => absurd hc (hnone c), fun c hc => absurd hc (hnone c), hfailed⟩

theorem Upright.crash (hdir : ∀ seg ∈ dir, FileName seg) (h : Upright dir sets s) {v : FileOp → Verdict}
    (ho : Orderly s (.crash v)) (ht : step s (.crash v) = some t) : Upright dir sets t := by
  obtain ⟨m, hm⟩ := h.durable ho
  obtain ⟨cur, disk, hrun, rfl⟩ := step_crash ht
  rw [h.dir_eq] at hrun
  obtain ⟨rfl, hcur⟩ := openBackend_ok (fun seg hs => (hdir seg hs).1) hrun
  have hsame : record dir ((s.disk.answering v).createDirAll (objects dir)).2 = record dir s.disk := by
    rw [record, content_createDirAll, ← record]
    rfl
  have hm' : Shows dir (Known sets) (record dir s.disk) m
      ((s.disk.answering v).createDirAll (objects dir)).2 :=
    shows_createDirAll (d := s.disk.answering v) (objects dir) (stable_shows _ _ (Apart.answering _ v) hm)
  refine upright_idle h.dir_eq rfl ?_ h.failed
  rw [Calm, hsame]
  obtain rfl | rfl := hcur
  · exact ⟨none, m, rfl, hm'⟩
  · rw [hsame]
    exact ⟨m, m, hm', hm'⟩

/-- A call that has ended is taken away, and what it leaves is calm. -/
theorem Upright.drop (h : Upright dir sets s) {call : SetCall} (hc : s.calls.lookup i = some call)
    {cur : Current} {new : List (View × View)}
    (hcur : ∀ c ∈ s.calls, c.1 ≠ i → c.2.stage ≠ .untouched → cur = s.cur)
    (hcalm : (∀ c ∈ s.calls, c.1 ≠ i → c.2.stage = .untouched) → Calm dir sets cur s.disk)
    (hnew : ∀ p ∈ new, p.1 = p.2) :
    Upright dir sets { s.drop i with cur := cur, failed := s.failed ++ new } := by
  have hmem := mem_of_lookup hc
  have hsub : ∀ c ∈ (s.drop i).calls, c ∈ s.calls := fun c hc => (mem_drop.mp hc).1
  constructor
  case dir_eq => exact h.dir_eq
  case keys => exact fun c hc c' hc' hi => h.keys c (hsub c hc) c' (hsub c' hc') hi
  case items => exact fun c hc => h.items c (hsub c hc)
  case waiting => exact fun c hc hun => h.waiting c (hsub c hc) hun
  case apart => exact fun c hc c' hc' hun hun' => h.apart c (hsub c hc) c' (hsub c' hc') hun hun'
  case calm => exact fun hall => hcalm fun c hcs hi => hall c (mem_drop.mpr ⟨hcs, hi⟩)
  case busy =>
    intro c hc hne
    obtain ⟨hcs, hi⟩ := mem_drop.mp hc
    obtain ⟨hothers, hbusy⟩ := h.busy c hcs hne
    refine ⟨fun c' hc' hi' => hothers c' (hsub c' hc') hi', ?_⟩
    have heq := hcur c hcs hi hne
    change Busy dir sets cur c.2 s.disk
    rw [heq]
    exact hbusy
  case alone =>
    intro c hc hal
    obtain ⟨hcs, hi⟩ := mem_drop.mp hc
    have hone := (h.alone c hcs hal).1
    rw [hone] at hmem
    exact absurd (congrArg Prod.fst (List.mem_singleton.mp hmem)).symm hi
  case failed =>
    intro p hp
    obtain hp | hp := List.mem_append.mp hp
    · exact h.failed p hp
    · exact hnew p hp

/-- A call ends well only past its object, with its record committed. -/
theorem Upright.finished (hdir : ∀ seg ∈ dir, FileName seg) (h : Upright dir sets s) {call : SetCall}
    (hc : s.calls.lookup i = some call) {item : Item} {cur : Current} (hprog : call.prog = .done (.ok (item, cur))) :
    (∀ c ∈ s.calls, c.1 ≠ i → c.2.stage = .untouched) ∧ Calm dir sets cur s.disk := by
  have hmem := mem_of_lookup hc
  have hstage : call.stage ≠ .untouched := by
    intro hun
    have hg := (h.items _ hmem).1
    obtain hset | ⟨⟨next, hmove, _⟩, _⟩ | ⟨e, herr⟩ := h.waiting _ hmem hun
    · obtain ⟨next, hops, _⟩ := setOps_begins (fun seg hs => (hdir seg hs).1) hg.hash_eq
      have := hprog.symm.trans (hset.trans hops)
      cases this
    · have := hprog.symm.trans hmove
      cases this
    · have := hprog.symm.trans herr
      cases this
  obtain ⟨hothers, _, old, m, m', hsafe⟩ := h.busy _ hmem hstage
  refine ⟨hothers, ?_⟩
  rw [hprog] at hsafe
  obtain ⟨hC, hst, hcur⟩ := hsafe s.disk (Apart.refl _)
  rw [hst] at hC
  rw [Calm, hC.1, hcur]
  exact ⟨_, _, hC.2, hC.2⟩

/-- A call that fails leaves things calm, when it is the last to be past its object. -/
theorem Upright.failed_calm (h : Upright dir sets s) {call : SetCall} (hc : s.calls.lookup i = some call)
    {e : IoError} (hprog : call.prog = .done (.error e)) (hvacant : call.stage = .replaced → Vacant s)
    (hothers : ∀ c ∈ s.calls, c.1 ≠ i → c.2.stage = .untouched) : Calm dir sets s.cur s.disk := by
  have hmem := mem_of_lookup hc
  by_cases hstage : call.stage = .untouched
  · refine h.calm fun c hcs => ?_
    by_cases hi : c.1 = i
    · rw [h.keys c hcs _ hmem hi]
      exact hstage
    · exact hothers c hcs hi
  · obtain ⟨_, _, old, m, m', hsafe⟩ := h.busy _ hmem hstage
    rw [hprog] at hsafe
    obtain ⟨hC, hst⟩ := hsafe s.disk (Apart.refl _)
    obtain hst | hst := hst
    · rw [hst] at hC
      exact ⟨m, m', hC.2.1, hC.2.2.1 ▸ hC.2.2.2⟩
    · obtain ⟨hcur, hrecord⟩ := hvacant hst
      rw [h.dir_eq] at hrecord
      exact ⟨none, none, hcur, hrecord⟩

theorem Upright.finish (hdir : ∀ seg ∈ dir, FileName seg) (h : Upright dir sets s)
    (ho : Orderly s (.finish i)) (ht : step s (.finish i) = some t) : Upright dir sets t := by
  obtain ⟨call, hc, hfin⟩ := step_finish ht
  have hmem := mem_of_lookup hc
  have hvacant : call.stage = .replaced → Vacant s := ho call hc
  obtain ⟨item, cur, hprog, rfl⟩ | ⟨e, hprog, rfl⟩ := hfin
  · obtain ⟨hothers, hcalm⟩ := h.finished hdir hc hprog
    have hnew : ∀ p ∈ ([] : List (View × View)), p.1 = p.2 := fun _ hp => absurd hp List.not_mem_nil
    have := h.drop hc (fun c hcs hi hne => absurd (hothers c hcs hi) hne) (fun _ => hcalm) hnew
    rw [List.append_nil] at this
    exact this
  · refine h.drop hc (fun _ _ _ _ => rfl) (h.failed_calm hc hprog hvacant) fun p hp => ?_
    split_ifs at hp with hal
    · rw [List.mem_singleton.mp hp]
      refine (h.alone _ hmem hal).2 ?_
      by_cases hstage : call.stage = .untouched
      · exact .inl hstage
      · obtain ⟨_, _, old, m, m', hsafe⟩ := h.busy _ hmem hstage
        rw [hprog] at hsafe
        obtain hst | hst := (hsafe s.disk (Apart.refl _)).2
        · exact .inr (.inl hst)
        · exact .inr (.inr (hvacant hst).1)
    · cases hp

end Steps

/-! ## Runs -/

section Runs
variable {dir : Place}

theorem upright_opened {disk : Disk} (hnew : record dir disk = Current.default) (sets : List Item) :
    Upright dir sets (opened dir disk) :=
  upright_idle rfl rfl ⟨none, none, rfl, hnew⟩ fun _ hp => absurd hp List.not_mem_nil

theorem Upright.projects {sets : List Item} {s : Projection} (hdir : ∀ seg ∈ dir, FileName seg)
    (h : Upright dir sets s) : Projects sets s := by
  refine ⟨fun hcalls => ?_, h.failed⟩
  obtain ⟨m, _, hm, _⟩ := h.calm fun c hc => by simp [hcalls] at hc
  rw [seen, h.dir_eq, hm.view hdir]
  cases m with
  | none => exact .inl rfl
  | some data =>
    obtain ⟨⟨item, hitem, rfl⟩, hhash, _⟩ := hm
    exact .inr ⟨item, hitem, _, rfl, rfl, hhash, rfl⟩

/-- Along an orderly run the projection holds. The hashes are those of the data, no two sets share one without
sharing the data, and a record is read back as it was written. -/
theorem orderly_projects (hdir : ∀ seg ∈ dir, FileName seg) {disk : Disk}
    (hnew : record dir disk = Current.default) {es : List ProjectionEvent} {s : Projection}
    (hhash : ∀ item ∈ begun es, itemHash item = Protocol.hash item.data)
    (hcol : ∀ a ∈ begun es, ∀ b ∈ begun es, Protocol.hash a.data = Protocol.hash b.data → a.data = b.data)
    (hjson : ∀ item ∈ begun es, Json.decode (Json.encode (recordOf dir item)) = some (recordOf dir item))
    (horder : Guarded step Orderly (opened dir disk) es) (hrun : exec step (opened dir disk) es = some s) :
    Projects (begun es) s := by
  have hmem : ∀ e ∈ es, ∀ i item, e = .begin i item → item ∈ begun es := by
    rintro _ he i item rfl
    exact List.mem_filterMap.mpr ⟨_, he, rfl⟩
  have hguard := horder.and step (guarded_of_forall step hmem (opened dir disk))
  refine (exec_guarded (I := Upright dir (begun es)) ?_ (upright_opened hnew _) hguard hrun).projects hdir
  rintro s e t h ⟨ho, he⟩ ht
  cases e with
  | begin i item =>
    have hitem := he i item rfl
    exact h.begin ⟨hhash item hitem, ho.1, hjson item hitem⟩ hitem ho ht
  | op i v => exact h.op hdir hcol ho ht
  | finish i => exact h.finish hdir ho ht
  | crash v => exact h.crash hdir ho ht

end Runs

/-! ### Two calls -/

instance (dir : Place) (call : SetCall) : Decidable (Advances dir call) := by
  unfold Advances
  split <;> infer_instance

instance (s : Projection) : Decidable (Vacant s) := inferInstanceAs (Decidable (_ ∧ _))

instance (s : Projection) : ∀ e, Decidable (Orderly s e)
  | .begin _ _ => inferInstanceAs (Decidable (_ ∧ _))
  | .op i _ => inferInstanceAs (Decidable (∀ call ∈ s.calls.lookup i, Advances s.dir call →
      ∀ c ∈ s.calls, c.1 ≠ i → c.2.stage = .untouched))
  | .finish i => inferInstanceAs (Decidable (∀ call ∈ s.calls.lookup i, call.stage = .replaced → Vacant s))
  | .crash _ => inferInstanceAs (Decidable ((∃ c ∈ s.calls, c.2.stage = .replaced) → Vacant s))

end Projection

/-- `serde_json` on these records. -/
abbrev recordJson (records : List Current) : Json Current where
  encode := sampleJson.encode
  decode := fun bytes => records.find? fun c => sampleJson.encode c = bytes

def hiText : Item := ⟨"text/plain", [104, 105], "", "", ""⟩
def yoText : Item := ⟨"text/plain", [121, 111], "", "", "yo.txt"⟩

abbrev textJson : Json Current :=
  letI := sampleSha256
  recordJson ([hiText, yoText].map (recordOf homeBackend.dir))

def allowed (i n : ℕ) : List ProjectionEvent := List.replicate n (.op i fun _ => .allow)

/-- Two calls overlap until one of them is about to store its object; then a crash. -/
def inTurnRun : List ProjectionEvent :=
  [.begin 0 hiText, .begin 1 yoText] ++ allowed 1 1 ++ allowed 0 9 ++ [.finish 0] ++ allowed 1 11 ++
    [.finish 1, .crash fun _ => .allow]

theorem inTurnRun_projects :
    letI := sampleSha256
    letI := textJson
    ∃ s, exec Projection.step (Projection.opened homeBackend.dir homeDisk) inTurnRun = some s ∧
      Projection.Projects (Projection.begun inTurnRun) s := by
  obtain ⟨s, hrun⟩ := Option.isSome_iff_exists.mp (show (exec (@Projection.step sampleSha256 textJson)
    (@Projection.opened homeBackend.dir homeDisk) inTurnRun).isSome by decide +kernel)
  exact ⟨s, hrun, @Projection.orderly_projects sampleSha256 textJson homeBackend.dir (by decide) homeDisk
    (by decide +kernel) inTurnRun s (by decide +kernel) (by decide +kernel) (by decide +kernel)
    (by decide +kernel) hrun⟩

/-- The disk refuses the second record. -/
def cutShortRun : List ProjectionEvent :=
  .begin 0 hiText :: allowed 0 9 ++ [.finish 0, .begin 1 yoText] ++ allowed 1 10 ++
    [.op 1 fun _ => .refuse, .finish 1]

/-- The second call returned an error, and `get` still gives the first text: its file holds the second. -/
theorem cutShort_loses :
    letI := sampleSha256
    letI := textJson
    (∀ item ∈ Projection.begun cutShortRun, itemHash item = Protocol.hash item.data) ∧
    ∃ s, exec Projection.step (Projection.opened homeBackend.dir homeDisk) cutShortRun = some s ∧
      ¬ Projection.Projects (Projection.begun cutShortRun) s := by
  let _ := sampleSha256
  let _ := textJson
  refine ⟨by decide +kernel, ?_⟩
  have hrun : (exec Projection.step (Projection.opened homeBackend.dir homeDisk) cutShortRun).map
      (fun s => (s.calls.isEmpty, s.seen.1.toOption.join.map Item.data, s.seen.2.toOption)) =
      some (true, some [104, 105], some [121, 111]) := by decide +kernel
  obtain ⟨s, hs, hseen⟩ := Option.map_eq_some_iff.mp hrun
  refine ⟨s, hs, fun h => ?_⟩
  obtain ⟨hcalls, hget, hfile⟩ : s.calls.isEmpty = true ∧
      s.seen.1.toOption.join.map Item.data = some [104, 105] ∧ s.seen.2.toOption = some [121, 111] := by
    simpa using hseen
  obtain hnone | ⟨item, _, got, hgot, hdata, _, hread⟩ := h.whole (List.isEmpty_iff.mp hcalls)
  · rw [hnone] at hget
    cases hget
  · rw [hgot] at hget
    rw [hread] at hfile
    have h1 : got.data = [104, 105] := Option.some.inj hget
    have h2 : got.data = [121, 111] := Option.some.inj hfile
    rw [h1] at h2
    exact absurd h2 (by decide)

end Zsync
