import Zsync.Model.Projection
import Zsync.Storage.Containment

/-! # A call of `set` that may be cut anywhere

* `spot dir l` is a place below `dir/clips`; all files of the backend are such places, and `record` is what
  `current.json` gives when it is read.
* `Shows cur data` says that a record shows `data`: its object and the file that it offers hold these bytes.
* `Apart` is what calls that store their objects may do to the disk.
* `Held` says what stands on the disk at each stage of a call, and `safe_afterObject` that it does, wherever
  the call is cut after it has stored its object.
-/

namespace Zsync
set_option autoImplicit false
set_option maxHeartbeats 250000
open Protocol Foundations Foundations.Files

namespace FileBackend

/-! ## Places below `clips` -/

def spot (dir : Place) (l : List String) : Place := dir ++ "clips" :: l

/-- A name of one segment. -/
def FileName (name : String) : Prop := Plain name ∧ '/' ∉ name.toList

instance (name : String) : Decidable (FileName name) := inferInstanceAs (Decidable (_ ∧ _))

section Spots
variable {dir : Place} {l l' : List String}

@[simp] theorem spot_inj : spot dir l = spot dir l' ↔ l = l' := by simp [spot]

@[simp] theorem spot_below : spot dir l <+: spot dir l' ↔ l <+: l' := by
  rw [spot, spot, List.prefix_append_right_inj, List.cons_prefix_cons]
  simp

theorem spot_plain (hdir : ∀ seg ∈ dir, Plain seg) (hl : ∀ seg ∈ l, Plain seg) :
    ∀ seg ∈ spot dir l, Plain seg := by
  have hc : Plain "clips" := by decide
  intro seg hs
  obtain hs | hs := List.mem_append.mp hs
  · exact hdir seg hs
  · obtain rfl | hs := List.mem_cons.mp hs
    · exact hc
    · exact hl seg hs

theorem place_spot (hdir : ∀ seg ∈ dir, Plain seg) (hl : ∀ seg ∈ l, Plain seg) :
    Path.place ⟨spot dir l⟩ = spot dir l := place_plain (spot_plain hdir hl)

theorem join_spot {name : String} (h : '/' ∉ name.toList) :
    Path.join ⟨spot dir l⟩ name = ⟨spot dir (l ++ [name])⟩ := by
  rw [Path.join_plain _ h, spot, spot]
  simp

theorem clips_eq : clips dir = ⟨spot dir []⟩ := rfl

theorem entry_eq (name : String) : (clips dir).entry name = ⟨spot dir [name]⟩ := by
  simp [Path.entry, clips_eq, spot]

theorem object_eq {h : String} (hh : '/' ∉ h.toList) :
    (objects dir).join h = ⟨spot dir ["objects", h]⟩ := by
  rw [objects, clips_eq, join_spot (by decide), join_spot hh]
  rfl

theorem stable_eq {e : String} (he : e ∈ extensions) : stable dir e = ⟨spot dir ["current" ++ e]⟩ := by
  rw [stable, clips_eq, join_spot (stable_plain he).1]
  rfl

theorem metaPath_eq : metaPath dir = ⟨spot dir ["current.json"]⟩ := by
  rw [metaPath, clips_eq, join_spot (by decide)]
  rfl

theorem drop_eq : dropDir dir = ⟨spot dir ["drop"]⟩ := dropDir_eq

theorem named_eq {name : String} (hn : '/' ∉ name.toList) :
    (dropDir dir).join name = ⟨spot dir ["drop", name]⟩ := by
  rw [drop_eq, join_spot hn]
  rfl

theorem tmp_spot (hdir : ∀ seg ∈ dir, Plain seg) {seg : String} (hl : ∀ s ∈ l ++ [seg], Plain s) :
    tmpPath ⟨spot dir (l ++ [seg])⟩ = ⟨spot dir (l ++ [seg ++ ".tmp"])⟩ := by
  have hp := spot_plain hdir hl
  have happ : ∀ name, spot dir (l ++ [name]) = spot dir l ++ [name] := fun name => by simp [spot]
  rw [happ] at hp ⊢
  rw [tmpPath_plain hp, happ]

end Spots

/-! ## What a call leaves -/

section Target
variable [Sha256] (dir : Place) (item : Item)

/-- The names below `clips` of the file that the call offers. -/
def offerNames : List String :=
  if item.name = "" then ["current" ++ itemExt item] else ["drop", item.name]

def recordOf : Current :=
  ⟨itemHash item, itemMime item, item.data.length, Path.toText ⟨spot dir (offerNames item)⟩, item.name⟩

/-- `current.json`, as it would be read. -/
def record [Json Current] (disk : Disk) : Current :=
  match disk.content (spot dir ["current.json"]) with
  | some bytes => (Json.decode bytes).getD Current.default
  | none => Current.default

/-- The hash belongs to the data, the name is no path, and the record is read back as it was written. -/
structure Given [Json Current] : Prop where
  hash_eq : itemHash item = Protocol.hash item.data
  name : item.name = "" ∨ FileName item.name
  written : Json.decode (Json.encode (recordOf dir item)) = some (recordOf dir item)

end Target

/-- Where a file that is offered can lie. -/
inductive Offered : List String → Prop
  | stable {e : String} (he : e ∈ extensions) : Offered ["current" ++ e]
  | named {name : String} (hn : FileName name) : Offered ["drop", name]

section Names

theorem ext_mem (item : Item) : itemExt item ∈ extensions := extForMime_mem _

theorem stable_ne {e : String} (he : e ∈ extensions) : "current" ++ e ≠ "current.json" ∧
    "current" ++ e ≠ "current.json.tmp" ∧ ∀ e' ∈ extensions, "current" ++ e ≠ "current" ++ e' ++ ".tmp" := by
  revert he
  revert e
  decide

theorem Offered.plain {l : List String} (h : Offered l) : ∀ seg ∈ l, FileName seg := by
  cases h with
  | stable he =>
    intro seg hs
    rw [List.mem_singleton.mp hs]
    exact ⟨(stable_plain he).2.2.1, (stable_plain he).1⟩
  | named hn =>
    intro seg hs
    simp only [List.mem_cons, List.not_mem_nil, or_false] at hs
    obtain rfl | rfl := hs
    · decide
    · exact hn

theorem Offered.not_object {l : List String} (h : Offered l) : ¬ ["objects"] <+: l := by
  cases h with
  | stable he =>
    rw [List.cons_prefix_cons]
    exact fun h => (stable_plain he).2.2.2.1.1 h.1.symm
  | named hn => simp

theorem Offered.ne_meta {l : List String} (h : Offered l) :
    l ≠ ["current.json"] ∧ l ≠ ["current.json.tmp"] := by
  cases h with
  | stable he =>
    constructor
    · simpa using (stable_ne he).1
    · simpa using (stable_ne he).2.1
  | named hn => simp

theorem Offered.ne_tmp {l : List String} (h : Offered l) {e : String} (he : e ∈ extensions) :
    l ≠ ["current" ++ e ++ ".tmp"] := by
  cases h with
  | stable he' => simpa using (stable_ne he').2.2 e he
  | named hn => simp

theorem offered_item {item : Item} (h : item.name = "" ∨ FileName item.name) : Offered (offerNames item) := by
  unfold offerNames
  split_ifs with hn
  · exact .stable (ext_mem item)
  · exact .named (h.resolve_left hn)

/-- A hash is never the temporary name of a hash. -/
theorem hash_ne_tmp [Sha256] (a b : Bytes) : Protocol.hash a ≠ Protocol.hash b ++ ".tmp" := by
  intro h
  have hl := congrArg (fun s : String => s.toList.length) h
  rw [String.toList_append, List.length_append, hash_length, hash_length] at hl
  exact absurd hl (by decide)

end Names

/-! ## What a record shows -/

section Shows
variable [Sha256] {dir : Place}

/-- The object of these bytes. -/
def Stored (dir : Place) (data : Bytes) : Disk → Prop :=
  FileAt (spot dir ["objects", Protocol.hash data]) data

def Shows (dir : Place) (known : Bytes → Prop) (cur : Current) : Option Bytes → Disk → Prop
  | none, _ => cur = Current.default
  | some data, d => known data ∧ cur.hash = Protocol.hash data ∧ Stored dir data d ∧
      ∃ l, Offered l ∧ cur.path = Path.toText ⟨spot dir l⟩ ∧ FileAt (spot dir l) data d

/-- The view that such a record gives. -/
def viewOf (cur : Current) : Option Bytes → View
  | none => (.ok none, .error .notFound)
  | some data => (.ok (some ⟨cur.mime, data, cur.hash, cur.path, cur.name⟩), .ok data)

theorem object_plain (hdir : ∀ seg ∈ dir, Plain seg) (data : Bytes) :
    ∀ seg ∈ spot dir ["objects", Protocol.hash data], Plain seg := by
  have hh := (hash_plain data).2
  refine spot_plain hdir fun seg hs => ?_
  simp only [List.mem_cons, List.not_mem_nil, or_false] at hs
  obtain rfl | rfl := hs
  · decide
  · exact hh

theorem Shows.view {known : Bytes → Prop} {cur : Current} {data : Option Bytes} {d : Disk}
    (hdir : ∀ seg ∈ dir, FileName seg) (h : Shows dir known cur data d) :
    view dir cur d = viewOf cur data := by
  cases data with
  | none =>
    have hcur : cur = Current.default := h
    subst hcur
    have hpath : FileBackend.currentPath Current.default = ⟨[""]⟩ := by decide
    rw [Zsync.view, hpath, viewOf]
    rfl
  | some data =>
    obtain ⟨_, hhash, hobj, l, hl, hpath, hfile⟩ := h
    have hplain : ∀ seg ∈ dir, Plain seg := fun seg hs => (hdir seg hs).1
    have hspot : ∀ seg ∈ spot dir l, FileName seg := by
      intro seg hs
      obtain hs | hs := List.mem_append.mp hs
      · exact hdir seg hs
      · obtain rfl | hs := List.mem_cons.mp hs
        · decide
        · exact hl.plain seg hs
    have hopen : FileBackend.currentPath cur = ⟨"" :: spot dir l⟩ := by
      rw [FileBackend.currentPath, hpath]
      exact Path.ofText_toText fun seg hs => (hspot seg hs).2
    let allowed := d.answering fun _ => .allow
    have hget : allowed.read ((objects dir).join cur.hash) = (.ok data, allowed) := by
      rw [hhash, object_eq (hash_plain data).1]
      exact read_fileAt (object_plain hplain data) (.inl rfl) (hobj.answering _) rfl
    have hread : allowed.read ⟨"" :: spot dir l⟩ = (.ok data, allowed) :=
      read_fileAt (fun seg hs => (hspot seg hs).1) (.inr rfl) (hfile.answering _) rfl
    have hne : cur.hash ≠ "" := by
      rw [hhash]
      exact hash_ne_empty data
    exact Prod.ext (getFrom_of_read hne hget) (by rw [Zsync.view, hopen]; exact congrArg Prod.fst hread)

end Shows

/-! ## What storing an object does to the rest -/

/-- Only objects change, and those that are known stay. -/
structure Apart [Sha256] (dir : Place) (known : Bytes → Prop) (d d' : Disk) : Prop where
  rooted : ∀ r, Rooted r d → Rooted r d'
  content : ∀ q, ¬ spot dir ["objects"] <+: q → d'.content q = d.content q
  stored : ∀ data, known data → Stored dir data d → Stored dir data d'

section Apart
variable {dir : Place} {known : Bytes → Prop}

section Stable
variable [Sha256]

theorem Apart.refl (d : Disk) : Apart dir known d d := ⟨fun _ h => h, fun _ _ => rfl, fun _ _ h => h⟩

theorem Apart.trans {a b c : Disk} (h : Apart dir known a b) (k : Apart dir known b c) :
    Apart dir known a c :=
  ⟨fun r hr => k.rooted r (h.rooted r hr), fun q hq => (k.content q hq).trans (h.content q hq),
    fun data hk hd => k.stored data hk (h.stored data hk hd)⟩

/-- The verdict is no part of what a disk holds. -/
theorem Apart.answering (d : Disk) (v : FileOp → Verdict) : Apart dir known d (d.answering v) :=
  ⟨fun _ h => h, fun _ _ => rfl, fun _ _ h => h.answering v⟩

theorem stable_fileAt {l : List String} (hl : ¬ ["objects"] <+: l) (data : Bytes) :
    Stable (Apart dir known) (FileAt (spot dir l) data) := by
  intro d d' h hd
  exact ⟨h.rooted _ hd.rooted, (h.content _ (by simpa using hl)).trans hd.content, hd.nulFree⟩

theorem stable_content {l : List String} (hl : ¬ ["objects"] <+: l) (data : Option Bytes) :
    Stable (Apart dir known) (fun d => d.content (spot dir l) = data) := by
  intro d d' h hd
  exact (h.content _ (by simpa using hl)).trans hd

theorem stable_record [Json Current] (j : Current) :
    Stable (Apart dir known) (fun d => record dir d = j) := by
  intro d d' h hd
  rw [record, h.content _ (by simp), ← record]
  exact hd

theorem stable_stored {data : Bytes} (hk : known data) : Stable (Apart dir known) (Stored dir data) :=
  fun _ _ h hd => h.stored data hk hd

theorem stable_shows (cur : Current) (data : Option Bytes) :
    Stable (Apart dir known) (Shows dir known cur data) := by
  intro d d' h hd
  cases data with
  | none => exact hd
  | some data =>
    obtain ⟨hk, hhash, hobj, l, hl, hpath, hfile⟩ := hd
    exact ⟨hk, hhash, h.stored data hk hobj, l, hl, hpath, stable_fileAt hl.not_object data h hfile⟩

end Stable

/-! ## Operations that leave the objects alone -/

/-- The operation is not about an object. -/
def Outside (dir : Place) (o : FileOp) : Prop := ∀ q, spot dir ["objects"] <+: q → Spares q o

theorem record_performWith [Json Current] {d : Disk} {o : FileOp} (h : Spares (spot dir ["current.json"]) o)
    (v : FileOp → Verdict) : record dir (d.performWith v o).2 = record dir d := by
  rw [record, Disk.performWith, content_perform h]
  rfl

theorem Outside.stored [Sha256] {d : Disk} {o : FileOp} {data : Bytes} (ho : Outside dir o)
    (h : Stored dir data d) (v : FileOp → Verdict) : Stored dir data (d.performWith v o).2 :=
  FileAt.performWith h (ho _ (by simp)) v

theorem Shows.performWith [Sha256] {cur : Current} {data : Option Bytes} {d : Disk} {o : FileOp}
    (h : Shows dir known cur data d) (ho : Outside dir o) (hl : ∀ l, Offered l → Spares (spot dir l) o)
    (v : FileOp → Verdict) : Shows dir known cur data (d.performWith v o).2 := by
  cases data with
  | none => exact h
  | some data =>
    obtain ⟨hk, hhash, hobj, l, hoff, hpath, hfile⟩ := h
    exact ⟨hk, hhash, ho.stored hobj v, l, hoff, hpath, hfile.performWith (hl l hoff) v⟩

/-- A place below `clips` that is not among the objects. -/
structure Aside (l : List String) : Prop where
  plain : ∀ seg ∈ l, Plain seg
  apart : ¬ ["objects"] <+: l

theorem Aside.place {l : List String} (h : Aside l) (hdir : ∀ seg ∈ dir, Plain seg) :
    Path.place ⟨spot dir l⟩ = spot dir l := place_spot hdir h.plain

theorem Aside.not_below {l : List String} (h : Aside l) {q : Place} (hq : spot dir ["objects"] <+: q) :
    spot dir l ≠ q := by
  rintro rfl
  exact h.apart (spot_below.mp hq)

theorem Aside.write {l : List String} (h : Aside l) (hdir : ∀ seg ∈ dir, Plain seg) (data : Bytes) :
    Outside dir (.write ⟨spot dir l⟩ data) := by
  intro q hq
  change Path.place ⟨spot dir l⟩ ≠ q
  rw [h.place hdir]
  exact h.not_below hq

theorem Aside.rename {l l' : List String} (h : Aside l) (h' : Aside l') (hdir : ∀ seg ∈ dir, Plain seg) :
    Outside dir (.rename ⟨spot dir l⟩ ⟨spot dir l'⟩) := by
  intro q hq
  change Path.place ⟨spot dir l⟩ ≠ q ∧ Path.place ⟨spot dir l'⟩ ≠ q
  rw [h.place hdir, h'.place hdir]
  exact ⟨h.not_below hq, h'.not_below hq⟩

theorem spares_write {l l' : List String} (hdir : ∀ seg ∈ dir, Plain seg) (hl : ∀ seg ∈ l, Plain seg)
    (h : l ≠ l') (data : Bytes) : Spares (spot dir l') (.write ⟨spot dir l⟩ data) := by
  change Path.place ⟨spot dir l⟩ ≠ spot dir l'
  rw [place_spot hdir hl]
  simpa using h

theorem spares_rename {a b l' : List String} (hdir : ∀ seg ∈ dir, Plain seg) (ha : ∀ seg ∈ a, Plain seg)
    (hb : ∀ seg ∈ b, Plain seg) (h : a ≠ l') (k : b ≠ l') :
    Spares (spot dir l') (.rename ⟨spot dir a⟩ ⟨spot dir b⟩) := by
  change Path.place ⟨spot dir a⟩ ≠ spot dir l' ∧ Path.place ⟨spot dir b⟩ ≠ spot dir l'
  rw [place_spot hdir ha, place_spot hdir hb]
  simpa using ⟨h, k⟩

theorem aside_stable {e : String} (he : e ∈ extensions) : Aside ["current" ++ e] := by
  refine ⟨fun seg hs => (Offered.stable he).plain seg hs |>.1, (Offered.stable he).not_object⟩

theorem aside_stableTmp {e : String} (he : e ∈ extensions) : Aside ["current" ++ e ++ ".tmp"] := by
  refine ⟨fun seg hs => ?_, ?_⟩
  · rw [List.mem_singleton.mp hs]
    exact tmp_plain _
  · rw [List.cons_prefix_cons]
    exact fun h => (stable_plain he).2.2.2.2.1 h.1.symm

theorem aside_ne_meta {e : String} (he : e ∈ extensions) : ["current" ++ e] ≠ ["current.json"] ∧
    ["current" ++ e ++ ".tmp"] ≠ ["current.json"] := by
  revert he
  revert e
  decide

theorem tmp_stable (hdir : ∀ seg ∈ dir, Plain seg) {e : String} (he : e ∈ extensions) :
    tmpPath ⟨spot dir ["current" ++ e]⟩ = ⟨spot dir ["current" ++ e ++ ".tmp"]⟩ :=
  tmp_spot (l := []) hdir (aside_stable he).plain

theorem aside_named {name : String} (hn : Plain name) : Aside ["drop", name] := by
  refine ⟨fun seg hs => ?_, by simp⟩
  simp only [List.mem_cons, List.not_mem_nil, or_false] at hs
  obtain rfl | rfl := hs
  · decide
  · exact hn

theorem aside_meta : Aside ["current.json"] ∧ Aside ["current.json.tmp"] :=
  ⟨⟨by decide, by decide⟩, ⟨by decide, by decide⟩⟩

theorem tmp_named (hdir : ∀ seg ∈ dir, Plain seg) {name : String} (hn : Plain name) :
    tmpPath ⟨spot dir ["drop", name]⟩ = ⟨spot dir ["drop", name ++ ".tmp"]⟩ :=
  tmp_spot (l := ["drop"]) hdir (aside_named hn).plain

theorem tmp_meta (hdir : ∀ seg ∈ dir, Plain seg) :
    tmpPath ⟨spot dir ["current.json"]⟩ = ⟨spot dir ["current.json.tmp"]⟩ :=
  tmp_spot (l := []) hdir aside_meta.1.plain

theorem aside_drop : Aside ["drop"] := ⟨by decide, by decide⟩

theorem aside_stale {name : String} (h : startsWith name "current" = true) : Aside [name] := by
  refine ⟨fun seg hs => ?_, ?_⟩
  · rw [List.mem_singleton.mp hs]
    exact current_plain h
  · rw [List.cons_prefix_cons]
    rintro ⟨rfl, _⟩
    exact absurd h (by decide)

end Apart

/-! ## The operations of the parts -/

section Parts
variable {dir : Place} {A : FileOp → Prop}

theorem allOps_writeAtomic {p : Path} {data : Bytes} (hw : A (.write (tmpPath p) data))
    (hr : A (.rename (tmpPath p) p)) : AllOps A (writeAtomic p data) :=
  allOps_then (allOps_perform hw) fun _ => allOps_perform hr

theorem allOps_removeStale {keep : String} (h : ∀ name, startsWith name "current" = true → name ≠ keep →
    name ≠ "current.json" → A (.removeFile ((clips dir).entry name))) (names : List String) :
    AllOps A (removeStale (clips dir) keep names) := by
  induction names with
  | nil => exact allOps_pure ()
  | cons name rest ih =>
    unfold removeStale
    split_ifs with hname
    · simp only [Bool.and_eq_true, bne_iff_ne] at hname
      exact allOps_then (allOps_attempt (allOps_perform (h name hname.1.1 hname.1.2 hname.2))) fun _ => ih
    · exact ih

theorem allOps_removeOthers {e : String} (hr : A (.readDir (clips dir)))
    (h : ∀ name, startsWith name "current" = true → name ≠ "current" ++ e → name ≠ "current.json" →
      A (.removeFile ((clips dir).entry name))) : AllOps A (removeOthers dir e) := by
  refine allOps_then (allOps_attempt (allOps_perform hr)) fun res => ?_
  cases res with
  | ok entries => exact allOps_removeStale h entries
  | error _ => exact allOps_pure ()

end Parts

/-! ## `write_atomic`, cut anywhere -/

section Writing
universe v
variable [Sha256] {dir : Place} {known : Bytes → Prop} {τ : Type v} {mark : FileOp → τ → τ}
  {C : τ → Disk → Prop} {t t' : τ} {file tmp : List String} {data : Bytes} {I J : Disk → Prop}

/-- The temporary file is written beside what `I` speaks of, and the rename establishes `J`. -/
theorem safe_writeAtomic (hdir : ∀ seg ∈ dir, Plain seg) (hfile : Aside file)
    (htmp : Aside tmp) (heq : tmpPath ⟨spot dir file⟩ = ⟨spot dir tmp⟩) (hCs : ∀ t, Stable (Apart dir known) (C t))
    (hIs : Stable (Apart dir known) I) (hJs : Stable (Apart dir known) J) (hI : ∀ d, I d → C t d)
    (hJ : ∀ d, J d → C t' d) (hwrite : mark (.write ⟨spot dir tmp⟩ data) t = t)
    (hrename : mark (.rename ⟨spot dir tmp⟩ ⟨spot dir file⟩) t = t')
    (hw : ∀ d v, I d → I (d.performWith v (.write ⟨spot dir tmp⟩ data)).2)
    (hr : ∀ d v, I d → FileAt (spot dir file) data (d.performWith v
        (.rename ⟨spot dir tmp⟩ ⟨spot dir file⟩)).2 →
      J (d.performWith v (.rename ⟨spot dir tmp⟩ ⟨spot dir file⟩)).2)
    {d : Disk} (hd : I d) :
    Safe (Apart dir known) mark C (Ends t t' I fun _ => J) t (writeAtomic ⟨spot dir file⟩ data) d := by
  let src : Path := ⟨spot dir tmp⟩
  let written (d : Disk) : Prop := I d ∧ d.content src.place = some data
  have hplace : src.place = spot dir tmp := htmp.place hdir
  have hws : Stable (Apart dir known) written := by
    refine hIs.and ?_
    rw [hplace]
    exact stable_content htmp.apart _
  rw [writeAtomic_eq, heq]
  refine safe_then Apart.refl (R := Ends t t I fun _ => written)
    (safe_perform hIs hI hCs (stable_ends hIs fun _ => hws) hd fun d v hd => ?_) ?_ ?_
  · have hI' := hw d v hd
    cases hres : (d.performWith v (.write src data)).1 with
    | ok a =>
      have hat := fileAt_write (d := d.answering v) (spot_plain hdir htmp.plain) hres
      rw [stageAfter, hwrite]
      exact ⟨hI _ hI', rfl, hI', hat.2⟩
    | error e => exact ⟨hI _ hI', rfl, hI'⟩
  · rintro s a d - ⟨rfl, hd⟩
    refine safe_perform hws (fun d h => hI d h.1) hCs (stable_ends hIs fun _ => hJs) hd fun d v hd => ?_
    cases hres : (d.performWith v (.rename src ⟨spot dir file⟩)).1 with
    | ok a =>
      have hat : FileAt (Path.place ⟨spot dir file⟩) data
          (d.performWith v (.rename src ⟨spot dir file⟩)).2 :=
        fileAt_rename (d := d.answering v) (spot_plain hdir hfile.plain) hd.2 hres
      rw [hfile.place hdir] at hat
      rw [stageAfter, hrename]
      exact ⟨hJ _ (hr d v hd.1 hat), rfl, hr d v hd.1 hat⟩
    | error e =>
      have hsame : (d.performWith v (.rename src ⟨spot dir file⟩)).2 = d.answering v :=
        rename_error hres
      have hI' : I (d.answering v) := hIs (Apart.answering d v) hd.1
      rw [hsame]
      exact ⟨hI _ hI', rfl, hI'⟩
  · rintro s e d hC ⟨rfl, hd⟩
    exact safe_done (hCs _) (stable_ends hIs (fun _ => hJs) _ _) hC ⟨rfl, hd⟩

end Writing

/-! ## The call after it has stored its object -/

section AfterObject
variable [Sha256] [Json Current] (dir : Place) (known : Bytes → Prop) (item : Item)

def afterObject : Script (Item × Current) := do
  (do
    writeAtomic (stable dir (itemExt item)) item.data
    removeOthers dir (itemExt item))
  let offer ← offerPath dir (itemExt item) item.name item.data
  saveCurrent dir item (itemMime item) (itemHash item) offer

/-- What stands on the disk at each stage. The memory `cur` and the record `old` showed `m` and `m'` when the
object was stored. -/
def Held (cur old : Current) (m m' : Option Bytes) : SetStage → Disk → Prop
  | .untouched => fun _ => True
  | .stored => fun d => Stored dir item.data d ∧ Shows dir known cur m d ∧ record dir d = old ∧
      Shows dir known old m' d
  | .replaced => fun d => Stored dir item.data d ∧ record dir d = old ∧
      FileAt (spot dir ["current" ++ itemExt item]) item.data d
  | .committed => fun d => record dir d = recordOf dir item ∧
      Shows dir known (recordOf dir item) (some item.data) d

/-- How it ends. -/
def Finished : SetStage → Except IoError (Item × Current) → Disk → Prop
  | stage, .ok (_, cur), _ => stage = .committed ∧ cur = recordOf dir item
  | stage, .error _, _ => stage = .stored ∨ stage = .replaced

variable {dir known item} {cur old : Current} {m m' : Option Bytes}

theorem stable_held (hk : known item.data) (stage : SetStage) :
    Stable (Apart dir known) (Held dir known item cur old m m' stage) := by
  have hobj : Stable (Apart dir known) (Stored dir item.data) := stable_stored hk
  cases stage with
  | untouched => exact fun _ _ _ _ => trivial
  | stored => exact hobj.and ((stable_shows cur m).and ((stable_record old).and (stable_shows old m')))
  | replaced => exact hobj.and ((stable_record old).and (stable_fileAt (aside_stable (ext_mem item)).apart _))
  | committed => exact (stable_record _).and (stable_shows _ _)

omit [Json Current] in
theorem markSet_spot (hg : itemHash item = Protocol.hash item.data) (src : Path) (l : List String)
    (stage : SetStage) : markSet dir item (.rename src ⟨spot dir l⟩) stage =
      if l = ["objects", Protocol.hash item.data] then .stored
      else if l = ["current" ++ itemExt item] then .replaced
      else if l = ["current.json"] then .committed else stage := by
  have hspot : ∀ l', (⟨spot dir l⟩ : Path) = ⟨spot dir l'⟩ ↔ l = l' := by simp
  simp only [markSet, hg, object_eq (hash_plain item.data).1, stable_eq (ext_mem item), metaPath_eq, hspot]

/-- The operation spares all that must stand once the stable copy is replaced. -/
structure Harmless (dir : Place) (item : Item) (o : FileOp) : Prop where
  outside : Outside dir o
  stable : Spares (spot dir ["current" ++ itemExt item]) o
  record : Spares (spot dir ["current.json"]) o
  stage : markSet dir item o .replaced = .replaced

theorem Harmless.held {o : FileOp} (ho : Harmless dir item o) {d : Disk}
    (hd : Held dir known item cur old m m' .replaced d) (v : FileOp → Verdict) :
    Held dir known item cur old m m' .replaced (d.performWith v o).2 :=
  ⟨ho.outside.stored hd.1 v, (record_performWith ho.record v).trans hd.2.1, hd.2.2.performWith ho.stable v⟩

omit [Json Current] in
theorem harmless_removeStale (hdir : ∀ seg ∈ dir, Plain seg) {name : String}
    (hname : startsWith name "current" = true) (hs : name ≠ "current" ++ itemExt item)
    (hm : name ≠ "current.json") : Harmless dir item (.removeFile ((clips dir).entry name)) := by
  have ha := aside_stale hname
  have hp : ((clips dir).entry name).place = spot dir [name] := by
    rw [entry_eq, ha.place hdir]
  refine ⟨fun q hq => ?_, ?_, ?_, rfl⟩
  · change ((clips dir).entry name).place ≠ q
    rw [hp]
    exact ha.not_below hq
  · change ((clips dir).entry name).place ≠ _
    rw [hp]
    simpa using hs
  · change ((clips dir).entry name).place ≠ _
    rw [hp]
    simpa using hm

omit [Json Current] in
theorem harmless_removeOthers (hdir : ∀ seg ∈ dir, Plain seg) :
    AllOps (Harmless dir item) (removeOthers dir (itemExt item)) :=
  allOps_removeOthers ⟨fun _ _ => trivial, trivial, trivial, rfl⟩
    fun _ hname hs hm => harmless_removeStale hdir hname hs hm

omit [Json Current] in
theorem harmless_removeDrop (hdir : ∀ seg ∈ dir, Plain seg) :
    Harmless dir item (.removeDirAll (dropDir dir)) := by
  have hp : (dropDir dir).place = spot dir ["drop"] := by
    rw [drop_eq, aside_drop.place hdir]
  refine ⟨fun q hq => ?_, ?_, ?_, rfl⟩
  · change ¬ (dropDir dir).place <+: q
    rw [hp]
    intro h
    obtain h | h := List.prefix_or_prefix_of_prefix h hq
    · simp at h
    · simp at h
  · change ¬ (dropDir dir).place <+: _
    rw [hp]
    simpa using (stable_plain (ext_mem item)).2.2.2.1.2.symm
  · change ¬ (dropDir dir).place <+: _
    rw [hp]
    simp

omit [Json Current] in
theorem harmless_write (hdir : ∀ seg ∈ dir, Plain seg) {l : List String} (ha : Aside l)
    (hs : l ≠ ["current" ++ itemExt item]) (hm : l ≠ ["current.json"]) (data : Bytes) :
    Harmless dir item (.write ⟨spot dir l⟩ data) :=
  ⟨ha.write hdir data, spares_write hdir ha.plain hs data, spares_write hdir ha.plain hm data, rfl⟩

omit [Json Current] in
theorem harmless_rename (hdir : ∀ seg ∈ dir, Plain seg) {l l' : List String} (ha : Aside l) (ha' : Aside l')
    (hh : itemHash item = Protocol.hash item.data)
    (hs : l ≠ ["current" ++ itemExt item] ∧ l' ≠ ["current" ++ itemExt item])
    (hm : l ≠ ["current.json"] ∧ l' ≠ ["current.json"]) :
    Harmless dir item (.rename ⟨spot dir l⟩ ⟨spot dir l'⟩) := by
  refine ⟨ha.rename ha' hdir, spares_rename hdir ha.plain ha'.plain hs.1 hs.2,
    spares_rename hdir ha.plain ha'.plain hm.1 hm.2, ?_⟩
  rw [markSet_spot hh, if_neg hs.2, if_neg hm.2]
  split_ifs with h
  · exact absurd (h ▸ ha'.apart) (by simp)
  · rfl

variable (hdir : ∀ seg ∈ dir, Plain seg) (hg : Given dir item) (hk : known item.data)
include hdir hg hk

/-- The stable copy. -/
theorem safe_stable {d : Disk} (hd : Held dir known item cur old m m' .stored d) :
    Safe (Apart dir known) (markSet dir item) (Held dir known item cur old m m')
      (Ends .stored .replaced (Held dir known item cur old m m' .stored)
        fun _ => Held dir known item cur old m m' .replaced)
      .stored (writeAtomic (stable dir (itemExt item)) item.data) d := by
  have he := ext_mem item
  have hs := aside_stable he
  have ht := aside_stableTmp he
  rw [stable_eq he]
  refine safe_writeAtomic hdir hs ht (tmp_stable hdir he) (stable_held hk) (stable_held hk _)
    (stable_held hk _) (fun _ h => h) (fun _ h => h) rfl ?_ (fun d v hd => ?_) (fun d v hd hfile => ?_) hd
  · rw [markSet_spot hg.hash_eq, if_neg (by simp), if_pos rfl]
  · have ho := ht.write hdir item.data
    have hoff := fun l (hl : Offered l) => spares_write hdir ht.plain (hl.ne_tmp he).symm item.data
    have hmeta := spares_write hdir ht.plain (aside_ne_meta he).2 item.data
    exact ⟨ho.stored hd.1 v, hd.2.1.performWith ho hoff v,
      (record_performWith hmeta v).trans hd.2.2.1, hd.2.2.2.performWith ho hoff v⟩
  · have hmeta := spares_rename hdir ht.plain hs.plain (aside_ne_meta he).2 (aside_ne_meta he).1
    exact ⟨(ht.rename hs hdir).stored hd.1 v, (record_performWith hmeta v).trans hd.2.2.1, hfile⟩

omit hdir hg in
theorem safe_harmless {α : Type} {p : Script α} {d : Disk} (hp : AllOps (Harmless dir item) p)
    (hd : Held dir known item cur old m m' .replaced d) :
    Safe (Apart dir known) (markSet dir item) (Held dir known item cur old m m')
      (fun stage _ d => stage = .replaced ∧ Held dir known item cur old m m' .replaced d) .replaced p d :=
  safe_of_allOps (A := Harmless dir item) (I := Held dir known item cur old m m' .replaced)
    (fun _ ho => ho.stage) (fun _ v _ ho hd => ho.held hd v) (stable_held hk _) (fun _ h => h) hp hd

/-- The call holds what it must, and the file that it offers. -/
def Offers (dir : Place) (known : Bytes → Prop) (item : Item) (cur old : Current) (m m' : Option Bytes)
    (d : Disk) : Prop :=
  Held dir known item cur old m m' .replaced d ∧ FileAt (spot dir (offerNames item)) item.data d

omit hdir in
theorem stable_offers : Stable (Apart dir known) (Offers dir known item cur old m m') :=
  (stable_held hk .replaced).and (stable_fileAt (offered_item hg.name).not_object _)

/-- The copy under the own name. -/
theorem safe_named (hn : item.name ≠ "") {d : Disk} (hd : Held dir known item cur old m m' .replaced d) :
    Safe (Apart dir known) (markSet dir item) (Held dir known item cur old m m')
      (Ends .replaced .replaced (Held dir known item cur old m m' .replaced)
        fun _ => Offers dir known item cur old m m')
      .replaced (writeAtomic ((dropDir dir).join item.name) item.data) d := by
  have hname := hg.name.resolve_left hn
  have ha := aside_named hname.1
  have ht := aside_named (tmp_plain item.name)
  rw [named_eq hname.2]
  refine safe_writeAtomic hdir ha ht (tmp_named hdir hname.1) (stable_held hk) (stable_held hk _)
    (stable_offers hg hk) (fun _ h => h) (fun _ h => h.1) rfl ?_ (fun d v hd => ?_)
    (fun d v hd hfile => ⟨?_, ?_⟩) hd
  · rw [markSet_spot hg.hash_eq]
    simp
  · exact (harmless_write hdir ht (by simp) (by simp) _).held hd v
  · exact (harmless_rename hdir ht ha hg.hash_eq (by simp) (by simp)).held hd v
  · rw [offerNames, if_neg hn]
    exact hfile

/-- How the search for the file to offer ends. -/
def Located (dir : Place) (known : Bytes → Prop) (item : Item) (cur old : Current) (m m' : Option Bytes) :
    SetStage → Except IoError Path → Disk → Prop :=
  Ends .replaced .replaced (Held dir known item cur old m m' .replaced) fun p d =>
    p = ⟨spot dir (offerNames item)⟩ ∧ Offers dir known item cur old m m' d

omit hdir in
theorem safe_located {stage : SetStage} {r : Except IoError Path} {d : Disk}
    (hr : Located dir known item cur old m m' stage r d) (hC : Held dir known item cur old m m' stage d) :
    Safe (Apart dir known) (markSet dir item) (Held dir known item cur old m m')
      (Located dir known item cur old m m') stage (.done r) d := by
  have hoffers : ∀ p : Path, Stable (Apart dir known) fun d =>
      p = ⟨spot dir (offerNames item)⟩ ∧ Offers dir known item cur old m m' d :=
    fun p _ _ h hd => ⟨hd.1, stable_offers hg hk h hd.2⟩
  exact safe_done (stable_held hk _) (stable_ends (stable_held hk _) hoffers _ _) hC hr

/-- The file to offer. -/
theorem safe_offerPath {d : Disk} (hd : Held dir known item cur old m m' .replaced d) :
    Safe (Apart dir known) (markSet dir item) (Held dir known item cur old m m')
      (Located dir known item cur old m m') .replaced
      (offerPath dir (itemExt item) item.name item.data) d := by
  have hfailed : ∀ s e d, Held dir known item cur old m m' s d →
      (s = .replaced ∧ Held dir known item cur old m m' .replaced d) →
      Safe (Apart dir known) (markSet dir item) (Held dir known item cur old m m')
        (Located dir known item cur old m m') s (.done (.error e)) d :=
    fun s e d hC hs => safe_located hg hk hs hC
  refine safe_then Apart.refl
    (safe_harmless hk (allOps_attempt (allOps_perform (harmless_removeDrop hdir))) hd) ?_ hfailed
  rintro s res d - ⟨rfl, hd⟩
  split_ifs with hn
  · refine safe_located hg hk ⟨rfl, ?_, hd, ?_⟩ hd
    · rw [stable_eq (ext_mem item), offerNames, if_pos hn]
    · rw [offerNames, if_pos hn]
      exact hd.2.2
  · have hcreate : Harmless dir item (.createDirAll (dropDir dir)) := ⟨fun _ _ => trivial, trivial, trivial, rfl⟩
    refine safe_then Apart.refl (safe_harmless hk (allOps_perform hcreate) hd) ?_ hfailed
    rintro s _ d - ⟨rfl, hd⟩
    refine safe_then Apart.refl (safe_named hdir hg hk hn hd) ?_ hfailed
    rintro s _ d hC ⟨rfl, hd⟩
    refine safe_located hg hk ⟨rfl, ?_, hd⟩ hC
    rw [named_eq (hg.name.resolve_left hn).2, offerNames, if_neg hn]

omit hdir hg hk [Json Current] in
theorem stable_finished (stage : SetStage) (r : Except IoError (Item × Current)) :
    Stable (Apart dir known) (Finished dir item stage r) := fun _ _ _ h => by cases r <;> exact h

/-- The record is written, and from the rename on it shows the item. -/
theorem safe_record {d : Disk} (hd : Offers dir known item cur old m m' d) :
    Safe (Apart dir known) (markSet dir item) (Held dir known item cur old m m')
      (Ends .replaced .committed (Offers dir known item cur old m m')
        fun _ => Held dir known item cur old m m' .committed)
      .replaced (writeAtomic (metaPath dir) (Json.encode (recordOf dir item))) d := by
  have hoff := offered_item hg.name
  obtain ⟨hm, ht⟩ := aside_meta
  rw [metaPath_eq]
  refine safe_writeAtomic (J := Held dir known item cur old m m' .committed) hdir hm ht (tmp_meta hdir)
    (stable_held hk) (stable_offers hg hk) (stable_held hk _) (fun _ h => h.1) (fun _ h => h) rfl ?_
    (fun d v hd => ⟨?_, ?_⟩) (fun d v hd hfile => ⟨?_, ?_⟩) hd
  · rw [markSet_spot hg.hash_eq, if_neg (by simp), if_neg (aside_ne_meta (ext_mem item)).1.symm, if_pos rfl]
  · refine (harmless_write hdir ht ?_ (by simp) _).held hd.1 v
    exact (Offered.stable (ext_mem item)).ne_meta.2.symm
  · exact hd.2.performWith (spares_write hdir ht.plain hoff.ne_meta.2.symm _) v
  · rw [record, hfile.2]
    exact congrArg (Option.getD · Current.default) hg.written
  · refine ⟨hk, hg.hash_eq, (ht.rename hm hdir).stored hd.1.1 v, _, hoff, rfl, ?_⟩
    exact hd.2.performWith
      (spares_rename hdir ht.plain hm.plain hoff.ne_meta.2.symm hoff.ne_meta.1.symm) v

/-- The path of the offered file is plain: it stays as it is, resolved or not. -/
theorem safe_saveCurrent {d : Disk} (hd : Offers dir known item cur old m m' d) :
    Safe (Apart dir known) (markSet dir item) (Held dir known item cur old m m') (Finished dir item)
      .replaced (saveCurrent dir item (itemMime item) (itemHash item) ⟨spot dir (offerNames item)⟩) d := by
  let offer : Path := ⟨spot dir (offerNames item)⟩
  have hplace : offer.place = spot dir (offerNames item) :=
    place_spot hdir fun seg hs => ((offered_item hg.name).plain seg hs).1
  let Known (stage : SetStage) (r : Except IoError Path) (d : Disk) : Prop :=
    stage = .replaced ∧ Offers dir known item cur old m m' d ∧ ∀ p, r = .ok p → p = offer
  have hknown : ∀ stage r, Stable (Apart dir known) (Known stage r) :=
    fun _ _ _ _ h hd => ⟨hd.1, stable_offers hg hk h hd.2.1, hd.2.2⟩
  have hcanon : Safe (Apart dir known) (markSet dir item) (Held dir known item cur old m m') Known
      .replaced (Script.canonicalize offer) d := by
    refine safe_perform (stable_offers hg hk) (fun _ h => h.1) (stable_held hk) hknown hd fun d v hd => ?_
    have hsame : (d.performWith v (.canonicalize offer)).2 = d.answering v := canonicalize_same _ _
    have hd' := stable_offers hg hk (Apart.answering d v) hd
    rw [hsame]
    cases hres : (d.performWith v (.canonicalize offer)).1 with
    | ok p =>
      refine ⟨hd'.1, rfl, hd', fun q hq => ?_⟩
      obtain rfl := Except.ok.inj hq
      rw [canonicalize_ok (d := d.answering v) hres, hplace]
    | error e => exact ⟨hd'.1, rfl, hd', fun q hq => nomatch hq⟩
  have hattempt := safe_attempt (S := fun stage r d => ∃ r', r = .ok r' ∧ Known stage r' d) Apart.refl
    (stable_held hk) (fun _ _ _ _ h ⟨r', hr, hd⟩ => ⟨r', hr, hknown _ r' h hd⟩) hcanon
    fun _ r _ _ hd => ⟨r, rfl, hd⟩
  refine safe_then Apart.refl hattempt ?_ ?_
  · rintro s r d - ⟨_, hr, rfl, hd, hp⟩
    obtain rfl := Except.ok.inj hr
    have hsave : Safe (Apart dir known) (markSet dir item) (Held dir known item cur old m m')
        (Finished dir item) .replaced
        (writeAtomic (metaPath dir) (Json.encode (recordOf dir item)) >>= fun _ =>
          pure (⟨itemMime item, item.data, itemHash item, offer.toText, item.name⟩, recordOf dir item) :
          Script (Item × Current)) d := by
      refine safe_then Apart.refl (safe_record hdir hg hk hd) ?_ ?_
      · rintro s _ d hC ⟨rfl, _⟩
        exact safe_done (stable_held hk _) (stable_finished _ _) hC ⟨rfl, rfl⟩
      · rintro s e d hC ⟨rfl, _⟩
        exact safe_done (stable_held hk _) (stable_finished _ _) hC (.inr rfl)
    cases r with
    | ok p =>
      obtain rfl := hp p rfl
      exact hsave
    | error e => exact hsave
  · rintro s e d - ⟨r, hr, _⟩
    cases hr

/-- Wherever the call is cut after it has stored its object, the disk holds what it must. -/
theorem safe_afterObject {d : Disk} (hd : Held dir known item cur old m m' .stored d) :
    Safe (Apart dir known) (markSet dir item) (Held dir known item cur old m m') (Finished dir item)
      .stored (afterObject dir item) d := by
  have hfailed : ∀ s e d, Held dir known item cur old m m' s d → s = .stored ∨ s = .replaced →
      Safe (Apart dir known) (markSet dir item) (Held dir known item cur old m m') (Finished dir item) s
        (.done (.error e)) d :=
    fun s e d hC hs => safe_done (stable_held hk _) (stable_finished _ _) hC hs
  have hcopies : Safe (Apart dir known) (markSet dir item) (Held dir known item cur old m m')
      (fun stage r d => (stage = .stored ∨ stage = .replaced) ∧
        ∀ a, r = .ok a → stage = .replaced ∧ Held dir known item cur old m m' .replaced d) .stored
      (writeAtomic (stable dir (itemExt item)) item.data >>= fun _ => removeOthers dir (itemExt item) :
        Script Unit) d := by
    refine safe_then Apart.refl (safe_stable hdir hg hk hd) ?_ ?_
    · rintro s _ d - ⟨rfl, hd⟩
      exact (safe_harmless hk (harmless_removeOthers hdir) hd).mono fun s r d _ hs =>
        ⟨.inr hs.1, fun _ _ => hs⟩
    · rintro s e d hC ⟨rfl, _⟩
      refine safe_done (stable_held hk _) ?_ hC ⟨.inl rfl, fun a ha => nomatch ha⟩
      exact fun _ _ _ h => ⟨h.1, fun a ha => nomatch ha⟩
  refine safe_then Apart.refl hcopies ?_ fun s e d hC hs => hfailed s e d hC hs.1
  rintro s a d - ⟨_, hs⟩
  obtain ⟨rfl, hd⟩ := hs a rfl
  refine safe_then Apart.refl (safe_offerPath hdir hg hk hd) ?_ fun s e d hC hs => hfailed s e d hC (.inr hs.1)
  rintro s p d - ⟨rfl, rfl, hd⟩
  exact safe_saveCurrent hdir hg hk hd

omit hk in
theorem afterObject_outside : AllOps (Outside dir) (afterObject dir item) := by
  have he := ext_mem item
  have hs := aside_stable he
  have hst := aside_stableTmp he
  have hwrite : ∀ {file tmp : List String} (data : Bytes), Aside file → Aside tmp →
      tmpPath ⟨spot dir file⟩ = ⟨spot dir tmp⟩ → AllOps (Outside dir) (writeAtomic ⟨spot dir file⟩ data) := by
    intro file tmp data hf ht heq
    refine allOps_writeAtomic ?_ ?_
    · rw [heq]
      exact ht.write hdir data
    · rw [heq]
      exact ht.rename hf hdir
  refine allOps_then (allOps_then ?_ fun _ => ?_) fun _ => allOps_then ?_ fun offer => ?_
  · rw [stable_eq he]
    exact hwrite _ hs hst (tmp_stable hdir he)
  · exact (harmless_removeOthers hdir).mono fun _ h => h.outside
  · have hremove : Harmless dir item (.removeDirAll (dropDir dir)) := harmless_removeDrop hdir
    refine allOps_then (allOps_attempt (allOps_perform hremove.outside)) fun _ => ?_
    split_ifs with hn
    · exact allOps_pure _
    · have hname := hg.name.resolve_left hn
      refine allOps_then (allOps_perform fun _ _ => trivial) fun _ => allOps_then ?_ fun _ => allOps_pure _
      rw [named_eq hname.2]
      exact hwrite _ (aside_named hname.1) (aside_named (tmp_plain _)) (tmp_named hdir hname.1)
  · refine allOps_then (allOps_attempt (allOps_perform fun _ _ => trivial)) fun _ => ?_
    refine allOps_then ?_ fun _ => allOps_pure _
    rw [metaPath_eq]
    exact hwrite _ aside_meta.1 aside_meta.2 (tmp_meta hdir)

end AfterObject

end FileBackend
end Zsync
