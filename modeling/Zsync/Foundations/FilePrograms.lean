import Zsync.Foundations.Files

/-! # Programs over a file tree and their frame rule

`Prog` is a program that performs one file operation at a time and goes on with the reply, so that
its runs can be cut or interleaved between operations. `Script` is a program that may stop with an
error, as under the `?` operator.

Whatever the operating system answers,

* `Preserves I p` says that `p` keeps the invariant `I` of the disk. Most operations only write,
  move and remove files, so one hypothesis on `I` (`FileStable`) serves all of them;
* `Keeps r p`, the frame, says that from a disk whose directories down to `r` exist, `p` changes
  nothing outside `r` and journals places inside `r` only.

There is one rule for each operation and one for sequencing; a program is treated by following its
text.
-/

namespace Foundations.Files
set_option autoImplicit false
set_option maxHeartbeats 250000

universe u v

/-! ## Programs -/

inductive Prog (α : Type u) : Type u
  | done (a : α)
  | op (o : FileOp) (next : Except IoError o.Reply → Prog α)

namespace Prog
variable {α : Type u} {β : Type v}

def bind (p : Prog α) (f : α → Prog β) : Prog β :=
  match p with
  | .done a => f a
  | .op o next => .op o fun r => (next r).bind f

def run : Prog α → Disk → α × Disk
  | .done a, d => (a, d)
  | .op o next, d => (next (d.perform o).1).run (d.perform o).2

theorem run_bind (p : Prog α) (f : α → Prog β) (d : Disk) :
    (p.bind f).run d = (f (p.run d).1).run (p.run d).2 := by
  induction p generalizing d with
  | done a => rfl
  | op o next ih => exact ih _ _

end Prog

/-- A program that may stop with an error. -/
abbrev Script (α : Type u) : Type u := Prog (Except IoError α)

namespace Script
variable {α : Type u} {β : Type v}

def pure (a : α) : Script α := Prog.done (.ok a)

def bind (p : Script α) (f : α → Script β) : Script β :=
  Prog.bind p fun r =>
    match r with
    | .ok a => f a
    | .error e => Prog.done (.error e)

def perform (o : FileOp) : Script o.Reply := Prog.op o Prog.done

instance : Monad Script where
  pure := pure
  bind := bind

def write (p : Path) (data : List UInt8) : Script Unit := perform (.write p data)
def rename (src dst : Path) : Script Unit := perform (.rename src dst)
def removeFile (p : Path) : Script Unit := perform (.removeFile p)
def removeDirAll (p : Path) : Script Unit := perform (.removeDirAll p)
def createDirAll (p : Path) : Script Unit := perform (.createDirAll p)
def readDir (p : Path) : Script (List String) := perform (.readDir p)
def read (p : Path) : Script (List UInt8) := perform (.read p)
def canonicalize (p : Path) : Script Path := perform (.canonicalize p)

/-- Run `p` and hand its result over instead of stopping on an error. -/
def attempt (p : Script α) : Script (Except IoError α) := Prog.bind p fun r => Prog.done (.ok r)

def run (p : Script α) (d : Disk) : Except IoError α × Disk := Prog.run p d

theorem run_bind_ok {p : Script α} {d d' : Disk} {a : α} (h : p.run d = (.ok a, d'))
    (f : α → Script β) : (bind p f).run d = (f a).run d' := by
  rw [run, bind, Prog.run_bind]
  rw [run] at h
  rw [h]
  rfl

theorem run_bind_error {p : Script α} {d d' : Disk} {e : IoError} (h : p.run d = (.error e, d'))
    (f : α → Script β) : (bind p f).run d = (.error e, d') := by
  rw [run, bind, Prog.run_bind]
  rw [run] at h
  rw [h]
  rfl

theorem run_then {α β : Type u} {p : Script α} {d d' : Disk} {a : α} (h : p.run d = (.ok a, d'))
    (f : α → Script β) : (p >>= f).run d = (f a).run d' := run_bind_ok h f

theorem run_bind_ok_inv {p : Script α} {f : α → Script β} {d d'' : Disk} {b : β}
    (h : (bind p f).run d = (.ok b, d'')) :
    ∃ a d', p.run d = (.ok a, d') ∧ (f a).run d' = (.ok b, d'') := by
  cases hrun : p.run d with
  | mk res d' =>
    cases res with
    | ok a => exact ⟨a, d', rfl, (run_bind_ok hrun f).symm.trans h⟩
    | error e =>
      rw [run_bind_error hrun] at h
      cases h

theorem run_attempt (p : Script α) (d : Disk) :
    (attempt p).run d = (.ok (p.run d).1, (p.run d).2) := by
  rw [run, attempt, Prog.run_bind]
  rfl

theorem run_write (p : Path) (data : List UInt8) (d : Disk) :
    (write p data).run d = d.write p data := rfl

theorem run_rename (src dst : Path) (d : Disk) : (rename src dst).run d = d.rename src dst := rfl

theorem run_removeFile (p : Path) (d : Disk) : (removeFile p).run d = d.removeFile p := rfl

theorem run_removeDirAll (p : Path) (d : Disk) : (removeDirAll p).run d = d.removeDirAll p := rfl

theorem run_createDirAll (p : Path) (d : Disk) : (createDirAll p).run d = d.createDirAll p := rfl

theorem run_readDir (p : Path) (d : Disk) : (readDir p).run d = d.readDir p := rfl

theorem run_canonicalize (p : Path) (d : Disk) : (canonicalize p).run d = d.canonicalize p := rfl

end Script

/-! ## Invariants of programs -/

/-- `p` keeps the invariant `I`. -/
def Preserves {α : Type u} (I : Disk → Prop) (p : Script α) : Prop := ∀ d, I d → I (p.run d).2

/-- The invariant survives that a file is written where no directory stands, and that a file goes. -/
structure FileStable (I : Disk → Prop) : Prop where
  put : ∀ d q data, I d → q ≠ [] → d.node q ≠ some .dir → I (d.put q (.file data))
  erase : ∀ d q data, I d → d.node q = some (.file data) → I (d.erase q)

/-! ### What each operation does to the disk -/

/-- The three outcomes of a write. -/
theorem write_cases (d : Disk) (p : Path) (data : List UInt8) :
    (d.write p data).2 = d ∨
    ∃ q content, d.target p = some q ∧ d.node q ≠ some .dir ∧
      (d.write p data).2 = d.put q (.file content) := by
  unfold Disk.write
  cases ht : d.target p with
  | none => exact .inl rfl
  | some q =>
    dsimp only
    split_ifs with hn
    · exact .inl rfl
    · cases d.verdict (.write p data) with
      | refuse => exact .inl rfl
      | tear n => exact .inr ⟨q, _, rfl, hn, rfl⟩
      | allow => exact .inr ⟨q, _, rfl, hn, rfl⟩

/-- A write succeeds only where no directory stands. -/
theorem node_of_write_ok {d : Disk} {p : Path} {data : List UInt8}
    (h : (d.write p data).1 = .ok ()) : d.node p.place ≠ some .dir := by
  unfold Disk.write at h
  cases ht : d.target p with
  | none =>
    rw [ht] at h
    cases h
  | some q =>
    obtain rfl := Disk.target_place ht
    simp only [ht] at h
    split_ifs at h with hn
    exact hn

theorem write_blocked {d : Disk} {p : Path} (data : List UInt8)
    (hb : ∀ q, d.target p = some q → d.node q = some .dir) :
    ∃ e, d.write p data = (.error e, d) := by
  unfold Disk.write
  cases ht : d.target p with
  | none => exact ⟨_, rfl⟩
  | some q =>
    simp only [if_pos (hb q ht)]
    exact ⟨_, rfl⟩

theorem write_succeeds {d : Disk} {p : Path} (data : List UInt8) (ht : d.target p = some p.place)
    (hn : d.node p.place ≠ some .dir) (hv : d.verdict (.write p data) = .allow) :
    d.write p data = (.ok (), d.put p.place (.file data)) := by
  unfold Disk.write
  simp only [ht, if_neg hn, hv]

theorem rename_cases (d : Disk) (src dst : Path) :
    (d.rename src dst).2 = d ∨
    ∃ a b data, d.target src = some a ∧ d.target dst = some b ∧ d.node a = some (.file data) ∧
      d.node b ≠ some .dir ∧ (d.rename src dst).2 = (d.erase a).put b (.file data) := by
  unfold Disk.rename
  split
  · next a b ha hb =>
    split
    · next data hfile =>
      split_ifs with hn
      · exact .inl rfl
      · exact .inr ⟨a, b, data, ha, hb, hfile, hn, rfl⟩
      · exact .inl rfl
    · exact .inl rfl
  · exact .inl rfl

theorem node_of_rename_ok {d : Disk} {src dst : Path} (h : (d.rename src dst).1 = .ok ()) :
    d.node dst.place ≠ some .dir := by
  unfold Disk.rename at h
  split at h
  · next a b ha hb =>
    obtain rfl := Disk.target_place hb
    split at h
    · split_ifs at h with hn
      exact hn
    · cases h
  · cases h

theorem rename_succeeds {d : Disk} {src dst : Path} {data : List UInt8}
    (hs : d.target src = some src.place) (ht : d.target dst = some dst.place)
    (hf : d.node src.place = some (.file data)) (hn : d.node dst.place ≠ some .dir)
    (hv : d.verdict (.rename src dst) = .allow) : (d.rename src dst).1 = .ok () := by
  unfold Disk.rename
  simp only [hs, ht, hf, if_neg hn, if_pos hv]

theorem removeFile_cases (d : Disk) (p : Path) :
    (d.removeFile p).2 = d ∨
    ∃ q data, d.target p = some q ∧ d.node q = some (.file data) ∧
      (d.removeFile p).2 = d.erase q := by
  unfold Disk.removeFile
  cases ht : d.target p with
  | none => exact .inl rfl
  | some q =>
    dsimp only
    cases hn : d.node q with
    | none => exact .inl rfl
    | some n =>
      cases n with
      | dir => exact .inl rfl
      | file data =>
        dsimp only
        split_ifs
        · exact .inr ⟨q, data, rfl, hn, rfl⟩
        · exact .inl rfl

theorem removeDirAll_cases (d : Disk) (p : Path) :
    (d.removeDirAll p).2 = d ∨ (d.removeDirAll p).2 = d.prune (p.place.isPrefixOf ·) := by
  unfold Disk.removeDirAll
  cases ht : d.target p with
  | none => exact .inl rfl
  | some q =>
    obtain rfl : q = p.place := Disk.target_place ht
    dsimp only
    split_ifs
    · exact .inr rfl
    · exact .inl rfl
    · exact .inl rfl

theorem readDir_same (d : Disk) (p : Path) : (d.readDir p).2 = d := by
  unfold Disk.readDir
  split
  · rfl
  · split_ifs <;> rfl

theorem canonicalize_same (d : Disk) (p : Path) : (d.canonicalize p).2 = d := by
  unfold Disk.canonicalize
  split_ifs
  · split
    · rfl
    · split
      · split_ifs <;> rfl
      · rfl
  · rfl

/-! ### The rules -/

section Preserving
variable {α β : Type u} {I : Disk → Prop}

theorem preserves_pure (a : α) : Preserves I (pure a : Script α) := fun _ h => h

/-- The invariant that `p` establishes from `d` is still there after the rest. -/
theorem holds_bind {p : Script α} {f : α → Script β} {d : Disk} (hp : I (p.run d).2)
    (hf : ∀ a, Preserves I (f a)) : I ((p >>= f).run d).2 := by
  change I ((Script.bind p f).run d).2
  cases hrun : p.run d with
  | mk res d' =>
    rw [hrun] at hp
    cases res with
    | ok a =>
      rw [Script.run_bind_ok hrun]
      exact hf a d' hp
    | error e =>
      rw [Script.run_bind_error hrun]
      exact hp

theorem preserves_bind {p : Script α} {f : α → Script β} (hp : Preserves I p)
    (hf : ∀ a, Preserves I (f a)) : Preserves I (p >>= f) :=
  fun d hd => holds_bind (hp d hd) hf

theorem preserves_attempt {p : Script α} (hp : Preserves I p) : Preserves I p.attempt := by
  intro d hd
  rw [Script.run_attempt]
  exact hp d hd

theorem preserves_write (hI : FileStable I) (p : Path) (data : List UInt8) :
    Preserves I (.write p data) := by
  intro d hd
  rw [Script.run_write]
  obtain h | ⟨q, content, ht, hn, h⟩ := write_cases d p data
  · rw [h]
    exact hd
  · rw [h]
    exact hI.put d q content hd (Disk.target_ne_nil ht) hn

theorem preserves_rename (hI : FileStable I) (src dst : Path) : Preserves I (.rename src dst) := by
  intro d hd
  rw [Script.run_rename]
  obtain h | ⟨a, b, data, _, hb, hfile, hn, h⟩ := rename_cases d src dst
  · rw [h]
    exact hd
  · rw [h]
    apply hI.put _ b data (hI.erase d a data hd hfile) (Disk.target_ne_nil hb)
    rw [Disk.erase, d.node_prune]
    split_ifs
    · simp
    · exact hn

theorem preserves_removeFile (hI : FileStable I) (p : Path) : Preserves I (.removeFile p) := by
  intro d hd
  rw [Script.run_removeFile]
  obtain h | ⟨q, data, _, hfile, h⟩ := removeFile_cases d p
  · rw [h]
    exact hd
  · rw [h]
    exact hI.erase d q data hd hfile

theorem preserves_removeDirAll {p : Path}
    (hI : ∀ d, I d → I (d.prune (p.place.isPrefixOf ·))) : Preserves I (.removeDirAll p) := by
  intro d hd
  rw [Script.run_removeDirAll]
  obtain h | h := removeDirAll_cases d p
  · rw [h]
    exact hd
  · rw [h]
    exact hI d hd

theorem makeDirs_preserves {segs : List String} :
    ∀ (d : Disk) (cur : Place),
      (∀ d q, I d → q ∈ entered cur segs → d.node q = none → I (d.put q .dir)) → I d →
      I (d.makeDirs cur segs).2 := by
  induction segs with
  | nil => exact fun d _ _ hd => hd
  | cons seg rest ih =>
    intro d cur hI hd
    unfold Disk.makeDirs
    unfold entered at hI
    split_ifs at hI ⊢
    · exact ih d cur hI hd
    · exact ih d cur.dropLast hI hd
    · have hI' := fun d q h hq => hI d q h (List.mem_cons_of_mem _ hq)
      cases hn : d.node (cur ++ [seg]) with
      | none => exact ih _ _ hI' (hI d _ hd List.mem_cons_self hn)
      | some n =>
        cases n with
        | dir => exact ih d _ hI' hd
        | file data => exact hd

theorem makeDirs_done {segs : List String} {d : Disk} {cur : Place}
    (h : ∀ q ∈ entered cur segs, d.node q = some .dir) : d.makeDirs cur segs = (.ok (), d) := by
  induction segs generalizing cur with
  | nil => rfl
  | cons seg rest ih =>
    unfold Disk.makeDirs
    unfold entered at h
    split_ifs at h ⊢
    · exact ih h
    · exact ih h
    · rw [h _ List.mem_cons_self]
      exact ih fun q hq => h q (List.mem_cons_of_mem _ hq)

theorem preserves_createDirAll {p : Path}
    (hI : ∀ d q, I d → q ∈ entered [] p.segs → d.node q = none → I (d.put q .dir)) :
    Preserves I (.createDirAll p) := by
  intro d hd
  rw [Script.run_createDirAll, Disk.createDirAll]
  split_ifs
  · exact makeDirs_preserves d [] hI hd
  · exact hd
  · exact hd

theorem preserves_readDir (p : Path) : Preserves I (.readDir p) := by
  intro d hd
  rw [Script.run_readDir, readDir_same]
  exact hd

theorem preserves_canonicalize (p : Path) : Preserves I (.canonicalize p) := by
  intro d hd
  rw [Script.run_canonicalize, canonicalize_same]
  exact hd

end Preserving

/-! ### Three invariants -/

/-- All of `S` are directories. -/
def Dirs (S : Place → Prop) (d : Disk) : Prop := ∀ q, S q → d.node q = some .dir

/-- The directories from the root down to `r` exist. -/
def Rooted (r : Place) : Disk → Prop := Dirs (· <+: r)

theorem fileStable_dirs (S : Place → Prop) : FileStable (Dirs S) where
  put := by
    intro d q data hd hq hn x hx
    rw [d.node_put hq, if_neg]
    · exact hd x hx
    · rintro rfl
      exact hn (hd x hx)
  erase := by
    intro d q data hd hfile x hx
    rw [Disk.erase, d.node_prune, if_neg]
    · exact hd x hx
    · rintro ⟨_, he⟩
      rw [← eq_of_beq he, hd x hx] at hfile
      cases hfile

theorem dirs_mkdir {S : Place → Prop} {d : Disk} {q : Place} (hd : Dirs S d)
    (hn : d.node q = none) : Dirs S (d.put q .dir) := by
  have hq : q ≠ [] := by
    rintro rfl
    cases hn
  intro x hx
  rw [d.node_put hq]
  split_ifs
  · rfl
  · exact hd x hx

theorem dirs_prune {S : Place → Prop} {d : Disk} {p : Place} (hd : Dirs S d)
    (hp : ∀ q, S q → ¬ p <+: q) : Dirs S (d.prune (p.isPrefixOf ·)) := by
  intro x hx
  rw [d.node_prune, if_neg]
  · exact hd x hx
  · exact fun h => hp x hx (List.isPrefixOf_iff_prefix.mp h.2)

/-- No directory at `q`. -/
def NoDir (q : Place) (d : Disk) : Prop := d.node q ≠ some .dir

theorem fileStable_noDir (q : Place) : FileStable (NoDir q) where
  put := by
    intro d x data hd hx _
    rw [NoDir, d.node_put hx]
    split_ifs
    · simp
    · exact hd
  erase := by
    intro d x data hd _
    rw [NoDir, Disk.erase, d.node_prune]
    split_ifs
    · simp
    · exact hd

theorem noDir_prune {q : Place} {d : Disk} (hd : NoDir q d) (gone : Place → Bool) :
    NoDir q (d.prune gone) := by
  rw [NoDir, d.node_prune]
  split_ifs
  · simp
  · exact hd

theorem noDir_mkdir {q x : Place} {d : Disk} (hd : NoDir q d) (hx : x ≠ []) (hqx : q ≠ x) :
    NoDir q (d.put x .dir) := by
  rw [NoDir, d.node_put hx, if_neg hqx]
  exact hd

/-- The operating system answers as `v` says. -/
def Answers (v : FileOp → Verdict) (d : Disk) : Prop := d.verdict = v

theorem fileStable_answers (v : FileOp → Verdict) : FileStable (Answers v) :=
  ⟨fun _ _ _ h _ _ => h, fun _ _ _ h _ => h⟩

/-- `q` was created, overwritten or removed. -/
def Touched (q : Place) (d : Disk) : Prop := q ∈ d.journal

theorem fileStable_touched (q : Place) : FileStable (Touched q) :=
  ⟨fun _ _ _ h _ _ => List.mem_append_left _ h, fun _ _ _ h _ => List.mem_append_left _ h⟩

theorem FileStable.and {I J : Disk → Prop} (hI : FileStable I) (hJ : FileStable J) :
    FileStable fun d => I d ∧ J d :=
  ⟨fun d q data h hq hn => ⟨hI.put d q data h.1 hq hn, hJ.put d q data h.2 hq hn⟩,
    fun d q data h hf => ⟨hI.erase d q data h.1 hf, hJ.erase d q data h.2 hf⟩⟩

theorem FileStable.all {ι : Type} {S : ι → Prop} {I : ι → Disk → Prop}
    (hI : ∀ i, S i → FileStable (I i)) : FileStable fun d => ∀ i, S i → I i d :=
  ⟨fun d q data h hq hn i hi => (hI i hi).put d q data (h i hi) hq hn,
    fun d q data h hf i hi => (hI i hi).erase d q data (h i hi) hf⟩

/-! ## The frame -/

/-- `d'` differs from `d` inside `r` only. -/
structure Within (r : Place) (d d' : Disk) : Prop where
  others : ∀ q, ¬ r <+: q → d'.node q = d.node q
  journal : ∃ new, d'.journal = d.journal ++ new ∧ ∀ q ∈ new, r <+: q

theorem Within.refl (r : Place) (d : Disk) : Within r d d :=
  ⟨fun _ _ => rfl, [], by simp, by simp⟩

theorem Within.trans {r : Place} {a b c : Disk} (h : Within r a b) (k : Within r b c) :
    Within r a c := by
  obtain ⟨n1, h1, i1⟩ := h.journal
  obtain ⟨n2, h2, i2⟩ := k.journal
  refine ⟨fun q hq => (k.others q hq).trans (h.others q hq), n1 ++ n2, ?_, ?_⟩
  · rw [h2, h1, List.append_assoc]
  · intro q hq
    obtain hq | hq := List.mem_append.mp hq
    · exact i1 q hq
    · exact i2 q hq

/-- A place outside `r` that was touched breaks the frame. -/
theorem not_within_of_touched {r q : Place} {d d' : Disk} (hd : d.journal = [])
    (hq : Touched q d') (hr : ¬ r <+: q) : ¬ Within r d d' := by
  intro h
  obtain ⟨new, hnew, hin⟩ := h.journal
  rw [hd, List.nil_append] at hnew
  exact hr (hin q (hnew ▸ hq))

/-- The directories down to `r` still exist after `p`. -/
abbrev Stands {α : Type u} (r : Place) (p : Script α) : Prop := Preserves (Rooted r) p

def Keeps {α : Type u} (r : Place) (p : Script α) : Prop :=
  ∀ d, Rooted r d → Within r d (p.run d).2

section Rules
variable {α β : Type u} {r : Place}

theorem stands_removeDirAll {p : Path} (hp : ¬ p.place <+: r) : Stands r (.removeDirAll p) :=
  preserves_removeDirAll fun _ hd => dirs_prune hd fun _ hq h => hp (h.trans hq)

theorem stands_createDirAll (p : Path) : Stands r (.createDirAll p) :=
  preserves_createDirAll fun _ _ hd _ hn => dirs_mkdir hd hn

theorem keeps_pure (a : α) : Keeps r (pure a : Script α) := fun d _ => Within.refl r d

/-- The frame of a sequence, when only the runs of `f` that follow `p` are known. -/
theorem within_bind {p : Script α} {f : α → Script β} {d : Disk} (hp : Within r d (p.run d).2)
    (hf : ∀ a d', p.run d = (.ok a, d') → Within r d' ((f a).run d').2) :
    Within r d ((p >>= f).run d).2 := by
  change Within r d ((Script.bind p f).run d).2
  cases hrun : p.run d with
  | mk res d' =>
    rw [hrun] at hp
    cases res with
    | ok a =>
      rw [Script.run_bind_ok hrun]
      exact hp.trans (hf a d' hrun)
    | error e =>
      rw [Script.run_bind_error hrun]
      exact hp

theorem keeps_bind {p : Script α} {f : α → Script β} (hs : Stands r p) (hp : Keeps r p)
    (hf : ∀ a, Keeps r (f a)) : Keeps r (p >>= f) := by
  intro d hd
  have hr := hs d hd
  refine within_bind (hp d hd) fun a d' hrun => hf a d' ?_
  rw [hrun] at hr
  exact hr

theorem keeps_attempt {p : Script α} (hp : Keeps r p) : Keeps r p.attempt := by
  intro d hd
  rw [Script.run_attempt]
  exact hp d hd

theorem within_put {d : Disk} {q : Place} (hq : q ≠ []) (hr : r <+: q) (n : Node) :
    Within r d (d.put q n) := by
  refine ⟨fun x hx => ?_, [q], rfl, by simpa using hr⟩
  rw [d.node_put hq, if_neg]
  rintro rfl
  exact hx hr

theorem within_prune {d : Disk} {gone : Place → Bool} (hg : ∀ q, gone q = true → r <+: q) :
    Within r d (d.prune gone) := by
  refine ⟨fun x hx => ?_, (d.nodes.map Prod.fst).filter gone, rfl, fun q hq => ?_⟩
  · rw [d.node_prune, if_neg]
    exact fun h => hx (hg x h.2)
  · exact hg q (List.mem_filter.mp hq).2

theorem keeps_write {p : Path} (hp : r <+: p.place) (data : List UInt8) :
    Keeps r (.write p data) := by
  intro d _
  rw [Script.run_write]
  obtain h | ⟨q, content, ht, _, h⟩ := write_cases d p data
  · rw [h]
    exact Within.refl r d
  · rw [h]
    exact within_put (Disk.target_ne_nil ht) (Disk.target_place ht ▸ hp) _

theorem keeps_rename {src dst : Path} (hs : r <+: src.place) (ht : r <+: dst.place) :
    Keeps r (.rename src dst) := by
  intro d _
  rw [Script.run_rename]
  obtain h | ⟨a, b, data, ha, hb, _, _, h⟩ := rename_cases d src dst
  · rw [h]
    exact Within.refl r d
  · rw [h]
    have hra : r <+: a := Disk.target_place ha ▸ hs
    have hrb : r <+: b := Disk.target_place hb ▸ ht
    have hgone : ∀ q, (q == a) = true → r <+: q := fun q hq => eq_of_beq hq ▸ hra
    exact (within_prune hgone).trans (within_put (Disk.target_ne_nil hb) hrb _)

theorem keeps_removeFile {p : Path} (hp : r <+: p.place) : Keeps r (.removeFile p) := by
  intro d _
  rw [Script.run_removeFile]
  obtain h | ⟨q, data, ht, _, h⟩ := removeFile_cases d p
  · rw [h]
    exact Within.refl r d
  · rw [h]
    exact within_prune fun x hx => eq_of_beq hx ▸ Disk.target_place ht ▸ hp

theorem keeps_removeDirAll {p : Path} (hp : r <+: p.place) : Keeps r (.removeDirAll p) := by
  intro d _
  rw [Script.run_removeDirAll]
  obtain h | h := removeDirAll_cases d p
  · rw [h]
    exact Within.refl r d
  · rw [h]
    exact within_prune fun x hx => hp.trans (List.isPrefixOf_iff_prefix.mp hx)

theorem makeDirs_keeps {segs : List String} (hs : ∀ seg ∈ segs, Plain seg) :
    ∀ (d : Disk) (cur : Place), Rooted r d → r <+: cur ++ segs →
      Within r d (d.makeDirs cur segs).2 := by
  induction segs with
  | nil => exact fun d _ _ _ => Within.refl r d
  | cons seg rest ih =>
    intro d cur hd hr
    have hp := hs seg List.mem_cons_self
    have ih' := ih fun s hm => hs s (List.mem_cons_of_mem _ hm)
    have happ : (cur ++ [seg]) ++ rest = cur ++ seg :: rest := by simp
    have hr' : r <+: (cur ++ [seg]) ++ rest := by rw [happ]; exact hr
    unfold Disk.makeDirs
    rw [if_neg (by simp [hp.1]), if_neg hp.2]
    cases hn : d.node (cur ++ [seg]) with
    | none =>
      -- A missing directory lies below `r`, since everything down to `r` exists.
      have hbelow : r <+: cur ++ [seg] := by
        obtain h | h := List.prefix_or_prefix_of_prefix hr' (List.prefix_append _ rest)
        · exact h
        · rw [hd _ h] at hn
          cases hn
      have hne : cur ++ [seg] ≠ [] := by simp
      have hd' : Rooted r (d.put (cur ++ [seg]) .dir) := dirs_mkdir hd hn
      exact (within_put hne hbelow _).trans (ih' _ _ hd' hr')
    | some n =>
      cases n with
      | dir => exact ih' d (cur ++ [seg]) hd hr'
      | file data => exact Within.refl r d

theorem keeps_createDirAll {p : Path} (hs : ∀ seg ∈ p.segs, Plain seg) (hp : r <+: p.segs) :
    Keeps r (.createDirAll p) := by
  intro d hd
  rw [Script.run_createDirAll, Disk.createDirAll]
  split_ifs
  · exact makeDirs_keeps hs d [] hd (by simpa using hp)
  · exact Within.refl r d
  · exact Within.refl r d

theorem keeps_readDir (p : Path) : Keeps r (.readDir p) := by
  intro d _
  rw [Script.run_readDir, readDir_same]
  exact Within.refl r d

theorem keeps_canonicalize (p : Path) : Keeps r (.canonicalize p) := by
  intro d _
  rw [Script.run_canonicalize, canonicalize_same]
  exact Within.refl r d

end Rules

end Foundations.Files
