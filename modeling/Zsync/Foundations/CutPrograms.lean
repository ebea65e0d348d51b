import Zsync.Foundations.FilePrograms

/-! # Programs that may be cut between two operations

Every operation of a program may fail, and a crash stops the program where it is. What the operating system
answers is chosen anew for each operation.

* `Safe other mark C Q t p d` says that `C` holds of the disk at every point where `p` may be cut, and `Q` at
  its end, whatever other programs do between two of its operations within the relation `other`. A *stage*
  `t` notes how far the program has come: `mark` says where a successful operation leads.
* `safe_bind` and `safe_then` follow the text of a program; `safe_of_allOps` treats a part of it whose
  operations are all harmless.
* `Spares q o` says that `o` is not about the file at `q`; such an operation keeps what the file holds
  (`content_perform`), and that it can be reached (`FileAt.perform`).
-/

namespace Foundations.Files
set_option autoImplicit false
set_option maxHeartbeats 250000

universe u v

/-! ## One operation -/

namespace Disk

/-- From now on the operating system answers as `v` says. -/
def answering (d : Disk) (v : FileOp → Verdict) : Disk := { d with verdict := v }

def performWith (d : Disk) (v : FileOp → Verdict) (o : FileOp) : Except IoError o.Reply × Disk :=
  (d.answering v).perform o

/-- What the file at `q` holds. -/
def content (d : Disk) (q : Place) : Option (List UInt8) :=
  match d.node q with
  | some (.file data) => some data
  | _ => none

theorem content_eq_some {d : Disk} {q : Place} {data : List UInt8} :
    d.content q = some data ↔ d.node q = some (.file data) := by
  unfold content
  cases d.node q with
  | none => simp
  | some n => cases n <;> simp

theorem content_congr {d d' : Disk} {q : Place} (h : d'.node q = d.node q) :
    d'.content q = d.content q := by
  rw [content, h, content]

end Disk

/-- `o` is not about the file at `q`. -/
def Spares (q : Place) : FileOp → Prop
  | .write p _ => p.place ≠ q
  | .rename src dst => src.place ≠ q ∧ dst.place ≠ q
  | .removeFile p => p.place ≠ q
  | .removeDirAll p => ¬ p.place <+: q
  | _ => True

theorem content_write {d : Disk} {p : Path} {data : List UInt8} {q : Place} (h : p.place ≠ q) :
    (d.write p data).2.content q = d.content q := by
  obtain he | ⟨x, content, ht, _, he⟩ := write_cases d p data
  · rw [he]
  · rw [he]
    have hx := Disk.target_place ht
    apply Disk.content_congr
    rw [d.node_put (Disk.target_ne_nil ht), if_neg]
    rw [hx]
    exact Ne.symm h

theorem content_rename {d : Disk} {src dst : Path} {q : Place} (hs : src.place ≠ q)
    (hd : dst.place ≠ q) : (d.rename src dst).2.content q = d.content q := by
  obtain he | ⟨a, b, data, ha, hb, _, _, he⟩ := rename_cases d src dst
  · rw [he]
  · rw [he]
    have hqa : q ≠ a := fun h => hs ((Disk.target_place ha).symm.trans h.symm)
    have hqb : q ≠ b := fun h => hd ((Disk.target_place hb).symm.trans h.symm)
    apply Disk.content_congr
    rw [Disk.node_put _ (Disk.target_ne_nil hb), if_neg hqb, Disk.erase, d.node_prune, if_neg]
    simp [hqa]

theorem content_removeFile {d : Disk} {p : Path} {q : Place} (h : p.place ≠ q) :
    (d.removeFile p).2.content q = d.content q := by
  obtain he | ⟨x, data, ht, _, he⟩ := removeFile_cases d p
  · rw [he]
  · rw [he]
    have hqx : q ≠ x := fun hx => h ((Disk.target_place ht).symm.trans hx.symm)
    apply Disk.content_congr
    rw [Disk.erase, d.node_prune, if_neg]
    simp [hqx]

theorem content_removeDirAll {d : Disk} {p : Path} {q : Place} (h : ¬ p.place <+: q) :
    (d.removeDirAll p).2.content q = d.content q := by
  obtain he | he := removeDirAll_cases d p
  · rw [he]
  · rw [he]
    apply Disk.content_congr
    rw [d.node_prune, if_neg]
    exact fun hx => h (List.isPrefixOf_iff_prefix.mp hx.2)

/-- A directory is only made where nothing stands. -/
theorem content_createDirAll (d : Disk) (p : Path) (q : Place) :
    (d.createDirAll p).2.content q = d.content q := by
  have hmk := preserves_createDirAll (p := p) (I := fun d' => d'.content q = d.content q) ?_ d rfl
  · exact hmk
  · intro d' x hd' _ hn
    have hx : x ≠ [] := by
      rintro rfl
      cases hn
    rw [← hd']
    unfold Disk.content
    rw [d'.node_put hx]
    split_ifs with hq
    · rw [hq, hn]
    · rfl

theorem read_same (d : Disk) (p : Path) : (d.read p).2 = d := by
  unfold Disk.read
  split
  · rfl
  · split
    · rfl
    · rfl
    · split_ifs <;> rfl

theorem content_perform {d : Disk} {o : FileOp} {q : Place} (h : Spares q o) :
    (d.perform o).2.content q = d.content q := by
  cases o with
  | write p data => exact content_write h
  | rename src dst => exact content_rename h.1 h.2
  | removeFile p => exact content_removeFile h
  | removeDirAll p => exact content_removeDirAll h
  | createDirAll p => exact content_createDirAll d p q
  | readDir p => exact congrArg (fun d => Disk.content d q) (readDir_same d p)
  | read p => exact congrArg (fun d => Disk.content d q) (read_same d p)
  | canonicalize p => exact congrArg (fun d => Disk.content d q) (canonicalize_same d p)

/-- The directories down to `r` stand, unless one of them is removed. -/
theorem rooted_perform {d : Disk} {o : FileOp} {r : Place} (hd : Rooted r d)
    (h : ∀ p, o = .removeDirAll p → ¬ p.place <+: r) : Rooted r (d.perform o).2 := by
  cases o with
  | write p data => exact preserves_write (fileStable_dirs _) p data d hd
  | rename src dst => exact preserves_rename (fileStable_dirs _) src dst d hd
  | removeFile p => exact preserves_removeFile (fileStable_dirs _) p d hd
  | removeDirAll p => exact stands_removeDirAll (h p rfl) d hd
  | createDirAll p => exact stands_createDirAll p d hd
  | readDir p => exact preserves_readDir p d hd
  | read p =>
    have := read_same d p
    change Rooted r (d.read p).2
    rw [this]
    exact hd
  | canonicalize p => exact preserves_canonicalize p d hd

theorem verdict_perform (d : Disk) (o : FileOp) : (d.perform o).2.verdict = d.verdict := by
  have hI := fileStable_answers d.verdict
  cases o with
  | write p data => exact preserves_write hI p data d rfl
  | rename src dst => exact preserves_rename hI src dst d rfl
  | removeFile p => exact preserves_removeFile hI p d rfl
  | removeDirAll p =>
    have := preserves_removeDirAll (p := p) (I := Answers d.verdict) (fun _ h => h) d rfl
    exact this
  | createDirAll p =>
    have := preserves_createDirAll (p := p) (I := Answers d.verdict) (fun _ _ h _ _ => h) d rfl
    exact this
  | readDir p => exact congrArg Disk.verdict (readDir_same d p)
  | read p => exact congrArg Disk.verdict (read_same d p)
  | canonicalize p => exact congrArg Disk.verdict (canonicalize_same d p)

theorem run_verdict {α : Type u} (p : Prog α) (d : Disk) : (p.run d).2.verdict = d.verdict := by
  induction p generalizing d with
  | done a => rfl
  | op o next ih => exact (ih _ _).trans (verdict_perform d o)

theorem performWith_verdict (d : Disk) (o : FileOp) : d.performWith d.verdict o = d.perform o := rfl

/-! ## Files that can be read -/

/-- The file at `q` holds `data`, its directories stand, and its names can be written. -/
structure FileAt (q : Place) (data : List UInt8) (d : Disk) : Prop where
  rooted : Rooted q.dropLast d
  content : d.content q = some data
  nulFree : Path.NulFree ⟨q⟩

theorem FileAt.perform {q : Place} {data : List UInt8} {d : Disk} {o : FileOp} (h : FileAt q data d)
    (ho : Spares q o) : FileAt q data (d.perform o).2 := by
  refine ⟨rooted_perform h.rooted fun p hp hpre => ?_, (content_perform ho).trans h.content, h.nulFree⟩
  subst hp
  exact ho (hpre.trans (List.dropLast_prefix q))

/-- The verdict is no part of what a file holds. -/
theorem FileAt.answering {q : Place} {data : List UInt8} {d : Disk} (h : FileAt q data d)
    (v : FileOp → Verdict) : FileAt q data (d.answering v) := ⟨h.rooted, h.content, h.nulFree⟩

theorem FileAt.performWith {q : Place} {data : List UInt8} {d : Disk} {o : FileOp}
    (h : FileAt q data d) (ho : Spares q o) (v : FileOp → Verdict) :
    FileAt q data (d.performWith v o).2 := (h.answering v).perform ho

/-- Along plain names the walk enters every prefix. -/
theorem prefix_entered {segs : List String} (h : ∀ seg ∈ segs, Plain seg) :
    ∀ {cur x : Place}, cur <+: x → x ≠ cur → x <+: cur ++ segs → x ∈ entered cur segs := by
  induction segs with
  | nil =>
    intro cur x hc hne hx
    rw [List.append_nil] at hx
    exact absurd (List.IsPrefix.eq_of_length_le hx hc.length_le) hne
  | cons seg rest ih =>
    intro cur x hc hne hx
    have hp := h seg List.mem_cons_self
    have happ : cur ++ seg :: rest = (cur ++ [seg]) ++ rest := by simp
    rw [entered, if_neg (by simp [hp.1]), if_neg hp.2]
    by_cases hs : x = cur ++ [seg]
    · rw [hs]
      exact List.mem_cons_self
    · apply List.mem_cons_of_mem
      rw [happ] at hx
      refine ih (fun s hm => h s (List.mem_cons_of_mem _ hm)) ?_ hs hx
      obtain hpre | hpre := List.prefix_or_prefix_of_prefix hx (List.prefix_append (cur ++ [seg]) rest)
      · obtain hpre | hpre := List.prefix_concat_iff.mp hpre
        · exact absurd hpre hs
        · exact absurd (List.IsPrefix.eq_of_length_le hpre hc.length_le) hne
      · exact hpre

theorem place_plain {p : Path} (hp : ∀ seg ∈ p.segs, Plain seg) : p.place = p.segs :=
  lexFrom_plain hp []

/-- An operation that reaches its place has walked through the directories above it. -/
theorem rooted_of_target {d : Disk} {p : Path} {q : Place} (hp : ∀ seg ∈ p.segs, Plain seg)
    (ht : d.target p = some q) : Rooted p.place.dropLast d := by
  intro x hx
  by_cases hnil : x = []
  · rw [hnil]
    rfl
  · rw [place_plain hp] at hx
    apply Disk.parents_of_target ht
    refine prefix_entered (fun seg hs => hp seg ((List.dropLast_prefix _).subset hs)) List.nil_prefix hnil ?_
    rw [List.nil_append]
    exact hx

theorem fileAt_put {d : Disk} {q : Place} {data : List UInt8} (hr : Rooted q.dropLast d) (hq : q ≠ [])
    (hn : d.node q ≠ some .dir) (hnul : Path.NulFree ⟨q⟩) : FileAt q data (d.put q (.file data)) := by
  refine ⟨(fileStable_dirs _).put d q data hr hq hn, ?_, hnul⟩
  rw [Disk.content_eq_some, d.node_put hq, if_pos rfl]

theorem fileAt_write {d : Disk} {p : Path} {data : List UInt8} (hp : ∀ seg ∈ p.segs, Plain seg)
    (h : (d.write p data).1 = .ok ()) : FileAt p.place data (d.write p data).2 := by
  unfold Disk.write at h ⊢
  cases ht : d.target p with
  | none =>
    rw [ht] at h
    cases h
  | some q =>
    have hr := rooted_of_target hp ht
    have hq := Disk.target_place ht
    simp only [ht] at h ⊢
    split_ifs at h ⊢ with hn
    cases hv : d.verdict (.write p data) with
    | refuse =>
      rw [hv] at h
      cases h
    | tear n =>
      rw [hv] at h
      cases h
    | allow =>
      have hnul : Path.NulFree ⟨p.place⟩ := place_plain hp ▸ Disk.target_nulFree ht
      rw [← hq] at hr hnul ⊢
      exact fileAt_put hr (Disk.target_ne_nil ht) hn hnul

/-- A rename that succeeds has moved a file. -/
theorem fileAt_rename {d : Disk} {src dst : Path} {data : List UInt8} (hp : ∀ seg ∈ dst.segs, Plain seg)
    (hsrc : d.content src.place = some data) (h : (d.rename src dst).1 = .ok ()) :
    FileAt dst.place data (d.rename src dst).2 := by
  unfold Disk.rename at h ⊢
  split at h
  · next a b ha hb =>
    have hr := rooted_of_target hp hb
    obtain rfl := Disk.target_place ha
    have hbp := Disk.target_place hb
    rw [Disk.content_eq_some] at hsrc
    rw [hsrc] at h ⊢
    dsimp only at h ⊢
    split_ifs at h ⊢ with hn hv
    have hnul : Path.NulFree ⟨dst.place⟩ := place_plain hp ▸ Disk.target_nulFree hb
    rw [← hbp] at hr hnul ⊢
    refine fileAt_put ((fileStable_dirs _).erase d _ data hr hsrc) (Disk.target_ne_nil hb) ?_ hnul
    rw [Disk.erase, d.node_prune]
    split_ifs
    · simp
    · exact hn
  · cases h

theorem rename_error {d : Disk} {src dst : Path} {e : IoError} (h : (d.rename src dst).1 = .error e) :
    (d.rename src dst).2 = d := by
  generalize hres : d.rename src dst = res at h ⊢
  unfold Disk.rename at hres
  split at hres
  · split at hres
    · split_ifs at hres
      · rw [← hres]
      · rw [← hres] at h
        cases h
      · rw [← hres]
    · rw [← hres]
  · rw [← hres]

theorem canonicalize_ok {d : Disk} {p p' : Path} (h : (d.canonicalize p).1 = .ok p') :
    p' = ⟨p.place⟩ := by
  unfold Disk.canonicalize at h
  split_ifs at h
  split at h
  · next q hq =>
    cases h
    rw [walk_eq_lex (Disk.reach_eq hq)]
    rfl
  · split at h
    · next q hq =>
      split_ifs at h
      cases h
      rw [Disk.target_place hq]
    · cases h

/-- What is read is what the file holds. -/
theorem content_of_read {d : Disk} {p : Path} {data : List UInt8} (h : (d.read p).1 = .ok data) :
    d.content p.place = some data := by
  unfold Disk.read at h
  split at h
  · cases h
  · next q hq =>
    rw [← Disk.target_place hq, Disk.content_eq_some]
    split at h
    · cases h
    · cases h
    · next content hn =>
      split_ifs at h
      cases h
      exact hn

/-- Reading takes a path as a list of names, or as a text that starts with `/`. -/
theorem read_fileAt {d : Disk} {p : Path} {q : Place} {data : List UInt8} (hq : ∀ seg ∈ q, Plain seg)
    (hp : p = ⟨q⟩ ∨ p = ⟨"" :: q⟩) (h : FileAt q data d) (hv : d.verdict (.read p) = .allow) :
    d.read p = (.ok data, d) := by
  have hnode := Disk.content_eq_some.mp h.content
  have hne : q ≠ [] := by
    rintro rfl
    cases hnode
  have hsplit := List.dropLast_append_getLast hne
  have hseg : Plain (q.getLast hne) := hq _ (List.getLast_mem hne)
  have hlex : Path.place ⟨q⟩ = q := lexFrom_plain hq []
  have hparents : ∀ x ∈ entered [] q.dropLast, d.node x = some .dir := by
    intro x hx
    apply h.rooted
    have := entered_plain (fun seg hs => hq seg ((List.dropLast_prefix _).subset hs)) [] hx
    rwa [List.nil_append] at this
  have ht : d.target p = some q := by
    obtain rfl | rfl := hp
    · have htarget : d.target ⟨q.dropLast ++ [q.getLast hne]⟩ =
          some (Path.place ⟨q.dropLast ++ [q.getLast hne]⟩) := by
        refine Disk.target_of_parents hseg (hsplit.symm ▸ h.nulFree) ?_
        rw [Path.parents, List.dropLast_concat]
        exact hparents
      rw [hsplit, hlex] at htarget
      exact htarget
    · have htarget : d.target ⟨"" :: q.dropLast ++ [q.getLast hne]⟩ =
          some (Path.place ⟨"" :: q.dropLast ++ [q.getLast hne]⟩) := by
        refine Disk.target_of_parents hseg ?_ ?_
        · rw [List.cons_append, hsplit]
          exact List.forall_mem_cons.mpr ⟨by decide, h.nulFree⟩
        rw [Path.parents, List.dropLast_concat]
        exact hparents
      rw [List.cons_append, hsplit] at htarget
      exact htarget.trans (congrArg some hlex)
  unfold Disk.read
  rw [ht]
  dsimp only
  rw [hnode]
  dsimp only
  rw [if_pos hv]

/-! ## Programs, cut anywhere -/

/-- All operations that the program may come to meet `A`. -/
def AllOps {α : Type u} (A : FileOp → Prop) : Prog α → Prop
  | .done _ => True
  | .op o next => A o ∧ ∀ r, AllOps A (next r)

section AllOps
variable {α β : Type u} {A B : FileOp → Prop}

theorem AllOps.mono {p : Prog α} (h : AllOps A p) (hAB : ∀ o, A o → B o) : AllOps B p := by
  induction p with
  | done a => exact trivial
  | op o next ih => exact ⟨hAB o h.1, fun r => ih r (h.2 r)⟩

theorem allOps_bind {p : Prog α} {f : α → Prog β} (hp : AllOps A p) (hf : ∀ a, AllOps A (f a)) :
    AllOps A (p.bind f) := by
  induction p with
  | done a => exact hf a
  | op o next ih => exact ⟨hp.1, fun r => ih r (hp.2 r)⟩

theorem allOps_pure (a : α) : AllOps A (pure a : Script α) := trivial

theorem allOps_then {p : Script α} {f : α → Script β} (hp : AllOps A p) (hf : ∀ a, AllOps A (f a)) :
    AllOps A (p >>= f : Script β) := by
  refine allOps_bind hp fun r => ?_
  cases r with
  | ok a => exact hf a
  | error e => exact trivial

theorem allOps_attempt {p : Script α} (hp : AllOps A p) : AllOps A p.attempt :=
  allOps_bind hp fun _ => trivial

theorem allOps_perform {o : FileOp} (h : A o) : AllOps A (Script.perform o) := ⟨h, fun _ => trivial⟩

/-- A program that stops at its first error has come past its first operation. -/
theorem run_op_ok {o : FileOp} {next : Except IoError o.Reply → Script α} {d d' : Disk} {a : α}
    (hfail : ∀ e, next (.error e) = .done (.error e)) (h : Prog.run (.op o next) d = (.ok a, d')) :
    ∃ r, (d.perform o).1 = .ok r ∧ Prog.run (next (.ok r)) (d.perform o).2 = (.ok a, d') := by
  rw [Prog.run] at h
  cases hres : (d.perform o).1 with
  | error e =>
    rw [hres, hfail] at h
    cases congrArg Prod.fst h
  | ok r =>
    rw [hres] at h
    exact ⟨r, rfl, h⟩

/-- What every operation keeps, the program keeps. -/
theorem AllOps.run {I : Disk → Prop} {p : Prog α} (h : AllOps A p)
    (hI : ∀ o d, A o → I d → I (d.perform o).2) {d : Disk} (hd : I d) : I (p.run d).2 := by
  induction p generalizing d with
  | done a => exact hd
  | op o next ih => exact ih _ (h.2 _) (hI o d h.1 hd)

end AllOps

section Cut
variable {α β : Type u} {τ : Type v} (other : Disk → Disk → Prop) (mark : FileOp → τ → τ)
  (C : τ → Disk → Prop)

/-- A successful operation leads to the stage that `mark` says. -/
def stageAfter (o : FileOp) (res : Except IoError o.Reply) (t : τ) : τ :=
  match res with
  | .ok _ => mark o t
  | .error _ => t

/-- `C` holds wherever the program may be cut, `Q` at its end. -/
def Safe (Q : τ → α → Disk → Prop) : τ → Prog α → Disk → Prop
  | t, .done a, d => ∀ d', other d d' → C t d' ∧ Q t a d'
  | t, .op o next, d => ∀ d', other d d' → C t d' ∧ ∀ v,
      Safe Q (stageAfter mark o (d'.performWith v o).1 t) (next (d'.performWith v o).1)
        (d'.performWith v o).2

/-- What others do leaves `I` alone. -/
def Stable (I : Disk → Prop) : Prop := ∀ ⦃d d'⦄, other d d' → I d → I d'

theorem Stable.and {I J : Disk → Prop} {other : Disk → Disk → Prop} (hI : Stable other I)
    (hJ : Stable other J) : Stable other fun d => I d ∧ J d :=
  fun _ _ h hd => ⟨hI h hd.1, hJ h hd.2⟩

variable {other mark C} {Q Q' : τ → α → Disk → Prop} {t : τ} {d : Disk}

theorem Safe.now {p : Prog α} (h : Safe other mark C Q t p d) (hrefl : ∀ d, other d d) : C t d := by
  cases p with
  | done a => exact (h d (hrefl d)).1
  | op o next => exact (h d (hrefl d)).1

theorem Safe.after {p : Prog α} {d' : Disk} (h : Safe other mark C Q t p d)
    (htrans : ∀ {a b c}, other a b → other b c → other a c) (hd : other d d') :
    Safe other mark C Q t p d' := by
  cases p with
  | done a => exact fun x hx => h x (htrans hd hx)
  | op o next => exact fun x hx => h x (htrans hd hx)

theorem Safe.mono {p : Prog α} (h : Safe other mark C Q t p d) (hQ : ∀ t a d, C t d → Q t a d → Q' t a d) :
    Safe other mark C Q' t p d := by
  induction p generalizing t d with
  | done a => exact fun x hx => ⟨(h x hx).1, hQ t a x (h x hx).1 (h x hx).2⟩
  | op o next ih => exact fun x hx => ⟨(h x hx).1, fun v => ih _ ((h x hx).2 v)⟩

theorem safe_bind {R : τ → β → Disk → Prop} {p : Prog α} {f : α → Prog β} (hrefl : ∀ d, other d d)
    (h : Safe other mark C (fun t a d => Safe other mark C R t (f a) d) t p d) :
    Safe other mark C R t (p.bind f) d := by
  induction p generalizing t d with
  | done a => exact (h d (hrefl d)).2
  | op o next ih => exact fun x hx => ⟨(h x hx).1, fun v => ih _ ((h x hx).2 v)⟩

theorem safe_done {a : α} (hC : Stable other (C t)) (hQ : Stable other (Q t a)) (hd : C t d)
    (ha : Q t a d) : Safe other mark C Q t (.done a) d :=
  fun _ hx => ⟨hC hx hd, hQ hx ha⟩

/-- Sequencing under `?`: an error of the first part ends the whole. -/
theorem safe_then {R : τ → Except IoError α → Disk → Prop} {S : τ → Except IoError β → Disk → Prop}
    {p : Script α} {f : α → Script β} (hrefl : ∀ d, other d d) (hp : Safe other mark C R t p d)
    (hok : ∀ t a d, C t d → R t (.ok a) d → Safe other mark C S t (f a) d)
    (herr : ∀ t e d, C t d → R t (.error e) d → Safe other mark C S t (.done (.error e)) d) :
    Safe other mark C S t (p >>= f : Script β) d := by
  refine safe_bind hrefl (hp.mono fun t r d hC hR => ?_)
  cases r with
  | ok a => exact hok t a d hC hR
  | error e => exact herr t e d hC hR

theorem safe_attempt {R : τ → Except IoError α → Disk → Prop}
    {S : τ → Except IoError (Except IoError α) → Disk → Prop} {p : Script α} (hrefl : ∀ d, other d d)
    (hCs : ∀ t, Stable other (C t)) (hSs : ∀ t r, Stable other (S t r)) (h : Safe other mark C R t p d)
    (hRS : ∀ t r d, C t d → R t r d → S t (.ok r) d) : Safe other mark C S t p.attempt d :=
  safe_bind hrefl (h.mono fun t r d hC hR => safe_done (hCs t) (hSs t _) hC (hRS t r d hC hR))

/-- How a program that may stop with an error ends: in the stage and with the knowledge it began with, or
in the stage `t'` and with `J`. -/
def Ends (t t' : τ) (I : Disk → Prop) (J : α → Disk → Prop) : τ → Except IoError α → Disk → Prop
  | s, .ok a, d => s = t' ∧ J a d
  | s, .error _, d => s = t ∧ I d

theorem stable_ends {t t' : τ} {I : Disk → Prop} {J : α → Disk → Prop} (hI : Stable other I)
    (hJ : ∀ a, Stable other (J a)) (s : τ) (r : Except IoError α) : Stable other (Ends t t' I J s r) := by
  intro d d' h hd
  cases r with
  | ok a => exact ⟨hd.1, hJ a h hd.2⟩
  | error e => exact ⟨hd.1, hI h hd.2⟩

/-- One operation, from what is known before it. -/
theorem safe_perform {o : FileOp} {P : Disk → Prop} {S : τ → Except IoError o.Reply → Disk → Prop}
    (hP : Stable other P) (hPC : ∀ d, P d → C t d) (hCs : ∀ t, Stable other (C t))
    (hSs : ∀ t r, Stable other (S t r)) (hd : P d)
    (h : ∀ d v, P d → C (stageAfter mark o (d.performWith v o).1 t) (d.performWith v o).2 ∧
      S (stageAfter mark o (d.performWith v o).1 t) (d.performWith v o).1 (d.performWith v o).2) :
    Safe other mark C S t (Script.perform o) d := by
  intro x hx
  have hx' := hP hx hd
  refine ⟨hPC x hx', fun v => ?_⟩
  exact safe_done (hCs _) (hSs _ _) (h x v hx').1 (h x v hx').2

/-- A program of harmless operations keeps its stage and an invariant. -/
theorem safe_of_allOps {A : FileOp → Prop} {I : Disk → Prop} (hmark : ∀ o, A o → mark o t = t)
    (hI : ∀ d v o, A o → I d → I (d.performWith v o).2) (hIs : Stable other I) (hC : ∀ d, I d → C t d)
    {p : Prog α} (hp : AllOps A p) (hd : I d) : Safe other mark C (fun t' _ d => t' = t ∧ I d) t p d := by
  induction p generalizing d with
  | done a => exact fun x hx => ⟨hC x (hIs hx hd), rfl, hIs hx hd⟩
  | op o next ih =>
    intro x hx
    have hx' := hIs hx hd
    refine ⟨hC x hx', fun v => ?_⟩
    have hstage : stageAfter mark o (x.performWith v o).1 t = t := by
      unfold stageAfter
      split
      · exact hmark o hp.1
      · rfl
    rw [hstage]
    exact ih _ (hp.2 _) (hI x v o hp.1 hx')

end Cut

end Foundations.Files
