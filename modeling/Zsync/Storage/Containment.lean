import Mathlib.Data.List.Infix
import Zsync.Model.FileBackend
import Zsync.Hubs.Outcomes

/-! # Where a remote clip may write

A hub over a `FileBackend` at `dir` should write under `dir/clips` only. The name of a received clip
is joined to `dir/clips/drop` as it came, so a name with `..` or an absolute name leads elsewhere.

* `tmpPath` is the temporary sibling of `write_atomic`; `dest` is the path offered for a clip and
  `copies` are the files that `set` writes before it.
* `Contained` is the frame of one apply, `Escapes` the condition on the clip: the temporary copy of
  the offered file lies outside, its name has no NUL, and none of the files involved stands where its
  own path needs a directory.
* `contained_iff` : an apply is contained from every state of the hub exactly when the clip does
  not escape.
-/

namespace Zsync
set_option autoImplicit false
set_option maxHeartbeats 250000
open Protocol Foundations.Files

namespace FileBackend

/-! ## The temporary sibling -/

/-- The path that `write_atomic` writes before it renames. -/
def tmpPath (path : Path) : Path := path.withFileName (path.fileName.getD "" ++ ".tmp")

theorem writeAtomic_eq (path : Path) (data : Bytes) :
    writeAtomic path data =
      (Script.write (tmpPath path) data >>= fun _ => Script.rename (tmpPath path) path) := rfl

theorem tmp_length (base : String) : 4 ≤ (base ++ ".tmp").toList.length := by
  rw [String.toList_append, List.length_append]
  exact Nat.le_add_left 4 _

theorem tmp_plain (base : String) : Plain (base ++ ".tmp") := by
  have hl := tmp_length base
  refine ⟨?_, ?_⟩
  · rw [Path.noop, Bool.or_eq_false_iff, beq_eq_false_iff_ne, beq_eq_false_iff_ne]
    constructor <;> intro h <;> rw [h] at hl <;> exact absurd hl (by decide)
  · intro h
    rw [h] at hl
    exact absurd hl (by decide)

theorem tmp_ne_clips (base : String) : base ++ ".tmp" ≠ "clips" := by
  intro h
  have hlast := congrArg (fun s : String => s.toList.getLast?) h
  rw [String.toList_append] at hlast
  have hp : (base.toList ++ ".tmp".toList).getLast? = some 'p' := by
    rw [show ".tmp".toList = ['.', 't', 'm'] ++ ['p'] from by decide, ← List.append_assoc,
      List.getLast?_concat]
  rw [hp] at hlast
  exact absurd hlast (by decide)

/-- The temporary sibling lies in the directory of the path itself, or in the path when that has
no file name. -/
theorem tmpPath_shape (p : Path) :
    ∃ dirs base, (tmpPath p) = ⟨dirs ++ [base ++ ".tmp"]⟩ ∧
      (p.place = lexFrom [] dirs ∨ p.place = lexFrom [] dirs ++ [base]) := by
  unfold tmpPath Path.withFileName Path.fileName
  cases hl : p.comps.getLast? with
  | none => exact ⟨p.segs, "", rfl, .inl rfl⟩
  | some seg =>
    dsimp only
    split_ifs with hs
    · exact ⟨p.segs, "", rfl, .inl rfl⟩
    · refine ⟨p.comps.dropLast, seg, rfl, .inr ?_⟩
      have hmem : seg ∈ p.comps := List.mem_of_getLast? hl
      have hplain : Plain seg := ⟨by simpa using (List.mem_filter.mp hmem).2, hs⟩
      rw [Path.place, ← lexFrom_comps]
      change lexFrom [] p.comps = _
      conv_lhs => rw [← List.dropLast_append_getLast? seg hl]
      rw [lexFrom_append]
      exact lexStep_plain hplain _

theorem tmpPath_place {p : Path} {dirs : List String} {base : String}
    (h : tmpPath p = ⟨dirs ++ [base ++ ".tmp"]⟩) :
    (tmpPath p).place = lexFrom [] dirs ++ [base ++ ".tmp"] := by
  rw [h, Path.place, lexFrom_append]
  exact lexStep_plain (tmp_plain base) _

/-- If the temporary sibling lies under `clips`, so does the file. -/
theorem inside_of_tmp {dir : Place} {p : Path} (h : dir ++ ["clips"] <+: (tmpPath p).place) :
    dir ++ ["clips"] <+: p.place := by
  obtain ⟨dirs, base, hshape, hplace⟩ := tmpPath_shape p
  rw [tmpPath_place hshape, List.prefix_concat_iff] at h
  have hin : dir ++ ["clips"] <+: lexFrom [] dirs := by
    obtain h | h := h
    · exact absurd (List.append_inj_right' h rfl) (by simpa using (tmp_ne_clips base).symm)
    · exact h
  obtain hplace | hplace := hplace
  · rw [hplace]
    exact hin
  · rw [hplace]
    exact hin.trans (List.prefix_append _ _)

theorem tmpPath_plain {dirs : List String} {seg : String} (h : ∀ s ∈ dirs ++ [seg], Plain s) :
    tmpPath ⟨dirs ++ [seg]⟩ = ⟨dirs ++ [seg ++ ".tmp"]⟩ := by
  have hcomps : Path.comps ⟨dirs ++ [seg]⟩ = dirs ++ [seg] := by
    apply List.filter_eq_self.mpr
    intro s hs
    rw [(h s hs).1]
    rfl
  have hname : Path.fileName ⟨dirs ++ [seg]⟩ = some seg := by
    unfold Path.fileName
    rw [hcomps, List.getLast?_concat]
    exact if_neg (h seg (by simp)).2
  unfold tmpPath Path.withFileName
  rw [hname, hcomps, List.dropLast_concat]
  rfl

theorem tmpPath_nulFree {p : Path} : (tmpPath p).NulFree ↔ p.NulFree := by
  have htmp : NulFree ".tmp" := by decide
  unfold tmpPath Path.withFileName Path.fileName
  cases hl : p.comps.getLast? with
  | none => exact Path.nulFree_append.trans (and_iff_left (by simpa [Path.NulFree] using htmp))
  | some seg =>
    dsimp only
    split_ifs
    · exact Path.nulFree_append.trans (and_iff_left (by simpa [Path.NulFree] using htmp))
    · have hp : p.NulFree ↔ Path.NulFree ⟨p.comps.dropLast⟩ ∧ Path.NulFree ⟨[seg]⟩ := by
        rw [← Path.nulFree_append, List.dropLast_append_getLast? seg hl, Path.comps_nulFree]
      rw [hp, Path.nulFree_append]
      refine and_congr_right fun _ => ?_
      simp [Path.NulFree, NulFree, String.toList_append]

/-! ## The files that one apply writes -/

section Written
variable (dir : Place) (clip : Clip)

def object : Path := (objects dir).join clip.clipMeta.hash

def ext : String :=
  extForMime (if clip.clipMeta.mime = "" then detectMime clip.data else clip.clipMeta.mime)

def dest : Path := (dropDir dir).join clip.clipMeta.name

/-- What `set` writes before it comes to the name of the clip. -/
def copies : List Path :=
  [tmpPath (object dir clip), object dir clip, tmpPath (stable dir (ext clip)), stable dir (ext clip)]

/-- A file directly in `clips` or in `clips/objects`, none of the two directories below `clips`. -/
structure Copy (p : Path) : Prop where
  shape : ∃ dirs seg, p = ⟨dirs ++ [seg]⟩ ∧ Plain seg
  inside : dir ++ ["clips"] <+: p.place
  parents : ∀ q ∈ p.parents, q <+: dir ++ ["clips", "objects"]
  objects : ¬ p.place <+: dir ++ ["clips", "objects"]
  drop : ¬ p.place <+: dir ++ ["clips", "drop"]

variable {dir clip}

theorem copy_of {sub : List String} {seg : String} (hp : ∀ s ∈ dir ++ ["clips"] ++ sub ++ [seg], Plain s)
    (hs : sub = ["objects"] ∨ sub = [] ∧ seg ≠ "objects" ∧ seg ≠ "drop") :
    Copy dir ⟨dir ++ ["clips"] ++ sub ++ [seg]⟩ := by
  have hplace : Path.place ⟨dir ++ ["clips"] ++ sub ++ [seg]⟩ = dir ++ ["clips"] ++ sub ++ [seg] :=
    lexFrom_plain hp []
  have hparents : ∀ q ∈ Path.parents ⟨dir ++ ["clips"] ++ sub ++ [seg]⟩,
      q <+: dir ++ ["clips"] ++ sub := by
    intro q hq
    rw [Path.parents, List.dropLast_concat] at hq
    exact entered_plain (fun s hs => hp s (List.mem_append_left _ hs)) [] hq
  refine ⟨⟨_, seg, rfl, hp seg (by simp)⟩, ?_, fun q hq => (hparents q hq).trans ?_, ?_, ?_⟩
  · rw [hplace, List.append_assoc]
    exact List.prefix_append _ _
  · rw [List.append_assoc, List.prefix_append_right_inj]
    rcases hs with rfl | ⟨rfl, _⟩ <;> decide
  · rw [hplace, List.append_assoc, List.append_assoc, List.prefix_append_right_inj]
    obtain rfl | ⟨rfl, ho, _⟩ := hs
    · simp
    · simpa using ho
  · rw [hplace, List.append_assoc, List.append_assoc, List.prefix_append_right_inj]
    obtain rfl | ⟨rfl, _, hd⟩ := hs
    · simp
    · simpa using hd

/-- A plain file and its temporary sibling, both copies. -/
theorem copies_of {sub : List String} {seg : String}
    (hp : ∀ s ∈ dir ++ ["clips"] ++ sub ++ [seg], Plain s)
    (hs : sub = ["objects"] ∨ sub = [] ∧ seg ≠ "objects" ∧ seg ≠ "drop")
    (ht : sub = ["objects"] ∨ sub = [] ∧ seg ++ ".tmp" ≠ "objects" ∧ seg ++ ".tmp" ≠ "drop") :
    Copy dir (tmpPath ⟨dir ++ ["clips"] ++ sub ++ [seg]⟩) ∧
    Copy dir ⟨dir ++ ["clips"] ++ sub ++ [seg]⟩ := by
  refine ⟨?_, copy_of hp hs⟩
  rw [tmpPath_plain hp]
  refine copy_of (fun s hm => ?_) ht
  obtain hm | hm := List.mem_append.mp hm
  · exact hp s (List.mem_append_left _ hm)
  · rw [List.mem_singleton.mp hm]
    exact tmp_plain seg

theorem hash_plain [Sha256] (data : Bytes) :
    '/' ∉ (Protocol.hash data).toList ∧ Plain (Protocol.hash data) := by
  have hl := hash_length data
  refine ⟨fun h => absurd (hash_chars h) (by decide), ?_, ?_⟩
  · rw [Path.noop, Bool.or_eq_false_iff, beq_eq_false_iff_ne, beq_eq_false_iff_ne]
    constructor <;> intro h <;> rw [h] at hl <;> exact absurd hl (by decide)
  · intro h
    rw [h] at hl
    exact absurd hl (by decide)

theorem hash_nulFree [Sha256] (data : Bytes) : NulFree (Protocol.hash data) :=
  fun h => absurd (hash_chars h) (by decide)

/-- The stable names, one for each extension. -/
theorem stable_plain {e : String} (he : e ∈ extensions) :
    '/' ∉ ("current" ++ e).toList ∧ NulFree ("current" ++ e) ∧ Plain ("current" ++ e) ∧
    ("current" ++ e ≠ "objects" ∧ "current" ++ e ≠ "drop") ∧
    ("current" ++ e ++ ".tmp" ≠ "objects" ∧ "current" ++ e ++ ".tmp" ≠ "drop") := by
  revert he
  revert e
  decide

theorem under_clips_plain (hdir : ∀ s ∈ dir, Plain s) {sub : List String} {seg : String}
    (hsub : ∀ s ∈ sub, Plain s) (hseg : Plain seg) :
    ∀ s ∈ dir ++ ["clips"] ++ sub ++ [seg], Plain s := by
  have hc : Plain "clips" := by decide
  intro s hs
  simp only [List.append_assoc, List.mem_append, List.mem_singleton] at hs
  obtain hs | rfl | hs | rfl := hs
  · exact hdir s hs
  · exact hc
  · exact hsub s hs
  · exact hseg

theorem copies_copy [Sha256] (hdir : ∀ s ∈ dir, Plain s) (hv : Verified clip) {p : Path}
    (hp : p ∈ copies dir clip) : Copy dir p := by
  obtain ⟨hslash, hplain⟩ := hash_plain clip.data
  obtain ⟨eslash, -, eplain, es, et⟩ := stable_plain (extForMime_mem (if clip.clipMeta.mime = "" then
    detectMime clip.data else clip.clipMeta.mime))
  rw [← hv.hash_eq] at hslash hplain
  have hobj : object dir clip = ⟨dir ++ ["clips"] ++ ["objects"] ++ [clip.clipMeta.hash]⟩ := by
    rw [object, Path.join_plain _ hslash, objects, Path.join_plain _ (by decide)]
    rfl
  have hstable : stable dir (ext clip) = ⟨dir ++ ["clips"] ++ [] ++ ["current" ++ ext clip]⟩ := by
    rw [stable, ext, Path.join_plain _ eslash, List.append_nil]
    rfl
  have hO := copies_of (@under_clips_plain _ hdir ["objects"] _ (by decide) hplain) (.inl rfl)
    (.inl rfl)
  have hS := copies_of (@under_clips_plain _ hdir [] _ (by simp) eplain) (.inr ⟨rfl, es⟩)
    (.inr ⟨rfl, et⟩)
  rw [← hobj] at hO
  rw [← ext, ← hstable] at hS
  simp only [copies, List.mem_cons, List.not_mem_nil, or_false] at hp
  obtain rfl | rfl | rfl | rfl := hp
  · exact hO.1
  · exact hO.2
  · exact hS.1
  · exact hS.2

theorem copies_nulFree [Sha256] (hnul : Path.NulFree ⟨dir⟩) (hv : Verified clip) {p : Path}
    (hp : p ∈ copies dir clip) : p.NulFree := by
  have hclips : (clips dir).NulFree := Path.nulFree_append.mpr ⟨hnul, by decide⟩
  have hobjects : (objects dir).NulFree := (Path.join_nulFree hclips).mpr (by decide)
  have hO : (object dir clip).NulFree := by
    rw [object, hv.hash_eq, Path.join_nulFree hobjects]
    exact hash_nulFree clip.data
  have hS : (stable dir (ext clip)).NulFree := by
    rw [stable, Path.join_nulFree hclips]
    exact (stable_plain (extForMime_mem _)).2.1
  simp only [copies, List.mem_cons, List.not_mem_nil, or_false] at hp
  obtain rfl | rfl | rfl | rfl := hp
  · exact tmpPath_nulFree.mpr hO
  · exact hO
  · exact tmpPath_nulFree.mpr hS
  · exact hS

theorem dropDir_nulFree (hnul : Path.NulFree ⟨dir⟩) : (dropDir dir).NulFree := by
  rw [dropDir_eq]
  exact Path.nulFree_append.mpr ⟨hnul, by decide⟩

theorem dest_nulFree (hnul : Path.NulFree ⟨dir⟩) :
    (dest dir clip).NulFree ↔ NulFree clip.clipMeta.name :=
  Path.join_nulFree (dropDir_nulFree hnul)

end Written

/-! ## The frame of `set` apart from the offered file -/

section Frames
variable {dir : Place}

theorem writeAtomic_keeps {r : Place} {p : Path} (ht : r <+: (tmpPath p).place) (hp : r <+: p.place)
    (data : Bytes) : Keeps r (writeAtomic p data) :=
  keeps_bind (preserves_write (fileStable_dirs _) _ _) (keeps_write ht data) fun _ =>
    keeps_rename ht hp

theorem current_plain {name : String} (h : startsWith name "current" = true) : Plain name := by
  have hl : 7 ≤ name.toList.length := by
    have := (List.isPrefixOf_iff_prefix.mp h).length_le
    exact this
  refine ⟨?_, ?_⟩
  · rw [Path.noop, Bool.or_eq_false_iff, beq_eq_false_iff_ne, beq_eq_false_iff_ne]
    constructor <;> rintro rfl <;> exact absurd hl (by decide)
  · rintro rfl
    exact absurd hl (by decide)

theorem removeStale_keeps (hdir : ∀ s ∈ dir, Plain s) (keep : String) (names : List String) :
    Keeps (dir ++ ["clips"]) (removeStale (clips dir) keep names) := by
  induction names with
  | nil => exact keeps_pure ()
  | cons name rest ih =>
    unfold removeStale
    split_ifs with h
    · have hname : Plain name := by
        simp only [Bool.and_eq_true] at h
        exact current_plain h.1.1
      have hplace : ((clips dir).entry name).place = dir ++ ["clips"] ++ [name] := by
        have hp := @under_clips_plain _ hdir [] _ (by simp) hname
        rw [List.append_nil] at hp
        exact lexFrom_plain hp []
      refine keeps_bind (preserves_attempt (preserves_removeFile (fileStable_dirs _) _))
        (keeps_attempt (keeps_removeFile ?_)) fun _ => ih
      rw [hplace]
      exact List.prefix_append _ _
    · exact ih

theorem removeOthers_keeps (hdir : ∀ s ∈ dir, Plain s) (e : String) :
    Keeps (dir ++ ["clips"]) (removeOthers dir e) := by
  apply keeps_bind (preserves_attempt (preserves_readDir _)) (keeps_attempt (keeps_readDir _))
  intro res
  cases res with
  | ok entries => exact removeStale_keeps hdir _ _
  | error e => exact keeps_pure ()

theorem storeCopies_keeps [Sha256] (hdir : ∀ s ∈ dir, Plain s) {clip : Clip} (hv : Verified clip) :
    Keeps (dir ++ ["clips"]) (storeCopies dir clip.clipMeta.hash (ext clip) clip.data) := by
  have hin : ∀ p ∈ copies dir clip, dir ++ ["clips"] <+: p.place :=
    fun p hp => (copies_copy hdir hv hp).inside
  have hS := fileStable_dirs (· <+: dir ++ ["clips"])
  refine keeps_bind (writeAtomic_preserves hS _ _) ?_ fun _ => ?_
  · exact writeAtomic_keeps (hin _ (by simp [copies, object])) (hin _ (by simp [copies, object])) _
  refine keeps_bind (writeAtomic_preserves hS _ _) ?_ fun _ => removeOthers_keeps hdir _
  exact writeAtomic_keeps (hin _ (by simp [copies])) (hin _ (by simp [copies])) _

theorem removeDrop_keeps (hdir : ∀ s ∈ dir, Plain s) :
    Keeps (dir ++ ["clips"]) (Script.removeDirAll (dropDir dir)) := by
  apply keeps_removeDirAll
  rw [dropDir_place hdir]
  exact ⟨["drop"], by simp⟩

theorem createDrop_keeps (hdir : ∀ s ∈ dir, Plain s) :
    Keeps (dir ++ ["clips"]) (Script.createDirAll (dropDir dir)) := by
  apply keeps_createDirAll (dropDir_plain hdir)
  rw [dropDir_eq]
  exact ⟨["drop"], by simp⟩

theorem saveCurrent_keeps [Json Current] (hdir : ∀ s ∈ dir, Plain s) (item : Item) (mime h : String)
    (offer : Path) : Keeps (dir ++ ["clips"]) (saveCurrent dir item mime h offer) := by
  have hplain : ∀ s ∈ dir ++ ["clips"] ++ [] ++ ["current.json"], Plain s :=
    under_clips_plain hdir (by simp) (by decide)
  have hmeta : metaPath dir = ⟨dir ++ ["clips"] ++ [] ++ ["current.json"]⟩ := by
    rw [metaPath, Path.join_plain _ (by decide), List.append_nil]
    rfl
  obtain ⟨ht, hp⟩ := copies_of hplain (.inr ⟨rfl, by decide⟩) (.inr ⟨rfl, by decide⟩)
  rw [← hmeta] at ht hp
  refine keeps_bind (preserves_attempt (preserves_canonicalize _))
    (keeps_attempt (keeps_canonicalize _)) fun _ => ?_
  refine keeps_bind (writeAtomic_preserves (fileStable_dirs _) _ _) ?_ fun _ => keeps_pure _
  exact writeAtomic_keeps ht.inside hp.inside _

end Frames

/-! ## When an apply is contained -/

section Contained
variable [Sha256] (dir : Place) (clip : Clip)

/-- The temporary copy of the offered file lies outside, its path can be handed to a system call,
and no file that is written stands where the way to it needs a directory. -/
structure Escapes : Prop where
  verified : Verified clip
  named : clip.clipMeta.name ≠ ""
  nulFree : NulFree clip.clipMeta.name
  outside : ¬ dir ++ ["clips"] <+: (tmpPath (dest dir clip)).place
  ancestor : ¬ (tmpPath (dest dir clip)).place <+: dir ++ ["clips"]
  clear : ∀ p ∈ tmpPath (dest dir clip) :: copies dir clip,
    p.place ∉ (tmpPath (dest dir clip)).parents

/-- The disk once the copies are stored. -/
def Ready (d : Disk) : Prop :=
  Rooted (dir ++ ["clips"]) d ∧ ∀ p, p ∈ copies dir clip → NoDir p.place d

variable {dir clip}

omit [Sha256] in
theorem removeDrop_ready (hdir : ∀ s ∈ dir, Plain s) :
    Preserves (Ready dir clip) (Script.removeDirAll (dropDir dir)) := by
  refine preserves_removeDirAll fun d hd => ⟨?_, fun p hp => noDir_prune (hd.2 p hp) _⟩
  exact dirs_prune hd.1 fun q hq h => dropDir_not_above hdir (h.trans hq)

theorem createDrop_ready (hdir : ∀ s ∈ dir, Plain s) (hv : Verified clip) :
    Preserves (Ready dir clip) (Script.createDirAll (dropDir dir)) := by
  refine preserves_createDirAll fun d q hd hq hn => ⟨dirs_mkdir hd.1 hn, fun p hp => ?_⟩
  have hqd : q <+: dir ++ ["clips", "drop"] := by
    have := entered_plain (dropDir_plain hdir) [] hq
    rwa [dropDir_eq] at this
  refine noDir_mkdir (hd.2 p hp) ?_ ?_
  · rintro rfl
    cases hn
  · rintro rfl
    exact (copies_copy hdir hv hp).drop hqd

omit [Sha256] in
theorem writeAtomic_ok {p : Path} {data : Bytes} {d d' : Disk}
    (h : (writeAtomic p data).run d = (.ok (), d')) :
    NoDir (tmpPath p).place d' ∧ NoDir p.place d' := by
  obtain ⟨_, d1, hw, hr⟩ := Script.run_bind_ok_inv h
  have hwok : (d.write (tmpPath p) data).1 = .ok () := congrArg Prod.fst hw
  have hrok : (d1.rename (tmpPath p) p).1 = .ok () := congrArg Prod.fst hr
  have ht := writeAtomic_preserves (fileStable_noDir (tmpPath p).place) p data d
    (node_of_write_ok hwok)
  have hp := preserves_rename (fileStable_noDir p.place) (tmpPath p) p d1 (node_of_rename_ok hrok)
  rw [h] at ht
  rw [Script.run_rename] at hp
  have hd' : (d1.rename (tmpPath p) p).2 = d' := congrArg Prod.snd hr
  rw [hd'] at hp
  exact ⟨ht, hp⟩

omit [Sha256] in
theorem storeCopies_ready {d d' : Disk} (hd : Rooted (dir ++ ["clips"]) d)
    (h : (storeCopies dir clip.clipMeta.hash (ext clip) clip.data).run d = (.ok (), d')) :
    Ready dir clip d' := by
  have hroot := @storeCopies_preserves dir _ (fileStable_dirs (· <+: dir ++ ["clips"]))
    clip.clipMeta.hash (ext clip) clip.data d hd
  rw [h] at hroot
  obtain ⟨_, d1, h1, hrest⟩ := Script.run_bind_ok_inv h
  obtain ⟨_, d2, h2, hlast⟩ := Script.run_bind_ok_inv hrest
  have hobj := writeAtomic_ok h1
  have hst := writeAtomic_ok h2
  have hlater : ∀ q, NoDir q d2 → NoDir q d' := by
    intro q hq
    have := @removeOthers_preserves dir _ (fileStable_noDir q) (ext clip) d2 hq
    rwa [hlast] at this
  have hmid : ∀ q, NoDir q d1 → NoDir q d2 := by
    intro q hq
    have := writeAtomic_preserves (fileStable_noDir q) (stable dir (ext clip)) clip.data d1 hq
    rwa [h2] at this
  refine ⟨hroot, fun p hp => ?_⟩
  simp only [copies, List.mem_cons, List.not_mem_nil, or_false] at hp
  obtain rfl | rfl | rfl | rfl := hp
  · exact hlater _ (hmid _ hobj.1)
  · exact hlater _ (hmid _ hobj.2)
  · exact hlater _ hst.1
  · exact hlater _ hst.2

/-- If the clip does not escape, the temporary copy is written inside or not at all. -/
theorem writeDest_within {d : Disk} (hnul : Path.NulFree ⟨dir⟩) (hd : Ready dir clip d) (hv : Verified clip)
    (hn : clip.clipMeta.name ≠ "") (he : ¬ Escapes dir clip) (data : Bytes) :
    Within (dir ++ ["clips"]) d ((writeAtomic (dest dir clip) data).run d).2 := by
  by_cases hin : dir ++ ["clips"] <+: (tmpPath (dest dir clip)).place
  · exact writeAtomic_keeps hin (inside_of_tmp hin) data d hd.1
  · have hblocked : ∀ q, d.target (tmpPath (dest dir clip)) = some q → d.node q = some .dir := by
      intro q hq
      obtain rfl := Disk.target_place hq
      by_contra hnode
      have hparents := Disk.parents_of_target hq
      have hname := (dest_nulFree hnul).mp (tmpPath_nulFree.mp (Disk.target_nulFree hq))
      refine he ⟨hv, hn, hname, hin, fun h => hnode (hd.1 _ h), fun p hp hmem => ?_⟩
      obtain rfl | hp := List.mem_cons.mp hp
      · exact hnode (hparents _ hmem)
      · exact hd.2 p hp (hparents _ hmem)
    obtain ⟨e, hw⟩ := write_blocked data hblocked
    rw [writeAtomic_eq]
    have hrun := Script.run_bind_error (p := Script.write (tmpPath (dest dir clip)) data) hw
      fun _ => Script.rename (tmpPath (dest dir clip)) (dest dir clip)
    change Within _ d ((Script.bind _ _).run d).2
    rw [hrun]
    exact Within.refl _ d

theorem offerPath_within (hdir : ∀ s ∈ dir, Plain s) (hnul : Path.NulFree ⟨dir⟩) {d : Disk} (hd : Ready dir clip d)
    (hv : Verified clip) (he : ¬ Escapes dir clip) :
    Within (dir ++ ["clips"]) d
      ((offerPath dir (ext clip) clip.clipMeta.name clip.data).run d).2 := by
  apply within_bind (keeps_attempt (removeDrop_keeps hdir) d hd.1)
  intro _ d2 h2
  have hd2 : Ready dir clip d2 := by
    have := preserves_attempt (@removeDrop_ready dir clip hdir) d hd
    rwa [h2] at this
  split_ifs with hn
  · exact keeps_pure _ d2 hd2.1
  · apply within_bind (createDrop_keeps hdir d2 hd2.1)
    intro _ d3 h3
    have hd3 : Ready dir clip d3 := by
      have := createDrop_ready hdir hv d2 hd2
      rwa [h3] at this
    exact within_bind (writeDest_within hnul hd3 hv hn he clip.data) fun _ d4 _ => Within.refl _ d4

theorem setOps_remote [Json Current] (hv : Verified clip) :
    setOps dir (Hub.remoteItem clip) =
      (storeCopies dir clip.clipMeta.hash (ext clip) clip.data >>= fun _ =>
        offerPath dir (ext clip) clip.clipMeta.name clip.data >>= fun offer =>
          saveCurrent dir (Hub.remoteItem clip)
            (if clip.clipMeta.mime = "" then detectMime clip.data else clip.clipMeta.mime)
            clip.clipMeta.hash offer) := by
  have hne : clip.clipMeta.hash ≠ "" := hv.hash_eq ▸ hash_ne_empty clip.data
  have hh : (if (Hub.remoteItem clip).hash = "" then Protocol.hash (Hub.remoteItem clip).data
      else (Hub.remoteItem clip).hash) = clip.clipMeta.hash := if_neg hne
  unfold setOps
  dsimp only
  rw [hh]
  rfl

theorem setOps_within [Json Current] (hdir : ∀ s ∈ dir, Plain s) (hnul : Path.NulFree ⟨dir⟩)
    {d : Disk} (hd : Rooted (dir ++ ["clips"]) d) (hv : Verified clip) (he : ¬ Escapes dir clip) :
    Within (dir ++ ["clips"]) d ((setOps dir (Hub.remoteItem clip)).run d).2 := by
  rw [setOps_remote hv]
  apply within_bind (storeCopies_keeps hdir hv d hd)
  intro _ d1 h1
  have hd1 := storeCopies_ready hd h1
  apply within_bind (offerPath_within hdir hnul hd1 hv he)
  intro offer d2 h2
  apply saveCurrent_keeps hdir _ _ _ _ d2
  have hstands := offerPath_preserves (fileStable_dirs (· <+: dir ++ ["clips"]))
    (stands_removeDirAll (dropDir_not_above hdir)) (stands_createDirAll _) (ext clip)
    clip.clipMeta.name clip.data d1 hd1.1
  rwa [h2] at hstands

/-! ### A disk on which an escaping clip escapes -/

/-- The directories are exactly `S`, and the operating system answers as `v` says. -/
def Settled (S : Place → Prop) (v : FileOp → Verdict) (d : Disk) : Prop :=
  (Dirs S d ∧ ∀ q, ¬ S q → NoDir q d) ∧ Answers v d

omit [Sha256] in
theorem fileStable_settled (S : Place → Prop) (v : FileOp → Verdict) :
    FileStable (Settled S v) :=
  ((fileStable_dirs S).and (FileStable.all fun q _ => fileStable_noDir q)).and (fileStable_answers v)

/-- Everything is allowed, except emptying a directory. -/
def stubborn : FileOp → Verdict
  | .removeDirAll _ => .refuse
  | _ => .allow

omit [Sha256] in
theorem target_of_settled {S : Place → Prop} {v : FileOp → Verdict} {d : Disk} {p : Path}
    (hd : Settled S v d) (hs : ∃ dirs seg, p = ⟨dirs ++ [seg]⟩ ∧ Plain seg)
    (hnul : p.NulFree) (hp : ∀ q ∈ p.parents, S q) : d.target p = some p.place := by
  obtain ⟨dirs, seg, rfl, hseg⟩ := hs
  exact Disk.target_of_parents hseg hnul fun q hq => hd.1.1 q (hp q hq)

omit [Sha256] in
theorem writeAtomic_settled {S : Place → Prop} {d : Disk} {p : Path} (data : Bytes)
    (hd : Settled S stubborn d) (ht : Copy dir (tmpPath p)) (hp : Copy dir p) (hnul : p.NulFree)
    (hS : ∀ q, q <+: dir ++ ["clips", "objects"] → S q) (htS : ¬ S (tmpPath p).place)
    (hpS : ¬ S p.place) :
    ∃ d', (writeAtomic p data).run d = (.ok (), d') ∧ Settled S stubborn d' := by
  have htnul : (tmpPath p).NulFree := tmpPath_nulFree.mpr hnul
  have hw := write_succeeds data (target_of_settled hd ht.shape htnul fun q hq => hS q (ht.parents q hq))
    (hd.1.2 _ htS) (by rw [hd.2]; rfl)
  have hne : (tmpPath p).place ≠ [] := fun h => htS (h ▸ hS [] List.nil_prefix)
  have hd1 : Settled S stubborn (d.put (tmpPath p).place (.file data)) :=
    (fileStable_settled S stubborn).put d _ data hd hne (hd.1.2 _ htS)
  have hr := rename_succeeds
    (target_of_settled hd1 ht.shape htnul fun q hq => hS q (ht.parents q hq))
    (target_of_settled hd1 hp.shape hnul fun q hq => hS q (hp.parents q hq))
    (by rw [d.node_put hne, if_pos rfl]) (hd1.1.2 _ hpS) (by rw [hd1.2]; rfl)
  have hfin := preserves_rename (fileStable_settled S stubborn) (tmpPath p) p _ hd1
  refine ⟨_, ?_, hfin⟩
  rw [← Script.run_write] at hw
  rw [writeAtomic_eq, Script.run_then hw]
  exact Prod.ext hr rfl

omit [Sha256] in
theorem removeStale_ok (p : Path) (keep : String) (names : List String) (d : Disk) :
    ((removeStale p keep names).run d).1 = .ok () := by
  induction names generalizing d with
  | nil => rfl
  | cons name rest ih =>
    unfold removeStale
    split_ifs
    · rw [Script.run_then (Script.run_attempt _ d)]
      exact ih _
    · exact ih d

omit [Sha256] in
theorem removeOthers_ok (e : String) (d : Disk) : ((removeOthers dir e).run d).1 = .ok () := by
  unfold removeOthers
  rw [Script.run_then (Script.run_attempt _ d)]
  cases ((Script.readDir (clips dir)).run d).1 with
  | ok entries => exact removeStale_ok _ _ _ _
  | error e => rfl

theorem storeCopies_settled {S : Place → Prop} {d : Disk} (hdir : ∀ s ∈ dir, Plain s)
    (hnul : Path.NulFree ⟨dir⟩) (hv : Verified clip) (hd : Settled S stubborn d)
    (hS : ∀ q, q <+: dir ++ ["clips", "objects"] → S q)
    (hc : ∀ p ∈ copies dir clip, ¬ S p.place) :
    ∃ d', (storeCopies dir clip.clipMeta.hash (ext clip) clip.data).run d = (.ok (), d') ∧
      Settled S stubborn d' := by
  have hcopy : ∀ p ∈ copies dir clip, Copy dir p := fun p hp => copies_copy hdir hv hp
  have h1 : tmpPath (object dir clip) ∈ copies dir clip := by simp [copies]
  have h2 : object dir clip ∈ copies dir clip := by simp [copies]
  have h3 : tmpPath (stable dir (ext clip)) ∈ copies dir clip := by simp [copies]
  have h4 : stable dir (ext clip) ∈ copies dir clip := by simp [copies]
  obtain ⟨d1, hrun1, hd1⟩ := writeAtomic_settled clip.data hd (hcopy _ h1) (hcopy _ h2)
    (copies_nulFree hnul hv h2) hS
    (hc _ h1) (hc _ h2)
  obtain ⟨d2, hrun2, hd2⟩ := writeAtomic_settled clip.data hd1 (hcopy _ h3) (hcopy _ h4)
    (copies_nulFree hnul hv h4) hS
    (hc _ h3) (hc _ h4)
  have hfin := @removeOthers_preserves dir _ (fileStable_settled S stubborn) (ext clip) d2 hd2
  refine ⟨_, ?_, hfin⟩
  unfold storeCopies
  rw [← object, Script.run_then hrun1, Script.run_then hrun2]
  exact Prod.ext (removeOthers_ok (ext clip) d2) rfl

omit [Sha256] in
/-- Emptying `drop` fails, creating it has nothing to do, and the temporary copy is written. -/
theorem offerPath_touches {S : Place → Prop} {d : Disk} (hd : Settled S stubborn d)
    (hn : clip.clipMeta.name ≠ "") (hd' : (dropDir dir).NulFree)
    (hnul : (tmpPath (dest dir clip)).NulFree) (hdrop : ∀ q ∈ entered [] (dropDir dir).segs, S q)
    (hparents : ∀ q ∈ (tmpPath (dest dir clip)).parents, S q)
    (htS : ¬ S (tmpPath (dest dir clip)).place) :
    Touched (tmpPath (dest dir clip)).place
      ((offerPath dir (ext clip) clip.clipMeta.name clip.data).run d).2 := by
  have hrm : ((Script.removeDirAll (dropDir dir)).attempt).run d =
      (.ok (d.removeDirAll (dropDir dir)).1, d) := by
    rw [Script.run_attempt, Script.run_removeDirAll]
    refine Prod.ext rfl ?_
    change (d.removeDirAll (dropDir dir)).2 = d
    unfold Disk.removeDirAll
    cases d.target (dropDir dir) with
    | none => rfl
    | some q =>
      dsimp only
      rw [show d.verdict = stubborn from hd.2]
      split_ifs with h1 h2
      · cases h2
      · rfl
      · rfl
  have hmk : (Script.createDirAll (dropDir dir)).run d = (.ok (), d) := by
    rw [Script.run_createDirAll, Disk.createDirAll, show d.verdict = stubborn from hd.2]
    rw [if_neg (not_not.mpr hd')]
    exact (if_pos rfl).trans (makeDirs_done fun q hq => hd.1.1 q (hdrop q hq))
  have hw := write_succeeds clip.data (target_of_settled hd (p := tmpPath (dest dir clip)) (by
    obtain ⟨dirs, base, hs, _⟩ := tmpPath_shape (dest dir clip)
    exact ⟨dirs, _, hs, tmp_plain base⟩) hnul hparents) (hd.1.2 _ htS) (by rw [hd.2]; rfl)
  have ht : Touched (tmpPath (dest dir clip)).place
      (d.put (tmpPath (dest dir clip)).place (.file clip.data)) :=
    List.mem_append_right _ (List.mem_singleton_self _)
  unfold offerPath
  rw [Script.run_then hrm, if_neg hn, Script.run_then hmk]
  refine holds_bind ?_ fun _ => preserves_pure _
  change Touched _ ((writeAtomic (dest dir clip) clip.data).run d).2
  rw [← Script.run_write] at hw
  rw [writeAtomic_eq, Script.run_then hw]
  exact preserves_rename (fileStable_touched _) _ _ _ ht

/-- The directories that the apply of the clip needs. -/
def ways (dir : Place) (clip : Clip) : List Place :=
  List.inits (dir ++ ["clips", "objects"]) ++ List.inits (dir ++ ["clips", "drop"]) ++
    (tmpPath (dest dir clip)).parents

omit [Sha256] in
theorem mem_ways {q : Place} : q ∈ ways dir clip ↔ q <+: dir ++ ["clips", "objects"] ∨
    q <+: dir ++ ["clips", "drop"] ∨ q ∈ (tmpPath (dest dir clip)).parents := by
  simp only [ways, List.mem_append, List.mem_inits, or_assoc]

def waysDisk (dir : Place) (clip : Clip) : Disk :=
  ⟨(ways dir clip).map fun q => (q, .dir), stubborn, []⟩

omit [Sha256] in
theorem lookup_dirs (l : List Place) (q : Place) :
    (l.map fun q => (q, Node.dir)).lookup q = if q ∈ l then some .dir else none := by
  induction l with
  | nil => rfl
  | cons x l ih =>
    rw [List.map_cons, List.lookup_cons]
    by_cases h : q = x
    · rw [h, beq_self_eq_true]
      simp
    · rw [beq_false_of_ne h, ih]
      simp [h]

omit [Sha256] in
theorem waysDisk_settled : Settled (· ∈ ways dir clip) stubborn (waysDisk dir clip) := by
  have hnode : ∀ q, (waysDisk dir clip).node q =
      if q = [] then some .dir else if q ∈ ways dir clip then some .dir else none := by
    intro q
    rw [Disk.node, waysDisk, lookup_dirs]
  refine ⟨⟨fun q hq => ?_, fun q hq => ?_⟩, rfl⟩
  · rw [hnode]
    split_ifs
    · rfl
    · rfl
  · rw [NoDir, hnode, if_neg, if_neg hq]
    · simp
    · rintro rfl
      exact hq (mem_ways.mpr (.inl List.nil_prefix))

def waysBackend (hdir : ∀ s ∈ dir, Plain s) (hnul : Path.NulFree ⟨dir⟩) (clip : Clip) : FileBackend where
  dir := dir
  cur := Current.default
  disk := waysDisk dir clip
  plain := hdir
  nulFree := hnul
  rooted := fun q hq => waysDisk_settled.1.1 q
    (mem_ways.mpr (.inl (hq.trans ⟨["objects"], by simp⟩)))

theorem setOps_touches [Json Current] (hdir : ∀ s ∈ dir, Plain s) (hnul : Path.NulFree ⟨dir⟩) (he : Escapes dir clip) :
    Touched (tmpPath (dest dir clip)).place
      ((setOps dir (Hub.remoteItem clip)).run (waysDisk dir clip)).2 := by
  have htS : (tmpPath (dest dir clip)).place ∉ ways dir clip := by
    intro h
    have hbelow : ∀ seg, ¬ (tmpPath (dest dir clip)).place <+: dir ++ ["clips", seg] := by
      intro seg hpre
      rw [show dir ++ ["clips", seg] = dir ++ ["clips"] ++ [seg] by simp,
        List.prefix_concat_iff] at hpre
      obtain hpre | hpre := hpre
      · exact he.outside (hpre ▸ List.prefix_append _ _)
      · exact he.ancestor hpre
    obtain h | h | h := mem_ways.mp h
    · exact hbelow _ h
    · exact hbelow _ h
    · exact he.clear _ List.mem_cons_self h
  have hc : ∀ p ∈ copies dir clip, p.place ∉ ways dir clip := by
    intro p hp h
    have hcopy := copies_copy hdir he.verified hp
    obtain h | h | h := mem_ways.mp h
    · exact hcopy.objects h
    · exact hcopy.drop h
    · exact he.clear p (List.mem_cons_of_mem _ hp) h
  obtain ⟨d1, hrun, hd1⟩ := storeCopies_settled hdir hnul he.verified waysDisk_settled
    (fun q hq => mem_ways.mpr (.inl hq)) hc
  rw [setOps_remote he.verified, Script.run_then hrun]
  refine holds_bind ?_ fun _ => saveCurrent_preserves (fileStable_touched _) _ _ _ _
  have htnul := tmpPath_nulFree.mpr ((dest_nulFree hnul).mpr he.nulFree)
  refine offerPath_touches hd1 he.named (dropDir_nulFree hnul) htnul (fun q hq => mem_ways.mpr (.inr (.inl ?_)))
    (fun q hq => mem_ways.mpr (.inr (.inr hq))) htS
  have := entered_plain (dropDir_plain hdir) [] hq
  rwa [dropDir_eq] at this

end Contained

/-! ## Applying a remote clip -/

theorem set_disk [Sha256] [Json Current] (item : Item) (fb : FileBackend) :
    (set item fb).2.disk =
      if maxClip < item.data.length then fb.disk else ((setOps fb.dir item).run fb.disk).2 := by
  unfold set
  split_ifs
  · rfl
  · split <;> rfl

end FileBackend

namespace Hub
open FileBackend
variable [Sha256] [Json Current]

/-- `apply_remote` and `apply_from` change nothing outside `dir/clips`. -/
def Contained (now : ℕ) (clip : Clip) (hub : Hub FileBackend) : Prop :=
  Within (hub.clipboard.dir ++ ["clips"]) hub.clipboard.disk
    (hub.applyRemote fileBackend now clip).hub.clipboard.disk ∧
  ∀ fromPeer, Within (hub.clipboard.dir ++ ["clips"]) hub.clipboard.disk
    (hub.applyFrom fileBackend now clip fromPeer).hub.clipboard.disk

theorem contained_iff_applyRemote (now : ℕ) (clip : Clip) (hub : Hub FileBackend) :
    Contained now clip hub ↔ Within (hub.clipboard.dir ++ ["clips"]) hub.clipboard.disk
      (hub.applyRemote fileBackend now clip).hub.clipboard.disk := by
  refine ⟨fun h => h.1, fun h => ⟨h, fun fromPeer => ?_⟩⟩
  rw [applyFrom_hub]
  exact h

/-- The disk after an apply. -/
theorem applyRemote_disk (now : ℕ) (clip : Clip) (hub : Hub FileBackend) :
    (hub.applyRemote fileBackend now clip).hub.clipboard.disk =
      if Lands fileBackend clip hub then
        ((setOps hub.clipboard.dir (remoteItem clip)).run hub.clipboard.disk).2
      else hub.clipboard.disk := by
  have h := applyRemote_applied fileBackend now clip hub
  generalize hub.applyRemote fileBackend now clip = ret at h
  have hset : ∀ res clipboard, Lands fileBackend clip hub →
      fileBackend.set (remoteItem clip) hub.clipboard = (res, clipboard) →
      clipboard.disk = ((setOps hub.clipboard.dir (remoteItem clip)).run hub.clipboard.disk).2 := by
    intro res clipboard hl he
    have hd := set_disk (remoteItem clip) hub.clipboard
    have hfits : ¬ maxClip < (remoteItem clip).data.length := Nat.not_lt.mpr hl.verified.fits
    rw [if_neg hfits] at hd
    rw [← hd]
    exact congrArg (fun r => r.2.disk) he.symm
  cases h with
  | rejected reason hv => exact (if_neg fun hl => hv hl.verified).symm
  | own hv ho => exact (if_neg fun hl => hl.remote ho).symm
  | duplicate hv ho hf => exact (if_neg fun hl => Bool.noConfusion (hf.symm.trans hl.fresh)).symm
  | present hv ho hf hp =>
    exact (if_neg fun hl => Bool.noConfusion (hl.absent.symm.trans hp)).symm
  | failed hl e clipboard he => exact (hset _ _ hl he).trans (if_pos hl).symm
  | stored hl item clipboard he => exact (hset _ _ hl he).trans (if_pos hl).symm

theorem contained_of_not_escapes (now : ℕ) {clip : Clip} {hub : Hub FileBackend}
    (he : ¬ Escapes hub.clipboard.dir clip) : Contained now clip hub := by
  rw [contained_iff_applyRemote, applyRemote_disk]
  split_ifs with hl
  · exact setOps_within hub.clipboard.plain hub.clipboard.nulFree hub.clipboard.rooted hl.verified he
  · exact Within.refl _ _

/-- A hub, not the origin of the clip, whose disk has the directories that the apply needs. -/
def waysHub {dir : Place} (hdir : ∀ s ∈ dir, Plain s) (hnul : Path.NulFree ⟨dir⟩) (clip : Clip) :
    Hub FileBackend :=
  Hub.new (clip.clipMeta.originId ++ "'") (waysBackend hdir hnul clip) ⟨⟨0, []⟩, ⟨0, []⟩⟩ 0

theorem waysHub_lands {dir : Place} (hdir : ∀ s ∈ dir, Plain s) (hnul : Path.NulFree ⟨dir⟩)
    {clip : Clip} (hv : Verified clip) : Lands fileBackend clip (waysHub hdir hnul clip) := by
  refine ⟨hv, fun h => ?_, rfl, rfl⟩
  have hl := congrArg (fun s : String => s.toList.length) h
  simp [waysHub, Hub.new, String.toList_append] at hl

/-- An apply is contained from every state of a hub at `dir` exactly when the clip does not
escape. -/
theorem contained_iff {dir : Place} (hdir : ∀ s ∈ dir, Plain s) (hnul : Path.NulFree ⟨dir⟩)
    (clip : Clip) :
    (∀ (hub : Hub FileBackend) (now : ℕ), hub.clipboard.dir = dir → Contained now clip hub) ↔
      ¬ Escapes dir clip := by
  constructor
  · intro h he
    have hc := h (waysHub hdir hnul clip) 0 rfl
    rw [contained_iff_applyRemote, applyRemote_disk, if_pos (waysHub_lands hdir hnul he.verified)] at hc
    exact not_within_of_touched rfl (setOps_touches hdir hnul he) he.outside hc
  · rintro he hub now rfl
    exact contained_of_not_escapes now he

end Hub

/-! ### A name that leads to the shell's start-up file -/

/-- `serde_json::to_vec_pretty`, where no string needs escaping. -/
abbrev sampleJson : Json Current where
  encode := fun c =>
    ("\x7b\n  \"hash\": \"" ++ c.hash ++ "\",\n  \"mime\": \"" ++ c.mime ++ "\",\n  \"size\": " ++
      Nat.repr c.size ++ ",\n  \"path\": \"" ++ c.path ++ "\",\n  \"name\": \"" ++ c.name ++
      "\"\n\x7d").toList.map fun c => UInt8.ofNat c.toNat
  decode := fun _ => none

def climbingClip : Clip :=
  { hiClip with clipMeta := { hiClip.clipMeta with name := "../../../.bashrc" } }

def homeDisk : Disk where
  nodes := [(["home"], .dir), (["home", "u"], .dir), (["home", "u", ".bashrc"], .file [35]),
    (["home", "u", ".zsync"], .dir), (["home", "u", ".zsync", "clips"], .dir),
    (["home", "u", ".zsync", "clips", "objects"], .dir)]
  verdict := fun _ => .allow
  journal := []

def homeBackend : FileBackend where
  dir := ["home", "u", ".zsync"]
  cur := Current.default
  disk := homeDisk
  plain := by decide
  nulFree := by decide
  rooted := by
    intro q hq
    rw [← List.mem_inits] at hq
    revert q
    decide

def homeHub : Hub FileBackend := Hub.new "desktop" homeBackend ⟨⟨0, []⟩, ⟨0, []⟩⟩ 10

theorem climbingClip_escapes :
    letI := sampleSha256
    letI := sampleJson
    Verified climbingClip ∧ ¬ Hub.Contained 0 climbingClip homeHub := by
  let _ := sampleSha256
  let _ := sampleJson
  refine ⟨by decide, fun h => ?_⟩
  have hkept := h.1.others ["home", "u", ".bashrc"] (by decide)
  revert hkept
  decide

theorem hiClip_contained :
    letI := sampleSha256
    letI := sampleJson
    Hub.Contained 0 hiClip homeHub :=
  let _ := sampleSha256
  let _ := sampleJson
  (Hub.contained_iff (by decide) (by decide) hiClip).mpr (fun h => h.named rfl) homeHub 0 rfl

end Zsync
