import Zsync.Daemon.Pasting
import Zsync.Foundations.CutPrograms
import Zsync.Model.PasteOutput

/-! # What `paste` prints and what it writes

The name of a clip comes from another device, and `sanitize_basename` may leave `..` of it. Such a name leads to a
directory, which is never overwritten.

* `isFileClip_iff` : which clips are written into the current directory.
* `write_join` : a file that is written there is one entry of it, whatever its name.
* `paste_delivers` : what the command prints, and all that it changes.
-/

namespace Zsync
set_option autoImplicit false
set_option maxHeartbeats 250000
open Protocol Foundations.Files

/-! ## Which clips are files -/

/-- A clip with a name, and one that is no text by its type or by its data. -/
def FileLike (item : Item) : Prop :=
  item.name ≠ "" ∨ (item.mime ≠ "" ∧ startsWith item.mime "text/" = false) ∨
    startsWith (detectMime item.data) "text/" = false

instance (item : Item) : Decidable (FileLike item) := inferInstanceAs (Decidable (_ ∨ _))

theorem image_not_text {mime : String} (h : isImageMime mime = true) : startsWith mime "text/" = false := by
  unfold isImageMime startsWith at h
  unfold startsWith
  obtain ⟨rest, hrest⟩ := List.isPrefixOf_iff_prefix.mp h
  rw [← hrest]
  rfl

/-- An image is no text, and empty data is. -/
theorem sniffed_eq (data : Bytes) :
    (isImageMime (detectMime data) || (!startsWith (detectMime data) "text/" && decide (data ≠ []))) =
      !startsWith (detectMime data) "text/" := by
  by_cases hempty : data = []
  · rw [hempty]
    decide
  · cases himage : isImageMime (detectMime data) with
    | true => simp [image_not_text himage]
    | false => simp [hempty]

theorem shouldWriteFile_eq (mime : String) (data : Bytes) :
    shouldWriteFile "" mime data =
      if startsWith mime "text/" || mime = "" then !startsWith (detectMime data) "text/" else true := by
  unfold shouldWriteFile
  rw [if_neg (by decide), sniffed_eq]
  split_ifs with himage htext
  · rw [image_not_text himage, Bool.false_or, decide_eq_true_eq] at htext
    rw [htext] at himage
    exact absurd himage (by decide)
  · rfl
  · rfl
  · rfl

theorem isFileClip_iff (resp : Ipc.Response) : isFileClip resp = true ↔
    resp.name.getD "" ≠ "" ∨ (resp.mime.getD "" ≠ "" ∧ startsWith (resp.mime.getD "") "text/" = false) ∨
      startsWith (detectMime resp.body) "text/" = false := by
  unfold isFileClip
  dsimp only
  generalize resp.name.getD "" = name
  generalize resp.mime.getD "" = mime
  generalize resp.body = body
  have hnone : startsWith "" "text/" = false := by decide
  by_cases hnamed : name = ""
  · rw [hnamed, shouldWriteFile_eq, shouldWriteFile_eq]
    by_cases hempty : body = []
    · have htext : startsWith (detectMime []) "text/" = true := by decide
      rw [if_pos hempty, hempty, htext, hnone]
      by_cases hmime : mime = ""
      · rw [hmime, hnone]
        decide
      · cases startsWith mime "text/" <;> simp [hmime]
    · rw [if_neg hempty]
      by_cases hmime : mime = ""
      · rw [hmime, hnone]
        cases startsWith (detectMime body) "text/" <;> simp
      · cases startsWith mime "text/" <;> cases startsWith (detectMime body) "text/" <;> simp [hmime]
  · simp [shouldWriteFile, hnamed]

/-- The response that both ways to paste make of an item. -/
def shownItem (b : Shown) (item : Item) : Ipc.Response :=
  { Ipc.Response.none with
    ok := true
    mime := some item.mime
    n := UInt64.ofNat item.data.length
    path := Ipc.shownPath b
    headless := some b.headless
    name := Ipc.shownName item
    body := item.data }

theorem shownItem_name (b : Shown) (item : Item) : (shownItem b item).name.getD "" = item.name := by
  simp only [shownItem, Ipc.shownName]
  split_ifs with h
  · exact h.symm
  · rfl

theorem shownItem_file (b : Shown) (item : Item) : isFileClip (shownItem b item) = true ↔ FileLike item := by
  rw [isFileClip_iff, shownItem_name]
  rfl

/-! ## One entry of the current directory -/

theorem clipFilename_slash (name mime : String) (data : Bytes) : '/' ∉ (clipFilename name mime data).toList := by
  unfold clipFilename
  cases hs : Basename.sanitizeBasename name with
  | none =>
    have hall : ∀ ext ∈ extensions, '/' ∉ ("zsync-clip" ++ ext).toList := by decide
    exact hall _ (extForMime_mem _)
  | some s =>
    obtain ⟨base, -, -, rfl⟩ := Basename.sanitize_some hs
    intro hslash
    rw [Option.getD_some, String.toList_ofList] at hslash
    exact absurd (List.mem_filter.mp (List.mem_of_mem_take hslash)).2 (by decide)

theorem write_ok {d : Disk} {p : Path} {data : Bytes} (h : (d.write p data).1 = .ok ()) :
    ∃ q, d.target p = some q ∧ (d.write p data).2 = d.put q (.file data) := by
  unfold Disk.write at h ⊢
  cases ht : d.target p with
  | none =>
    rw [ht] at h
    cases h
  | some q =>
    simp only [ht] at h ⊢
    split_ifs at h ⊢
    cases hv : d.verdict (.write p data) with
    | allow => exact ⟨q, rfl, rfl⟩
    | refuse =>
      rw [hv] at h
      cases h
    | tear n =>
      rw [hv] at h
      cases h

/-- Whatever the operating system answers, nothing but the entry `seg` changes. `seg` may be `..`: then nothing does. -/
theorem write_join (d : Disk) (dir : Path) {seg : String} (hseg : '/' ∉ seg.toList) (data : Bytes) :
    (∀ q, (d.write (dir.join seg) data).2.node q ≠ d.node q → Plain seg ∧ q = dir.place ++ [seg]) ∧
      ((d.write (dir.join seg) data).1 = .ok () →
        Plain seg ∧ (d.write (dir.join seg) data).2.content (dir.place ++ [seg]) = some data) := by
  have hplace : ∀ q, d.target (dir.join seg) = some q → Plain seg ∧ q = dir.place ++ [seg] := by
    intro q hq
    obtain ⟨dirs, last, hsegs, hplain, -, rfl⟩ := Disk.target_eq hq
    rw [Path.join_plain dir hseg] at hsegs
    obtain ⟨rfl, hlast⟩ := List.append_inj' hsegs rfl
    obtain rfl := (List.singleton_inj.mp hlast).symm
    exact ⟨hplain, rfl⟩
  constructor
  · intro q hq
    obtain hsame | ⟨x, content, ht, -, hput⟩ := write_cases d (dir.join seg) data
    · exact absurd (by rw [hsame]) hq
    · obtain ⟨hplain, rfl⟩ := hplace x ht
      rw [hput, d.node_put (Disk.target_ne_nil ht)] at hq
      by_cases heq : q = dir.place ++ [seg]
      · exact ⟨hplain, heq⟩
      · exact absurd (if_neg heq) hq
  · intro hok
    obtain ⟨x, ht, hput⟩ := write_ok hok
    obtain ⟨hplain, rfl⟩ := hplace x ht
    refine ⟨hplain, ?_⟩
    rw [hput, Disk.content_eq_some, d.node_put (Disk.target_ne_nil ht), if_pos rfl]

/-! ## The command -/

/-- What a clip that is written into `dir` leaves there, and what is printed. A clip without data is one whose file
is read again. -/
def Dropped (b : Shown) (item : Item) (dir : Path) (d : Disk) (out : Bytes) (d' : Disk) : Prop :=
  ∃ data, (item.data ≠ [] → data = item.data) ∧
    (item.data = [] → ∃ p, Ipc.shownPath b = some p ∧ d.content (Path.ofText p).place = some data) ∧
    d'.content (dir.place ++ [clipFilename item.name item.mime data]) = some data ∧
    (out = printLine (Path.toText ⟨dir.place ++ [clipFilename item.name item.mime data]⟩) ∨
      out = printLine (dir.join (clipFilename item.name item.mime data)).toText)

/-- The result of a command, and the disk, as far as they depend on the clip. -/
structure Delivers (b : Shown) (item : Item) (cwd : Except IoError Path) (wantPath wantContent : Bool) (d : Disk)
    (ret : Except String Bytes × Disk) : Prop where
  /-- Editors ask for the content, and get the data as it is. -/
  content : wantContent = true → ret = (.ok item.data, d)
  text : wantContent = false → ¬ FileLike item → wantPath = false → b.headless = false → ret = (.ok item.data, d)
  path : wantContent = false → ¬ FileLike item → wantPath = true ∨ b.headless = true →
    ret.2 = d ∧ (Ipc.shownPath b).map printLine = ret.1.toOption
  file : wantContent = false → FileLike item → ∀ out, ret.1 = .ok out →
    ∃ dir, cwd = .ok dir ∧ Dropped b item dir d out ret.2
  /-- On every way out. -/
  kept : ∀ q, ret.2.node q ≠ d.node q → wantContent = false ∧ FileLike item ∧
    ∃ dir data, cwd = .ok dir ∧ Plain (clipFilename item.name item.mime data) ∧
      q = dir.place ++ [clipFilename item.name item.mime data]

theorem writeClipFile_node (io : IoError → String) (dir : Path) (name mime : String) (data : Bytes) (d : Disk)
    {q : Place}
    (h : (writeClipFile io dir name mime data d).2.node q ≠ d.node q) :
    Plain (clipFilename name mime data) ∧ q = dir.place ++ [clipFilename name mime data] := by
  have hwrite := (write_join d dir (clipFilename_slash name mime data) data).1 q
  have hdisk : (writeClipFile io dir name mime data d).2 =
      (d.write (dir.join (clipFilename name mime data)) data).2 := by
    unfold writeClipFile
    dsimp only
    split
    · next heq => rw [heq]
    · next heq =>
      split
      · rw [heq]
      · rw [heq]
  rw [hdisk] at h
  exact hwrite h

theorem writeClipFile_ok {io : IoError → String} {dir dest : Path} {name mime : String} {data : Bytes} {d d' : Disk}
    (h : writeClipFile io dir name mime data d = (.ok dest, d')) :
    d'.content (dir.place ++ [clipFilename name mime data]) = some data ∧
      (dest = ⟨dir.place ++ [clipFilename name mime data]⟩ ∨ dest = dir.join (clipFilename name mime data)) := by
  have hslash := clipFilename_slash name mime data
  have hwrite := (write_join d dir hslash data).2
  unfold writeClipFile at h
  dsimp only at h
  split at h
  · cases h
  · next d₁ heq =>
    rw [heq] at hwrite
    obtain ⟨hplain, hcontent⟩ := hwrite rfl
    have hplace : Path.place (dir.join (clipFilename name mime data)) = dir.place ++ [clipFilename name mime data] := by
      rw [Path.join_plain dir hslash, Path.place, lexFrom_append]
      exact lexStep_plain hplain _
    split at h
    · next abs habs =>
      cases h
      refine ⟨hcontent, .inl ?_⟩
      rw [canonicalize_ok habs, hplace]
    · cases h
      exact ⟨hcontent, .inr rfl⟩

theorem fileClipData_ok {io : IoError → String} {b : Shown} {item : Item} {d : Disk} {data : Bytes}
    (h : fileClipData io (shownItem b item) d = .ok data) :
    (item.data ≠ [] → data = item.data) ∧
      (item.data = [] → ∃ p, Ipc.shownPath b = some p ∧ d.content (Path.ofText p).place = some data) := by
  have hbody : (shownItem b item).body = item.data := rfl
  unfold fileClipData at h
  rw [hbody] at h
  by_cases hempty : item.data = []
  · rw [if_neg (not_not.mpr hempty)] at h
    refine ⟨fun hne => absurd hempty hne, fun _ => ?_⟩
    have hpath : (shownItem b item).path = Ipc.shownPath b := rfl
    rw [hpath] at h
    cases hp : Ipc.shownPath b with
    | none =>
      rw [hp] at h
      cases h
    | some p =>
      rw [hp] at h
      dsimp only at h
      cases hread : (d.read (.ofText p)).1 with
      | error e =>
        rw [hread] at h
        cases h
      | ok bytes =>
        rw [hread] at h
        cases h
        exact ⟨p, rfl, content_of_read hread⟩
  · rw [if_pos hempty] at h
    exact ⟨fun _ => (Except.ok.inj h).symm, fun h => absurd h hempty⟩

/-- What `write_paste` does with a file clip. -/
theorem writePaste_file (io : IoError → String) {b : Shown} {item : Item} (cwd : Except IoError Path)
    (wantPath : Bool) (d : Disk) (hfile : isFileClip (shownItem b item) = true) :
    (∀ q, (writePaste io cwd wantPath false (shownItem b item) d).2.node q ≠ d.node q →
      ∃ dir data, cwd = .ok dir ∧ Plain (clipFilename item.name item.mime data) ∧
        q = dir.place ++ [clipFilename item.name item.mime data]) ∧
    ∀ out, (writePaste io cwd wantPath false (shownItem b item) d).1 = .ok out →
      ∃ dir, cwd = .ok dir ∧ Dropped b item dir d out (writePaste io cwd wantPath false (shownItem b item) d).2 := by
  unfold writePaste
  rw [hfile, if_pos (by decide), shownItem_name]
  cases hdata : fileClipData io (shownItem b item) d with
  | error e => exact ⟨fun q hq => absurd rfl hq, fun out hout => by cases hout⟩
  | ok data =>
    cases cwd with
    | error e => exact ⟨fun q hq => absurd rfl hq, fun out hout => by cases hout⟩
    | ok dir =>
      have hmime : (shownItem b item).mime.getD "" = item.mime := rfl
      dsimp only
      rw [hmime]
      have hnode := fun q => writeClipFile_node io dir item.name item.mime data d (q := q)
      cases hwrite : writeClipFile io dir item.name item.mime data d with
      | mk res d' =>
        rw [hwrite] at hnode
        cases res with
        | error e =>
          exact ⟨fun q hq => ⟨dir, data, rfl, hnode q hq⟩, fun out hout => by cases hout⟩
        | ok dest =>
          obtain ⟨hcontent, hdest⟩ := writeClipFile_ok hwrite
          obtain ⟨hsame, hagain⟩ := fileClipData_ok hdata
          refine ⟨fun q hq => ⟨dir, data, rfl, hnode q hq⟩, fun out hout => ?_⟩
          obtain rfl := Except.ok.inj hout
          refine ⟨dir, rfl, data, hsame, hagain, hcontent, ?_⟩
          exact hdest.imp (fun h => by rw [h]) (fun h => by rw [h])

/-- A clip that is shown comes to the screen, or into one file of the current directory, and touches nothing else. -/
theorem paste_delivers (io : IoError → String) {b : Shown} {item : Item} (hget : b.get = .ok (some item))
    (fetch : Bool → Bool → Except String Ipc.Response) (wantPath wantContent : Bool)
    (hflags : (wantPath && wantContent) = false)
    (hfetch : fetch wantPath wantContent = Ipc.pasteDirect b wantPath wantContent) (cwd : Except IoError Path)
    (d : Disk) :
    Delivers b item cwd wantPath wantContent d (paste io fetch cwd wantPath wantContent d) := by
  have hresp : fetch wantPath wantContent = .ok (shownItem b item) := by
    rw [hfetch, Ipc.pasteDirect, hflags, hget]
    rfl
  have hpaste : paste io fetch cwd wantPath wantContent d =
      writePaste io cwd wantPath wantContent (shownItem b item) d := by
    rw [paste, hresp]
  rw [hpaste]
  by_cases hfile : wantContent = false ∧ FileLike item
  · obtain ⟨rfl, hfile⟩ := hfile
    obtain ⟨hkept, hdropped⟩ := writePaste_file io cwd wantPath d ((shownItem_file b item).mpr hfile)
    constructor
    case content => exact fun h => by cases h
    case text => exact fun _ h => absurd hfile h
    case path => exact fun _ h => absurd hfile h
    case file => exact fun _ _ => hdropped
    case kept => exact fun q hq => ⟨rfl, hfile, hkept q hq⟩
  · have hplain : (isFileClip (shownItem b item) && !wantContent) = false := by
      rw [← shownItem_file b, not_and_or] at hfile
      cases wantContent with
      | false => simpa using hfile
      | true => simp
    have hwrite : writePaste io cwd wantPath wantContent (shownItem b item) d =
        if wantPath || (b.headless && !wantContent) then
          ((Ipc.shownPath b).elim (.error "no on-disk clip path") fun path => .ok (printLine path), d)
        else (.ok item.data, d) := by
      have hpath : (shownItem b item).path = Ipc.shownPath b := rfl
      rw [writePaste, hplain, if_neg (by decide), hpath]
      cases Ipc.shownPath b <;> rfl
    have hdisk : (writePaste io cwd wantPath wantContent (shownItem b item) d).2 = d := by
      rw [hwrite]
      split_ifs <;> rfl
    constructor
    case content =>
      rintro rfl
      rw [Bool.and_true] at hflags
      rw [hwrite, hflags]
      simp
    case text =>
      rintro rfl - rfl hhead
      rw [hwrite, hhead]
      rfl
    case path =>
      rintro rfl - hpath
      refine ⟨hdisk, ?_⟩
      rw [hwrite, if_pos (by simpa using hpath)]
      cases Ipc.shownPath b <;> rfl
    case file => exact fun hc hf => absurd ⟨hc, hf⟩ hfile
    case kept =>
      intro q hq
      rw [hdisk] at hq
      exact absurd rfl hq

/-- A clip that another device has named `..\` -/
def dotsClip : Item := ⟨"text/plain", [104, 105], "", "", "..\\"⟩

def dotsShown : Shown := ⟨.ok (some dotsClip), false, ""⟩

def oneDir : Disk := ⟨[(["home"], .dir)], fun _ => .allow, []⟩

theorem dotsClip_filename (data : Bytes) : clipFilename dotsClip.name dotsClip.mime data = ".." := by
  have hname : Basename.sanitizeBasename dotsClip.name = some ".." := by
    rw [Basename.sanitizeBasename, dotsClip, Basename.base_dotsBackslash]
    decide
  rw [clipFilename, hname]
  rfl

/-- It would have to be written over the parent directory, and everything stays as it was. -/
theorem dotsClip_kept :
    (paste (fun _ => "") (Ipc.pasteDirect dotsShown) (.ok ⟨["home"]⟩) false false oneDir).2.node = oneDir.node := by
  funext q
  by_contra hq
  have hshown : dotsShown.get = .ok (some dotsClip) := rfl
  have hdelivers := paste_delivers (fun _ => "") hshown (Ipc.pasteDirect dotsShown) false false rfl rfl
    (.ok ⟨["home"]⟩) oneDir
  obtain ⟨-, -, dir, data, -, hplain, -⟩ := hdelivers.kept q hq
  rw [dotsClip_filename] at hplain
  exact absurd hplain (by decide)

end Zsync
