import Zsync.Model.Clipboard

/-! # `clipboard/file.rs`: the headless backend

`FileBackend` works on a `Disk`, one file operation at a time, in the order of the source.
`serde_json` is the parameter `Json`. A file name is joined to a path exactly as it came, and the
directories down to `dir/clips`, which `FileBackend::open` creates, are a field of the state: no
operation of `set` removes one of them (`setOps_stands`).
-/

namespace Zsync
set_option autoImplicit false
set_option maxHeartbeats 250000
open Protocol Foundations.Files

structure Current where
  hash : String
  mime : String
  size : ℕ
  path : String
  name : String
  deriving DecidableEq, Repr

def Current.default : Current := ⟨"", "", 0, "", ""⟩

/-- A backend over an existing `dir/clips`. -/
structure FileBackend where
  dir : Place
  cur : Current
  disk : Disk
  plain : ∀ seg ∈ dir, Plain seg
  nulFree : Path.NulFree ⟨dir⟩
  rooted : Rooted (dir ++ ["clips"]) disk

namespace FileBackend

/-! ## Paths under `dir` -/

section Paths
variable (dir : Place)

def clips : Path := ⟨dir ++ ["clips"]⟩
def objects : Path := (clips dir).join "objects"
def metaPath : Path := (clips dir).join "current.json"
def stable (ext : String) : Path := (clips dir).join ("current" ++ ext)
def dropDir : Path := (clips dir).join "drop"

end Paths

/-! ## Writing -/

def writeAtomic (path : Path) (data : Bytes) : Script Unit := do
  let tmp := path.withFileName (path.fileName.getD "" ++ ".tmp")
  .write tmp data
  .rename tmp path

/-- The loop over the entries of `clips`: every other `current.*` copy goes. -/
def removeStale (clips : Path) (keep : String) : List String → Script Unit
  | [] => pure ()
  | name :: rest => do
    if startsWith name "current" && name != keep && name != "current.json" then
      let _ ← (Script.removeFile (clips.entry name)).attempt
    removeStale clips keep rest

def removeOthers (dir : Place) (ext : String) : Script Unit := do
  match ← (Script.readDir (clips dir)).attempt with
  | .ok entries => removeStale (clips dir) ("current" ++ ext) entries
  | .error _ => pure ()

def storeCopies (dir : Place) (h ext : String) (data : Bytes) : Script Unit := do
  writeAtomic ((objects dir).join h) data
  writeAtomic (stable dir ext) data
  removeOthers dir ext

/-- The path to offer: a copy under the clip's own name, or the stable copy. -/
def offerPath (dir : Place) (ext name : String) (data : Bytes) : Script Path := do
  let _ ← (Script.removeDirAll (dropDir dir)).attempt
  if name = "" then pure (stable dir ext)
  else do
    Script.createDirAll (dropDir dir)
    let dest := (dropDir dir).join name
    writeAtomic dest data
    pure dest

def saveCurrent [Json Current] (dir : Place) (item : Item) (mime h : String) (offer : Path) :
    Script (Item × Current) := do
  let abs := match ← (Script.canonicalize offer).attempt with
    | .ok p => p
    | .error _ => offer
  let stored : Item := ⟨mime, item.data, h, abs.toText, item.name⟩
  let cur : Current := ⟨h, mime, item.data.length, abs.toText, item.name⟩
  writeAtomic (metaPath dir) (Json.encode cur)
  pure (stored, cur)

/-- The file operations of `FileBackend::set`, after the size check. -/
def setOps [Sha256] [Json Current] (dir : Place) (item : Item) : Script (Item × Current) := do
  let mime := if item.mime = "" then detectMime item.data else item.mime
  let h := if item.hash = "" then Protocol.hash item.data else item.hash
  let ext := extForMime mime
  storeCopies dir h ext item.data
  let offer ← offerPath dir ext item.name item.data
  saveCurrent dir item mime h offer

/-! ## The directories stand -/

section Stands
variable {dir : Place}

theorem dropDir_eq : dropDir dir = ⟨dir ++ ["clips", "drop"]⟩ := by
  rw [dropDir, Path.join_plain _ (by decide), clips, List.append_assoc]
  rfl

theorem dropDir_plain (hdir : ∀ seg ∈ dir, Plain seg) : ∀ seg ∈ (dropDir dir).segs, Plain seg := by
  rw [dropDir_eq]
  intro seg hs
  obtain hs | hs := List.mem_append.mp hs
  · exact hdir seg hs
  · simp only [List.mem_cons, List.not_mem_nil, or_false] at hs
    rcases hs with rfl | rfl <;> decide

theorem dropDir_place (hdir : ∀ seg ∈ dir, Plain seg) :
    (dropDir dir).place = dir ++ ["clips", "drop"] := by
  have h := lexFrom_plain (dropDir_plain hdir) []
  rw [dropDir_eq] at h ⊢
  exact h

theorem writeAtomic_preserves {I : Disk → Prop} (hI : FileStable I) (path : Path) (data : Bytes) :
    Preserves I (writeAtomic path data) :=
  preserves_bind (preserves_write hI _ _) fun _ => preserves_rename hI _ _

theorem removeStale_preserves {I : Disk → Prop} (hI : FileStable I) (p : Path) (keep : String)
    (names : List String) : Preserves I (removeStale p keep names) := by
  induction names with
  | nil => exact preserves_pure ()
  | cons name rest ih =>
    unfold removeStale
    split_ifs
    · exact preserves_bind (preserves_attempt (preserves_removeFile hI _)) fun _ => ih
    · exact ih

theorem removeOthers_preserves {I : Disk → Prop} (hI : FileStable I) (ext : String) :
    Preserves I (removeOthers dir ext) := by
  refine preserves_bind (preserves_attempt (preserves_readDir _)) fun res => ?_
  cases res with
  | ok entries => exact removeStale_preserves hI _ _ _
  | error e => exact preserves_pure ()

theorem storeCopies_preserves {I : Disk → Prop} (hI : FileStable I) (h ext : String) (data : Bytes) :
    Preserves I (storeCopies dir h ext data) := by
  refine preserves_bind (writeAtomic_preserves hI _ _) fun _ => ?_
  exact preserves_bind (writeAtomic_preserves hI _ _) fun _ => removeOthers_preserves hI ext

theorem saveCurrent_preserves [Json Current] {I : Disk → Prop} (hI : FileStable I) (item : Item)
    (mime h : String) (offer : Path) : Preserves I (saveCurrent dir item mime h offer) := by
  refine preserves_bind (preserves_attempt (preserves_canonicalize _)) fun _ => ?_
  exact preserves_bind (writeAtomic_preserves hI _ _) fun _ => preserves_pure _

theorem offerPath_preserves {I : Disk → Prop} (hI : FileStable I)
    (hr : Preserves I (.removeDirAll (dropDir dir))) (hc : Preserves I (.createDirAll (dropDir dir)))
    (ext name : String) (data : Bytes) : Preserves I (offerPath dir ext name data) := by
  refine preserves_bind (preserves_attempt hr) fun _ => ?_
  split_ifs
  · exact preserves_pure _
  · refine preserves_bind hc fun _ => ?_
    exact preserves_bind (writeAtomic_preserves hI _ _) fun _ => preserves_pure _

/-- An invariant that also survives emptying and creating `drop` survives `set`. -/
theorem setOps_preserves [Sha256] [Json Current] {I : Disk → Prop} (hI : FileStable I)
    (hr : Preserves I (.removeDirAll (dropDir dir))) (hc : Preserves I (.createDirAll (dropDir dir)))
    (item : Item) : Preserves I (setOps dir item) := by
  refine preserves_bind (storeCopies_preserves hI _ _ _) fun _ => ?_
  refine preserves_bind (offerPath_preserves hI hr hc _ _ _) fun offer => ?_
  exact saveCurrent_preserves hI _ _ _ _

theorem dropDir_not_above (hdir : ∀ seg ∈ dir, Plain seg) :
    ¬ (dropDir dir).place <+: dir ++ ["clips"] := by
  intro h
  have hl := h.length_le
  rw [dropDir_place hdir] at hl
  simp at hl

theorem setOps_stands [Sha256] [Json Current] (hdir : ∀ seg ∈ dir, Plain seg) (item : Item) :
    Stands (dir ++ ["clips"]) (setOps dir item) :=
  setOps_preserves (fileStable_dirs _) (stands_removeDirAll (dropDir_not_above hdir))
    (stands_createDirAll _) item

end Stands

/-! ## The backend -/

def get (fb : FileBackend) : Except BackendError (Option Item) :=
  if fb.cur.hash = "" then .ok none
  else
    match (fb.disk.read ((objects fb.dir).join fb.cur.hash)).1 with
    | .ok data => .ok (some ⟨fb.cur.mime, data, fb.cur.hash, fb.cur.path, fb.cur.name⟩)
    | .error .notFound => .ok none
    | .error e => .error (.io e)

/-- The state after the file operations of `set`; the memory changes only when all succeed. -/
def afterSet [Sha256] [Json Current] (fb : FileBackend) (item : Item) : FileBackend :=
  { fb with
    cur := match ((setOps fb.dir item).run fb.disk).1 with
      | .ok (_, cur) => cur
      | .error _ => fb.cur
    disk := ((setOps fb.dir item).run fb.disk).2
    rooted := setOps_stands fb.plain item fb.disk fb.rooted }

def set [Sha256] [Json Current] (item : Item) (fb : FileBackend) :
    Except BackendError Item × FileBackend :=
  if maxClip < item.data.length then (.error .payloadTooLarge, fb)
  else
    match ((setOps fb.dir item).run fb.disk).1 with
    | .ok (stored, _) => (.ok stored, fb.afterSet item)
    | .error e => (.error (.io e), fb.afterSet item)

end FileBackend

def fileBackend [Sha256] [Json Current] : Backend FileBackend where
  get := FileBackend.get
  set := FileBackend.set

end Zsync
