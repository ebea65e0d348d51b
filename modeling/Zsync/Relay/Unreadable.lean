import Zsync.Model.GroupsJson
import Zsync.Relay.Admission
import Zsync.Wire.ClipCodec

/-! # Commands on an allowlist that cannot be read

`load_groups` makes an empty list of every failure, and a command saves what it made of that list.

* `Spares` : a command that succeeds leaves the other records as they are, and one that cannot tell the
  records fails without writing.
* `spares_iff` : that is so exactly when the records can be told, or the command does not add a group, or the
  temporary file cannot be opened.
* `execute_accesses` : the command at work on bytes is one of the processes that work on `GroupsFile`s.
-/

namespace Zsync
set_option autoImplicit false
set_option maxHeartbeats 250000
open Protocol Foundations Zsync.Group

/-- The records of the groups other than `id`, in their order. -/
def GroupsFile.others (id : String) (file : GroupsFile) : List GroupRec :=
  file.groups.filter fun g => g.id ≠ id

/-- Changing the first record with the identifier leaves the others. -/
theorem filter_modify_findIdx (id : String) {f : GroupRec → GroupRec} (hf : ∀ g, (f g).id = g.id)
    (groups : List GroupRec) :
    (groups.modify (groups.findIdx fun g => g.id = id) f).filter (fun g => g.id ≠ id) =
      groups.filter fun g => g.id ≠ id := by
  induction groups with
  | nil => rw [List.modify_nil]
  | cons g groups ih =>
    rw [List.findIdx_cons]
    by_cases hg : g.id = id
    · simp [hg, hf]
    · simp only [hg, decide_false, cond_false, List.modify_succ_cons]
      rw [List.filter_cons_of_pos (by simpa using hg), List.filter_cons_of_pos (by simpa using hg), ih]

section
variable [Sha256] [Base64]

/-! ## The lists that a command makes -/

namespace AdminCommand
variable {c : AdminCommand} {file file' : GroupsFile}

omit [Sha256] [Base64] in
theorem setEnabled_others {groupId : String} {enabled : Bool} {gid : Bytes}
    (hp : parseGroupId groupId.toList = .ok gid) (h : setEnabled groupId enabled file = .ok file') :
    file'.others (hexEncode gid) = file.others (hexEncode gid) := by
  rw [setEnabled_eq hp] at h
  split_ifs at h
  obtain rfl := Except.ok.inj h
  apply filter_modify_findIdx
  intro g
  rfl

omit [Sha256] [Base64] in
theorem removeGroup_others {groupId : String} {gid : Bytes} (hp : parseGroupId groupId.toList = .ok gid)
    (h : removeGroup groupId file = .ok file') :
    file'.others (hexEncode gid) = file.others (hexEncode gid) := by
  rw [removeGroup_eq hp] at h
  split_ifs at h
  obtain rfl := Except.ok.inj h
  unfold GroupsFile.others
  simp

/-- What a command saves has the other records as they were. -/
theorem run_others (h : c.run file = .ok file') :
    ∃ id, c.target = some id ∧ file'.others id = file.others id := by
  cases c with
  | create domain detected name port secret =>
    simp only [AdminCommand.run] at h
    cases ha : advertised domain detected with
    | error e =>
      unfold cmdCreate at h
      rw [ha] at h
      cases h
    | ok host =>
      refine ⟨hexEncode (groupIdFromSecret secret), by simp only [target, ha], ?_⟩
      rw [cmdCreate_eq ha] at h
      split_ifs at h
      obtain rfl := Except.ok.inj h
      unfold GroupsFile.others
      simp
  | enable groupId | disable groupId =>
    simp only [AdminCommand.run] at h
    cases hp : parseGroupId groupId.toList with
    | error e =>
      unfold setEnabled at h
      rw [hp] at h
      cases h
    | ok gid => exact ⟨_, by simp only [target, hp], setEnabled_others hp h⟩
  | deny groupId =>
    simp only [AdminCommand.run] at h
    cases hp : parseGroupId groupId.toList with
    | error e =>
      unfold removeGroup at h
      rw [hp] at h
      cases h
    | ok gid => exact ⟨_, by simp only [target, hp], removeGroup_others hp h⟩

/-- The command adds a group to a list that does not have it. -/
def adds : AdminCommand → Bool
  | .create domain detected _ _ _ => (advertised domain detected).isOk
  | .enable _ | .disable _ | .deny _ => false

/-- On an empty list only a group can be added. -/
theorem run_nothing_iff (c : AdminCommand) : (c.run ⟨[]⟩).isOk = c.adds := by
  cases c with
  | create domain detected name port secret =>
    simp only [AdminCommand.run, adds]
    cases ha : advertised domain detected with
    | error e =>
      unfold cmdCreate
      rw [ha]
      rfl
    | ok host =>
      rw [cmdCreate_eq ha]
      rfl
  | enable groupId | disable groupId =>
    simp only [AdminCommand.run, adds]
    cases hp : parseGroupId groupId.toList with
    | error e =>
      unfold setEnabled
      rw [hp]
      rfl
    | ok gid =>
      rw [setEnabled_eq hp]
      rfl
  | deny groupId =>
    simp only [AdminCommand.run, adds]
    cases hp : parseGroupId groupId.toList with
    | error e =>
      unfold removeGroup
      rw [hp]
      rfl
    | ok gid =>
      rw [removeGroup_eq hp]
      rfl

/-! ## The file -/

variable [Json GroupsFile] {fate : SaveFate} {d : AllowFiles}

structure Spares (fate : SaveFate) (d : AllowFiles) (c : AdminCommand) : Prop where
  kept : ∀ file, d.groups.records = some file → (c.execute fate d).res = .ok () →
    ∃ id file', c.target = some id ∧ (c.execute fate d).files.groups.records = some file' ∧
      file'.others id = file.others id
  untouched : d.groups.records = none →
    ∃ e, (c.execute fate d).res = .error e ∧ (c.execute fate d).changes = []

omit [Sha256] [Base64] in
theorem loadGroups_of_records (h : d.groups.records = some file) : d.groups.loadGroups = file := by
  unfold FoundFile.records at h
  unfold FoundFile.loadGroups
  cases hg : d.groups with
  | missing =>
    rw [hg] at h
    exact Option.some.inj h
  | unreadable =>
    rw [hg] at h
    cases h
  | bytes b =>
    rw [hg] at h
    dsimp only at h ⊢
    rw [h, Option.getD_some]

omit [Sha256] [Base64] in
theorem loadGroups_unreadable (h : d.groups.records = none) : d.groups.loadGroups = ⟨[]⟩ := by
  unfold FoundFile.records at h
  unfold FoundFile.loadGroups
  cases hg : d.groups with
  | missing => rfl
  | unreadable => rfl
  | bytes b =>
    rw [hg] at h
    dsimp only at h ⊢
    rw [h, Option.getD_none]

theorem execute_ok (h : c.run d.groups.loadGroups = .ok file) :
    c.execute fate d = d.saveGroups fate file := by
  unfold execute
  rw [h]

theorem execute_error {e : String} (h : c.run d.groups.loadGroups = .error e) :
    c.execute fate d = ⟨.error (.refused e), d, []⟩ := by
  unfold execute
  rw [h]

/-- A command that succeeds has saved what it made of the list. -/
theorem execute_succeeds (h : (c.execute fate d).res = .ok ()) :
    ∃ file, c.run d.groups.loadGroups = .ok file ∧
      (c.execute fate d).files = ⟨.bytes (Json.encode file), .missing⟩ := by
  cases hrun : c.run d.groups.loadGroups with
  | error e =>
    rw [execute_error hrun] at h
    cases h
  | ok file =>
    rw [execute_ok hrun] at h ⊢
    cases fate with
    | unopened | torn | unrenamed => cases h
    | saved => exact ⟨file, rfl, rfl⟩

omit [Sha256] [Base64] in
/-- Saving neither writes nor succeeds exactly when the temporary file cannot be opened. -/
theorem saveGroups_untouched_iff : (∃ e, (d.saveGroups fate file).res = .error e ∧
    (d.saveGroups fate file).changes = []) ↔ fate = .unopened := by
  cases fate with
  | unopened => exact iff_of_true ⟨_, rfl, rfl⟩ rfl
  | torn | unrenamed =>
    refine iff_of_false ?_ (by simp)
    rintro ⟨e, -, hnil⟩
    cases hnil
  | saved =>
    refine iff_of_false ?_ (by simp)
    rintro ⟨e, he, -⟩
    cases he

/-- For every content of `groups.json`, whatever `serde_json` makes of it, for every command and every
outcome of the writes. -/
theorem spares_iff (fate : SaveFate) (d : AllowFiles) (c : AdminCommand)
    (hj : ∀ file, c.run d.groups.loadGroups = .ok file → JsonRoundTrip file) :
    Spares fate d c ↔ d.groups.records.isSome = true ∨ c.adds = false ∨ fate = .unopened := by
  cases hrec : d.groups.records with
  | some file =>
    refine iff_of_true ⟨fun file₁ h hok => ?_, fun h => ?_⟩ (.inl rfl)
    · obtain ⟨file', hrun, hfiles⟩ := execute_succeeds hok
      obtain ⟨id, htarget, hothers⟩ := run_others hrun
      rw [loadGroups_of_records h] at hothers
      refine ⟨id, file', htarget, ?_, hothers⟩
      rw [hfiles]
      exact (hj file' hrun).decode_encode
    · rw [hrec] at h
      cases h
  | none =>
    have hload := loadGroups_unreadable hrec
    have hkept : ∀ file, d.groups.records = some file → (c.execute fate d).res = .ok () →
        ∃ id file', c.target = some id ∧ (c.execute fate d).files.groups.records = some file' ∧
          file'.others id = file.others id := by
      intro file h
      rw [hrec] at h
      cases h
    have huntouched : Spares fate d c ↔
        ∃ e, (c.execute fate d).res = .error e ∧ (c.execute fate d).changes = [] :=
      ⟨fun h => h.untouched hrec, fun h => ⟨hkept, fun _ => h⟩⟩
    have hadds := run_nothing_iff c
    rw [huntouched]
    cases hrun : c.run d.groups.loadGroups with
    | error e =>
      rw [← hload, hrun] at hadds
      rw [execute_error hrun]
      exact iff_of_true ⟨_, rfl, rfl⟩ (.inr (.inl hadds.symm))
    | ok file =>
      rw [← hload, hrun] at hadds
      rw [execute_ok hrun, saveGroups_untouched_iff, ← hadds]
      simp [Except.isOk, Except.toBool]

/-- A group that is added to records that cannot be told is the only one afterwards. -/
theorem wiped_by_create (hrec : d.groups.records = none) (hok : (c.execute fate d).res = .ok ())
    (hj : ∀ file, c.run d.groups.loadGroups = .ok file → JsonRoundTrip file) :
    ∃ file', (c.execute fate d).files.groups.records = some file' ∧ ∀ g ∈ file'.groups,
      c.target = some g.id := by
  obtain ⟨file', hrun, hfiles⟩ := execute_succeeds hok
  obtain ⟨id, htarget, hothers⟩ := run_others hrun
  refine ⟨file', ?_, fun g hg => ?_⟩
  · rw [hfiles]
    exact (hj file' hrun).decode_encode
  · rw [loadGroups_unreadable hrec] at hothers
    rw [htarget]
    by_contra hne
    have hmem : g ∈ file'.others id := by
      refine List.mem_filter.mpr ⟨hg, ?_⟩
      simpa using fun h : g.id = id => hne (by rw [h])
    rw [hothers] at hmem
    cases hmem

/-! ## The same command as a process -/

section
omit [Json GroupsFile]
variable {i : ℕ} {base : GroupsFile} {s : GroupFiles}

theorem step_write (mtime : ℕ) : GroupFiles.step (s.put i ⟨c, .writing base file⟩) (.write i mtime) =
    some (({ s with tmp := Zsync.saveGroups mtime file } : GroupFiles).put i ⟨c, .renaming base file⟩) := by
  simp [GroupFiles.step, GroupFiles.put]

theorem step_failWrite (left : Option OnDisk) :
    GroupFiles.step (s.put i ⟨c, .writing base file⟩) (.failWrite i left) =
      some (({ s with tmp := left } : GroupFiles).put i ⟨c, .reported false⟩) := by
  simp [GroupFiles.step, GroupFiles.put]

theorem step_failRename :
    GroupFiles.step (s.put i ⟨c, .renaming base file⟩) (.failRename i) =
      some (s.put i ⟨c, .reported false⟩) := by
  simp [GroupFiles.step, GroupFiles.put]

theorem step_rename {text : OnDisk} (h : s.tmp = some text) :
    GroupFiles.step (s.put i ⟨c, .renaming base file⟩) (.rename i) =
      some (({ s with groups := some text, tmp := none } : GroupFiles).put i ⟨c, .reported true⟩) := by
  simp [GroupFiles.step, GroupFiles.rename, GroupFiles.put, h]

end

/-- The process leaves the files of `execute`, and reports what `execute` returns. -/
theorem execute_accesses (mtime : ℕ) (fate : SaveFate) (d : AllowFiles) (c : AdminCommand)
    (hj : ∀ file, c.run d.groups.loadGroups = .ok file → JsonRoundTrip file) :
    exec GroupFiles.step (d.asProcess mtime) (c.accesses mtime fate d) =
      some (((c.execute fate d).files.asProcess mtime).put 0
        ⟨c, .reported (c.execute fate d).res.isOk⟩) := by
  have hload : GroupFiles.step (d.asProcess mtime) (.load 0 c) = some ((d.asProcess mtime).load 0 c) := rfl
  have hbase : Zsync.loadGroups (d.asProcess mtime).groups = d.groups.loadGroups :=
    loadGroups_onDisk mtime d.groups
  unfold GroupFiles.load at hload
  rw [hbase] at hload
  dsimp only at hload
  unfold accesses
  cases hrun : c.run d.groups.loadGroups with
  | error e =>
    rw [hrun] at hload
    rw [execute_error hrun]
    dsimp only
    rw [exec_cons_of_step _ hload]
    rfl
  | ok file =>
    rw [hrun] at hload
    rw [execute_ok hrun]
    have htext := onDisk_encode mtime (hj file hrun).decode_encode
    cases fate with
    | unopened =>
      dsimp only
      rw [exec_cons_of_step _ hload, exec_cons_of_step _ (step_failWrite _)]
      rfl
    | torn n =>
      dsimp only
      rw [exec_cons_of_step _ hload, exec_cons_of_step _ (step_failWrite _)]
      rfl
    | unrenamed =>
      dsimp only
      rw [exec_cons_of_step _ hload, exec_cons_of_step _ (step_write mtime),
        exec_cons_of_step _ step_failRename, exec_nil, ← htext]
      rfl
    | saved =>
      dsimp only
      rw [exec_cons_of_step _ hload, exec_cons_of_step _ (step_write mtime),
        exec_cons_of_step _ (step_rename rfl), exec_nil]
      unfold AllowFiles.asProcess AllowFiles.saveGroups
      dsimp only
      rw [htext]
      rfl

end AdminCommand
end

/-! ### A group is created after a write that was cut short -/

/-- The file that lists `zeroGroup`. -/
def zeroFile (enabled : Bool) : GroupsFile := ⟨[⟨zeroGroup, "", enabled⟩]⟩

/-- `serde_json::to_vec_pretty` of that file. -/
def zeroText (enabled : Bool) : Bytes :=
  ("\x7b\n  \"groups\": [\n    \x7b\n      \"id\": \"69c76489b49421eb49748abafb2e2372\",\n" ++
    "      \"name\": \"\",\n      \"enabled\": " ++ (if enabled then "true" else "false") ++
    "\n    \x7d\n  ]\n\x7d").toUTF8.toList

/-- `serde_json` at the files that list `zeroGroup`, and at texts that are no JSON. -/
abbrev sampleGroupsJson : Json GroupsFile where
  encode := fun file => if file = zeroFile true then zeroText true
    else if file = zeroFile false then zeroText false else []
  decode := fun b => if b = zeroText true then some (zeroFile true)
    else if b = zeroText false then some (zeroFile false) else none

def createZero : AdminCommand := .create none (some "10.0.0.5") none 43721 (Vector.replicate 32 0)

theorem disableZero_spares :
    letI := zeroSecretSha256
    letI := sampleBase64
    letI := sampleGroupsJson
    AdminCommand.Spares .saved ⟨.bytes (zeroText true), .missing⟩ (.disable zeroGroup) := by
  let _ := zeroSecretSha256
  let _ := sampleBase64
  let _ := sampleGroupsJson
  have hrun : AdminCommand.run (FoundFile.bytes (zeroText true)).loadGroups (.disable zeroGroup) =
      .ok (zeroFile false) := by decide +kernel
  refine (AdminCommand.spares_iff .saved _ _ fun file h => ?_).mpr (.inl (by decide +kernel))
  obtain rfl := Except.ok.inj (hrun.symm.trans h)
  exact ⟨by decide +kernel, by decide +kernel⟩

/-- The file ends after its first 16 bytes, and what it listed is gone. -/
theorem createZero_wipes :
    letI := zeroSecretSha256
    letI := sampleBase64
    letI := sampleGroupsJson
    ¬ AdminCommand.Spares .saved ⟨.bytes ((zeroText false).take 16), .missing⟩ createZero := by
  let _ := zeroSecretSha256
  let _ := sampleBase64
  let _ := sampleGroupsJson
  intro h
  obtain ⟨e, he, -⟩ := h.untouched (by decide +kernel)
  have hok : (createZero.execute .saved ⟨.bytes ((zeroText false).take 16), .missing⟩).res = .ok () := by
    decide +kernel
  rw [hok] at he
  cases he

end Zsync
