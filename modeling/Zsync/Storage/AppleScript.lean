import Zsync.Model.Darwin

/-! # Paths in AppleScript programs

The path of a file that a peer has named ends up in a program that `osascript` runs.

* `appleScript` : in a literal, a backslash escapes the character behind it and a quote that is not escaped is the end.
* `applescriptPosix_reads` : `applescript_posix` writes any path so that it is read back, and so that the program
  around it stays as it is.
* `darwinSet_runs` : all that is run to set the clipboard, whatever the item and the system, is such a program.
-/

namespace Zsync
set_option autoImplicit false
set_option maxHeartbeats 250000
open Protocol Foundations.Json Foundations.Quoting Foundations.UnixPaths

namespace Darwin

/-- The string literals of AppleScript. -/
def appleScript : Literals Char where
  esc := '\\'
  quote := '"'
  escape := some
  esc_ne_quote := by decide
  escape_esc := rfl
  escape_quote := rfl

/-- A program with one path in it. -/
structure Template where
  before : String
  after : String
  deriving DecidableEq, Repr

namespace Template

def file : Template := ⟨"set the clipboard to (POSIX file ", " as alias)"⟩

def png : Template := ⟨"set the clipboard to (read (POSIX file ", ") as «class PNGf»)"⟩

def jpeg : Template := ⟨"set the clipboard to (read (POSIX file ", ") as JPEG picture)"⟩

def script (t : Template) (path : PathBytes) : String :=
  t.before ++ "\"" ++ applescriptPosix path ++ "\"" ++ t.after

/-- The program is the code of the template and, as its only literal, `path`. -/
def Holds (t : Template) (path : List Char) (script : String) : Prop :=
  appleScript.pieces script.toList = some [.code t.before.toList, .literal path, .code t.after.toList]

end Template

def templates : List Template := [.file, .png, .jpeg]

/-! ## Programs -/

variable {t : Template}

/-- The quotes that a program supplies are written with its code. -/
theorem script_mk {before after left right : String} (hleft : left = before ++ "\"") (hright : right = "\"" ++ after)
    (path : PathBytes) : left ++ applescriptPosix path ++ right = (Template.mk before after).script path := by
  rw [hleft, hright, Template.script, ← String.append_assoc]

theorem fileScript_eq (path : PathBytes) : fileScript path = Template.file.script path :=
  script_mk (by decide +kernel) (by decide +kernel) path

theorem pngScript_eq (path : PathBytes) : pngScript path = Template.png.script path :=
  script_mk (by decide +kernel) (by decide +kernel) path

theorem jpegScript_eq (path : PathBytes) : jpegScript path = Template.jpeg.script path :=
  script_mk (by decide +kernel) (by decide +kernel) path

theorem applescriptPosix_toList (path : PathBytes) :
    (applescriptPosix path).toList = appleScript.quoted (lossy path) := by
  simp only [applescriptPosix, replace, String.toList_ofList]
  rfl

theorem readLiteral_applescriptPosix (path : PathBytes) (rest : List Char) :
    appleScript.readLiteral ((applescriptPosix path).toList ++ '"' :: rest) = some (lossy path, rest) := by
  rw [applescriptPosix_toList]
  exact appleScript.readLiteral_quoted (lossy path) rest

/-- Whatever bytes the path has. -/
theorem holds_script (ht : t ∈ templates) (path : PathBytes) : t.Holds (lossy path) (t.script path) := by
  have hcode : '"' ∉ t.before.toList ∧ '"' ∉ t.after.toList := by
    revert t
    decide
  have hscript : (t.script path).toList =
      t.before.toList ++ '"' :: (appleScript.quoted (lossy path) ++ '"' :: t.after.toList) := by
    simp [Template.script, applescriptPosix_toList]
  rw [Template.Holds, hscript]
  exact appleScript.pieces_around hcode.1 hcode.2 (lossy path)

/-- A path that is text is read back as it is, and the literal ends at the quote that the program supplies. -/
theorem applescriptPosix_reads (p : String) :
    (∀ rest, appleScript.readLiteral ((applescriptPosix (utf8 p.toList)).toList ++ '"' :: rest) =
      some (p.toList, rest)) ∧
    Template.file.Holds p.toList (fileScript (utf8 p.toList)) ∧
    Template.png.Holds p.toList (pngScript (utf8 p.toList)) ∧
    Template.jpeg.Holds p.toList (jpegScript (utf8 p.toList)) := by
  have hread := readLiteral_applescriptPosix (utf8 p.toList)
  have hscript := fun {t} (ht : t ∈ templates) => holds_script ht (utf8 p.toList)
  rw [lossy_utf8] at hread hscript
  rw [fileScript_eq, pngScript_eq, jpegScript_eq]
  exact ⟨hread, hscript (by decide), hscript (by decide), hscript (by decide)⟩

/-! ## What is run -/

/-- The paths that programs are given: that of the item, or that of the picture among the temporary files. -/
def PathOf (sys : DarwinSystem) (item : Item) (path : PathBytes) : Prop :=
  path = utf8 item.path.toList ∨ ∃ ext, path = join sys.tempDir (utf8 ("zsync-clip." ++ ext).toList)

theorem darwinSet_runs {sys : DarwinSystem} {item : Item} {script : String}
    (h : .osascript script ∈ (darwinSet sys item).2) :
    ∃ t ∈ templates, ∃ path, PathOf sys item path ∧ t.Holds (lossy path) script := by
  unfold darwinSet at h
  by_cases hfile : item.name ≠ "" ∧ sys.isFile (utf8 item.path.toList)
  · rw [if_pos hfile] at h
    obtain rfl := DarwinCall.osascript.inj (List.mem_singleton.mp h)
    rw [fileScript_eq]
    exact ⟨.file, by decide, _, .inl rfl, holds_script (by decide) _⟩
  rw [if_neg hfile] at h
  by_cases himage : startsWith item.mime "image/" = true
  · rw [if_pos himage] at h
    dsimp only at h
    cases hwrite : sys.write with
    | error e =>
      rw [hwrite] at h
      cases List.mem_singleton.mp h
    | ok u =>
      rw [hwrite] at h
      obtain h | h := List.mem_cons.mp h
      · cases h
      obtain h | h := List.mem_cons.mp h
      · rw [DarwinCall.osascript.inj h, pngScript_eq, jpegScript_eq]
        by_cases hpng : item.mime = "image/png" ∨ (if item.mime = "image/jpeg" then "jpg" else "png") = "png"
        · rw [if_pos hpng]
          exact ⟨.png, by decide, _, .inr ⟨_, rfl⟩, holds_script (by decide) _⟩
        · rw [if_neg hpng]
          exact ⟨.jpeg, by decide, _, .inr ⟨_, rfl⟩, holds_script (by decide) _⟩
      · cases hstatus : sys.status with
        | error e =>
          rw [hstatus] at h
          cases h
        | ok success =>
          rw [hstatus] at h
          cases List.mem_singleton.mp h
  · rw [if_neg himage] at h
    cases List.mem_singleton.mp h

end Darwin
end Zsync
