import Mathlib.Data.List.Infix
import Zsync.Model.FileBackend
import Zsync.Storage.Basenames
import Zsync.Storage.FileUris

/-! # `clipboard/native.rs`: the clipboard of a desktop

The backend asks the tools of the desktop for what is on the clipboard. A text that names a file of this machine counts
as a copy of that file, since this is what file managers leave there.

* `itemFromFileText` : of `clipboard/mod.rs`, the file that a text names.
* `waylandGet`, `xclipGet`, `xselGet` : one getter for each desktop. None of them fails.
* `waylandSet`, `xclipSet`, `xselSet` : and the setters.

What the tools answer is a parameter, `RunOut` and `RunIn`.
-/

namespace Zsync
set_option autoImplicit false
set_option maxHeartbeats 250000
open Protocol Foundations.Json Foundations.UnixPaths

/-! ## Files of the user -/

/-- The file system that a getter looks into. -/
structure UserFiles extends FileTree where
  size : PathBytes → ℕ
  read : PathBytes → Option Bytes

/-- `Path::extension`: what stands behind the last dot, unless the name begins with it. -/
def extension (path : PathBytes) : Option PathBytes :=
  (fileName path).bind fun name =>
    match (name.splitOn dot).reverse with
    | after :: before => if before = [] ∨ before = [[]] then none else some after
    | [] => none

def mimeOfExtension (ext : String) : Option String :=
  if ext = "png" then some "image/png"
  else if ext = "jpg" ∨ ext = "jpeg" then some "image/jpeg"
  else if ext = "gif" then some "image/gif"
  else if ext = "webp" then some "image/webp"
  else if ext = "svg" then some "image/svg+xml"
  else if ext = "pdf" then some "application/pdf"
  else if ext = "zip" then some "application/zip"
  else if ext = "gz" ∨ ext = "tgz" then some "application/gzip"
  else if ext = "json" then some "application/json"
  else if ext ∈ ["txt", "md", "rs", "toml", "py", "sh", "c", "h", "go", "ts", "js"] then some "text/plain"
  else if ext = "html" ∨ ext = "htm" then some "text/html"
  else if ext = "csv" then some "text/csv"
  else if ext = "mp4" then some "video/mp4"
  else if ext = "mp3" then some "audio/mpeg"
  else if ext = "wav" then some "audio/wav"
  else none

def mimeFromFilename (name : String) : Option String :=
  ((extension (utf8 name.toList)).bind ofUtf8).bind fun ext => mimeOfExtension (String.ofList (ext.map Char.toLower))

def Item.withName (item : Item) (name : String) : Item :=
  { item with name := (Basename.sanitizeBasename name).getD "" }

section Files
variable [Sha256] (fs : UserFiles)

def readFileItem (path : PathBytes) : Option Item :=
  if ¬ fs.isFile path ∨ maxClip < fs.size path then none
  else
    (fs.read path).bind fun data =>
      if maxClip < data.length then none
      else
        ((fileName path).bind ofUtf8).bind fun base =>
          (Basename.sanitizeBasename (String.ofList base)).map fun name =>
            (Item.new ((mimeFromFilename name).getD (detectMime data)) data).withName name

def itemFromFileText (text : Bytes) : Option Item :=
  (ofUtf8 text).bind fun s => (FileUri.firstExistingFile fs.toFileTree s).bind (readFileItem fs)

/-! ## Getters -/

/-- `run_out` of a program with its arguments, when it succeeds. -/
abbrev RunOut := String → List String → Option Bytes

/-- Text that a getter has found. -/
def textItem (b : Bytes) : Option Item :=
  if b = [] then none else some ((itemFromFileText fs b).getD (Item.new "text/plain" b))

/-- `str::contains` -/
def listed (mime : String) (list : List Char) : Bool := decide (mime.toList <:+: list)

/-- The types that a getter prefers to text. `types` is the list of what the clipboard offers. -/
def typedItem (types : Option Bytes) (paste : String → Option Bytes) : Option Item :=
  types.bind fun types =>
    let list := lossy types
    let typed (mime : String) : Option Item :=
      if listed mime list then (paste mime).bind fun b => if b = [] then none else some (Item.new mime b) else none
    (if listed "text/uri-list" list then (paste "text/uri-list").bind (itemFromFileText fs) else none) <|>
      typed "image/png" <|> typed "application/pdf" <|> typed "application/zip"

def waylandGet (run : RunOut) : Option Item :=
  typedItem fs (run "wl-paste" ["--list-types"]) (fun mime => run "wl-paste" ["--no-newline", "-t", mime]) <|>
    (run "wl-paste" ["--no-newline"]).bind (textItem fs)

def xclipGet (run : RunOut) : Option Item :=
  typedItem fs (run "xclip" ["-selection", "clipboard", "-o", "-t", "TARGETS"])
      (fun mime => run "xclip" ["-selection", "clipboard", "-o", "-t", mime]) <|>
    (run "xclip" ["-selection", "clipboard", "-o"]).bind (textItem fs)

def xselGet (run : RunOut) : Option Item := (run "xsel" ["--clipboard", "--output"]).bind (textItem fs)

end Files

/-! ## Setters -/

/-- `run_in` of a program with its arguments and its standard input. -/
abbrev RunIn (ω : Type) := String → List String → Bytes → ω → Except BackendError Unit × ω

section Setters
variable (fs : FileTree) {ω : Type} (run : RunIn ω)

/-- What a setter puts on the clipboard, and under which type: files as a list of URIs, other data as they are. -/
def offered (item : Item) : Option String × Bytes :=
  if item.name ≠ "" ∧ fs.isFile (utf8 item.path.toList) then
    (some "text/uri-list", utf8 (FileUri.fileUri fs (utf8 item.path.toList)))
  else if item.mime ≠ "" ∧ startsWith item.mime "text/plain" = false then (some item.mime, item.data)
  else (none, item.data)

def typeArgs : Option String → List String
  | some mime => ["-t", mime]
  | none => []

def waylandSet (item : Item) : ω → Except BackendError Unit × ω :=
  run "wl-copy" (typeArgs (offered fs item).1) (offered fs item).2

def xclipSet (item : Item) : ω → Except BackendError Unit × ω :=
  run "xclip" (["-selection", "clipboard"] ++ typeArgs (offered fs item).1) (offered fs item).2

def xselSet (item : Item) : ω → Except BackendError Unit × ω := run "xsel" ["--clipboard", "--input"] item.data

end Setters

/-! ## Desktops -/

/-- The programs of a desktop, whose clipboard is `ω`. -/
structure Desktop (ω : Type) where
  files : UserFiles
  runOut : ω → RunOut
  runIn : RunIn ω

namespace Desktop
variable [Sha256] {ω : Type} (d : Desktop ω)

def wayland : Os ω := ⟨fun s => .ok (waylandGet d.files (d.runOut s)), waylandSet d.files.toFileTree d.runIn⟩
def xclip : Os ω := ⟨fun s => .ok (xclipGet d.files (d.runOut s)), xclipSet d.files.toFileTree d.runIn⟩
def xsel : Os ω := ⟨fun s => .ok (xselGet d.files (d.runOut s)), xselSet d.runIn⟩

end Desktop
end Zsync
