import Zsync.Foundations.Quoting
import Zsync.Foundations.UnixPaths
import Zsync.Foundations.Utf8
import Zsync.Model.Clipboard

/-! # `clipboard/native.rs`: setting the clipboard of macOS

Files and pictures are handed to `osascript` as a program that names them, text goes to `pbcopy`. What the system
answers is a `DarwinSystem`; the calls that are made are recorded in their order.
-/

namespace Zsync
set_option autoImplicit false
set_option maxHeartbeats 250000
open Protocol Foundations.Json Foundations.UnixPaths

inductive DarwinCall
  | osascript (script : String)
  | write (path : PathBytes) (data : Bytes)
  | remove (path : PathBytes)
  | pbcopy (data : Bytes)
  deriving DecidableEq, Repr

structure DarwinSystem where
  isFile : PathBytes → Bool
  tempDir : PathBytes
  write : Except String Unit
  /-- Whether `osascript` succeeds, if it can be started. -/
  status : Except String Bool
  /-- `run_in`. -/
  pbcopy : Except String Unit

namespace Darwin

/-- `str::replace` of a character. -/
def replace (c : Char) (new s : String) : String :=
  String.ofList (Foundations.Quoting.replace c new.toList s.toList)

def applescriptPosix (path : PathBytes) : String :=
  replace '"' "\\\"" (replace '\\' "\\\\" (String.ofList (lossy path)))

/-! ## Scripts -/

def fileScript (path : PathBytes) : String :=
  "set the clipboard to (POSIX file \"" ++ applescriptPosix path ++ "\" as alias)"

def pngScript (path : PathBytes) : String :=
  "set the clipboard to (read (POSIX file \"" ++ applescriptPosix path ++ "\") as «class PNGf»)"

def jpegScript (path : PathBytes) : String :=
  "set the clipboard to (read (POSIX file \"" ++ applescriptPosix path ++ "\") as JPEG picture)"

/-! ## Setting -/

/-- `status()?`, and the error when `osascript` fails. -/
def exited (failure : String) : Except String Bool → Except String Unit
  | .error e => .error e
  | .ok success => if success then .ok () else .error failure

def darwinSetFile (sys : DarwinSystem) (path : PathBytes) : Except String Unit × List DarwinCall :=
  (exited "osascript failed to set file clipboard" sys.status, [.osascript (fileScript path)])

def darwinSet (sys : DarwinSystem) (item : Item) : Except String Unit × List DarwinCall :=
  if item.name ≠ "" ∧ sys.isFile (utf8 item.path.toList) then darwinSetFile sys (utf8 item.path.toList)
  else if startsWith item.mime "image/" then
    let ext := if item.mime = "image/jpeg" then "jpg" else "png"
    let path := join sys.tempDir (utf8 ("zsync-clip." ++ ext).toList)
    match sys.write with
    | .error e => (.error e, [.write path item.data])
    | .ok () =>
      let script := if item.mime = "image/png" ∨ ext = "png" then pngScript path else jpegScript path
      -- The file stays when `osascript` cannot be started.
      let removed : List DarwinCall := match sys.status with
        | .error _ => []
        | .ok _ => [.remove path]
      (exited "osascript failed to set image clipboard" sys.status,
        .write path item.data :: .osascript script :: removed)
  else (sys.pbcopy, [.pbcopy item.data])

end Darwin
end Zsync
