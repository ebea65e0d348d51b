import Zsync.Model.Paste
import Zsync.Storage.Basenames

/-! # What `paste` leaves behind

`write_paste` prints a clip, prints where it lies, or writes it as a file into the current directory, under the name
that came with it.

* `shouldWriteFile`, `writeClipFile` : of `clipboard/mod.rs`, the file over a `Disk`.
* `writePaste` : what is printed on standard output, or the error.
* `paste` : the command, where the response comes from the daemon or from the clipboard itself.
-/

namespace Zsync
set_option autoImplicit false
set_option maxHeartbeats 250000
open Protocol Foundations.Files

def isImageMime (mime : String) : Bool := startsWith mime "image/"

def shouldWriteFile (name mime : String) (data : Bytes) : Bool :=
  if name ≠ "" then true
  else if isImageMime mime then true
  else if startsWith mime "text/" || mime = "" then
    let sniffed := detectMime data
    isImageMime sniffed || (!startsWith sniffed "text/" && data ≠ [])
  else true

def clipFilename (name mime : String) (data : Bytes) : String :=
  let mime := if mime = "" then detectMime data else mime
  (Basename.sanitizeBasename name).getD ("zsync-clip" ++ extForMime mime)

section Output
variable (io : IoError → String)

/-- `io` is how the operating system describes an error. -/
def writeClipFile (dir : Path) (name mime : String) (data : Bytes) (d : Disk) : Except String Path × Disk :=
  let dest := dir.join (clipFilename name mime data)
  match d.write dest data with
  | (.error e, d) => (.error ("write " ++ dest.toText ++ ": " ++ io e), d)
  | (.ok (), d) =>
    match (d.canonicalize dest).1 with
    | .ok abs => (.ok abs, d)
    | .error _ => (.ok dest, d)

/-- `println!` -/
def printLine (line : String) : Bytes := (line ++ "\n").toUTF8.toList

/-- The bytes of a file clip. An answer without them names a file that has them. -/
def fileClipData (resp : Ipc.Response) (d : Disk) : Except String Bytes :=
  if resp.body ≠ [] then .ok resp.body
  else
    match resp.path with
    | some p => (d.read (.ofText p)).1.mapError fun e => "read " ++ p ++ ": " ++ io e
    | none => .error "file clip has no data"

def isFileClip (resp : Ipc.Response) : Bool :=
  let mime := resp.mime.getD ""
  let name := resp.name.getD ""
  let sniffed := if resp.body = [] then "" else detectMime resp.body
  shouldWriteFile name mime resp.body || shouldWriteFile name sniffed resp.body

def writePaste (cwd : Except IoError Path) (wantPath wantContent : Bool) (resp : Ipc.Response) (d : Disk) :
    Except String Bytes × Disk :=
  if isFileClip resp && !wantContent then
    match fileClipData io resp d with
    | .error e => (.error e, d)
    | .ok data =>
      match cwd with
      | .error e => (.error ("current directory: " ++ io e), d)
      | .ok cwd =>
        match writeClipFile io cwd (resp.name.getD "") (resp.mime.getD "") data d with
        | (.error e, d) => (.error e, d)
        | (.ok dest, d) => (.ok (printLine dest.toText), d)
  else if wantPath || (resp.headless.getD false && !wantContent) then
    match resp.path with
    | some path => (.ok (printLine path), d)
    | none => (.error "no on-disk clip path", d)
  else (.ok resp.body, d)

/-- `fetch` is `pasteViaDaemon` or `pasteDirect`. -/
def paste (fetch : Bool → Bool → Except String Ipc.Response) (cwd : Except IoError Path)
    (wantPath wantContent : Bool) (d : Disk) : Except String Bytes × Disk :=
  match fetch wantPath wantContent with
  | .error e => (.error e, d)
  | .ok resp => writePaste io cwd wantPath wantContent resp d

end Output
end Zsync
