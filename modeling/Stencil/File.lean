import Stencil.Template
import Stencil.Text.Utf8

/-!
# Files

Files hold bytes at paths, and a path names folders on the way to a file. `FileSystem.place`
says what a written path leads to; reading and creating files build on it. A template can be
loaded from the bytes of a file.

Everything in a `FileSystem` may be read and written, so nothing there is `denied`; that fault
arises in a `FileTree`, which says of each folder what it lets be done. There are no links, and
files are read and written as a whole.
-/

namespace Stencil

open Text

/-- Why a file cannot be used. -/
inductive FileFault where
  | notFound
  | isFolder
  | notFolder
  | nameTooLong
  | denied
  | notText
  deriving Repr, BEq, DecidableEq

/-- The wording of a fault. -/
def FileFault.message : FileFault → String
  | notFound => "No such file or directory (os error 2)"
  | isFolder => "Is a directory (os error 21)"
  | notFolder => "Not a directory (os error 20)"
  | nameTooLong => "File name too long (os error 36)"
  | denied => "Permission denied (os error 13)"
  | notText => "stream did not contain valid UTF-8"

/-- The text that bytes encode. -/
def decodeText (bs : List UInt8) : Except FileFault String :=
  match ofBytes? bs with
  | some s => .ok s
  | none => .error .notText

/-- Files by the names on the way to them from the top, further folders, and the folder that
relative paths start from. A folder with something in it need not be listed. -/
structure FileSystem where
  files : List (List String × List UInt8)
  folders : List (List String)
  home : List String
  deriving Repr, BEq

namespace FileSystem

/-- What stands at a place. -/
inductive Node where
  | file (bytes : List UInt8)
  | folder
  | nothing
  deriving Repr, BEq, DecidableEq

/-- Whether `front` is a proper beginning of `path`. -/
def leadsTo (front path : List String) : Bool :=
  front.isPrefixOf path && front.length < path.length

/-- What stands at the end of some names. -/
def node (fs : FileSystem) (names : List String) : Node :=
  match fs.files.lookup names with
  | some bs => .file bs
  | none =>
    if names.isEmpty || names.isPrefixOf fs.home ||
        fs.folders.any (names.isPrefixOf ·) || fs.files.any (leadsTo names ·.1) then
      .folder
    else .nothing

/-- The most bytes a name has. -/
def nameLimit : Nat := 255

/-- The most bytes a written path has. -/
def pathLimit : Nat := 4095

/-- Follows the parts of a written path from a place. Each part has to start at a folder. -/
def follow (fs : FileSystem) (names : List String) : List String → Except FileFault (List String)
  | [] => .ok names
  | part :: parts =>
    match fs.node names with
    | .file _ => .error .notFolder
    | .nothing => .error .notFound
    | .folder =>
      if part = "" ∨ part = "." then fs.follow names parts
      else if part = ".." then fs.follow names.dropLast parts
      else if nameLimit < byteCount part.toList then .error .nameTooLong
      else fs.follow (names ++ [part]) parts

/-- The parts of a written path. -/
def parts (path : String) : List String := (path.toList.splitOn '/').map String.ofList

/-- The place from which a written path is followed, and its parts. -/
def route (fs : FileSystem) (path : String) : Except FileFault (List String × List String) :=
  if pathLimit < byteCount path.toList then .error .nameTooLong
  else
    match parts path with
    | [""] => .error .notFound
    | "" :: rest => .ok ([], rest)
    | all => .ok (fs.home, all)

/-- The names from the top that a written path stands for. -/
def place (fs : FileSystem) (path : String) : Except FileFault (List String) := do
  let (start, all) ← fs.route path
  fs.follow start all

/-- The bytes of a file. -/
def read (fs : FileSystem) (path : String) : Except FileFault (List UInt8) := do
  match fs.node (← fs.place path) with
  | .file bs => .ok bs
  | .folder => .error .isFolder
  | .nothing => .error .notFound

/-- The text of a file. -/
def readText (fs : FileSystem) (path : String) : Except FileFault String := do
  decodeText (← fs.read path)

/-- Where a file can be created or replaced. A path that ends in a slash names a folder, and
what stands there is not looked at. -/
def target (fs : FileSystem) (path : String) : Except FileFault (List String) := do
  let (start, all) ← fs.route path
  if all.getLast? = some "" then
    let _ ← fs.follow start ((dropEndWhile (· == "") all).dropLast ++ ["."])
    .error .isFolder
  else
    let names ← fs.follow start all
    match fs.node names with
    | .folder => .error .isFolder
    | _ => .ok names

/-- Gives the file at a place these bytes. -/
def write (fs : FileSystem) (names : List String) (bs : List UInt8) : FileSystem :=
  { fs with files := fs.files.filter (·.1 != names) ++ [(names, bs)] }

end FileSystem

/-- Why a template cannot be loaded. -/
inductive LoadError where
  | io (fault : FileFault)
  | parse (e : ParseError)
  deriving Repr, BEq, DecidableEq

/-- The wording of the error. -/
def LoadError.message : LoadError → String
  | io fault => "cannot read template: " ++ fault.message
  | parse e => e.message

/-- The root block of a template in a file. -/
def Template.load (contents : Except FileFault (List UInt8)) : Except LoadError Block :=
  match contents >>= decodeText with
  | .error fault => .error (.io fault)
  | .ok source => (Template.parse source 0).mapError .parse

end Stencil
