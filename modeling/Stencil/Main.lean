import Stencil.Command

/-!
# The program

Takes up the files that a request names, runs it, and carries out what it comes to. The log has a
line for each note that it lets through, without a time.
-/

open Stencil Stencil.Command

/-- The names from the top that a written path stands for, seen from a folder. -/
def namesFrom (home : List String) (path : String) : List String :=
  let start := if path.startsWith "/" then [] else home
  (FileSystem.parts path).foldl (fun names part =>
    if part = "" ∨ part = "." then names
    else if part = ".." then names.dropLast
    else names ++ [part]) start

/-- Whether a path leads to a folder. -/
def isFolder (path : String) : IO Bool := (System.mkFilePath [path]).isDir

/-- The files and folders at some paths, with the folder in which a file may be created. -/
def snapshot (paths : List String) (created : Option String) : IO FileSystem := do
  let home := namesFrom [] (← IO.currentDir).toString
  let mut files : List (List String × List UInt8) := []
  let mut folders : List (List String) := []
  for path in paths do
    if ← isFolder path then
      folders := folders ++ [namesFrom home path]
    else if ← (System.mkFilePath [path]).pathExists then
      let bytes ← IO.FS.readBinFile (System.mkFilePath [path])
      files := files ++ [(namesFrom home path, bytes.data.toList)]
  if let some path := created then
    let folder := match "/".intercalate (FileSystem.parts path).dropLast with
      | "" => if path.startsWith "/" then "/" else "."
      | folder => folder
    for place in [folder, path] do
      if ← isFolder place then
        folders := folders ++ [namesFrom home place]
  return ⟨files, folders, home⟩

/-- The fault that an error of the system is. -/
def faultOf : IO.Error → FileFault
  | .permissionDenied .. => .denied
  | .inappropriateType .. => .isFolder
  | .invalidArgument .. => .nameTooLong
  | _ => .notFound

/-- What stands at a path, so many levels deep. -/
def treeAt : Nat → String → IO FileTree
  | 0, _ => return .folder ⟨false, false⟩ []
  | levels + 1, path => do
    if ← isFolder path then
      try
        let entries ← (System.mkFilePath [path]).readDir
        let below ← entries.toList.mapM fun e => do
          return (Text.bytes e.fileName, ← treeAt levels (path ++ "/" ++ e.fileName))
        return .folder ⟨true, true⟩ below
      catch _ => return .folder ⟨false, true⟩ []
    else
      try
        let bytes ← IO.FS.readBinFile (System.mkFilePath [path])
        return .file (.ok bytes.data.toList)
      catch e => return .file (.error (faultOf e))

/-- What stands at a path, if anything does. So many levels down a path is too long to be looked at. -/
def lookAt (path : String) : IO (Except FileFault FileTree) := do
  if ← (System.mkFilePath [path]).pathExists then
    return .ok (← treeAt FileSystem.pathLimit path)
  else return .error .notFound

/-- Which notes a log lets through by the wish of the surroundings. -/
def wished : Option String → Note → Bool
  | some "off" | some "error" => fun _ => false
  | some "debug" => (·.level != .trace)
  | some "trace" => fun _ => true
  | _ => isWarning

/-- What is put where messages go. -/
def written : Said → String
  | .text s => if s.isEmpty || s.endsWith "\n" then s else s ++ "\n"
  | .note n =>
    let values := n.fields.map fun (name, value) => s!" {name}={value}"
    s!"{n.level.text} {n.message}{String.join values}\n"

/-- Runs the program with its command line arguments. -/
def main (args : List String) : IO UInt32 := do
  let request := own.parse args
  let (paths, created) := match request with
    | .read (.render r) => (r.file :: r.data.toList, r.output)
    | _ => ([], none)
  let before ← snapshot paths created
  let top ← match request with
    | .read (.test r) => lookAt r.path
    | _ => pure (.error .notFound)
  let outcome := runWith own (fun _ => top) before args
  if outcome.files != before then
    if let some path := created then
      if let some bytes := outcome.files.files.lookup (namesFrom before.home path) then
        IO.FS.writeBinFile (System.mkFilePath [path]) ⟨bytes.toArray⟩
  (← IO.getStdout).write ⟨outcome.stdout.toArray⟩
  let asked := wished (← IO.getEnv "RUST_LOG")
  let logged := match request with
    | .read r => r.logged asked
    | _ => asked
  for said in Said.shown logged outcome.said do
    (← IO.getStderr).putStr (written said)
  return outcome.code.toUInt32
