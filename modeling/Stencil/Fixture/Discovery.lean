import Stencil.FileTree
import Stencil.Fixture.Categories
import Stencil.Text.Lossy

/-!
# Finding tests

`testsAt` goes through the entries of a folder and of every folder below it and takes what is
called like a test. It keeps no account of what it cannot see: a folder that is not listed has
nothing for it, and what cannot be looked at counts as a file, which cannot be read then.
-/

namespace Stencil.Fixture

open Text FileTree

/-- How the name of a test file ends. -/
def suffix : String := ".test.html"

/-- Whether a file is a test file, by its name. A name that is no text is not that of a test. -/
def isTest (name : FileName) : Bool :=
  match ofBytes? name with
  | some s => suffix.toList.isSuffixOf s.toList
  | none => false

/-- What is found: files by the names on the way to them. -/
abbrev Finds := List (List FileName × Contents)

/-- What stands behind some names as a test, if it is called like one. -/
def asTest (names : List FileName) (contents : Contents) : Finds :=
  if isTest (names.getLast?.getD []) then [(names, contents)] else []

mutual

/-- The tests at any depth below what stands at `path`, behind `names`, or itself. What cannot be
looked at, for which a `fault` is the reason, is taken for a file. -/
def testsAt (path : List UInt8) (names : List FileName) (fault : Option FileFault) :
    FileTree → Finds
  | .file contents =>
    match fault with
    | some fault => asTest names (.error fault)
    | none => asTest names contents
  | .folder access entries =>
    match fault with
    | some fault => asTest names (.error fault)
    | none => if access.listed then testsAmong access.entered path names entries else []

/-- The tests among some entries of the folder at `path`, behind `names`, and at any depth below
them. The folder lets its entries be looked at if it can be `entered`. -/
def testsAmong (entered : Bool) (path : List UInt8) (names : List FileName) :
    List (FileName × FileTree) → Finds
  | [] => []
  | (name, tree) :: rest =>
    let here := joinPath path name
    testsAt here (names ++ [name]) (barrier? entered here) tree ++
      testsAmong entered path names rest

end

/-- The category of a file by the names on the way to it. A backslash counts as a slash. -/
def categoryOf (names : List FileName) : String :=
  let folder := shown ([separator].intercalate names.dropLast)
  String.ofList (folder.toList.map fun c => if c = '\\' then '/' else c)

/-- Whether a path comes no later than another one, compared name by name. -/
def pathLe : List FileName → List FileName → Bool
  | [], _ => true
  | _ :: _, [] => false
  | a :: as, b :: bs => if a = b then pathLe as bs else decide (a < b)

/-- Tests in the ascending order of their paths. -/
def sorted (finds : Finds) : Finds := finds.mergeSort fun a b => pathLe a.1 b.1

/-- Tests by their categories, within each in the ascending order of their paths. -/
def byCategory (finds : Finds) : Categories (List FileName × Contents) :=
  (Categories.ofList (finds.map fun found => (categoryOf found.1, found))).map
    fun (category, files) => (category, sorted files)

/-- A test file: its path, its name, and its bytes. -/
structure TestFile where
  path : List UInt8
  name : FileName
  contents : Contents
  deriving Repr

/-- What is found below a path as a test file. -/
def TestFile.below (path : String) (found : List FileName × Contents) : TestFile :=
  ⟨found.1.foldl joinPath (bytes path), found.1.getLast?.getD [], found.2⟩

/-- The test files at any depth below what stands at a path, if anything does. -/
def discover (path : String) (top : Except FileFault FileTree) : Categories TestFile :=
  match top with
  | .error _ => []
  | .ok tree =>
    (byCategory (testsAt (bytes path) [] none tree)).map fun (category, files) =>
      (category, files.map (.below path))

end Stencil.Fixture
