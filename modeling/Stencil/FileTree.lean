import Stencil.File

/-!
# File trees

What a machine shows of a folder and of everything below it. Names are bytes and need not be text.
A folder may keep its entries from being listed or from being looked at, and a file may keep its
bytes. `FileSystem.look` is the tree at a path among some files, where nothing is kept back.
-/

namespace Stencil

open Text

/-- The name of an entry of a folder. -/
abbrev FileName := List UInt8

/-- The bytes of a file, or why they cannot be had. -/
abbrev Contents := Except FileFault (List UInt8)

/-- What a folder lets be done: whether its entries are listed, and whether they are looked at. -/
structure Access where
  listed : Bool
  entered : Bool
  deriving Repr, BEq, DecidableEq

/-- A file, or a folder with its entries in the order in which they are listed. -/
inductive FileTree where
  | file (contents : Contents)
  | folder (access : Access) (entries : List (FileName × FileTree))

namespace FileTree

/-- The byte between the names of a path. -/
def separator : UInt8 := 47

/-- The path of an entry of the folder at a path. -/
def joinPath (path : List UInt8) (name : FileName) : List UInt8 :=
  if path.getLast? = some separator then path ++ name else path ++ separator :: name

/-- Why the entry at a path is not looked at, if it is not: its path is too long, or the folder it
is in does not let it. -/
def barrier? (entered : Bool) (path : List UInt8) : Option FileFault :=
  if FileSystem.pathLimit < path.length then some .nameTooLong
  else if entered then none
  else some .denied

end FileTree

namespace FileSystem

/-- The places that are known of: those of files, the further folders, and the home. -/
def places (fs : FileSystem) : List (List String) :=
  fs.files.map (·.1) ++ fs.folders ++ [fs.home]

/-- The names of what is in the folder at some names. -/
def namesIn (fs : FileSystem) (names : List String) : List String :=
  (fs.places.filterMap fun place =>
    if leadsTo names place then (place.drop names.length).head? else none).eraseDups

/-- The most names on the way to a place. -/
def depth (fs : FileSystem) : Nat := (fs.places.map (·.length)).foldl max 0

/-- What stands at some names, `levels` deep. -/
def tree (fs : FileSystem) (levels : Nat) (names : List String) : FileTree :=
  match fs.node names with
  | .file bs => .file (.ok bs)
  | _ =>
    match levels with
    | 0 => .folder ⟨true, true⟩ []
    | levels + 1 =>
      .folder ⟨true, true⟩ ((fs.namesIn names).map fun name =>
        (bytes name, fs.tree levels (names ++ [name])))

/-- What a written path leads to, with everything below it. -/
def look (fs : FileSystem) (path : String) : Except FileFault FileTree := do
  let names ← fs.place path
  match fs.node names with
  | .nothing => .error .notFound
  | _ => .ok (fs.tree fs.depth names)

end FileSystem

end Stencil
