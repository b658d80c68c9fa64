import Stencil.Data.Document

/-!
# TOML: tables and who may extend them

A table is defined once: by a header, by dotted keys, or, as long as only tables below it have
headers, by none. Each way of defining leaves it open to other additions. A value that is
written in one piece, an inline table or array among them, is never extended.
-/

namespace Stencil.Toml

/-- How a table came about: by its own header, on the way to a table below it that has a
header, or as the front part of a dotted key. -/
inductive Origin where
  | header
  | passage
  | dotted
  deriving Repr, BEq, DecidableEq

/-- What a name stands for while a document is read. -/
inductive Node where
  | value (d : Document)
  | table (origin : Origin) (entries : List (String × Node))
  /-- An array of tables, each begun by a header. -/
  | series (elements : List (List (String × Node)))

/-- The entries of a table that is being read. -/
abbrev Branch := List (String × Node)

namespace Branch

/-- Gives a name, declared or new, a node. -/
def put (name : String) (node : Node) : Branch → Branch
  | [] => [(name, node)]
  | (n, old) :: rest => if n = name then (n, node) :: rest else (n, old) :: put name node rest

/-- Changes the last element of a list of tables. -/
def onLast (f : Branch → Option Branch) : List Branch → Option (List Branch)
  | [] => none
  | [b] => (f b).map ([·])
  | b :: bs => (onLast f bs).map (b :: ·)

/-- Changes the table that a path leads to, making tables on the way where there are none. A
header may lead through tables of any kind, and through the last table of a series; a dotted
key may not lead through a table that has a header. -/
def alter (dotted : Bool) (f : Origin → Branch → Option Branch) :
    (path : List String) → Origin → Branch → Option Branch
  | [], origin, b => f origin b
  | name :: path, _, b =>
    match b.lookup name with
    | none =>
      let origin := if dotted then .dotted else .passage
      (alter dotted f path origin []).map fun sub => b.put name (.table origin sub)
    | some (.value _) => none
    | some (.series elements) =>
      (onLast (alter dotted f path .header) elements).map fun es => b.put name (.series es)
    | some (.table origin sub) =>
      if dotted && origin == .header then none
      else (alter dotted f path origin sub).map fun sub => b.put name (.table origin sub)

/-- Adds a value under a key, whose front parts are tables made by dotted keys only. -/
def assign (key : List String) (value : Document) (origin : Origin) (b : Branch) :
    Option Branch :=
  alter true (fun origin b => do
    let name ← key.getLast?
    if (origin == .dotted) == (key.length == 1) then none
    else if (b.lookup name).isSome then none
    else some (b.put name (.value value))) key.dropLast origin b

/-- Begins the table of a header. A table that only led to others may still get its header. -/
def openTable (path : List String) (root : Branch) : Option Branch :=
  alter false (fun _ b => do
    let name ← path.getLast?
    match b.lookup name with
    | none => some (b.put name (.table .header []))
    | some (.table .passage sub) => some (b.put name (.table .header sub))
    | some _ => none) path.dropLast .header root

/-- Begins one more table of a series. -/
def openElement (path : List String) (root : Branch) : Option Branch :=
  alter false (fun _ b => do
    let name ← path.getLast?
    match b.lookup name with
    | none => some (b.put name (.series [[]]))
    | some (.series elements) => some (b.put name (.series (elements ++ [[]])))
    | some _ => none) path.dropLast .header root

end Branch

namespace Node

mutual

/-- The value that a node has become. -/
def document : Node → Document
  | value d => d
  | table _ entries => .table (documents entries)
  | series elements => .array (tables elements)

/-- The values of a table. -/
def documents : List (String × Node) → List (String × Document)
  | [] => []
  | (name, node) :: rest => (name, node.document) :: documents rest

/-- The values of the tables of a series. -/
def tables : List (List (String × Node)) → List Document
  | [] => []
  | entries :: rest => .table (documents entries) :: tables rest

end

end Node

end Stencil.Toml
