import Stencil.Data.Toml.Number
import Stencil.Data.Toml.Tree
import Stencil.Text.Search

/-!
# Reading TOML

A text is read line by line as headers and assignments, which build a tree of tables. `fuel`
counts characters that may still be read and never runs out; `depth` counts the arrays and
inline tables that may still be opened.

What else the library does that reads TOML for a program is in `Library`. Programs are written for
any such library; `library` is the one with the reader of this module.
-/

namespace Stencil.Toml

mutual

/-- A value. -/
def value? : (fuel depth : Nat) → Reader Document
  | 0, _, _ => none
  | _ + 1, _, [] => none
  | fuel + 1, depth, c :: cs =>
    if c = '"' ∨ c = '\'' then
      (string? (c :: cs)).map fun (s, rest) => (.text s, rest)
    else if c = '[' then
      match depth with
      | 0 => none
      | depth + 1 => (items? fuel depth cs).map fun (ds, rest) => (.array ds, rest)
    else if c = '{' then
      match depth with
      | 0 => none
      | depth + 1 =>
        match skipSpace cs with
        | '}' :: rest => some (.table [], rest)
        | rest =>
          (pairs? fuel depth [] rest).map fun (b, rest) => (.table (Node.documents b), rest)
    else if c = 't' then
      (Text.after? "true".toList (c :: cs)).map fun rest => (.bool true, rest)
    else if c = 'f' then
      (Text.after? "false".toList (c :: cs)).map fun rest => (.bool false, rest)
    else number? (c :: cs)

/-- The items of an array up to its end; a comma may follow the last one. -/
def items? : (fuel depth : Nat) → Reader (List Document)
  | 0, _, _ => none
  | fuel + 1, depth, cs =>
    match skipLines cs.length cs with
    | ']' :: rest => some ([], rest)
    | cs =>
      match value? fuel depth cs with
      | none => none
      | some (d, rest) =>
        match skipLines rest.length rest with
        | ']' :: rest => some ([d], rest)
        | ',' :: rest => (items? fuel depth rest).map fun (ds, rest) => (d :: ds, rest)
        | _ => none

/-- The assignments of an inline table up to its end, on top of those made so far. No comma
follows the last one. -/
def pairs? : (fuel depth : Nat) → Branch → Reader Branch
  | 0, _, _, _ => none
  | fuel + 1, depth, b, cs =>
    match key? depthLimit cs with
    | some (key, '=' :: rest) =>
      match value? fuel depth (skipSpace rest) with
      | none => none
      | some (d, rest) =>
        match b.assign key d .header, skipSpace rest with
        | some b, '}' :: rest => some (b, rest)
        | some b, ',' :: rest => pairs? fuel depth b rest
        | _, _ => none
    | _ => none

end

/-- What a document has besides empty lines. -/
inductive Line where
  | header (path : List String)
  | element (path : List String)
  | assignment (key : List String) (value : Document)

/-- A line, and the text behind it. -/
def line? (fuel : Nat) : Reader Line
  | '[' :: '[' :: cs =>
    match key? depthLimit cs with
    | some (path, ']' :: ']' :: rest) => (restOfLine? rest).map fun rest => (.element path, rest)
    | _ => none
  | '[' :: cs =>
    match key? depthLimit cs with
    | some (path, ']' :: rest) => (restOfLine? rest).map fun rest => (.header path, rest)
    | _ => none
  | cs =>
    match key? depthLimit cs with
    | some (key, '=' :: rest) =>
      match value? fuel depthLimit (skipSpace rest) with
      | some (d, rest) => (restOfLine? rest).map fun rest => (.assignment key d, rest)
      | none => none
    | _ => none

/-- The lines of a text, of which at most `fuel` are read. -/
def lines? (size : Nat) : (fuel : Nat) → List Char → Option (List Line)
  | 0, cs => if cs.isEmpty then some [] else none
  | fuel + 1, cs =>
    match skipSpace cs with
    | [] => some []
    | '#' :: rest =>
      match restOfLine? ('#' :: rest) with
      | some rest => lines? size fuel rest
      | none => none
    | cs =>
      match lineEnd? cs with
      | some rest => lines? size fuel rest
      | none =>
        match line? size cs with
        | some (l, rest) => (lines? size fuel rest).map (l :: ·)
        | none => none

/-- A document that has been read up to some line: its tables, and the path of the one that
assignments go to. -/
structure Reading where
  root : Branch
  path : List String

/-- Reads one line. -/
def Reading.step (r : Reading) : Line → Option Reading
  | .header path => (r.root.openTable path).map (⟨·, path⟩)
  | .element path => (r.root.openElement path).map (⟨·, path⟩)
  | .assignment key d =>
    (Branch.alter false (Branch.assign key d) r.path .header r.root).map (⟨·, r.path⟩)

/-- The table that a whole TOML text writes. A byte order mark in front of it is ignored. -/
def read? (s : String) : Option Document := do
  let cs := match s.toList with
    | '\uFEFF' :: cs => cs
    | cs => cs
  let ls ← lines? (2 * cs.length + 2) (cs.length + 1) cs
  let r ← ls.foldlM Reading.step ⟨[], []⟩
  some (.table (Node.documents r.root))

/-- A library that reads TOML: what a text holds, and what it has to say about a text that holds no
data for a template, or a test file whose head is none. -/
structure Library where
  read? : String → Option Document
  dataFault : String → String
  headFault : String → String

/-- The library with the reader above. It says nothing about what it does not read. -/
def library : Library := ⟨read?, fun _ => "", fun _ => ""⟩

end Stencil.Toml
