import Stencil.Command.Arguments
import Stencil.Data.Toml
import Stencil.ParseError

/-!
# What the program leaves to libraries

Reading the command line and TOML, and laying out what is wrong with arguments or with a template,
is the work of libraries. The program is written for any libraries that do it. `own` are those of
this project: they read what there is to read, and say of what is wrong only how it begins.
-/

namespace Stencil.Command

/-- The libraries of the program. -/
structure Libraries where
  /-- What the arguments ask for. -/
  request : List String → Verdict Request
  /-- What is said about arguments that are rejected. -/
  usage : List String → String
  /-- What is printed to arguments that ask for help. -/
  help : List String → List UInt8
  toml : Toml.Library
  /-- What is said about a source file that does not parse. -/
  excerpt : (file source : String) → ParseError → String

/-- The request that the arguments of the program make, with the command that they leave out. -/
def Libraries.parse (lib : Libraries) (args : List String) : Verdict Request :=
  lib.request (withCommand args)

/-- The line and the column of a byte of a text, both from one. Columns count characters. -/
def lineColumn (source : String) (offset : Nat) : Nat × Nat :=
  go offset 1 1 source.toList
where
  go (offset line column : Nat) : List Char → Nat × Nat
    | [] => (line, column)
    | c :: cs =>
      if offset = 0 then (line, column)
      else if c = '\n' then go (offset - c.utf8Size) (line + 1) 1 cs
      else go (offset - c.utf8Size) line (column + 1) cs

/-- The message of an error and its place, with which an excerpt begins. -/
def place (file source : String) (e : ParseError) : String :=
  let (line, column) := lineColumn source e.span.start
  s!"error: {e.message}\n┌─ {file}:{line}:{column}"

/-- The libraries of this project. -/
def own : Libraries := ⟨readTop .empty, fun _ => "", fun _ => [], Toml.library, place⟩

end Stencil.Command
