import Stencil.Block
import Stencil.Text.Quoted
import Stencil.Warning

/-!
# Notes

What the library and the program tell a log about their work: each note has a level, a wording
and named values. Notes are data. A program puts them where its messages go, and `Said.shown` is
what a log lets through; when, and in which layout, is up to the log.
-/

namespace Stencil

/-- How much a note matters. -/
inductive Level where
  | trace
  | debug
  | warn
  deriving Repr, BEq, DecidableEq

/-- The name of a level in a log. -/
def Level.text : Level → String
  | trace => "TRACE"
  | debug => "DEBUG"
  | warn => "WARN"

/-- Something worth a line in a log. Blocks are given by name, the root by none. -/
inductive Note where
  | readBlock (block : Option String) (children segments vars : Nat)
  | readTemplate (blocks file segments : Nat)
  | changedState (block : Option String) (before after : State)
  | restarted (state : State)
  | unknownVariable (block : Option String) (name : String)
  | misfit (warning : Warning) (given : String)
  | filled (warnings : Nat)
  | checking (description : Option String)
  deriving Repr, BEq, DecidableEq

namespace Note

/-- How a log names a block. -/
def label (block : Option String) : String := block.getD "<root>"

/-- The level of a note. -/
def level : Note → Level
  | readBlock .. | unknownVariable .. => .trace
  | readTemplate .. | changedState .. | restarted .. | filled .. | checking .. => .debug
  | misfit .. => .warn

/-- The wording of a note. -/
def message : Note → String
  | readBlock .. => "parsed block"
  | readTemplate .. => "parsed template"
  | changedState .. => "transition"
  | restarted .. => "restarting root block"
  | unknownVariable .. => "ignoring unknown variable"
  | misfit w _ => w.message
  | filled .. => "rendered template from data"
  | checking .. => "running test"

/-- The named values of a note. -/
def fields : Note → List (String × String)
  | readBlock block children segments vars =>
    [("block", label block), ("children", toString children), ("segments", toString segments),
      ("variables", toString vars)]
  | readTemplate blocks file segments =>
    [("blocks", toString blocks), ("file_id", toString file), ("segments", toString segments)]
  | changedState block before after =>
    [("block", label block), ("from", before.text), ("to", after.text)]
  | restarted state => [("state", state.text)]
  | unknownVariable block name => [("block", label block), ("variable", name)]
  | misfit _ given => [("value", given)]
  | filled warnings => [("warnings", toString warnings)]
  | checking none => [("description", "None")]
  | checking (some description) => [("description", "Some(" ++ Text.quoted description ++ ")")]

end Note

/-- What a program says where its messages go: text of its own, or a note for the log. -/
inductive Said where
  | text (s : String)
  | note (n : Note)
  deriving Repr, BEq, DecidableEq

namespace Said

/-- A line of text. -/
def line (s : String) : Said := .text (s ++ "\n")

/-- What is seen of it if the log lets some notes through. -/
def shown (passes : Note → Bool) (said : List Said) : List Said :=
  said.filter fun s => match s with | text _ => true | note n => passes n

/-- The text of it, which is all that is seen if the log is off. -/
def texts (said : List Said) : String :=
  String.join (said.map fun s => match s with | text s => s | note _ => "")

end Said

end Stencil
