import Stencil.Span

/-!
# What can be wrong with a template

A `Fault` is the cause, a `Defect` adds where in the source it stands, and a `ParseError`
adds in which file. `Fault.message` is the one place that words a fault, and
`ParseError.diagnostic` is the report a reader gets.
-/

namespace Stencil

/-- Why a template is refused. -/
inductive Fault where
  | emptyBlockName
  | emptyVariableName
  | missingAttribute
  | bothBlockAndVariable
  | missingPlaceholder
  | placeholdersNotFound (names : List String)
  | unmatchedClose
  | unclosedBlock (name : String)
  | duplicateBlock (name : String)
  | duplicateVariable (name : String)
  | repeatedAttribute (key : String)
  | invalidAttributes
  | unterminatedTag
  deriving Repr, BEq, DecidableEq

namespace Fault

/-- The wording of a fault. -/
def message : Fault → String
  | emptyBlockName => "empty blk attribute in rep tag"
  | emptyVariableName => "empty var attribute in rep tag"
  | missingAttribute => "missing blk or var attribute in rep tag"
  | bothBlockAndVariable => "found blk and var attributes in rep tag"
  | missingPlaceholder => "missing or empty place attribute in rep tag"
  | placeholdersNotFound names =>
    "one or more variables not found in block: " ++ ", ".intercalate names
  | unmatchedClose => "found rep tag closing a block not opened"
  | unclosedBlock name => "block has not been closed: " ++ name
  | duplicateBlock name => "repeated block name: " ++ name
  | duplicateVariable name => "repeated variable name: " ++ name
  | repeatedAttribute key => "repeated attribute in rep tag: " ++ key
  | invalidAttributes => "invalid attribute format in rep tag"
  | unterminatedTag => "end of comment not found"

/-- What the marked place is to the fault. -/
def label : Fault → String
  | unclosedBlock _ => "block opened here"
  | placeholdersNotFound _ => "declared here"
  | duplicateBlock _ | duplicateVariable _ => "declared again here"
  | _ => "in this tag"

/-- Advice on how to mend the fault. -/
def notes : Fault → List String
  | placeholdersNotFound _ =>
    ["a placeholder must appear in the block's own text after its declaration"]
  | invalidAttributes => ["attributes are written key=value, key='value' or key=\"value\""]
  | _ => []

end Fault

/-- A fault and the part of the source it lies in. -/
structure Defect where
  fault : Fault
  span : Span
  deriving Repr, BEq, DecidableEq

/-- A defect of one of several source files. -/
structure ParseError extends Defect where
  file : Nat
  deriving Repr, BEq, DecidableEq

/-- The error that a defect is in a given file. -/
def Defect.inFile (d : Defect) (file : Nat) : ParseError :=
  ⟨d, file⟩

/-- A report with one marked place. -/
structure Diagnostic where
  message : String
  file : Nat
  range : Span
  label : String
  notes : List String
  deriving Repr, BEq, DecidableEq

namespace ParseError

/-- The wording of the error. -/
def message (e : ParseError) : String := e.fault.message

/-- The report: the wording, the place with its label, and the advice. -/
def diagnostic (e : ParseError) : Diagnostic :=
  ⟨e.message, e.file, e.span, e.fault.label, e.fault.notes⟩

end ParseError

end Stencil
