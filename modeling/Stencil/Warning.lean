/-!
# Data that does not fit

A field that fits neither a variable nor a nested block of the block it was meant for is
reported and otherwise passed over.
-/

namespace Stencil

/-- How a field fails to fit: nothing has its name, or what has it takes the other sort of
entry. -/
inductive Misfit where
  | unknownField
  | scalarForBlock
  | tableForVariable
  deriving Repr, BEq, DecidableEq

/-- A misfit, the field, and the path of the block it was meant for. -/
structure Warning where
  block : String
  field : String
  misfit : Misfit
  deriving Repr, BEq, DecidableEq

/-- The wording of a warning. -/
def Warning.message (w : Warning) : String :=
  match w.misfit with
  | .unknownField => s!"{w.block}: '{w.field}' is neither a variable nor a block"
  | .scalarForBlock => s!"{w.block}: '{w.field}' is a block but was given a value, skipping it"
  | .tableForVariable => s!"{w.block}: '{w.field}' is a variable but was given a table"

end Stencil
