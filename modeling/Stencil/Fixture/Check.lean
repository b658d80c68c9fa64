import Stencil.Fixture.Config
import Stencil.Fill
import Stencil.Template
import Stencil.Text.Blank

/-!
# Checking a test

A test reads its template and fills it with its data. It passes if everything its head expects
is so; otherwise the first thing that is not is the reason why it fails.
-/

namespace Stencil.Fixture

open Text

/-- Why a test fails. -/
inductive Failure where
  | otherParseError (expected actual : String)
  | noParseError
  | parseError (message : String)
  | otherRenderError (expected actual : String)
  | noRenderError (expected : String)
  | renderError (message : String)
  | output (expected actual : String)
  | warningCount (expected : Nat) (actual : List Warning)
  | warningText (index : Nat) (expected : String) (actual : Warning)
  | warningBlock (index : Nat) (expected : String) (actual : Warning)
  deriving Repr, BEq, DecidableEq

/-- The wording of the reason. -/
def Failure.message : Failure → String
  | otherParseError expected actual =>
    s!"expected parse error containing \"{expected}\", got: {actual}"
  | noParseError => "expected parse error, but parsing succeeded"
  | parseError message => "unexpected parse error: " ++ message
  | otherRenderError expected actual =>
    s!"expected error containing \"{expected}\", got: {actual}"
  | noRenderError expected =>
    s!"expected error containing \"{expected}\", but rendering succeeded"
  | renderError message => "unexpected render error: " ++ message
  | output expected actual =>
    s!"output mismatch\n  expected: {expected}\n  actual:   {actual}"
  | warningCount expected actual =>
    let given :=
      if actual.isEmpty then "    (none)"
      else "\n".intercalate (actual.map fun w => "  - " ++ w.message)
    s!"expected {expected} warning(s), got {actual.length}\n  actual warnings:\n{given}"
  | warningText index expected actual =>
    s!"warning[{index}]: expected message containing \"{expected}\", got: {actual.message}"
  | warningBlock index expected actual =>
    s!"warning[{index}]: expected for block {expected}, but it is for {actual.block}"

/-- Compares one warning with the one expected in its place. -/
def checkWarning (index : Nat) (actual : Warning) (expected : ExpectedWarning) :
    Except Failure Unit :=
  if !occursIn expected.contains actual.message then
    .error (.warningText index expected.contains actual)
  else
    match expected.block with
    | none => .ok ()
    | some block =>
      if block = actual.block then .ok () else .error (.warningBlock index block actual)

/-- Compares warnings in order, counting from `index`, as long as there are both. -/
def checkInOrder (index : Nat) : List Warning → List ExpectedWarning → Except Failure Unit
  | a :: as, e :: es => do
    checkWarning index a e
    checkInOrder (index + 1) as es
  | _, _ => .ok ()

/-- Compares the warnings with those expected: their number, then one by one. -/
def checkWarnings (actual : List Warning) (expected : List ExpectedWarning) :
    Except Failure Unit :=
  if actual.length ≠ expected.length then .error (.warningCount expected.length actual)
  else checkInOrder 0 actual expected

/-- Compares what a test wrote with what is expected, without white space at either end. -/
def checkOutput (actual : List UInt8) (expected : String) : Except Failure Unit :=
  let actual := trim ((ofBytes? actual).getD "")
  if actual = trim expected then .ok () else .error (.output (trim expected) actual)

/-- Fills a template that could be read and compares the outcome with what is expected. -/
def checkFilled (config : Config) (root : Block) : Except Failure Unit :=
  let filled := (Page.ofTemplate root).fill config.data Buffer.empty
  match config.renderError, filled.result with
  | some expected, .error e =>
    if occursIn expected e.message then .ok () else .error (.otherRenderError expected e.message)
  | some expected, .ok _ => .error (.noRenderError expected)
  | none, .error e => .error (.renderError e.message)
  | none, .ok warnings => do
    if let some expected := config.output then
      checkOutput ((filled.page.sink.map (·.taken.toList)).getD []) expected
    if let some expected := config.warnings then
      checkWarnings warnings expected

/-- Checks a test: its template is read, then filled. -/
def check (config : Config) (source : String) : Except Failure Unit :=
  match config.parseError, Template.parse source 0 with
  | some expected, .error e =>
    if occursIn expected e.message then .ok () else .error (.otherParseError expected e.message)
  | some _, .ok _ => .error .noParseError
  | none, .error e => .error (.parseError e.message)
  | none, .ok root => checkFilled config root

/-- The notes that checking a test makes: that it is checked, those of reading its template, and
those of filling it, if it comes to that. -/
def checkNotes (config : Config) (source : String) : List Note :=
  let reading := Template.read source 0
  let filling := match config.parseError, reading.result with
    | none, .ok root => Event.notes ((Page.ofTemplate root).fill config.data Buffer.empty).events
    | _, _ => []
  .checking config.description :: reading.notes ++ filling

end Stencil.Fixture
