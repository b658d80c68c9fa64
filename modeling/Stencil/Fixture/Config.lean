import Stencil.Data.Toml
import Stencil.Text.Utf8

/-!
# Test files

A test file is a template behind a head in TOML, which stands between two lines of three
dashes. The head gives data and says what is expected. `Fixture.split` cuts the file,
`Config.ofDocument?` reads the head.
-/

namespace Stencil.Fixture

open Text

/-- A warning that is expected: a part of its wording and, where given, its block. -/
structure ExpectedWarning where
  contains : String
  block : Option String
  deriving Repr, BEq, DecidableEq

/-- The head of a test file: what the test is called, its data, and what is expected. -/
structure Config where
  description : Option String
  data : Fields
  output : Option String
  parseError : Option String
  renderError : Option String
  warnings : Option (List ExpectedWarning)

/-- What becomes of the items of an array behind those that are parts: TOML passes over them,
JSON may have none. -/
inductive Surplus where
  | ignored
  | refused
  deriving Repr, BEq, DecidableEq

/-- A value by the names of its parts: a table as it is, and an array whose items are the
first of the parts in order. -/
def parts? (surplus : Surplus) (names : List String) : Document → Option Document
  | .table entries => some (.table entries)
  | .array items =>
    if surplus = .ignored ∨ items.length ≤ names.length then some (.table (names.zip items))
    else none
  | _ => none

/-- A part that may be missing and otherwise is a text. -/
def optionalText? (d : Document) (name : String) : Option (Option String) :=
  match d.get? name with
  | none | some .null => some none
  | some (.text s) => some (some s)
  | some _ => none

/-- The expected warning that a value describes. -/
def ExpectedWarning.ofDocument? (surplus : Surplus) (d : Document) : Option ExpectedWarning := do
  let d ← parts? surplus ["contains", "block"] d
  match d.get? "contains" with
  | some (.text contains) => some ⟨contains, ← optionalText? d "block"⟩
  | _ => none

/-- The expected warnings that a value lists. -/
def ExpectedWarning.list? (surplus : Surplus) : Document → Option (List ExpectedWarning)
  | .array items => items.mapM (ofDocument? surplus)
  | _ => none

/-- The expected warnings of a head, if any are given. -/
def expectedWarnings? (surplus : Surplus) (d : Document) :
    Option (Option (List ExpectedWarning)) :=
  match d.get? "expect_warnings" with
  | none | some .null => some none
  | some list => (ExpectedWarning.list? surplus list).map some

/-- The parts of a head. -/
def configNames : List String :=
  ["description", "data", "expect_output", "expect_parse_error", "expect_error",
    "expect_warnings"]

/-- The head that a value describes. Parts of other names are ignored. -/
def Config.ofDocument? (surplus : Surplus) (d : Document) : Option Config := do
  let d ← parts? surplus configNames d
  let description ← optionalText? d "description"
  let data ← match d.get? "data" with
    | none => some []
    | some data => data.fields?
  let output ← optionalText? d "expect_output"
  let parseError ← optionalText? d "expect_parse_error"
  let renderError ← optionalText? d "expect_error"
  let warnings ← expectedWarnings? surplus d
  some ⟨description, data, output, parseError, renderError, warnings⟩

/-- Why a test file cannot be read. -/
inductive HeadError where
  | missingOpening
  | missingClosing
  | invalidToml
  deriving Repr, BEq, DecidableEq

/-- The wording of the error, up to where a library takes over. -/
def HeadError.message : HeadError → String
  | missingOpening => "missing opening --- frontmatter delimiter"
  | missingClosing => "missing closing --- frontmatter delimiter"
  | invalidToml => "TOML parse error"

/-- The wording of the error of reading some content, with what a library says of it. -/
def HeadError.report (toml : Toml.Library) (content : String) (e : HeadError) : String :=
  match e with
  | invalidToml => e.message ++ toml.headFault content
  | _ => e.message

/-- The text behind a line end in front of it, if there is one. -/
def afterLineEnd : List Char → List Char
  | '\n' :: cs => cs
  | '\r' :: '\n' :: cs => cs
  | cs => cs

/-- What opens the head, and closes it behind a line end. -/
def dashes : List Char := ['-', '-', '-']

/-- The head of a test file and the template behind it, as texts. Byte order marks in front of
the file are ignored. -/
def split (content : List Char) : Except HeadError (List Char × List Char) :=
  match after? dashes (content.dropWhile (· == '\uFEFF')) with
  | none => .error .missingOpening
  | some rest =>
    match cutAt? ('\n' :: dashes) (afterLineEnd rest) with
    | none => .error .missingClosing
    | some (head, rest) => .ok (dropEndWhile (· == '\r') head, afterLineEnd rest)

/-- The head that a text in TOML describes. -/
def Config.ofToml? (toml : Toml.Library) (head : String) : Option Config :=
  (toml.read? head).bind (Config.ofDocument? .ignored)

/-- The head of a test file and the template behind it, as a library reads TOML. -/
def readBy (toml : Toml.Library) (content : String) : Except HeadError (Config × String) := do
  let (head, source) ← split content.toList
  match Config.ofToml? toml (String.ofList head) with
  | some config => .ok (config, String.ofList source)
  | none => .error .invalidToml

/-- The head of a test file and the template behind it. -/
def read (content : String) : Except HeadError (Config × String) := readBy Toml.library content

end Stencil.Fixture
