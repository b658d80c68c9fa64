import Stencil.Fixture.Check
import Stencil.Fixture.Discovery

/-!
# Running tests

`runFile` checks one test file, `runAll` those of the categories that are asked for, and `Report`
is what is said about a run: its lines, with the notes of each test in front of the line about it.
-/

namespace Stencil.Fixture

open Text

/-- A test that was run: its file, what it is called, why it failed, if it did, and the notes that
were made. -/
structure Result where
  file : TestFile
  label : String
  failure : Option String
  notes : List Note
  deriving Repr

/-- What a test is called that does not say so: the name of its file without the suffix. -/
def defaultLabel (name : FileName) : String :=
  let text := shown name
  if isTest name then String.ofList (text.toList.take (text.length - suffix.length)) else "?"

/-- Runs the test of a file, whose head is read by a library. -/
def runFile (toml : Toml.Library) (file : TestFile) : Result :=
  let unnamed (reason : String) : Result := ⟨file, defaultLabel file.name, some reason, []⟩
  match file.contents >>= decodeText with
  | .error fault => unnamed ("cannot read file: " ++ fault.message)
  | .ok content =>
    match readBy toml content with
    | .error e => unnamed ("frontmatter error: " ++ e.report toml content)
    | .ok (config, source) =>
      let label := config.description.getD (defaultLabel file.name)
      let failure := match check config source with
        | .ok _ => none
        | .error failure => some failure.message
      ⟨file, label, failure, checkNotes config source⟩

/-- What is said about a run, and whether all is well. -/
structure Report where
  said : List Said
  good : Bool
  deriving Repr

/-- Text in a colour of the terminal, unless it is to be plain. -/
def paint (plain : Bool) (code text : String) : String :=
  if plain then text else "\x1b[" ++ code ++ "m" ++ text ++ "\x1b[0m"

/-- The line about one test. -/
def resultLine (plain : Bool) (r : Result) : String :=
  let verdict := if r.failure.isNone then paint plain "32" "PASS" else paint plain "31" "FAIL"
  s!"  {verdict}  {r.label}"

/-- What is said about one test: its notes as they are made, then its line. -/
def resultSaid (plain : Bool) (r : Result) : List Said :=
  r.notes.map .note ++ [.line (resultLine plain r)]

/-- What is said about the tests of one category. -/
def categorySaid (plain : Bool) (category : String) (results : List Result) : List Said :=
  [.line "", .line (paint plain "1" (categoryLabel category))] ++
    results.flatMap (resultSaid plain)

/-- The lines about a failed test. -/
def failureLines (r : Result) : List String :=
  match r.failure with
  | none => []
  | some reason => "" :: s!"  --- {shown r.file.path} ---" :: (lines reason).map ("  " ++ ·)

/-- The last line about a run. -/
def summary (plain : Bool) (passed failed : Nat) : String :=
  if failed = 0 then
    "test result: " ++ paint plain "32" "ok" ++ s!". {passed} passed, 0 failed"
  else
    "test result: " ++ paint plain "31" "FAILED" ++
      s!". {passed} passed, {failed} failed (of {passed + failed})"

/-- The report on some results, behind what is said while they are found out. -/
def report (plain : Bool) (said : List Said) (results : List Result) : Report :=
  let failed := results.filter (·.failure.isSome)
  let failures := if failed.isEmpty then [] else "" :: "failures:" :: failed.flatMap failureLines
  let last := summary plain (results.length - failed.length) failed.length
  ⟨said ++ (failures ++ ["", last]).map .line, failed.isEmpty⟩

section

variable (toml : Toml.Library) (plain : Bool)

/-- Runs a single test file. -/
def runOne (file : TestFile) : Report :=
  let result := runFile toml file
  report plain (resultSaid plain result) [result]

/-- The line that no test files were found. -/
def nothingFound (path : String) : String := s!"no {suffix} files found in {path}"

/-- Runs the tests below a path whose categories are asked for. -/
def runAll (path : String) (all : Categories TestFile) (requests : List String) : Report :=
  if all.isEmpty then ⟨[.line (nothingFound path)], false⟩
  else
    let warnings := (all.unmatched requests).map (requestWarning · (all.map (·.1)))
    let selected := all.select requests
    if selected.isEmpty then
      ⟨(warnings ++ ["no matching categories found"]).map .line, false⟩
    else
      let results := selected.map fun (category, files) => (category, files.map (runFile toml))
      let said := results.flatMap fun (category, rs) => categorySaid plain category rs
      report plain (warnings.map .line ++ said) (results.flatMap (·.2))

end

/-- The lines that list the categories below a path. -/
def listing (path : String) (all : Categories TestFile) : List String :=
  if all.isEmpty then [nothingFound path]
  else
    "available categories:" ::
      all.map fun (category, files) => s!"  {categoryLabel category} ({files.length} tests)"

end Stencil.Fixture
