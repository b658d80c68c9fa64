import Stencil.Command.Libraries
import Stencil.Fixture.Suite
import Stencil.Text.Quoted

/-!
# The command line

`runWith` is the whole program: from the arguments and the files to the exit code, what is printed,
what is said where messages go, and the files afterwards. It is written for any libraries, and for
whatever a machine shows at the path at which tests are looked for. `run` is the program with the
libraries of this project and nothing but the given files.

What is said has the notes for the log in it, where they are made. `Outcome.stderr` leaves them out,
as a log does that is off; `Request.logged` says which of them a log lets through.

Printing never fails here, nor does writing to a file that could be made.
-/

namespace Stencil.Command

open Text

/-- What a run of the program leaves. -/
structure Outcome where
  code : Nat
  stdout : List UInt8
  said : List Said
  files : FileSystem
  deriving Repr, BEq

namespace Outcome

/-- What is said if the log is off. -/
def stderr (o : Outcome) : String := Said.texts o.said

/-- A run that makes some notes first. -/
def behind (notes : List Note) (o : Outcome) : Outcome :=
  { o with said := notes.map .note ++ o.said }

end Outcome

/-- The notes that a log lets through if nothing is asked of it. -/
def isWarning (n : Note) : Bool := n.level == .warn

/-- Whether a log lets a note through: a verbose one all down to those for debugging, another one
what the surroundings ask for. -/
def Request.logged (asked : Note → Bool) (r : Request) (n : Note) : Bool :=
  if r.verbose then n.level != .trace else asked n

/-- Lines of text, each with its end. -/
def unlines (lines : List String) : String :=
  String.join (lines.map (· ++ "\n"))

/-- A run that fails with a message. -/
def fail (fs : FileSystem) (message : String) : Outcome :=
  ⟨1, [], [.line ("error: " ++ message)], fs⟩

/-- The error that a file cannot be read. -/
def cannotRead (path : String) (fault : FileFault) : String :=
  s!"cannot read '{path}': {fault.message}"

/-! ## Showing a template -/

mutual

/-- The lines of a block tree, `indent` levels deep. -/
def treeLines (indent : Nat) : Block → List String
  | ⟨name, vs, _, cs, _, _⟩ =>
    let pad := String.join (List.replicate indent "  ")
    let label := match name with
      | some name => "blk " ++ name
      | none => "(root)"
    (pad ++ label) ::
      (vs.entries.map fun v => s!"{pad}  var {v.name} = {quoted v.placeholder}") ++
      treeLinesAll (indent + 1) cs

def treeLinesAll (indent : Nat) : List Block → List String
  | [] => []
  | c :: cs => treeLines indent c ++ treeLinesAll indent cs

end

mutual

/-- The paths of a block nested below `front`, and of all blocks nested in it. -/
def blockPaths (front : String) : Block → List String
  | ⟨name, _, _, cs, _, _⟩ =>
    let path := front ++ name.getD ""
    path :: blockPathsAll (path ++ ".") cs

def blockPathsAll (front : String) : List Block → List String
  | [] => []
  | c :: cs => blockPaths front c ++ blockPathsAll front cs

end

/-! ## Rendering -/

/-- Why there is no data to render with. About a file that is read but not understood, `fault` is
what a library says. -/
inductive DataError where
  | unreadable (path : String) (fault : FileFault)
  | invalid (path fault : String)
  | malformed (assignment : String)
  deriving Repr, BEq, DecidableEq

/-- What is said about the error. A library says the end of the line, too. -/
def DataError.report : DataError → String
  | unreadable path fault => "error: " ++ cannotRead path fault ++ "\n"
  | invalid path fault => s!"error: invalid data in '{path}'" ++ fault
  | malformed assignment => s!"error: --set expects NAME=VALUE, got '{assignment}'\n"

/-- The fields of a data file, which a library reads. -/
def loadData (toml : Toml.Library) (fs : FileSystem) (path : String) : Except DataError Fields :=
  match fs.readText path with
  | .error fault => .error (.unreadable path fault)
  | .ok text =>
    match (toml.read? text).bind Document.fields? with
    | some fields => .ok fields
    | none => .error (.invalid path (toml.dataFault text))

/-- The name and the value of an assignment, which has an equals sign between them. -/
def assignment? (s : String) : Option (String × String) :=
  (cutAt? ['='] s.toList).map fun (name, value) => (String.ofList name, String.ofList value)

/-- Fields with further assignments, of which the last for a name counts. -/
def assignAll (fields : Fields) : List String → Except DataError Fields
  | [] => .ok fields
  | s :: rest =>
    match assignment? s with
    | none => .error (.malformed s)
    | some (name, value) => assignAll (fields.insert name (.text value)) rest

/-- The data that `render` is given. -/
def renderData (toml : Toml.Library) (fs : FileSystem) (r : RenderRequest) :
    Except DataError Fields := do
  let fields ← match r.data with
    | none => .ok []
    | some path => loadData toml fs path
  assignAll fields r.assignments

/-- Where the bytes of a rendering go. -/
inductive Destination where
  | nowhere
  | stdout
  | file (names : List String)

/-- What a request wants to be written to, and the files once it is there: a file that is written
to has nothing in it at first. -/
def openOutput (fs : FileSystem) (r : RenderRequest) : Except String (Destination × FileSystem) :=
  if r.quiet then .ok (.nowhere, fs)
  else
    match r.output with
    | none => .ok (.stdout, fs)
    | some path =>
      match fs.target path with
      | .error fault => .error s!"cannot create '{path}': {fault.message}"
      | .ok names => .ok (.file names, fs.write names [])

/-- A run that succeeds, with what it has rendered. -/
def Destination.deliver (d : Destination) (fs : FileSystem) (rendered : List UInt8)
    (said : List Said) : Outcome :=
  match d with
  | nowhere => ⟨0, [], said, fs⟩
  | stdout => ⟨0, rendered, said, fs⟩
  | file names => ⟨0, [], said, fs.write names rendered⟩

/-- The line about a warning. -/
def warningLine (w : Warning) : String := "warning: " ++ w.message

/-- Renders a template that could be read. -/
def renderTemplate (toml : Toml.Library) (fs : FileSystem) (r : RenderRequest) (root : Block) :
    Outcome :=
  match renderData toml fs r with
  | .error e => ⟨1, [], [.text e.report], fs⟩
  | .ok fields =>
    match openOutput fs r with
    | .error message => fail fs message
    | .ok (destination, opened) =>
      let filled := (Page.ofTemplate root).fill fields Buffer.empty
      let rendered := (filled.page.sink.map (·.taken.toList)).getD []
      let outcome : Outcome := match filled.result with
        | .error e => fail opened e.message
        | .ok warnings =>
          destination.deliver opened rendered (warnings.map fun w => .line (warningLine w))
      outcome.behind (Event.notes filled.events)

/-- Runs `render`. -/
def runRender (lib : Libraries) (fs : FileSystem) (r : RenderRequest) : Outcome :=
  match fs.readText r.file with
  | .error fault => fail fs (cannotRead r.file fault)
  | .ok source =>
    let reading := Template.read source 0
    let outcome : Outcome := match reading.result with
      | .error e => ⟨1, [], [.text (lib.excerpt r.file source e)], fs⟩
      | .ok root =>
        if r.check then ⟨0, [], [.line s!"ok: {r.file} parsed successfully"], fs⟩
        else if r.tree then ⟨0, bytes (unlines (treeLines 0 root)), [], fs⟩
        else if r.listBlocks then
          ⟨0, bytes (unlines (blockPathsAll "" root.children)), [], fs⟩
        else renderTemplate lib.toml fs r root
    outcome.behind reading.notes

/-! ## Testing -/

/-- The last name of a path. -/
def fileName (path : String) : FileName :=
  bytes (((FileSystem.parts path).getLast?).getD "")

/-- Runs `test`, for which a machine shows what it has at the path that is asked for. -/
def runTest (toml : Toml.Library) (look : String → Except FileFault FileTree) (fs : FileSystem)
    (r : TestRequest) : Outcome :=
  let finish (report : Fixture.Report) : Outcome :=
    ⟨if report.good then 0 else 1, [], report.said, fs⟩
  match look r.path with
  | .ok (.file contents) =>
    if r.list then ⟨0, [], [.line "(single file, no categories)"], fs⟩
    else finish (Fixture.runOne toml r.plain ⟨bytes r.path, fileName r.path, contents⟩)
  | top =>
    let all := Fixture.discover r.path top
    if r.list then ⟨0, [], (Fixture.listing r.path all).map .line, fs⟩
    else finish (Fixture.runAll toml r.plain r.path all r.categories)

/-! ## The program -/

/-- Runs the program. -/
def runWith (lib : Libraries) (look : String → Except FileFault FileTree) (fs : FileSystem)
    (args : List String) : Outcome :=
  match lib.parse args with
  | .rejected => ⟨2, [], [.text (lib.usage (withCommand args))], fs⟩
  | .help => ⟨0, lib.help (withCommand args), [], fs⟩
  | .version => ⟨0, bytes "rep 0.1.0\n", [], fs⟩
  | .read (.render r) => runRender lib fs r
  | .read (.test r) => runTest lib.toml look fs r

/-- Runs the program among some files. -/
def run (fs : FileSystem) (args : List String) : Outcome := runWith own fs.look fs args

end Stencil.Command
