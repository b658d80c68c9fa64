/-!
# Command line arguments

Arguments are read against the options that a command has. An option with a value takes it
from the same argument or from the next one, which then may not begin with a dash; short
options may share an argument; behind `--` everything is positional. An option may be given
once, unless it collects its values.
-/

namespace Stencil.Command

/-- What an option does with what is given to it. -/
inductive OptionKind where
  /-- It is on or off. -/
  | flag
  | value
  /-- It may be given again and collects its values. -/
  | values
  /-- It ends the reading and asks for help. -/
  | help
  /-- It ends the reading and asks for the version. -/
  | version
  deriving Repr, BEq, DecidableEq

/-- An option: its name, its letter where it has one, and its kind. -/
structure OptionSpec where
  name : String
  letter : Option Char
  kind : OptionKind
  deriving Repr, BEq, DecidableEq

/-- The arguments of one command: options with their values in the order they were given, and
the others. -/
structure Given where
  options : List (String × String)
  positional : List String
  deriving Repr, BEq, DecidableEq

/-- What reading arguments comes to. -/
inductive Verdict (α : Type) where
  | read (a : α)
  | help
  | version
  | rejected
  deriving Repr, BEq, DecidableEq

namespace Given

/-- No arguments. -/
def empty : Given := ⟨[], []⟩

/-- Whether an option was given. -/
def has (g : Given) (name : String) : Bool := g.options.any (·.1 == name)

/-- The value of an option that takes one. -/
def value? (g : Given) (name : String) : Option String := g.options.lookup name

/-- The values of an option that collects them. -/
def values (g : Given) (name : String) : List String :=
  (g.options.filter (·.1 == name)).map (·.2)

/-- Adds an option. -/
def add (g : Given) (spec : OptionSpec) (value : String) : Verdict Given :=
  if g.has spec.name && spec.kind != .values then .rejected
  else .read { g with options := g.options ++ [(spec.name, value)] }

end Given

/-- What is read of one argument: nothing more, or an option that waits for its value. -/
structure Progress where
  given : Given
  pending : Option OptionSpec

/-- Reads an option by its name, with the value behind its equals sign. -/
def readLong (specs : List OptionSpec) (g : Given) (name : String) (value : Option String) :
    Verdict Progress :=
  match specs.find? (·.name == name) with
  | none => .rejected
  | some spec =>
    match spec.kind, value with
    | .help, none => .help
    | .version, none => .version
    | .flag, none =>
      match g.add spec "" with
      | .read g => .read ⟨g, none⟩
      | _ => .rejected
    | .help, some _ | .version, some _ | .flag, some _ => .rejected
    | .value, some v | .values, some v =>
      match g.add spec v with
      | .read g => .read ⟨g, none⟩
      | _ => .rejected
    | .value, none | .values, none => .read ⟨g, some spec⟩

/-- Reads options by their letters. What follows the letter of an option with a value is the
value, less an equals sign in front. -/
def readShort (specs : List OptionSpec) (g : Given) : List Char → Verdict Progress
  | [] => .read ⟨g, none⟩
  | c :: cs =>
    match specs.find? (·.letter == some c) with
    | none => .rejected
    | some spec =>
      match spec.kind with
      | .help => .help
      | .version => .version
      | .flag =>
        match g.add spec "" with
        | .read g => readShort specs g cs
        | _ => .rejected
      | .value | .values =>
        match cs with
        | [] => .read ⟨g, some spec⟩
        | v =>
          let v := match v with
            | '=' :: rest => rest
            | v => v
          match g.add spec (String.ofList v) with
          | .read g => .read ⟨g, none⟩
          | _ => .rejected

/-- The sorts of argument: the mark behind which all are positional, an option by name with
the value behind its equals sign, options by their letters, and anything else. -/
inductive Argument where
  | escape
  | long (name : String) (value : Option String)
  | short (letters : List Char)
  | plain (s : String)
  deriving Repr, BEq, DecidableEq

/-- Tells the sort of an argument. -/
def Argument.ofString (s : String) : Argument :=
  match s.toList with
  | ['-', '-'] => .escape
  | '-' :: '-' :: cs =>
    match cs.dropWhile (· != '=') with
    | _ :: value => .long (String.ofList (cs.takeWhile (· != '='))) (some (String.ofList value))
    | [] => .long (String.ofList cs) none
  | '-' :: c :: cs => .short (c :: cs)
  | _ => .plain s

/-- Reads arguments up to the end; `pending` waits for its value, and behind the escape all
are positional. At most one positional argument is allowed, and it is needed. -/
def readAll (specs : List OptionSpec) (g : Given) (pending : Option OptionSpec) (escaped : Bool) :
    List String → Verdict Given
  | [] => if pending.isSome || g.positional.isEmpty then .rejected else .read g
  | s :: rest =>
    let positional : Verdict Given :=
      if g.positional.isEmpty then
        readAll specs { g with positional := [s] } none escaped rest
      else .rejected
    if escaped then positional
    else
      match Argument.ofString s, pending with
      | .plain _, some spec =>
        match g.add spec s with
        | .read g => readAll specs g none false rest
        | _ => .rejected
      | _, some _ => .rejected
      | .plain _, none => positional
      | .escape, none => readAll specs g none true rest
      | .long name value, none =>
        match readLong specs g name value with
        | .read p => readAll specs p.given p.pending false rest
        | .help => .help
        | .version => .version
        | .rejected => .rejected
      | .short letters, none =>
        match readShort specs g letters with
        | .read p => readAll specs p.given p.pending false rest
        | .help => .help
        | .version => .version
        | .rejected => .rejected

/-- The options that every command has. -/
def commonOptions : List OptionSpec :=
  [⟨"no-color", none, .flag⟩, ⟨"verbose", some 'v', .flag⟩, ⟨"help", some 'h', .help⟩]

/-- The options in front of a command. -/
def topOptions : List OptionSpec :=
  commonOptions ++ [⟨"version", some 'V', .version⟩]

/-- The options of `render`. -/
def renderOptions : List OptionSpec :=
  commonOptions ++
    [⟨"data", some 'd', .value⟩, ⟨"set", none, .values⟩, ⟨"output", some 'o', .value⟩,
      ⟨"check", none, .flag⟩, ⟨"tree", none, .flag⟩, ⟨"list-blocks", none, .flag⟩,
      ⟨"quiet", some 'q', .flag⟩]

/-- The options of `test`. -/
def testOptions : List OptionSpec :=
  commonOptions ++ [⟨"category", some 'c', .values⟩, ⟨"list-categories", none, .flag⟩]

/-- What `render` is asked to do. -/
structure RenderRequest where
  file : String
  data : Option String
  assignments : List String
  output : Option String
  check : Bool
  tree : Bool
  listBlocks : Bool
  quiet : Bool
  verbose : Bool
  deriving Repr, BEq, DecidableEq

/-- What `test` is asked to do. -/
structure TestRequest where
  path : String
  categories : List String
  list : Bool
  plain : Bool
  verbose : Bool
  deriving Repr, BEq, DecidableEq

/-- What the program is asked to do. -/
inductive Request where
  | render (r : RenderRequest)
  | test (r : TestRequest)
  deriving Repr, BEq, DecidableEq

/-- Whether the log is to tell of more than warnings. -/
def Request.verbose : Request → Bool
  | render r => r.verbose
  | test r => r.verbose

/-- The request that the arguments of `render` make behind those of the program, `top`. An option
that every command has counts in either place. -/
def RenderRequest.ofGiven (top g : Given) : RenderRequest :=
  ⟨g.positional.headD "", g.value? "data", g.values "set", g.value? "output", g.has "check",
    g.has "tree", g.has "list-blocks", g.has "quiet", top.has "verbose" || g.has "verbose"⟩

/-- The request that the arguments of `test` make behind those of the program, `top`. -/
def TestRequest.ofGiven (top g : Given) : TestRequest :=
  ⟨g.positional.headD "", g.values "category", g.has "list-categories",
    top.has "no-color" || g.has "no-color", top.has "verbose" || g.has "verbose"⟩

/-- The verdict on the arguments of a command as one on a request. -/
def Verdict.map {α β : Type} (f : α → β) : Verdict α → Verdict β
  | read a => read (f a)
  | help => help
  | version => version
  | rejected => rejected

/-- The names of the commands. -/
def commandNames : List String := ["render", "test", "help"]

/-- Reads arguments up to the name of a command, then the arguments of the command. -/
def readTop (g : Given) : List String → Verdict Request
  | [] => .rejected
  | s :: rest =>
    match Argument.ofString s with
    | .plain _ =>
      if s = "render" then
        (readAll renderOptions .empty none false rest).map fun r => .render (.ofGiven g r)
      else if s = "test" then
        (readAll testOptions .empty none false rest).map fun t => .test (.ofGiven g t)
      else if s = "help" ∧ rest.length ≤ 1 ∧ rest.all (commandNames.contains ·) then .help
      else .rejected
    | .escape => .rejected
    | .long name value =>
      match readLong topOptions g name value with
      | .read p => readTop p.given rest
      | .help => .help
      | .version => .version
      | .rejected => .rejected
    | .short letters =>
      match readShort topOptions g letters with
      | .read p => readTop p.given rest
      | .help => .help
      | .version => .version
      | .rejected => .rejected

/-- The arguments with the command they leave out: a first argument without a dash that is no
command is a file to render. -/
def withCommand : List String → List String
  | [] => []
  | s :: rest =>
    if s.toList.head? = some '-' then s :: withCommand rest
    else if commandNames.contains s then s :: rest
    else "render" :: s :: rest

/-- The request that the arguments of the program make, if they are read as above. -/
def parse (args : List String) : Verdict Request :=
  readTop .empty (withCommand args)

end Stencil.Command
