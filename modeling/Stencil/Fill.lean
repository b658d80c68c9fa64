import Stencil.Data.Entry
import Stencil.Page

/-!
# Filling a template from data

Which calls fill a template depends on the template and the data alone. They are listed as a
plan, with a warning wherever a field fits nothing, and the plan is carried out until a call
is refused. A pass over a block assigns its variables, writes it, and for every nested block
makes the passes its entry asks for, or skips it.
-/

namespace Stencil

/-- A call of the plan was refused; `block` is the path of the block it was made on. -/
structure FillError where
  block : String
  cause : RenderError
  deriving Repr, BEq, DecidableEq

/-- The wording of the error. -/
def FillError.message (e : FillError) : String :=
  s!"cannot render block {e.block}: {e.cause.message}"

/-- A step of a plan: a warning about a field with an entry of sort `given`, or a call on the
block at `path`, which reports name by `label`. -/
inductive Action (σ : Type) where
  | warn (warning : Warning) (given : String)
  | call (path : List String) (label : String) (c : Call σ)

/-- How reports name the root. -/
def rootLabel : String := "root"

/-- How reports name a block nested in another one: below the root by its name, else by the
path from there. -/
def childLabel (label name : String) : String :=
  if label = rootLabel then name else label ++ "." ++ name

namespace Block

variable {σ : Type}

/-- How a field fails to fit a block: its name is neither a variable nor a nested block, or the
only thing it names takes the other sort of entry. -/
def misfit? (b : Block) (name : String) (entry : Entry) : Option Misfit :=
  match b.vars.declares name, b.hasChild name with
  | false, false => some .unknownField
  | true, false => if entry.isTable then some .tableForVariable else none
  | false, true => if entry.isTable || entry.isBool then none else some .scalarForBlock
  | true, true => none

/-- The step for one field: an assignment, a warning, or none. -/
def assignment (b : Block) (path : List String) (label name : String) (entry : Entry) :
    List (Action σ) :=
  match entry.text?, b.vars.declares name with
  | some value, true => [.call path label (.set name value)]
  | _, _ =>
    ((b.misfit? name entry).map fun m => .warn ⟨label, name, m⟩ entry.typeName).toList

/-- The steps for the fields of a pass. -/
def assignments (b : Block) (path : List String) (label : String) (fields : Fields) :
    List (Action σ) :=
  fields.flatMap fun (name, entry) => b.assignment path label name entry

mutual

/-- The steps of one pass over a block, which the call `enter` begins. -/
def passPlan (path : List String) (label : String) (enter : Call σ) (fields : Fields) :
    Block → List (Action σ)
  | ⟨name, vs, gaps, cs, span, state⟩ =>
    assignments ⟨name, vs, gaps, cs, span, state⟩ path label fields ++
      .call path label enter :: childrenPlan path label fields cs

/-- The steps for the nested blocks of a block that has been begun. -/
def childrenPlan (path : List String) (label : String) (fields : Fields) :
    List Block → List (Action σ)
  | [] => []
  | c :: cs =>
    let name := c.name.getD ""
    let below := path ++ [name]
    let named := childLabel label name
    let passes := ((fields.get? name).map Entry.passes).getD []
    let steps :=
      if passes.isEmpty then [.call below named .skip]
      else passes.flatMap fun inner => c.passPlan below named .start inner
    steps ++ .call path label .next :: childrenPlan path label fields cs

end

/-- The steps that fill a whole template. -/
def fillPlan (root : Block) (fields : Fields) (sink : σ) : List (Action σ) :=
  root.passPlan [] rootLabel (.startWith sink) fields ++ [.call [] rootLabel .finish]

end Block

namespace Page

variable {σ : Type} [Sink σ]

/-- What carrying out some steps leaves: the page, the call that was refused, and what
happened. -/
structure Progress (σ : Type) where
  page : Page σ
  failure : Option FillError
  events : List Event

/-- Carries out steps until a call is refused. -/
def perform (p : Page σ) : List (Action σ) → Progress σ
  | [] => ⟨p, none, []⟩
  | .warn w given :: rest =>
    let later := p.perform rest
    { later with events := .note (.misfit w given) :: later.events }
  | .call path label c :: rest =>
    match p.call? path c with
    | none => p.perform rest
    | some reply =>
      match reply.result with
      | .error cause => ⟨reply.page, some ⟨label, cause⟩, reply.events⟩
      | .ok _ =>
        let later := reply.page.perform rest
        { later with events := reply.events ++ later.events }

/-- What filling a template leaves: the page, the warnings or the error, and what happened. -/
structure Filled (σ : Type) where
  page : Page σ
  result : Except FillError (List Warning)
  events : List Event

/-- The warnings of a plan. -/
def warnings (plan : List (Action σ)) : List Warning :=
  plan.filterMap fun a => match a with | .warn w _ => some w | _ => none

/-- Writes the whole template once, to a new sink, from data. -/
def fill (p : Page σ) (fields : Fields) (sink : σ) : Filled σ :=
  let plan := p.root.fillPlan fields sink
  let done := p.perform plan
  match done.failure with
  | some e => ⟨done.page, .error e, done.events⟩
  | none =>
    let ws := warnings plan
    ⟨done.page, .ok ws, done.events ++ [.note (.filled ws.length)]⟩

end Page

end Stencil
