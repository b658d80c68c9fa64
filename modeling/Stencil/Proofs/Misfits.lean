import Stencil.Proofs.Plans
import Stencil.Proofs.Rendering

/-!
# The warnings of a plan

Which fields fit nothing is a matter of the template and the data. `Block.passWarnings` lists the
warnings of a pass without its calls: those for the fields of the pass itself, then those of the passes
over nested blocks in the order in which these are begun. A plan warns of the same, whatever sink it is
made for (`warnings_fillPlan`), and asks for the same in every state (`fillPlan_congr`).
-/

namespace Stencil

open Block
open Page (warnings)

/-- The warnings for the fields of one pass over a block, which reports name by `label`. -/
def Block.misfits (b : Block) (label : String) (fields : Fields) : List Warning :=
  fields.filterMap fun (name, entry) => (b.misfit? name entry).map fun m => ⟨label, name, m⟩

namespace Block

mutual

/-- The warnings of one pass over a block and of the passes over everything nested in it. -/
def passWarnings (label : String) (fields : Fields) : Block → List Warning
  | ⟨name, vs, gaps, cs, span, state⟩ =>
    misfits ⟨name, vs, gaps, cs, span, state⟩ label fields ++ childrenWarnings label fields cs

/-- The warnings of the passes over nested blocks. -/
def childrenWarnings (label : String) (fields : Fields) : List Block → List Warning
  | [] => []
  | c :: cs =>
    let name := c.name.getD ""
    ((fields.rounds name).flatMap fun inner => c.passWarnings (childLabel label name) inner) ++
      childrenWarnings label fields cs

end

theorem passWarnings_eq (b : Block) (label : String) (fields : Fields) :
    b.passWarnings label fields = b.misfits label fields ++ childrenWarnings label fields b.children := by
  cases b
  rw [passWarnings]

/-! ## Plans -/

variable {σ : Type}

theorem warnings_append (plan more : List (Action σ)) : warnings (plan ++ more) = warnings plan ++ warnings more :=
  List.filterMap_append

theorem warnings_call (path : List String) (label : String) (c : Call σ) (plan : List (Action σ)) :
    warnings (.call path label c :: plan) = warnings plan := rfl

/-- A field that is assigned is no misfit. -/
theorem misfit?_of_assigned {b : Block} {name value : String} {entry : Entry} (text : entry.text? = some value)
    (known : b.vars.declares name = true) : b.misfit? name entry = none := by
  have scalar : entry.isTable = false := by rw [Entry.isTable, text]; rfl
  rw [misfit?, known, scalar]
  cases b.hasChild name <;> rfl

theorem warnings_assignments (b : Block) (path : List String) (label : String) (fields : Fields) :
    warnings (b.assignments path label fields : List (Action σ)) = b.misfits label fields := by
  induction fields with
  | nil => rfl
  | cons field fields ih =>
    obtain ⟨name, entry⟩ := field
    have first : warnings (b.assignment path label name entry : List (Action σ)) =
        ((b.misfit? name entry).map fun m => (⟨label, name, m⟩ : Warning)).toList := by
      rw [assignment]
      split
      · next text known => rw [misfit?_of_assigned text known]; rfl
      · cases b.misfit? name entry <;> rfl
    rw [assignments, List.flatMap_cons, warnings_append, first, ← assignments, ih, misfits, misfits]
    cases h : b.misfit? name entry <;> simp [h]

theorem warnings_passPlan (b : Block) (path : List String) (label : String) (enter : Call σ) (fields : Fields) :
    warnings (b.passPlan path label enter fields) = b.passWarnings label fields := by
  induction b using rowInduction (fun cs => ∀ path label fields,
    warnings (childrenPlan path label fields cs : List (Action σ)) = childrenWarnings label fields cs)
    generalizing path label enter fields with
  | nest b ih =>
    rw [passPlan_eq, passWarnings_eq, warnings_append, warnings_assignments, warnings_call, ih]
  | nil => rfl
  | cons c cs first others =>
    have rounds (rounds : List Fields) (below : List String) (inner : String) :
        warnings (rounds.flatMap fun fields => c.passPlan below inner (.start : Call σ) fields) =
          rounds.flatMap fun fields => c.passWarnings inner fields := by
      induction rounds with
      | nil => rfl
      | cons fields rounds ih =>
        rw [List.flatMap_cons, List.flatMap_cons, warnings_append, ih, first]
    rw [childrenPlan, childrenWarnings, ← Fields.rounds_eq, warnings_append, warnings_call, others]
    split
    · next none_ =>
      rw [List.isEmpty_iff.1 none_]
      rfl
    · rw [rounds]

/-- Filling a template warns of the same for every sink. -/
theorem warnings_fillPlan (root : Block) (fields : Fields) (s : σ) :
    warnings (root.fillPlan fields s) = root.passWarnings rootLabel fields := by
  rw [fillPlan, warnings_append, warnings_passPlan]
  exact List.append_nil _

/-! ## Plans in other states -/

theorem declares_pristine (vs : Variables) (name : String) : vs.pristine.declares name = vs.declares name := by
  rw [Variables.declares, Variables.declares, Variables.indexOf?, Variables.indexOf?, Variables.pristine,
    List.findIdx?_map]
  rfl

section

/-! A change of all blocks that keeps the names of blocks and variables and the nesting. -/

variable {f : Block → Block} (named : ∀ b, (f b).name = b.name) (nested : ∀ b, (f b).children = b.children.map f)
  (declared : ∀ b name, (f b).vars.declares name = b.vars.declares name)

include named nested

theorem hasChild_map (b : Block) (name : String) : (f b).hasChild name = b.hasChild name := by
  have names : (f b).children.map (·.name) = b.children.map (·.name) := by
    rw [nested, List.map_map]
    exact List.map_congr_left fun c _ => named c
  rw [hasChild, hasChild, childIndex?_congr names]

include declared

theorem assignments_map (b : Block) (path : List String) (label : String) (fields : Fields) :
    ((f b).assignments path label fields : List (Action σ)) = b.assignments path label fields := by
  have step (name : String) (entry : Entry) :
      ((f b).assignment path label name entry : List (Action σ)) = b.assignment path label name entry := by
    rw [assignment, assignment, misfit?, misfit?, declared, hasChild_map named nested]
  rw [assignments, assignments]
  simp only [step]

/-- Plans look at nothing else. -/
theorem passPlan_map (b : Block) (path : List String) (label : String) (enter : Call σ) (fields : Fields) :
    (f b).passPlan path label enter fields = b.passPlan path label enter fields := by
  induction b using rowInduction (fun cs => ∀ path label fields,
    (childrenPlan path label fields (cs.map f) : List (Action σ)) = childrenPlan path label fields cs)
    generalizing path label enter fields with
  | nest b ih => rw [passPlan_eq, passPlan_eq, assignments_map named nested declared, nested, ih]
  | nil => rfl
  | cons c cs first others =>
    rw [List.map_cons, childrenPlan, childrenPlan, others, named]
    simp only [first]

end

theorem passPlan_pristine (b : Block) (path : List String) (label : String) (enter : Call σ) (fields : Fields) :
    b.pristine.passPlan path label enter fields = b.passPlan path label enter fields :=
  passPlan_map name_pristine children_pristine (fun b name => by rw [vars_pristine, declares_pristine])
    b path label enter fields

/-- A plan asks for the same in every state and with every value. -/
theorem fillPlan_congr {a b : Block} (same : a.pristine = b.pristine) (fields : Fields) (s : σ) :
    a.fillPlan fields s = b.fillPlan fields s := by
  rw [fillPlan, fillPlan, ← passPlan_pristine a, same, passPlan_pristine]

end Block

end Stencil
