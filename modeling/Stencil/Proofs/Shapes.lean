import Mathlib.Logic.Relation
import Stencil.Proofs.Refilling

/-!
# Data of the same shape

A table asks for the same passes as the array of this one table, `true` for the same as an empty table, and
a field that is missing for as many as `false` or an empty array. `Fields.Reshaped` is one replacement of one
by the other, anywhere in the data. The plans before and after it differ only in the sort of entry that a
warning notes (`passPlan_of_reshaped`), which is nothing to a sink and nothing to the result.
-/

namespace Stencil

open Block
open Page (warnings)

/-! ## One replacement -/

/-- Some blocks all have a nested block of this name, and none has a variable of it. -/
def NestedOnly (blocks : List Block) (name : String) : Prop :=
  ∀ b ∈ blocks, b.hasChild name = true ∧ b.vars.declares name = false

/-- The blocks nested in some blocks that take their passes from the field `name`. -/
def takers (blocks : List Block) (name : String) : List Block :=
  blocks.flatMap fun b => b.children.filter fun c => c.name.getD "" = name

/-- One replacement in the fields of passes over some blocks. What asks for a single pass without data, or
for none, is replaced only under a name that means a nested block to each of them. -/
inductive Fields.Reshaped : List Block → Fields → Fields → Prop where
  /-- A table by the array of it. -/
  | single {blocks : List Block} (front back : Fields) (name : String) (inner : Fields) :
      Reshaped blocks (front ++ (name, .once inner) :: back) (front ++ (name, .repeated [inner]) :: back)
  /-- `true` by the empty table. -/
  | plain {blocks : List Block} (front back : Fields) {name : String} (only : NestedOnly blocks name) :
      Reshaped blocks (front ++ (name, .bool true) :: back) (front ++ (name, .once []) :: back)
  /-- `false` or an empty array by nothing. -/
  | leftOut {blocks : List Block} (front back : Fields) {name : String} {entry : Entry}
      (only : NestedOnly blocks name) (empty : entry = .bool false ∨ entry = .repeated [])
      (missing : Fields.get? (front ++ back) name = none) :
      Reshaped blocks (front ++ (name, entry) :: back) (front ++ back)
  /-- A replacement in a table. -/
  | once {blocks : List Block} (front back : Fields) (name : String) {inner inner' : Fields}
      (deeper : Reshaped (takers blocks name) inner inner') :
      Reshaped blocks (front ++ (name, .once inner) :: back) (front ++ (name, .once inner') :: back)
  /-- A replacement in an element of an array. -/
  | item {blocks : List Block} (front back : Fields) (name : String) (before after : List Fields)
      {inner inner' : Fields} (deeper : Reshaped (takers blocks name) inner inner') :
      Reshaped blocks (front ++ (name, .repeated (before ++ inner :: after)) :: back)
        (front ++ (name, .repeated (before ++ inner' :: after)) :: back)

namespace Fields

variable {front back : Fields} {name : String} {entry other : Entry}

theorem get?_append (front back : Fields) (key : String) :
    get? (front ++ back) key = (front.get? key).or (back.get? key) :=
  List.lookup_append

/-- A replaced entry either is the one that counts for a nested block, or does not matter to it. -/
theorem rounds_replace (front back : Fields) (name : String) (entry other : Entry) (key : String) :
    rounds (front ++ (name, entry) :: back) key = rounds (front ++ (name, other) :: back) key ∨
      key = name ∧ rounds (front ++ (name, entry) :: back) key = entry.passes ∧
        rounds (front ++ (name, other) :: back) key = other.passes := by
  simp only [rounds_eq, get?_append, get?_cons]
  cases front.get? key with
  | some shadow => exact .inl rfl
  | none =>
    by_cases same : key = name
    · exact .inr ⟨same, by simp [same], by simp [same]⟩
    · exact .inl (by simp [same])

theorem rounds_of_passes (passes : entry.passes = other.passes) (key : String) :
    rounds (front ++ (name, entry) :: back) key = rounds (front ++ (name, other) :: back) key := by
  obtain same | ⟨-, before, after⟩ := rounds_replace front back name entry other key
  · exact same
  · rw [before, after, passes]

/-- An entry that asks for no pass can be missing. -/
theorem rounds_leftOut (empty : entry.passes = []) (missing : get? (front ++ back) name = none) (key : String) :
    rounds (front ++ (name, entry) :: back) key = rounds (front ++ back) key := by
  simp only [rounds_eq, get?_append, get?_cons]
  by_cases same : key = name
  · rw [get?_append, Option.or_eq_none_iff] at missing
    simp [same, missing.1, missing.2, empty]
  · rw [if_neg same]

end Fields

/-! ## Plans that differ in notes only -/

section

variable {σ : Type}

/-- The step without the sort of entry that a warning notes. -/
def Action.bare : Action σ → Action σ
  | .warn w _ => .warn w ""
  | .call path label c => .call path label c

/-- Two plans make the same calls and warn of the same. -/
def AlikePlans (plan other : List (Action σ)) : Prop := plan.map Action.bare = other.map Action.bare

theorem AlikePlans.of_eq {plan other : List (Action σ)} (same : plan = other) : AlikePlans plan other := by
  rw [same, AlikePlans]

theorem AlikePlans.append {plan other more others : List (Action σ)} (first : AlikePlans plan other)
    (second : AlikePlans more others) : AlikePlans (plan ++ more) (other ++ others) := by
  rw [AlikePlans, List.map_append, List.map_append, first, second]

theorem AlikePlans.cons {plan other : List (Action σ)} (step : Action σ) (rest : AlikePlans plan other) :
    AlikePlans (step :: plan) (step :: other) :=
  congrArg (step.bare :: ·) rest

theorem warnings_bare (plan : List (Action σ)) : warnings (plan.map Action.bare) = warnings plan := by
  induction plan with
  | nil => rfl
  | cons step plan ih =>
    cases step with
    | warn w given => exact congrArg (w :: ·) ih
    | call => exact ih

/-- What a warning notes of the entry is nothing to the page, to the sinks or to what is refused. -/
theorem Page.perform_bare [Sink σ] (p : Page σ) (plan : List (Action σ)) :
    (p.perform (plan.map Action.bare)).page = (p.perform plan).page ∧
      (p.perform (plan.map Action.bare)).failure = (p.perform plan).failure ∧
      Event.sights (p.perform (plan.map Action.bare)).events = Event.sights (p.perform plan).events := by
  induction plan generalizing p with
  | nil => exact ⟨rfl, rfl, rfl⟩
  | cons step plan ih =>
    cases step with
    | warn w given => exact ih p
    | call path label c =>
      rw [List.map_cons, Action.bare]
      cases reply : p.call? path c with
      | none =>
        rw [perform, perform, reply]
        exact ih p
      | some r =>
        cases verdict : r.result with
        | error cause =>
          rw [perform_refused label _ reply verdict, perform_refused label _ reply verdict]
          exact ⟨rfl, rfl, rfl⟩
        | ok =>
          obtain ⟨page, failure, seen⟩ := ih r.page
          rw [perform_call label _ reply verdict, perform_call label _ reply verdict]
          exact ⟨page, failure, Event.sights_append_congr r.events seen⟩

/-! ## The plans before and after -/

namespace Block

variable {b : Block} {path : List String} {label name : String} {entry other : Entry}

/-- The step for a field depends on its text and on whether it is a truth value. -/
theorem assignment_alike (text : entry.text? = other.text?) (truth : entry.isBool = other.isBool) :
    AlikePlans (b.assignment path label name entry : List (Action σ)) (b.assignment path label name other) := by
  have misfit : b.misfit? name entry = b.misfit? name other := by
    rw [misfit?, misfit?, Entry.isTable, Entry.isTable, text, truth]
  rw [assignment, assignment, text, misfit]
  split
  · exact .of_eq rfl
  · cases b.misfit? name other <;> rfl

/-- A table or a truth value for a nested block is neither assigned nor warned of. -/
theorem assignment_of_nested (child : b.hasChild name = true) (unknown : b.vars.declares name = false)
    (fits : (entry.isTable || entry.isBool) = true) :
    (b.assignment path label name entry : List (Action σ)) = [] := by
  have misfit : b.misfit? name entry = none := by simp [misfit?, child, unknown, fits]
  simp [assignment, misfit, unknown]

theorem assignments_append (front back : Fields) :
    (b.assignments path label (front ++ back) : List (Action σ)) =
      b.assignments path label front ++ b.assignments path label back :=
  List.flatMap_append

/-- Fields are assigned alike if one of them is replaced by one with a step like its own. -/
theorem assignments_replace (front back : Fields)
    (same : AlikePlans (b.assignment path label name entry : List (Action σ)) (b.assignment path label name other)) :
    AlikePlans (b.assignments path label (front ++ (name, entry) :: back) : List (Action σ))
      (b.assignments path label (front ++ (name, other) :: back)) := by
  rw [assignments_append, assignments_append, assignments_cons, assignments_cons]
  exact .append (.of_eq rfl) (same.append (.of_eq rfl))

/-- The passes over a nested block are alike if one of them is replaced by one with a plan like its own. -/
theorem turnPlan_replace (before after : List Fields) {inner inner' : Fields}
    (same : AlikePlans (b.passPlan path label (.start : Call σ) inner) (b.passPlan path label .start inner')) :
    AlikePlans (b.turnPlan path label (before ++ inner :: after) : List (Action σ))
      (b.turnPlan path label (before ++ inner' :: after)) := by
  have some_ (fields : Fields) : (before ++ fields :: after).isEmpty = false := by simp
  simp only [turnPlan, some_, List.flatMap_append, List.flatMap_cons]
  exact .append (.of_eq rfl) (same.append (.of_eq rfl))

/-- A pass consists of the steps for its fields and of the passes over each nested block. -/
theorem passPlan_alike {f g : Fields} (enter : Call σ)
    (own : AlikePlans (b.assignments path label f : List (Action σ)) (b.assignments path label g))
    (nested : ∀ c ∈ b.children, f.rounds (c.name.getD "") = g.rounds (c.name.getD "") ∨
      ∀ below inner, AlikePlans (c.turnPlan below inner (f.rounds (c.name.getD "")) : List (Action σ))
        (c.turnPlan below inner (g.rounds (c.name.getD "")))) :
    AlikePlans (b.passPlan path label enter f) (b.passPlan path label enter g) := by
  have turn (c : Block) (here : c ∈ b.children) (below : List String) (inner : String) :
      AlikePlans (c.turnPlan below inner (f.rounds (c.name.getD "")) : List (Action σ))
        (c.turnPlan below inner (g.rounds (c.name.getD ""))) := by
    obtain same | alike := nested c here
    · exact .of_eq (by rw [same])
    · exact alike below inner
  have row (cs : List Block) (within : ∀ c ∈ cs, c ∈ b.children) :
      AlikePlans (childrenPlan path label f cs : List (Action σ)) (childrenPlan path label g cs) := by
    induction cs with
    | nil => exact .of_eq rfl
    | cons c cs ih =>
      rw [childrenPlan_cons, childrenPlan_cons]
      exact (turn c (within c List.mem_cons_self) _ _).append
        (.cons _ (ih fun d hd => within d (List.mem_cons_of_mem _ hd)))
  rw [passPlan_eq, passPlan_eq]
  exact own.append (.cons _ (row b.children fun _ h => h))

theorem mem_takers {blocks : List Block} {c : Block} (used : b ∈ blocks) (nested : c ∈ b.children)
    (taken : c.name.getD "" = name) : c ∈ takers blocks name :=
  List.mem_flatMap.2 ⟨b, used, List.mem_filter.2 ⟨nested, decide_eq_true taken⟩⟩

/-- Fields of the same shape ask for the same of a block whose passes have them. -/
theorem passPlan_of_reshaped {blocks : List Block} {f g : Fields} (same : Fields.Reshaped blocks f g)
    (used : b ∈ blocks) (enter : Call σ) :
    AlikePlans (b.passPlan path label enter f) (b.passPlan path label enter g) := by
  -- By induction on where the replacement is made: at a field of the pass itself, or in a table below.
  induction same generalizing b path label enter with
  | single front back name inner =>
    exact passPlan_alike enter (assignments_replace front back (assignment_alike rfl rfl))
      fun c _ => .inl (Fields.rounds_of_passes (by rfl) _)
  | plain front back only =>
    obtain ⟨child, unknown⟩ := only b used
    refine passPlan_alike enter (assignments_replace front back (.of_eq ?_))
      fun c _ => .inl (Fields.rounds_of_passes (by rfl) _)
    rw [assignment_of_nested child unknown rfl, assignment_of_nested child unknown rfl]
  | @leftOut blocks front back name entry only empty missing =>
    obtain ⟨child, unknown⟩ := only b used
    have fits : (entry.isTable || entry.isBool) = true := by rcases empty with rfl | rfl <;> rfl
    have none_ : entry.passes = [] := by rcases empty with rfl | rfl <;> rfl
    refine passPlan_alike enter (.of_eq ?_) fun c _ => .inl (Fields.rounds_leftOut none_ missing _)
    rw [assignments_append, assignments_cons, assignment_of_nested child unknown fits, List.nil_append,
      assignments_append]
  | @once blocks front back name inner inner' _ ih =>
    refine passPlan_alike enter (assignments_replace front back (assignment_alike rfl rfl)) fun c here => ?_
    obtain same | ⟨taken, before, after⟩ :=
      Fields.rounds_replace front back name (.once inner) (.once inner') (c.name.getD "")
    · exact .inl same
    · refine .inr fun below label => ?_
      rw [before, after]
      exact turnPlan_replace [] [] (ih (mem_takers used here taken) .start)
  | @item blocks front back name before after inner inner' _ ih =>
    refine passPlan_alike enter (assignments_replace front back (assignment_alike rfl rfl)) fun c here => ?_
    obtain same | ⟨taken, first, second⟩ :=
      Fields.rounds_replace front back name (.repeated (before ++ inner :: after))
        (.repeated (before ++ inner' :: after)) (c.name.getD "")
    · exact .inl same
    · refine .inr fun below label => ?_
      rw [first, second]
      exact turnPlan_replace before after (ih (mem_takers used here taken) .start)

end Block

end

/-! ## Filling -/

namespace Page

variable {σ : Type} [Sink σ]

/-- **Data of the same shape fills a template alike.** Whatever has been reached on a page and whatever its
sinks do, any number of replacements anywhere in the data leave a filling as it is: a table for the array of
this one table or back under any name, and under a name that means a nested block and no variable to every
pass that has the field, `true` for the empty table or back, and `false`, an empty array and a missing field
for one another. The warnings or the error are the same, so is the page with its states, values and sink, and
so is all that sinks see. -/
theorem fill_of_reshaped (p : Page σ) {f g : Fields} (same : Relation.EqvGen (Fields.Reshaped [p.root]) f g)
    (s : σ) :
    (p.fill f s).result = (p.fill g s).result ∧ (p.fill f s).page = (p.fill g s).page ∧
      Event.sights (p.fill f s).events = Event.sights (p.fill g s).events := by
  have plans : AlikePlans (p.root.fillPlan f s) (p.root.fillPlan g s) := by
    induction same with
    | rel f g step =>
      exact (passPlan_of_reshaped step (List.mem_singleton_self _) _).append (.of_eq rfl)
    | refl f => exact .of_eq rfl
    | symm f g _ ih => exact ih.symm
    | trans f g h _ _ first second => exact first.trans second
  have warned : warnings (p.root.fillPlan f s) = warnings (p.root.fillPlan g s) := by
    rw [← warnings_bare, plans, warnings_bare]
  obtain ⟨page, failure, seen⟩ := p.perform_bare (p.root.fillPlan f s)
  obtain ⟨page', failure', seen'⟩ := p.perform_bare (p.root.fillPlan g s)
  rw [plans] at page failure seen
  exact fill_congr warned (page.symm.trans page') (failure.symm.trans failure') (seen.symm.trans seen')

/-- Three replacements, two of them in the array that has taken the place of a table. -/
theorem fill_of_reshaped_three :
    ∃ (p : Page Buffer) (f g : Fields),
      Template.parse "<!--rep blk=a-->A<!--rep blk=b-->B<!--/rep--><!--rep blk=c-->C<!--/rep--><!--/rep-->" 0 =
        .ok p.root ∧
      f = [("a", .once [("b", .bool true)])] ∧
      g = [("a", .repeated [[("b", .once []), ("c", .bool false)]])] ∧
      Relation.EqvGen (Fields.Reshaped [p.root]) f g ∧
      (p.fill f Buffer.empty).result = (p.fill g Buffer.empty).result ∧
      (p.fill f Buffer.empty).page = (p.fill g Buffer.empty).page ∧
      Event.sights (p.fill f Buffer.empty).events = Event.sights (p.fill g Buffer.empty).events ∧
      Event.written (p.fill g Buffer.empty).events = Text.bytes "AB" := by
  let b : Block := ⟨some "b", .empty, [[⟨"B", none⟩]], [], ⟨17, 45⟩, .out⟩
  let c : Block := ⟨some "c", .empty, [[⟨"C", none⟩]], [], ⟨45, 73⟩, .out⟩
  let a : Block := ⟨some "a", .empty, [[⟨"A", none⟩], [⟨"", none⟩], [⟨"", none⟩]], [b, c], ⟨0, 84⟩, .out⟩
  let root : Block := ⟨none, .empty, [[⟨"", none⟩], [⟨"", none⟩]], [a], ⟨0, 84⟩, .out⟩
  let p : Page Buffer := .ofTemplate root
  have parsed : Template.parse
      "<!--rep blk=a-->A<!--rep blk=b-->B<!--/rep--><!--rep blk=c-->C<!--/rep--><!--/rep-->" 0 = .ok root := by
    with_unfolding_all rfl
  have only_b : NestedOnly (takers [root] "a") "b" := by unfold NestedOnly; decide +kernel
  have only_c : NestedOnly (takers [root] "a") "c" := by unfold NestedOnly; decide +kernel
  let f : Fields := [("a", .once [("b", .bool true)])]
  let g : Fields := [("a", .repeated [[("b", .once []), ("c", .bool false)]])]
  have same : Relation.EqvGen (Fields.Reshaped [p.root]) f g := by
    refine .trans _ _ _ (.rel _ _ (.single [] [] "a" [("b", .bool true)])) ?_
    refine .trans _ _ _ (.rel _ _ (.item [] [] "a" [] [] (.plain [] [] only_b))) ?_
    exact .symm _ _ (.rel _ _ (.item [] [] "a" [] [] (.leftOut [("b", .once [])] [] only_c (.inl rfl) rfl)))
  obtain ⟨result, page, seen⟩ := p.fill_of_reshaped same Buffer.empty
  exact ⟨p, f, g, parsed, rfl, rfl, same, result, page, seen, by decide +kernel⟩

end Page

end Stencil
