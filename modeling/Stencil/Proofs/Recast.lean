import Stencil.Proofs.Chain
import Stencil.Proofs.Decisions

/-!
# Trees that are called alike

A `Recast` changes the variables of every block, by the path of the block, and all spans, and leaves names,
texts, nesting and states. Calls do not look at what it changes: what a block decides on a call commutes with
it, as long as variables are assigned alike (`decision_recast`).
-/

namespace Stencil

/-- A change of the variables of blocks, by their paths, and of spans. -/
structure Recast where
  vars : List String → Variables → Variables
  span : Span → Span

/-- The change as it is for a nested block, with paths from there. -/
def Recast.below (f : Recast) (name : String) : Recast := ⟨fun path => f.vars (name :: path), f.span⟩

namespace Block

mutual

/-- The tree with the variables and spans of all blocks changed. -/
def recast (f : Recast) : Block → Block
  | ⟨name, vs, gaps, cs, span, state⟩ => ⟨name, f.vars [] vs, gaps, recastAll f cs, f.span span, state⟩

def recastAll (f : Recast) : List Block → List Block
  | [] => []
  | c :: cs => c.recast (f.below (c.name.getD "")) :: recastAll f cs

end

/-- A nested block with the variables and spans of all blocks changed. -/
def recastIn (f : Recast) (c : Block) : Block := c.recast (f.below (c.name.getD ""))

variable (f : Recast) (b : Block)

theorem recastAll_eq_map (cs : List Block) : recastAll f cs = cs.map (recastIn f) := by
  induction cs with
  | nil => rfl
  | cons c cs ih => rw [recastAll, ih]; rfl

theorem recast_eq :
    b.recast f = ⟨b.name, f.vars [] b.vars, b.gaps, b.children.map (recastIn f), f.span b.span, b.state⟩ := by
  cases b
  rw [recast, recastAll_eq_map]

@[simp] theorem name_recast : (b.recast f).name = b.name := by rw [recast_eq]

@[simp] theorem vars_recast : (b.recast f).vars = f.vars [] b.vars := by rw [recast_eq]

@[simp] theorem gaps_recast : (b.recast f).gaps = b.gaps := by rw [recast_eq]

@[simp] theorem children_recast : (b.recast f).children = b.children.map (recastIn f) := by rw [recast_eq]

@[simp] theorem state_recast : (b.recast f).state = b.state := by rw [recast_eq]

@[simp] theorem isRoot_recast : (b.recast f).isRoot = b.isRoot := by rw [isRoot, isRoot, name_recast]

@[simp] theorem name_recastIn (c : Block) : (recastIn f c).name = c.name := name_recast _ c

@[simp] theorem state_recastIn (c : Block) : (recastIn f c).state = c.state := state_recast _ c

theorem length_children_recast : (b.recast f).children.length = b.children.length := by
  rw [children_recast, List.length_map]

theorem recast_state (s : State) : ({ b with state := s } : Block).recast f = { b.recast f with state := s } := by
  rw [recast_eq, recast_eq]

theorem recastIn_state (s : State) : recastIn f { b with state := s } = { recastIn f b with state := s } :=
  recast_state _ b s

@[simp] theorem childIndex?_recast (name : String) : (b.recast f).childIndex? name = b.childIndex? name := by
  refine childIndex?_congr ?_ name
  rw [children_recast, List.map_map]
  exact List.map_congr_left fun c _ => name_recastIn f c

variable {f b}

/-- Changes of nested blocks that agree on the changed blocks agree on the changed row. -/
theorem map_recast_modify {cs : List Block} {k : Nat} {g h : Block → Block}
    (agree : ∀ c, cs[k]? = some c → recastIn f (g c) = h (recastIn f c)) :
    (cs.modify k g).map (recastIn f) = (cs.map (recastIn f)).modify k h := by
  apply List.ext_getElem?
  intro j
  rw [List.getElem?_map, List.getElem?_modify, List.getElem?_modify, List.getElem?_map]
  cases hc : cs[j]? with
  | none => rfl
  | some c =>
    by_cases e : k = j
    · subst e; simp [agree c hc]
    · simp [e]

theorem recast_modifyChild {k : Nat} {g h : Block → Block}
    (agree : ∀ c, b.children[k]? = some c → recastIn f (g c) = h (recastIn f c)) :
    (b.modifyChild k g).recast f = (b.recast f).modifyChild k h := by
  rw [modifyChild, modifyChild, recast_eq, recast_eq, map_recast_modify agree]

theorem recast_put (k : Nat) (d : Block) :
    (b.modifyChild k fun _ => d).recast f = (b.recast f).modifyChild k fun _ => recastIn f d :=
  recast_modifyChild fun _ _ => rfl

/-- A nested block is changed as it is by its name. -/
theorem recastIn_named {name : String} {c : Block} (named : c.name = some name) :
    recastIn f c = c.recast (f.below name) := by
  rw [recastIn, named]
  rfl

/-- What is nested in trees that become equal becomes equal. -/
theorem exists_children_of_recast_eq {a : Block} {g : Recast} {k : Nat} {name : String}
    (same : a.recast f = b.recast g) (index : a.childIndex? name = some k) :
    b.childIndex? name = some k ∧ ∃ c d, a.children[k]? = some c ∧ b.children[k]? = some d ∧
      c.name = some name ∧ d.name = some name ∧ c.recast (f.below name) = d.recast (g.below name) := by
  have index' : b.childIndex? name = some k := by
    rw [← childIndex?_recast g, ← same, childIndex?_recast, index]
  obtain ⟨c, here⟩ := exists_child_of_childIndex? index
  obtain ⟨d, there⟩ := exists_child_of_childIndex? index'
  have named_c := name_of_childIndex? index here
  have named_d := name_of_childIndex? index' there
  have nested := congrArg (fun m => m.children[k]?) same
  simp only [children_recast, List.getElem?_map, here, there, Option.map_some, Option.some.injEq,
    recastIn_named named_c, recastIn_named named_d] at nested
  exact ⟨index', c, d, here, there, named_c, named_d, nested⟩

variable (f b)

/-! ## Going on and going back -/

theorem recast_moveOn (k : Nat) : (b.moveOn k).1.recast f = ((b.recast f).moveOn k).1 := by
  rw [moveOn_eq, moveOn_eq, length_children_recast]
  split
  · have agree (c : Block) (_ : b.children[k]? = some c) := recastIn_state f c .ready
    rw [recast_eq, recast_eq, map_recast_modify (h := fun c => { c with state := .ready }) agree]
  · exact recast_state f b .used

theorem moveNote_recast (k : Nat) : (b.recast f).moveNote k = b.moveNote k := by
  rw [moveNote, moveNote, name_recast, state_recast, length_children_recast]

theorem recast_reset : b.reset.recast f = (b.recast f).reset := by
  induction b using nestInduction generalizing f with
  | nest b ih =>
    cases here : b.state with
    | active k =>
      have here' : (b.recast f).state = .active k := by rw [state_recast, here]
      have agree (c : Block) (child : b.children[k]? = some c) : recastIn f c.reset = (recastIn f c).reset := by
        rw [recastIn, name_eq_of_pristine_eq (pristine_reset c)]
        exact ih c (List.mem_of_getElem? child) _
      rw [reset_active here, reset_active here', recast_eq, recast_eq, map_recast_modify agree]
    | _ =>
      have idle : b.state.isActive = false := by rw [here]; rfl
      have idle' : (b.recast f).state.isActive = false := by rw [state_recast, idle]
      rw [reset_idle idle, reset_idle idle', recast_state]

theorem recast_restarted : b.restarted.recast f = (b.recast f).restarted := by
  rw [restarted, restarted, state_recast]
  split
  · exact recast_reset f b
  · rfl

theorem restartNotes_recast : (b.recast f).restartNotes = b.restartNotes := by
  rw [restartNotes, restartNotes, state_recast]

theorem recast_shut (k : Nat) : (b.shut k).recast f = (b.recast f).shut k :=
  recast_modifyChild fun c _ => recastIn_state f c .out

/-! ## Calls -/

variable {σ : Type}

/-- A block decides alike whatever its variables and spans, as long as they are assigned alike. -/
theorem decision_recast (c : Call σ)
    (assigns : ∀ name value, c = .set name value →
      (f.vars [] b.vars).assign? name value = (b.vars.assign? name value).map (f.vars [])) :
    (b.recast f).decision c = (b.decision c).map (·.recast f) := by
  cases c with
  | startWith s =>
    rw [decision, decision, isRoot_recast, restartNotes_recast, ← recast_restarted, moveNote_recast,
      ← recast_moveOn]
    split <;> rfl
  | start =>
    rw [decision, decision, isRoot_recast, state_recast, moveNote_recast, ← recast_moveOn]
    split
    · rfl
    · split <;> rfl
  | skip =>
    rw [decision, decision, isRoot_recast, state_recast, name_recast]
    split
    · rfl
    · split
      · simp only [Decision.map, recast_eq]
      · rfl
  | next =>
    cases here : b.state with
    | active k =>
      simp only [decision, state_recast, here, children_recast, List.getElem?_map]
      cases b.children[k]? with
      | none => rfl
      | some d =>
        simp only [Option.map_some, state_recastIn, name_recastIn, ← recast_shut, moveNote_recast, ← recast_moveOn]
        split <;> rfl
    | _ =>
      simp only [decision, state_recast, here]
      rfl
  | finish =>
    rw [decision, decision, isRoot_recast, state_recast]
    split
    · split <;> rfl
    · rfl
  | set name value =>
    rw [decision, decision, state_recast, name_recast, vars_recast, assigns name value rfl]
    split
    · rfl
    · cases b.vars.assign? name value with
      | none => rfl
      | some vs => simp only [Option.map_some, Decision.map, recast_eq]

/-- The block that names lead to is changed as it is by its path. -/
theorem descend?_recast (path : List String) :
    (b.recast f).descend? path =
      (b.descend? path).map (·.recast ⟨fun below => f.vars (path ++ below), f.span⟩) := by
  induction path generalizing b f with
  | nil => rfl
  | cons name path ih =>
    rw [descend?, descend?, childIndex?_recast]
    split
    · rfl
    · next k index =>
      rw [children_recast, List.getElem?_map]
      cases child : b.children[k]? with
      | none => rfl
      | some d =>
        have named : d.name.getD "" = name := by rw [name_of_childIndex? index child]; rfl
        rw [Option.map_some, Option.bind_some, Option.bind_some, recastIn, named, ih]
        rfl

theorem gapOf?_recast (c : Call σ) : (b.recast f).gapOf? c = b.gapOf? c := by
  cases c with
  | next => rw [gapOf?, gapOf?, state_recast]
  | _ => rfl

theorem states_recast : (b.recast f).states = b.states := by
  induction b using rowInduction (fun cs => ∀ f, (preorderAll (cs.map (recastIn f))).map (·.state) =
    (preorderAll cs).map (·.state)) generalizing f with
  | nest b ih =>
    rw [states, states, preorder_eq, preorder_eq b, List.map_cons, List.map_cons, state_recast, children_recast, ih]
  | nil => rfl
  | cons c cs first others =>
    rw [List.map_cons, preorderAll, preorderAll, List.map_append, List.map_append, others]
    exact congrArg (· ++ _) (first _)

end Block

end Stencil
