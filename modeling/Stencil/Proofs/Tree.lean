import Stencil.Page

/-!
# Trees of blocks

What holds of a tree of blocks whatever is written: its parts (`preorder`), the blocks that paths
lead to (`descend?`), and the tree with every state and value put back to what reading leaves
(`pristine`). A subtree in which nothing has been reached is dormant.
-/

namespace Stencil

open Text

namespace Variables

/-- The table with every value equal to its placeholder again. -/
def pristine (vs : Variables) : Variables :=
  ⟨vs.entries.map fun v => { v with value := v.placeholder }⟩

theorem pristine_declare (vs : Variables) (name placeholder : String) (span : Span) :
    (vs.declare name placeholder span).pristine = vs.pristine.declare name placeholder span := by
  simp [pristine, declare]

@[simp] theorem names_pristine (vs : Variables) : vs.pristine.names = vs.names := by
  rw [names, names, pristine, List.map_map]
  rfl

theorem names_eq_of_pristine_eq {vs ws : Variables} (h : vs.pristine = ws.pristine) : vs.names = ws.names := by
  rw [← names_pristine vs, h, names_pristine]

/-- An assignment changes nothing but a value. -/
theorem pristine_assign? {vs after : Variables} {name value : String}
    (h : vs.assign? name value = some after) : after.pristine = vs.pristine := by
  obtain ⟨i, -, rfl⟩ := Option.map_eq_some_iff.1 h
  simp only [pristine, Variables.mk.injEq]
  apply List.ext_getElem?
  intro j
  rw [List.getElem?_map, List.getElem?_map, List.getElem?_modify]
  cases vs.entries[j]? with
  | none => rfl
  | some v => by_cases e : i = j <;> simp [e]

end Variables

namespace Block

/-- What holds of a block as soon as it holds of its nested blocks holds of every block. -/
@[elab_as_elim]
theorem nestInduction {motive : Block → Prop}
    (nest : ∀ b, (∀ c ∈ b.children, motive c) → motive b) (b : Block) : motive b :=
  nest b fun c _ => nestInduction nest c
termination_by sizeOf b
decreasing_by
  rename_i mem
  have := List.sizeOf_lt_of_mem mem
  cases b
  simp only [mk.sizeOf_spec] at this ⊢
  omega

/-- What holds of a block as soon as something holds of the row of its nested blocks holds of every block, if
that holds of no blocks, and goes from blocks on to one more in front of them. -/
theorem rowInduction {motive : Block → Prop} (row : List Block → Prop) (nest : ∀ b, row b.children → motive b)
    (nil : row []) (cons : ∀ c cs, motive c → row cs → row (c :: cs)) (b : Block) : motive b := by
  induction b using nestInduction with
  | nest b ih =>
    apply nest
    generalize b.children = cs at ih
    induction cs with
    | nil => exact nil
    | cons c cs more => exact cons c cs (ih c List.mem_cons_self) (more fun d hd => ih d (List.mem_cons_of_mem _ hd))

/-- A block is made of its fields. It holds blocks itself, so this is no matter of computation. -/
@[simp] theorem mk_fields (b : Block) :
    (⟨b.name, b.vars, b.gaps, b.children, b.span, b.state⟩ : Block) = b := by
  cases b; rfl

/-! ## The parts of a tree -/

theorem mem_preorderAll {b : Block} {cs : List Block} :
    b ∈ preorderAll cs ↔ ∃ c ∈ cs, b ∈ c.preorder := by
  induction cs with
  | nil => simp [preorderAll]
  | cons c cs ih => simp [preorderAll, ih]

theorem preorder_eq (b : Block) : b.preorder = b :: preorderAll b.children := by
  cases b
  rw [preorder]

/-- A part of a tree is its block or a part of a nested block. -/
theorem mem_preorder {a b : Block} : a ∈ b.preorder ↔ a = b ∨ ∃ c ∈ b.children, a ∈ c.preorder := by
  rw [preorder_eq, List.mem_cons, mem_preorderAll]

theorem self_mem_preorder (b : Block) : b ∈ b.preorder :=
  mem_preorder.2 (.inl rfl)

theorem mem_preorder_of_child {a b c : Block} (child : c ∈ b.children) (part : a ∈ c.preorder) :
    a ∈ b.preorder :=
  mem_preorder.2 (.inr ⟨c, child, part⟩)

/-- A part of a part is a part. -/
theorem preorder_trans {a b c : Block} (outer : b ∈ c.preorder) (inner : a ∈ b.preorder) :
    a ∈ c.preorder := by
  induction c using nestInduction with
  | nest c ih =>
    rcases mem_preorder.1 outer with rfl | ⟨d, hd, part⟩
    · exact inner
    · exact mem_preorder_of_child hd (ih d hd part)

/-- A change made to every block of a tree alike is made to each of its parts. -/
theorem preorder_map {f : Block → Block} (alike : ∀ b, (f b).children = b.children.map f) (b : Block) :
    (f b).preorder = b.preorder.map f := by
  induction b using rowInduction (fun cs => preorderAll (cs.map f) = (preorderAll cs).map f) with
  | nest b ih => rw [preorder_eq, preorder_eq b, alike, ih, List.map_cons]
  | nil => rfl
  | cons c cs first others => rw [List.map_cons, preorderAll, preorderAll, List.map_append, first, others]

/-- What a path of at least one name leads to stands in a nested block. -/
theorem descend?_cons {b d : Block} {name : String} {path : List String}
    (h : b.descend? (name :: path) = some d) :
    ∃ k c, b.childIndex? name = some k ∧ b.children[k]? = some c ∧ c.descend? path = some d := by
  rw [descend?] at h
  split at h
  · cases h
  · next k hk =>
    obtain ⟨c, hc, hd⟩ := Option.bind_eq_some_iff.1 h
    exact ⟨k, c, hk, hc, hd⟩

theorem descend?_child {b c : Block} {name : String} {k : Nat} (index : b.childIndex? name = some k)
    (child : b.children[k]? = some c) (path : List String) :
    b.descend? (name :: path) = c.descend? path := by
  simp [descend?, index, child]

theorem mem_preorder_of_descend? {b d : Block} {path : List String} (h : b.descend? path = some d) :
    d ∈ b.preorder := by
  induction path generalizing b with
  | nil =>
    cases h
    exact self_mem_preorder _
  | cons name path ih =>
    obtain ⟨k, c, -, hc, hd⟩ := descend?_cons h
    exact mem_preorder_of_child (List.mem_of_getElem? hc) (ih hd)

/-! ## Nested blocks by name -/

/-- The name that leads to a nested block. -/
theorem name_of_childIndex? {b c : Block} {name : String} {k : Nat}
    (index : b.childIndex? name = some k) (child : b.children[k]? = some c) : c.name = some name := by
  obtain ⟨lt, hit, -⟩ := List.findIdx?_eq_some_iff_getElem.1 index
  rw [List.getElem?_eq_getElem lt, Option.some.injEq] at child
  simpa [← child] using hit

theorem exists_child_of_childIndex? {b : Block} {name : String} {k : Nat}
    (index : b.childIndex? name = some k) : ∃ c, b.children[k]? = some c := by
  obtain ⟨lt, -, -⟩ := List.findIdx?_eq_some_iff_getElem.1 index
  exact ⟨_, List.getElem?_eq_getElem lt⟩

/-- The place of a name depends on the names alone. -/
theorem childIndex?_eq_names (b : Block) (name : String) :
    b.childIndex? name = (b.children.map (·.name)).findIdx? (· == some name) := by
  rw [List.findIdx?_map]
  rfl

theorem childIndex?_congr {a b : Block} (names : a.children.map (·.name) = b.children.map (·.name))
    (name : String) : a.childIndex? name = b.childIndex? name := by
  rw [childIndex?_eq_names, childIndex?_eq_names, names]

@[simp] theorem children_modifyChild (b : Block) (k : Nat) (f : Block → Block) :
    (b.modifyChild k f).children = b.children.modify k f := rfl

@[simp] theorem state_modifyChild (b : Block) (k : Nat) (f : Block → Block) :
    (b.modifyChild k f).state = b.state := rfl

theorem getElem?_modifyChild {b d : Block} {k : Nat} (child : b.children[k]? = some d) (f : Block → Block) :
    (b.modifyChild k f).children[k]? = some (f d) := by
  rw [children_modifyChild, List.getElem?_modify_eq, child]
  rfl

/-- A changed nested block that keeps its name leaves the places of all names. -/
theorem childIndex?_modifyChild {b d : Block} {k : Nat} {f : Block → Block} (child : b.children[k]? = some d)
    (same : (f d).name = d.name) (name : String) : (b.modifyChild k f).childIndex? name = b.childIndex? name := by
  have names : (b.modifyChild k f).children.map (·.name) = b.children.map (·.name) := by
    apply List.ext_getElem?
    intro j
    rw [children_modifyChild, List.getElem?_map, List.getElem?_map, List.getElem?_modify]
    by_cases e : k = j
    · subst e
      simp [child, same]
    · simp [e]
  exact childIndex?_congr names name

/-- Sibling blocks are told apart by their names, and each nested block has one. -/
def WellNamed (b : Block) : Prop :=
  ∀ a ∈ b.preorder, (a.children.map (·.name)).Nodup ∧ ∀ c ∈ a.children, c.isRoot = false

theorem WellNamed.child {b c : Block} (h : b.WellNamed) (child : c ∈ b.children) : c.WellNamed :=
  fun a ha => h a (mem_preorder_of_child child ha)

/-- Under distinct names, the name of a nested block leads to it. -/
theorem WellNamed.childIndex? {b c : Block} {k : Nat} (h : b.WellNamed) (child : b.children[k]? = some c) :
    b.childIndex? (c.name.getD "") = some k := by
  obtain ⟨distinct, named⟩ := h b b.self_mem_preorder
  have some_name : c.name = some (c.name.getD "") := by
    have := named c (List.mem_of_getElem? child)
    cases e : c.name <;> simp_all [isRoot]
  obtain ⟨lt, e⟩ := List.getElem?_eq_some_iff.1 child
  refine List.findIdx?_eq_some_iff_getElem.2 ⟨lt, by simp [e, ← some_name], fun j lt' same => ?_⟩
  have same : b.children[j].name = c.name := by simpa [← some_name] using same
  refine List.pairwise_iff_getElem.1 distinct j k (by simp; omega) (by simpa using lt) lt' ?_
  simp [same, e]

/-- No block declares a variable twice. -/
def WellDeclared (b : Block) : Prop := ∀ a ∈ b.preorder, a.vars.names.Nodup

theorem WellDeclared.child {b c : Block} (h : b.WellDeclared) (child : c ∈ b.children) : c.WellDeclared :=
  fun a ha => h a (mem_preorder_of_child child ha)

/-! ## Dormant trees -/

/-- Nothing in the tree has been reached. -/
def Dormant (b : Block) : Prop := ∀ a ∈ b.preorder, a.state = .out

theorem dormant_iff {b : Block} : b.Dormant ↔ b.state = .out ∧ ∀ c ∈ b.children, c.Dormant := by
  constructor
  · intro h
    exact ⟨h b b.self_mem_preorder, fun c hc a ha => h a (mem_preorder_of_child hc ha)⟩
  · rintro ⟨here, below⟩ a ha
    rcases mem_preorder.1 ha with rfl | ⟨c, hc, hac⟩
    · exact here
    · exact below c hc a hac

theorem Dormant.state {b : Block} (h : b.Dormant) : b.state = .out := h b b.self_mem_preorder

theorem Dormant.child {b c : Block} (h : b.Dormant) (child : c ∈ b.children) : c.Dormant :=
  (dormant_iff.1 h).2 c child

/-! ## A tree as it was read -/

mutual

/-- The tree with every block out and every value equal to its placeholder. -/
def pristine : Block → Block
  | ⟨name, vs, gaps, cs, span, _⟩ => ⟨name, vs.pristine, gaps, pristineAll cs, span, .out⟩

def pristineAll : List Block → List Block
  | [] => []
  | c :: cs => c.pristine :: pristineAll cs

end

theorem pristineAll_eq_map (cs : List Block) : pristineAll cs = cs.map pristine := by
  induction cs with
  | nil => rfl
  | cons c cs ih => rw [pristineAll, ih]; rfl

theorem pristine_eq (b : Block) :
    b.pristine = ⟨b.name, b.vars.pristine, b.gaps, b.children.map pristine, b.span, .out⟩ := by
  cases b
  rw [pristine, pristineAll_eq_map]

@[simp] theorem name_pristine (b : Block) : b.pristine.name = b.name := by rw [pristine_eq]

@[simp] theorem vars_pristine (b : Block) : b.pristine.vars = b.vars.pristine := by rw [pristine_eq]

@[simp] theorem gaps_pristine (b : Block) : b.pristine.gaps = b.gaps := by rw [pristine_eq]

@[simp] theorem children_pristine (b : Block) : b.pristine.children = b.children.map pristine := by
  rw [pristine_eq]

/-- Neither a state nor the values show in the tree as it was read. -/
theorem pristine_congr {a b : Block} (name : a.name = b.name) (vars : a.vars.pristine = b.vars.pristine)
    (gaps : a.gaps = b.gaps) (children : a.children.map pristine = b.children.map pristine)
    (span : a.span = b.span) : a.pristine = b.pristine := by
  rw [pristine_eq, pristine_eq, name, vars, gaps, children, span]

@[simp] theorem pristine_state (b : Block) (s : State) : ({ b with state := s } : Block).pristine = b.pristine :=
  pristine_congr rfl rfl rfl rfl rfl

/-- A nested block may change as long as the change does not show. -/
theorem map_pristine_modify {cs : List Block} {k : Nat} {f : Block → Block}
    (keep : ∀ c, cs[k]? = some c → (f c).pristine = c.pristine) :
    (cs.modify k f).map pristine = cs.map pristine := by
  apply List.ext_getElem?
  intro j
  rw [List.getElem?_map, List.getElem?_map, List.getElem?_modify]
  cases hc : cs[j]? with
  | none => rfl
  | some c =>
    by_cases e : k = j
    · subst e; simp [keep c hc]
    · simp [e]

theorem pristine_modifyChild {b : Block} {k : Nat} {f : Block → Block}
    (keep : ∀ c, b.children[k]? = some c → (f c).pristine = c.pristine) :
    (b.modifyChild k f).pristine = b.pristine :=
  pristine_congr rfl rfl rfl (map_pristine_modify keep) rfl

theorem name_eq_of_pristine_eq {a b : Block} (h : a.pristine = b.pristine) : a.name = b.name := by
  rw [← name_pristine a, h, name_pristine]

theorem children_eq_of_pristine_eq {a b : Block} (h : a.pristine = b.pristine) :
    a.children.map pristine = b.children.map pristine := by
  rw [← children_pristine a, h, children_pristine]

theorem preorder_pristine (b : Block) : b.pristine.preorder = b.preorder.map pristine :=
  preorder_map children_pristine b

/-- Trees that were read as the same have the same parts. -/
theorem exists_part_of_pristine_eq {a b x : Block} (h : a.pristine = b.pristine) (part : x ∈ a.preorder) :
    ∃ y ∈ b.preorder, y.pristine = x.pristine := by
  have mem : x.pristine ∈ b.preorder.map pristine := by
    rw [← preorder_pristine, ← h, preorder_pristine]
    exact List.mem_map_of_mem part
  exact List.mem_map.1 mem

theorem isRoot_of_pristine_eq {a b : Block} (h : a.pristine = b.pristine) : a.isRoot = b.isRoot := by
  rw [isRoot, isRoot, name_eq_of_pristine_eq h]

theorem map_name_of_pristine_eq {a b : Block} (h : a.pristine = b.pristine) :
    a.children.map (·.name) = b.children.map (·.name) := by
  have names := congrArg (List.map (·.name)) (children_eq_of_pristine_eq h)
  simpa only [List.map_map, Function.comp_def, name_pristine] using names

theorem childIndex?_of_pristine_eq {a b : Block} (h : a.pristine = b.pristine) (name : String) :
    a.childIndex? name = b.childIndex? name :=
  childIndex?_congr (map_name_of_pristine_eq h) name

/-- Names are part of what was read. -/
theorem wellNamed_of_pristine_eq {a b : Block} (h : a.pristine = b.pristine) (named : b.WellNamed) :
    a.WellNamed := by
  intro x hx
  obtain ⟨y, hy, e⟩ := exists_part_of_pristine_eq h hx
  obtain ⟨distinct, below⟩ := named y hy
  have names : x.children.map (·.name) = y.children.map (·.name) := map_name_of_pristine_eq e.symm
  refine ⟨names ▸ distinct, ?_⟩
  intro c hc
  have : c.name ∈ y.children.map (·.name) := names ▸ List.mem_map_of_mem hc
  obtain ⟨d, hd, e⟩ := List.mem_map.1 this
  rw [isRoot, ← e]
  exact below d hd

/-- So are the names of variables. -/
theorem wellDeclared_of_pristine_eq {a b : Block} (h : a.pristine = b.pristine) (declared : b.WellDeclared) :
    a.WellDeclared := by
  intro x hx
  obtain ⟨y, hy, e⟩ := exists_part_of_pristine_eq h hx
  have vars : y.vars.pristine = x.vars.pristine := by rw [← vars_pristine, e, vars_pristine]
  exact Variables.names_eq_of_pristine_eq vars ▸ declared y hy

/-- Nothing has been reached in a tree as it was read. -/
theorem pristine_dormant (b : Block) : b.pristine.Dormant := by
  induction b using nestInduction with
  | nest b ih =>
    refine dormant_iff.2 ⟨by rw [pristine_eq], ?_⟩
    intro c hc
    rw [children_pristine] at hc
    obtain ⟨d, hd, rfl⟩ := List.mem_map.1 hc
    exact ih d hd

end Block

end Stencil
