import Mathlib.Data.List.Nodup
import Stencil.Proofs.Grammar
import Stencil.Proofs.Plans
import Stencil.Proofs.Rendering

/-!
# Filling a template

Filling a template from data writes what the data means for it. A block that fits a template and has the
values of a rendering (`Fits`) keeps doing so while the steps of a pass are carried out and the pass is
rendered (`Renders`): the fields assign what they set, and for each nested block the passes are made that
are rendered. `fill_as_rendered` puts this on a page, with a sink that never fails.
-/

namespace Stencil

open Text

namespace Variables

theorem declares_iff {vs : Variables} {name : String} : vs.declares name = true ↔ name ∈ vs.names := by
  rw [← Bool.not_eq_false, declares_eq_false_iff, Decidable.not_not]
  rfl

/-- Under distinct names, an assignment gives its variable the new value and leaves all others. -/
theorem values_assign? {vs after : Variables} {name value : String} {values : String → String}
    (distinct : vs.names.Nodup) (h : vs.assign? name value = some after)
    (before : ∀ x ∈ vs.entries, x.value = values x.name) :
    ∀ x ∈ after.entries, x.value = if x.name = name then value else values x.name := by
  obtain ⟨i, index, rfl⟩ := Option.map_eq_some_iff.1 h
  obtain ⟨lt, hit, -⟩ := List.findIdx?_eq_some_iff_getElem.1 index
  have target : vs.entries[i].name = name := by simpa using hit
  intro x hx
  obtain ⟨j, hj⟩ := List.getElem?_of_mem hx
  rw [List.getElem?_modify] at hj
  obtain ⟨y, hy, rfl⟩ := Option.map_eq_some_iff.1 hj
  obtain ⟨lt', rfl⟩ := List.getElem?_eq_some_iff.1 hy
  by_cases e : i = j
  · subst e
    simp [target]
  · have other : vs.entries[j].name ≠ name := by
      intro same
      have names : vs.names[i]? = vs.names[j]? := by
        rw [names, List.getElem?_map, List.getElem?_map, hy, List.getElem?_eq_getElem lt]
        simp [target, same]
      exact e ((List.getElem?_inj (by simpa [Variables.names] using lt) distinct).1 names)
    simp [e, other, before _ (List.getElem_mem lt')]

end Variables

namespace Block

/-- The values of all variables of a tree. -/
def valuation (b : Block) : Valuation := fun path name =>
  ((b.descend? path).bind fun d => (d.vars.entries.find? (·.name = name)).map (·.value)).getD ""

/-- The tree at `path` has the values of a valuation. -/
def Valued (path : List String) (values : Valuation) (b : Block) : Prop :=
  ∀ below d, b.descend? below = some d → ∀ x ∈ d.vars.entries, x.value = values (path ++ below) x.name

theorem valued_valuation {b : Block} (declared : b.WellDeclared) : b.Valued [] b.valuation := by
  intro below d target x hx
  have distinct : (d.vars.entries.map (·.name)).Nodup := declared d (mem_preorder_of_descend? target)
  have found : d.vars.entries.find? (·.name = x.name) = some x := by
    obtain ⟨y, hy⟩ : ∃ y, d.vars.entries.find? (·.name = x.name) = some y :=
      Option.isSome_iff_exists.1 (List.find?_isSome.2 ⟨x, hx, by simp⟩)
    have name : y.name = x.name := by simpa using List.find?_some hy
    rw [hy, List.inj_on_of_nodup_map distinct (List.mem_of_find?_eq_some hy) hx name]
  rw [valuation, List.nil_append, target, Option.bind_some, found]
  rfl

/-- A tree has certain values when its block and every nested tree have. -/
theorem valued_iff {path : List String} {values : Valuation} {b : Block} :
    b.Valued path values ↔ (∀ x ∈ b.vars.entries, x.value = values path x.name) ∧
      ∀ name k c, b.childIndex? name = some k → b.children[k]? = some c → c.Valued (path ++ [name]) values := by
  constructor
  · intro h
    refine ⟨fun x hx => ?_, fun name k c index child below d target x hx => ?_⟩
    · have own := h [] b rfl x hx
      rwa [List.append_nil] at own
    · have value := h (name :: below) d ((descend?_child index child below).trans target) x hx
      rwa [List.append_assoc]
  · rintro ⟨own, each⟩ below d target x hx
    cases below with
    | nil =>
      cases target
      rw [List.append_nil]
      exact own x hx
    | cons name below =>
      obtain ⟨k, c, index, child, target⟩ := descend?_cons target
      have value := each name k c index child below d target x hx
      rwa [List.append_assoc] at value

/-- Values elsewhere do not matter. -/
theorem Valued.congr {path : List String} {values values' : Valuation} {b : Block} (h : b.Valued path values)
    (same : ∀ p n, path <+: p → values' p n = values p n) : b.Valued path values' := by
  intro below d target x hx
  rw [h below d target x hx, same _ _ (List.prefix_append path below)]

/-- The bytes of a gap are those under the values of its block. -/
theorem gapBytes_eq_gapUnder {b t : Block} {value : String → String} (names : b.vars.names = t.vars.names)
    (gaps : b.gaps = t.gaps) (values : ∀ x ∈ b.vars.entries, x.value = value x.name) (k : Nat) :
    b.gapBytes k = t.gapUnder value k := by
  have carried (i : Nat) : b.vars.value i = ((t.vars.names[i]?).map value).getD "" := by
    rw [← names, Variables.names, List.getElem?_map, Variables.value]
    cases hx : b.vars.entries[i]? with
    | none => rfl
    | some x => exact values x (List.mem_of_getElem? hx)
  rw [gapBytes, gapTexts, gapUnder, gap, gap, gaps, List.flatMap_assoc]
  refine List.flatMap_congr fun s _ => ?_
  have nothing : bytes "" = [] := rfl
  cases hs : s.var with
  | none => simp [nothing]
  | some i => simp [carried]

end Block

open Block

/-- The block `b` at `path` is the one of the template `t`, and has the values of a valuation; nothing
nested in it has been reached. -/
structure Fits (path : List String) (t : Block) (values : Valuation) (b : Block) : Prop where
  pristine : b.pristine = t.pristine
  valued : b.Valued path values
  below : ∀ c ∈ b.children, c.Dormant

namespace Fits

variable {path : List String} {t b : Block} {values values' : Valuation}

theorem names (h : Fits path t values b) : b.vars.names = t.vars.names := by
  refine Variables.names_eq_of_pristine_eq ?_
  rw [← vars_pristine, h.pristine, vars_pristine]

theorem gapBytes (h : Fits path t values b) (k : Nat) : b.gapBytes k = t.gapUnder (values path) k := by
  have gaps : b.gaps = t.gaps := by rw [← gaps_pristine, h.pristine, gaps_pristine]
  exact gapBytes_eq_gapUnder h.names gaps (valued_iff.1 h.valued).1 k

theorem length_children (h : Fits path t values b) : b.children.length = t.children.length := by
  have := congrArg List.length (children_eq_of_pristine_eq h.pristine)
  rwa [List.length_map, List.length_map] at this

/-- A block's own state is no matter. -/
theorem state (h : Fits path t values b) (s : State) : Fits path t values { b with state := s } :=
  ⟨(pristine_state b s).trans h.pristine, valued_iff.2 ((valued_iff (b := b)).1 h.valued), h.below⟩

/-- Nested blocks fit those of the template. -/
theorem child {c : Block} {k : Nat} (h : Fits path t values b) (named : t.WellNamed)
    (here : t.children[k]? = some c) :
    ∃ d, b.children[k]? = some d ∧ b.childIndex? (c.name.getD "") = some k ∧
      Fits (path ++ [c.name.getD ""]) c values d := by
  have children := congrArg (·[k]?) (children_eq_of_pristine_eq h.pristine)
  simp only [List.getElem?_map, here, Option.map_some] at children
  obtain ⟨d, child, pristine⟩ := Option.map_eq_some_iff.1 children
  have index : b.childIndex? (c.name.getD "") = some k := by
    rw [childIndex?_of_pristine_eq h.pristine]
    exact named.childIndex? here
  refine ⟨d, child, index, pristine, (valued_iff.1 h.valued).2 _ k d index child, fun e he => ?_⟩
  exact (h.below d (List.mem_of_getElem? child)).child he

/-- A nested block that has been written goes back to its place. -/
theorem put {c d d' : Block} {k : Nat} {name : String} (h : Fits path t values b)
    (index : b.childIndex? name = some k) (child : b.children[k]? = some d) (same : d.pristine = c.pristine)
    (fits : Fits (path ++ [name]) c values' d')
    (frame : ∀ p n, ¬ path ++ [name] <+: p → values' p n = values p n) :
    Fits path t values' (b.modifyChild k fun _ => { d' with state := .out }) := by
  let e : Block := { d' with state := .out }
  have pristine : e.pristine = d.pristine := (pristine_state d' .out).trans (fits.pristine.trans same.symm)
  obtain ⟨own, each⟩ := valued_iff.1 h.valued
  refine ⟨?_, valued_iff.2 ⟨fun x hx => ?_, fun other j a index' child' => ?_⟩, ?_⟩
  · refine (pristine_modifyChild fun c hc => ?_).trans h.pristine
    rw [child] at hc
    cases hc
    exact pristine
  · rw [own x hx, frame path x.name (not_below_nested path name)]
  · rw [childIndex?_modifyChild child (name_eq_of_pristine_eq pristine)] at index'
    rw [children_modifyChild, List.getElem?_modify] at child'
    obtain ⟨x, hx, rfl⟩ := Option.map_eq_some_iff.1 child'
    by_cases here : k = j
    · subst here
      have name_eq := (name_of_childIndex? index child).symm.trans (name_of_childIndex? index' child)
      cases name_eq
      simpa using (fits.state .out).valued
    · have apart : other ≠ name := by
        rintro rfl
        exact here (Option.some.inj (index.symm.trans index'))
      have kept := (each other j x index' hx).congr fun p n (prefix_ : path ++ [other] <+: p) =>
        frame p n fun longer => apart (by
          have := List.prefix_of_prefix_length_le prefix_ longer (by simp)
          simpa using this)
      simpa [here] using kept
  · refine forall_mem_modify (fun _ _ => dormant_of_out fits.below) ?_
    intro j a _ ha
    exact h.below a (List.mem_of_getElem? ha)

end Fits

/-! ## Steps and what they render -/

variable {σ : Type}

/-- The steps of a plan lead from a block that fits the template and has the values of `r` to one that
fits it and has those of `r'`, and write what `r'` has more than `r`. -/
structure Renders (path : List String) (t : Block) (plan : List (Action σ)) (b : Block) (r : Rendering)
    (b' : Block) (r' : Rendering) : Prop where
  performs : Performs path plan b r.out b' r'.out
  fits : Fits path t r'.values b'

theorem Renders.trans {path : List String} {t a b c : Block} {plan more : List (Action σ)} {r r' r'' : Rendering}
    (first : Renders path t plan a r b r') (second : Renders path t more b r' c r'') :
    Renders path t (plan ++ more) a r c r'' :=
  ⟨first.performs.trans second.performs, second.fits⟩

section

variable {path : List String} {t b : Block} {r : Rendering}

/-- A variable of the template can be set. -/
theorem Fits.assign (fits : Fits path t r.values b) (declared : t.WellDeclared) {name : String}
    (known : t.vars.declares name = true) (text : String) :
    ∃ vs, b.vars.assign? name text = some vs ∧
      Fits path t (r.set path name text).values { b with vars := vs } := by
  have own : b.vars.declares name = true := by
    rw [Variables.declares_iff, fits.names, ← Variables.declares_iff, known]
  obtain ⟨i, index⟩ := Option.isSome_iff_exists.1 own
  obtain ⟨vs, assigned⟩ : ∃ vs, b.vars.assign? name text = some vs := by
    rw [Variables.assign?, index]
    exact ⟨_, rfl⟩
  have same : ({ b with vars := vs } : Block).pristine = b.pristine :=
    pristine_congr rfl (Variables.pristine_assign? assigned) rfl rfl rfl
  have distinct : b.vars.names.Nodup :=
    wellDeclared_of_pristine_eq fits.pristine declared b b.self_mem_preorder
  obtain ⟨values, each⟩ := valued_iff.1 fits.valued
  refine ⟨vs, assigned, same.trans fits.pristine, valued_iff.2 ⟨?_, ?_⟩, fits.below⟩
  · intro x hx
    rw [Rendering.values_set_self]
    exact Variables.values_assign? distinct assigned values x hx
  · intro other k c index child
    refine (each other k c index child).congr fun p n below => ?_
    have apart : p ≠ path := by
      rintro rfl
      exact not_below_nested p other below
    simp [Rendering.set, apart]

/-- The step for a field sets what the field is rendered to set. -/
theorem renders_assignment (declared : t.WellDeclared) (fits : Fits path t r.values b)
    (idle : b.state.isActive = false) (label name : String) (entry : Entry) :
    ∃ b', Renders (σ := σ) path t (t.assignment path label name entry) b r b'
      (r.assign path t.vars.names (name, entry)) ∧ b'.state = b.state := by
  have warned (w : Option Misfit) : Performs path
      (w.map fun m => (.warn ⟨label, name, m⟩ entry.typeName : Action σ)).toList b r.out b r.out := by
    cases w with
    | none => exact .done
    | some m => exact .warn _ _ .done
  rw [assignment, Rendering.assign]
  cases entry.text? with
  | none => exact ⟨b, ⟨warned _, fits⟩, rfl⟩
  | some text =>
    dsimp only
    cases known : t.vars.declares name with
    | false =>
      have unknown : name ∉ t.vars.names := by simp [← Variables.declares_iff, known]
      rw [if_neg unknown]
      exact ⟨b, ⟨warned _, fits⟩, rfl⟩
    | true =>
      rw [if_pos (Variables.declares_iff.1 known)]
      obtain ⟨vs, assigned, after⟩ := fits.assign declared known text
      have granted := Granted.set (σ := σ) name text idle
      rw [assigned, Option.getD_some] at granted
      exact ⟨_, ⟨.quiet granted rfl, after⟩, rfl⟩

theorem renders_assignments (declared : t.WellDeclared) (fits : Fits path t r.values b)
    (idle : b.state.isActive = false) (label : String) (fields : Fields) :
    ∃ b', Renders (σ := σ) path t (t.assignments path label fields) b r b'
      (fields.foldl (·.assign path t.vars.names) r) ∧ b'.state = b.state := by
  induction fields generalizing b r with
  | nil => exact ⟨b, ⟨.done, fits⟩, rfl⟩
  | cons field fields ih =>
    obtain ⟨b₁, first, state₁⟩ := renders_assignment declared fits idle label field.1 field.2
    obtain ⟨b', rest, state'⟩ := ih first.fits (state₁ ▸ idle)
    exact ⟨b', first.trans rest, state'.trans state₁⟩

/-! ## Nested blocks -/

/-- The passes over a nested block can be carried out as they are rendered. -/
def Follows (σ : Type) (path : List String) (t : Block) : Prop :=
  ∀ (label : String) (fields : Fields) (r : Rendering) (b : Block), Fits path t r.values b →
    b.state = .ready ∨ b.state = .used →
    ∃ b', Renders (σ := σ) path t (t.passPlan path label .start fields) b r b' (t.pass path fields r) ∧
      b'.state = .used

/-- So can any number of them. -/
theorem Follows.rounds (follows : Follows σ path t) (label : String) (rounds : List Fields)
    (fits : Fits path t r.values b) (waits : b.state = .ready ∨ b.state = .used) :
    ∃ b', Renders (σ := σ) path t (rounds.flatMap fun inner => t.passPlan path label .start inner) b r b'
        (rounds.foldl (fun r inner => t.pass path inner r) r) ∧
      (b.state = .used ∨ rounds ≠ [] → b'.state = .used) := by
  induction rounds generalizing b r with
  | nil => exact ⟨b, ⟨.done, fits⟩, fun h => h.resolve_right (by simp)⟩
  | cons inner rounds ih =>
    obtain ⟨b₁, first, used⟩ := follows label inner r b fits waits
    obtain ⟨b', rest, used'⟩ := ih first.fits (.inr used)
    exact ⟨b', first.trans rest, fun _ => used' (.inl used)⟩

/-- The steps that make the passes over a nested block, or leave it out. -/
def Block.turnPlan (path : List String) (label : String) (rounds : List Fields) (b : Block) : List (Action σ) :=
  if rounds.isEmpty then [.call path label .skip]
  else rounds.flatMap fun inner => b.passPlan path label .start inner

theorem childrenPlan_cons (label : String) (fields : Fields) (c : Block) (cs : List Block) :
    (childrenPlan path label fields (c :: cs) : List (Action σ)) =
      c.turnPlan (path ++ [c.name.getD ""]) (childLabel label (c.name.getD "")) (fields.rounds (c.name.getD "")) ++
        .call path label .next :: childrenPlan path label fields cs := by
  rw [childrenPlan, turnPlan, Fields.rounds_eq]

theorem Follows.turn (follows : Follows σ path t) (nested : t.isRoot = false) (label : String)
    (rounds : List Fields) (fits : Fits path t r.values b) (ready : b.state = .ready) :
    ∃ b', Renders (σ := σ) path t (t.turnPlan path label rounds) b r b'
        (rounds.foldl (fun r inner => t.pass path inner r) r) ∧
      (b'.state = .used ∨ b'.state = .closed) := by
  rw [turnPlan]
  split
  · next none_ =>
    rw [List.isEmpty_iff.1 none_]
    have root : b.isRoot = false := (isRoot_of_pristine_eq fits.pristine).trans nested
    exact ⟨_, ⟨.quiet (.skip root ready) rfl, fits.state .closed⟩, .inr rfl⟩
  · next some_ =>
    obtain ⟨b', all, used⟩ := follows.rounds label rounds fits (.inl ready)
    exact ⟨b', all, .inl (used (.inr (by simpa using some_)))⟩

/-- Behind gap `k`, nested block `k` is written as it is rendered, and the block goes on behind it. -/
theorem renders_child {c : Block} {k : Nat} (named : t.WellNamed) (here : t.children[k]? = some c)
    (follows : Follows σ (path ++ [c.name.getD ""]) c) (fits : Fits path t r.values b)
    (label inner : String) (rounds : List Fields) :
    let r' := rounds.foldl (fun r inner => c.pass (path ++ [c.name.getD ""]) inner r) r
    ∃ b', Fits path t r'.values b' ∧
      Performs (σ := σ) path (c.turnPlan (path ++ [c.name.getD ""]) inner rounds ++ [.call path label .next])
        (b.moveOn k).1 r.out (b'.moveOn (k + 1)).1 (r'.emit (t.gapUnder (r'.values path) (k + 1))).out := by
  intro r'
  obtain ⟨d, child, index, fits_child⟩ := fits.child named here
  have index_ready : (b.moveOn k).1.childIndex? (c.name.getD "") = some k := (childIndex?_moveOn b k _).trans index
  have nested := (named t t.self_mem_preorder).2 c (List.mem_of_getElem? here)
  obtain ⟨d', turn, done⟩ := follows.turn nested inner rounds (fits_child.state .ready) rfl
  -- The nested block is finished, and the block goes on behind it.
  let after := b.modifyChild k fun _ => { d' with state := .out }
  have frame : ∀ p n, ¬ path ++ [c.name.getD ""] <+: p → r'.values p n = r.values p n := fun p n apart =>
    rounds_frame (fun fields r => pass_frame c fields r apart) rounds r
  have fits_after : Fits path t r'.values after := fits.put index child fits_child.pristine turn.fits frame
  have output : ((b.moveOn k).1.modifyChild k fun _ => d').output (.next : Call σ) =
      t.gapUnder (r'.values path) (k + 1) := by
    rw [output_behind child, fits.gapBytes, rounds_own]
  refine ⟨after, fits_after, (turn.performs.nested index_ready (getElem?_moveOn child)).trans ?_⟩
  rw [Rendering.out_emit, ← output]
  exact .single (.next_behind child done) nofun

/-- Behind gap `k`, the nested blocks from `k` on are written as they are rendered. -/
theorem renders_children {k : Nat} (named : t.WellNamed)
    (each : ∀ c ∈ t.children, Follows σ (path ++ [c.name.getD ""]) c) (fits : Fits path t r.values b)
    (label : String) (fields : Fields) :
    ∃ b', Renders (σ := σ) path t (childrenPlan path label fields (t.children.drop k)) (b.moveOn k).1 r b'
        (passEach path fields (t.gapUnder (r.values path)) (k + 1) r (t.children.drop k)) ∧
      b'.state = .used := by
  induction left : t.children.length - k generalizing b k r with
  | zero =>
    have beyond : t.children.length ≤ k := by omega
    rw [List.drop_eq_nil_of_le beyond, moveOn_eq, if_neg (by rw [fits.length_children]; omega)]
    exact ⟨_, ⟨.done, fits.state .used⟩, rfl⟩
  | succ n ih =>
    have lt : k < t.children.length := by omega
    have here : t.children[k]? = some t.children[k] := List.getElem?_eq_getElem lt
    have mem := List.getElem_mem lt
    let c := t.children[k]
    let name := c.name.getD ""
    obtain ⟨b₁, fits₁, first⟩ := renders_child named here (each c mem) fits label (childLabel label name)
      (fields.rounds name)
    let r₁ := (fields.rounds name).foldl (fun r inner => c.pass (path ++ [name]) inner r) r
    have own : r₁.values path = r.values path := rounds_own path name c _ r
    obtain ⟨b', rest, used⟩ :=
      ih (r := r₁.emit (t.gapUnder (r₁.values path) (k + 1))) (k := k + 1) fits₁ (by omega)
    have both : Renders path t _ _ r b' _ := ⟨first.trans rest.performs, rest.fits⟩
    rw [Rendering.values_emit, own, List.append_assoc] at both
    rw [List.drop_eq_getElem_cons lt, childrenPlan_cons, passEach]
    exact ⟨b', both, used⟩

/-- Behind its first gap, a block is written as it is rendered. -/
theorem renders_begun (named : t.WellNamed) (each : ∀ c ∈ t.children, Follows σ (path ++ [c.name.getD ""]) c)
    (label : String) (fields : Fields) {set : Rendering}
    (rendered : set = fields.foldl (·.assign path t.vars.names) r) (fits : Fits path t set.values b) :
    ∃ b', Performs (σ := σ) path (childrenPlan path label fields t.children) (b.moveOn 0).1
        (set.out ++ b.gapBytes 0) b' (t.pass path fields r).out ∧
      Fits path t (t.pass path fields r).values b' ∧ b'.state = .used := by
  obtain ⟨b', rest, used⟩ :=
    renders_children (r := set.emit (t.gapUnder (set.values path) 0)) (k := 0) named each fits label fields
  rw [List.drop_zero, Rendering.values_emit, Nat.zero_add] at rest
  rw [pass_eq, fits.gapBytes, ← rendered]
  exact ⟨b', rest.performs, rest.fits, used⟩

/-- Every nested block can be written as it is rendered. -/
theorem follows (named : t.WellNamed) (declared : t.WellDeclared) (nested : t.isRoot = false)
    (path : List String) : Follows σ path t := by
  induction t using nestInduction generalizing path with
  | nest t ih =>
    intro label fields r b fits waits
    have each : ∀ c ∈ t.children, Follows σ (path ++ [c.name.getD ""]) c := fun c hc =>
      ih c hc (named.child hc) (declared.child hc) ((named t t.self_mem_preorder).2 c hc) _
    have idle : b.state.isActive = false := by
      rcases waits with e | e <;> rw [e] <;> rfl
    obtain ⟨b₁, set, state⟩ := renders_assignments (σ := σ) declared fits idle label fields
    have root : b₁.isRoot = false := (isRoot_of_pristine_eq set.fits.pristine).trans nested
    have start : Granted b₁ (.start : Call σ) (b₁.moveOn 0).1 := .start root (state ▸ waits)
    obtain ⟨b', rest, fits', used⟩ := renders_begun (σ := σ) named each label fields rfl set.fits
    rw [passPlan_eq]
    exact ⟨b', ⟨set.performs.trans ((Performs.single start nofun).trans rest), fits'⟩, used⟩

end

/-! ## Whole templates -/

namespace Page

/-- What the steps that fill a page which is not being written lead to, up to the check at their end: the
fields are assigned, and behind the first gap the template is written as it is rendered. -/
theorem Sound.renders {root : Block} {p : Page σ} (sound : Sound root p) (fresh : Template.Fresh root)
    (declared : root.WellDeclared) (idle : p.root.state.isActive = false) (fields : Fields) :
    let rendered := p.root.pass [] fields ⟨[], p.root.valuation⟩
    ∃ b last, Performs [] (p.root.assignments [] rootLabel fields : List (Action σ)) p.root [] b [] ∧
      b.state.isActive = false ∧
      Performs [] (childrenPlan [] rootLabel fields p.root.children : List (Action σ)) (b.moveOn 0).1
        (b.gapBytes 0) last rendered.out ∧
      Fits [] p.root rendered.values last ∧ last.state = .used := by
  have named := sound.named fresh
  have declared : p.root.WellDeclared := by
    refine wellDeclared_of_pristine_eq ?_ declared
    rw [sound.pristine, fresh.pristine]
  have fits : Fits [] p.root p.root.valuation p.root :=
    ⟨rfl, valued_valuation declared, sound.chained.below_idle idle⟩
  obtain ⟨b, set, state⟩ :=
    renders_assignments (σ := σ) (r := ⟨[], p.root.valuation⟩) declared fits idle rootLabel fields
  have each : ∀ c ∈ p.root.children, Follows σ ([] ++ [c.name.getD ""]) c := fun c hc =>
    follows (named.child hc) (declared.child hc) ((named p.root p.root.self_mem_preorder).2 c hc) _
  obtain ⟨last, written, fits_last, used⟩ := renders_begun (σ := σ) named each rootLabel fields rfl set.fits
  have assigned := set.performs
  rw [out_assigns] at assigned written
  exact ⟨b, last, assigned, state ▸ idle, written, fits_last, used⟩

variable [Sink σ] {fine : σ → Prop} {seen : σ → List UInt8}

/-- Over a sink that never fails, a page that is not being written is filled: the new sink alone is served and
receives what the template is rendered to, and the template is left written, with the values of the rendering. -/
theorem Sound.filled (steady : Sink.Steady fine seen) {root : Block} {p : Page σ} {s : σ} (sound : Sound root p)
    (fresh : Template.Fresh root) (declared : root.WellDeclared) (idle : p.root.state.isActive = false)
    (good : fine s) (fields : Fields) :
    let filled := p.fill fields s
    let rendered := p.root.pass [] fields ⟨[], p.root.valuation⟩
    (∃ ws, filled.result = .ok ws) ∧
    (∃ t, filled.page.sink = some t ∧ Sink.Served s filled.events t ∧ seen t = seen s ++ rendered.out) ∧
    Fits [] p.root rendered.values filled.page.root ∧ filled.page.root.state = .used := by
  intro filled rendered
  obtain ⟨b, last, assigned, idle', written, fits_last, used⟩ := sound.renders fresh declared idle fields
  obtain ⟨ok, root_eq, received⟩ :=
    fill_of_performs steady (sound.isRoot fresh) assigned idle' good written used
  exact ⟨ok, received, root_eq ▸ fits_last, root_eq ▸ used⟩

/-- **Filling writes what the data means.** On every page that is reached and is not being written, for
every data and every sink that never fails, a template can be filled. The new sink is then bound; it alone
was served, and has received what the data renders to with the values the page had. All variables have the
values that are left by the rendering, the root is written, and everything nested in it is out again. -/
theorem fill_as_rendered (steady : Sink.Steady fine seen) {source : String} {file : Nat} {root : Block}
    {p : Page σ} {s : σ} (parsed : Template.parse source file = .ok root) (reached : Reachable root p)
    (idle : p.root.state.isActive = false) (good : fine s) (fields : Fields) :
    let filled := p.fill fields s
    let rendered := p.root.pass [] fields ⟨[], p.root.valuation⟩
    (∃ ws, filled.result = .ok ws) ∧
    (∃ t, filled.page.sink = some t ∧ Sink.Served s filled.events t ∧ seen t = seen s ++ rendered.out) ∧
    filled.page.root.Valued [] rendered.values ∧
    filled.page.root.state = .used ∧ ∀ c ∈ filled.page.root.children, c.Dormant := by
  intro filled rendered
  have fresh := Template.fresh_of_parse parsed
  obtain ⟨ok, received, fits, used⟩ :=
    (reached.sound fresh).filled steady fresh (Template.wellDeclared_of_parse parsed) idle good fields
  exact ⟨ok, received, fits.valued, used, fits.below⟩

/-- A second filling: values of the first one are written until others are given, and from one pass to the
next. -/
theorem fill_as_rendered_again :
    ∃ (root : Block) (p : Page Buffer),
      Template.parse "<!--rep var=x place=X-->X<!--rep blk=b--><!--rep var=y place=Y-->Y<!--/rep-->" 0 = .ok root ∧
      Reachable root p ∧ p.root.states = [.used, .out] ∧ p.root.values = [[("x", "v")], [("y", "1")]] ∧
      ∃ t, (p.fill [("b", .repeated [[], [("y", .text "2")], []])] Buffer.empty).page.sink = some t ∧
        t.taken.toList = bytes "v122" := by
  let root : Block := ⟨none, ⟨[⟨"x", "X", "X", ⟨0, 24⟩⟩]⟩, [[⟨"", none⟩, ⟨"", some 0⟩, ⟨"", none⟩], [⟨"", none⟩]],
    [⟨some "b", ⟨[⟨"y", "Y", "Y", ⟨41, 65⟩⟩]⟩, [[⟨"", none⟩, ⟨"", some 0⟩, ⟨"", none⟩]], [], ⟨25, 77⟩, .out⟩],
    ⟨0, 77⟩, .out⟩
  let p : Page Buffer := ((Page.ofTemplate root).fill [("b", .once [("y", .text "1")]), ("x", .text "v")]
    Buffer.empty).page
  have parsed : Template.parse
      "<!--rep var=x place=X-->X<!--rep blk=b--><!--rep var=y place=Y-->Y<!--/rep-->" 0 = .ok root := by
    with_unfolding_all rfl
  have reached : Reachable root p := Reachable.fresh.fill _ _
  have idle : p.root.state.isActive = false := by decide +kernel
  obtain ⟨-, ⟨t, bound, -, received⟩, -⟩ := fill_as_rendered Buffer.steady parsed reached idle
    (s := Buffer.empty) trivial [("b", .repeated [[], [("y", .text "2")], []])]
  refine ⟨root, p, parsed, reached, by decide +kernel, by decide +kernel, t, bound, received.trans ?_⟩
  decide +kernel

end Page

end Stencil
