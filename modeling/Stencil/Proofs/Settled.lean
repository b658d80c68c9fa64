import Stencil.Proofs.Warned

/-!
# Filling a template over and over

Which variables a filling sets, and to what, is a matter of the template and the data: every pass sets the
variables of its block that its fields name, and the last text a variable is given stays (`Valuation.after`).
To fill a template once more with the same data therefore changes nothing, and from the second time on the
same is written (`Page.fillings_settle`).
-/

namespace Stencil

open Text Block

/-! ## What passes set -/

/-- The variables that a pass sets, with their texts, in the order of its fields. -/
def Visit.sets (v : Visit) : List (String × String) :=
  v.fields.filterMap fun (name, entry) => if name ∈ v.block.vars.names then entry.text?.map (name, ·) else none

/-- The text that some passes last give to a variable of the block at `path`. -/
def lastText? (passes : List Visit) (path : List String) (name : String) : Option String :=
  ((passes.filter (·.path = path)).flatMap Visit.sets).reverse.lookup name

/-- The values behind some passes: the last text of each variable, or the value it had. -/
def Valuation.after (values : Valuation) (passes : List Visit) : Valuation := fun path name =>
  (lastText? passes path name).getD (values path name)

theorem lastText?_append (xs ys : List Visit) (path : List String) (name : String) :
    lastText? (xs ++ ys) path name = (lastText? ys path name).or (lastText? xs path name) := by
  rw [lastText?, List.filter_append, List.flatMap_append, List.reverse_append, List.lookup_append]
  rfl

namespace Valuation

theorem after_append (values : Valuation) (xs ys : List Visit) :
    values.after (xs ++ ys) = (values.after xs).after ys := by
  funext path name
  rw [after, after, after, lastText?_append]
  cases lastText? ys path name <;> rfl

/-- Passes that are made again leave all values. -/
theorem after_after (values : Valuation) (passes : List Visit) :
    (values.after passes).after passes = values.after passes := by
  funext path name
  rw [after, after]
  cases lastText? passes path name <;> rfl

end Valuation

namespace Block

theorem lastText?_single (v : Visit) (path : List String) (name : String) :
    lastText? [v] path name = if v.path = path then v.sets.reverse.lookup name else none := by
  rw [lastText?, List.filter_singleton]
  by_cases here : v.path = path <;> simp [here]

/-- Of the fields of one pass the later ones count first. -/
theorem lastText?_cons (b : Block) (path : List String) (field : String × Entry) (fields : Fields) (p : List String)
    (n : String) :
    lastText? [⟨path, b, field :: fields⟩] p n =
      (lastText? [⟨path, b, fields⟩] p n).or (lastText? [⟨path, b, [field]⟩] p n) := by
  have sets : Visit.sets ⟨path, b, field :: fields⟩ = Visit.sets ⟨path, b, [field]⟩ ++ Visit.sets ⟨path, b, fields⟩ :=
    List.filterMap_append (l := [field])
  rw [lastText?_single, lastText?_single, lastText?_single, sets, List.reverse_append, List.lookup_append]
  by_cases here : path = p <;> simp [here]

/-- A field is assigned as a pass with this field alone sets it. -/
theorem values_assign (b : Block) (path : List String) (field : String × Entry) (r : Rendering) :
    (r.assign path b.vars.names field).values = r.values.after [⟨path, b, [field]⟩] := by
  obtain ⟨name, entry⟩ := field
  funext p n
  rw [Rendering.assign, Valuation.after, lastText?_single, Visit.sets, List.filterMap_cons, List.filterMap_nil]
  cases text : entry.text? with
  | none => simp [text]
  | some value =>
    by_cases known : name ∈ b.vars.names
    · simp only [known, if_true, text, Option.map_some, List.reverse_singleton, Rendering.set, eq_comm (a := p)]
      by_cases here : path = p
      · by_cases same : n = name
        · simp [here, same]
        · simp [here, same, List.lookup_cons, beq_false_of_ne same]
      · simp [here]
    · simp [known]

/-- The fields of a pass leave the values behind it. -/
theorem values_assigns (b : Block) (path : List String) (fields : Fields) (r : Rendering) :
    (fields.foldl (·.assign path b.vars.names) r).values = r.values.after [⟨path, b, fields⟩] := by
  induction fields generalizing r with
  | nil =>
    funext p n
    rw [Valuation.after, lastText?_single]
    split <;> rfl
  | cons field fields ih =>
    rw [List.foldl_cons, ih, values_assign]
    funext p n
    rw [Valuation.after, Valuation.after, Valuation.after, lastText?_cons b path field fields]
    cases lastText? [⟨path, b, fields⟩] p n <;> rfl

/-- A pass, with the passes over everything nested in it, leaves the values behind all of them. -/
theorem values_pass (b : Block) (path : List String) (fields : Fields) (r : Rendering) :
    (b.pass path fields r).values = r.values.after (b.visits path fields) := by
  induction b using rowInduction (fun cs => ∀ path fields gap k r,
    (passEach path fields gap k r cs).values = r.values.after (visitsAll path fields cs))
    generalizing path fields r with
  | nest b ih =>
    rw [pass_eq, ih, Rendering.values_emit, values_assigns, ← Valuation.after_append, visits_eq]
    rfl
  | nil => rfl
  | cons c cs first others path fields gap k r =>
    have rounds (rounds : List Fields) (below : List String) (r : Rendering) :
        (rounds.foldl (fun r inner => c.pass below inner r) r).values =
          r.values.after (rounds.flatMap fun inner => c.visits below inner) := by
      induction rounds generalizing r with
      | nil => rfl
      | cons inner rounds ih =>
        rw [List.foldl_cons, ih, first, ← Valuation.after_append, List.flatMap_cons]
    rw [passEach, others, Rendering.values_emit, rounds, ← Valuation.after_append, visitsAll]

/-- A pass over a tree as it was read is one over the tree. -/
theorem pass_pristine (b : Block) (path : List String) (fields : Fields) (r : Rendering) :
    b.pristine.pass path fields r = b.pass path fields r := by
  induction b using rowInduction (fun cs => ∀ path fields gap k r,
    passEach path fields gap k r (cs.map pristine) = passEach path fields gap k r cs)
    generalizing path fields r with
  | nest b ih =>
    have gap (value : String → String) : b.pristine.gapUnder value = b.gapUnder value := by
      funext k
      rw [gapUnder, gapUnder, Block.gap, Block.gap, gaps_pristine, vars_pristine, Variables.names_pristine]
    rw [pass_eq, pass_eq, vars_pristine, Variables.names_pristine, children_pristine]
    simp only [gap, ih]
  | nil => rfl
  | cons c cs first others path fields gap k r =>
    rw [List.map_cons, passEach, passEach, name_pristine]
    simp only [first, others]

end Block

/-! ## The values of a page -/

/-- Tables that were read as the same and have the values of a function are the same. -/
theorem Variables.eq_of_values {vs ws : Variables} {value : String → String} (same : vs.pristine = ws.pristine)
    (hv : ∀ x ∈ vs.entries, x.value = value x.name) (hw : ∀ x ∈ ws.entries, x.value = value x.name) : vs = ws := by
  have entries : vs.entries = ws.entries := by
    apply List.ext_getElem?
    intro i
    have here := congrArg (fun t : Variables => t.entries[i]?) same
    simp only [pristine, List.getElem?_map] at here
    cases hx : vs.entries[i]? with
    | none =>
      rw [hx, Option.map_none] at here
      exact (Option.map_eq_none_iff.1 here.symm).symm
    | some x =>
      rw [hx, Option.map_some] at here
      obtain ⟨y, hy, alike⟩ := Option.map_eq_some_iff.1 here.symm
      injection alike with name placeholder _ span
      have values : y.value = x.value := by
        rw [hw y (List.mem_of_getElem? hy), hv x (List.mem_of_getElem? hx), name]
      rw [hy]
      cases x
      cases y
      cases name
      cases placeholder
      cases span
      cases values
      rfl
  cases vs
  cases ws
  cases entries
  rfl

namespace Block

/-- Names lead to the same blocks in a tree as it was read. -/
theorem descend?_pristine (b : Block) (path : List String) :
    b.pristine.descend? path = (b.descend? path).map pristine := by
  induction path generalizing b with
  | nil => rfl
  | cons name path ih =>
    have index : b.pristine.childIndex? name = b.childIndex? name :=
      childIndex?_congr (by simp [Function.comp_def]) name
    rw [descend?, descend?, index]
    cases b.childIndex? name with
    | none => rfl
    | some k =>
      simp only [children_pristine, List.getElem?_map]
      cases b.children[k]? with
      | none => rfl
      | some c => exact ih c

/-- What a tree declares was read. -/
theorem declared_of_pristine_eq {a b d : Block} {path : List String} (same : a.pristine = b.pristine)
    (target : a.descend? path = some d) : ∃ e, b.descend? path = some e ∧ e.vars.names = d.vars.names := by
  have both : (b.descend? path).map pristine = some d.pristine := by
    rw [← descend?_pristine, ← same, descend?_pristine, target, Option.map_some]
  obtain ⟨e, target', alike⟩ := Option.map_eq_some_iff.1 both
  refine ⟨e, target', Variables.names_eq_of_pristine_eq ?_⟩
  rw [← vars_pristine, alike, vars_pristine]

/-- A tree gives nothing to what it does not declare. -/
theorem valuation_of_unknown {b : Block} {path : List String} {name : String}
    (unknown : ∀ d, b.descend? path = some d → name ∉ d.vars.names) : b.valuation path name = "" := by
  rw [valuation]
  cases target : b.descend? path with
  | none => rfl
  | some d =>
    have none_ : d.vars.entries.find? (·.name = name) = none := by
      refine List.find?_eq_none.2 fun x hx same => unknown d target ?_
      exact List.mem_map.2 ⟨x, hx, by simpa using same⟩
    rw [Option.bind_some, none_]
    rfl

/-- The values of a tree are those of a valuation that gives nothing to what it does not declare. -/
theorem Valued.valuation_eq {b : Block} {values : Valuation} (declared : b.WellDeclared) (h : b.Valued [] values)
    (nothing : ∀ path name, (∀ d, b.descend? path = some d → name ∉ d.vars.names) → values path name = "") :
    b.valuation = values := by
  funext path name
  by_cases known : ∃ d, b.descend? path = some d ∧ name ∈ d.vars.names
  · obtain ⟨d, target, known⟩ := known
    obtain ⟨x, hx, rfl⟩ := List.mem_map.1 known
    exact (valued_valuation declared path d target x hx).symm.trans (h path d target x hx)
  · have unknown : ∀ d, b.descend? path = some d → name ∉ d.vars.names := fun d target mem =>
      known ⟨d, target, mem⟩
    rw [nothing path name unknown, valuation_of_unknown unknown]

/-- Passes set nothing that the tree does not declare. -/
theorem lastText?_of_unknown {b : Block} (named : b.WellNamed) (fields : Fields) {path : List String} {name : String}
    (unknown : ∀ d, b.descend? path = some d → name ∉ d.vars.names) :
    lastText? (b.visits [] fields) path name = none := by
  rw [lastText?, List.lookup_eq_none_iff]
  intro set mem
  obtain ⟨v, visited, mem⟩ := List.mem_flatMap.1 (List.mem_reverse.1 mem)
  obtain ⟨visited, here⟩ := List.mem_filter.1 visited
  obtain ⟨below, path_eq, target⟩ := descend?_of_mem_visits named visited
  have here : v.path = path := by simpa using here
  rw [List.nil_append] at path_eq
  obtain ⟨⟨field, entry⟩, -, made⟩ := List.mem_filterMap.1 mem
  simp only at made
  split at made
  · next known =>
    obtain ⟨text, -, rfl⟩ := Option.map_eq_some_iff.1 made
    rw [bne_iff_ne]
    rintro rfl
    exact unknown v.block (here ▸ path_eq ▸ target) known
  · cases made

end Block

/-- The template and the values leave no choice but the state of the block. -/
theorem Fits.unique {path : List String} {t a b : Block} {values : Valuation} (named : t.WellNamed)
    (ha : Fits path t values a) (hb : Fits path t values b) (state : a.state = b.state) : a = b := by
  induction t using nestInduction generalizing path a b with
  | nest t ih =>
    have same : a.pristine = b.pristine := ha.pristine.trans hb.pristine.symm
    have children : a.children = b.children := by
      apply List.ext_getElem?
      intro k
      cases here : t.children[k]? with
      | none =>
        have beyond := List.getElem?_eq_none_iff.1 here
        rw [List.getElem?_eq_none (ha.length_children ▸ beyond), List.getElem?_eq_none (hb.length_children ▸ beyond)]
      | some c =>
        obtain ⟨d, child, -, fits⟩ := ha.child named here
        obtain ⟨e, child', -, fits'⟩ := hb.child named here
        have mem := List.mem_of_getElem? here
        have out : d.state = e.state := (ha.below d (List.mem_of_getElem? child)).state.trans
          (hb.below e (List.mem_of_getElem? child')).state.symm
        rw [child, child', ih c mem (named.child mem) fits fits' out]
    rw [pristine_eq, pristine_eq] at same
    injection same with name vars gaps _ span
    have vars := Variables.eq_of_values vars (valued_iff.1 ha.valued).1 (valued_iff.1 hb.valued).1
    cases a
    cases b
    cases name
    cases vars
    cases gaps
    cases children
    cases span
    cases state
    rfl

/-! ## One filling after the other -/

namespace Page

variable {σ : Type} [Sink σ]

/-- Fills the template once for each sink, always from the same data. -/
def fillings (p : Page σ) (fields : Fields) : List σ → List (Filled σ)
  | [] => []
  | s :: more => p.fill fields s :: (p.fill fields s).page.fillings fields more

/-- A filling gives some warnings, and serves the new sink alone, which receives some bytes. -/
structure Filled.Writes (filled : Filled σ) (seen : σ → List UInt8) (s : σ) (warnings : List Warning)
    (bytes : List UInt8) : Prop where
  result : filled.result = .ok warnings
  received : ∃ t, filled.page.sink = some t ∧ Sink.Served s filled.events t ∧ seen t = seen s ++ bytes

variable {fine : σ → Prop} {seen : σ → List UInt8} {root : Block} {p : Page σ}

/-- One filling: what it writes is rendered with the values the page had, and it leaves the values behind the
passes. -/
theorem Sound.filled_after (steady : Sink.Steady fine seen) (sound : Sound root p) (fresh : Template.Fresh root)
    (declared : root.WellDeclared) (idle : p.root.state.isActive = false) {s : σ} (good : fine s) (fields : Fields) :
    let passes := root.visits [] fields
    let filled := p.fill fields s
    filled.Writes seen s (passes.flatMap Visit.warnings) (root.pass [] fields ⟨[], p.root.valuation⟩).out ∧
    Fits [] root (p.root.valuation.after passes) filled.page.root ∧ filled.page.root.state = .used ∧
    filled.page.root.valuation = p.root.valuation.after passes := by
  intro passes filled
  have same : p.root.pristine = root.pristine := sound.pristine.trans fresh.pristine.symm
  have pass : p.root.pass [] fields ⟨[], p.root.valuation⟩ = root.pass [] fields ⟨[], p.root.valuation⟩ := by
    rw [← pass_pristine p.root, same, pass_pristine]
  obtain ⟨-, received, fits, used⟩ := sound.filled steady fresh declared idle good fields
  rw [pass] at received fits
  rw [values_pass] at fits
  have fits : Fits [] root (p.root.valuation.after passes) filled.page.root :=
    ⟨fits.pristine.trans same, fits.valued, fits.below⟩
  refine ⟨⟨sound.result_fill steady fresh declared idle good fields, received⟩, fits, used, ?_⟩
  refine fits.valued.valuation_eq (wellDeclared_of_pristine_eq fits.pristine declared) fun path name unknown => ?_
  have missing (b : Block) (read : b.pristine = root.pristine) :
      ∀ d, b.descend? path = some d → name ∉ d.vars.names := by
    intro d target mem
    obtain ⟨e, target', names⟩ := declared_of_pristine_eq (read.trans fits.pristine.symm) target
    exact unknown e target' (names ▸ mem)
  rw [Valuation.after, lastText?_of_unknown fresh.named fields (missing root rfl), Option.getD_none,
    valuation_of_unknown (missing p.root same)]

/-- Fillings of a page with values that the passes leave as they are: each writes the same, and none changes
the template. -/
theorem Reachable.fillings_after (steady : Sink.Steady fine seen) (fresh : Template.Fresh root)
    (declared : root.WellDeclared) {fields : Fields} (reached : Reachable root p)
    (fits : Fits [] root p.root.valuation p.root) (used : p.root.state = .used)
    (stable : p.root.valuation.after (root.visits [] fields) = p.root.valuation) {sinks : List σ}
    (good : ∀ s ∈ sinks, fine s) :
    List.Forall₂ (fun s filled => filled.page.root = p.root ∧
      filled.Writes seen s ((root.visits [] fields).flatMap Visit.warnings)
        (root.pass [] fields ⟨[], p.root.valuation⟩).out) sinks (p.fillings fields sinks) := by
  induction sinks generalizing p with
  | nil => exact .nil
  | cons s more ih =>
    have idle : p.root.state.isActive = false := by rw [used]; rfl
    obtain ⟨writes, fits', used', -⟩ :=
      (reached.sound fresh).filled_after steady fresh declared idle (good s List.mem_cons_self) fields
    rw [stable] at fits'
    have same : (p.fill fields s).page.root = p.root := fits'.unique fresh.named fits (used'.trans used.symm)
    have later := ih (reached.fill fields s)
    rw [same] at later
    exact .cons ⟨same, writes⟩ (later fits used stable fun t ht => good t (List.mem_cons_of_mem _ ht))

/-- **Filling again settles.** On every page that is reached and is not being written, for all data and over
sinks that never fail: the first filling, which starts from the values the page has, leaves each variable with
the text that its passes last give it, in their order, or with the value it had if none does. Every later
filling with the same data leaves the template, and with it all values, as the first one did. All give the
same warnings; what the first one writes is rendered with the values from before, and what all others write,
each to its own sink, with the values it left. -/
theorem fillings_settle (steady : Sink.Steady fine seen) {source : String} {file : Nat}
    (parsed : Template.parse source file = .ok root) (reached : Reachable root p)
    (idle : p.root.state.isActive = false) (fields : Fields) {s : σ} {more : List σ} (good : fine s)
    (all_good : ∀ t ∈ more, fine t) :
    let passes := root.visits [] fields
    let warnings := passes.flatMap Visit.warnings
    let before := p.root.valuation
    let first := p.fill fields s
    first.Writes seen s warnings (root.pass [] fields ⟨[], before⟩).out ∧
    (∀ path d, first.page.root.descend? path = some d → ∀ x ∈ d.vars.entries,
      x.value = (lastText? passes path x.name).getD (before path x.name)) ∧
    List.Forall₂ (fun t again => again.page.root = first.page.root ∧
      again.Writes seen t warnings (root.pass [] fields ⟨[], before.after passes⟩).out)
      more (first.page.fillings fields more) := by
  intro passes warnings before first
  have fresh := Template.fresh_of_parse parsed
  have declared := Template.wellDeclared_of_parse parsed
  have sound := reached.sound fresh
  obtain ⟨writes, fits, used, values⟩ := sound.filled_after steady fresh declared idle good fields
  refine ⟨writes, fun path d => fits.valued path d, ?_⟩
  have later := (reached.fill fields s).fillings_after steady fresh declared (values.symm ▸ fits) used
    (by rw [values, Valuation.after_after]) all_good
  rwa [values] at later

/-- A block that is first written with its placeholder, and in later fillings with the value that was given to
it last. -/
theorem fillings_settle_three :
    ∃ (root : Block) (p : Page Buffer) (data : Fields),
      Template.parse "<!--rep var=x place=X-->X<!--rep blk=b--><!--rep var=y place=Y-->Y<!--/rep-->" 0 = .ok root ∧
      Reachable root p ∧ p.root.states = [.used, .out] ∧ p.root.values = [[("x", "v")], [("y", "Y")]] ∧
      data = [("b", .repeated [[], [("y", .text "2"), ("z", .int 1)]])] ∧
      let first := p.fill data Buffer.empty
      first.Writes (·.taken.toList) Buffer.empty [⟨"b", "z", .unknownField⟩] (bytes "vY2") ∧
      first.page.root.values = [[("x", "v")], [("y", "2")]] ∧
      List.Forall₂ (fun t again => again.page.root = first.page.root ∧
        again.Writes (·.taken.toList) t [⟨"b", "z", .unknownField⟩] (bytes "v22"))
        [Buffer.empty, Buffer.empty] (first.page.fillings data [Buffer.empty, Buffer.empty]) := by
  let root : Block := ⟨none, ⟨[⟨"x", "X", "X", ⟨0, 24⟩⟩]⟩, [[⟨"", none⟩, ⟨"", some 0⟩, ⟨"", none⟩], [⟨"", none⟩]],
    [⟨some "b", ⟨[⟨"y", "Y", "Y", ⟨41, 65⟩⟩]⟩, [[⟨"", none⟩, ⟨"", some 0⟩, ⟨"", none⟩]], [], ⟨25, 77⟩, .out⟩],
    ⟨0, 77⟩, .out⟩
  let data : Fields := [("b", .repeated [[], [("y", .text "2"), ("z", .int 1)]])]
  let p : Page Buffer := ((Page.ofTemplate root).fill [("x", .text "v")] Buffer.empty).page
  have parsed : Template.parse
      "<!--rep var=x place=X-->X<!--rep blk=b--><!--rep var=y place=Y-->Y<!--/rep-->" 0 = .ok root := by
    with_unfolding_all rfl
  have reached : Reachable root p := Reachable.fresh.fill _ _
  have idle : p.root.state.isActive = false := by decide +kernel
  have fine : ∀ t ∈ [Buffer.empty, Buffer.empty], True := fun _ _ => trivial
  obtain ⟨writes, -, later⟩ := fillings_settle Buffer.steady parsed reached idle data (s := Buffer.empty) trivial fine
  have warned : (root.visits [] data).flatMap Visit.warnings = [⟨"b", "z", .unknownField⟩] := by decide +kernel
  have before : (root.pass [] data ⟨[], p.root.valuation⟩).out = bytes "vY2" := by decide +kernel
  have behind : (root.pass [] data ⟨[], p.root.valuation.after (root.visits [] data)⟩).out = bytes "v22" := by
    decide +kernel
  rw [warned] at writes later
  rw [before] at writes
  rw [behind] at later
  exact ⟨root, p, data, parsed, reached, by decide +kernel, by decide +kernel, rfl, writes, by decide +kernel, later⟩

end Page

end Stencil
