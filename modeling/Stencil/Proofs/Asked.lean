import Stencil.Command.Arguments

/-!
# Asking for a rendering

Every request to render can be made from the command line, whatever its texts are: `arguments` spells each
option by its name, a value behind an equals sign, and the file behind the mark that ends the options
(`parse_arguments`).
-/

namespace Stencil.Command

/-- An option by its name, with a value behind its equals sign. -/
def spelled (name value : String) : String := "--" ++ name ++ "=" ++ value

/-- An option by its name alone, if it is to be on. -/
def spelledFlag (name : String) (on : Bool) : List String := if on then ["--" ++ name] else []

/-- One way to ask for what a request says. -/
def RenderRequest.arguments (r : RenderRequest) : List String :=
  "render" :: (r.data.toList.map (spelled "data") ++ (r.assignments.map (spelled "set") ++
    (r.output.toList.map (spelled "output") ++ (spelledFlag "check" r.check ++ (spelledFlag "tree" r.tree ++
      (spelledFlag "list-blocks" r.listBlocks ++ (spelledFlag "quiet" r.quiet ++
        (spelledFlag "verbose" r.verbose ++ ["--", r.file]))))))))

theorem ofString_spelled {name : String} (value : String) (plain : '=' ∉ name.toList) :
    Argument.ofString (spelled name value) = .long name (some value) := by
  have text : (spelled name value).toList = '-' :: '-' :: (name.toList ++ '=' :: value.toList) := by simp [spelled]
  have passed : ∀ c ∈ name.toList, (c != '=') = true := fun c mem => bne_iff_ne.2 fun same => plain (same ▸ mem)
  unfold Argument.ofString
  rw [text]
  split
  · next e => simp at e
  · next cs _ e =>
    cases e
    rw [List.dropWhile_append_of_pos passed, List.takeWhile_append_of_pos passed]
    simp
  · next other e =>
    cases e
    exact (other rfl).elim
  · next other => exact (other _ _ rfl).elim

/-! ## Options that have been read -/

namespace Given

/-- An option given once more for each of some values. -/
def more (g : Given) (name : String) (values : List String) : Given :=
  { g with options := g.options ++ values.map (name, ·) }

@[simp] theorem more_nil (g : Given) (name : String) : g.more name [] = g := by
  simp [more]

@[simp] theorem more_more (g : Given) (name : String) (values others : List String) :
    (g.more name values).more name others = g.more name (values ++ others) := by
  simp [more]

@[simp] theorem has_more (g : Given) (name key : String) (values : List String) :
    (g.more name values).has key = (g.has key || name == key && !values.isEmpty) := by
  cases values with
  | nil => simp
  | cons value values =>
    by_cases same : name = key
    · simp [more, has, same]
    · simp [more, has, Function.comp_def, beq_false_of_ne same]

@[simp] theorem value?_more (g : Given) (name key : String) (values : List String) :
    (g.more name values).value? key = (g.value? key).or (if name = key then values.head? else none) := by
  rw [value?, more, List.lookup_append]
  congr 1
  cases values with
  | nil => simp
  | cons value values =>
    by_cases same : name = key
    · simp [same]
    · have none_ : ((value :: values).map (name, ·)).lookup key = none := by
        rw [List.lookup_eq_none_iff]
        simp [Ne.symm same]
      rw [none_, if_neg same]

@[simp] theorem values_more (g : Given) (name key : String) (values : List String) :
    (g.more name values).values key = g.values key ++ if name = key then values else [] := by
  by_cases same : name = key <;> simp [Given.values, more, same, List.filter_map, Function.comp_def]

end Given

/-! ## Reading what was spelled -/

section

variable {specs : List OptionSpec} (spec : OptionSpec) {g : Given}

theorem add_eq (fresh : spec.kind = .values ∨ g.has spec.name = false) (value : String) :
    g.add spec value = .read (g.more spec.name [value]) := by
  have allowed : (g.has spec.name && spec.kind != .values) = false := by
    rcases fresh with kind | fresh
    · rw [kind]
      exact Bool.and_false _
    · rw [fresh, Bool.false_and]
  rw [Given.add, allowed]
  rfl

theorem readAll_long {s name : String} {value : Option String} {after : Given}
    (long : Argument.ofString s = .long name value) (read : readLong specs g name value = .read ⟨after, none⟩)
    (rest : List String) : readAll specs g none false (s :: rest) = readAll specs after none false rest := by
  conv =>
    lhs
    unfold readAll
  rw [long]
  simp only [Bool.false_eq_true, if_false, read]

theorem readAll_spelled (known : specs.find? (·.name == spec.name) = some spec) (plain : '=' ∉ spec.name.toList)
    (takes : spec.kind = .values ∨ spec.kind = .value ∧ g.has spec.name = false) (value : String)
    (rest : List String) :
    readAll specs g none false (spelled spec.name value :: rest) =
      readAll specs (g.more spec.name [value]) none false rest := by
  refine readAll_long (ofString_spelled value plain) ?_ rest
  have added := add_eq spec (takes.imp_right (·.2)) value
  unfold readLong
  rw [known]
  rcases takes with kind | ⟨kind, -⟩ <;> simp only [kind, added]

/-- Values of an option that collects them. -/
theorem readAll_values (known : specs.find? (·.name == spec.name) = some spec) (plain : '=' ∉ spec.name.toList)
    (kind : spec.kind = .values) (values : List String) (rest : List String) :
    readAll specs g none false (values.map (spelled spec.name) ++ rest) =
      readAll specs (g.more spec.name values) none false rest := by
  induction values generalizing g with
  | nil => simp
  | cons value values ih =>
    rw [List.map_cons, List.cons_append, readAll_spelled spec known plain (.inl kind), ih, Given.more_more,
      List.singleton_append]

/-- An option with a value, if it is given. -/
theorem readAll_value (known : specs.find? (·.name == spec.name) = some spec) (plain : '=' ∉ spec.name.toList)
    (kind : spec.kind = .value) (fresh : g.has spec.name = false) (value : Option String) (rest : List String) :
    readAll specs g none false (value.toList.map (spelled spec.name) ++ rest) =
      readAll specs (g.more spec.name value.toList) none false rest := by
  cases value with
  | none => simp
  | some value => exact readAll_spelled spec known plain (.inr ⟨kind, fresh⟩) value rest

/-- An option that is on or off. -/
theorem readAll_flag (known : specs.find? (·.name == spec.name) = some spec)
    (long : Argument.ofString ("--" ++ spec.name) = .long spec.name none) (kind : spec.kind = .flag)
    (fresh : g.has spec.name = false) (on : Bool) (rest : List String) :
    readAll specs g none false (spelledFlag spec.name on ++ rest) =
      readAll specs (g.more spec.name (if on then [""] else [])) none false rest := by
  cases on with
  | false => simp [spelledFlag]
  | true =>
    refine readAll_long long ?_ rest
    unfold readLong
    rw [known]
    simp only [kind, add_eq spec (.inr fresh), if_true]

end

/-- **Every request to render can be made.** -/
theorem parse_arguments (r : RenderRequest) : parse r.arguments = .read (.render r) := by
  have command (rest : List String) : parse ("render" :: rest) =
      (readAll renderOptions .empty none false rest).map fun g => .render (.ofGiven .empty g) := by
    have plain : Argument.ofString "render" = .plain "render" := by decide +kernel
    rw [parse, withCommand, if_neg (by decide), if_pos (by decide), readTop, plain]
    rfl
  have file (g : Given) (none_ : g.positional = []) :
      readAll renderOptions g none false ["--", r.file] = .read { g with positional := [r.file] } := by
    have escape : Argument.ofString "--" = .escape := by decide +kernel
    simp [readAll, none_, escape]
  have fresh (key : String) : Given.empty.has key = false := rfl
  rw [RenderRequest.arguments, command,
    readAll_value ⟨"data", some 'd', .value⟩ rfl (by decide) rfl rfl,
    readAll_values ⟨"set", none, .values⟩ rfl (by decide) rfl,
    readAll_value ⟨"output", some 'o', .value⟩ rfl (by decide) rfl (by simp [fresh]),
    readAll_flag ⟨"check", none, .flag⟩ rfl (by decide +kernel) rfl (by simp [fresh]),
    readAll_flag ⟨"tree", none, .flag⟩ rfl (by decide +kernel) rfl (by simp [fresh]),
    readAll_flag ⟨"list-blocks", none, .flag⟩ rfl (by decide +kernel) rfl (by simp [fresh]),
    readAll_flag ⟨"quiet", some 'q', .flag⟩ rfl (by decide +kernel) rfl (by simp [fresh]),
    readAll_flag ⟨"verbose", some 'v', .flag⟩ rfl (by decide +kernel) rfl (by simp [fresh]),
    file _ rfl]
  have request (g : Given) : RenderRequest.ofGiven .empty { g with positional := [r.file] } = ⟨r.file, g.value? "data",
    g.values "set", g.value? "output", g.has "check", g.has "tree", g.has "list-blocks", g.has "quiet",
    g.has "verbose"⟩ := rfl
  have option (key : String) : Given.empty.value? key = none := rfl
  have collected (key : String) : Given.empty.values key = [] := rfl
  have given_ (on : Bool) : (!(if on then [""] else []).isEmpty) = on := by cases on <;> rfl
  rw [Verdict.map, request]
  simp [fresh, option, collected, given_]

end Stencil.Command
