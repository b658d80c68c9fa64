import Stencil.Proofs.Logged
import Stencil.Proofs.Openers
import Stencil.Proofs.Places
import Stencil.Proofs.Settled

/-!
# What `render` delivers

A run that renders writes what its template means for the data it is given: the fields of the data file, with
those that are assigned in their place (`assignAll_ok`). Where the bytes go is a matter of the request alone,
and so is whether a file changes; the exit code, the warnings and the notes for the log are the same for all
(`run_delivers`).
-/

namespace Stencil

open Text

namespace Command

/-! ## Assignments -/

/-- A text assigns a value to a name: between them stands its first equals sign. -/
def Assigns (s name value : String) : Prop :=
  s.toList = name.toList ++ '=' :: value.toList ∧ '=' ∉ name.toList

/-- The last of some texts that assigns to a name gives it a value. -/
def LastAssigns (assignments : List String) (name value : String) : Prop :=
  ∃ front s back, assignments = front ++ s :: back ∧ Assigns s name value ∧ ∀ t ∈ back, ∀ v, ¬ Assigns t name v

theorem assignment?_eq_some {s name value : String} : assignment? s = some (name, value) ↔ Assigns s name value := by
  rw [assignment?, Option.map_eq_some_iff, Assigns, ← cutAt?_char]
  constructor
  · rintro ⟨⟨front, rest⟩, cut, both⟩
    cases both
    simpa using cut
  · exact fun cut => ⟨_, cut, by simp⟩

theorem exists_assigns {s : String} (h : '=' ∈ s.toList) : ∃ name value, Assigns s name value := by
  obtain ⟨front, rest, split, absent⟩ := List.eq_append_cons_of_mem h
  exact ⟨String.ofList front, String.ofList rest, by simpa [Assigns] using ⟨split, absent⟩⟩

theorem Assigns.unique {s name name' value value' : String} (first : Assigns s name value)
    (second : Assigns s name' value') : name = name' ∧ value = value' := by
  have both := (assignment?_eq_some.2 first).symm.trans (assignment?_eq_some.2 second)
  exact Prod.mk.inj (Option.some.inj both)

/-- Of texts that assign to a name one is the last. -/
theorem exists_lastAssigns {assignments : List String} {name : String}
    (h : ∃ t ∈ assignments, ∃ v, Assigns t name v) : ∃ value, LastAssigns assignments name value := by
  induction assignments with
  | nil =>
    obtain ⟨t, mem, -⟩ := h
    cases mem
  | cons s rest ih =>
    by_cases later : ∃ t ∈ rest, ∃ v, Assigns t name v
    · obtain ⟨value, front, t, back, rfl, assigns, last⟩ := ih later
      exact ⟨value, s :: front, t, back, rfl, assigns, last⟩
    · obtain ⟨t, mem, v, assigns⟩ := h
      rcases List.mem_cons.1 mem with rfl | mem
      · exact ⟨v, [], t, rest, rfl, assigns, fun u hu w other => later ⟨u, hu, w, other⟩⟩
      · exact absurd ⟨t, mem, v, assigns⟩ later

/-- Fields with further assignments: a name that is assigned to has the last text, every other its entry. -/
theorem assignAll_ok {assignments : List String} (assigned : ∀ s ∈ assignments, '=' ∈ s.toList) (fields : Fields) :
    ∃ out, assignAll fields assignments = .ok out ∧
      (∀ name value, LastAssigns assignments name value → out.get? name = some (.text value)) ∧
      ∀ name, (∀ value, ¬ LastAssigns assignments name value) → out.get? name = fields.get? name := by
  induction assignments generalizing fields with
  | nil =>
    refine ⟨fields, rfl, ?_, fun _ _ => rfl⟩
    rintro name value ⟨front, s, back, split, -⟩
    exact absurd split.symm (by simp)
  | cons s rest ih =>
    obtain ⟨n, v, first⟩ := exists_assigns (assigned s List.mem_cons_self)
    obtain ⟨out, ok, last, others⟩ :=
      ih (fun t ht => assigned t (List.mem_cons_of_mem _ ht)) (fields.insert n (.text v))
    have ok : assignAll fields (s :: rest) = .ok out := by
      rw [assignAll, assignment?_eq_some.2 first]
      exact ok
    refine ⟨out, ok, ?_, fun name never => ?_⟩
    · -- The last assignment to a name is the first of all, which no later one replaces, or a later one.
      rintro name value ⟨_ | ⟨_, front⟩, t, back, split, assigns, final⟩
      · obtain ⟨rfl, rfl⟩ := List.cons.inj split
        obtain ⟨rfl, rfl⟩ := first.unique assigns
        have never (w : String) : ¬ LastAssigns rest n w := by
          rintro ⟨front, t, back, rfl, assigns, -⟩
          exact final t (List.mem_append_right _ List.mem_cons_self) w assigns
        rw [others n never, Fields.get?_insert, if_pos rfl]
      · exact last name value ⟨front, t, back, (List.cons.inj split).2, assigns, final⟩
    · have later (w : String) : ¬ LastAssigns rest name w := by
        rintro ⟨front, t, back, rfl, assigns⟩
        exact never w ⟨s :: front, t, back, rfl, assigns⟩
      have apart : name ≠ n := by
        rintro rfl
        refine never v ⟨[], s, rest, rfl, first, fun t ht w assigns => ?_⟩
        obtain ⟨u, some_⟩ := exists_lastAssigns ⟨t, ht, w, assigns⟩
        exact later u some_
      rw [others name later, Fields.get?_insert, if_neg apart]

/-! ## Data -/

/-- The fields of the data file that is asked for, as a library reads it; without one there are none. -/
def Loads (toml : Toml.Library) (fs : FileSystem) (dataFile : Option String) (fields : Fields) : Prop :=
  match dataFile with
  | none => fields = []
  | some path => loadData toml fs path = .ok fields

/-- Some data is that of a file with assignments in its place. -/
structure Overrides (data file : Fields) (assignments : List String) : Prop where
  ordered : data.Ordered
  last : ∀ name value, LastAssigns assignments name value → data.get? name = some (.text value)
  others : ∀ name, (∀ value, ¬ LastAssigns assignments name value) → data.get? name = file.get? name

/-- Files and assignments leave no choice of data. -/
theorem Overrides.unique {data data' file : Fields} {assignments : List String}
    (h : Overrides data file assignments) (h' : Overrides data' file assignments) : data = data' := by
  refine h.ordered.ext h'.ordered fun name => ?_
  by_cases some_ : ∃ value, LastAssigns assignments name value
  · obtain ⟨value, last⟩ := some_
    rw [h.last name value last, h'.last name value last]
  · have never := not_exists.1 some_
    rw [h.others name never, h'.others name never]

section

variable {toml : Toml.Library} {fs : FileSystem} {r : RenderRequest}

theorem renderData_of_loads {file : Fields} (loaded : Loads toml fs r.data file) :
    renderData toml fs r = assignAll file r.assignments := by
  unfold renderData
  unfold Loads at loaded
  cases path : r.data with
  | none =>
    rw [path] at loaded
    subst loaded
    rfl
  | some path' =>
    rw [path] at loaded
    dsimp only at loaded ⊢
    rw [loaded]
    rfl

theorem renderData_ok {file : Fields} (loaded : Loads toml fs r.data file)
    (assigned : ∀ s ∈ r.assignments, '=' ∈ s.toList) :
    ∃ data, renderData toml fs r = .ok data ∧ Overrides data file r.assignments := by
  obtain ⟨data, ok, last, others⟩ := assignAll_ok assigned file
  have made : renderData toml fs r = .ok data := (renderData_of_loads loaded).trans ok
  exact ⟨data, made, ordered_of_renderData made, last, others⟩

/-! ## One rendering, however it is delivered -/

/-- Where a request wants the bytes of a rendering. Without an output file they are printed; the output file
has them for its whole contents, and nothing else is changed; when quiet, nothing is. -/
structure Outcome.Puts (o : Outcome) (fs : FileSystem) (output : Option String) (quiet : Bool)
    (rendered : List UInt8) : Prop where
  printed : o.stdout = if quiet = false ∧ output = none then rendered else []
  untouched : quiet = true ∨ output = none → o.files = fs
  stored : quiet = false → ∀ path, output = some path → o.files.read path = .ok rendered ∧
    ∃ names, fs.place path = .ok names ∧ ∀ other, other ≠ names → o.files.node other = fs.node other

/-- What a run leaves that has rendered some bytes: it succeeds and puts them where it should. It says some
lines behind the notes of its work, so that with the log off there are just these. -/
structure Outcome.Delivers (o : Outcome) (fs : FileSystem) (output : Option String) (quiet : Bool)
    (rendered : List UInt8) (notes : List Note) (told : List String) : Prop where
  code : o.code = 0
  said : o.said = notes.map .note ++ told.map .line
  stderr : o.stderr = unlines told
  puts : o.Puts fs output quiet rendered

/-- What a request wants to be written to is there, if its output file can be made, and it is given what is
rendered. -/
theorem exists_openOutput
    (creatable : r.quiet = false → ∀ path, r.output = some path → ∃ names, fs.target path = .ok names) :
    ∃ destination opened, openOutput fs r = .ok (destination, opened) ∧ ∀ rendered said,
      (destination.deliver opened rendered said).code = 0 ∧ (destination.deliver opened rendered said).said = said ∧
        (destination.deliver opened rendered said).Puts fs r.output r.quiet rendered := by
  rw [openOutput]
  cases quiet : r.quiet with
  | true => exact ⟨_, _, rfl, fun _ _ => ⟨rfl, rfl, by simp [Destination.deliver], fun _ => rfl, nofun⟩⟩
  | false =>
    cases output : r.output with
    | none => exact ⟨_, _, rfl, fun _ _ => ⟨rfl, rfl, by simp [Destination.deliver], fun _ => rfl, nofun⟩⟩
    | some path =>
      obtain ⟨names, target⟩ := creatable quiet path output
      obtain ⟨place, -, entered⟩ := FileSystem.target_eq_ok target
      simp only [Bool.false_eq_true, if_false, target]
      refine ⟨_, _, rfl, fun rendered said => ⟨rfl, rfl, by simp [Destination.deliver], by simp, ?_⟩⟩
      intro _ path' same
      cases same
      -- The file is made anew and then filled, which comes to one writing.
      rw [Destination.deliver, FileSystem.write_write]
      refine ⟨FileSystem.read_write target rendered, names, place, fun other apart => ?_⟩
      rw [FileSystem.node_write entered, if_neg apart]

end

/-- A template that was just read is filled in a buffer. -/
theorem filled_buffer {source : String} {file : Nat} {root : Block} (parsed : Template.parse source file = .ok root)
    (data : Fields) :
    let filled := (Page.ofTemplate root).fill data Buffer.empty
    filled.result = .ok ((root.visits [] data).flatMap Visit.warnings) ∧
    (filled.page.sink.map (·.taken.toList)).getD [] = (root.pass [] data ⟨[], root.valuation⟩).out := by
  intro filled
  have fresh := Template.fresh_of_parse parsed
  have sound : Page.Sound root (Page.ofTemplate root : Page Buffer) := .ofTemplate fresh
  have idle : (Page.ofTemplate root : Page Buffer).root.state.isActive = false := by
    have dormant := sound.unbound rfl
    rw [dormant.state]
    rfl
  obtain ⟨⟨result, t, bound, -, received⟩, -⟩ := sound.filled_after Buffer.steady fresh
    (Template.wellDeclared_of_parse parsed) idle (s := Buffer.empty) trivial data
  refine ⟨result, ?_⟩
  rw [bound]
  exact received

/-- The notes of filling a template that has not been written. -/
def fillNotes (root : Block) (data : Fields) : List Note :=
  Event.notes ((Page.ofTemplate root).fill data Buffer.empty).events

section

variable {toml : Toml.Library} {fs : FileSystem} {r : RenderRequest} {source : String} {file : Nat} {root : Block}
  {data : Fields}

theorem renderTemplate_of_opened {destination : Destination} {opened : FileSystem}
    (parsed : Template.parse source file = .ok root) (made : renderData toml fs r = .ok data)
    (ready : openOutput fs r = .ok (destination, opened)) :
    renderTemplate toml fs r root =
      (destination.deliver opened (root.pass [] data ⟨[], root.valuation⟩).out
        (((root.visits [] data).flatMap Visit.warnings).map fun w => .line (warningLine w))).behind
        (fillNotes root data) := by
  obtain ⟨result, received⟩ := filled_buffer parsed data
  unfold renderTemplate
  rw [made]
  dsimp only
  rw [ready]
  dsimp only
  rw [result]
  dsimp only
  rw [received, fillNotes]

/-- A template that was read is rendered as it should be. -/
theorem renderTemplate_delivers (parsed : Template.parse source file = .ok root)
    (made : renderData toml fs r = .ok data)
    (creatable : r.quiet = false → ∀ path, r.output = some path → ∃ names, fs.target path = .ok names)
    (notes : List Note) :
    ((renderTemplate toml fs r root).behind notes).Delivers fs r.output r.quiet
      (root.pass [] data ⟨[], root.valuation⟩).out (notes ++ fillNotes root data)
      (((root.visits [] data).flatMap Visit.warnings).map warningLine) := by
  obtain ⟨destination, opened, ready, delivers⟩ := exists_openOutput creatable
  obtain ⟨code, said, puts⟩ := delivers (root.pass [] data ⟨[], root.valuation⟩).out
    (((root.visits [] data).flatMap Visit.warnings).map fun w => .line (warningLine w))
  rw [renderTemplate_of_opened parsed made ready]
  have all : (((destination.deliver opened (root.pass [] data ⟨[], root.valuation⟩).out
      (((root.visits [] data).flatMap Visit.warnings).map fun w => .line (warningLine w))).behind
        (fillNotes root data)).behind notes).said = (notes ++ fillNotes root data).map .note ++
      (((root.visits [] data).flatMap Visit.warnings).map warningLine).map .line := by
    rw [Outcome.behind, Outcome.behind, said, List.map_append, List.append_assoc, List.map_map]
    rfl
  refine ⟨code, all, ?_, puts.printed, puts.untouched, puts.stored⟩
  rw [Outcome.stderr, all, Said.texts_append, Said.texts_notes, Said.texts_lines, String.empty_append]

end

end Command

end Stencil
