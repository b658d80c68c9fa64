import Mathlib.Order.WellFounded
import Stencil.Proofs.Delivered

/-!
# What stands in the way of a rendering

What can be wrong with a command line and the files it names is told by looking at each of them alone
(`Bars`). A run looks for it in a fixed order, as far as the request takes it, and reports the first thing
it meets. It fails in no other way, and when it does nothing has been printed and no file has been touched,
not even an output file that stood in for one of the inputs (`run_obstructed`).
-/

namespace Stencil.Command

open Text

/-- What can be wrong with a command line that asks for a rendering. -/
inductive Obstacle where
  | arguments
  | templateFile (path : String) (fault : FileFault)
  | template (path source : String) (e : ParseError)
  | dataFile (path : String) (fault : FileFault)
  | data (path fault : String)
  | assignment (s : String)
  | outputFile (path : String) (fault : FileFault)

namespace Obstacle

/-- The stage of a run at which an obstacle is met. -/
@[simp] def stage : Obstacle → Nat
  | arguments => 0
  | templateFile .. => 1
  | template .. => 2
  | dataFile .. | data .. => 3
  | assignment _ => 4
  | outputFile .. => 5

/-- The run that reports an obstacle to some arguments. -/
def report (lib : Libraries) (fs : FileSystem) (args : List String) : Obstacle → Outcome
  | arguments => ⟨2, [], [.text (lib.usage (withCommand args))], fs⟩
  | templateFile path fault => fail fs (cannotRead path fault)
  | template path source e => ⟨1, [], [.text (lib.excerpt path source e)], fs⟩
  | dataFile path fault => ⟨1, [], [.text (DataError.unreadable path fault).report], fs⟩
  | data path fault => ⟨1, [], [.text (DataError.invalid path fault).report], fs⟩
  | assignment s => ⟨1, [], [.text (DataError.malformed s).report], fs⟩
  | outputFile path fault => fail fs s!"cannot create '{path}': {fault.message}"

/-- A report is a failure that leaves everything alone, whatever is noted before. -/
theorem report_spec (lib : Libraries) (fs : FileSystem) (args : List String) (o : Obstacle) (notes : List Note) :
    ((o.report lib fs args).behind notes).code ≠ 0 ∧ ((o.report lib fs args).behind notes).stdout = [] ∧
      ((o.report lib fs args).behind notes).files = fs := by
  cases o <;> exact ⟨nofun, rfl, rfl⟩

end Obstacle

/-- An obstacle to a request among some files, whatever others there are. A library reads the data. -/
inductive Bars (toml : Toml.Library) (fs : FileSystem) (r : RenderRequest) : Obstacle → Prop where
  | templateFile {fault : FileFault} (unreadable : fs.readText r.file = .error fault) :
      Bars toml fs r (.templateFile r.file fault)
  | template {source : String} {e : ParseError} (text : fs.readText r.file = .ok source)
      (invalid : Template.parse source 0 = .error e) : Bars toml fs r (.template r.file source e)
  | dataFile {path : String} {fault : FileFault} (asked : r.data = some path)
      (unreadable : fs.readText path = .error fault) : Bars toml fs r (.dataFile path fault)
  | data {path source : String} (asked : r.data = some path) (text : fs.readText path = .ok source)
      (invalid : (toml.read? source).bind Document.fields? = none) :
      Bars toml fs r (.data path (toml.dataFault source))
  | assignment {front back : List String} {s : String} (asked : r.assignments = front ++ s :: back)
      (assigned : ∀ t ∈ front, '=' ∈ t.toList) (malformed : '=' ∉ s.toList) : Bars toml fs r (.assignment s)
  | outputFile {path : String} {fault : FileFault} (asked : r.output = some path)
      (barred : fs.target path = .error fault) : Bars toml fs r (.outputFile path fault)

/-- Whether a request is for looking at the template only. -/
def RenderRequest.looks (r : RenderRequest) : Bool := r.check || r.tree || r.listBlocks

/-- The last stage of a run on a request. Looking at the template needs no data, and what is not to be
written needs no file. -/
def RenderRequest.last (r : RenderRequest) : Nat :=
  if r.looks then 2 else if r.quiet then 4 else 5

/-- An obstacle to a command line among some files. -/
def Obstructs (lib : Libraries) (fs : FileSystem) (args : List String) (o : Obstacle) : Prop :=
  (lib.parse args = .rejected ∧ o = .arguments) ∨
    ∃ r, lib.parse args = .read (.render r) ∧ Bars lib.toml fs r o ∧ o.stage ≤ r.last

/-- An obstacle in front of all others. -/
def Foremost (lib : Libraries) (fs : FileSystem) (args : List String) (o : Obstacle) : Prop :=
  Obstructs lib fs args o ∧ ∀ other, Obstructs lib fs args other → o.stage ≤ other.stage

/-! ## Stages -/

section

variable {toml : Toml.Library} {fs : FileSystem} {r : RenderRequest}

/-- The stages of a run in front of some stage are free of obstacles. -/
def Clear (toml : Toml.Library) (fs : FileSystem) (r : RenderRequest) (stage : Nat) : Prop :=
  ∀ o, Bars toml fs r o → stage ≤ o.stage

theorem Bars.not_clear {o : Obstacle} (bars : Bars toml fs r o) : ¬ Clear toml fs r (o.stage + 1) :=
  fun clear => Nat.not_succ_le_self _ (clear o bars)

namespace Clear

theorem mono {n m : Nat} (clear : Clear toml fs r n) (le : m ≤ n) : Clear toml fs r m :=
  fun o bars => Nat.le_trans le (clear o bars)

/-! What there is when the stages up to one are free. -/

theorem text (clear : Clear toml fs r 2) : ∃ source, fs.readText r.file = .ok source := by
  cases read : fs.readText r.file with
  | error fault => exact absurd clear (Bars.templateFile read).not_clear
  | ok source => exact ⟨source, rfl⟩

theorem parsed (clear : Clear toml fs r 3) :
    ∃ source root, fs.readText r.file = .ok source ∧ Template.parse source 0 = .ok root := by
  obtain ⟨source, text⟩ := (clear.mono (by decide)).text
  cases parsed : Template.parse source 0 with
  | error e => exact absurd clear (Bars.template text parsed).not_clear
  | ok root => exact ⟨source, root, text, parsed⟩

theorem loads (clear : Clear toml fs r 4) : ∃ fields, Loads toml fs r.data fields := by
  cases asked : r.data with
  | none => exact ⟨[], rfl⟩
  | some path =>
    cases text : fs.readText path with
    | error fault => exact absurd clear (Bars.dataFile asked text).not_clear
    | ok source =>
      cases valid : (toml.read? source).bind Document.fields? with
      | none => exact absurd clear (Bars.data asked text valid).not_clear
      | some fields => exact ⟨fields, by simp only [Loads, loadData, text, valid]⟩

theorem assigned (clear : Clear toml fs r 5) : ∀ s ∈ r.assignments, '=' ∈ s.toList := by
  by_contra! malformed
  -- Of the assignments without an equals sign the first is the obstacle.
  obtain ⟨s, found⟩ := Option.isSome_iff_exists.1 (List.find?_isSome.2
    (malformed.imp fun s h => ⟨h.1, (decide_eq_true_iff (p := '=' ∉ s.toList)).2 h.2⟩))
  obtain ⟨bad, front, back, split, good⟩ := List.find?_eq_some_iff_append.1 found
  exact absurd clear (Bars.assignment split (by simpa using good) (by simpa using bad)).not_clear

theorem creatable (clear : Clear toml fs r 6) : ∀ path, r.output = some path → ∃ names, fs.target path = .ok names := by
  intro path asked
  cases target : fs.target path with
  | error fault => exact absurd clear (Bars.outputFile asked target).not_clear
  | ok names => exact ⟨names, rfl⟩

end Clear

/-! ## Runs -/

variable {lib : Libraries}

theorem assignAll_malformed {front back : List String} {s : String} (assigned : ∀ t ∈ front, '=' ∈ t.toList)
    (malformed : '=' ∉ s.toList) (fields : Fields) :
    assignAll fields (front ++ s :: back) = .error (.malformed s) := by
  induction front generalizing fields with
  | nil =>
    have none_ : assignment? s = none := by
      by_contra some_
      obtain ⟨⟨name, value⟩, made⟩ := Option.ne_none_iff_exists'.1 some_
      rw [assignment?_eq_some, Assigns] at made
      exact malformed (made.1 ▸ List.mem_append_right _ List.mem_cons_self)
    rw [List.nil_append, assignAll, none_]
  | cons t front ih =>
    obtain ⟨name, value, assigns⟩ := exists_assigns (assigned t List.mem_cons_self)
    rw [List.cons_append, assignAll, assignment?_eq_some.2 assigns]
    exact ih (fun u hu => assigned u (List.mem_cons_of_mem _ hu)) _

theorem runRender_of_text {source : String} (text : fs.readText r.file = .ok source) :
    ∃ o, runRender lib fs r = o.behind (Template.read source 0).notes ∧
      (∀ e, Template.parse source 0 = .error e → o = ⟨1, [], [.text (lib.excerpt r.file source e)], fs⟩) ∧
      ∀ root, Template.parse source 0 = .ok root →
        (r.looks = true → o.code = 0 ∧ o.files = fs) ∧
        (r.looks = false → o = renderTemplate lib.toml fs r root) := by
  rw [runRender, text]
  refine ⟨_, rfl, fun e invalid => ?_, fun root parsed => ?_⟩
  · have read : (Template.read source 0).result = .error e := invalid
    rw [read]
  · have read : (Template.read source 0).result = .ok root := parsed
    rw [read]
    dsimp only
    rw [RenderRequest.looks]
    cases r.check <;> cases r.tree <;> cases r.listBlocks <;> simp

theorem renderTemplate_of_error {e : DataError} (none_ : renderData toml fs r = .error e) (root : Block) :
    renderTemplate toml fs r root = ⟨1, [], [.text e.report], fs⟩ := by
  rw [renderTemplate, none_]

theorem renderData_of_loadData {path : String} {e : DataError} (asked : r.data = some path)
    (unloaded : loadData toml fs path = .error e) : renderData toml fs r = .error e := by
  simp only [renderData, asked, unloaded, bind, Except.bind]

theorem loadData_unreadable {path : String} {fault : FileFault} (unreadable : fs.readText path = .error fault) :
    loadData toml fs path = .error (.unreadable path fault) := by
  rw [loadData, unreadable]

theorem loadData_invalid {path source : String} (text : fs.readText path = .ok source)
    (invalid : (toml.read? source).bind Document.fields? = none) :
    loadData toml fs path = .error (.invalid path (toml.dataFault source)) := by
  simp only [loadData, text, invalid]

theorem RenderRequest.looks_eq_false (far : 2 < r.last) : r.looks = false := by
  by_contra looks
  rw [last, if_pos (eq_true_of_ne_false looks)] at far
  exact Nat.lt_irrefl 2 far

theorem RenderRequest.quiet_eq_false (far : 4 < r.last) : r.quiet = false := by
  by_contra quiet
  rw [last, looks_eq_false (Nat.lt_trans (by decide) far), if_neg Bool.false_ne_true,
    if_pos (eq_true_of_ne_false quiet)] at far
  exact Nat.lt_irrefl 4 far

/-- A run that goes on for long enough reports its first obstacle. -/
theorem runRender_of_first {o : Obstacle} (bars : Bars lib.toml fs r o) (first : Clear lib.toml fs r o.stage)
    (met : o.stage ≤ r.last) (args : List String) :
    ∃ notes, runRender lib fs r = (o.report lib fs args).behind notes := by
  -- Behind the template there is no way but through it.
  have behind (far : 2 < o.stage) : ∃ source root notes, Template.parse source 0 = .ok root ∧
      runRender lib fs r = (renderTemplate lib.toml fs r root).behind notes := by
    obtain ⟨source, root, text, parsed⟩ := (first.mono far).parsed
    obtain ⟨o', ran, -, rendered⟩ := @runRender_of_text _ _ lib _ text
    refine ⟨source, root, (Template.read source 0).notes, parsed, ran.trans ?_⟩
    rw [(rendered root parsed).2 (r.looks_eq_false (Nat.lt_of_lt_of_le far met))]
  cases bars with
  | templateFile unreadable =>
    refine ⟨[], ?_⟩
    rw [runRender, unreadable]
    rfl
  | template text invalid =>
    obtain ⟨o', ran, failed, -⟩ := @runRender_of_text _ _ lib _ text
    exact ⟨_, ran.trans (congrArg _ (failed _ invalid))⟩
  | dataFile asked unreadable =>
    obtain ⟨source, root, notes, -, ran⟩ := behind (by simp)
    refine ⟨notes, ran.trans ?_⟩
    rw [renderTemplate_of_error (renderData_of_loadData asked (loadData_unreadable unreadable)), Obstacle.report]
  | data asked text invalid =>
    obtain ⟨source, root, notes, -, ran⟩ := behind (by simp)
    refine ⟨notes, ran.trans ?_⟩
    rw [renderTemplate_of_error (renderData_of_loadData asked (loadData_invalid text invalid)), Obstacle.report]
  | assignment asked assigned malformed =>
    obtain ⟨source, root, notes, -, ran⟩ := behind (by simp)
    obtain ⟨fields, loaded⟩ := Clear.loads first
    have made := renderData_of_loads loaded
    rw [asked, assignAll_malformed assigned malformed] at made
    refine ⟨notes, ran.trans ?_⟩
    rw [renderTemplate_of_error made, Obstacle.report]
  | outputFile asked barred =>
    obtain ⟨source, root, notes, parsed, ran⟩ := behind (by simp)
    obtain ⟨fields, loaded⟩ := Clear.loads (first.mono (by simp))
    obtain ⟨data, made, -⟩ := renderData_ok loaded (Clear.assigned first)
    refine ⟨notes, ran.trans ?_⟩
    rw [renderTemplate, made]
    simp only [openOutput, r.quiet_eq_false met, asked, barred, Bool.false_eq_true, if_false, Obstacle.report]

/-- Some files became others when a request wrote its output: all stand as they did but the output file. -/
def Writes (fs after : FileSystem) (r : RenderRequest) : Prop :=
  r.looks = false ∧ r.quiet = false ∧ ∃ path names, r.output = some path ∧ fs.place path = .ok names ∧
    ∀ other, other ≠ names → after.node other = fs.node other

/-- A run whose stages are all free of obstacles succeeds, and touches no file but its output file. -/
theorem runRender_of_clear (clear : Clear lib.toml fs r (r.last + 1)) :
    (runRender lib fs r).code = 0 ∧
      ((runRender lib fs r).files = fs ∨ Writes fs (runRender lib fs r).files r) := by
  have last : 2 ≤ r.last := by
    rw [RenderRequest.last]
    split_ifs <;> decide
  obtain ⟨source, root, text, parsed⟩ := (clear.mono (Nat.succ_le_succ last)).parsed
  obtain ⟨o, ran, -, rendered⟩ := @runRender_of_text _ _ lib _ text
  rw [ran]
  cases looks : r.looks with
  | true => exact ((rendered root parsed).1 looks).imp_right .inl
  | false =>
    have last : r.last = if r.quiet then 4 else 5 := by simp [RenderRequest.last, looks]
    have far : 4 ≤ r.last := by
      rw [last]
      split_ifs <;> decide
    obtain ⟨fields, loaded⟩ := (clear.mono (m := 4) (by omega)).loads
    obtain ⟨data, made, -⟩ := renderData_ok loaded (clear.mono (Nat.succ_le_succ far)).assigned
    have creatable (loud : r.quiet = false) : ∀ path, r.output = some path → ∃ names, fs.target path = .ok names := by
      rw [last, loud] at clear
      exact clear.creatable
    rw [(rendered root parsed).2 looks]
    obtain ⟨code, -, -, puts⟩ := renderTemplate_delivers parsed made creatable (Template.read source 0).notes
    refine ⟨code, ?_⟩
    cases quiet : r.quiet with
    | true => exact .inl (puts.untouched (.inl quiet))
    | false =>
      cases asked : r.output with
      | none => exact .inl (puts.untouched (.inr asked))
      | some path =>
        obtain ⟨-, names, place, others⟩ := puts.stored quiet path asked
        exact .inr ⟨looks, quiet, path, names, asked, place, others⟩

end

/-! ## Command lines -/

section

variable {lib : Libraries} {look : String → Except FileFault FileTree} {fs : FileSystem} {args : List String}

theorem obstructs_of_render {r : RenderRequest} (asked : lib.parse args = .read (.render r)) {o : Obstacle} :
    Obstructs lib fs args o ↔ Bars lib.toml fs r o ∧ o.stage ≤ r.last := by
  simp [Obstructs, asked]

theorem exists_foremost (h : ∃ o, Obstructs lib fs args o) : ∃ o, Foremost lib fs args o := by
  obtain ⟨o, stands, least⟩ := (measure Obstacle.stage).wf.has_min {o | Obstructs lib fs args o} h
  exact ⟨o, stands, fun other h => Nat.le_of_not_lt (least other h)⟩

theorem run_of_foremost {o : Obstacle} (h : Foremost lib fs args o) :
    ∃ notes, runWith lib look fs args = (o.report lib fs args).behind notes := by
  obtain ⟨⟨rejected, rfl⟩ | ⟨r, asked, bars, met⟩, least⟩ := h
  · refine ⟨[], ?_⟩
    rw [runWith, rejected]
    rfl
  · have first : Clear lib.toml fs r o.stage := by
      intro other bars
      rcases Nat.le_total other.stage r.last with near | far
      · exact least other ((obstructs_of_render asked).2 ⟨bars, near⟩)
      · exact Nat.le_trans met far
    rw [runWith, asked]
    exact runRender_of_first bars first met args

theorem run_of_unobstructed (renders : ∀ t, lib.parse args ≠ .read (.test t)) (h : ∀ o, ¬ Obstructs lib fs args o) :
    (runWith lib look fs args).code = 0 ∧ ((runWith lib look fs args).files = fs ∨
      ∃ r, lib.parse args = .read (.render r) ∧ Writes fs (runWith lib look fs args).files r) := by
  cases asked : lib.parse args with
  | rejected => exact absurd (.inl ⟨asked, rfl⟩) (h .arguments)
  | help => simp [runWith, asked]
  | version => simp [runWith, asked]
  | read request =>
    cases request with
    | test t => exact absurd asked (renders t)
    | render r =>
      have clear : Clear lib.toml fs r (r.last + 1) := fun o bars =>
        Nat.lt_of_not_le fun met => h o ((obstructs_of_render asked).2 ⟨bars, met⟩)
      have ran : runWith lib look fs args = runRender lib fs r := by rw [runWith, asked]
      rw [ran]
      obtain ⟨code, files⟩ := runRender_of_clear clear
      exact ⟨code, files.imp_right fun writes => ⟨r, rfl, writes⟩⟩

/-- **Renderings that fail.** For all files, all libraries and every command line but one that asks for tests: a
run fails exactly if there is an obstacle, and reports the one in front of all others, behind nothing but notes for
the log, in this order: rejected arguments, a template file that cannot be read, a template that does not parse, a
data file that cannot be read or is invalid, an assignment without an equals sign, and an output file that cannot
be created. When the run only looks at the template, there are no more than the first three, and when it is quiet,
not the last. A run that fails has no output and leaves all files as they were, and so does one that succeeds, but
for the file that is named as output of a run that is neither quiet nor for looking. -/
theorem run_obstructed (renders : ∀ t, lib.parse args ≠ .read (.test t)) :
    let outcome := runWith lib look fs args
    (outcome.code ≠ 0 ↔ ∃ o, Obstructs lib fs args o) ∧
    (∀ o, Foremost lib fs args o → ∃ notes, outcome = (o.report lib fs args).behind notes) ∧
    (outcome.code ≠ 0 → outcome.stdout = [] ∧ outcome.files = fs ∧ ∃ o, Foremost lib fs args o) ∧
    (outcome.code = 0 → outcome.files = fs ∨
      ∃ r, lib.parse args = .read (.render r) ∧ Writes fs outcome.files r) := by
  intro outcome
  by_cases h : ∃ o, Obstructs lib fs args o
  · obtain ⟨o, foremost⟩ := exists_foremost h
    obtain ⟨notes, ran⟩ : ∃ notes, outcome = (o.report lib fs args).behind notes := run_of_foremost foremost
    obtain ⟨code, stdout, files⟩ := o.report_spec lib fs args notes
    rw [← ran] at code stdout files
    exact ⟨iff_of_true code h, fun _ => run_of_foremost, fun _ => ⟨stdout, files, o, foremost⟩,
      fun succeeds => absurd succeeds code⟩
  · obtain ⟨code, files⟩ := run_of_unobstructed renders (not_exists.1 h)
    exact ⟨iff_of_false (not_not.2 code) h, fun _ => run_of_foremost, fun fails => absurd code fails,
      fun _ => files⟩

/-- Of a missing data file and an assignment without an equals sign the first is reported. The template, which
was named for the output as well, is untouched; for a look at it neither is an obstacle. -/
theorem run_obstructed_by_data :
    ∃ fs : FileSystem,
      let args := ["render", "t.html", "-d", "d.toml", "--set", "x", "-o", "t.html"]
      Obstructs own fs args (.assignment "x") ∧ Foremost own fs args (.dataFile "d.toml" .notFound) ∧
      (run fs args).code = 1 ∧ (run fs args).stdout = [] ∧ (run fs args).files = fs ∧
      (run fs args).stderr = "error: cannot read 'd.toml': No such file or directory (os error 2)\n" ∧
      (run fs (args ++ ["--check"])).code = 0 := by
  let fs : FileSystem := ⟨[(["w", "t.html"], bytes "X")], [], ["w"]⟩
  let args : List String := ["render", "t.html", "-d", "d.toml", "--set", "x", "-o", "t.html"]
  let request (check : Bool) : RenderRequest :=
    ⟨"t.html", some "d.toml", ["x"], some "t.html", check, false, false, false, false⟩
  have asked : own.parse args = .read (.render (request false)) := by decide +kernel
  have looks : own.parse (args ++ ["--check"]) = .read (.render (request true)) := by decide +kernel
  have text : fs.readText "t.html" = .ok "X" := by with_unfolding_all rfl
  have missing : fs.readText "d.toml" = .error .notFound := by with_unfolding_all rfl
  have parsed : Template.parse "X" 0 = .ok ⟨none, ⟨[]⟩, [[⟨"X", none⟩]], [], ⟨0, 1⟩, .out⟩ := by
    with_unfolding_all rfl
  have clear (check : Bool) : Clear own.toml fs (request check) 3 := by
    intro o bars
    cases bars with
    | templateFile unreadable => exact absurd (text.symm.trans unreadable) nofun
    | template text' invalid =>
      cases text.symm.trans text'
      exact absurd (parsed.symm.trans invalid) nofun
    | _ => simp
  have foremost : Foremost own fs args (.dataFile "d.toml" .notFound) :=
    ⟨(obstructs_of_render asked).2 ⟨.dataFile rfl missing, by decide⟩,
      fun other stands => clear false other ((obstructs_of_render asked).1 stands).1⟩
  have unobstructed (o : Obstacle) : ¬ Obstructs own fs (args ++ ["--check"]) o := fun stands => by
    obtain ⟨bars, met⟩ := (obstructs_of_render looks).1 stands
    exact Nat.not_succ_le_self _ ((clear true o bars).trans met)
  obtain ⟨-, reports, -⟩ := @run_obstructed own fs.look fs args (by rw [asked]; nofun)
  obtain ⟨fails_iff, -⟩ := @run_obstructed own fs.look fs (args ++ ["--check"]) (by rw [looks]; nofun)
  obtain ⟨notes, ran⟩ := reports _ foremost
  have ran : run fs args = ((Obstacle.dataFile "d.toml" .notFound).report own fs args).behind notes := ran
  refine ⟨fs, ?_, foremost, by rw [ran]; rfl, by rw [ran]; rfl, by rw [ran]; rfl, ?_,
    not_not.1 (mt fails_iff.1 (not_exists.2 unobstructed))⟩
  · exact (obstructs_of_render asked).2
      ⟨@Bars.assignment own.toml fs (request false) [] [] "x" rfl nofun (by decide), by decide⟩
  · rw [ran, Outcome.stderr, Outcome.behind, Said.texts_append, Said.texts_notes, String.empty_append]
    decide +kernel

end

end Stencil.Command
