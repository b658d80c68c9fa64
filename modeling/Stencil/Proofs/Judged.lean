import Stencil.Proofs.Logged
import Stencil.Proofs.Selected

/-!
# The verdict of a run of tests

A run comes to one result for each of its tests, in their order. What it says ends in the failed ones and in
the numbers of those that passed and failed, and it succeeds if there is a test and none fails: `run_judges`
says so of runs over a folder, with the tests that are chosen there, and of a single file.
-/

namespace Stencil

open Text

namespace Fixture

/-! ## Results -/

/-- The test in a file passes: it has text in it, a library reads the head, and the check finds all as expected. -/
def Passes (toml : Toml.Library) (contents : Contents) : Prop :=
  ∃ content config source, contents >>= decodeText = .ok content ∧ readBy toml content = .ok (config, source) ∧
    check config source = .ok ()

theorem failure_runFile {toml : Toml.Library} {file : TestFile} :
    (runFile toml file).failure = none ↔ Passes toml file.contents := by
  unfold runFile Passes
  dsimp only
  cases file.contents >>= decodeText with
  | error fault =>
    refine ⟨nofun, ?_⟩
    rintro ⟨_, _, _, text, _⟩
    cases text
  | ok content =>
    dsimp only
    cases head : readBy toml content with
    | error e =>
      refine ⟨nofun, ?_⟩
      rintro ⟨_, _, _, text, found, _⟩
      cases text
      rw [head] at found
      cases found
    | ok both =>
      obtain ⟨config, source⟩ := both
      dsimp only
      cases checked : check config source with
      | ok done => exact ⟨fun _ => ⟨content, config, source, rfl, head, checked⟩, fun _ => rfl⟩
      | error failure =>
        refine ⟨nofun, ?_⟩
        rintro ⟨_, _, _, text, found, fine⟩
        cases text
        rw [head] at found
        cases found
        rw [checked] at fine
        cases fine

/-- The results that passed. -/
def passed (results : List Result) : List Result := results.filter (·.failure.isNone)

/-- The results that failed. -/
def failed (results : List Result) : List Result := results.filter (·.failure.isSome)

/-- The lines about the failed results: none if there are none. -/
def failureSection (failed : List Result) : List String :=
  if failed = [] then [] else "" :: "failures:" :: failed.flatMap failureLines

theorem length_passed_add_failed (results : List Result) :
    (passed results).length + (failed results).length = results.length := by
  have split := List.length_eq_countP_add_countP (l := results) fun r => r.failure.isSome
  have others : (fun r : Result => decide ¬ r.failure.isSome = true) = (·.failure.isNone) := by
    funext r
    cases r.failure <;> rfl
  rw [others, List.countP_eq_length_filter, List.countP_eq_length_filter] at split
  rw [passed, failed, split, Nat.add_comm]

theorem report_eq (plain : Bool) (said : List Said) (results : List Result) :
    report plain said results = ⟨said ++ (failureSection (failed results) ++
      ["", summary plain (passed results).length (failed results).length]).map .line, (failed results).isEmpty⟩ := by
  have count : results.length - (failed results).length = (passed results).length := by
    have := length_passed_add_failed results
    omega
  rw [report, ← failed, count, failureSection]
  simp only [List.isEmpty_iff]

/-! ## Runs over a folder -/

section

variable {toml : Toml.Library} {path : String} {t : FileTree} {requests : List String}

/-- What a walk finds in the tree at a path. -/
def found (path : String) (t : FileTree) : Finds := testsAt (bytes path) [] none t

/-- The result of a test below a path. -/
def result (toml : Toml.Library) (path : String) (test : List FileName × Contents) : Result :=
  runFile toml (.below path test)

theorem select_discover (path : String) (t : FileTree) (requests : List String) :
    (discover path (.ok t)).select requests =
      (chosenGroups (found path t) requests).map fun group =>
        (group.1, group.2.map (.below path)) :=
  Categories.select_map _ _ _

/-- If a walk finds one test, the categories are that of it. -/
theorem discover_singleton {test : List FileName × Contents} (walk : found path t = [test]) :
    discover path (.ok t) = [(categoryOf test.1, [.below path test])] := by
  rw [found] at walk
  rw [discover]
  dsimp only
  rw [walk, byCategory, List.map_singleton]
  have group : Categories.ofList [(categoryOf test.1, test)] = [(categoryOf test.1, [test])] := rfl
  have one : sorted [test] = [test] := by rw [sorted, List.mergeSort_singleton]
  rw [group, List.map_singleton]
  dsimp only
  rw [one]
  rfl

/-- The lines in front of the results of a run. -/
def warnings (all : Categories TestFile) (requests : List String) : List String :=
  (all.unmatched requests).map (requestWarning · (all.map (·.1)))

theorem runAll_eq (plain : Bool) (some_ : chosen (found path t) requests ≠ []) :
    runAll toml plain path (discover path (.ok t)) requests = report plain
      ((warnings (discover path (.ok t)) requests).map .line ++
        (chosenGroups (found path t) requests).flatMap fun group =>
          categorySaid plain group.1 (group.2.map (result toml path)))
      ((chosen (found path t) requests).map (result toml path)) := by
  have groups : chosenGroups (found path t) requests ≠ [] := mt chosen_eq_nil.2 some_
  have selected : ((discover path (.ok t)).select requests).isEmpty = false := by
    rw [select_discover, List.isEmpty_eq_false_iff]
    simpa using groups
  have all : (discover path (.ok t)).isEmpty = false := by
    cases none_ : discover path (.ok t) with
    | cons => rfl
    | nil =>
      rw [none_, Categories.select_nil] at selected
      cases selected
  unfold runAll
  dsimp only
  rw [all, selected, select_discover]
  simp only [Bool.false_eq_true, if_false, List.map_map, List.flatMap_map, Function.comp_def]
  rw [chosen, List.map_flatMap, warnings, List.map_map]
  rfl

theorem good_runAll_of_none (plain : Bool) (none_ : chosen (found path t) requests = []) :
    (runAll toml plain path (discover path (.ok t)) requests).good = false := by
  unfold runAll
  dsimp only
  split
  · rfl
  · have selected : ((discover path (.ok t)).select requests).isEmpty = true := by
      rw [select_discover, chosen_eq_nil.1 none_]
      rfl
    rw [selected]
    rfl

end

end Fixture

/-! ## The program -/

namespace Command

open Fixture FileTree

/-- What a run leaves that has come to some results: it says which failed, behind what it has said before and in
their order, and in its last line how many passed and failed. It succeeds if none failed, prints nothing and
writes nothing. -/
structure Outcome.Judges (o : Outcome) (fs : FileSystem) (plain : Bool) (told : List Said)
    (results : List Result) : Prop where
  said : o.said = told ++ (failureSection (failed results) ++
    ["", summary plain (passed results).length (failed results).length]).map .line
  numbers : (passed results).length + (failed results).length = results.length
  code : o.code = if failed results = [] then 0 else 1
  stdout : o.stdout = []
  files : o.files = fs

theorem judges_report (fs : FileSystem) (plain : Bool) (told : List Said) (results : List Result) :
    let r := report plain told results
    (⟨if r.good then 0 else 1, [], r.said, fs⟩ : Outcome).Judges fs plain told results := by
  intro r
  have lines := report_eq plain told results
  refine ⟨?_, length_passed_add_failed results, ?_, rfl, rfl⟩
  · show (report plain told results).said = _
    rw [lines]
  · show (if (report plain told results).good then 0 else 1) = _
    rw [lines]
    simp only [List.isEmpty_iff]

section

variable {o : Outcome} {fs : FileSystem} {plain : Bool} {told : List Said} {results : List Result}

theorem Outcome.Judges.code_eq_zero (h : o.Judges fs plain told results) :
    o.code = 0 ↔ ∀ r ∈ results, r.failure = none := by
  rw [h.code, failed]
  simp [List.filter_eq_nil_iff]

/-- Whatever a log lets through, the last lines are about the results. -/
theorem Outcome.Judges.shown (h : o.Judges fs plain told results) (passes : Note → Bool) :
    Said.shown passes o.said = Said.shown passes told ++ (failureSection (failed results) ++
      ["", summary plain (passed results).length (failed results).length]).map .line := by
  rw [h.said, Said.shown_append, Said.shown_lines]

end

theorem failure_result {toml : Toml.Library} {path : String} {test : List FileName × Contents} :
    (result toml path test).failure = none ↔ Passes toml test.2 := failure_runFile

section

variable {toml : Toml.Library} {look : String → Except FileFault FileTree} {fs : FileSystem} {r : TestRequest}
  {access : Access} {entries : List (FileName × FileTree)}

theorem runTest_folder (runs : r.list = false) (there : look r.path = .ok (.folder access entries)) :
    runTest toml look fs r =
      let told := runAll toml r.plain r.path (discover r.path (.ok (.folder access entries))) r.categories
      ⟨if told.good then 0 else 1, [], told.said, fs⟩ := by
  rw [runTest, there, runs]
  rfl

theorem judges_folder (runs : r.list = false) (there : look r.path = .ok (.folder access entries))
    (some_ : chosen (found r.path (.folder access entries)) r.categories ≠ []) :
    (runTest toml look fs r).Judges fs r.plain
      ((warnings (discover r.path (.ok (.folder access entries))) r.categories).map .line ++
        (chosenGroups (found r.path (.folder access entries)) r.categories).flatMap fun group =>
          categorySaid r.plain group.1 (group.2.map (result toml r.path)))
      ((chosen (found r.path (.folder access entries)) r.categories).map (result toml r.path)) := by
  rw [runTest_folder runs there, runAll_eq r.plain some_]
  exact judges_report fs r.plain _ _

theorem judges_file {contents : Contents} (runs : r.list = false) (there : look r.path = .ok (.file contents)) :
    let alone := runFile toml ⟨bytes r.path, fileName r.path, contents⟩
    (runTest toml look fs r).Judges fs r.plain (resultSaid r.plain alone) [alone] := by
  intro alone
  have ran : runTest toml look fs r =
      let told := report r.plain (resultSaid r.plain alone) [alone]
      ⟨if told.good then 0 else 1, [], told.said, fs⟩ := by
    rw [runTest, there, runs]
    rfl
  rw [ran]
  exact judges_report fs r.plain _ _

end

/-- A folder whose name has a backslash in it is none of its own: its tests stand in the category of a folder
within a folder, and run when the outer one is asked for. A test in a folder that is not listed is not run, and
neither is one whose name is no text. -/
theorem run_tests_other_files :
    let good := bytes "---\n\n---\n"
    let fs : FileSystem := ⟨[(["w", "t", "a\\b", "x.test.html"], good)], [], ["w"]⟩
    let inner : FileTree := .folder ⟨true, true⟩ [(bytes "x.test.html", .file (.ok good))]
    let hidden : FileTree := .folder ⟨false, true⟩ [(bytes "x.test.html", .file (.ok good))]
    let top : FileTree := .folder ⟨true, true⟩ [(bytes "a", hidden), (0xFF :: bytes ".test.html", .file (.ok good))]
    let behind := run fs ["test", "--no-color", "-c", "a", "t"]
    let none_ := runWith own (fun _ => .ok top) fs ["test", "--no-color", "t"]
    fs.look "t" = .ok (.folder ⟨true, true⟩ [(bytes "a\\b", inner)]) ∧ ¬ Categories.Wanted ["a"] "a\\b" ∧
    behind.code = 0 ∧
    behind.stderr = unlines ["", "a/b", "  PASS  x", "", "test result: ok. 1 passed, 0 failed"] ∧
    none_.code = 1 ∧ none_.stderr = unlines ["no .test.html files found in t"] := by
  intro good fs inner hidden top behind none_
  have asked : own.parse ["test", "--no-color", "-c", "a", "t"] = .read (.test ⟨"t", ["a"], false, true, false⟩) := by
    decide +kernel
  have looked : fs.look "t" = .ok (.folder ⟨true, true⟩ [(bytes "a\\b", inner)]) := by with_unfolding_all rfl
  have walk : found "t" (.folder ⟨true, true⟩ [(bytes "a\\b", inner)]) =
      [([bytes "a\\b", bytes "x.test.html"], .ok good)] := by with_unfolding_all rfl
  have ran : behind = runTest Toml.library fs.look fs ⟨"t", ["a"], false, true, false⟩ := by
    show run fs _ = _
    rw [run, runWith, asked]
    rfl
  rw [runTest_folder rfl looked, discover_singleton walk] at ran
  have asked' : own.parse ["test", "--no-color", "t"] = .read (.test ⟨"t", [], false, true, false⟩) := by
    decide +kernel
  have walk' : testsAt (bytes "t") [] none top = [] := by with_unfolding_all rfl
  have empty : discover "t" (.ok top) = [] := by
    rw [discover]
    dsimp only
    rw [walk']
    rfl
  have ran' : none_ = runTest Toml.library (fun _ => .ok top) fs ⟨"t", [], false, true, false⟩ := by
    show runWith own _ fs _ = _
    rw [runWith, asked']
    rfl
  rw [runTest_folder rfl rfl, empty] at ran'
  refine ⟨looked, by decide +kernel, ?_, ?_, ?_, ?_⟩
  · rw [ran]
    decide +kernel
  · rw [ran]
    decide +kernel
  · rw [ran']
    decide +kernel
  · rw [ran']
    decide +kernel

/-- **The verdict on tests.** A run over a folder takes up what stands below it at any depth, is called like a test
and is asked for: what is in folders that are listed and can be looked at on the whole way, in a category that some
request names or stands around, or in any if there is no request. A category is the names of the folders on the
way, each backslash read as a slash. The tests are run once each, in the ascending order of category and path. The
run succeeds exactly if there is a test and all pass. If there is one, it says the result of each, category by
category and behind the notes that were made of it, then the failed ones, and last how many passed and failed,
which makes all of them. A run of a single file runs that file, whatever is asked for. -/
theorem run_judges {lib : Libraries} {look : String → Except FileFault FileTree} {fs : FileSystem}
    {args : List String} {r : TestRequest} (asked : lib.parse args = .read (.test r)) (runs : r.list = false) :
    (∀ access entries, look r.path = .ok (.folder access entries) → Distinct (.folder access entries) →
      ∃ tests : Finds,
        (∀ below contents, (below, contents) ∈ tests ↔
          Tested (.folder access entries) (bytes r.path) below contents ∧
            Categories.Wanted r.categories (categoryOf below)) ∧
        tests.Pairwise (fun a b => Before a.1 b.1) ∧
        ((runWith lib look fs args).code = 0 ↔ tests ≠ [] ∧ ∀ test ∈ tests, Passes lib.toml test.2) ∧
        (tests ≠ [] → ∃ groups : Categories (List FileName × Contents), groups.Ascending ∧
          groups.flatMap (·.2) = tests ∧ (∀ group ∈ groups, ∀ test ∈ group.2, categoryOf test.1 = group.1) ∧
          (runWith lib look fs args).Judges fs r.plain
            ((warnings (discover r.path (look r.path)) r.categories).map .line ++ groups.flatMap fun group =>
              categorySaid r.plain group.1 (group.2.map (result lib.toml r.path)))
            (tests.map (result lib.toml r.path)))) ∧
    ∀ contents, look r.path = .ok (.file contents) →
      let alone := runFile lib.toml ⟨bytes r.path, fileName r.path, contents⟩
      ((runWith lib look fs args).code = 0 ↔ Passes lib.toml contents) ∧
      (runWith lib look fs args).Judges fs r.plain (resultSaid r.plain alone) [alone] := by
  have ran : runWith lib look fs args = runTest lib.toml look fs r := by rw [runWith, asked]
  rw [ran]
  constructor
  · intro access entries there distinct
    have judges := @judges_folder lib.toml look fs r access entries runs there
    rw [← there] at judges
    refine ⟨chosen (found r.path (.folder access entries)) r.categories, fun below contents => ?_,
      ascending_chosen (nodup_testsAt distinct _ _ _) _, ?_, fun some_ => ⟨_, ascending_chosenGroups _ _, rfl,
        fun group mem test => category_of_mem mem, judges some_⟩⟩
    · rw [mem_chosen, found, mem_testsAt_iff distinct]
    · by_cases none_ : chosen (found r.path (.folder access entries)) r.categories = []
      · rw [runTest_folder runs there]
        simp [good_runAll_of_none r.plain none_, none_]
      · rw [(judges none_).code_eq_zero, List.forall_mem_map]
        simp only [failure_result, ne_eq, none_, not_false_iff, true_and]
  · intro contents there
    have judges := @judges_file lib.toml look fs r contents runs there
    refine ⟨judges.code_eq_zero.trans ?_, judges⟩
    rw [List.forall_mem_singleton, failure_runFile]

/-- Two requests that overlap, a test of theirs in a folder that can be listed only, another one behind a
backslash, next to a folder that cannot be listed, and one that is run alone although nobody asks for its
category. -/
theorem run_judges_overlapping :
    ∃ (fs : FileSystem) (look : String → Except FileFault FileTree) (good : Contents) (tests : Finds),
      ([bytes "a", bytes "x.test.html"], good) ∈ tests ∧
      ([bytes "a", bytes "b", bytes "y.test.html"], .error .denied) ∈ tests ∧
      ([bytes "a\\b", bytes "w.test.html"], good) ∈ tests ∧
      ([bytes "z.test.html"], good) ∉ tests ∧
      ([bytes "a\\b", bytes "c", bytes "v.test.html"], good) ∉ tests ∧
      tests.Pairwise (fun a b => Before a.1 b.1) ∧
      (runWith own look fs ["test", "-c", "a/b", "-c", "/a/", "t"]).code ≠ 0 ∧
      (runWith own look fs ["test", "t/a/x.test.html", "-c", "c"]).code = 0 := by
  let fs : FileSystem := ⟨[], [], []⟩
  let good : Contents := .ok (bytes "---\n\n---\n")
  let entries : List (FileName × FileTree) := [(bytes "z.test.html", .file good),
    (bytes "a\\b", .folder ⟨true, true⟩ [(bytes "w.test.html", .file good),
      (bytes "c", .folder ⟨false, true⟩ [(bytes "v.test.html", .file good)])]),
    (bytes "a", .folder ⟨true, true⟩ [(bytes "x.test.html", .file good),
      (bytes "b", .folder ⟨true, false⟩ [(bytes "y.test.html", .file good)])])]
  let look (path : String) : Except FileFault FileTree :=
    .ok (if path = "t" then .folder ⟨true, true⟩ entries else .file good)
  have distinct : Distinct (.folder ⟨true, true⟩ entries) := by
    have leaf (access : Access) (name : FileName) : Distinct (.folder access [(name, .file good)]) :=
      .folder (List.nodup_singleton name) (List.forall_mem_singleton.2 (.file good))
    refine .folder (by decide +kernel) ?_
    simp only [entries, List.forall_mem_cons, List.not_mem_nil, false_implies, implies_true, and_true]
    refine ⟨.file good, .folder (by decide +kernel) ?_, .folder (by decide +kernel) ?_⟩
    · exact List.forall_mem_cons.2 ⟨.file good, List.forall_mem_singleton.2 (leaf _ _)⟩
    · exact List.forall_mem_cons.2 ⟨.file good, List.forall_mem_singleton.2 (leaf _ _)⟩
  have walk : found "t" (.folder ⟨true, true⟩ entries) =
      [([bytes "z.test.html"], good), ([bytes "a\\b", bytes "w.test.html"], good),
        ([bytes "a", bytes "x.test.html"], good),
        ([bytes "a", bytes "b", bytes "y.test.html"], .error .denied)] := by
    with_unfolding_all rfl
  have tested (below : List FileName) (contents : Contents) :
      Tested (.folder ⟨true, true⟩ entries) (bytes "t") below contents ↔
        (below, contents) ∈ found "t" (.folder ⟨true, true⟩ entries) := (mem_testsAt_iff distinct).symm
  have asked : own.parse ["test", "-c", "a/b", "-c", "/a/", "t"] =
      .read (.test ⟨"t", ["a/b", "/a/"], false, false, false⟩) := by decide +kernel
  have alone : own.parse ["test", "t/a/x.test.html", "-c", "c"] =
      .read (.test ⟨"t/a/x.test.html", ["c"], false, false, false⟩) := by decide +kernel
  have checked (contents : Contents) : (runFile Toml.library ⟨[], [], contents⟩).failure = none ↔
      Passes Toml.library contents := failure_runFile
  have passes : Passes Toml.library good := (checked good).1 (by decide +kernel)
  have fails : ¬ Passes Toml.library (.error .denied) := mt (checked _).2 (by decide +kernel)
  obtain ⟨folder, -⟩ := @run_judges _ look fs _ _ asked rfl
  obtain ⟨-, file⟩ := @run_judges _ look fs _ _ alone rfl
  obtain ⟨tests, mem, ascending, verdict, -⟩ := folder ⟨true, true⟩ entries rfl distinct
  obtain ⟨single, -⟩ := file good rfl
  have locked : ([bytes "a", bytes "b", bytes "y.test.html"], .error .denied) ∈ tests :=
    (mem _ _).2 ⟨(tested _ _).2 (by simp [walk]), by decide +kernel⟩
  refine ⟨fs, look, good, tests, (mem _ _).2 ⟨(tested _ _).2 (by simp [walk]), by decide +kernel⟩, locked,
    (mem _ _).2 ⟨(tested _ _).2 (by simp [walk]), by decide +kernel⟩, fun other => ?_, fun hidden => ?_, ascending,
    fun zero => fails ((verdict.1 zero).2 _ locked), single.2 passes⟩
  · have wanted := ((mem _ _).1 other).2
    revert wanted
    decide +kernel
  · have names := List.mem_map_of_mem (f := (·.1)) (walk ▸ (tested _ _).1 ((mem _ _).1 hidden).1)
    revert names
    decide +kernel

end Command

end Stencil
