import Stencil.Command
import Stencil.Proofs.Located

/-!
# Names of blocks in reports

Reports name a block by a label, which is made on the way down: a block below one labelled like the
root gets its own name only. So the label of a nested block is its dotted path, except that names
`root` at the front of the path are lost as long as another name follows (`label_eq_dotted_iff`).
The listing of a template prints the dotted path of every nested block (`blockPathsAll_eq`).
-/

namespace Stencil

/-- The names of a path with dots between them. -/
def dotted (path : List String) : String := ".".intercalate path

/-- What is left of a path in a label: without the names at its front that are mistaken for the root. -/
def shown : List String → List String
  | [] => []
  | [name] => [name]
  | name :: next :: path => if name = rootLabel then shown (next :: path) else name :: next :: path

/-- How reports name the block at a path. -/
def label (path : List String) : String :=
  if path = [] then rootLabel else dotted (shown path)

theorem dotted_snoc {path : List String} (some_ : path ≠ []) (name : String) :
    dotted (path ++ [name]) = dotted path ++ "." ++ name := by
  unfold dotted
  rw [String.intercalate_append_of_ne_nil some_ (List.cons_ne_nil _ _), String.intercalate_singleton]

theorem shown_ne_nil {path : List String} (some_ : path ≠ []) : shown path ≠ [] := by
  fun_induction shown path with
  | case1 => exact absurd rfl some_
  | case2 name => exact List.cons_ne_nil _ _
  | case3 next path ih => exact ih (List.cons_ne_nil _ _)
  | case4 name next path _ => exact List.cons_ne_nil _ _

/-- There is no dot in the label of the root, so no other path is written like it. -/
theorem eq_of_dotted_eq_root {path : List String} (h : dotted path = rootLabel) : path = [rootLabel] := by
  match path with
  | [] => exact absurd h (by decide)
  | [name] =>
    unfold dotted at h
    rw [String.intercalate_singleton] at h
    rw [h]
  | name :: next :: path =>
    have dot : '.' ∈ (dotted (name :: next :: path)).toList := by
      unfold dotted
      rw [String.intercalate_cons_cons, String.toList_append, String.toList_append]
      exact List.mem_append_left _ (List.mem_append_right _ (by decide))
    rw [h] at dot
    exact absurd dot (by decide)

/-- A path that is shown as `root` shows nothing in front of a further name; any other path stays. -/
theorem shown_snoc {path : List String} (some_ : path ≠ []) (name : String) :
    shown (path ++ [name]) = if shown path = [rootLabel] then [name] else shown path ++ [name] := by
  fun_induction shown path with
  | case1 => exact absurd rfl some_
  | case2 first =>
    by_cases hidden : first = rootLabel
    · simp [shown, hidden]
    · simp [shown, hidden]
  | case3 next path ih =>
    rw [List.cons_append, List.cons_append, shown, if_pos rfl]
    exact ih (List.cons_ne_nil _ _)
  | case4 first next path other =>
    rw [List.cons_append, List.cons_append, shown, if_neg other, if_neg (by simp)]

/-- The labels made on the way down are those of the paths. -/
theorem childLabel_label (path : List String) (name : String) :
    childLabel (label path) name = label (path ++ [name]) := by
  have longer : path ++ [name] ≠ [] := by simp
  unfold childLabel label
  rw [if_neg longer]
  by_cases top : path = []
  · subst top
    rfl
  rw [if_neg top, shown_snoc top]
  by_cases hidden : shown path = [rootLabel]
  · rw [if_pos hidden, hidden, if_pos (by decide)]
    exact String.intercalate_singleton.symm
  · have apart : dotted (shown path) ≠ rootLabel := fun h => hidden (eq_of_dotted_eq_root h)
    rw [if_neg apart, if_neg hidden, dotted_snoc (shown_ne_nil top)]

/-- A path is at least as long as what is shown of it. -/
theorem length_dotted_shown_le (path : List String) : (dotted (shown path)).length ≤ (dotted path).length := by
  fun_induction shown path with
  | case1 => exact Nat.le_refl _
  | case2 => exact Nat.le_refl _
  | case3 next path ih =>
    unfold dotted at ih ⊢
    rw [String.intercalate_cons_cons, String.length_append]
    omega
  | case4 => exact Nat.le_refl _

/-- A nested block is labelled by its dotted path unless the path goes on behind a first name `root`. -/
theorem label_eq_dotted_iff {path : List String} (nested : path ≠ []) :
    label path = dotted path ↔ ¬ ∃ next rest, path = rootLabel :: next :: rest := by
  unfold label
  rw [if_neg nested]
  match path with
  | [] => exact absurd rfl nested
  | [name] =>
    refine iff_of_true rfl ?_
    rintro ⟨next, rest, e⟩
    cases e
  | name :: next :: path =>
    by_cases hidden : name = rootLabel
    · subst hidden
      refine iff_of_false (fun same => ?_) fun other => other ⟨next, path, rfl⟩
      have shorter := length_dotted_shown_le (next :: path)
      rw [shown, if_pos rfl] at same
      rw [same] at shorter
      unfold dotted at shorter
      rw [String.intercalate_cons_cons, String.length_append, String.length_append] at shorter
      have : rootLabel.length = 4 := by decide
      omega
    · rw [shown, if_neg hidden]
      refine iff_of_true rfl ?_
      rintro ⟨_, _, e⟩
      cases e
      exact hidden rfl

/-! ## The listing -/

/-- What the listing prints in front of the names below a path. -/
def lead (path : List String) : String := String.join (path.map (· ++ "."))

theorem lead_append_name (path : List String) (name : String) : lead path ++ name = dotted (path ++ [name]) := by
  unfold lead dotted
  induction path with
  | nil => rw [List.map_nil, String.join_nil, List.nil_append, String.intercalate_singleton, String.empty_append]
  | cons first path ih =>
    rw [List.map_cons, String.join_cons, String.append_assoc, ih, List.cons_append,
      String.intercalate_cons_of_ne_nil (by simp)]

theorem lead_snoc (path : List String) (name : String) : dotted (path ++ [name]) ++ "." = lead (path ++ [name]) := by
  unfold lead
  rw [← lead_append_name, lead, List.map_append, String.join_append, List.map_singleton, String.join_cons,
    String.join_nil, String.append_empty, String.append_assoc]

namespace Block

theorem blockPathsAll_of_each {cs : List Block} {path : List String}
    (each : ∀ c ∈ cs, Command.blockPaths (lead path) c =
      (c.located (path ++ [c.name.getD ""])).map fun x => dotted x.1) :
    Command.blockPathsAll (lead path) cs = (locatedAll path cs).map fun x => dotted x.1 := by
  induction cs with
  | nil => rfl
  | cons c cs ih =>
    rw [Command.blockPathsAll, locatedAll, List.map_append, each c List.mem_cons_self,
      ih fun d hd => each d (List.mem_cons_of_mem _ hd)]

/-- The listing has the dotted paths of a nested block and of all blocks nested in it, in their order. -/
theorem blockPaths_eq (b : Block) (path : List String) :
    Command.blockPaths (lead path) b = (b.located (path ++ [b.name.getD ""])).map fun x => dotted x.1 := by
  induction b using nestInduction generalizing path with
  | nest b ih =>
    have parts : Command.blockPaths (lead path) b =
        (lead path ++ b.name.getD "") :: Command.blockPathsAll (lead path ++ b.name.getD "" ++ ".") b.children := by
      cases b
      rw [Command.blockPaths]
    rw [parts, located_eq, List.map_cons, lead_append_name, lead_snoc, blockPathsAll_of_each fun c hc => ih c hc _]

/-- Of a template, it has those of all blocks but the root. -/
theorem blockPathsAll_eq (b : Block) :
    Command.blockPathsAll "" b.children = (locatedAll [] b.children).map fun x => dotted x.1 := by
  have top : lead [] = "" := rfl
  rw [← top]
  exact blockPathsAll_of_each fun c _ => blockPaths_eq c []

end Block

end Stencil
