import Stencil.Proofs.Grouped
import Stencil.Proofs.Walked

/-!
# The tests of a run

Of what a walk finds, `chosen` is what is asked for: the tests whose category is wanted (`mem_chosen`), each of them
once and in the ascending order of category and path (`ascending_chosen`). They are run group by group, and a group
has the tests of one category (`mem_chosenGroups`).
-/

namespace Stencil.Fixture

open Categories

/-! ## The order of paths -/

theorem pathLe_iff {a b : List FileName} : pathLe a b = true ↔ a = b ∨ a < b := by
  induction a generalizing b with
  | nil =>
    cases b with
    | nil => simp [pathLe]
    | cons d ds => simp [pathLe, List.nil_lt_cons]
  | cons c cs ih =>
    cases b with
    | nil => simp [pathLe]
    | cons d ds =>
      rw [pathLe, List.cons_lt_cons_iff]
      by_cases same : c = d
      · subst same
        simp only [if_true, ih, List.cons.injEq, true_and, List.lt_irrefl, false_or]
      · simp [same]

theorem pathLe_trans {a b c : List FileName} (first : pathLe a b = true) (second : pathLe b c = true) :
    pathLe a c = true := by
  rw [pathLe_iff] at *
  rcases first with rfl | first
  · exact second
  · rcases second with rfl | second
    · exact .inr first
    · exact .inr (List.lt_trans first second)

theorem pathLe_total (a b : List FileName) : (pathLe a b || pathLe b a) = true := by
  induction a generalizing b with
  | nil => rfl
  | cons c cs ih =>
    cases b with
    | nil => rfl
    | cons d ds =>
      rw [pathLe, pathLe]
      by_cases same : c = d
      · simp [same, ih]
      · by_cases less : c < d
        · simp [same, less]
        · have larger : d < c := List.not_le.1 fun le => same (List.le_antisymm le (List.not_lt.1 less))
          simp [same, Ne.symm same, larger]

/-- Without a backslash in it, the category of a file is the path of its folder. -/
theorem categoryOf_of_plain {names : List FileName}
    (plain : '\\' ∉ (Text.shown ([FileTree.separator].intercalate names.dropLast)).toList) :
    categoryOf names = Text.shown ([FileTree.separator].intercalate names.dropLast) := by
  unfold categoryOf
  dsimp only
  generalize Text.shown ([FileTree.separator].intercalate names.dropLast) = folder at plain ⊢
  have kept : ∀ c ∈ folder.toList, (if c = '\\' then '/' else c) = c := by
    intro c mem
    refine if_neg ?_
    rintro rfl
    exact plain mem
  rw [List.map_congr_left kept, List.map_id', String.ofList_toList]

/-- A path comes before another one: by its category, and within a category name by name. -/
def Before (a b : List FileName) : Prop :=
  categoryOf a < categoryOf b ∨ categoryOf a = categoryOf b ∧ a < b

/-! ## Tests in order -/

theorem mem_sorted {finds : Finds} {x : List FileName × Contents} : x ∈ sorted finds ↔ x ∈ finds :=
  (List.mergeSort_perm _ _).mem_iff

theorem ascending_sorted {finds : Finds} (once : finds.Pairwise fun a b => a.1 ≠ b.1) :
    (sorted finds).Pairwise fun a b => a.1 < b.1 := by
  have ordered : (sorted finds).Pairwise fun a b => pathLe a.1 b.1 = true := by
    apply List.pairwise_mergeSort
    · exact fun a b c => pathLe_trans
    · exact fun a b => pathLe_total a.1 b.1
  have apart : (sorted finds).Pairwise fun a b => a.1 ≠ b.1 :=
    ((List.mergeSort_perm _ _).pairwise_iff fun h => Ne.symm h).2 once
  exact (ordered.and apart).imp fun both => (pathLe_iff.1 both.1).resolve_left both.2

/-! ## Tests that are asked for -/

/-- The groups of what is found that are asked for. -/
def chosenGroups (finds : Finds) (requests : List String) : Categories (List FileName × Contents) :=
  (byCategory finds).select requests

/-- What is asked for of what is found, in the order in which it is run. -/
def chosen (finds : Finds) (requests : List String) : Finds := (chosenGroups finds requests).flatMap (·.2)

variable {finds : Finds} {requests : List String}

theorem ascending_byCategory (finds : Finds) : (byCategory finds).Ascending :=
  List.pairwise_map.2 ((grouped_ofList _).ascending.imp id)

/-- A group has the tests of its category, in order. -/
theorem mem_byCategory {category : String} {files : Finds} :
    (category, files) ∈ byCategory finds ↔
      files = sorted (finds.filter (categoryOf ·.1 = category)) ∧ files ≠ [] := by
  have things : thingsOf (finds.map fun found => (categoryOf found.1, found)) category =
      finds.filter (categoryOf ·.1 = category) := by
    have same : Prod.snd ∘ (fun found : List FileName × Contents => (categoryOf found.1, found)) = id := rfl
    rw [thingsOf, List.filter_map, List.map_map, same, List.map_id]
    simp only [Function.comp_def]
  have empty (l : Finds) : sorted l = [] ↔ l = [] := by
    rw [← List.length_eq_zero_iff, sorted, List.length_mergeSort, List.length_eq_zero_iff]
  have grouped := (grouped_ofList (finds.map fun found => (categoryOf found.1, found))).mem category
  rw [things] at grouped
  unfold byCategory
  constructor
  · intro mem
    obtain ⟨⟨c, l⟩, there, same⟩ := List.mem_map.1 mem
    cases same
    obtain ⟨rfl, some_⟩ := (grouped l).1 there
    exact ⟨rfl, mt (empty _).1 some_⟩
  · rintro ⟨rfl, some_⟩
    exact List.mem_map.2 ⟨(category, _), (grouped _).2 ⟨rfl, mt (empty _).2 some_⟩, rfl⟩

theorem ascending_chosenGroups (finds : Finds) (requests : List String) : (chosenGroups finds requests).Ascending :=
  (selects_select (ascending_byCategory finds) requests).ascending

theorem mem_chosenGroups {category : String} {files : Finds} :
    (category, files) ∈ chosenGroups finds requests ↔ Wanted requests category ∧ files ≠ [] ∧
      files = sorted (finds.filter (categoryOf ·.1 = category)) := by
  rw [chosenGroups, (selects_select (ascending_byCategory finds) requests).mem, mem_byCategory, and_comm,
    and_comm (a := files = _)]

theorem category_of_mem {group : String × Finds} (mem : group ∈ chosenGroups finds requests)
    {file : List FileName × Contents} (here : file ∈ group.2) : categoryOf file.1 = group.1 := by
  rw [(mem_chosenGroups.1 mem).2.2, mem_sorted] at here
  simpa using (List.mem_filter.1 here).2

/-- What is chosen is what is found and whose category is wanted. -/
theorem mem_chosen {x : List FileName × Contents} :
    x ∈ chosen finds requests ↔ x ∈ finds ∧ Wanted requests (categoryOf x.1) := by
  rw [chosen, List.mem_flatMap]
  constructor
  · rintro ⟨group, mem, here⟩
    obtain ⟨wanted, -, all⟩ := mem_chosenGroups.1 mem
    rw [category_of_mem mem here]
    rw [all, mem_sorted] at here
    exact ⟨(List.mem_filter.1 here).1, wanted⟩
  · rintro ⟨here, wanted⟩
    have mem : x ∈ sorted (finds.filter (categoryOf ·.1 = categoryOf x.1)) :=
      mem_sorted.2 (List.mem_filter.2 ⟨here, by simp⟩)
    exact ⟨(categoryOf x.1, _), mem_chosenGroups.2 ⟨wanted, List.ne_nil_of_mem mem, rfl⟩, mem⟩

/-- It stands in the ascending order of category and path, so that nothing is there twice. -/
theorem ascending_chosen (once : finds.Pairwise fun a b => a.1 ≠ b.1) (requests : List String) :
    (chosen finds requests).Pairwise fun a b => Before a.1 b.1 := by
  rw [chosen, List.pairwise_flatMap]
  constructor
  · intro group mem
    have ordered : group.2.Pairwise fun a b => a.1 < b.1 := by
      rw [(mem_chosenGroups.1 mem).2.2]
      exact ascending_sorted (once.filter _)
    refine List.Pairwise.imp_of_mem (fun ha hb less => .inr ⟨?_, less⟩) ordered
    rw [category_of_mem mem ha, category_of_mem mem hb]
  · refine List.Pairwise.imp_of_mem (fun ha hb less a hx b hy => .inl ?_) (ascending_chosenGroups finds requests)
    rw [category_of_mem ha hx, category_of_mem hb hy]
    exact less

theorem chosen_eq_nil : chosen finds requests = [] ↔ chosenGroups finds requests = [] := by
  rw [chosen, List.flatMap_eq_nil_iff]
  refine ⟨fun none_ => List.eq_nil_iff_forall_not_mem.2 fun group mem => ?_, fun none_ => by simp [none_]⟩
  exact (mem_chosenGroups.1 mem).2.1 (none_ group mem)

end Stencil.Fixture
