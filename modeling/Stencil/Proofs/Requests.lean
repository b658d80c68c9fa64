import Stencil.Proofs.Grouped
import Stencil.Proofs.Parts

/-!
# What requests select

A request asks for a category by its name or by that of a folder around it, and the slashes around the request
do not count (`AsksFor`). However the requests overlap, putting together what each asks for comes to the groups
of all categories that some request asks for, as they are in the map (`select_eq_filter`). All that matters of
the requests is therefore what is among them (`select_asked`).
-/

namespace Stencil.Fixture.Categories

open Text

variable {α : Type} {all : Categories α}

/-- A request asks for a category: without the slashes around it, it is the category or is followed by a slash
at the beginning of it. -/
def AsksFor (s category : String) : Prop :=
  ∃ core, Trims (· == '/') s.toList core ∧ (category.toList = core ∨ core ++ ['/'] <+: category.toList)

theorem asksFor_iff {s category : String} :
    AsksFor s category ↔ category = request s ∨ (request s ++ "/").toList <+: category.toList := by
  have core : (request s).toList = trimBoth (· == '/') s.toList := by rw [request, String.toList_ofList]
  have name : category = request s ↔ category.toList = trimBoth (· == '/') s.toList := by
    rw [← core, String.toList_inj]
  rw [name, String.toList_append, core]
  constructor
  · rintro ⟨core', trims, asked⟩
    rwa [trims.trimBoth_eq]
  · exact fun asked => ⟨_, trims_trimBoth _ _, asked⟩

/-- A request that asks for a category asks for those below it. -/
theorem AsksFor.below {s category sub : String} (h : AsksFor s category)
    (below : (category ++ "/").toList <+: sub.toList) : AsksFor s sub := by
  obtain ⟨core, trims, asked⟩ := h
  rw [String.toList_append] at below
  refine ⟨core, trims, .inr ?_⟩
  rcases asked with rfl | around
  · exact below
  · exact around.trans ((List.prefix_append _ _).trans below)

theorem wanted_iff {requests : List String} (some_ : requests ≠ []) {category : String} :
    Wanted requests category ↔ ∃ s ∈ requests, AsksFor s category := by
  simp only [Wanted, some_, false_or, asksFor_iff]

/-- What is selected are the groups of the map whose category is wanted, each with all that it has. -/
theorem select_eq_filter (map : all.Ascending) (requests : List String) :
    all.select requests = all.filter (Wanted requests ·.1) := by
  have selects := selects_select map requests
  have filtered : (all.filter (Wanted requests ·.1)).Pairwise fun a b => a.1 < b.1 := map.filter _
  -- Both are in ascending order, so that they are the same if they have the same groups.
  have same : List.Perm (all.select requests) (all.filter (Wanted requests ·.1)) := by
    have once {cs : Categories α} (h : cs.Ascending) : cs.Nodup := by
      refine h.imp ?_
      rintro a b less rfl
      exact String.lt_irrefl _ less
    refine (List.perm_ext_iff_of_nodup (once selects.ascending) (once filtered)).2 fun group => ?_
    rw [selects.mem, List.mem_filter, decide_eq_true_iff]
  exact same.eq_of_pairwise (fun a b _ _ less more => absurd more (String.lt_asymm less)) selects.ascending filtered

/-- **Selecting categories.** Without a request a map of categories is selected as it is. Some requests select
from it the groups whose category one of them asks for, each with the same files; so it matters neither in what
order the requests stand nor how often, more requests select more, all together select what each selects alone,
a category below a selected one is selected with it, and selecting again changes nothing. -/
theorem select_asked (map : all.Ascending) :
    all.select [] = all ∧
    ∀ requests ≠ [],
      ((all.select requests).Ascending ∧
        ∀ group, group ∈ all.select requests ↔ group ∈ all ∧ ∃ s ∈ requests, AsksFor s group.1) ∧
      (∀ others, (∀ s, s ∈ others ↔ s ∈ requests) → all.select others = all.select requests) ∧
      (∀ more, requests ⊆ more → (all.select requests).Sublist (all.select more)) ∧
      (∀ group, group ∈ all.select requests ↔ ∃ s ∈ requests, group ∈ all.select [s]) ∧
      (∀ group ∈ all.select requests, ∀ sub ∈ all, (group.1 ++ "/").toList <+: sub.1.toList →
        sub ∈ all.select requests) ∧
      (all.select requests).select requests = all.select requests := by
  refine ⟨rfl, fun requests some_ => ?_⟩
  have selects (others : List String) := selects_select map others
  have mem {others : List String} (some_ : others ≠ []) (group : String × List α) :
      group ∈ all.select others ↔ group ∈ all ∧ ∃ s ∈ others, AsksFor s group.1 := by
    rw [(selects others).mem, wanted_iff some_]
  have subset_ne {others : List String} (h : requests ⊆ others) : others ≠ [] := by
    rintro rfl
    exact some_ (List.subset_nil.1 h)
  have sublist (more : List String) (h : requests ⊆ more) : (all.select requests).Sublist (all.select more) := by
    rw [select_eq_filter map, select_eq_filter map]
    refine List.monotone_filter_right all fun group wanted => ?_
    rw [decide_eq_true_iff, wanted_iff (subset_ne h)]
    rw [decide_eq_true_iff, wanted_iff some_] at wanted
    obtain ⟨s, asked, asks⟩ := wanted
    exact ⟨s, h asked, asks⟩
  refine ⟨⟨(selects requests).ascending, mem some_⟩, fun others same => ?_, sublist, fun group => ?_, ?_, ?_⟩
  · have into : requests ⊆ others := fun s asked => (same s).2 asked
    rw [select_eq_filter map, select_eq_filter map]
    refine List.filter_congr fun group _ => ?_
    rw [decide_eq_decide, wanted_iff some_, wanted_iff (subset_ne into)]
    exact exists_congr fun s => and_congr_left' (same s)
  · rw [mem some_]
    constructor
    · rintro ⟨here, s, asked, asks⟩
      exact ⟨s, asked, (mem (List.cons_ne_nil s []) group).2 ⟨here, s, List.mem_cons_self, asks⟩⟩
    · rintro ⟨s, asked, alone⟩
      obtain ⟨here, s', only, asks⟩ := (mem (List.cons_ne_nil s []) group).1 alone
      rw [List.mem_singleton.1 only] at asks
      exact ⟨here, s, asked, asks⟩
  · intro group selected sub here below
    obtain ⟨-, s, asked, asks⟩ := (mem some_ group).1 selected
    exact (mem some_ sub).2 ⟨here, s, asked, asks.below below⟩
  · rw [select_eq_filter (selects requests).ascending, List.filter_eq_self]
    exact fun group selected => decide_eq_true (((selects requests).mem group).1 selected).2

/-- Requests that overlap, with slashes around them, and one that is the beginning of a name but of no path. -/
theorem select_asked_overlapping :
    ∃ all : Categories Nat, all.Ascending ∧ all.map (·.1) = ["", "a", "a/b", "a/b/c", "ab", "err", "errors"] ∧
      all.select ["a/b", "/a//", "er"] = [("a", [1, 2]), ("a/b", []), ("a/b/c", [3])] ∧
      all.select ["er", "a/b", "er", "/a//"] = all.select ["a/b", "/a//", "er"] ∧
      (all.select ["a/b"]).Sublist (all.select ["a/b", "/a//", "er"]) ∧
      (all.select ["a/b", "/a//", "er"]).select ["a/b", "/a//", "er"] = all.select ["a/b", "/a//", "er"] ∧
      ¬ AsksFor "er" "errors" := by
  let all : Categories Nat := [("", [0]), ("a", [1, 2]), ("a/b", []), ("a/b/c", [3]), ("ab", [4]), ("err", [5]),
    ("errors", [6])]
  have map : all.Ascending := by decide +kernel
  obtain ⟨-, each⟩ := select_asked map
  obtain ⟨⟨-, mem⟩, reordered, -, -, -, again⟩ := each ["a/b", "/a//", "er"] (List.cons_ne_nil _ _)
  obtain ⟨-, -, more, -⟩ := each ["a/b"] (List.cons_ne_nil _ _)
  refine ⟨all, map, rfl, by decide +kernel, reordered _ fun s => by simp; tauto, more _ (by simp), again,
    fun asks => ?_⟩
  have selected := (mem ("errors", [6])).2 ⟨by decide +kernel, "er", by simp, asks⟩
  exact absurd selected (by decide +kernel)

end Stencil.Fixture.Categories
