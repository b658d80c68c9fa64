import Stencil.Proofs.Places
import Stencil.Fixture.Categories

/-!
# Test files by category

Grouping keeps the things of a list by their categories: each category that occurs has one group, the groups
stand in ascending order, and a group has its things in the order of the list (`grouped_ofList`). What is selected
are the groups that are asked for (`selects_select`), and it makes no difference to that what the things are
(`select_map`).
-/

namespace Stencil.Fixture

/-! ## Groups -/

namespace Categories

variable {α β : Type}

/-- Categories stand in ascending order. -/
def Ascending (cs : Categories α) : Prop := cs.Pairwise fun a b => a.1 < b.1

instance (cs : Categories α) : Decidable cs.Ascending := inferInstanceAs (Decidable (cs.Pairwise _))

/-- The things of a category, in the order of a list. -/
def thingsOf (things : List (String × α)) (category : String) : List α :=
  (things.filter (·.1 = category)).map (·.2)

/-- The groups are those of the things of a list: the categories that occur, each with all its things. -/
structure Grouped (things : List (String × α)) (cs : Categories α) : Prop where
  ascending : cs.Ascending
  mem : ∀ category as, (category, as) ∈ cs ↔ as = thingsOf things category ∧ as ≠ []

theorem Ascending.distinct {cs : Categories α} (h : cs.Ascending) : (cs.map (·.1)).Nodup := by
  rw [List.Nodup, List.pairwise_map]
  refine h.imp fun less same => ?_
  rw [same] at less
  exact String.lt_irrefl _ less

/-- A category has one group. -/
theorem Ascending.eq_of_category {cs : Categories α} (h : cs.Ascending) {a b : String × List α} (ha : a ∈ cs)
    (hb : b ∈ cs) (same : a.1 = b.1) : a = b := by
  have first := (lookup_eq_some_iff_mem h.distinct).2 ha
  rw [same, (lookup_eq_some_iff_mem h.distinct).2 hb] at first
  exact Prod.ext same (Option.some.inj first).symm

section

variable {cs : Categories α}

theorem mem_alter {category c : String} {change : Option (List α) → List α} {as : List α}
    (h : (c, as) ∈ alter category change cs) : c = category ∨ (c, as) ∈ cs := by
  induction cs with
  | nil => exact .inl (Prod.mk.inj (List.mem_singleton.1 h)).1
  | cons first rest ih =>
    obtain ⟨k, bs⟩ := first
    rw [alter] at h
    split at h
    · rcases List.mem_cons.1 h with new | old
      · exact .inl (Prod.mk.inj new).1
      · exact .inr old
    · split at h
      · rcases List.mem_cons.1 h with new | old
        · exact .inl (Prod.mk.inj new).1
        · exact .inr (List.mem_cons_of_mem _ old)
      · rcases List.mem_cons.1 h with first | later
        · exact .inr (first ▸ List.mem_cons_self)
        · exact (ih later).imp_right (List.mem_cons_of_mem _)

theorem Ascending.alter (h : cs.Ascending) (category : String) (change : Option (List α) → List α) :
    (alter category change cs).Ascending := by
  induction cs with
  | nil => exact List.pairwise_singleton _ _
  | cons first rest ih =>
    obtain ⟨k, bs⟩ := first
    obtain ⟨before, behind⟩ := List.pairwise_cons.1 h
    rw [Categories.alter]
    split
    · next less =>
      refine List.pairwise_cons.2 ⟨fun other mem => ?_, h⟩
      rcases List.mem_cons.1 mem with rfl | later
      · exact less
      · exact String.lt_trans less (before other later)
    · split
      · next same =>
        subst same
        exact List.pairwise_cons.2 ⟨before, behind⟩
      · next least apart =>
        refine List.pairwise_cons.2 ⟨fun other mem => ?_, ih behind⟩
        rcases mem_alter mem with new | old
        · have larger : k < category :=
            String.not_le.1 fun le => apart (String.le_antisymm le (String.not_lt.1 least))
          exact new ▸ larger
        · exact before other old

/-- The group that is altered becomes what it should; all other groups are kept. -/
theorem lookup_alter (h : cs.Ascending) (category : String) (change : Option (List α) → List α) (c : String) :
    (alter category change cs).lookup c = if c = category then some (change (cs.lookup category)) else cs.lookup c := by
  induction cs with
  | nil => exact lookup_cons_eq c (category, change none) []
  | cons first rest ih =>
    obtain ⟨k, bs⟩ := first
    obtain ⟨before, behind⟩ := List.pairwise_cons.1 h
    rw [alter]
    split
    · next less =>
      -- The new category comes before all others, so that it is none of them.
      have new : List.lookup category ((k, bs) :: rest) = none := by
        refine List.lookup_eq_none_iff.2 fun other mem => bne_iff_ne.2 fun same => ?_
        rcases List.mem_cons.1 mem with rfl | later
        · exact String.lt_irrefl _ (same ▸ less)
        · exact String.lt_irrefl _ (String.lt_trans (same ▸ less) (before other later))
      rw [lookup_cons_eq, new]
    · split
      · next same =>
        subst same
        rw [lookup_cons_eq, lookup_cons_eq, lookup_cons_eq]
        by_cases here : c = category <;> simp [here]
      · next apart =>
        rw [lookup_cons_eq, lookup_cons_eq, lookup_cons_eq, ih behind]
        by_cases here : c = k
        · simp [here, Ne.symm apart]
        · simp [here, apart]

/-- The groups can be mapped before or after one of them is altered. -/
theorem alter_map {f : α → β} (change : Option (List α) → List α) (change' : Option (List β) → List β)
    (same : ∀ as, change' (as.map (List.map f)) = (change as).map f) (category : String) (cs : Categories α) :
    alter category change' (cs.map fun group => (group.1, group.2.map f)) =
      (alter category change cs).map fun group => (group.1, group.2.map f) := by
  have new : change' none = (change none).map f := same none
  induction cs with
  | nil => simp [alter, new]
  | cons first rest ih =>
    have old : change' (some (first.2.map f)) = (change (some first.2)).map f := same (some first.2)
    rw [List.map_cons, alter, alter]
    split
    · simp [new]
    · split
      · simp [old]
      · rw [ih, List.map_cons]

end

theorem thingsOf_append (things more : List (String × α)) (category : String) :
    thingsOf (things ++ more) category = thingsOf things category ++ thingsOf more category := by
  rw [thingsOf, List.filter_append, List.map_append]
  rfl

theorem Grouped.lookup {things : List (String × α)} {cs : Categories α} (h : Grouped things cs) (category : String) :
    (cs.lookup category).getD [] = thingsOf things category := by
  cases found : cs.lookup category with
  | some as =>
    have mem := (lookup_eq_some_iff_mem h.ascending.distinct).1 found
    exact ((h.mem category as).1 mem).1
  | none =>
    cases all : thingsOf things category with
    | nil => rfl
    | cons a as =>
      have mem := (h.mem category (a :: as)).2 ⟨all.symm, List.cons_ne_nil a as⟩
      rw [(lookup_eq_some_iff_mem h.ascending.distinct).2 mem] at found
      cases found

theorem Grouped.add {things : List (String × α)} {cs : Categories α} (h : Grouped things cs) (category : String)
    (a : α) : Grouped (things ++ [(category, a)]) (add category a cs) := by
  have ascending : (Categories.add category a cs).Ascending := h.ascending.alter category _
  refine ⟨ascending, fun c as => ?_⟩
  rw [← lookup_eq_some_iff_mem ascending.distinct, Categories.add, lookup_alter h.ascending, thingsOf_append]
  by_cases same : c = category
  · have new : thingsOf [(category, a)] c = [a] := by simp [thingsOf, same]
    rw [if_pos same, h.lookup, new, same, Option.some_inj, eq_comm]
    refine (and_iff_left_of_imp ?_).symm
    rintro rfl
    simp
  · have none_ : thingsOf [(category, a)] c = [] := by simp [thingsOf, Ne.symm same]
    rw [if_neg same, lookup_eq_some_iff_mem h.ascending.distinct, h.mem, none_, List.append_nil]

/-- Grouping makes groups of the things of a list. -/
theorem grouped_ofList (things : List (String × α)) : Grouped things (ofList things) := by
  have onto (seen : List (String × α)) (cs : Categories α) (h : Grouped seen cs) :
      Grouped (seen ++ things) (things.foldl (fun cs thing => add thing.1 thing.2 cs) cs) := by
    induction things generalizing seen cs with
    | nil =>
      rw [List.append_nil]
      exact h
    | cons thing things ih =>
      have rest := ih (seen ++ [thing]) _ (h.add thing.1 thing.2)
      rwa [List.append_assoc, List.singleton_append] at rest
  refine onto [] [] ⟨List.Pairwise.nil, fun c as => ?_⟩
  simp [thingsOf]

/-! ## Categories that are asked for -/

/-- A category is asked for by some requests: there is none, or one names it or a folder around it. -/
def Wanted (requests : List String) (category : String) : Prop :=
  requests = [] ∨ ∃ s ∈ requests, category = request s ∨ (request s ++ "/").toList <+: category.toList

instance (requests : List String) (category : String) : Decidable (Wanted requests category) :=
  inferInstanceAs (Decidable (_ ∨ _))

theorem matchesRequest_iff {requested category : String} : matchesRequest requested category = true ↔
    category = requested ∨ (requested ++ "/").toList <+: category.toList := by
  simp [matchesRequest]

section

variable {all cs : Categories α} {wanted : String → Prop}

/-- What is selected so far: of all groups those whose category is wanted. -/
structure Selects (all : Categories α) (wanted : String → Prop) (cs : Categories α) : Prop where
  ascending : cs.Ascending
  mem : ∀ group, group ∈ cs ↔ group ∈ all ∧ wanted group.1

theorem Selects.congr {wanted' : String → Prop} (h : Selects all wanted cs)
    (same : ∀ group ∈ all, wanted group.1 ↔ wanted' group.1) : Selects all wanted' cs :=
  ⟨h.ascending, fun group => (h.mem group).trans (and_congr_right (same group))⟩

theorem mem_put (h : cs.Ascending) {category : String} {as : List α} {group : String × List α} :
    group ∈ put category as cs ↔ group = (category, as) ∨ group.1 ≠ category ∧ group ∈ cs := by
  obtain ⟨c, bs⟩ := group
  have ascending : (put category as cs).Ascending := h.alter category _
  rw [← lookup_eq_some_iff_mem ascending.distinct, put, lookup_alter h, ← lookup_eq_some_iff_mem h.distinct]
  by_cases same : c = category
  · simp [same, eq_comm]
  · simp [same]

/-- A further group is put to those that are selected. -/
theorem Selects.put (h : Selects all wanted cs) (map : all.Ascending) {category : String} {as : List α}
    (here : (category, as) ∈ all) : Selects all (fun c => wanted c ∨ c = category) (put category as cs) := by
  refine ⟨h.ascending.alter category _, fun group => ?_⟩
  rw [mem_put h.ascending, h.mem]
  constructor
  · rintro (rfl | ⟨-, mem, wanted⟩)
    · exact ⟨here, .inr rfl⟩
    · exact ⟨mem, .inl wanted⟩
  · rintro ⟨mem, wanted⟩
    by_cases same : group.1 = category
    · exact .inl (map.eq_of_category mem here same)
    · exact .inr ⟨same, mem, wanted.resolve_right same⟩

/-- So are further groups, one after the other. -/
theorem Selects.putAll (h : Selects all wanted cs) (map : all.Ascending) {groups : Categories α}
    (here : ∀ group ∈ groups, group ∈ all) :
    Selects all (fun c => wanted c ∨ ∃ group ∈ groups, group.1 = c) (cs.putAll groups) := by
  induction groups generalizing cs wanted with
  | nil => exact h.congr (by simp)
  | cons group groups ih =>
    have first := h.put map (here group List.mem_cons_self)
    refine (ih first fun other mem => here other (List.mem_cons_of_mem _ mem)).congr fun other _ => ?_
    simp [or_assoc, eq_comm]

/-- The groups that one request asks for are put to those that are selected. -/
theorem Selects.request (h : Selects all wanted cs) (map : all.Ascending) (r : String) :
    Selects all (fun c => wanted c ∨ matchesRequest r c = true) (cs.putAll (all.asked r)) := by
  have asked (group : String × List α) : group ∈ all.asked r ↔ group ∈ all ∧ matchesRequest r group.1 = true :=
    List.mem_filter
  refine (h.putAll map fun group mem => ((asked group).1 mem).1).congr fun group mem => or_congr_right ?_
  constructor
  · rintro ⟨other, found, same⟩
    exact same ▸ ((asked other).1 found).2
  · exact fun matched => ⟨group, (asked group).2 ⟨mem, matched⟩, rfl⟩

/-- What is selected are the groups whose category is wanted. -/
theorem selects_select (map : all.Ascending) (requests : List String) :
    Selects all (Wanted requests) (all.select requests) := by
  -- By induction on the requests: what the earlier ones selected stays, and each puts its own to it.
  have each (wanted : String → Prop) (cs : Categories α) (h : Selects all wanted cs) :
      Selects all (fun c => wanted c ∨ ∃ s ∈ requests, matchesRequest (Categories.request s) c = true)
        (requests.foldl (fun selected s => selected.putAll (all.asked (Categories.request s))) cs) := by
    induction requests generalizing wanted cs with
    | nil => exact h.congr (by simp)
    | cons s requests ih =>
      exact (ih _ _ (h.request map (Categories.request s))).congr fun group _ => by simp [or_assoc]
  unfold select Wanted
  cases requests with
  | nil => exact ⟨map, by simp⟩
  | cons s requests =>
    have none_ : Selects all (fun _ => False) ([] : Categories α) := ⟨List.Pairwise.nil, by simp⟩
    exact (each _ _ none_).congr fun group _ => by simp [matchesRequest_iff]

end

/-- Of no groups none is selected. -/
theorem select_nil (requests : List String) : select ([] : Categories α) requests = [] :=
  List.eq_nil_iff_forall_not_mem.2 fun group mem =>
    List.not_mem_nil (((selects_select List.Pairwise.nil requests).mem group).1 mem).1

theorem putAll_map (f : α → β) (cs groups : Categories α) :
    putAll (cs.map fun group => (group.1, group.2.map f)) (groups.map fun group => (group.1, group.2.map f)) =
      (cs.putAll groups).map fun group => (group.1, group.2.map f) := by
  induction groups generalizing cs with
  | nil => rfl
  | cons group groups ih =>
    have first : put group.1 (group.2.map f) (cs.map fun group => (group.1, group.2.map f)) =
        (put group.1 group.2 cs).map fun group => (group.1, group.2.map f) :=
      alter_map (fun _ => group.2) (fun _ => group.2.map f) (fun _ => rfl) group.1 cs
    have rest := ih (put group.1 group.2 cs)
    rw [← first] at rest
    exact rest

theorem asked_map (f : α → β) (all : Categories α) (r : String) :
    asked (all.map fun group => (group.1, group.2.map f)) r =
      (all.asked r).map fun group => (group.1, group.2.map f) := by
  rw [asked, List.filter_map]
  rfl

theorem select_map (f : α → β) (all : Categories α) (requests : List String) :
    select (all.map fun group => (group.1, group.2.map f)) requests =
      (all.select requests).map fun group => (group.1, group.2.map f) := by
  have each (cs : Categories α) :
      requests.foldl (fun selected s =>
          putAll selected (asked (all.map fun group => (group.1, group.2.map f)) (request s)))
          (cs.map fun group => (group.1, group.2.map f)) =
        (requests.foldl (fun selected s => selected.putAll (all.asked (request s))) cs).map
          fun group => (group.1, group.2.map f) := by
    induction requests generalizing cs with
    | nil => rfl
    | cons s requests ih => rw [List.foldl_cons, List.foldl_cons, ← ih, asked_map, putAll_map]
  unfold select
  split
  · rfl
  · exact each []

end Categories

end Stencil.Fixture
