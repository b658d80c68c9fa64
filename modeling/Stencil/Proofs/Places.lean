import Stencil.File

/-!
# Places of files

What stands at some names says what stands at the names on the way to them: `nothing` is handed on
(`nothing_below`), so a written path that can be followed has something at every place it passes
(`Entered`). Giving the file at such a place its bytes leaves all other places as they are (`node_write`), and
the path then reads what was written (`read_write`).
-/

namespace Stencil

section

variable {α β : Type} [BEq α] [LawfulBEq α] [DecidableEq α]

theorem lookup_cons_eq (key : α) (entry : α × β) (entries : List (α × β)) :
    (entry :: entries).lookup key = if key = entry.1 then some entry.2 else entries.lookup key := by
  rw [List.lookup_cons]
  by_cases same : key = entry.1
  · simp [same]
  · simp [same, beq_false_of_ne same]

/-- Under distinct keys, every entry is found by its key. -/
theorem lookup_eq_some_iff_mem {entries : List (α × β)} (distinct : (entries.map (·.1)).Nodup) {key : α} {value : β} :
    entries.lookup key = some value ↔ (key, value) ∈ entries := by
  induction entries with
  | nil => simp
  | cons entry entries ih =>
    obtain ⟨apart, distinct⟩ := List.nodup_cons.1 distinct
    rw [lookup_cons_eq, List.mem_cons]
    by_cases same : key = entry.1
    · subst same
      have other : (entry.1, value) ∉ entries := fun mem => apart (List.mem_map.2 ⟨_, mem, rfl⟩)
      simp [other, Prod.ext_iff, eq_comm]
    · have other : (key, value) ≠ entry := fun e => same (congrArg Prod.fst e)
      rw [if_neg same, ih distinct, or_iff_right other]

end

namespace FileSystem

variable {fs : FileSystem} {names : List String}

theorem leadsTo_iff {front path : List String} : leadsTo front path = true ↔ front <+: path ∧ front ≠ path := by
  rw [leadsTo, Bool.and_eq_true, List.isPrefixOf_iff_prefix, decide_eq_true_iff]
  refine and_congr_right fun h => ⟨?_, fun apart => ?_⟩
  · rintro less rfl
    exact Nat.lt_irrefl _ less
  · exact Nat.lt_of_le_of_ne h.length_le fun same => apart (h.eq_of_length same)

theorem lookup_files_eq_none : fs.files.lookup names = none ↔ ∀ file ∈ fs.files, names ≠ file.1 := by
  simp only [List.lookup_eq_none_iff, bne_iff_ne]

/-- Nothing stands at some names when they lead to no folder and to no file. -/
theorem node_eq_nothing : fs.node names = .nothing ↔
    names ≠ [] ∧ ¬ names <+: fs.home ∧ (∀ folder ∈ fs.folders, ¬ names <+: folder) ∧
      ∀ file ∈ fs.files, ¬ names <+: file.1 := by
  rw [node]
  cases found : fs.files.lookup names with
  | some bs =>
    obtain ⟨front, back, files, -⟩ := List.lookup_eq_some_iff.1 found
    refine ⟨nofun, ?_⟩
    rintro ⟨-, -, -, none_⟩
    have here : (names, bs) ∈ fs.files := by
      rw [files]
      exact List.mem_append_right _ List.mem_cons_self
    exact absurd (List.prefix_refl names) (none_ _ here)
  | none =>
    have apart := lookup_files_eq_none.1 found
    have leads : fs.files.any (leadsTo names ·.1) = true ↔ ∃ file ∈ fs.files, names <+: file.1 := by
      simp only [List.any_eq_true, leadsTo_iff]
      exact exists_congr fun file => and_congr_right fun mem => and_iff_left (apart file mem)
    simp only [ite_eq_right_iff, reduceCtorEq, imp_false, Bool.or_eq_true, leads, List.isEmpty_iff,
      List.isPrefixOf_iff_prefix, List.any_eq_true, not_or, not_exists, not_and, ne_eq, and_assoc]

/-- Below a place where nothing stands there is nothing. -/
theorem nothing_below {front : List String} (way : front <+: names) (h : fs.node front = .nothing) :
    fs.node names = .nothing := by
  obtain ⟨some_, home, folders, files⟩ := node_eq_nothing.1 h
  refine node_eq_nothing.2 ⟨fun none_ => ?_, fun on => home (way.trans on),
    fun folder mem on => folders folder mem (way.trans on), fun file mem on => files file mem (way.trans on)⟩
  subst none_
  exact some_ (List.prefix_nil.1 way)

/-- Something stands at each place on the way to some names. -/
def Entered (fs : FileSystem) (names : List String) : Prop :=
  ∀ front, front <+: names → front ≠ names → fs.node front ≠ .nothing

theorem entered_of_node (h : fs.node names ≠ .nothing) : fs.Entered names :=
  fun _ way _ none_ => h (nothing_below way none_)

theorem entered_snoc (h : fs.node names ≠ .nothing) (part : String) : fs.Entered (names ++ [part]) := by
  intro front way apart none_
  have shorter : front <+: names := by
    rcases List.prefix_concat_iff.1 way with same | shorter
    · exact absurd same apart
    · exact shorter
  exact h (nothing_below shorter none_)

/-! ## Following a path -/

/-- Where one part of a written path leads from a folder. -/
inductive Leads (names : List String) (part : String) : List String → Prop where
  | stay (h : part = "" ∨ part = ".") : Leads names part names
  | up (h : part = "..") : Leads names part names.dropLast
  | down (short : Text.byteCount part.toList ≤ nameLimit) : Leads names part (names ++ [part])

/-- A part is followed from a folder, and the same way from every folder. -/
theorem follow_cons {part : String} {parts out : List String} (ok : fs.follow names (part :: parts) = .ok out) :
    fs.node names = .folder ∧ ∃ next, Leads names part next ∧ fs.follow next parts = .ok out ∧
      ∀ fs' : FileSystem, fs'.node names = .folder → fs'.follow names (part :: parts) = fs'.follow next parts := by
  rw [follow] at ok
  split at ok
  · cases ok
  · cases ok
  · next folder =>
    refine ⟨folder, ?_⟩
    split at ok
    · next stays => exact ⟨names, .stay stays, ok, fun fs' there => by rw [follow, there, if_pos stays]⟩
    · next moves =>
      split at ok
      · next up => exact ⟨_, .up up, ok, fun fs' there => by rw [follow, there, if_neg moves, if_pos up]⟩
      · next down =>
        split at ok
        · cases ok
        · next short =>
          exact ⟨_, .down (Nat.le_of_not_lt short), ok, fun fs' there => by
            rw [follow, there, if_neg moves, if_neg down, if_neg short]⟩

/-- What some folder is followed to has been entered. -/
theorem entered_follow {parts out : List String} (entered : fs.Entered names)
    (ok : fs.follow names parts = .ok out) : fs.Entered out := by
  induction parts generalizing names with
  | nil =>
    cases ok
    exact entered
  | cons part parts ih =>
    obtain ⟨folder, next, leads, ok, -⟩ := follow_cons ok
    have here : fs.node names ≠ .nothing := by rw [folder]; nofun
    refine ih ?_ ok
    cases leads with
    | stay => exact entered
    | up => exact entered_of_node fun none_ => here (nothing_below (List.dropLast_prefix names) none_)
    | down => exact entered_snoc here part

/-- A path is followed the same way wherever all folders are still folders. -/
theorem follow_of_folders {fs' : FileSystem} {parts out : List String}
    (kept : ∀ names, fs.node names = .folder → fs'.node names = .folder)
    (ok : fs.follow names parts = .ok out) : fs'.follow names parts = .ok out := by
  induction parts generalizing names with
  | nil => exact ok
  | cons part parts ih =>
    obtain ⟨folder, next, -, ok, same⟩ := follow_cons ok
    rw [same fs' (kept names folder)]
    exact ih ok

theorem place_eq_ok {path : String} : fs.place path = .ok names ↔
    ∃ start parts, fs.route path = .ok (start, parts) ∧ fs.follow start parts = .ok names := by
  unfold place
  cases fs.route path with
  | error fault =>
    refine ⟨nofun, ?_⟩
    rintro ⟨_, _, route, _⟩
    cases route
  | ok both =>
    refine ⟨fun ok => ⟨both.1, both.2, rfl, ok⟩, ?_⟩
    rintro ⟨start, parts, same, ok⟩
    cases same
    exact ok

theorem read_of_place {path : String} (place : fs.place path = .ok names) :
    (∀ bs, fs.node names = .file bs → fs.read path = .ok bs) ∧
      (fs.node names = .folder → fs.read path = .error .isFolder) := by
  refine ⟨fun bs here => ?_, fun here => ?_⟩ <;>
    simp only [FileSystem.read, place, bind, Except.bind, here]

theorem entered_of_route {path : String} {start parts out : List String} (route : fs.route path = .ok (start, parts))
    (ok : fs.follow start parts = .ok out) : fs.Entered out := by
  refine entered_follow (entered_of_node ?_) ok
  have start_eq : start = [] ∨ start = fs.home := by
    rw [FileSystem.route] at route
    split at route
    · cases route
    · split at route <;> cases route
      · exact .inl rfl
      · exact .inr rfl
  rw [ne_eq, node_eq_nothing]
  rcases start_eq with rfl | rfl
  · exact fun none_ => none_.1 rfl
  · exact fun none_ => none_.2.1 (List.prefix_refl _)

/-- Where a file can be put, no folder stands, and the path leads there. -/
theorem target_eq_ok {path : String} (ok : fs.target path = .ok names) :
    fs.place path = .ok names ∧ fs.node names ≠ .folder ∧ fs.Entered names := by
  unfold target at ok
  cases route : fs.route path with
  | error fault =>
    rw [route] at ok
    cases ok
  | ok both =>
    obtain ⟨start, parts⟩ := both
    simp only [route, bind, Except.bind] at ok
    split at ok
    · split at ok <;> cases ok
    · cases followed : fs.follow start parts with
      | error fault =>
        rw [followed] at ok
        cases ok
      | ok out =>
        simp only [followed] at ok
        split at ok
        · cases ok
        · next file =>
          cases ok
          exact ⟨place_eq_ok.2 ⟨start, parts, route, followed⟩, file, entered_of_route route followed⟩

/-! ## Writing a file -/

theorem lookup_write (bs : List UInt8) (other : List String) :
    (fs.write names bs).files.lookup other = if other = names then some bs else fs.files.lookup other := by
  rw [write, List.lookup_append, lookup_cons_eq, List.lookup_nil]
  induction fs.files with
  | nil => rfl
  | cons file files ih =>
    rw [List.filter_cons, lookup_cons_eq other file files]
    by_cases old : file.1 = names
    · simp only [old, bne_self_eq_false, Bool.false_eq_true, if_false, ih]
      split <;> rfl
    · simp only [bne_iff_ne, ne_eq, old, not_false_iff, if_true, lookup_cons_eq other file]
      by_cases here : other = file.1
      · subst here
        simp [old]
      · simpa [here] using ih

/-- Of what is written to one place the last counts. -/
theorem write_write (fs : FileSystem) (names : List String) (bs bs' : List UInt8) :
    (fs.write names bs).write names bs' = fs.write names bs' := by
  simp [write, List.filter_append]

/-- What is no file is a folder or nothing. -/
theorem node_of_no_file (h : fs.files.lookup names = none) (something : fs.node names ≠ .nothing) :
    fs.node names = .folder := by
  rw [node, h] at something ⊢
  dsimp only at something ⊢
  split at something
  · next folder => rw [if_pos folder]
  · exact absurd rfl something

/-- At the place that is written to stand the new bytes; all other places stay as they are. -/
theorem node_write (entered : fs.Entered names) (bs : List UInt8) (other : List String) :
    (fs.write names bs).node other = if other = names then .file bs else fs.node other := by
  have found : (fs.write names bs).files.lookup other = if other = names then some bs else fs.files.lookup other :=
    lookup_write bs other
  by_cases same : other = names
  · rw [node, found, if_pos same, if_pos same]
  rw [if_neg same] at found ⊢
  cases file : fs.files.lookup other with
  | some old => rw [node, node, found, file]
  | none =>
    rw [file] at found
    -- The new file makes no folder: on the way to it something stood already.
    have nothing : (fs.write names bs).node other = .nothing ↔ fs.node other = .nothing := by
      constructor
      · intro none_
        obtain ⟨some_, home, folders, files⟩ := node_eq_nothing.1 none_
        refine node_eq_nothing.2 ⟨some_, home, folders, fun old mem on => ?_⟩
        by_cases replaced : old.1 = names
        · exact files (names, bs) (List.mem_append_right _ List.mem_cons_self) (replaced ▸ on)
        · exact files old (List.mem_append_left _ (List.mem_filter.2 ⟨mem, by simpa using replaced⟩)) on
      · intro none_
        obtain ⟨some_, home, folders, files⟩ := node_eq_nothing.1 none_
        refine node_eq_nothing.2 ⟨some_, home, folders, fun new mem on => ?_⟩
        rcases List.mem_append.1 mem with kept | added
        · exact files new (List.mem_filter.1 kept).1 on
        · rw [List.mem_singleton.1 added] at on
          exact entered other on same none_
    by_cases none_ : fs.node other = .nothing
    · rw [none_, nothing.2 none_]
    · rw [node_of_no_file file none_, node_of_no_file found (mt nothing.1 none_)]

/-- A path to which a file can be written reads back what was written. -/
theorem read_write {path : String} (ok : fs.target path = .ok names) (bs : List UInt8) :
    (fs.write names bs).read path = .ok bs := by
  obtain ⟨place, file, entered⟩ := target_eq_ok ok
  have kept (others : List String) (folder : fs.node others = .folder) :
      (fs.write names bs).node others = .folder := by
    have apart : others ≠ names := by
      rintro rfl
      exact file folder
    rw [node_write entered, if_neg apart, folder]
  obtain ⟨start, parts, route, followed⟩ := place_eq_ok.1 place
  have place' : (fs.write names bs).place path = .ok names :=
    place_eq_ok.2 ⟨start, parts, route, follow_of_folders kept followed⟩
  exact (read_of_place place').1 bs (by rw [node_write entered, if_pos rfl])

end FileSystem

end Stencil
