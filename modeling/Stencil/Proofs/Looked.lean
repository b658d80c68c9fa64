import Stencil.Proofs.Walked

/-!
# Files as a tree

The tree that is seen at a path among some files is that of the places behind it: it has just the files that stand
there (`at?_tree`), no folder of it has two entries of one name (`distinct_tree`), and nothing in it is kept back
(`open_tree`). So the tests that a walk through it finds are files at these places (`tested_of_look`).
-/

namespace Stencil

open Text

theorem nodup_eraseDups {α : Type} [BEq α] [LawfulBEq α] (l : List α) : l.eraseDups.Nodup := by
  induction len : l.length using Nat.strongRecOn generalizing l with
  | ind n ih =>
    cases l with
    | nil => simp
    | cons a l =>
      rw [List.eraseDups_cons]
      refine List.nodup_cons.2 ⟨by simp [List.mem_eraseDups], ih _ ?_ _ rfl⟩
      have shorter := List.length_filter_le (fun b => !b == a) l
      rw [← len, List.length_cons]
      omega

namespace FileSystem

variable {fs : FileSystem} {names : List String} {levels : Nat}

/-! ## What stands in a folder -/

theorem mem_namesIn {name : String} :
    name ∈ fs.namesIn names ↔ ∃ place ∈ fs.places, names ++ [name] <+: place := by
  rw [namesIn, List.mem_eraseDups, List.mem_filterMap]
  refine exists_congr fun place => and_congr_right fun _ => ?_
  constructor
  · intro taken
    split at taken
    · next leads =>
      obtain ⟨⟨rest, rfl⟩, -⟩ := leadsTo_iff.1 leads
      rw [List.drop_left] at taken
      obtain ⟨more, rfl⟩ := List.head?_eq_some_iff.1 taken
      exact ⟨more, by simp⟩
    · cases taken
  · rintro ⟨more, rfl⟩
    have leads : leadsTo names (names ++ [name] ++ more) = true := leadsTo_iff.2 ⟨⟨[name] ++ more, by simp⟩, by simp⟩
    rw [if_pos leads, List.append_assoc, List.drop_left]
    rfl

theorem node_eq_file {bs : List UInt8} (h : fs.node names = .file bs) : fs.files.lookup names = some bs := by
  rw [node] at h
  split at h
  · next found =>
    cases h
    exact found
  · split at h <;> cases h

theorem place_of_node {bs : List UInt8} (h : fs.node names = .file bs) : names ∈ fs.places := by
  obtain ⟨front, back, files, -⟩ := List.lookup_eq_some_iff.1 (node_eq_file h)
  simp [places, files]

/-- Some files lie apart: nothing stands behind a file. -/
def Apart (fs : FileSystem) : Prop :=
  ∀ names bs, fs.node names = .file bs → ∀ place ∈ fs.places, names <+: place → names = place

/-! ## The tree at some names -/

/-- So many levels are as deep as there is something behind some names. -/
def Reaches (fs : FileSystem) (levels : Nat) (names : List String) : Prop :=
  ∀ place ∈ fs.places, place.length ≤ names.length + levels

theorem Reaches.entry (deep : fs.Reaches levels names) (name : String) : fs.Reaches (levels - 1) (names ++ [name]) := by
  intro place mem
  have := deep place mem
  simp
  omega

theorem reaches_depth (fs : FileSystem) (names : List String) : fs.Reaches fs.depth names := by
  have most (ns : List Nat) (m : Nat) : m ≤ ns.foldl max m ∧ ∀ n ∈ ns, n ≤ ns.foldl max m := by
    induction ns generalizing m with
    | nil => simp
    | cons n ns ih =>
      obtain ⟨least, rest⟩ := ih (max m n)
      refine ⟨Nat.le_trans (Nat.le_max_left m n) least, fun k mem => ?_⟩
      rcases List.mem_cons.1 mem with rfl | mem
      · exact Nat.le_trans (Nat.le_max_right m k) least
      · exact rest k mem
  intro place mem
  have := (most (fs.places.map (·.length)) 0).2 _ (List.mem_map.2 ⟨place, mem, rfl⟩)
  rw [depth]
  omega

/-- The entries of a folder, with the trees that they are. -/
def entriesIn (fs : FileSystem) (levels : Nat) (names : List String) : List (FileName × FileTree) :=
  (fs.namesIn names).map fun name => (bytes name, fs.tree (levels - 1) (names ++ [name]))

/-- The tree is the file at the names, or the folder of what is there. -/
theorem tree_cases (deep : fs.Reaches levels names) :
    (∃ bs, fs.node names = .file bs ∧ fs.tree levels names = .file (.ok bs)) ∨
      (∀ bs, fs.node names ≠ .file bs) ∧
        fs.tree levels names = .folder ⟨true, true⟩ (fs.entriesIn levels names) := by
  by_cases file : ∃ bs, fs.node names = .file bs
  · obtain ⟨bs, here⟩ := file
    exact .inl ⟨bs, here, by cases levels <;> rw [tree, here]⟩
  · refine .inr ⟨not_exists.1 file, ?_⟩
    cases levels with
    | zero =>
      have none_ : fs.namesIn names = [] := by
        refine List.eq_nil_iff_forall_not_mem.2 fun name mem => ?_
        obtain ⟨place, known, way⟩ := mem_namesIn.1 mem
        have longer := way.length_le
        have shorter := deep place known
        simp at longer
        omega
      rw [entriesIn, none_, tree]
      split
      · next bs here => exact absurd ⟨bs, here⟩ file
      · rfl
    | succ levels =>
      rw [tree]
      split
      · next bs here => exact absurd ⟨bs, here⟩ file
      · rfl

theorem distinct_entriesIn : ((fs.entriesIn levels names).map (·.1)).Nodup := by
  rw [entriesIn, List.map_map, List.Nodup, List.pairwise_map]
  have once : (fs.namesIn names).Nodup := nodup_eraseDups _
  exact once.imp fun apart same => apart (bytes_inj.1 same)

theorem lookup_entriesIn {raw : FileName} {t : FileTree} : (fs.entriesIn levels names).lookup raw = some t ↔
    ∃ name ∈ fs.namesIn names, raw = bytes name ∧ t = fs.tree (levels - 1) (names ++ [name]) := by
  rw [lookup_eq_some_iff_mem distinct_entriesIn, entriesIn, List.mem_map]
  simp only [Prod.mk.injEq, eq_comm]

theorem tree_eq_file_iff (deep : fs.Reaches levels names) {contents : Contents} :
    fs.tree levels names = .file contents ↔ ∃ bs, contents = .ok bs ∧ fs.node names = .file bs := by
  rcases tree_cases deep with ⟨bs, here, same⟩ | ⟨other, same⟩
  · rw [same, here]
    simp [eq_comm]
  · rw [same]
    simp [other]

/-- The tree has the files that stand behind the names. -/
theorem at?_tree (apart : fs.Apart) (deep : fs.Reaches levels names) {below : List FileName} {contents : Contents} :
    (fs.tree levels names).at? below = some (.file contents) ↔
      ∃ rest bs, below = rest.map bytes ∧ contents = .ok bs ∧ fs.node (names ++ rest) = .file bs := by
  induction below generalizing levels names with
  | nil =>
    rw [FileTree.at?, Option.some_inj, tree_eq_file_iff deep]
    constructor
    · rintro ⟨bs, rfl, here⟩
      exact ⟨[], bs, rfl, rfl, by rwa [List.append_nil]⟩
    · rintro ⟨rest, bs, none_, rfl, there⟩
      cases List.map_eq_nil_iff.1 none_.symm
      exact ⟨bs, rfl, by rwa [List.append_nil] at there⟩
  | cons raw below ih =>
    rcases tree_cases deep with ⟨bs, here, same⟩ | ⟨other, same⟩
    · rw [same]
      constructor
      · intro file
        cases file
      · rintro ⟨rest, bs', split, -, there⟩
        cases rest with
        | nil => cases split
        | cons name rest =>
          have behind := apart names bs here _ (place_of_node there) (List.prefix_append names (name :: rest))
          simp at behind
    · rw [same, FileTree.at?, Option.bind_eq_some_iff]
      constructor
      · rintro ⟨t, found, further⟩
        obtain ⟨name, -, rfl, rfl⟩ := lookup_entriesIn.1 found
        obtain ⟨rest, bs, rfl, rfl, there⟩ := (ih (deep.entry name)).1 further
        exact ⟨name :: rest, bs, rfl, rfl, by rwa [List.append_cons]⟩
      · rintro ⟨rest, bs, split, rfl, there⟩
        cases rest with
        | nil => cases split
        | cons name rest =>
          obtain ⟨rfl, rfl⟩ := List.cons.inj split
          rw [List.append_cons] at there
          have listed : name ∈ fs.namesIn names := mem_namesIn.2 ⟨_, place_of_node there, List.prefix_append _ rest⟩
          exact ⟨_, lookup_entriesIn.2 ⟨name, listed, rfl, rfl⟩, (ih (deep.entry name)).2 ⟨rest, bs, rfl, rfl, there⟩⟩

/-- The tree keeps nothing back. -/
theorem open_tree (deep : fs.Reaches levels names) : (fs.tree levels names).Open := by
  intro below access entries there
  induction below generalizing levels names with
  | nil =>
    rw [FileTree.at?] at there
    rcases tree_cases deep with ⟨bs, here, same⟩ | ⟨other, same⟩
    · rw [same] at there
      cases there
    · rw [same] at there
      cases there
      rfl
  | cons raw below ih =>
    rcases tree_cases deep with ⟨bs, here, same⟩ | ⟨other, same⟩
    · rw [same] at there
      cases there
    · rw [same, FileTree.at?, Option.bind_eq_some_iff] at there
      obtain ⟨t, found, further⟩ := there
      obtain ⟨name, -, rfl, rfl⟩ := lookup_entriesIn.1 found
      exact ih (deep.entry name) further

/-- No folder of the tree has two entries of one name. -/
theorem distinct_tree (levels : Nat) (names : List String) : (fs.tree levels names).Distinct := by
  induction levels generalizing names with
  | zero =>
    rw [tree]
    split
    · exact .file _
    · exact .folder List.nodup_nil fun entry mem => absurd mem List.not_mem_nil
  | succ levels ih =>
    rw [tree]
    split
    · exact .file _
    · refine .folder (@distinct_entriesIn fs names (levels + 1)) fun entry mem => ?_
      obtain ⟨name, -, rfl⟩ := List.mem_map.1 mem
      exact ih _

/-- The tests below a path are the files behind its place that are called like one. -/
theorem tested_of_look {path : String} {t : FileTree} (apart : fs.Apart) (looked : fs.look path = .ok t) :
    ∃ top, fs.place path = .ok top ∧ t.Distinct ∧
      ∀ below contents, (FileTree.pathOf (bytes path) below).length ≤ pathLimit →
        (t.Tested (bytes path) below contents ↔ Fixture.isTest (below.getLast?.getD []) = true ∧
          ∃ rest bs, below = rest.map bytes ∧ contents = .ok bs ∧ fs.node (top ++ rest) = .file bs) := by
  rw [look] at looked
  cases place : fs.place path with
  | error fault =>
    rw [place] at looked
    cases looked
  | ok top =>
    rw [place] at looked
    have same : fs.tree fs.depth top = t := by
      dsimp only [bind, Except.bind] at looked
      split at looked
      · cases looked
      · exact Except.ok.inj looked
    subst same
    refine ⟨top, rfl, distinct_tree _ _, fun below contents short => ?_⟩
    rw [(open_tree (reaches_depth fs top)).tested_iff short, at?_tree apart (reaches_depth fs top)]

end FileSystem

end Stencil
