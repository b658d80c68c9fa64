import Stencil.Fixture.Discovery
import Stencil.Proofs.Places

/-!
# Walks through a file tree

What a walk finds below a folder can be told of each place by itself (`Tested`): something stands there that is
called like a test, and every folder on the way to it is listed and can be looked at. A file gives its bytes if it
can be looked at, and what cannot be looked at, be it a file or a folder, gives the reason why. The walk finds just
these (`mem_testsAt_iff`), and where no folder has two entries of a name none of them twice (`nodup_testsAt`).
-/

namespace Stencil

namespace FileTree

/-! ## Places in a tree -/

/-- What holds of a tree if it holds of everything in it. -/
theorem nestInduction {motive : FileTree → Prop} (file : ∀ contents, motive (.file contents))
    (folder : ∀ access entries, (∀ entry ∈ entries, motive entry.2) → motive (.folder access entries))
    (t : FileTree) : motive t :=
  FileTree.rec (motive_1 := motive) (motive_2 := fun entries => ∀ entry ∈ entries, motive entry.2)
    (motive_3 := fun entry => motive entry.2) file folder (fun _ mem => nomatch mem)
    (fun _ _ first others _ mem => (List.mem_cons.1 mem).elim (fun same => same ▸ first) (others _))
    (fun _ _ nested => nested) t

/-- What stands behind some names. -/
def at? : FileTree → List FileName → Option FileTree
  | t, [] => some t
  | .file _, _ :: _ => none
  | .folder _ entries, name :: names => (entries.lookup name).bind fun t => t.at? names

/-- No folder has two entries of one name. -/
inductive Distinct : FileTree → Prop where
  | file (contents : Contents) : Distinct (.file contents)
  | folder {access : Access} {entries : List (FileName × FileTree)} (once : (entries.map (·.1)).Nodup)
      (below : ∀ entry ∈ entries, Distinct entry.2) : Distinct (.folder access entries)

/-- Behind some names stands a folder that is listed. -/
def Listed (t : FileTree) (names : List FileName) : Prop :=
  ∃ access entries, t.at? names = some (.folder access entries) ∧ access.listed = true

/-- The path of what stands behind some names in the tree at a path. -/
def pathOf (path : List UInt8) (names : List FileName) : List UInt8 := names.foldl joinPath path

/-- Why what stands behind some names in the tree at a path cannot be looked at, if it cannot: the folder it is
in does not let it, or its path is too long. The tree itself can. -/
def fault? (t : FileTree) (path : List UInt8) (names : List FileName) : Option FileFault :=
  match t.at? names.dropLast with
  | some (.folder access _) => if names = [] then none else barrier? access.entered (pathOf path names)
  | _ => none

/-- Behind some names stands something that is called like a test, which a walk through the tree at a path comes
to: every folder in front of it is listed and can be looked at. -/
structure Tested (t : FileTree) (path : List UInt8) (names : List FileName) (contents : Contents) : Prop where
  called : Fixture.isTest (names.getLast?.getD []) = true
  walked : ∀ front, front <+: names → front ≠ names → t.Listed front ∧ t.fault? path front = none
  stands : ∃ there, t.at? names = some there ∧
    ((∃ fault, t.fault? path names = some fault ∧ contents = .error fault) ∨
      t.fault? path names = none ∧ there = .file contents)

/-- Why what stands behind some names cannot be looked at, if for the tree itself there is such a reason, too. -/
def faultFrom (fault : Option FileFault) (t : FileTree) (path : List UInt8) (names : List FileName) :
    Option FileFault :=
  if names = [] then fault else t.fault? path names

section

variable {access : Access} {entries : List (FileName × FileTree)} {name : FileName} {below : FileTree}
  {path : List UInt8}

theorem listed_nil : (folder access entries).Listed [] ↔ access.listed = true := by
  simp [Listed, at?]

theorem fault?_nil (t : FileTree) : t.fault? path [] = none := by
  rw [fault?]
  split <;> rfl

theorem faultFrom_none (t : FileTree) : faultFrom none t path = t.fault? path := by
  funext names
  rw [faultFrom]
  split
  · next none_ => rw [none_, fault?_nil]
  · rfl

variable (found : entries.lookup name = some below) (names : List FileName)
include found

theorem at?_cons : (folder access entries).at? (name :: names) = below.at? names := by
  rw [at?, found, Option.bind_some]

theorem listed_cons : (folder access entries).Listed (name :: names) ↔ below.Listed names := by
  rw [Listed, Listed, at?_cons found]

theorem faultFrom_cons (fault : Option FileFault) :
    faultFrom fault (folder access entries) path (name :: names) =
      faultFrom (barrier? access.entered (joinPath path name)) below (joinPath path name) names := by
  cases names with
  | nil => rfl
  | cons other names =>
    rw [faultFrom, faultFrom, if_neg (List.cons_ne_nil _ _), if_neg (List.cons_ne_nil _ _), fault?, fault?,
      List.dropLast_cons_cons, at?_cons found]
    rfl

end

/-! ## Trees that keep nothing back -/

/-- Every folder in a tree is listed and lets its entries be looked at. -/
def Open (t : FileTree) : Prop :=
  ∀ names access entries, t.at? names = some (.folder access entries) → access = ⟨true, true⟩

theorem at?_append (t : FileTree) (front rest : List FileName) :
    t.at? (front ++ rest) = (t.at? front).bind (·.at? rest) := by
  induction front generalizing t with
  | nil => rw [List.nil_append, at?, Option.bind_some]
  | cons name front ih =>
    cases t with
    | file contents => rfl
    | folder access entries =>
      rw [List.cons_append, at?, at?, Option.bind_assoc]
      exact Option.bind_congr fun t _ => ih t

theorem length_le_length_pathOf (path : List UInt8) (names : List FileName) :
    path.length ≤ (pathOf path names).length := by
  induction names generalizing path with
  | nil => exact Nat.le_refl _
  | cons name names ih =>
    refine Nat.le_trans ?_ (ih (joinPath path name))
    rw [joinPath]
    split <;> simp

/-- In a tree that keeps nothing back, all places with a path that is not too long can be looked at. -/
theorem Open.fault?_eq_none {t : FileTree} (h : t.Open) {path : List UInt8} {names : List FileName}
    (short : (pathOf path names).length ≤ FileSystem.pathLimit) : t.fault? path names = none := by
  rw [fault?]
  split
  · next access entries there =>
    split
    · rfl
    · rw [h _ _ _ there, barrier?, if_neg (Nat.not_lt.2 short), if_pos rfl]
  · rfl

/-- There the tests are the files that are called like one. -/
theorem Open.tested_iff {t : FileTree} (h : t.Open) {path : List UInt8} {names : List FileName}
    (short : (pathOf path names).length ≤ FileSystem.pathLimit) {contents : Contents} :
    t.Tested path names contents ↔
      Fixture.isTest (names.getLast?.getD []) = true ∧ t.at? names = some (.file contents) := by
  have free := h.fault?_eq_none short
  constructor
  · rintro ⟨called, -, there, stands, ⟨fault, barred, -⟩ | ⟨-, rfl⟩⟩
    · rw [free] at barred
      cases barred
    · exact ⟨called, stands⟩
  · rintro ⟨called, stands⟩
    refine ⟨called, ?_, _, stands, .inr ⟨free, rfl⟩⟩
    rintro front ⟨rest, rfl⟩ apart
    rw [at?_append] at stands
    obtain ⟨there, found, further⟩ := Option.bind_eq_some_iff.1 stands
    constructor
    · cases there with
      | folder access entries => exact ⟨access, entries, found, by rw [h _ _ _ found]⟩
      | file contents =>
        -- Behind a file there is nothing.
        cases rest with
        | nil => exact absurd (List.append_nil front).symm apart
        | cons name rest => cases further
    · refine h.fault?_eq_none (Nat.le_trans ?_ short)
      rw [pathOf, pathOf, List.foldl_append]
      exact length_le_length_pathOf _ rest

end FileTree

namespace Fixture

open FileTree

/-! ## What a walk finds -/

section

variable {path : List UInt8} {names : List FileName} {x : List FileName × Contents}

theorem testsAmong_eq (entered : Bool) (entries : List (FileName × FileTree)) :
    testsAmong entered path names entries = entries.flatMap fun entry =>
      testsAt (joinPath path entry.1) (names ++ [entry.1]) (barrier? entered (joinPath path entry.1)) entry.2 := by
  induction entries with
  | nil => rw [testsAmong, List.flatMap_nil]
  | cons entry entries ih => rw [testsAmong, List.flatMap_cons, ih]

theorem mem_asTest {contents : Contents} :
    x ∈ asTest names contents ↔ isTest (names.getLast?.getD []) = true ∧ x = (names, contents) := by
  rw [asTest]
  split <;> simp_all

theorem prefix_of_mem_asTest {contents : Contents} (mem : x ∈ asTest names contents) : names <+: x.1 :=
  (mem_asTest.1 mem).2 ▸ List.prefix_refl names

theorem nodup_asTest (contents : Contents) : (asTest names contents).Pairwise fun a b => a.1 ≠ b.1 := by
  rw [asTest]
  split <;> simp

/-- What cannot be looked at is taken for a file. -/
theorem testsAt_some (fault : FileFault) (t : FileTree) :
    testsAt path names (some fault) t = asTest names (.error fault) := by
  cases t <;> rw [testsAt]

theorem testsAt_file (contents : Contents) : testsAt path names none (.file contents) = asTest names contents := by
  rw [testsAt]

theorem testsAt_folder (access : Access) (entries : List (FileName × FileTree)) :
    testsAt path names none (.folder access entries) =
      if access.listed then entries.flatMap fun entry => testsAt (joinPath path entry.1) (names ++ [entry.1])
        (barrier? access.entered (joinPath path entry.1)) entry.2 else [] := by
  rw [testsAt, testsAmong_eq]

/-- The names of what is found go on from where the walk is. -/
theorem prefix_of_mem_testsAt {t : FileTree} {fault : Option FileFault} (mem : x ∈ testsAt path names fault t) :
    names <+: x.1 := by
  induction t using FileTree.nestInduction generalizing path names fault with
  | file contents =>
    cases fault with
    | some fault => exact prefix_of_mem_asTest (testsAt_some fault _ ▸ mem)
    | none => exact prefix_of_mem_asTest (testsAt_file contents ▸ mem)
  | folder access entries ih =>
    cases fault with
    | some fault => exact prefix_of_mem_asTest (testsAt_some fault _ ▸ mem)
    | none =>
      rw [testsAt_folder] at mem
      split at mem
      · obtain ⟨entry, listed, mem⟩ := List.mem_flatMap.1 mem
        exact (List.prefix_append names [entry.1]).trans (ih entry listed mem)
      · cases mem

end

/-- What is found behind some names, told by following them: the walk goes on as long as there are more, and comes
to a file or to what cannot be looked at. -/
def Comes (contents : Contents) : Option FileFault → List UInt8 → FileTree → List FileName → Prop
  | fault, _, t, [] => (∃ f, fault = some f ∧ contents = .error f) ∨ fault = none ∧ t = .file contents
  | fault, path, t, name :: names => fault = none ∧ ∃ access entries below, t = .folder access entries ∧
      access.listed = true ∧ entries.lookup name = some below ∧
      Comes contents (barrier? access.entered (joinPath path name)) (joinPath path name) below names

/-- Where the names end, the walk is at a file or at what cannot be looked at. -/
theorem mem_testsAt_here {t : FileTree} {path : List UInt8} {names : List FileName} {fault : Option FileFault}
    {contents : Contents} :
    (names, contents) ∈ testsAt path names fault t ↔
      isTest (names.getLast?.getD []) = true ∧ Comes contents fault path t [] := by
  rw [Comes]
  cases fault with
  | some f => simp [testsAt_some, mem_asTest]
  | none =>
    cases t with
    | file c =>
      rw [testsAt_file, mem_asTest]
      simp [@eq_comm _ c]
    | folder access entries =>
      -- Whatever is found further down has more names.
      refine iff_of_false (fun mem => ?_) (by simp)
      rw [testsAt_folder] at mem
      split at mem
      · obtain ⟨entry, -, mem⟩ := List.mem_flatMap.1 mem
        have longer := (prefix_of_mem_testsAt mem).length_le
        rw [List.length_append, List.length_singleton] at longer
        exact absurd longer (Nat.not_succ_le_self _)
      · cases mem

/-- What a walk finds behind some further names. -/
theorem mem_testsAt_append {t : FileTree} {path : List UInt8} {front names : List FileName}
    {fault : Option FileFault} {contents : Contents} (distinct : t.Distinct) :
    (front ++ names, contents) ∈ testsAt path front fault t ↔
      isTest ((front ++ names).getLast?.getD []) = true ∧ Comes contents fault path t names := by
  induction names generalizing t path front fault with
  | nil => rw [List.append_nil, mem_testsAt_here]
  | cons name names ih =>
    rw [Comes]
    cases fault with
    | some f => simp [testsAt_some, mem_asTest]
    | none =>
      cases distinct with
      | file c => simp [testsAt_file, mem_asTest]
      | @folder access entries once each =>
        rw [testsAt_folder]
        split
        · next listed =>
          rw [List.mem_flatMap, List.append_cons]
          constructor
          · rintro ⟨⟨other, below⟩, found, mem⟩
            -- The first name behind those of the folder is that of the entry.
            obtain ⟨rest, split⟩ := prefix_of_mem_testsAt mem
            simp only [List.append_assoc, List.singleton_append, List.append_cancel_left_eq, List.cons.injEq] at split
            obtain ⟨rfl, rfl⟩ := split
            obtain ⟨called, comes⟩ := (ih (each _ found)).1 mem
            exact ⟨called, rfl, access, entries, below, rfl, listed, (lookup_eq_some_iff_mem once).2 found, comes⟩
          · rintro ⟨called, -, _, _, below, same, -, found, comes⟩
            cases same
            have found := (lookup_eq_some_iff_mem once).1 found
            exact ⟨(name, below), found, (ih (each _ found)).2 ⟨called, comes⟩⟩
        · next unlisted =>
          refine iff_of_false List.not_mem_nil ?_
          rintro ⟨-, -, _, _, _, same, listed, -⟩
          cases same
          exact unlisted listed

/-- Something holds of all proper beginnings of a list if it holds of the empty one and of those that go on. -/
theorem forall_front_cons {α : Type} {a : α} {l : List α} {p : List α → Prop} :
    (∀ front, front <+: a :: l → front ≠ a :: l → p front) ↔
      p [] ∧ ∀ front, front <+: l → front ≠ l → p (a :: front) := by
  constructor
  · refine fun all => ⟨all [] List.nil_prefix (List.cons_ne_nil a l).symm, fun front way apart => ?_⟩
    exact all _ ((List.prefix_cons_inj a).2 way) (by simpa using apart)
  · rintro ⟨first, others⟩ front way apart
    rcases List.prefix_cons_iff.1 way with rfl | ⟨rest, rfl, further⟩
    · exact first
    · exact others rest further (by simpa using apart)

/-- Following the names comes to what all folders on the way lead to. -/
theorem comes_iff {t : FileTree} {path : List UInt8} {names : List FileName} {contents : Contents}
    {fault : Option FileFault} :
    Comes contents fault path t names ↔
      (∀ front, front <+: names → front ≠ names →
        t.Listed front ∧ faultFrom fault t path front = none) ∧
      ∃ there, t.at? names = some there ∧
        ((∃ f, faultFrom fault t path names = some f ∧ contents = .error f) ∨
          faultFrom fault t path names = none ∧ there = .file contents) := by
  induction names generalizing t path fault with
  | nil => simp [Comes, faultFrom, at?]
  | cons name names ih =>
    rw [Comes, forall_front_cons]
    cases t with
    | file c => simp [Listed, at?]
    | folder access entries =>
      cases found : entries.lookup name with
      | none => simp [at?, found]
      | some below =>
        simp only [listed_nil, listed_cons found, faultFrom_cons found, at?_cons found]
        rw [faultFrom, if_pos rfl, and_assoc, ← ih]
        constructor
        · rintro ⟨free, _, _, _, same, listed, there, comes⟩
          cases same
          cases found.symm.trans there
          exact ⟨⟨listed, free⟩, comes⟩
        · rintro ⟨⟨listed, free⟩, comes⟩
          exact ⟨free, access, entries, below, rfl, listed, found, comes⟩

variable {t : FileTree} (distinct : t.Distinct)
include distinct

/-- The walk from a folder finds the tests below it. -/
theorem mem_testsAt_iff {path : List UInt8} {names : List FileName} {contents : Contents} :
    (names, contents) ∈ testsAt path [] none t ↔ t.Tested path names contents := by
  rw [← List.nil_append names, mem_testsAt_append distinct, comes_iff, faultFrom_none, List.nil_append]
  exact ⟨fun ⟨called, walked, stands⟩ => ⟨called, walked, stands⟩, fun h => ⟨h.called, h.walked, h.stands⟩⟩

/-- Nothing is found twice. -/
theorem nodup_testsAt (path : List UInt8) (names : List FileName) (fault : Option FileFault) :
    (testsAt path names fault t).Pairwise fun a b => a.1 ≠ b.1 := by
  induction t using FileTree.nestInduction generalizing path names fault with
  | file contents =>
    cases fault with
    | some fault => exact testsAt_some fault _ ▸ nodup_asTest _
    | none => exact testsAt_file contents ▸ nodup_asTest contents
  | folder access entries ih =>
    cases distinct with
    | folder once each =>
      cases fault with
      | some fault => exact testsAt_some fault _ ▸ nodup_asTest _
      | none =>
        rw [testsAt_folder]
        split
        · refine List.pairwise_flatMap.2 ⟨fun entry mem => ih entry mem (each entry mem) _ _ _, ?_⟩
          refine (List.pairwise_map.1 once).imp fun apart a here b there same => apart ?_
          -- What is found in two entries would begin with the names of both.
          obtain ⟨rest, split⟩ := prefix_of_mem_testsAt here
          obtain ⟨rest', split'⟩ := prefix_of_mem_testsAt there
          rw [← split', ← split] at same
          simpa using congrArg (·[names.length]?) same
        · exact List.Pairwise.nil

end Fixture

end Stencil
