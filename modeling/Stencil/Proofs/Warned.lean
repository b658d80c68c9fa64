import Stencil.Proofs.FieldOrder
import Stencil.Proofs.Visits

/-!
# What a filling warns of

When a template is filled and no sink fails, every pass warns once of each of its fields that fits nothing
(`Block.Unfit`), in the order of their names, and the passes warn in the order in which they are begun. This
depends on what the template declares and on the data, and on nothing that has happened before
(`fill_warnings`).
-/

namespace Stencil

open Text Block

/-- How a field fails to fit a block: its name is neither that of a variable nor that of a nested block, or
it is one of the two and the entry is for the other. -/
inductive Block.Unfit (b : Block) (name : String) (entry : Entry) : Misfit → Prop where
  | unknownField (noVariable : name ∉ b.vars.names) (noChild : name ∉ b.childNames) :
      Unfit b name entry .unknownField
  | tableForVariable (isVariable : name ∈ b.vars.names) (noChild : name ∉ b.childNames)
      (table : (∃ items, entry = .repeated items) ∨ ∃ inner, entry = .once inner) :
      Unfit b name entry .tableForVariable
  | scalarForBlock (noVariable : name ∉ b.vars.names) (isChild : name ∈ b.childNames)
      (scalar : (∃ s, entry = .text s) ∨ (∃ n, entry = .int n) ∨ ∃ x, entry = .float x) :
      Unfit b name entry .scalarForBlock

theorem Entry.isTable_iff {entry : Entry} :
    entry.isTable = true ↔ (∃ items, entry = .repeated items) ∨ ∃ inner, entry = .once inner := by
  cases entry <;> simp [isTable, text?]

theorem Entry.isScalar_iff {entry : Entry} :
    (entry.isTable || entry.isBool) = false ↔
      (∃ s, entry = .text s) ∨ (∃ n, entry = .int n) ∨ ∃ x, entry = .float x := by
  cases entry <;> simp [isTable, isBool, text?]

namespace Block

theorem hasChild_iff {b : Block} {name : String} : b.hasChild name = true ↔ name ∈ b.childNames := by
  unfold hasChild childIndex? childNames
  rw [List.findIdx?_isSome, List.any_eq_true, List.mem_filterMap]
  simp only [beq_iff_eq]

/-- A block takes a field for a misfit exactly if it fails to fit. -/
theorem misfit?_eq_some_iff {b : Block} {name : String} {entry : Entry} {m : Misfit} :
    b.misfit? name entry = some m ↔ b.Unfit name entry m := by
  have noVariable : b.vars.declares name = false ↔ name ∉ b.vars.names := by
    rw [← Variables.declares_iff, Bool.not_eq_true]
  have noChild : b.hasChild name = false ↔ name ∉ b.childNames := by
    rw [← hasChild_iff, Bool.not_eq_true]
  unfold misfit?
  constructor
  · intro h
    split at h
    · next v c =>
      cases h
      exact .unknownField (noVariable.1 v) (noChild.1 c)
    · next v c =>
      split at h
      · next table =>
        cases h
        exact .tableForVariable (Variables.declares_iff.1 v) (noChild.1 c) (Entry.isTable_iff.1 table)
      · cases h
    · next v c =>
      split at h
      · cases h
      · next scalar =>
        cases h
        exact .scalarForBlock (noVariable.1 v) (hasChild_iff.1 c)
          (Entry.isScalar_iff.1 (Bool.eq_false_iff.2 scalar))
    · cases h
  · intro h
    cases h with
    | unknownField v c => rw [noVariable.2 v, noChild.2 c]
    | tableForVariable v c table =>
      rw [Variables.declares_iff.2 v, noChild.2 c]
      exact if_pos (Entry.isTable_iff.2 table)
    | scalarForBlock v c scalar =>
      rw [noVariable.2 v, hasChild_iff.2 c]
      exact if_neg (Bool.eq_false_iff.1 (Entry.isScalar_iff.2 scalar))

end Block

/-! ## One pass -/

namespace Visit

/-- A pass warns of exactly the fields that fail to fit. -/
theorem mem_warnings {v : Visit} {w : Warning} :
    w ∈ v.warnings ↔
      w.block = label v.path ∧ ∃ entry, (w.field, entry) ∈ v.fields ∧ v.block.Unfit w.field entry w.misfit := by
  unfold warnings misfits
  rw [List.mem_filterMap]
  constructor
  · rintro ⟨⟨name, entry⟩, mem, made⟩
    obtain ⟨m, misfit, rfl⟩ := Option.map_eq_some_iff.1 made
    exact ⟨rfl, entry, mem, misfit?_eq_some_iff.1 misfit⟩
  · rintro ⟨block, entry, mem, unfit⟩
    refine ⟨(w.field, entry), mem, Option.map_eq_some_iff.2 ⟨w.misfit, misfit?_eq_some_iff.2 unfit, ?_⟩⟩
    rw [← block]

/-- It warns in the order of the names of its fields, and of no name twice. -/
theorem ascending_warnings {v : Visit} (ordered : v.fields.Ordered) :
    v.warnings.Pairwise fun a b => bytes a.field < bytes b.field := by
  obtain ⟨ascending, -⟩ := ordered
  unfold warnings misfits
  refine ascending.filterMap _ ?_
  rintro ⟨name, entry⟩ ⟨name', entry'⟩ less w made w' made'
  obtain ⟨_, -, rfl⟩ := Option.map_eq_some_iff.1 made
  obtain ⟨_, -, rfl⟩ := Option.map_eq_some_iff.1 made'
  exact less

end Visit

/-! ## The passes that are made -/

/-- What an entry asks for stands among the fields. -/
theorem Fields.mem_rounds {fields inner : Fields} {name : String} :
    inner ∈ fields.rounds name ↔ ∃ entry, fields.get? name = some entry ∧ inner ∈ entry.passes := by
  rw [rounds_eq]
  cases fields.get? name <;> simp

theorem Fields.mem_of_get? {fields : Fields} {name : String} {entry : Entry} (h : fields.get? name = some entry) :
    (name, entry) ∈ fields := by
  obtain ⟨front, back, rfl, -⟩ := List.lookup_eq_some_iff.1 h
  exact List.mem_append_right _ List.mem_cons_self

namespace Block

/-- Every pass but the first is made for a block nested in that of another pass, whose entry asks for it. -/
theorem around_of_mem_visits {b : Block} {path : List String} {fields : Fields} {v : Visit}
    (h : v ∈ b.visits path fields) :
    v = ⟨path, b, fields⟩ ∨ ∃ u ∈ b.visits path fields, ∃ c ∈ u.block.children, ∃ entry,
      u.fields.get? (c.name.getD "") = some entry ∧ v.fields ∈ entry.passes ∧
      v.path = u.path ++ [c.name.getD ""] ∧ v.block = c := by
  induction b using nestInduction generalizing path fields with
  | nest b ih =>
    have first : ⟨path, b, fields⟩ ∈ b.visits path fields := by
      rw [visits_eq]
      exact List.mem_cons_self
    have deeper {c : Block} (hc : c ∈ b.children) {inner : Fields} (asked : inner ∈ fields.rounds (c.name.getD ""))
        {u : Visit} (hu : u ∈ c.visits (path ++ [c.name.getD ""]) inner) : u ∈ b.visits path fields := by
      rw [visits_eq]
      exact List.mem_cons_of_mem _ (mem_visitsAll.2 ⟨c, hc, inner, asked, hu⟩)
    have mem := h
    rw [visits_eq, List.mem_cons, mem_visitsAll] at mem
    rcases mem with rfl | ⟨c, hc, inner, asked, below⟩
    · exact .inl rfl
    · obtain ⟨entry, found, pass⟩ := Fields.mem_rounds.1 asked
      rcases ih c hc below with rfl | ⟨u, hu, rest⟩
      · exact .inr ⟨_, first, c, hc, entry, found, pass, rfl, rfl⟩
      · exact .inr ⟨u, deeper hc asked hu, rest⟩

/-- The fields of all passes are in order if those of the first are. -/
theorem ordered_of_mem_visits {b : Block} {path : List String} {fields : Fields} (ordered : fields.Ordered)
    {v : Visit} (h : v ∈ b.visits path fields) : v.fields.Ordered := by
  induction b using nestInduction generalizing path fields with
  | nest b ih =>
    rw [visits_eq, List.mem_cons, mem_visitsAll] at h
    rcases h with rfl | ⟨c, hc, inner, asked, below⟩
    · exact ordered
    · obtain ⟨entry, found, pass⟩ := Fields.mem_rounds.1 asked
      obtain ⟨-, each⟩ := ordered
      exact ih c hc (each _ (Fields.mem_of_get? found) inner pass) below

end Block

/-! ## The order in which passes are begun -/

variable {σ : Type}

/-- Whether a call begins a pass over the block it is made on. -/
def Call.begins : Call σ → Bool
  | .startWith _ | .start => true
  | _ => false

/-- The path of the block that a step begins a pass over. -/
def Action.begins? : Action σ → Option (List String)
  | .call path _ c => if c.begins then some path else none
  | .warn .. => none

/-- The paths of the blocks that the steps of a plan begin passes over, in their order. -/
def Page.begun (plan : List (Action σ)) : List (List String) := plan.filterMap Action.begins?

namespace Block

open Page (begun)

theorem begun_append (plan more : List (Action σ)) : begun (plan ++ more) = begun plan ++ begun more :=
  List.filterMap_append

/-- Fields begin no pass. -/
theorem begun_assignments (b : Block) (path : List String) (name : String) (fields : Fields) :
    begun (b.assignments path name fields : List (Action σ)) = [] := by
  refine List.filterMap_eq_nil_iff.2 fun step mem => ?_
  cases step with
  | warn => rfl
  | call p l c =>
    obtain ⟨var, value, rfl⟩ := call_of_mem_assignments mem
    rfl

/-- The steps of a pass begin the passes in their order. -/
theorem begun_passPlan (b : Block) (path : List String) (name : String) {enter : Call σ} (begins : enter.begins = true)
    (fields : Fields) : begun (b.passPlan path name enter fields) = (b.visits path fields).map (·.path) := by
  induction b using rowInduction (fun cs => ∀ path name fields,
    begun (childrenPlan path name fields cs : List (Action σ)) = (visitsAll path fields cs).map (·.path))
    generalizing path name enter fields with
  | nest b ih =>
    have first : (Action.call path name enter).begins? = some path := if_pos begins
    rw [passPlan_eq, begun_append, begun_assignments, List.nil_append, begun, List.filterMap_cons, first, ← begun,
      ih, visits_eq, List.map_cons]
  | nil => rfl
  | cons c cs first others path name fields =>
    have turn (below : List String) (inside : String) (rounds : List Fields) :
        begun (c.turnPlan below inside rounds : List (Action σ)) =
          (rounds.flatMap fun inner => c.visits below inner).map (·.path) := by
      unfold turnPlan
      split
      · next none_ =>
        rw [List.isEmpty_iff.1 none_]
        rfl
      · unfold begun
        rw [List.filterMap_flatMap, List.map_flatMap]
        apply List.flatMap_congr
        intro inner _
        exact first below inside rfl inner
    have next : begun (.call path name (.next : Call σ) :: childrenPlan path name fields cs) =
        begun (childrenPlan path name fields cs) := rfl
    rw [childrenPlan_cons, begun_append, turn, next, others, visitsAll, List.map_append]

theorem begun_fillPlan (b : Block) (fields : Fields) (s : σ) :
    begun (b.fillPlan fields s) = (b.visits [] fields).map (·.path) := by
  unfold fillPlan
  rw [begun_append, begun_passPlan b [] rootLabel rfl]
  exact List.append_nil _

end Block

namespace Page

variable [Sink σ] {fine : σ → Prop} {seen : σ → List UInt8}

/-- Over a sink that never fails, a page that is not being written is filled with the warnings of the passes
over the template as it was read. -/
theorem Sound.result_fill (steady : Sink.Steady fine seen) {root : Block} {p : Page σ} {s : σ}
    (sound : Sound root p) (fresh : Template.Fresh root) (declared : root.WellDeclared)
    (idle : p.root.state.isActive = false) (good : fine s) (fields : Fields) :
    (p.fill fields s).result = .ok ((root.visits [] fields).flatMap Visit.warnings) := by
  obtain ⟨⟨ws, ok⟩, -⟩ := sound.filled steady fresh declared idle good fields
  have plan : p.root.fillPlan fields s = root.fillPlan fields s :=
    fillPlan_congr (sound.pristine.trans fresh.pristine.symm) fields s
  have warned : ws = root.passWarnings (label []) fields := by
    rw [warnings_of_fill ok, ← warnings_fillPlan p.root fields s, plan, warnings_fillPlan]
    rfl
  rw [ok, warned, passWarnings_label]

/-- **Warnings are complete, exact and in order.** On every page that is reached and is not being written, for
every data and every sink that never fails, a filling gives the warnings of its passes, one pass after the
other in the order in which they are begun, a block as often as it is written. A pass warns of exactly those
of its fields that fail to fit its block, in the byte order of their names and once of each. Every pass but
the first is made because an entry of another pass asks for it; all else in the data is passed over. The
passes are those over the template as it was read, whatever has been written before. -/
theorem fill_warnings (steady : Sink.Steady fine seen) {source : String} {file : Nat} {root : Block} {p : Page σ}
    {s : σ} (parsed : Template.parse source file = .ok root) (reached : Reachable root p)
    (idle : p.root.state.isActive = false) (good : fine s) {fields : Fields} (ordered : fields.Ordered) :
    let passes := root.visits [] fields
    (p.fill fields s).result = .ok (passes.flatMap Visit.warnings) ∧
    begun (p.root.fillPlan fields s) = passes.map (·.path) ∧
    (∀ v ∈ passes, v.warnings.Pairwise (fun a b => bytes a.field < bytes b.field) ∧ ∀ w, w ∈ v.warnings ↔
      w.block = label v.path ∧ ∃ entry, (w.field, entry) ∈ v.fields ∧ v.block.Unfit w.field entry w.misfit) ∧
    ∀ v ∈ passes, v = ⟨[], root, fields⟩ ∨ ∃ u ∈ passes, ∃ c ∈ u.block.children, ∃ entry,
      u.fields.get? (c.name.getD "") = some entry ∧ v.fields ∈ entry.passes ∧
      v.path = u.path ++ [c.name.getD ""] ∧ v.block = c := by
  intro passes
  have fresh := Template.fresh_of_parse parsed
  have same : p.root.pristine = root.pristine := by
    rw [(reached.sound fresh).pristine, fresh.pristine]
  have plan : p.root.fillPlan fields s = root.fillPlan fields s := fillPlan_congr same fields s
  refine ⟨?_, ?_, fun v hv => ⟨?_, fun w => Visit.mem_warnings⟩, fun v => around_of_mem_visits⟩
  · exact (reached.sound fresh).result_fill steady fresh (Template.wellDeclared_of_parse parsed) idle good fields
  · rw [plan, begun_fillPlan]
  · exact Visit.ascending_warnings (ordered_of_mem_visits ordered hv)

/-- A second filling, with one block that is written twice and another that is given a number. -/
theorem fill_warnings_two_rounds :
    ∃ (root : Block) (p : Page Buffer) (data : Fields),
      Template.parse "<!--rep var=y place=Y-->Y<!--rep blk=b-->1<!--/rep--><!--rep blk=c--><!--/rep-->" 0 = .ok root ∧
      Reachable root p ∧ p.root.states = [.used, .out, .out] ∧
      (Document.table [("y", .table []), ("é", .int 1), ("c", .int 3),
        ("b", .array [.table [("r", .table []), ("q", .text "u")], .table [("q", .bool true)]])]).fields? =
        some data ∧
      (p.fill data Buffer.empty).result = .ok [⟨"root", "c", .scalarForBlock⟩, ⟨"root", "y", .tableForVariable⟩,
        ⟨"root", "é", .unknownField⟩, ⟨"b", "q", .unknownField⟩, ⟨"b", "r", .unknownField⟩,
        ⟨"b", "q", .unknownField⟩] ∧
      begun (p.root.fillPlan data Buffer.empty) = [[], ["b"], ["b"]] := by
  let root : Block := ⟨none, ⟨[⟨"y", "Y", "Y", ⟨0, 24⟩⟩]⟩,
    [[⟨"", none⟩, ⟨"", some 0⟩, ⟨"", none⟩], [⟨"", none⟩], [⟨"", none⟩]],
    [⟨some "b", ⟨[]⟩, [[⟨"1", none⟩]], [], ⟨25, 53⟩, .out⟩, ⟨some "c", ⟨[]⟩, [[⟨"", none⟩]], [], ⟨53, 80⟩, .out⟩],
    ⟨0, 80⟩, .out⟩
  let document : Document := .table [("y", .table []), ("é", .int 1), ("c", .int 3),
    ("b", .array [.table [("r", .table []), ("q", .text "u")], .table [("q", .bool true)]])]
  let data : Fields := document.fields?.getD []
  let p : Page Buffer := ((Page.ofTemplate root).fill [("y", .text "v")] Buffer.empty).page
  have parsed : Template.parse
      "<!--rep var=y place=Y-->Y<!--rep blk=b-->1<!--/rep--><!--rep blk=c--><!--/rep-->" 0 = .ok root := by
    with_unfolding_all rfl
  have reached : Reachable root p := Reachable.fresh.fill _ _
  have idle : p.root.state.isActive = false := by decide +kernel
  have read : document.fields? = some data := by
    have isData : document.fields?.isSome = true := by decide +kernel
    obtain ⟨fields, h⟩ := Option.isSome_iff_exists.1 isData
    show document.fields? = some (document.fields?.getD [])
    rw [h, Option.getD_some]
  obtain ⟨result, begun_, -⟩ := fill_warnings Buffer.steady (s := Buffer.empty) parsed reached idle trivial
    (Document.ordered_of_fields? read)
  exact ⟨root, p, data, parsed, reached, by decide +kernel, read, result.trans (by decide +kernel),
    begun_.trans (by decide +kernel)⟩

end Page

end Stencil
