import Stencil.Proofs.Reachable

/-!
# Blocks and the paths that lead to them

Where sibling blocks are told apart by their names, every block of a tree is reached by one path of
names and no other: `located` lists the blocks with their paths, and a lookup finds in it what it
returns (`mem_located`). Looking a block up, calling it along a path and going down name by name all
come to the same block (`callAt_descend`, `descend?_snoc`).
-/

namespace Stencil

namespace Block

mutual

/-- The blocks of the tree at `path`, each with its path and in front of its nested ones. -/
def located (path : List String) : Block → List (List String × Block)
  | ⟨name, vs, gaps, cs, span, state⟩ => (path, ⟨name, vs, gaps, cs, span, state⟩) :: locatedAll path cs

def locatedAll (path : List String) : List Block → List (List String × Block)
  | [] => []
  | c :: cs => c.located (path ++ [c.name.getD ""]) ++ locatedAll path cs

end

theorem located_eq (path : List String) (b : Block) :
    b.located path = (path, b) :: locatedAll path b.children := by
  cases b
  rw [located]

theorem mem_locatedAll {path : List String} {cs : List Block} {x : List String × Block} :
    x ∈ locatedAll path cs ↔ ∃ c ∈ cs, x ∈ c.located (path ++ [c.name.getD ""]) := by
  induction cs with
  | nil => simp [locatedAll]
  | cons c cs ih => simp [locatedAll, ih]

/-- The listing has exactly what paths lead to. -/
theorem mem_located {b d : Block} (named : b.WellNamed) {path p : List String} :
    (p, d) ∈ b.located path ↔ ∃ below, p = path ++ below ∧ b.descend? below = some d := by
  induction b using nestInduction generalizing path p with
  | nest b ih =>
    rw [located_eq, List.mem_cons, mem_locatedAll]
    constructor
    · rintro (e | ⟨c, hc, deeper⟩)
      · cases e
        exact ⟨[], (List.append_nil _).symm, rfl⟩
      · obtain ⟨below, rfl, target⟩ := (ih c hc (named.child hc)).1 deeper
        obtain ⟨k, child⟩ := List.getElem?_of_mem hc
        refine ⟨c.name.getD "" :: below, by rw [List.append_assoc]; rfl, ?_⟩
        rw [descend?_child (named.childIndex? child) child, target]
    · rintro ⟨below, rfl, target⟩
      cases below with
      | nil =>
        cases target
        exact .inl (by rw [List.append_nil])
      | cons name below =>
        obtain ⟨k, c, index, child, target⟩ := descend?_cons target
        have hc := List.mem_of_getElem? child
        refine .inr ⟨c, hc, (ih c hc (named.child hc)).2 ⟨below, ?_, target⟩⟩
        rw [name_of_childIndex? index child, List.append_assoc]
        rfl

theorem prefix_of_mem_located {b : Block} (named : b.WellNamed) {path p : List String}
    (mem : p ∈ (b.located path).map (·.1)) : path <+: p := by
  obtain ⟨x, hx, rfl⟩ := List.mem_map.1 mem
  obtain ⟨down, e, -⟩ := (mem_located named).1 hx
  exact e ▸ List.prefix_append _ _

theorem nodup_locatedAll {cs : List Block} (nested : ∀ c ∈ cs, c.isRoot = false) (named : ∀ c ∈ cs, c.WellNamed)
    (distinct : (cs.map (·.name)).Nodup) {path : List String}
    (each : ∀ c ∈ cs, ((c.located (path ++ [c.name.getD ""])).map (·.1)).Nodup) :
    ((locatedAll path cs).map (·.1)).Nodup := by
  induction cs with
  | nil => exact List.nodup_nil
  | cons c cs ih =>
    rw [List.map_cons, List.nodup_cons] at distinct
    rw [locatedAll, List.map_append, List.nodup_append]
    refine ⟨each c List.mem_cons_self, ?_, ?_⟩
    · exact ih (fun d hd => nested d (List.mem_cons_of_mem _ hd)) (fun d hd => named d (List.mem_cons_of_mem _ hd))
        distinct.2 fun d hd => each d (List.mem_cons_of_mem _ hd)
    · -- Paths into different nested blocks differ in the name of that block.
      rintro p here q there rfl
      obtain ⟨x, hx, rfl⟩ := List.mem_map.1 there
      obtain ⟨d, hd, deeper⟩ := mem_locatedAll.1 hx
      have mine := prefix_of_mem_located (named c List.mem_cons_self) here
      have other := prefix_of_mem_located (named d (List.mem_cons_of_mem _ hd)) (List.mem_map_of_mem deeper)
      have same : path ++ [c.name.getD ""] = path ++ [d.name.getD ""] :=
        (List.prefix_of_prefix_length_le mine other (by simp)).eq_of_length (by simp)
      have names : c.name.getD "" = d.name.getD "" := by simpa using same
      have hc := nested c List.mem_cons_self
      have hd' := nested d (List.mem_cons_of_mem _ hd)
      rw [isRoot] at hc hd'
      refine distinct.1 (List.mem_map.2 ⟨d, hd, ?_⟩)
      cases hcn : c.name <;> cases hdn : d.name <;> simp_all

/-- No path leads to two places of the listing. -/
theorem nodup_located {b : Block} (named : b.WellNamed) (path : List String) :
    ((b.located path).map (·.1)).Nodup := by
  induction b using nestInduction generalizing path with
  | nest b ih =>
    obtain ⟨distinct, nested⟩ := named b b.self_mem_preorder
    rw [located_eq, List.map_cons, List.nodup_cons]
    refine ⟨fun mem => ?_, nodup_locatedAll nested (fun c hc => named.child hc) distinct fun c hc =>
      ih c hc (named.child hc) _⟩
    obtain ⟨x, hx, e⟩ := List.mem_map.1 mem
    obtain ⟨c, hc, deeper⟩ := mem_locatedAll.1 hx
    have longer := (prefix_of_mem_located (named.child hc) (List.mem_map_of_mem deeper)).length_le
    rw [e, List.length_append, List.length_singleton] at longer
    exact absurd longer (Nat.not_succ_le_self _)

/-! ## Lookups and calls -/

/-- A path leads where its last name leads from where the others lead. -/
theorem descend?_snoc (b : Block) (path : List String) (name : String) :
    b.descend? (path ++ [name]) =
      (b.descend? path).bind fun d => (d.childIndex? name).bind fun k => d.children[k]? := by
  induction path generalizing b with
  | nil =>
    rw [List.nil_append, descend?]
    cases hk : b.childIndex? name with
    | none => simp [descend?, hk]
    | some k => cases hc : b.children[k]? <;> simp [descend?, hk, hc]
  | cons first path ih =>
    cases hk : b.childIndex? first with
    | none => simp [descend?, hk]
    | some k =>
      cases hc : b.children[k]? with
      | none => simp [descend?, hk, hc]
      | some c => rw [List.cons_append, descend?_child hk hc, descend?_child hk hc, ih]

variable {σ : Type} [Sink σ]

theorem pristine_call (b : Block) (bound : Option σ) (c : Call σ) : (b.call bound c).block.pristine = b.pristine := by
  have answer := b.answer bound c
  cases hr : (b.call bound c).result with
  | error e => rw [answer.block_eq hr]
  | ok => exact (answer.granted hr).pristine

/-- A call along a path is made on the block that the path leads to, and its outcome stands there. -/
theorem callAt_descend {b d : Block} {path : List String} (target : b.descend? path = some d)
    (bound : Option σ) (c : Call σ) :
    ∃ after, b.callAt bound c path = some { d.call bound c with block := after } ∧
      after.descend? path = some (d.call bound c).block ∧ after.pristine = b.pristine := by
  induction path generalizing b with
  | nil =>
    cases target
    exact ⟨_, rfl, rfl, pristine_call _ bound c⟩
  | cons name path ih =>
    obtain ⟨k, e, index, child, below⟩ := descend?_cons target
    obtain ⟨after, made, there, same⟩ := ih below
    refine ⟨b.modifyChild k fun _ => after, by rw [callAt_child index child, made]; rfl, ?_, ?_⟩
    · rw [descend?_child ((childIndex?_modifyChild child (name_eq_of_pristine_eq same) name).trans index)
        (getElem?_modifyChild child _), there]
    · refine pristine_modifyChild fun x hx => ?_
      rw [child] at hx
      cases hx
      exact same

/-- Where no block is, no call is made. -/
theorem callAt_eq_none_iff {b : Block} {path : List String} (bound : Option σ) (c : Call σ) :
    b.callAt bound c path = none ↔ b.descend? path = none := by
  constructor
  · intro none_made
    cases target : b.descend? path with
    | none => rfl
    | some d =>
      obtain ⟨after, made, -⟩ := callAt_descend target bound c
      rw [none_made] at made
      cases made
  · intro none_there
    cases made : b.callAt bound c path with
    | none => rfl
    | some o =>
      obtain ⟨d, answer⟩ := answerAt made
      have target := answer.target
      rw [none_there] at target
      cases target

end Block

end Stencil
