import Stencil.Fill
import Stencil.Proofs.Tree

/-!
# What filling a template means

The meaning of data for a template, without calls, states or sinks: a pass over a block sets the variables
that its fields name, writes the first gap, and for every nested block makes the passes its entry asks for
and writes the gap behind it. `Block.pass` says so on the values of all variables, which go on from one
pass to the next. A pass reaches only the values of the block and of what is nested in it (`pass_frame`).
-/

namespace Stencil

open Text

/-- A value for every variable, by the path of its block and its name. -/
abbrev Valuation := List String → String → String

/-- What has been written, and the values by now. -/
structure Rendering where
  out : List UInt8
  values : Valuation

namespace Rendering

/-- Writes some bytes. -/
def emit (r : Rendering) (bs : List UInt8) : Rendering := { r with out := r.out ++ bs }

/-- Gives a variable a new value. -/
def set (r : Rendering) (path : List String) (name value : String) : Rendering :=
  { r with values := fun p n => if p = path ∧ n = name then value else r.values p n }

/-- Sets a variable of the block at `path`, which has the variables `names`, if a field has a text
and is named for one. -/
def assign (r : Rendering) (path : List String) (names : List String) (field : String × Entry) : Rendering :=
  match field.2.text? with
  | some text => if field.1 ∈ names then r.set path field.1 text else r
  | none => r

@[simp] theorem out_emit (r : Rendering) (bs : List UInt8) : (r.emit bs).out = r.out ++ bs := rfl

@[simp] theorem values_emit (r : Rendering) (bs : List UInt8) : (r.emit bs).values = r.values := rfl

@[simp] theorem out_assign (r : Rendering) (path names : List String) (field : String × Entry) :
    (r.assign path names field).out = r.out := by
  rw [assign]
  split
  · split <;> rfl
  · rfl

@[simp] theorem values_set_self (r : Rendering) (path : List String) (name value n : String) :
    (r.set path name value).values path n = if n = name then value else r.values path n := by
  simp [set]

theorem values_assign_of_ne {p path : List String} (apart : p ≠ path) (r : Rendering) (names : List String)
    (field : String × Entry) (n : String) : (r.assign path names field).values p n = r.values p n := by
  rw [assign]
  split
  · split
    · simp [set, apart]
    · rfl
  · rfl

end Rendering

/-- The fields of each pass over the nested block `name`. -/
def Fields.rounds (fields : Fields) (name : String) : List Fields :=
  match fields.get? name with
  | some (.once inner) => [inner]
  | some (.repeated items) => items
  | some (.bool true) => [[]]
  | _ => []

/-- A plan makes the same passes. -/
theorem Fields.rounds_eq (fields : Fields) (name : String) :
    fields.rounds name = ((fields.get? name).map Entry.passes).getD [] := by
  rw [rounds]
  cases fields.get? name with
  | none => rfl
  | some entry =>
    cases entry with
    | bool b => cases b <;> rfl
    | _ => rfl

namespace Block

/-- The bytes of gap `k` when the block's variables have some values. -/
def gapUnder (b : Block) (value : String → String) (k : Nat) : List UInt8 :=
  (b.gap k).flatMap fun s =>
    bytes s.text ++ bytes (((s.var.bind (b.vars.names[·]?)).map value).getD "")

mutual

/-- One pass over the block at `path`. -/
def pass (path : List String) (fields : Fields) (r : Rendering) : Block → Rendering
  | ⟨name, vs, gaps, cs, span, state⟩ =>
    let r := fields.foldl (·.assign path vs.names) r
    let gap := gapUnder ⟨name, vs, gaps, cs, span, state⟩ (r.values path)
    passEach path fields gap 1 (r.emit (gap 0)) cs

/-- The passes over nested blocks, with gap `k` and the following ones each behind one of them. -/
def passEach (path : List String) (fields : Fields) (gap : Nat → List UInt8) (k : Nat) (r : Rendering) :
    List Block → Rendering
  | [] => r
  | c :: cs =>
    let name := c.name.getD ""
    let r := (fields.rounds name).foldl (fun r inner => c.pass (path ++ [name]) inner r) r
    passEach path fields gap (k + 1) (r.emit (gap k)) cs

end

theorem pass_eq (path : List String) (fields : Fields) (r : Rendering) (b : Block) :
    b.pass path fields r =
      (let set := fields.foldl (·.assign path b.vars.names) r
      let gap := b.gapUnder (set.values path)
      passEach path fields gap 1 (set.emit (gap 0)) b.children) := by
  cases b
  rw [pass]

/-! ## What a pass reaches -/

section

variable {p : List String} {n : String}

theorem assigns_frame {path : List String} (names : List String) (fields : Fields) (r : Rendering)
    (apart : p ≠ path) : (fields.foldl (·.assign path names) r).values p n = r.values p n := by
  induction fields generalizing r with
  | nil => rfl
  | cons field fields ih => rw [List.foldl_cons, ih, Rendering.values_assign_of_ne apart]

/-- Fields write nothing. -/
theorem out_assigns (path names : List String) (fields : Fields) (r : Rendering) :
    (fields.foldl (·.assign path names) r).out = r.out := by
  induction fields generalizing r with
  | nil => rfl
  | cons field fields ih => rw [List.foldl_cons, ih, Rendering.out_assign]

/-- If passes over a block keep a value, any number of them do. -/
theorem rounds_frame {path : List String} {c : Block}
    (keep : ∀ fields r, (c.pass path fields r).values p n = r.values p n) (rounds : List Fields) (r : Rendering) :
    (rounds.foldl (fun r inner => c.pass path inner r) r).values p n = r.values p n := by
  induction rounds generalizing r with
  | nil => rfl
  | cons inner rounds ih => rw [List.foldl_cons, ih, keep]

theorem passEach_frame {path : List String} {fields : Fields} {cs : List Block}
    (keep : ∀ c ∈ cs, ∀ fields r, (c.pass (path ++ [c.name.getD ""]) fields r).values p n = r.values p n)
    (gap : Nat → List UInt8) (k : Nat) (r : Rendering) :
    (passEach path fields gap k r cs).values p n = r.values p n := by
  induction cs generalizing k r with
  | nil => rfl
  | cons c cs ih =>
    rw [passEach, ih fun d hd => keep d (List.mem_cons_of_mem _ hd), Rendering.values_emit,
      rounds_frame (keep c List.mem_cons_self)]

/-- A pass leaves the values of all blocks but its own and those nested in it. -/
theorem pass_frame {path : List String} (b : Block) (fields : Fields) (r : Rendering) (apart : ¬ path <+: p) :
    (b.pass path fields r).values p n = r.values p n := by
  induction b using nestInduction generalizing path fields r with
  | nest b ih =>
    have below (name : String) : ¬ path ++ [name] <+: p := fun h => apart ((List.prefix_append _ _).trans h)
    have other : p ≠ path := fun e => apart (e ▸ List.prefix_refl p)
    rw [pass_eq]
    rw [passEach_frame fun c hc fields r => ih c hc fields r (below _), Rendering.values_emit,
      assigns_frame _ _ _ other]

/-- No block stands below a block nested in it. -/
theorem not_below_nested (path : List String) (name : String) : ¬ path ++ [name] <+: path := by
  intro longer
  have := longer.length_le
  rw [List.length_append, List.length_singleton] at this
  omega

/-- A block keeps its values while what is nested in it is written. -/
theorem rounds_own (path : List String) (name : String) (c : Block) (rounds : List Fields) (r : Rendering) :
    (rounds.foldl (fun r inner => c.pass (path ++ [name]) inner r) r).values path = r.values path := by
  funext n
  exact rounds_frame (fun fields r => pass_frame c fields r (not_below_nested path name)) rounds r

end

end Block

end Stencil
