import Stencil.Span
import Stencil.Text.Search

/-!
# Variables of a block

A variable stands for its placeholder in the text of its block. Until it is assigned, its
value is the placeholder itself. The table keeps declaration order, and a name means the
first variable declared with it.
-/

namespace Stencil

open Text

/-- A name, the text that stands for it, its current value, and the tag that declares it. -/
structure Variable where
  name : String
  placeholder : String
  value : String
  span : Span
  deriving Repr, BEq, DecidableEq

/-- The text behind the variable's placeholder, if `cs` begins with it. An empty placeholder
is found nowhere. -/
def Variable.take? (v : Variable) (cs : List Char) : Option (List Char) :=
  match v.placeholder.toList with
  | [] => none
  | c :: rest => after? (c :: rest) cs

theorem Variable.take?_shorter {v : Variable} {cs rest : List Char} (h : v.take? cs = some rest) :
    rest.length < cs.length := by
  rw [take?] at h
  split at h
  · simp at h
  · rw [after?_eq_some_iff.1 h]
    simp only [List.cons_append, List.length_cons, List.length_append]
    omega

/-- The variables of one block in declaration order. -/
structure Variables where
  entries : List Variable
  deriving Repr, BEq, DecidableEq

namespace Variables

/-- No variables. -/
def empty : Variables := ⟨[]⟩

/-- How many variables there are. -/
def size (vs : Variables) : Nat := vs.entries.length

/-- The names in declaration order. -/
def names (vs : Variables) : List String := vs.entries.map (·.name)

/-- Adds a variable behind the others; its index is the old size. -/
def declare (vs : Variables) (name placeholder : String) (span : Span) : Variables :=
  ⟨vs.entries ++ [⟨name, placeholder, placeholder, span⟩]⟩

/-- The index of the first variable of a name. -/
def indexOf? (vs : Variables) (name : String) : Option Nat :=
  vs.entries.findIdx? (·.name == name)

/-- Whether a name is declared. -/
def declares (vs : Variables) (name : String) : Bool :=
  (vs.indexOf? name).isSome

/-- The current value at an index; nothing where there is no variable. -/
def value (vs : Variables) (index : Nat) : String :=
  (vs.entries[index]?.map (·.value)).getD ""

/-- Gives the first variable of a name a new value. -/
def assign? (vs : Variables) (name value : String) : Option Variables :=
  (vs.indexOf? name).map fun i => ⟨vs.entries.modify i fun v => { v with value := value }⟩

@[simp] theorem size_declare (vs : Variables) (name placeholder : String) (span : Span) :
    (vs.declare name placeholder span).size = vs.size + 1 := by
  simp [declare, size]

@[simp] theorem names_declare (vs : Variables) (name placeholder : String) (span : Span) :
    (vs.declare name placeholder span).names = vs.names ++ [name] := by
  simp [declare, names]

end Variables

end Stencil
