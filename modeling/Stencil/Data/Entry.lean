import Stencil.Decimal.Shortest

/-!
# Data for a template

Data is a tree of named entries. A scalar has a text, which a variable takes as its value; a
table gives the passes over a nested block.
-/

namespace Stencil

/-- A value of the data. Fields are kept in ascending order of their names, each name once. -/
inductive Entry where
  | text (s : String)
  | bool (b : Bool)
  | int (n : Int)
  | float (x : Float)
  /-- One pass over a block per element. -/
  | repeated (items : List (List (String × Entry)))
  /-- A single pass over a block. -/
  | once (fields : List (String × Entry))
  deriving Repr

/-- The entries for one pass over a block. -/
abbrev Fields := List (String × Entry)

/-- The entry of a name. -/
def Fields.get? (fields : Fields) (name : String) : Option Entry :=
  fields.lookup name

/-- Adds an entry at its place in the order of names; an entry of the same name is replaced. -/
def Fields.insert (name : String) (entry : Entry) : Fields → Fields
  | [] => [(name, entry)]
  | (n, e) :: rest =>
    if name < n then (name, entry) :: (n, e) :: rest
    else if name = n then (name, entry) :: rest
    else (n, e) :: Fields.insert name entry rest

theorem Fields.get?_cons (fields : Fields) (name key : String) (entry : Entry) :
    Fields.get? ((name, entry) :: fields) key =
      if key = name then some entry else Fields.get? fields key := by
  by_cases h : key = name
  · simp [get?, h]
  · have differ : (key == name) = false := beq_false_of_ne h
    simp [get?, List.lookup_cons, differ, h]

/-- What was added has its name; all other names keep their entries. -/
theorem Fields.get?_insert (fields : Fields) (name key : String) (entry : Entry) :
    (fields.insert name entry).get? key = if key = name then some entry else fields.get? key := by
  induction fields with
  | nil => exact get?_cons [] name key entry
  | cons f rest ih =>
    obtain ⟨n, e⟩ := f
    rw [insert]
    split
    · simp [get?_cons]
    · split
      · next same =>
        subst same
        by_cases h : key = name <;> simp [get?_cons, h]
      · next other =>
        by_cases h : key = n
        · simp [get?_cons, h, Ne.symm other]
        · simp [get?_cons, h, ih]

/-- The fields of a list in which a later entry replaces an earlier one of the same name. -/
def Fields.ofList (entries : List (String × Entry)) : Fields :=
  entries.foldl (fun fields (name, entry) => fields.insert name entry) []

namespace Entry

/-- Numbers with a fraction are written out in full; a zero has no sign. -/
def floatStyle : Decimal.Style := ⟨Decimal.positional, false⟩

/-- The text of a scalar. Tables have none. -/
def text? : Entry → Option String
  | text s => some s
  | bool b => some (if b then "true" else "false")
  | int n => some (toString n)
  | float x => some (floatStyle.text x)
  | repeated _ | once _ => none

/-- Whether the entry is for a block only. -/
def isTable (e : Entry) : Bool := e.text?.isNone

/-- Whether the entry is a truth value. -/
def isBool : Entry → Bool
  | bool _ => true
  | _ => false

/-- What sort of entry it is, in the words of a report. -/
def typeName : Entry → String
  | text _ => "string"
  | bool _ => "boolean"
  | int _ => "integer"
  | float _ => "float"
  | repeated _ => "array of tables"
  | once _ => "table"

/-- A scalar's text, or the size of a table. -/
def display : Entry → String
  | repeated items => s!"[{items.length} tables]"
  | once fields => "\x7b" ++ toString fields.length ++ " fields\x7d"
  | scalar => scalar.text?.getD ""

/-- The fields of each pass that an entry asks of a block: a table asks for one, an array of
tables for one per element, and `true` for one without data. -/
def passes : Entry → List Fields
  | once fields => [fields]
  | repeated items => items
  | bool true => [[]]
  | _ => []

end Entry

end Stencil
