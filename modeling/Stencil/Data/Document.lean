import Stencil.Data.Entry

/-!
# Documents

What a data file holds before it is known to be data for a template. Data has no empty values
and no arrays of anything but tables.
-/

namespace Stencil

/-- A value of a data file. Of entries with the same name in a table the last one counts. -/
inductive Document where
  | null
  | text (s : String)
  | bool (b : Bool)
  | int (n : Int)
  | float (x : Float)
  | array (items : List Document)
  | table (entries : List (String × Document))
  deriving Repr

namespace Document

/-- The value of a name in a table. -/
def get? (name : String) : Document → Option Document
  | table entries => entries.reverse.lookup name
  | _ => none

mutual

/-- The entry a value is, if it can be one. -/
def entry? : Document → Option Entry
  | null => none
  | text s => some (.text s)
  | bool b => some (.bool b)
  | int n => some (.int n)
  | float x => some (.float x)
  | array items => (itemFields? items).map .repeated
  | table entries => (entryList? entries).map fun es => .once (Fields.ofList es)

/-- The fields of every value of a list, all of which have to be tables. -/
def itemFields? : List Document → Option (List Fields)
  | [] => some []
  | table entries :: rest =>
    match entryList? entries, itemFields? rest with
    | some es, some more => some (Fields.ofList es :: more)
    | _, _ => none
  | _ :: _ => none

/-- The entries of a table in the order they are written. -/
def entryList? : List (String × Document) → Option (List (String × Entry))
  | [] => some []
  | (name, d) :: rest =>
    match d.entry?, entryList? rest with
    | some e, some more => some ((name, e) :: more)
    | _, _ => none

end

/-- The fields a value gives, which has to be a table. -/
def fields? : Document → Option Fields
  | table entries => (entryList? entries).map Fields.ofList
  | _ => none

end Document

end Stencil
