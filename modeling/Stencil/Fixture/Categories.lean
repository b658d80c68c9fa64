import Stencil.Text.Search

/-!
# Categories

Test files are grouped by the folder they stand in, which is their category. `Categories.select`
keeps the categories that are asked for.
-/

namespace Stencil.Fixture

/-- Things by category: every category once, in ascending order. -/
abbrev Categories (α : Type) := List (String × List α)

namespace Categories

variable {α : Type}

/-- Gives a category what `change` makes of the things it has, or of `none` if it is not there. -/
def alter (category : String) (change : Option (List α) → List α) : Categories α → Categories α
  | [] => [(category, change none)]
  | (c, as) :: rest =>
    if category < c then (category, change none) :: (c, as) :: rest
    else if category = c then (category, change (some as)) :: rest
    else (c, as) :: alter category change rest

/-- Adds a thing to its category, behind those that are there. -/
def add (category : String) (a : α) : Categories α → Categories α :=
  alter category fun as => as.getD [] ++ [a]

/-- Gives a category its things, in place of those that are there. -/
def put (category : String) (as : List α) : Categories α → Categories α :=
  alter category fun _ => as

/-- Puts further groups to those that are there, one after the other. -/
def putAll (cs groups : Categories α) : Categories α :=
  groups.foldl (fun cs group => put group.1 group.2 cs) cs

/-- The things of a list by their categories. -/
def ofList (things : List (String × α)) : Categories α :=
  things.foldl (fun cs (category, a) => add category a cs) []

/-- A request without the slashes at either end. -/
def request (s : String) : String :=
  String.ofList (Text.trimBoth (· == '/') s.toList)

/-- Whether a category is the requested one or stands below it. -/
def matchesRequest (requested category : String) : Bool :=
  category == requested || (requested ++ "/").toList.isPrefixOf category.toList

/-- The categories that one request asks for. -/
def asked (all : Categories α) (requested : String) : Categories α :=
  all.filter fun (c, _) => matchesRequest requested c

/-- The categories that some request asks for, put together request by request; without a
request, all. -/
def select (all : Categories α) (requests : List String) : Categories α :=
  if requests.isEmpty then all
  else requests.foldl (fun selected s => selected.putAll (all.asked (request s))) []

/-- The requests that ask for no category. -/
def unmatched (all : Categories α) (requests : List String) : List String :=
  (requests.map request).filter fun r => (all.asked r).isEmpty

end Categories

/-- How reports name a category. The files of the folder itself have none. -/
def categoryLabel (category : String) : String :=
  if category = "" then "(root)" else category

/-- The warning about a request that asks for no category. -/
def requestWarning (requested : String) (available : List String) : String :=
  let names := ", ".intercalate (available.map categoryLabel)
  s!"warning: category '{requested}' not found (available: {names})"

end Stencil.Fixture
