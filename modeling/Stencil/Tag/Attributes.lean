import Stencil.ParseError
import Stencil.Text.Search

/-!
# Attributes of a tag

The text between the keyword and the end of an opening tag is a row of pairs: optional
space, a key, `=`, and a value that is quoted or runs to the next space or quote. Nothing
has to separate a pair from a quoted value in front of it. `Attributes.parse` reads such a
text; `pair?_shorter` is why it ends.
-/

namespace Stencil

open Text

/-- The pairs of a tag in the order they are written. -/
structure Attributes where
  pairs : List (String × String)
  deriving Repr, BEq, DecidableEq

namespace Attributes

/-- The value of the first pair with a given key. -/
def get? (a : Attributes) (key : String) : Option String :=
  a.pairs.lookup key

/-- Characters a key begins with, and after which a keyword has not ended. -/
def isWord (c : Char) : Bool := c.isAlphanum || c == '_'

/-- Characters a key goes on with. -/
def isKey (c : Char) : Bool := isWord c || c == '-'

/-- Space inside a tag. -/
def isSpace (c : Char) : Bool :=
  c == ' ' || c == '\t' || c == '\n' || c == '\x0B' || c == '\x0C' || c == '\r'

/-- The two quotes a value may stand in. -/
def isQuote (c : Char) : Bool := c == '"' || c == '\''

/-- Characters of a value without quotes. -/
def isPlain (c : Char) : Bool := !(isQuote c || isSpace c)

/-- The value at the front of a text, and the text behind it. A quote that is not closed
takes nothing and leaves an empty value. -/
def value : List Char → List Char × List Char
  | [] => ([], [])
  | c :: cs =>
    if isQuote c then
      match cs.dropWhile (· != c) with
      | _ :: rest => (cs.takeWhile (· != c), rest)
      | [] => ([], c :: cs)
    else
      ((c :: cs).takeWhile isPlain, (c :: cs).dropWhile isPlain)

/-- The pair at the front of a text, and the text behind it. -/
def pair? (cs : List Char) : Option ((List Char × List Char) × List Char) :=
  let body := cs.dropWhile isSpace
  if body.head?.any isWord then
    match body.dropWhile isKey with
    | '=' :: rest => some ((body.takeWhile isKey, (value rest).1), (value rest).2)
    | _ => none
  else
    none

theorem value_length_le (cs : List Char) : (value cs).2.length ≤ cs.length := by
  cases cs with
  | nil => simp [value]
  | cons c cs =>
    rw [value]
    split
    · split
      · next q rest h =>
        have := (List.dropWhile_suffix (l := cs) (· != c)).length_le
        rw [h] at this
        simp only [List.length_cons] at this ⊢
        omega
      · simp
    · exact (List.dropWhile_suffix isPlain).length_le

/-- A pair takes at least its key and its sign. -/
theorem pair?_shorter {cs rest : List Char} {kv : List Char × List Char}
    (h : pair? cs = some (kv, rest)) : rest.length < cs.length := by
  have lead := (List.dropWhile_suffix (l := cs) isSpace).length_le
  have keys := (List.dropWhile_suffix (l := cs.dropWhile isSpace) isKey).length_le
  simp only [pair?] at h
  split at h
  · split at h
    · next after hk =>
      simp only [Option.some.injEq, Prod.mk.injEq] at h
      obtain ⟨-, rfl⟩ := h
      rw [hk] at keys
      have := value_length_le after
      simp only [List.length_cons] at keys
      omega
    · simp at h
  · simp at h

/-- Reads pairs up to the end of the text. A key that is already known stops the reading
before anything behind it is looked at. -/
def collect (known : List (String × String)) (cs : List Char) : Except Fault Attributes :=
  match h : pair? cs with
  | none => if cs.isEmpty then .ok ⟨known⟩ else .error .invalidAttributes
  | some ((key, val), rest) =>
    have := pair?_shorter h
    if (known.lookup (String.ofList key)).isSome then
      .error (.repeatedAttribute (String.ofList key))
    else
      collect (known ++ [(String.ofList key, String.ofList val)]) rest
  termination_by cs.length

/-- Reads the text of an opening tag. Space at its end belongs to no pair. -/
def parse (text : List Char) : Except Fault Attributes :=
  collect [] (dropEndWhile isSpace text)

end Attributes

end Stencil
