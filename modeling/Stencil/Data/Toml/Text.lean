import Stencil.Decimal.Numeral

/-!
# TOML: space, strings and keys

Readers take what stands in front of a text and give the text behind it. A control character
other than a tab belongs nowhere.
-/

namespace Stencil.Toml

open Decimal

/-- A value in front of a text, and the text behind it. -/
abbrev Reader (α : Type) := List Char → Option (α × List Char)

/-- Space within a line. -/
def isSpace (c : Char) : Bool := c == ' ' || c == '\t'

/-- The text behind the space in front of it. -/
def skipSpace (cs : List Char) : List Char := cs.dropWhile isSpace

/-- Characters that may stand in a comment or, quotes and backslash apart, in a string. -/
def isPrintable (c : Char) : Bool := c == '\t' || (0x20 ≤ c.toNat && c.toNat ≠ 0x7F)

/-- The text behind a line end. -/
def lineEnd? : List Char → Option (List Char)
  | '\n' :: cs => some cs
  | '\r' :: '\n' :: cs => some cs
  | _ => none

/-- The text behind a comment, if there is one. -/
def skipComment : List Char → List Char
  | '#' :: cs => cs.dropWhile isPrintable
  | cs => cs

/-- The text behind the rest of a line: space, a comment, and the end of the line or text. -/
def restOfLine? (cs : List Char) : Option (List Char) :=
  match skipComment (skipSpace cs) with
  | [] => some []
  | rest => lineEnd? rest

/-- The text behind space, comments and line ends, with at most `fuel` lines. A comment has
to end its line. -/
def skipLines : (fuel : Nat) → List Char → List Char
  | 0, cs => skipSpace cs
  | fuel + 1, cs =>
    match lineEnd? (skipComment (skipSpace cs)) with
    | some rest => skipLines fuel rest
    | none => skipSpace cs

/-- The character that a number of hexadecimal digits in front of a text names. -/
def unicode? (count : Nat) : Reader Char := fun cs => do
  let digits ← (cs.take count).mapM digit?
  let n := valueOf 16 digits
  if digits.length = count ∧ n.isValidChar then some (Char.ofNat n, cs.drop count) else none

/-- The character of an escape, behind its backslash. -/
def escape? : Reader Char
  | 'b' :: cs => some ('\x08', cs)
  | 't' :: cs => some ('\t', cs)
  | 'n' :: cs => some ('\n', cs)
  | 'f' :: cs => some ('\x0C', cs)
  | 'r' :: cs => some ('\r', cs)
  | '"' :: cs => some ('"', cs)
  | '\\' :: cs => some ('\\', cs)
  | 'u' :: cs => unicode? 4 cs
  | 'U' :: cs => unicode? 8 cs
  | _ => none

/-- A string on one line, behind its opening quote. Escapes count only between double
quotes. -/
def oneLine (quote : Char) (seen : List Char) : (fuel : Nat) → Reader String
  | 0, _ => none
  | _ + 1, [] => none
  | fuel + 1, c :: cs =>
    if c = quote then some (String.ofList seen.reverse, cs)
    else if quote = '"' ∧ c = '\\' then
      match escape? cs with
      | some (u, rest) => oneLine quote (u :: seen) fuel rest
      | none => none
    else if isPrintable c then oneLine quote (c :: seen) fuel cs
    else none

/-- The text behind a backslash at the end of a line: it swallows all space up to the next
character that is none. -/
def lineJoin? (cs : List Char) : Option (List Char) :=
  (lineEnd? (skipSpace cs)).map (skipBlank cs.length)
where
  skipBlank : (fuel : Nat) → List Char → List Char
    | 0, cs => cs
    | fuel + 1, cs =>
      match lineEnd? (skipSpace cs) with
      | some rest => skipBlank fuel rest
      | none => skipSpace cs

/-- A string over several lines, behind its three opening quotes and their line end. Three
quotes end it, and up to two in front of them belong to it. -/
def manyLines (quote : Char) (seen : List Char) : (fuel : Nat) → Reader String
  | 0, _ => none
  | _ + 1, [] => none
  | fuel + 1, c :: cs =>
    if c = quote then
      let run := 1 + (cs.takeWhile (· == quote)).length
      if 3 ≤ run then
        let inside := min (run - 3) 2
        some (String.ofList (List.replicate inside quote ++ seen).reverse, cs.drop (inside + 2))
      else manyLines quote (c :: seen) fuel cs
    else if quote = '"' ∧ c = '\\' then
      match lineJoin? cs with
      | some rest => manyLines quote seen fuel rest
      | none =>
        match escape? cs with
        | some (u, rest) => manyLines quote (u :: seen) fuel rest
        | none => none
    else
      match lineEnd? (c :: cs) with
      | some rest => manyLines quote ('\n' :: seen) fuel rest
      | none => if isPrintable c then manyLines quote (c :: seen) fuel cs else none

/-- A string of any of the four kinds. -/
def string? : Reader String
  | q :: cs =>
    if q = '"' ∨ q = '\'' then
      match cs with
      | a :: b :: rest =>
        if a = q ∧ b = q then manyLines q [] (rest.length + 1) ((lineEnd? rest).getD rest)
        else oneLine q [] (cs.length + 1) cs
      | _ => oneLine q [] (cs.length + 1) cs
    else none
  | [] => none

/-- Characters of a key without quotes. -/
def isBare (c : Char) : Bool := c.isAlphanum || c == '-' || c == '_'

/-- One part of a key. -/
def simpleKey? : Reader String
  | [] => none
  | c :: cs =>
    if c = '"' ∨ c = '\'' then oneLine c [] (cs.length + 1) cs
    else if isBare c then
      some (String.ofList ((c :: cs).takeWhile isBare), (c :: cs).dropWhile isBare)
    else none

/-- How many parts a key may have, and how deep values may be nested. -/
def depthLimit : Nat := 79

/-- The parts of a key, at most `parts` of them, and the text behind the space behind it. -/
def key? : (parts : Nat) → Reader (List String)
  | 0, _ => none
  | parts + 1, cs =>
    match simpleKey? (skipSpace cs) with
    | none => none
    | some (part, rest) =>
      match skipSpace rest with
      | '.' :: rest => (key? parts rest).map fun (others, rest) => (part :: others, rest)
      | rest => some ([part], rest)

end Stencil.Toml
