import Stencil.Data.Document
import Stencil.Decimal.Numeral

/-!
# Reading JSON

A text is cut into tokens, and the tokens are read by a machine with a stack of the arrays and
objects that are open. Numbers without fraction and exponent that fit 64 bits are whole; all
others are the nearest double, and one too large is refused. Nesting is limited.
-/

namespace Stencil.Json

open Decimal

/-- The pieces a JSON text consists of. -/
inductive Token where
  | openArray
  | closeArray
  | openObject
  | closeObject
  | comma
  | colon
  | text (s : String)
  | scalar (d : Document)

/-- White space between tokens. -/
def isSpace (c : Char) : Bool := c == ' ' || c == '\n' || c == '\t' || c == '\r'

/-- The number that four hexadecimal digits in front of a text write, and the text behind. -/
def hex4? : List Char → Option (Nat × List Char)
  | a :: b :: c :: d :: rest => do
    let digits ← [a, b, c, d].mapM digit?
    some (valueOf 16 digits, rest)
  | _ => none

/-- The character of a `\u` escape whose digits are in front of a text. A character beyond
the first 65536 is written as two escapes, and half of one alone is refused. -/
def unicode? (cs : List Char) : Option (Char × List Char) := do
  let (high, rest) ← hex4? cs
  if 0xD800 ≤ high ∧ high < 0xDC00 then
    match rest with
    | '\\' :: 'u' :: rest =>
      let (low, rest) ← hex4? rest
      if 0xDC00 ≤ low ∧ low < 0xE000 then
        some (Char.ofNat (0x10000 + (high - 0xD800) * 0x400 + (low - 0xDC00)), rest)
      else none
    | _ => none
  else if 0xDC00 ≤ high ∧ high < 0xE000 then none
  else some (Char.ofNat high, rest)

/-- The character that an escape other than `\u` stands for. -/
def escape? : Char → Option Char
  | '"' => some '"'
  | '\\' => some '\\'
  | '/' => some '/'
  | 'b' => some '\x08'
  | 'f' => some '\x0C'
  | 'n' => some '\n'
  | 'r' => some '\r'
  | 't' => some '\t'
  | _ => none

/-- Reads a string up to its closing quote, with at most `fuel` characters. -/
def string? (seen : List Char) : (fuel : Nat) → List Char → Option (String × List Char)
  | 0, _ => none
  | _ + 1, [] => none
  | fuel + 1, c :: cs =>
    if c = '"' then some (String.ofList seen.reverse, cs)
    else if c = '\\' then
      match cs with
      | 'u' :: rest => do
        let (u, rest) ← unicode? rest
        string? (u :: seen) fuel rest
      | e :: rest => do
        let u ← escape? e
        string? (u :: seen) fuel rest
      | [] => none
    else if c.toNat < 0x20 then none
    else string? (c :: seen) fuel cs

/-- The number that a whole text writes. -/
def number? (cs : List Char) : Option Document := do
  let (negative, body) := match cs with
    | '-' :: body => (true, body)
    | body => (false, body)
  let whole := leadingDigits body
  let tail := afterDigits body
  guard (whole ≠ [] ∧ (whole.head? = some '0' → whole = ['0']))
  let (frac, rest) := fraction tail
  guard (tail.head? = some '.' → frac ≠ [])
  let e ← exponent? rest
  let n : Int := ofDigits 10 whole
  let n := if negative then -n else n
  if tail = [] ∧ fitsWord n ∧ ¬(negative ∧ n = 0) then
    some (.int n)
  else
    let x := (Numeral.ofParts negative whole frac e).toFloat
    if x.isInf then none else some (.float x)

/-- Characters that belong to a number or a word. -/
def isWordChar (c : Char) : Bool := c.isAlphanum || c == '-' || c == '+' || c == '.'

/-- The value that a whole word or number stands for. -/
def word? (cs : List Char) : Option Document :=
  if cs = "true".toList then some (.bool true)
  else if cs = "false".toList then some (.bool false)
  else if cs = "null".toList then some .null
  else number? cs

/-- The mark that a character is on its own. -/
def mark? : Char → Option Token
  | '[' => some .openArray
  | ']' => some .closeArray
  | '{' => some .openObject
  | '}' => some .closeObject
  | ',' => some .comma
  | ':' => some .colon
  | _ => none

/-- The tokens of a text with at most `fuel` characters. -/
def tokens? : (fuel : Nat) → List Char → Option (List Token)
  | _, [] => some []
  | 0, _ :: _ => none
  | fuel + 1, c :: cs =>
    if isSpace c then tokens? fuel cs
    else
      match mark? c with
      | some t => (tokens? fuel cs).map (t :: ·)
      | none =>
        if c = '"' then do
          let (s, rest) ← string? [] (cs.length + 1) cs
          (tokens? fuel rest).map (.text s :: ·)
        else do
          let word := (c :: cs).takeWhile isWordChar
          let d ← word? word
          (tokens? fuel ((c :: cs).dropWhile isWordChar)).map (.scalar d :: ·)

/-- An array or object that is open, its parts so far from the last to the first. An object
waits for the value of a key. -/
inductive Open where
  | array (items : List Document)
  | object (entries : List (String × Document)) (key : String)

/-- What may come next. -/
inductive Expected where
  | value
  /-- A value, or the end of an empty array. -/
  | firstItem
  | key
  /-- A key, or the end of an empty object. -/
  | firstKey
  | colon
  /-- A comma, or the end of what is open. -/
  | separator
  /-- Nothing. -/
  | finished (d : Document)

/-- What is open, from the inside out, and what may come next. -/
structure Machine where
  stack : List Open
  expected : Expected

/-- How many arrays and objects may be open at once. -/
def depthLimit : Nat := 127

namespace Machine

/-- A value is complete. -/
def complete (d : Document) : List Open → Machine
  | [] => ⟨[], .finished d⟩
  | .array items :: rest => ⟨.array (d :: items) :: rest, .separator⟩
  | .object entries key :: rest => ⟨.object ((key, d) :: entries) key :: rest, .separator⟩

/-- Opens an array or object. -/
def push (o : Open) (expected : Expected) (stack : List Open) : Option Machine :=
  if stack.length < depthLimit then some ⟨o :: stack, expected⟩ else none

/-- Reads the token that begins or is a value. -/
def beginValue (stack : List Open) : Token → Option Machine
  | .openArray => push (.array []) .firstItem stack
  | .openObject => push (.object [] "") .firstKey stack
  | .text s => some (complete (.text s) stack)
  | .scalar d => some (complete d stack)
  | _ => none

/-- Reads one token. -/
def step (m : Machine) (t : Token) : Option Machine :=
  match m.expected, m.stack, t with
  | .finished _, _, _ => none
  | .value, stack, t => beginValue stack t
  | .firstItem, .array _ :: rest, .closeArray => some (complete (.array []) rest)
  | .firstItem, stack, t => beginValue stack t
  | .firstKey, .object _ _ :: rest, .closeObject => some (complete (.table []) rest)
  | .firstKey, .object entries _ :: rest, .text s => some ⟨.object entries s :: rest, .colon⟩
  | .key, .object entries _ :: rest, .text s => some ⟨.object entries s :: rest, .colon⟩
  | .colon, stack, .colon => some ⟨stack, .value⟩
  | .separator, .array items :: rest, .comma => some ⟨.array items :: rest, .value⟩
  | .separator, .array items :: rest, .closeArray => some (complete (.array items.reverse) rest)
  | .separator, .object entries key :: rest, .comma => some ⟨.object entries key :: rest, .key⟩
  | .separator, .object entries _ :: rest, .closeObject =>
    some (complete (.table entries.reverse) rest)
  | _, _, _ => none

end Machine

/-- The value that a whole JSON text writes. -/
def read? (s : String) : Option Document := do
  let cs := s.toList
  let ts ← tokens? cs.length cs
  let m ← ts.foldlM Machine.step ⟨[], .value⟩
  match m.expected with
  | .finished d => some d
  | _ => none

end Stencil.Json
