import Stencil.Decimal.Double

/-!
# Written numbers

Digits as they stand in a text, and the number that a sign, the digits around a point and an
exponent make up.
-/

namespace Stencil.Decimal

/-- The number that digits of a base write. -/
def valueOf (base : Nat) (digits : List Nat) : Nat :=
  digits.foldl (fun n d => n * base + d) 0

/-- The value of a hexadecimal digit; decimal digits are among them. -/
def digit? (c : Char) : Option Nat :=
  if c.isDigit then some (c.toNat - '0'.toNat)
  else if 'a' ≤ c ∧ c ≤ 'f' then some (c.toNat - 'a'.toNat + 10)
  else if 'A' ≤ c ∧ c ≤ 'F' then some (c.toNat - 'A'.toNat + 10)
  else none

/-- The number that digits of a base up to sixteen write. Other characters are passed over. -/
def ofDigits (base : Nat) (cs : List Char) : Nat :=
  valueOf base (cs.filterMap digit?)

/-- The number with these digits in front of the point and behind it, and this exponent. -/
def Numeral.ofParts (negative : Bool) (whole fraction : List Char) (exponent : Int) : Numeral :=
  ⟨negative, ofDigits 10 (whole ++ fraction), exponent - fraction.length⟩

/-- A sign in front of a text, and the text behind it. -/
def sign : List Char → Bool × List Char
  | '-' :: cs => (true, cs)
  | '+' :: cs => (false, cs)
  | cs => (false, cs)

/-- The digits in front of a text. -/
def leadingDigits (cs : List Char) : List Char := cs.takeWhile Char.isDigit

/-- The text behind the digits in front of it. -/
def afterDigits (cs : List Char) : List Char := cs.dropWhile Char.isDigit

/-- The fraction in front of a text, which may be empty, and the text behind it. -/
def fraction : List Char → List Char × List Char
  | '.' :: cs => (leadingDigits cs, afterDigits cs)
  | cs => ([], cs)

/-- The exponent that makes up a whole text; an empty text means zero. -/
def exponent? : List Char → Option Int
  | [] => some 0
  | c :: cs =>
    let (negative, ds) := sign cs
    if (c = 'e' ∨ c = 'E') ∧ ds ≠ [] ∧ ds.all Char.isDigit then
      let n : Int := ofDigits 10 ds
      some (if negative then -n else n)
    else none

/-- The double that a whole text writes: digits with a point and an exponent where wanted, or
the name of a value without digits in letters of either case. -/
def float? (s : String) : Option Float :=
  let (negative, cs) := sign s.toList
  let name := String.ofList (cs.map Char.toLower)
  if name = "inf" ∨ name = "infinity" then some (if negative then -1.0 / 0.0 else 1.0 / 0.0)
  else if name = "nan" then some (0.0 / 0.0)
  else
    let whole := leadingDigits cs
    let (frac, rest) := fraction (afterDigits cs)
    if whole = [] ∧ frac = [] then none
    else (exponent? rest).map fun e => (Numeral.ofParts negative whole frac e).toFloat

/-- The whole number that a whole text writes. -/
def int? (s : String) : Option Int :=
  let (negative, ds) := sign s.toList
  if ds ≠ [] ∧ ds.all Char.isDigit then
    let n : Int := ofDigits 10 ds
    some (if negative then -n else n)
  else none

/-- Whether a whole number fits 64 bits with a sign. -/
def fitsWord (n : Int) : Bool := -9223372036854775808 ≤ n && n ≤ 9223372036854775807

end Stencil.Decimal
