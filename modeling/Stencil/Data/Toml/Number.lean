import Stencil.Data.Document
import Stencil.Data.Toml.Text

/-!
# TOML: numbers and dates

Numbers may have underscores between digits. Whole numbers have to fit 64 bits with a sign; a
float too large to be finite is refused unless it is negative. A date or time is kept as text
in a table with a single field.
-/

namespace Stencil.Toml

open Decimal

/-- Digits of a base with underscores between them, as the digits alone. -/
def digits? (base : Nat) : Reader (List Char)
  | [] => none
  | c :: cs =>
    if (digit? c).any (· < base) then
      let more := run cs
      some (c :: more.1, more.2)
    else none
where
  run : List Char → List Char × List Char
    | c :: cs =>
      if (digit? c).any (· < base) then
        let more := run cs
        (c :: more.1, more.2)
      else if c = '_' then
        match cs with
        | d :: ds =>
          if (digit? d).any (· < base) then
            let more := run ds
            (d :: more.1, more.2)
          else ([], c :: cs)
        | [] => ([], c :: cs)
      else ([], c :: cs)
    | [] => ([], [])

/-- A whole number of decimal digits without superfluous zeros in front. -/
def whole? : Reader (List Char)
  | '0' :: cs => some (['0'], cs)
  | cs => digits? 10 cs

/-- The whole number with some digits, if it fits. -/
def word? (base : Nat) (negative : Bool) (digits : List Char) : Option Document :=
  let n : Int := ofDigits base digits
  let n := if negative then -n else n
  if fitsWord n then some (.int n) else none

/-- A whole number: decimal with an optional sign, or of another base without one. -/
def int? : Reader Document
  | '0' :: 'x' :: cs => based 16 cs
  | '0' :: 'o' :: cs => based 8 cs
  | '0' :: 'b' :: cs => based 2 cs
  | cs => do
    let (negative, body) := sign cs
    let (ds, rest) ← whole? body
    some (← word? 10 negative ds, rest)
where
  based (base : Nat) : Reader Document := fun cs => do
    let (ds, rest) ← digits? base cs
    some (← word? base false ds, rest)

/-- The exponent in front of a text, if there is one. -/
def exponentPart? (cs : List Char) : Option (Option Int × List Char) :=
  match cs with
  | c :: rest =>
    if c = 'e' ∨ c = 'E' then do
      let (negative, body) := sign rest
      let (ds, rest) ← digits? 10 body
      let n : Int := ofDigits 10 ds
      some (some (if negative then -n else n), rest)
    else some (none, cs)
  | [] => some (none, [])

/-- A float: a name, or digits with a fraction or an exponent. -/
def float? : Reader Document := fun cs =>
  let (negative, body) := sign cs
  match body with
  | 'i' :: 'n' :: 'f' :: rest =>
    some (.float (if negative then -1.0 / 0.0 else 1.0 / 0.0), rest)
  | 'n' :: 'a' :: 'n' :: rest => some (.float (0.0 / 0.0), rest)
  | _ => do
    let (whole, rest) ← whole? body
    let (frac, rest, pointed) ← match rest with
      | '.' :: rest => (digits? 10 rest).map fun (ds, rest) => (ds, rest, true)
      | rest => some ([], rest, false)
    let (e, rest) ← exponentPart? rest
    if pointed ∨ e.isSome then
      let x := (Numeral.ofParts negative whole frac (e.getD 0)).toFloat
      if x.isInf ∧ ¬negative then none else some (.float x, rest)
    else none

/-- The name of the field that holds a date or time. -/
def dateField : String := "$__toml_private_datetime"

/-- A number of exactly `count` digits between two bounds, and its digits. -/
def fixed? (count low high : Nat) : Reader (List Char) := fun cs =>
  let ds := cs.take count
  let n := ofDigits 10 ds
  if ds.length = count ∧ ds.all Char.isDigit ∧ low ≤ n ∧ n ≤ high then some (ds, cs.drop count)
  else none

/-- A given character in front of a text. -/
def mark? (c : Char) : Reader Unit
  | d :: cs => if c = d then some ((), cs) else none
  | [] => none

/-- How many days a month of a year has. -/
def daysIn (year month : Nat) : Nat :=
  if month = 2 then
    if year % 4 = 0 ∧ (year % 100 ≠ 0 ∨ year % 400 = 0) then 29 else 28
  else if month = 4 ∨ month = 6 ∨ month = 9 ∨ month = 11 then 30
  else 31

/-- A date. -/
def date? : Reader (List Char) := fun cs => do
  let (year, cs) ← fixed? 4 0 9999 cs
  let (_, cs) ← mark? '-' cs
  let (month, cs) ← fixed? 2 1 12 cs
  let (_, cs) ← mark? '-' cs
  let (day, cs) ← fixed? 2 1 (daysIn (ofDigits 10 year) (ofDigits 10 month)) cs
  some (year ++ '-' :: month ++ '-' :: day, cs)

/-- The fraction of a second: nine digits at most, without zeros at the end. -/
def secondFraction (cs : List Char) : List Char × List Char :=
  match fraction cs with
  | ([], _) => ([], cs)
  | (ds, rest) =>
    match ((ds.take 9).reverse.dropWhile (· == '0')).reverse with
    | [] => ([], rest)
    | ds => ('.' :: ds, rest)

/-- A time of the day. -/
def time? : Reader (List Char) := fun cs => do
  let (hour, cs) ← fixed? 2 0 23 cs
  let (_, cs) ← mark? ':' cs
  let (minute, cs) ← fixed? 2 0 59 cs
  let (_, cs) ← mark? ':' cs
  let (second, cs) ← fixed? 2 0 60 cs
  let (frac, cs) := secondFraction cs
  some (hour ++ ':' :: minute ++ ':' :: second ++ frac, cs)

/-- The distance from universal time. No distance is written with a plus sign. -/
def offset? : Reader (List Char)
  | c :: cs =>
    if c = 'Z' ∨ c = 'z' then some (['Z'], cs)
    else if c = '+' ∨ c = '-' then do
      let (hour, cs) ← fixed? 2 0 23 cs
      let (_, cs) ← mark? ':' cs
      let (minute, cs) ← fixed? 2 0 59 cs
      let zero := ofDigits 10 hour = 0 ∧ ofDigits 10 minute = 0
      some ((if zero then '+' else c) :: hour ++ ':' :: minute, cs)
    else none
  | [] => none

/-- A date, a time, or both with an optional distance from universal time. -/
def dateTime? : Reader (List Char) := fun cs =>
  match date? cs with
  | none => time? cs
  | some (date, rest) =>
    match rest with
    | c :: after =>
      if c = 'T' ∨ c = 't' ∨ c = ' ' then
        match time? after with
        | none => some (date, rest)
        | some (time, rest) =>
          match offset? rest with
          | none => some (date ++ 'T' :: time, rest)
          | some (offset, rest) => some (date ++ 'T' :: time ++ offset, rest)
      else some (date, rest)
    | [] => some (date, [])

/-- A date, a float or a whole number, tried in this order. -/
def number? : Reader Document := fun cs =>
  match dateTime? cs with
  | some (date, rest) => some (.table [(dateField, .text (String.ofList date))], rest)
  | none => (float? cs).or (int? cs)

end Stencil.Toml
