import Stencil.Decimal.Double

/-!
# The shortest decimal of a double

Among the decimals that round to a double, the one on the coarsest grid of powers of ten is
the shortest. Of two neighbours on that grid the nearer is taken, and the upper one when both
are equally near.
-/

namespace Stencil.Decimal

/-- The numbers that round to `value / unit`: those between `low / unit` and `high / unit`,
with the ends if `closed`. -/
structure Neighbourhood where
  low : Nat
  value : Nat
  high : Nat
  unit : Nat
  closed : Bool
  deriving Repr, BEq, DecidableEq

namespace Neighbourhood

/-- The numbers that round to `m * 2 ^ q`, counted in quarters of the unit. -/
def ofFinite (m : Nat) (q : Int) (edge : Bool) : Neighbourhood :=
  let below := if edge then 1 else 2
  match q - 2 with
  | .ofNat k =>
    ⟨(4 * m - below) <<< k, (4 * m) <<< k, (4 * m + 2) <<< k, 1, m % 2 == 0⟩
  | .negSucc k => ⟨4 * m - below, 4 * m, 4 * m + 2, 1 <<< (k + 1), m % 2 == 0⟩

/-- The same numbers counted in units of `10 ^ g`. -/
def inPowers (nb : Neighbourhood) : Int → Neighbourhood
  | .ofNat k => { nb with unit := nb.unit * Nat.pow 10 k }
  | .negSucc k =>
    let t := Nat.pow 10 (k + 1)
    { nb with low := nb.low * t, value := nb.value * t, high := nb.high * t }

/-- Whether a whole number is among the numbers. -/
def holds (nb : Neighbourhood) (n : Nat) : Bool :=
  if nb.closed then nb.low ≤ n * nb.unit && n * nb.unit ≤ nb.high
  else nb.low < n * nb.unit && n * nb.unit < nb.high

/-- The whole number among the numbers that is nearest to the value. -/
def nearest? (nb : Neighbourhood) : Option Nat :=
  let n := nb.value / nb.unit
  match nb.holds n, nb.holds (n + 1) with
  | true, true => if 2 * (nb.value % nb.unit) < nb.unit then some n else some (n + 1)
  | true, false => some n
  | false, true => some (n + 1)
  | false, false => none

/-- The first grid from `10 ^ g` downwards that has one of the numbers, by at most `steps`
steps: the number's digits and the grid's exponent. -/
def search (nb : Neighbourhood) (g : Int) : (steps : Nat) → Nat × Int
  | 0 => (0, 0)
  | steps + 1 =>
    match (nb.inPowers g).nearest? with
    | some n => (n, g)
    | none => nb.search (g - 1) steps

/-- The shortest decimal among the numbers, as digits and exponent. No power of ten above the
first one tried is small enough, and below the last every double is on the grid. -/
def shortest (nb : Neighbourhood) : Nat × Int :=
  let top := (nb.high / nb.unit).log2 / 3 + 1
  nb.search top (top + 1100)

end Neighbourhood

/-- How a number is written from its digits and the exponent of the last one. -/
structure Style where
  write : (digits : List Char) → (exponent : Int) → List Char
  /-- Whether a zero keeps its sign. -/
  signedZero : Bool

/-- All places written out, without an exponent. -/
def positional (digits : List Char) : Int → List Char
  | .ofNat k => digits ++ List.replicate k '0'
  | .negSucc k =>
    let places := k + 1
    if places < digits.length then
      digits.take (digits.length - places) ++ '.' :: digits.drop (digits.length - places)
    else
      '0' :: '.' :: List.replicate (places - digits.length) '0' ++ digits

/-- One digit in front of the point, and the exponent. -/
def scientific (digits : List Char) (exponent : Int) : List Char :=
  let places := digits.length - 1
  let point := if places = 0 then [] else '.' :: digits.drop 1
  digits.take 1 ++ point ++ 'e' :: (toString (exponent + places)).toList

/-- The text of a double with its shortest digits. -/
def Style.text (style : Style) (x : Float) : String :=
  let (negative, magnitude) := ofFloat x
  match magnitude with
  | .notANumber => "NaN"
  | .infinite => if negative then "-inf" else "inf"
  | .finite m q edge =>
    let (digits, exponent) := if m = 0 then (0, 0) else (Neighbourhood.ofFinite m q edge).shortest
    let body := style.write (Nat.toDigits 10 digits) exponent
    String.ofList (if negative && (style.signedZero || m != 0) then '-' :: body else body)

end Stencil.Decimal
