/-!
# Doubles as exact numbers

A double is taken apart into its sign and its magnitude, which is a whole number of units of a
power of two, and put together as the double nearest to a fraction. All arithmetic in between
is exact.
-/

namespace Stencil.Decimal

/-- The magnitude of a double. A finite one is `m * 2 ^ q`; `edge` says that the double below
it is only half as far away as the one above. -/
inductive Magnitude where
  | notANumber
  | infinite
  | finite (m : Nat) (q : Int) (edge : Bool)
  deriving Repr, BEq, DecidableEq

/-- The exponent of the finest unit a double has. -/
def leastExponent : Int := -1074

/-- The bit above the fraction, which every double has but those counted in the finest unit. -/
def hiddenBit : Nat := 1 <<< 52

/-- The bits of the infinite magnitude. -/
def infiniteBits : Nat := 2047 <<< 52

/-- The sign and the magnitude that the bits of a double encode: 52 bits of fraction under 11
bits of exponent under the sign. -/
def ofBits (bits : Nat) : Bool × Magnitude :=
  let negative := bits.testBit 63
  let exponent := (bits >>> 52) % 2048
  let fraction := bits % hiddenBit
  (negative,
    if exponent = 2047 then if fraction = 0 then .infinite else .notANumber
    else if exponent = 0 then .finite fraction leastExponent false
    else .finite (fraction + hiddenBit) (leastExponent + (exponent - 1 : Nat))
      (fraction = 0 ∧ 1 < exponent))

/-- The sign and the magnitude of a double. -/
def ofFloat (x : Float) : Bool × Magnitude := ofBits x.toBits.toNat

/-- The fraction `n / d` times a power of `b`, as numerator and denominator. -/
def scale (b n d : Nat) : Int → Nat × Nat
  | .ofNat k => (n * Nat.pow b k, d)
  | .negSucc k => (n, d * Nat.pow b (k + 1))

/-- The whole number nearest to `n / d`, the even one of two. -/
def roundEven (n d : Nat) : Nat :=
  let low := n / d
  let twice := 2 * (n % d)
  if twice < d then low
  else if d < twice then low + 1
  else low + low % 2

/-- The exponent of the unit in which the double nearest to `n / d` is counted: the one in
which it has 53 bits, but no finer than the finest. -/
def unitExponent (n d : Nat) : Int :=
  let guess : Int := (n.log2 : Int) - (d.log2 : Int) - 52
  let (num, den) := scale 2 n d (-guess)
  max (if num / den < hiddenBit then guess - 1 else guess) leastExponent

/-- The bits of the double nearest to `n / d`; too large a number is infinite. -/
def nearestBits (n d : Nat) : Nat :=
  if n = 0 then 0
  else
    let q := unitExponent n d
    let (num, den) := scale 2 n d (-q)
    min ((q - leastExponent).toNat * hiddenBit + roundEven num den) infiniteBits

/-- A number as it is written: a sign, and `digits * 10 ^ exponent`. -/
structure Numeral where
  negative : Bool
  digits : Nat
  exponent : Int
  deriving Repr, BEq, DecidableEq

/-- The number of decimal digits of a number. -/
def digitCount (n : Nat) : Nat := (Nat.toDigits 10 n).length

/-- The bits of the magnitude of a numeral. Far outside the range of doubles only the size of
the numeral is looked at. -/
def Numeral.magnitudeBits (x : Numeral) : Nat :=
  let size := x.exponent + digitCount x.digits
  if x.digits = 0 ∨ size < -400 then 0
  else if 400 < size then infiniteBits
  else
    let (n, d) := scale 10 x.digits 1 x.exponent
    nearestBits n d

/-- The double nearest to a numeral. -/
def Numeral.toFloat (x : Numeral) : Float :=
  Float.ofBits (UInt64.ofNat (x.magnitudeBits + if x.negative then 1 <<< 63 else 0))

end Stencil.Decimal
