import Decompiler.Decimal.Binary

/-!
# Decimal text of numbers

`shortest` finds the decimal with the fewest digits that reads back as a given binary number, and
`SignedBinary.text` writes it positionally.  `roundHalfEven` and `fixed` write a fraction with a
fixed number of decimal places.
-/

namespace Decompiler.Decimal

/-- The decimal number `coefficient / 10 ^ places`. -/
structure Numeral where
  coefficient : Nat
  places : Nat
deriving DecidableEq, Repr

/-- The digits of `n`, filled with zeros on the left up to `width` of them. -/
def paddedDigits (width n : Nat) : List Char :=
  let digits := Nat.toDigits 10 n
  List.replicate (width - digits.length) '0' ++ digits

namespace Numeral

/-- The fraction digits without the zeros at their end. -/
def fractionDigits (d : Numeral) : List Char :=
  if d.places = 0 then []
  else
    (paddedDigits d.places (d.coefficient % Nat.pow 10 d.places)).reverse.dropWhile (· == '0')
      |>.reverse

/-- Positional text: no exponent, and no point where there is no fraction. -/
def text (d : Numeral) : String :=
  let whole := Nat.toDigits 10 (d.coefficient / Nat.pow 10 d.places)
  match d.fractionDigits with
  | [] => String.ofList whole
  | fraction => String.ofList (whole ++ '.' :: fraction)

/-- Text with all of the decimal places, zeros at the end included. -/
def fixedText (d : Numeral) : String :=
  let whole := Nat.toDigits 10 (d.coefficient / Nat.pow 10 d.places)
  if d.places = 0 then String.ofList whole
  else String.ofList (whole ++ '.' :: paddedDigits d.places (d.coefficient % Nat.pow 10 d.places))

end Numeral

/-! ### The shortest decimal that reads back

All ends of the interval of reals that round to a binary number are multiples of a quarter of its
last bit, hence decimals with a common number of places.  On that scale everything is a natural
number. -/

/-- The interval of reals that read back as one number, on a common decimal scale. -/
structure ReadingInterval where
  low : Nat
  value : Nat
  high : Nat
  closed : Bool
  places : Nat

/-- The interval around `x`.  Its ends belong to it when the significand is even, because a half is
read to the even neighbour. -/
def BinaryFormat.interval (f : BinaryFormat) (x : SignedBinary) : ReadingInterval :=
  let places := (2 - x.exponent).toNat
  let quarter := Nat.pow 2 (x.exponent - 2 + places).toNat * Nat.pow 5 places
  { low := (4 * x.significand - if f.denserBelow x then 1 else 2) * quarter
    value := 4 * x.significand * quarter
    high := (4 * x.significand + 2) * quarter
    closed := x.significand % 2 == 0
    places }

/-- Whether a decimal on the interval's scale reads back as its number. -/
def ReadingInterval.contains (i : ReadingInterval) (n : Nat) : Bool :=
  if i.closed then i.low ≤ n && n ≤ i.high else i.low < n && n < i.high

/-- The multiple of `grid` that reads back and is nearest to the value, the upper one of two that
are equally near. -/
def ReadingInterval.onGrid? (i : ReadingInterval) (grid : Nat) : Option Nat :=
  let below := i.value / grid * grid
  let above := below + grid
  if i.contains below then
    if i.contains above && above - i.value ≤ i.value - below then some above else some below
  else if i.contains above then some above
  else none

/-- The decimal with the fewest significant digits that reads back as `x`, and the nearest of those.
-/
def BinaryFormat.shortest (f : BinaryFormat) (x : SignedBinary) : Numeral :=
  let i := f.interval x
  let length := (Nat.toDigits 10 i.value).length
  let found := (List.range length).findSome? fun kept => i.onGrid? (Nat.pow 10 (length - 1 - kept))
  ⟨found.getD i.value, i.places⟩

/-- Text of a bit pattern: the shortest digits that read back, written positionally. -/
def BinaryFormat.text (f : BinaryFormat) (bits : Nat) : String :=
  match f.value bits with
  | .nan => "NaN"
  | .infinite negative => if negative then "-inf" else "inf"
  | .finite x =>
    let digits := if x.significand = 0 then "0" else (f.shortest x).text
    if x.negative then "-" ++ digits else digits

/-! ### Fixed decimal places -/

/-- The integer nearest to `numerator / denominator`, a half going to the even one. -/
def roundHalfEven (numerator denominator : Nat) : Nat :=
  let quotient := numerator / denominator
  let twice := 2 * (numerator % denominator)
  if denominator < twice ∨ (twice = denominator ∧ quotient % 2 = 1) then quotient + 1 else quotient

/-- The fraction `numerator / denominator` with `places` decimal places. -/
def fixed (places numerator denominator : Nat) : String :=
  (Numeral.mk (roundHalfEven (numerator * Nat.pow 10 places) denominator) places).fixedText

/-- The quotient `numerator / denominator` of positive numbers, rounded to the significand width of
a format, a half going to the even neighbour.  The result is again a fraction. -/
def nearestRatio (f : BinaryFormat) (numerator denominator : Nat) : Nat × Nat :=
  let width := f.fractionBits + 1
  let shift := denominator.log2 + width + 1 - numerator.log2
  let scaled := numerator * Nat.pow 2 shift
  let drop := (scaled / denominator).log2 + 1 - width
  (roundHalfEven scaled (denominator * Nat.pow 2 drop) * Nat.pow 2 drop, Nat.pow 2 shift)

end Decompiler.Decimal
