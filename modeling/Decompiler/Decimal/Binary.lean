/-!
# Binary floating-point numbers

A floating constant is kept as its bit pattern, so that the payload of a NaN and the sign of a zero
survive.  `BinaryFormat.value` reads such a pattern as an exact number: `significand · 2 ^ exponent`
with a sign, or one of the two infinities, or no number at all.  Everything the library asks of a
floating constant (its order, its integral value, its decimal text) is computed from that exact
number in natural-number arithmetic.
-/

namespace Decompiler.Decimal

/-- The layout of a binary interchange format: the widths of its fraction and exponent fields. -/
structure BinaryFormat where
  fractionBits : Nat
  exponentBits : Nat

/-- The 64-bit format. -/
def binary64 : BinaryFormat := ⟨52, 11⟩

/-- The 32-bit format. -/
def binary32 : BinaryFormat := ⟨23, 8⟩

/-- The exact number `± significand · 2 ^ exponent`.  The sign is kept apart, so that there are two
zeros. -/
structure SignedBinary where
  negative : Bool
  significand : Nat
  exponent : Int
deriving DecidableEq, Repr

/-- What a bit pattern stands for. -/
inductive BinaryValue where
  | nan
  | infinite (negative : Bool)
  | finite (number : SignedBinary)
deriving DecidableEq, Repr

namespace BinaryFormat

/-- The exponent of the least significant bit of the smallest numbers of the format. -/
def minExponent (f : BinaryFormat) : Int :=
  2 - Int.pow 2 (f.exponentBits - 1) - f.fractionBits

/-- The number a bit pattern stands for.  A zero exponent field means a number without the leading
bit; an exponent field of ones means an infinity or no number. -/
def value (f : BinaryFormat) (bits : Nat) : BinaryValue :=
  let negative := bits / Nat.pow 2 (f.fractionBits + f.exponentBits) % 2 == 1
  let exponent := bits / Nat.pow 2 f.fractionBits % Nat.pow 2 f.exponentBits
  let fraction := bits % Nat.pow 2 f.fractionBits
  if exponent = Nat.pow 2 f.exponentBits - 1 then
    if fraction = 0 then .infinite negative else .nan
  else if exponent = 0 then
    .finite ⟨negative, fraction, f.minExponent⟩
  else
    .finite ⟨negative, fraction + Nat.pow 2 f.fractionBits, f.minExponent + (exponent - 1 : Nat)⟩

/-- Whether the numbers just below are twice as dense as those just above: this holds of the powers
of two, the smallest one apart. -/
def denserBelow (f : BinaryFormat) (x : SignedBinary) : Bool :=
  x.significand == Nat.pow 2 f.fractionBits && f.minExponent < x.exponent

end BinaryFormat

namespace SignedBinary

/-- The size of the number as a fraction `numerator / 2 ^ k`. -/
def fractionParts (x : SignedBinary) : Nat × Nat :=
  (x.significand * Nat.pow 2 x.exponent.toNat, (-x.exponent).toNat)

/-- Whether the number has no fractional part. -/
def isIntegral (x : SignedBinary) : Bool :=
  x.fractionParts.1 % Nat.pow 2 x.fractionParts.2 == 0

/-- The number without its fractional part. -/
def truncate (x : SignedBinary) : Int :=
  let size : Nat := x.fractionParts.1 / Nat.pow 2 x.fractionParts.2
  if x.negative then -size else size

/-- The significand with its sign. -/
def signedSignificand (x : SignedBinary) : Int :=
  if x.negative then -x.significand else x.significand

/-- Exact order of two numbers; the two zeros are equal. -/
def compare (x y : SignedBinary) : Ordering :=
  let low := min x.exponent y.exponent
  Ord.compare (x.signedSignificand * Int.pow 2 (x.exponent - low).toNat)
    (y.signedSignificand * Int.pow 2 (y.exponent - low).toNat)

end SignedBinary

namespace BinaryValue

/-- Order of two values, where there is one: the infinities lie at the ends and a pattern that is no
number is ordered with nothing. -/
def compare? : BinaryValue → BinaryValue → Option Ordering
  | .nan, _ => none
  | _, .nan => none
  | .infinite a, .infinite b => some (if a = b then .eq else if a then .lt else .gt)
  | .infinite a, .finite _ => some (if a then .lt else .gt)
  | .finite _, .infinite b => some (if b then .gt else .lt)
  | .finite x, .finite y => some (x.compare y)

end BinaryValue

/-- Rounds a natural number to `width` significant bits, a half going to the even neighbour. -/
def roundToBits (width n : Nat) : Nat :=
  let drop := n.log2 + 1 - width
  let unit := Nat.pow 2 drop
  let quotient := n / unit
  let twice := 2 * (n % unit)
  if unit < twice ∨ (twice = unit ∧ quotient % 2 = 1) then (quotient + 1) * unit
  else quotient * unit

/-- The 64-bit number nearest to an integer of at most 64 bits. -/
def nearestBinary64 (n : Int) : SignedBinary :=
  ⟨n < 0, roundToBits (binary64.fractionBits + 1) n.natAbs, 0⟩

end Decompiler.Decimal
