import Bytecode.Text

/-!
# Decimal text of exact ratios

Numerals are computed from a ratio of natural numbers, so no rounding happens before the last
digit. A tie goes to the even neighbour.

## Main definitions

* `Decimal.roundDiv`: the nearest integer to a ratio
* `Decimal.fixed`: a numeral with a given number of places
* `Decimal.general`: at most six significant digits, in positional or exponent form
* `Decimal.nearestBinary`: the nearest ratio with 53 significant bits
-/

namespace Bytecode.Decimal

/-- The integer nearest to `num / den`; a tie goes to the even one. -/
def roundDiv (num den : Nat) : Nat :=
  let quotient := num / den
  let twice := 2 * (num % den)
  if den < twice || (twice == den && quotient % 2 == 1) then quotient + 1 else quotient

/-- The number of decimal digits of `n`. -/
def digitCount (n : Nat) : Nat := (Nat.toDigits 10 n).length

/-- One with `n` zeros. -/
def tens (n : Nat) : Nat := Nat.pow 10 n

/-- The numeral of `n / tens places`. -/
def fixed (places n : Nat) : Text :=
  if places = 0 then Text.ofNat n
  else Text.ofNat (n / tens places) ++ "." ++ Text.padded places (n % tens places)

/-- The largest `x` with `10 ^ x ≤ num / den`, for a positive ratio. -/
def decade (num den : Nat) : Int :=
  if den ≤ num then (digitCount (num / den) : Int) - 1
  else -(digitCount ((den + num - 1) / num - 1) : Int)

/-- Significant digits kept by `general`. -/
def significant : Nat := 6

/-- The ratio `num / den` times `10 ^ x`, rounded. -/
def scaled (num den : Nat) (x : Int) : Nat :=
  if 0 ≤ x then roundDiv (num * tens x.toNat) den else roundDiv num (den * tens (-x).toNat)

/-- Drops zeros at the end of a numeral that has a point, and then a point left at the end. -/
def trimZeros (t : Text) : Text :=
  match t.reverse.dropWhile (· == 48) with
  | 46 :: rest => rest.reverse
  | rest => rest.reverse

/-- The exponent part of a numeral: a sign and at least two digits. -/
def exponentPart (x : Int) : Text :=
  "e" ++ (if x < 0 then Text.ofString "-" else Text.ofString "+") ++ Text.padded 2 x.natAbs

/-- The positive ratio `num / den` with at most six significant digits: positional when its first
digit stands between the fourth place and the hundred thousands, in exponent form otherwise. -/
def general (num den : Nat) : Text :=
  let estimate := decade num den
  let rounded := scaled num den ((significant : Int) - 1 - estimate)
  let (digits, x) :=
    if rounded = tens significant then (tens (significant - 1), estimate + 1)
    else (rounded, estimate)
  if x < -4 || (significant : Int) ≤ x then
    trimZeros (fixed (significant - 1) digits) ++ exponentPart x
  else if x = (significant : Int) - 1 then Text.ofNat digits
  else trimZeros (fixed ((significant : Int) - 1 - x).toNat digits)

/-- The ratio nearest to `num / den` that has 53 significant bits. -/
def nearestBinary (num den : Nat) : Nat × Nat :=
  let unit := ((num <<< 64 / den).log2 : Int) - 116
  if num = 0 then (0, 1)
  else if 0 ≤ unit then (roundDiv num (den <<< unit.toNat) <<< unit.toNat, 1)
  else (roundDiv (num <<< (-unit).toNat) den, 1 <<< (-unit).toNat)

end Bytecode.Decimal
