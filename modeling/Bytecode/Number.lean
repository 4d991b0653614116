import Bytecode.Decimal

/-!
# Numbers

A number is a double-precision value kept as its bit pattern. Two numbers are the same when their
patterns are, so the two zeros differ, and so do NaNs with different payloads.

## Main definitions

* `Number`: a bit pattern
* `Number.ratio`: the magnitude of a finite number as an exact ratio
* `Number.toText`: the text of a number, with at most six significant digits
-/

namespace Bytecode

/-- A double-precision number, as its bit pattern. -/
structure Number where
  bits : UInt64
  deriving DecidableEq, Repr, Inhabited

namespace Number

/-- The bit above the fifty-two fraction bits, which a normal number has without writing it. -/
def hiddenBit : Nat := 0x10000000000000

/-- Whether the sign bit is set. -/
def negative (x : Number) : Bool := x.bits >>> 63 == 1

/-- The eleven exponent bits. -/
def exponentBits (x : Number) : Nat := x.bits.toNat / hiddenBit % 0x800

/-- The fraction bits. -/
def fractionBits (x : Number) : Nat := x.bits.toNat % hiddenBit

/-- The magnitude of a finite number as an exact ratio. -/
def ratio (x : Number) : Nat × Nat :=
  if x.exponentBits = 0 then (x.fractionBits, 1 <<< 1074)
  else
    let mantissa := hiddenBit + x.fractionBits
    if 1075 ≤ x.exponentBits then (mantissa <<< (x.exponentBits - 1075), 1)
    else (mantissa, 1 <<< (1075 - x.exponentBits))

/-- The text of the magnitude. -/
def magnitudeText (x : Number) : Text :=
  if x.exponentBits = 2047 then
    if x.fractionBits = 0 then "inf" else "nan"
  else
    let (num, den) := x.ratio
    if num = 0 then "0" else Decimal.general num den

/-- The text of a number; the sign is written also for zero and NaN. -/
def toText (x : Number) : Text :=
  if x.negative then "-" ++ x.magnitudeText else x.magnitudeText

end Number

end Bytecode
