import Std.Data.HashSet

/-!
# Byte text

Names, messages and listings are byte strings: they may hold a NUL byte and need not be valid
UTF-8. A text is a list of bytes, compared and ordered bytewise.

## Main definitions

* `Text`, `Bytes`: lists of bytes
* `Text.ofNat`, `Text.ofInt`: decimal numerals
* `Text.padded`: a numeral filled up with zeros on the left
* `Text.joined`: texts with a separator between them
* `Text.distinct`: the first occurrences in a list of texts
-/

namespace Bytecode

/-- A sequence of bytes. -/
abbrev Bytes := List UInt8

/-- A byte string; nothing is assumed about its encoding. -/
abbrev Text := List UInt8

namespace Text

/-- The UTF-8 bytes of a string. -/
def ofString (s : String) : Text := s.toByteArray.data.toList

instance : Coe String Text := ⟨ofString⟩

/-- The decimal numeral of `n`. -/
def ofNat (n : Nat) : Text := (Nat.toDigits 10 n).map fun c => c.toNat.toUInt8

/-- The decimal numeral of `n`, with a minus sign when it is negative. -/
def ofInt (n : Int) : Text :=
  if n < 0 then "-" ++ ofNat n.natAbs else ofNat n.natAbs

/-- The decimal numeral of `n`, filled up with zeros to at least `width` digits. -/
def padded (width n : Nat) : Text :=
  List.replicate (width - (ofNat n).length) 48 ++ ofNat n

/-- The texts in order, with `separator` between neighbours. -/
def joined (separator : Text) (texts : List Text) : Text :=
  (texts.intersperse separator).flatten

/-- Collects the texts not yet in `seen`, newest first. -/
def distinctFrom (seen : Std.HashSet Text) (kept : List Text) : List Text → List Text
  | [] => kept
  | t :: rest =>
    if seen.contains t then distinctFrom seen kept rest
    else distinctFrom (seen.insert t) (t :: kept) rest

/-- The first occurrence of each text, in order. -/
def distinct (texts : List Text) : List Text := (distinctFrom ∅ [] texts).reverse

/-- The lower-case form of an ASCII letter; other bytes are kept. -/
def lowerByte (b : UInt8) : UInt8 := if 65 ≤ b && b ≤ 90 then b + 32 else b

/-- ASCII letters in lower case, all else kept. -/
def lower (t : Text) : Text := t.map lowerByte

end Text

end Bytecode
