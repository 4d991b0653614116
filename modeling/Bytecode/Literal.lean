import Bytecode.Text

/-!
# Literals in settings

Strict reading of integers and switches. An integer is optional leading whitespace, an optional
sign, at least one digit, and optional trailing whitespace; nothing is skipped, and a value above
`maxValue` is refused rather than wrapped.

## Main definitions

* `Literal.digits`: the value of a digit run
* `Literal.integer`: the value of a signed literal
* `Literal.switch`: whether a setting turns something on
-/

namespace Bytecode

/-- Why a text is not an integer literal. -/
inductive LiteralError
  | noDigits
  | trailingCharacters
  | badCharacter
  | overflow
  deriving DecidableEq, Repr

namespace LiteralError

/-- The wording of each cause. -/
def message : LiteralError → Text
  | noDigits => "invalid integer literal"
  | trailingCharacters => "unexpected trailing characters"
  | badCharacter => "invalid character in integer literal"
  | overflow => "integer overflow"

end LiteralError

namespace Literal

/-- Space, tab, line feed, vertical tab, form feed and carriage return. -/
def isSpace (b : UInt8) : Bool := b == 32 || (9 ≤ b && b ≤ 13)

/-- The ASCII digits. -/
def isDigit (b : UInt8) : Bool := 48 ≤ b && b ≤ 57

/-- The value of an ASCII digit. -/
def digitValue (b : UInt8) : Nat := b.toNat - 48

/-- The largest value a literal may have. -/
def maxValue : Nat := 0x7FFFFFFFFFFFFFFF

/-- The text after its leading whitespace. -/
def trimStart (t : Text) : Text := t.dropWhile isSpace

/-- Takes off one leading sign, and tells whether it was a minus. -/
def splitSign : Text → Bool × Text
  | [] => (false, [])
  | b :: rest =>
    if b == 43 then (false, rest) else if b == 45 then (true, rest) else (false, b :: rest)

/-- Reads on in a digit run whose value so far is `value`. -/
def digitsFrom (value : Nat) : Text → Except LiteralError Nat
  | [] => .ok value
  | b :: rest =>
    if isSpace b then
      if rest.all isSpace then .ok value else .error .trailingCharacters
    else if !isDigit b then .error .badCharacter
    else if (maxValue - digitValue b) / 10 < value then .error .overflow
    else digitsFrom (value * 10 + digitValue b) rest

/-- The value of a digit run that only whitespace may follow. -/
def digits (t : Text) : Except LiteralError Nat :=
  match t with
  | [] => .error .noDigits
  | b :: _ => if isDigit b then digitsFrom 0 t else .error .noDigits

/-- The value of an integer literal. -/
def integer (t : Text) : Except LiteralError Int := do
  let (negative, rest) := splitSign (trimStart t)
  let value ← digits rest
  return if negative then -(value : Int) else value

/-- Equality up to the case of ASCII letters. -/
def sameLetters (a b : Text) : Bool := a.lower == b.lower

/-- A setting is on when it reads `1`, `true` or `yes`, in any case. -/
def switch (t : Text) : Bool :=
  t == Text.ofString "1" || sameLetters t "true" || sameLetters t "yes"

end Literal

end Bytecode
