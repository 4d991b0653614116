import Bytecode.Text

/-!
# Value types

The types of the stack machine: primitives, references and typed arrays. Wide values take two
slots of the stack and of the locals, `void` none, all others one. A reference may stand where an
object is expected; otherwise a value is used only at its own type.

## Main definitions

* `ValueType`: the types, in the order of their byte codes
* `ValueType.width`: slots taken by a value
* `ValueType.isAssignable`: which values may stand where a type is expected
* `ValueType.toByte`, `ValueType.ofByte?`: the byte code of a type
* `ValueType.descriptor`: the code of a type in a descriptor

## Main results

* `ValueType.ofByte?_toByte`, `ValueType.toByte_of_ofByte?`: byte codes and types correspond
-/

namespace Bytecode

/-- A type of the stack machine. -/
inductive ValueType
  | void
  | boolean
  | int
  | long
  | number
  | object
  | string
  | scope
  | callee
  | map
  | intArray
  | longArray
  | numberArray
  | objectArray
  deriving DecidableEq, Repr, Inhabited

namespace ValueType

/-- All types, in the order of their byte codes. -/
def all : List ValueType :=
  [void, boolean, int, long, number, object, string, scope, callee, map,
    intArray, longArray, numberArray, objectArray]

/-- Slots taken by a value. -/
def width : ValueType → Nat
  | void => 0
  | long | number => 2
  | _ => 1

/-- The arrays. -/
def isArray : ValueType → Bool
  | intArray | longArray | numberArray | objectArray => true
  | _ => false

/-- The types whose values are references. -/
def isReference : ValueType → Bool
  | object | string | scope | callee | map => true
  | t => t.isArray

/-- The types with arithmetic. -/
def isNumeric : ValueType → Bool
  | int | long | number => true
  | _ => false

/-- A value of type `source` may be used where `target` is expected. -/
def isAssignable (source target : ValueType) : Bool :=
  source == target || (target == object && source.isReference)

/-- The element type of an array. -/
def component? : ValueType → Option ValueType
  | intArray => some int
  | longArray => some long
  | numberArray => some number
  | objectArray => some object
  | _ => none

/-- The array type with a given element type. -/
def arrayOf? : ValueType → Option ValueType
  | int => some intArray
  | long => some longArray
  | number => some numberArray
  | object => some objectArray
  | _ => none

/-- The types a pooled constant may have. -/
def isPoolable : ValueType → Bool
  | string | map => true
  | t => t.isArray

/-- The name of a type in messages and listings. -/
def name : ValueType → Text
  | void => "void"
  | boolean => "boolean"
  | int => "int"
  | long => "long"
  | number => "number"
  | object => "object"
  | string => "string"
  | scope => "scope"
  | callee => "callee"
  | map => "map"
  | intArray => "int[]"
  | longArray => "long[]"
  | numberArray => "number[]"
  | objectArray => "object[]"

/-- The code of a type in a descriptor. -/
def descriptor : ValueType → Text
  | void => "V"
  | boolean => "Z"
  | int => "I"
  | long => "J"
  | number => "D"
  | object => "O"
  | string => "T"
  | scope => "E"
  | callee => "F"
  | map => "M"
  | intArray => "[I"
  | longArray => "[J"
  | numberArray => "[D"
  | objectArray => "[O"

/-- The byte code of a type. -/
def toByte : ValueType → UInt8
  | void => 0
  | boolean => 1
  | int => 2
  | long => 3
  | number => 4
  | object => 5
  | string => 6
  | scope => 7
  | callee => 8
  | map => 9
  | intArray => 10
  | longArray => 11
  | numberArray => 12
  | objectArray => 13

/-- The type with a given byte code. -/
def ofByte? (raw : UInt8) : Option ValueType := all.find? fun t => t.toByte == raw

@[simp]
theorem ofByte?_toByte (t : ValueType) : ofByte? t.toByte = some t := by
  cases t <;> rfl

theorem toByte_of_ofByte? {raw : UInt8} {t : ValueType} (h : ofByte? raw = some t) :
    t.toByte = raw := by
  simpa using List.find?_some h

@[simp]
theorem width_pos_iff (t : ValueType) : 0 < t.width ↔ t ≠ void := by
  cases t <;> simp [width]

end ValueType

/-- Slots taken by values of the given types. -/
def slotsOf (types : List ValueType) : Nat := types.foldr (fun t slots => t.width + slots) 0

/-- The text of a stack shape, bottom first. -/
def shapeText (shape : List ValueType) : Text :=
  "[" ++ Text.joined ", " (shape.map ValueType.name) ++ "]"

end Bytecode
