import Bytecode.Wire.Reader

/-!
# Constants

A value that a unit carries along: a string, the keys of a property map, or a typed array. Every
constant has one encoding, and two constants are the same exactly when their encodings are.
Object arrays nest. Counts are checked before anything is written; lengths of texts are not.

## Main definitions

* `Constant`: the values
* `Constant.encode`, `Read.constant`: the bytes of a constant and back
* `Constant.encoded`: the bytes of a constant whose counts can be written
* `Constant.toText`: the text of a constant in listings
-/

namespace Bytecode

/-- A value carried by a unit. -/
inductive Constant
  | string (value : Text)
  | map (keys : List Text)
  | ints (values : List Int32)
  | longs (values : List Int64)
  | numbers (values : List Number)
  | objects (elements : List Constant)
  deriving Repr, Inhabited

namespace Constant

/-- The type of a constant. -/
def type : Constant → ValueType
  | string _ => .string
  | map _ => .map
  | ints _ => .intArray
  | longs _ => .longArray
  | numbers _ => .numberArray
  | objects _ => .objectArray

/-- A count in four bytes, the low ones. -/
def encodeCount (n : Nat) : Bytes := Wire.u32 n.toUInt32

/-- A text with its length in four bytes, the low ones. -/
def encodeText (t : Text) : Bytes := encodeCount t.length ++ t

mutual

/-- The type byte, then the length or count, then the contents. -/
def encode : Constant → Bytes
  | string value => Wire.type .string ++ encodeText value
  | map keys => Wire.type .map ++ encodeCount keys.length ++ keys.flatMap encodeText
  | ints values => Wire.type .intArray ++ encodeCount values.length ++ values.flatMap Wire.i32
  | longs values => Wire.type .longArray ++ encodeCount values.length ++ values.flatMap Wire.i64
  | numbers values =>
    Wire.type .numberArray ++ encodeCount values.length ++ values.flatMap Wire.number
  | objects elements => Wire.type .objectArray ++ encodeCount elements.length ++ encodeAll elements

/-- The encodings of constants, one after the other. -/
def encodeAll : List Constant → Bytes
  | [] => []
  | c :: rest => encode c ++ encodeAll rest

end

/-- Constants are compared by their encodings. -/
instance : BEq Constant := ⟨fun a b => a.encode == b.encode⟩

/-- Refuses a count that does not fit in four bytes. -/
def requireCount (n : Nat) : Except Error Unit :=
  if 4294967295 < n then .error (.inconsistent .constantSize) else .ok ()

mutual

/-- Refuses counts that do not fit in four bytes, at any depth. -/
def requireCounts : Constant → Except Error Unit
  | string _ => .ok ()
  | map keys => requireCount keys.length
  | ints values => requireCount values.length
  | longs values => requireCount values.length
  | numbers values => requireCount values.length
  | objects elements => do
    requireCount elements.length
    requireAllCounts elements

/-- Refuses the first constant with a count that does not fit. -/
def requireAllCounts : List Constant → Except Error Unit
  | [] => .ok ()
  | c :: rest => do
    requireCounts c
    requireAllCounts rest

end

/-- The encoding of a constant whose counts fit. Lengths of texts are not looked at. -/
def encoded (c : Constant) : Except Error Bytes := do
  c.requireCounts
  return c.encode

/-- A byte of a quoted text: quotes and backslashes take a backslash, a line feed is spelled. -/
def quoteByte (b : UInt8) : Text :=
  if b == 34 || b == 92 then [92, b] else if b == 10 then "\\n" else [b]

/-- A text in quotes. -/
def quote (t : Text) : Text := "\"" ++ t.flatMap quoteByte ++ "\""

/-- Items in brackets after the name of their kind. -/
def listText (kind : Text) (items : List Text) : Text :=
  kind ++ "[" ++ Text.joined ", " items ++ "]"

mutual

/-- The text of a constant. -/
def toText : Constant → Text
  | string value => quote value
  | map keys => listText "map" (keys.map quote)
  | ints values => listText "int" (values.map fun n => Text.ofInt n.toInt)
  | longs values => listText "long" (values.map fun n => Text.ofInt n.toInt)
  | numbers values => listText "number" (values.map Number.toText)
  | objects elements => listText "object" (textAll elements)

/-- The texts of constants. -/
def textAll : List Constant → List Text
  | [] => []
  | c :: rest => toText c :: textAll rest

end

end Constant

namespace Read

/-- A text with its length in four bytes. -/
def longText : Read Text := do
  let length ← u32
  take length.toNat

/-- A count of elements that take at least `least` bytes each; more than the input can hold are
refused before any is read. -/
def count (least : Nat) : Read Nat := do
  let n ← u32
  if (← get).remaining / least < n.toNat then throw (.format .elementCount)
  return n.toNat

/-- A constant that nests at most `fuel` deep. Each level takes a byte, so the length of the input
is fuel enough. -/
def constantWithin : (fuel : Nat) → Read Constant
  | 0 => do throw (.format (.truncated (← get).pos))
  | fuel + 1 => do
    let raw ← u8
    match ValueType.ofByte? raw with
    | none => throw (.format (.constantType raw))
    | some .string => return .string (← longText)
    | some .map => return .map (← collect (← count 4) longText)
    | some .intArray => return .ints (← collect (← count 4) i32)
    | some .longArray => return .longs (← collect (← count 8) i64)
    | some .numberArray => return .numbers (← collect (← count 8) number)
    | some .objectArray => return .objects (← collect (← count 1) (constantWithin fuel))
    | some type => throw (.format (.notPoolable type))

/-- The next constant. -/
def constant : Read Constant := do constantWithin (← get).remaining

end Read

end Bytecode
