import Bytecode.Constant
import Bytecode.Flags
import Bytecode.Instruction

/-!
# Unit images

The contents of a compiled unit and its byte format: a magic word, the format version, the names
of the unit and its source, whether it is strict, and then symbols, fields, constants and routines,
each with a count in two bytes.

## Main definitions

* `Field`, `RoutineRecord`, `Image`: the contents of a unit
* `Image.encode`: the bytes of an image; names and counts must fit their fields
* `Image.decode`: the image in a byte sequence
-/

namespace Bytecode

/-- A static field. -/
structure Field where
  flags : Flags
  name : Text
  type : ValueType
  initial : Option Int64 := none
  deriving DecidableEq, Repr, Inhabited

/-- A finished routine. -/
structure RoutineRecord where
  flags : Flags
  name : Text
  descriptor : Text
  maxStack : UInt16
  maxLocals : UInt16
  code : Bytes
  deriving DecidableEq, Repr, Inhabited

/-- The name and the descriptor, which together tell a routine apart. -/
def RoutineRecord.identity (r : RoutineRecord) : Text := r.name ++ r.descriptor

/-- The contents of a unit. -/
structure Image where
  version : UInt16 := 1
  name : Text
  source : Text
  strict : Bool := false
  symbols : List Text := []
  fields : List Field := []
  constants : List Constant := []
  routines : List RoutineRecord := []
  deriving Repr, Inhabited

namespace Image

/-- The first four bytes of every unit. -/
def magic : Bytes := [0x44, 0x59, 0x4E, 0x55]

/-- The one version of the format. -/
def currentVersion : UInt16 := 1

/-- A part of a unit: the count of its items, then the items. -/
def encodePart {α : Type} (part : Section) (item : α → Except Error Bytes) (items : List α) :
    Except Error Bytes := do
  if 65535 < items.length then throw (.inconsistent (.tooMany part))
  return Wire.u16 items.length.toUInt16 ++ (← items.mapM item).flatten

/-- The initial value of a field, after a byte that tells whether there is one. -/
def encodeInitial : Option Int64 → Bytes
  | none => Wire.flag false
  | some value => Wire.flag true ++ Wire.i64 value

/-- The bytes of a field. -/
def encodeField (f : Field) : Except Error Bytes := do
  return Wire.u16 f.flags.bits ++ (← Wire.name f.name) ++ Wire.type f.type ++
    encodeInitial f.initial

/-- The bytes of a routine. -/
def encodeRoutine (r : RoutineRecord) : Except Error Bytes := do
  return Wire.u16 r.flags.bits ++ (← Wire.name r.name) ++ (← Wire.name r.descriptor) ++
    Wire.u16 r.maxStack ++ Wire.u16 r.maxLocals ++ Wire.u32 r.code.length.toUInt32 ++ r.code

/-- The bytes of an image. -/
def encode (u : Image) : Except Error Bytes := do
  let name ← Wire.name u.name
  let source ← Wire.name u.source
  let symbols ← encodePart .symbols Wire.name u.symbols
  let fields ← encodePart .fields encodeField u.fields
  let constants ← encodePart .constants Constant.encoded u.constants
  let routines ← encodePart .routines encodeRoutine u.routines
  return magic ++ Wire.u16 u.version ++ name ++ source ++ Wire.flag u.strict ++
    symbols ++ fields ++ constants ++ routines

end Image

namespace Read

/-- The bytes of the magic word, of which the first wrong one is refused. -/
def magic : Bytes → Read Unit
  | [] => return ()
  | expected :: rest => do
    if (← u8) != expected then throw (.format .magic)
    magic rest

/-- A truth value: every byte but zero counts as true. -/
def flag : Read Bool := do return (← u8) != 0

/-- Items after their count. -/
def part {α : Type} (item : Read α) : Read (List α) := do collect (← u16).toNat item

/-- A field; no field is void. -/
def field : Read Field := do
  let flags ← u16
  let name ← name
  let raw ← u8
  match ValueType.ofByte? raw with
  | none | some .void => throw (.format (.fieldType name))
  | some type =>
    let initial ← if ← flag then some <$> i64 else pure none
    return { flags := ⟨flags⟩, name, type, initial }

/-- A routine. -/
def routine : Read RoutineRecord := do
  let flags ← u16
  let name ← name
  let descriptor ← Read.name
  let maxStack ← u16
  let maxLocals ← u16
  let length ← u32
  let code ← take length.toNat
  return { flags := ⟨flags⟩, name, descriptor, maxStack, maxLocals, code }

/-- A whole unit, after which nothing may follow. -/
def image : Read Image := do
  magic Image.magic
  let version ← u16
  if version != Image.currentVersion then throw (.format (.version version))
  let name ← name
  let source ← Read.name
  let strict ← flag
  let symbols ← part Read.name
  let fields ← part field
  let constants ← part constant
  let routines ← part routine
  unless (← get).atEnd do throw (.format .trailingBytes)
  return { version, name, source, strict, symbols, fields, constants, routines }

end Read

/-- The image in a byte sequence. -/
def Image.decode (bytes : Bytes) : Except Error Image := Read.image.run bytes

end Bytecode
