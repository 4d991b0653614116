import Bytecode.Wire.Reader

/-!
# Instructions

An instruction is an operation with operands of the kind that the operation asks for. Jump targets
are a parameter: labels while code is under assembly, offsets once it is encoded. Code is the
concatenation of its encoded instructions, and reading code gives back the instructions with the
offsets at which they stand.

## Main definitions

* `Operand`: operands by kind
* `Instruction`: an operation with its operands
* `Instruction.target?`: where an instruction may jump to
* `Instruction.encode`, `Read.instruction`: the bytes of an instruction and back
* `Placed`: an instruction with its offset
* `Code.decode`: the instructions of a byte sequence
* `Placed.toText`: a line of a listing
-/

namespace Bytecode

/-- The operands of each kind, with jump targets in `Target`. -/
def Operand (Target : Type) : OperandKind → Type
  | .none => Unit
  | .type => ValueType
  | .types => ValueType × ValueType
  | .slot => ValueType × UInt16
  | .int32 => Int32
  | .int64 => Int64
  | .number => Number
  | .symbol => UInt16
  | .size => UInt16
  | .target => Target

namespace Operand

/-- Replaces a jump target. -/
def map {α β : Type} (f : α → β) : (kind : OperandKind) → Operand α kind → Operand β kind
  | .none, x => x
  | .type, x => x
  | .types, x => x
  | .slot, x => x
  | .int32, x => x
  | .int64, x => x
  | .number, x => x
  | .symbol, x => x
  | .size, x => x
  | .target, x => f x

/-- The bytes of operands. -/
def encode : (kind : OperandKind) → Operand UInt32 kind → Bytes
  | .none, _ => []
  | .type, t => Wire.type t
  | .types, (a, b) => Wire.type a ++ Wire.type b
  | .slot, (t, slot) => Wire.type t ++ Wire.u16 slot
  | .int32, n => Wire.i32 n
  | .int64, n => Wire.i64 n
  | .number, x => Wire.number x
  | .symbol, i => Wire.u16 i
  | .size, n => Wire.u16 n
  | .target, offset => Wire.u32 offset

@[simp]
theorem length_encode (kind : OperandKind) (x : Operand UInt32 kind) :
    (encode kind x).length = kind.width := by
  unfold encode
  split <;> simp [OperandKind.width, Wire.type, Wire.u8, Wire.u16, Wire.u32, Wire.u64, Wire.i32,
    Wire.i64, Wire.number]

end Operand

/-- An operation with its operands. -/
structure Instruction (Target : Type) where
  op : Opcode
  operand : Operand Target op.operands

namespace Instruction

variable {α β : Type}

/-- The number of bytes an instruction takes. -/
def size (i : Instruction α) : Nat := 1 + i.op.operands.width

/-- Replaces a jump target. -/
def map (f : α → β) (i : Instruction α) : Instruction β := ⟨i.op, i.operand.map f⟩

/-- Where an instruction may jump to. -/
def target? : Instruction α → Option α
  | ⟨.jump, target⟩ => some target
  | ⟨.ifTrue, target⟩ => some target
  | ⟨.ifFalse, target⟩ => some target
  | _ => none

/-- The operation byte, then the operands. -/
def encode (i : Instruction UInt32) : Bytes := Wire.u8 i.op.toByte ++ i.operand.encode

@[simp] theorem op_map (f : α → β) (i : Instruction α) : (i.map f).op = i.op := rfl

@[simp] theorem size_map (f : α → β) (i : Instruction α) : (i.map f).size = i.size := rfl

@[simp]
theorem length_encode (i : Instruction UInt32) : i.encode.length = i.size := by
  simp [encode, size, Wire.u8]

theorem size_pos (i : Instruction α) : 0 < i.size := by
  simp only [size]
  omega

end Instruction

/-- An instruction with the offset at which it stands and the number of bytes that it takes there,
both in four bytes. -/
structure Placed where
  offset : UInt32
  size : UInt32
  instruction : Instruction UInt32

namespace Read

/-- A type operand of the instruction at `offset`. -/
def type (offset : UInt32) : Read ValueType := do
  let raw ← u8
  match ValueType.ofByte? raw with
  | some t => return t
  | none => throw (.format (.typeOperand raw offset))

/-- The operands of the instruction at `offset`. -/
def operand (offset : UInt32) : (kind : OperandKind) → Read (Operand UInt32 kind)
  | .none => pure ()
  | .type => type offset
  | .types => do
    let a ← type offset
    let b ← type offset
    return (a, b)
  | .slot => do
    let t ← type offset
    let slot ← u16
    return (t, slot)
  | .int32 => i32
  | .int64 => i64
  | .number => number
  | .symbol => u16
  | .size => u16
  | .target => u32

/-- The next instruction. -/
def instruction : Read Placed := do
  let offset := (← get).pos.toUInt32
  let raw ← u8
  match Opcode.ofByte? raw with
  | none => throw (.format (.opcode raw offset))
  | some op =>
    let operand ← operand offset op.operands
    let size := (← get).pos.toUInt32 - offset
    return ⟨offset, size, op, operand⟩

/-- At most `fuel` instructions up to the end of the input, after those in `code`, which are kept
last first. Every instruction takes a byte, so the length of the input is fuel enough. -/
def instructionsFrom : (fuel : Nat) → (code : List Placed) → Read (List Placed)
  | 0, code => return code.reverse
  | fuel + 1, code => do
    if (← get).atEnd then return code.reverse
    let next ← instruction
    instructionsFrom fuel (next :: code)

/-- The value that a read finds at the start of `bytes`. -/
def run {α : Type} (read : Read α) (bytes : Bytes) : Except Error α :=
  match read (Reader.ofBytes bytes) with
  | .ok x _ => .ok x
  | .error e _ => .error e

end Read

namespace Code

/-- The instructions of a byte sequence, with their offsets. -/
def decode (code : Bytes) : Except Error (List Placed) :=
  (Read.instructionsFrom code.length []).run code

/-- Bytes taken by instructions. -/
def size {α : Type} (code : List (Instruction α)) : Nat :=
  code.foldr (fun i bytes => i.size + bytes) 0

/-- The bytes of a list of instructions. -/
def encode (code : List (Instruction UInt32)) : Bytes := code.flatMap Instruction.encode

theorem encode_concat (code : List (Instruction UInt32)) (i : Instruction UInt32) :
    encode (code ++ [i]) = encode code ++ i.encode := by
  simp [encode]

end Code

namespace Operand

/-- The text of operands; symbols are written with their names. -/
def toText (symbols : Array Text) : (kind : OperandKind) → Operand UInt32 kind → Text
  | .none, _ => []
  | .type, t => " " ++ ValueType.name t
  | .types, (a, b) => " " ++ ValueType.name a ++ " -> " ++ ValueType.name b
  | .slot, (t, slot) => " " ++ ValueType.name t ++ " #" ++ Text.ofNat slot.toNat
  | .int32, n => " " ++ Text.ofInt (Int32.toInt n)
  | .int64, n => " " ++ Text.ofInt (Int64.toInt n)
  | .number, x => " " ++ Number.toText x
  | .symbol, i =>
    " #" ++ Text.ofNat (UInt16.toNat i) ++ " " ++ symbols.getD (UInt16.toNat i) "<bad symbol>"
  | .size, n => " " ++ Text.ofNat (UInt16.toNat n)
  | .target, offset => " " ++ Text.padded 4 (UInt32.toNat offset)

end Operand

/-- A line of a listing: the offset, the mnemonic and the operands. -/
def Placed.toText (symbols : Array Text) (p : Placed) : Text :=
  "    " ++ Text.padded 4 p.offset.toNat ++ ": " ++ p.instruction.op.mnemonic ++
    p.instruction.operand.toText symbols

namespace Code

/-- A line for each instruction of a byte sequence. -/
def listing (symbols : Array Text) (code : Bytes) : Except Error Text := do
  return (← decode code).flatMap fun p => p.toText symbols ++ "\n"

end Code

end Bytecode
