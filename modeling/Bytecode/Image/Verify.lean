import Std.Data.HashSet
import Bytecode.Image

/-!
# Verification of units

A unit is verified without running it. Its fields and routines have distinct names, and in each
routine every instruction refers to locals, symbols, types and jump targets that exist, every
return agrees with the descriptor, and control cannot leave the code at its end.

## Main definitions

* `CodeBounds.check`: what is asked of one instruction
* `Image.verifyRoutine`: what is asked of a routine
* `Image.verify`: decodes a unit and verifies it
-/

namespace Bytecode

/-- What the instructions of a routine may refer to. -/
structure CodeBounds where
  /-- Slots for locals. -/
  maxLocals : Nat
  /-- Symbols of the unit. -/
  symbolCount : Nat
  /-- The type the routine returns. -/
  result : ValueType
  /-- Offsets at which an instruction starts. -/
  boundaries : Std.HashSet UInt32

namespace CodeBounds

/-- Requires a condition. -/
def demand (holds : Bool) (fault : VerifyFault) : Except VerifyFault Unit :=
  if holds then .ok () else .error fault

/-- A local of type `t` must fit below the number of slots. -/
def checkSlot (b : CodeBounds) (t : ValueType) (slot : UInt16) : Except VerifyFault Unit := do
  demand (t != .void) .voidLocal
  demand (slot.toNat + t.width ≤ b.maxLocals) (.slotRange slot)

/-- A symbol must be in the table. -/
def checkSymbol (b : CodeBounds) (symbol : UInt16) : Except VerifyFault Unit :=
  demand (symbol.toNat < b.symbolCount) .symbolRange

/-- A jump must go to the start of an instruction. -/
def checkTarget (b : CodeBounds) (target : UInt32) : Except VerifyFault Unit :=
  demand (b.boundaries.contains target) .jumpTarget

/-- What is asked of one instruction. -/
def check (b : CodeBounds) : Instruction UInt32 → Except VerifyFault Unit
  | ⟨.load, (t, slot)⟩ => b.checkSlot t slot
  | ⟨.store, (t, slot)⟩ => b.checkSlot t slot
  | ⟨.getStatic, symbol⟩ => b.checkSymbol symbol
  | ⟨.putStatic, symbol⟩ => b.checkSymbol symbol
  | ⟨.invoke, symbol⟩ => b.checkSymbol symbol
  | ⟨.arrayLoad, t⟩ => demand (ValueType.isArray t) .arrayOperation
  | ⟨.arrayStore, t⟩ => demand (ValueType.isArray t) .arrayOperation
  | ⟨.newArray, t⟩ => demand (ValueType.isArray t) .arrayOperation
  | ⟨.checkCast, t⟩ => demand (ValueType.isReference t) .checkCast
  | ⟨.add, t⟩ => demand (ValueType.isNumeric t) .arithmetic
  | ⟨.sub, t⟩ => demand (ValueType.isNumeric t) .arithmetic
  | ⟨.mul, t⟩ => demand (ValueType.isNumeric t) .arithmetic
  | ⟨.div, t⟩ => demand (ValueType.isNumeric t) .arithmetic
  | ⟨.neg, t⟩ => demand (ValueType.isNumeric t) .arithmetic
  | ⟨.convert, (source, target)⟩ => demand (source.isNumeric && target.isNumeric) .conversion
  | ⟨.jump, target⟩ => b.checkTarget target
  | ⟨.ifTrue, target⟩ => b.checkTarget target
  | ⟨.ifFalse, target⟩ => b.checkTarget target
  | ⟨.returnValue, t⟩ =>
    let returned : ValueType := t
    demand (b.result != .void && returned == b.result) .returnType
  | ⟨.returnVoid, _⟩ => demand (b.result == .void) .voidReturn
  | _ => .ok ()

end CodeBounds

namespace Image

/-- Slots that a routine needs for its receiver. -/
def receiverSlots (flags : Flags) : Nat := if flags.has .isStatic then 0 else 1

/-- Requires every instruction of a routine to be within bounds. -/
def checkCode (identity : Text) (bounds : CodeBounds) : List Placed → Except Error Unit
  | [] => .ok ()
  | p :: rest =>
    match bounds.check p.instruction with
    | .error fault => .error (.rejected identity (some p.offset) fault)
    | .ok () => checkCode identity bounds rest

/-- Verifies a routine of a unit with `symbolCount` symbols. -/
def verifyRoutine (symbolCount : Nat) (r : RoutineRecord) : Except Error Unit := do
  let reject (fault : VerifyFault) : Except Error Unit := .error (.rejected r.identity none fault)
  match Signature.ofDescriptor? r.descriptor with
  | none => reject .descriptor
  | some signature =>
    if r.maxLocals.toNat < signature.paramSlots + receiverSlots r.flags then reject .maxLocals
    if r.code.isEmpty then reject .emptyCode
    let code ← Code.decode r.code
    checkCode r.identity {
      maxLocals := r.maxLocals.toNat
      symbolCount
      result := signature.result
      boundaries := Std.HashSet.ofList (code.map Placed.offset) } code
    match code.getLast? with
    | none => reject .emptyCode
    | some last =>
      unless last.instruction.op.isTerminal do
        throw (.rejected r.identity (some last.offset) .fallsOff)

/-- Requires the names of fields to differ from each other and from those already seen. -/
def checkFields (seen : Std.HashSet Text) : List Field → Except Error Unit
  | [] => .ok ()
  | f :: rest =>
    if seen.contains f.name then .error (.duplicateField f.name)
    else checkFields (seen.insert f.name) rest

/-- Requires the identities of routines to differ, and verifies each routine. -/
def checkRoutines (symbolCount : Nat) (seen : Std.HashSet Text) :
    List RoutineRecord → Except Error Unit
  | [] => .ok ()
  | r :: rest =>
    if seen.contains r.identity then .error (.duplicateRoutine r.identity)
    else match verifyRoutine symbolCount r with
      | .error e => .error e
      | .ok () => checkRoutines symbolCount (seen.insert r.identity) rest

/-- Verifies the contents of a unit. -/
def check (u : Image) : Except Error Unit := do
  checkFields ∅ u.fields
  checkRoutines u.symbols.length ∅ u.routines

/-- Decodes a unit and verifies it. -/
def verify (bytes : Bytes) : Except Error Image := do
  let u ← decode bytes
  u.check
  return u

end Image

end Bytecode
