import Bytecode.Literal
import Bytecode.Opcode
import Bytecode.Signature

/-!
# Errors

Every failure is a value that says what went wrong; the wording is kept apart, in `Error.message`.
A limit of the unit format is attributed to a function, since it is the only failure that the
source program can cause and that is reported to its author.

## Main definitions

* `Error`: the failures, by cause
* `Error.kind`: the broad class of a failure
* `Error.message`: its wording
* `Error.function?`: the function to which a limit is attributed
-/

namespace Bytecode

/-- Where a unit or a routine stands in its life. -/
inductive Phase
  | notStarted
  | started
  | ended
  deriving DecidableEq, Repr, Inhabited

/-- A request that the operand stack refuses. -/
inductive StackFault
  | pushVoid
  | underflow
  | underflowExpecting (expected : ValueType)
  | unexpected (expected found : ValueType)
  | wrongWidth (slots : Int) (found : ValueType)
  deriving DecidableEq, Repr

/-- A request that breaks the typing of the code under assembly. -/
inductive TypingFault
  | unreachable (op : Opcode)
  | voidLocal
  | noLocal (slot : UInt16)
  | fallsOff
  | unboundLabel (label : Nat)
  | shapeMismatch (here there : List ValueType)
  | loadMismatch (slot : UInt16) (declared loaded : ValueType)
  | storeMismatch (stored declared : ValueType)
  | arrayLoad (found : ValueType)
  | arrayStore (found : ValueType)
  | arrayLength (found : ValueType)
  | newArray (type : ValueType)
  | checkCast (type : ValueType)
  | dupWide (found : ValueType)
  | dup2Split
  | arithmetic (op : Opcode) (type : ValueType)
  | convert (source target : ValueType)
  | valueFromVoid
  | voidFromValue (result : ValueType)
  deriving DecidableEq, Repr

/-- A request made of a routine at the wrong time, or about something it does not have. -/
inductive RoutineFault
  | notStarted
  | foreignLabel
  | labelBoundTwice
  | noParameter (index : Nat)
  | alreadyBegun
  | endNotStarted
  deriving DecidableEq, Repr

/-- An operation that a unit allows in one phase only. -/
inductive UnitOperation
  | begin
  | finish
  | toBytes
  | field
  | routine
  | openRoutine
  | beginRoutine
  | endRoutine
  deriving DecidableEq, Repr

/-- A request that a unit refuses. -/
inductive UnitFault
  | wrongPhase (operation : UnitOperation) (phase : Phase)
  | openRoutines (names : List Text)
  | duplicateField (name : Text)
  | duplicateRoutine (identity : Text)
  | notOpen (name : Text)
  deriving DecidableEq, Repr

/-- A limit of the unit format. -/
inductive Limit
  | name (length : Nat)
  | constants
  | symbols
  | locals
  | scopeRecord (slots : Nat)
  | code
  | stack
  | localSlots
  deriving DecidableEq, Repr

/-- The counted parts of a unit. -/
inductive Section
  | symbols
  | fields
  | constants
  | routines
  deriving DecidableEq, Repr

/-- A request that makes no sense whatever the program is. -/
inductive Inconsistency
  | notArray (type : ValueType)
  | noArrayOf (type : ValueType)
  | patchOutside
  | symbolRange (index : Nat)
  | noAccessor (type : ValueType)
  | tooMany (part : Section)
  | constantSize
  | unknownOpcode (raw : UInt8)
  deriving DecidableEq, Repr

/-- Why bytes are not in a format. -/
inductive FormatFault
  | truncated (offset : Nat)
  | elementCount
  | constantType (raw : UInt8)
  | notPoolable (type : ValueType)
  | opcode (raw : UInt8) (offset : UInt32)
  | typeOperand (raw : UInt8) (offset : UInt32)
  | magic
  | version (found : UInt16)
  | fieldType (name : Text)
  | trailingBytes
  deriving DecidableEq, Repr

/-- Why a routine is rejected by the verifier. -/
inductive VerifyFault
  | descriptor
  | maxLocals
  | emptyCode
  | voidLocal
  | slotRange (slot : UInt16)
  | symbolRange
  | arrayOperation
  | checkCast
  | arithmetic
  | conversion
  | jumpTarget
  | returnType
  | voidReturn
  | fallsOff
  deriving DecidableEq, Repr

/-- Why a setting cannot be used. -/
inductive SettingFault
  | literal (cause : LiteralError)
  | notPositive
  deriving DecidableEq, Repr

/-- A failure, by cause. -/
inductive Error
  /-- The operand stack refused a request; its shape is given bottom first. -/
  | stack (routine : Text) (fault : StackFault) (shape : List ValueType)
  /-- An instruction does not fit the code before it. -/
  | typing (routine : Text) (fault : TypingFault)
  /-- A routine was used out of order. -/
  | routine (routine : Text) (fault : RoutineFault)
  /-- A unit was used out of order. -/
  | unit (name : Text) (fault : UnitFault)
  /-- The scope attributes of a function were asked for before its analysis. -/
  | notAnalysed (function : Text)
  /-- A set of scope attributes contradicts itself. -/
  | attributes (function : Text) (rule : AttributeRule) (found : Attributes)
  /-- A request makes no sense. -/
  | inconsistent (fault : Inconsistency)
  /-- A limit of the unit format is exceeded by a function. -/
  | unsupported (function : Text) (limit : Limit)
  /-- Bytes are not in the expected format. -/
  | format (fault : FormatFault)
  /-- A unit has two fields of one name. -/
  | duplicateField (name : Text)
  /-- A unit has two routines of one identity. -/
  | duplicateRoutine (identity : Text)
  /-- A routine of a unit is not well formed, at an offset in its code if one is to blame. -/
  | rejected (identity : Text) (offset : Option UInt32) (fault : VerifyFault)
  /-- A setting cannot be used. -/
  | setting (name : Text) (fault : SettingFault)
  deriving DecidableEq, Repr

/-- The broad class of a failure. -/
inductive ErrorKind
  | stackMismatch
  | state
  | attributeContradiction
  | inconsistency
  | unsupportedInput
  | verification
  | configuration
  deriving DecidableEq, Repr

namespace Phase

/-- The words for a phase. -/
def text : Phase → Text
  | notStarted => "not started"
  | started => "started"
  | ended => "ended"

end Phase

namespace StackFault

/-- The wording of a refused stack request. -/
def text : StackFault → Text
  | pushVoid => "cannot push void"
  | underflow => "stack underflow"
  | underflowExpecting expected => "stack underflow, expected " ++ expected.name
  | unexpected expected found => "expected " ++ expected.name ++ ", found " ++ found.name
  | wrongWidth slots found =>
    "expected a " ++ Text.ofInt slots ++ "-slot value, found " ++ found.name

end StackFault

namespace TypingFault

/-- The wording of a typing fault. -/
def text : TypingFault → Text
  | unreachable op => "unreachable instruction " ++ op.mnemonic
  | voidLocal => "local of type void"
  | noLocal slot => "no local at slot " ++ Text.ofNat slot.toNat
  | fallsOff => "control falls off the end of the routine"
  | unboundLabel label => "label " ++ Text.ofNat label ++ " is never bound"
  | shapeMismatch here there =>
    "stack shape " ++ shapeText here ++ " does not match " ++ shapeText there ++ " at merge point"
  | loadMismatch slot declared loaded =>
    "local " ++ Text.ofNat slot.toNat ++ " is " ++ declared.name ++ ", loaded as " ++ loaded.name
  | storeMismatch stored declared =>
    "cannot store " ++ stored.name ++ " into " ++ declared.name ++ " local"
  | arrayLoad found => "array load on " ++ found.name
  | arrayStore found => "array store on " ++ found.name
  | arrayLength found => "array length on " ++ found.name
  | newArray type => "newarray of " ++ type.name
  | checkCast type => "checkcast to non-reference " ++ type.name
  | dupWide found => "dup of wide value " ++ found.name
  | dup2Split => "dup2 splits a wide value"
  | arithmetic op type => op.mnemonic ++ " on " ++ type.name
  | convert source target => "convert " ++ source.name ++ " to " ++ target.name
  | valueFromVoid => "value return from void routine"
  | voidFromValue result => "void return from routine returning " ++ result.name

end TypingFault

namespace RoutineFault

/-- The wording of a routine fault. -/
def text : RoutineFault → Text
  | notStarted => "emission while routine is not started"
  | foreignLabel => "label does not belong to this routine"
  | labelBoundTwice => "label bound twice"
  | noParameter index => "no parameter " ++ Text.ofNat index
  | alreadyBegun => "routine already begun"
  | endNotStarted => "end of routine that is not started"

end RoutineFault

namespace UnitOperation

/-- The words for an operation. -/
def text : UnitOperation → Text
  | begin => "begin"
  | finish => "end"
  | toBytes => "toBytes"
  | field => "field"
  | routine => "routine"
  | openRoutine => "openRoutine"
  | beginRoutine => "begin routine"
  | endRoutine => "end routine"

end UnitOperation

namespace UnitFault

/-- Names in a row. A separator is written only after something else, so that empty names at the
front leave no trace. -/
def nameRow (names : List Text) : Text := Text.joined ", " (names.dropWhile List.isEmpty)

/-- The wording of a unit fault. -/
def text : UnitFault → Text
  | wrongPhase operation phase => operation.text ++ " while " ++ phase.text
  | openRoutines names => "end with open routines: " ++ nameRow names
  | duplicateField name => "duplicate field " ++ name
  | duplicateRoutine identity => "duplicate routine " ++ identity
  | notOpen name => "routine " ++ name ++ " is not open"

end UnitFault

namespace Limit

/-- The wording of an exceeded limit. -/
def text : Limit → Text
  | name length => "name of " ++ Text.ofNat length ++ " bytes exceeds the 65535-byte encoding limit"
  | constants => "too many constants in unit (limit 65535)"
  | symbols => "too many symbol references in unit"
  | locals => "too many local variables"
  | scopeRecord slots => "scope record too large (" ++ Text.ofNat slots ++ " slots)"
  | code => "routine code exceeds 65535 bytes"
  | stack => "operand stack exceeds 65535 slots"
  | localSlots => "more than 65535 local slots"

end Limit

namespace Section

/-- The word for a part of a unit. -/
def text : Section → Text
  | symbols => "symbols"
  | fields => "fields"
  | constants => "constants"
  | routines => "routines"

end Section

namespace Inconsistency

/-- The wording of an inconsistent request. -/
def text : Inconsistency → Text
  | notArray type => "not an array type: " ++ type.name
  | noArrayOf type => "no array type for: " ++ type.name
  | patchOutside => "patch outside written bytes"
  | symbolRange index => "symbol index out of range: " ++ Text.ofNat index
  | noAccessor type => "no constant accessor for " ++ type.name
  | tooMany part => "too many " ++ part.text ++ " to encode"
  | constantSize => "constant too large to encode"
  | unknownOpcode raw => "unknown opcode " ++ Text.ofNat raw.toNat

end Inconsistency

namespace FormatFault

/-- The wording of a format fault. -/
def text : FormatFault → Text
  | truncated offset => "truncated input at offset " ++ Text.ofNat offset
  | elementCount => "constant element count exceeds input"
  | constantType raw => "bad constant type " ++ Text.ofNat raw.toNat
  | notPoolable type => "type is not poolable: " ++ type.name
  | opcode raw offset =>
    "unknown opcode " ++ Text.ofNat raw.toNat ++ " at " ++ Text.ofNat offset.toNat
  | typeOperand raw offset =>
    "bad type operand " ++ Text.ofNat raw.toNat ++ " at " ++ Text.ofNat offset.toNat
  | magic => "bad unit magic"
  | version found => "unsupported unit version " ++ Text.ofNat found.toNat
  | fieldType name => "field '" ++ name ++ "' has bad type"
  | trailingBytes => "trailing bytes after last routine"

end FormatFault

namespace VerifyFault

/-- The wording of a rejection. -/
def text : VerifyFault → Text
  | descriptor => "malformed descriptor"
  | maxLocals => "max locals smaller than parameters"
  | emptyCode => "empty code"
  | voidLocal => "void local access"
  | slotRange slot => "local slot " ++ Text.ofNat slot.toNat ++ " out of range"
  | symbolRange => "symbol index out of range"
  | arrayOperation => "array operation on non-array type"
  | checkCast => "checkcast to non-reference type"
  | arithmetic => "arithmetic on non-numeric type"
  | conversion => "bad conversion"
  | jumpTarget => "jump target not on an instruction boundary"
  | returnType => "return type does not match descriptor"
  | voidReturn => "void return from value routine"
  | fallsOff => "control falls off the end"

end VerifyFault

namespace SettingFault

/-- The wording of a refused setting. -/
def text : SettingFault → Text
  | literal cause => cause.message
  | notPositive => "must be positive"

end SettingFault

namespace Error

/-- The class of a failure. -/
def kind : Error → ErrorKind
  | stack .. | typing .. => .stackMismatch
  | routine .. | unit .. | notAnalysed .. => .state
  | attributes .. => .attributeContradiction
  | inconsistent .. => .inconsistency
  | unsupported .. => .unsupportedInput
  | format .. | duplicateField .. | duplicateRoutine .. | rejected .. => .verification
  | setting .. => .configuration

/-- The wording of a failure. -/
def message : Error → Text
  | stack name fault shape =>
    name ++ ": " ++ fault.text ++ " (stack " ++ shapeText shape ++ ")"
  | typing name fault => name ++ ": " ++ fault.text
  | routine name fault => name ++ ": " ++ fault.text
  | unit name fault => "unit '" ++ name ++ "': " ++ fault.text
  | notAnalysed function => "function '" ++ function ++ "' has not been analyzed"
  | attributes function rule found =>
    "function '" ++ function ++ "': " ++ rule.text ++ " " ++ found.toText
  | inconsistent fault => fault.text
  | unsupported _ limit => limit.text
  | format fault => fault.text
  | duplicateField name => "duplicate field " ++ name
  | duplicateRoutine identity => "duplicate routine " ++ identity
  | rejected identity none fault => "routine " ++ identity ++ ": " ++ fault.text
  | rejected identity (some offset) fault =>
    "routine " ++ identity ++ " at " ++ Text.ofNat offset.toNat ++ ": " ++ fault.text
  | setting name fault => name ++ ": " ++ fault.text

/-- The function to which a limit is attributed. -/
def function? : Error → Option Text
  | unsupported function _ => some function
  | _ => none

end Error

end Bytecode
