import Bytecode.ValueType
import Bytecode.Scope.Attributes

/-!
# Signatures

The parameter and result types of a routine. A descriptor writes them as text: the parameter codes
in parentheses, then the result code. It does not tell whether the routine takes a variable
argument list.

## Main definitions

* `Signature`: parameter types, result type, variable arguments
* `Signature.descriptor`, `Signature.ofDescriptor?`: the text of a signature and back
* `Signature.ofAttributes`: the signature of a function with given scope attributes
-/

namespace Bytecode

/-- The type of a routine. -/
structure Signature where
  result : ValueType
  params : List ValueType := []
  varArgs : Bool := false
  deriving DecidableEq, Repr, Inhabited

namespace Signature

/-- The parameter codes in parentheses, then the result code. -/
def descriptor (s : Signature) : Text :=
  "(" ++ s.params.flatMap ValueType.descriptor ++ ")" ++ s.result.descriptor

/-- Local slots taken by the parameters. -/
def paramSlots (s : Signature) : Nat := slotsOf s.params

/-- The type whose code is a single byte. -/
def simpleType? (code : UInt8) : Option ValueType :=
  match code with
  | 86 => some .void
  | 90 => some .boolean
  | 73 => some .int
  | 74 => some .long
  | 68 => some .number
  | 79 => some .object
  | 84 => some .string
  | 69 => some .scope
  | 70 => some .callee
  | 77 => some .map
  | _ => none

/-- The array type whose element code is a single byte. -/
def arrayType? (code : UInt8) : Option ValueType := (simpleType? code).bind ValueType.arrayOf?

/-- The type that a text writes. An array code is an opening bracket before the code of its
elements. -/
def typeOf? : Text → Option ValueType
  | [code] => simpleType? code
  | [91, code] => arrayType? code
  | _ => none

/-- The parameter types before the closing parenthesis, after those in `params` (last first), and
the text after it. No parameter is void. -/
def splitParams? (params : List ValueType) : Text → Option (List ValueType × Text)
  | [] => none
  | 41 :: rest => some (params.reverse, rest)
  | 91 :: code :: rest =>
    match arrayType? code with
    | none => none
    | some type => splitParams? (type :: params) rest
  | code :: rest =>
    match simpleType? code with
    | none => none
    | some type => if type == .void then none else splitParams? (type :: params) rest

/-- The signature that a descriptor writes. -/
def ofDescriptor? : Text → Option Signature
  | 40 :: t => do
    let (params, rest) ← splitParams? [] t
    let result ← typeOf? rest
    return { result, params }
  | _ => none

/-- The signature of a function: the callee and the parent scope where they are needed, the
receiver, then one object for each named parameter or one array for all arguments. -/
def ofAttributes (a : Attributes) (paramCount : Nat) : Signature where
  result := .object
  params :=
    (if a.needsCallee then [.callee] else []) ++
    (if a.needsParentScope then [.scope] else []) ++
    [.object] ++
    (if a.isVarArg then [.objectArray] else List.replicate paramCount .object)
  varArgs := a.isVarArg

end Signature

end Bytecode
