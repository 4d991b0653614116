import Std.Data.HashSet
import Bytecode.Tree

/-!
# Declarations

The names that a function declares: its parameters, the variables anywhere in its body, and the
functions declared there. Bodies of inner functions are not entered.

## Main definitions

* `Declared`: a declaration in a body
* `Declarations`: all declarations of a function
* `Function.declarations`: collects them
-/

namespace Bytecode

/-- A declaration in a body. -/
inductive Declared
  | var (name : Text)
  | function (name : Text)
  deriving DecidableEq, Repr

namespace Declared

/-- The declared name. -/
def name : Declared → Text
  | var name => name
  | function name => name

/-- The declared name, if a function has it. -/
def functionName? : Declared → Option Text
  | var _ => none
  | function name => some name

end Declared

/-- The declarations of a function. -/
structure Declarations where
  params : List Text
  /-- The names of declared functions. -/
  functions : List Text
  /-- All names, in the order of their first declaration. -/
  ordered : List Text
  /-- The same names, for looking up. -/
  index : Std.HashSet Text

namespace Declarations

/-- Whether a name is declared. -/
def contains (d : Declarations) (name : Text) : Bool := d.index.contains name

/-- Whether the implicit `arguments` is hidden. Parameters and functions hide it, variables do
not. -/
def shadowsArguments (d : Declarations) : Bool :=
  d.params.contains "arguments" || d.functions.contains "arguments"

end Declarations

mutual

/-- Adds the declarations of a statement to `found`, which is kept last first; `inner?` gives the
functions it mentions. -/
def Stmt.declare (inner? : Option Nat → Option Function) (found : List Declared) :
    Stmt → List Declared
  | .absent => found
  | .var name _ => .var name :: found
  | .function index =>
    match inner? index with
    | none => found
    | some f => if f.isAnonymous then found else .function f.name :: found
  | .expr _ => found
  | .ret _ => found
  | .cond _ thenBody elseBody => declareAll inner? (declareAll inner? found thenBody) elseBody
  | .withObject _ body => declareAll inner? found body
  | .block body => declareAll inner? found body

/-- Adds the declarations of statements to `found`, which is kept last first. -/
def declareAll (inner? : Option Nat → Option Function) (found : List Declared) :
    List Stmt → List Declared
  | [] => found
  | s :: rest => declareAll inner? (s.declare inner? found) rest

end

namespace Function

/-- The declarations in a body, in order. -/
def declared (f : Function) : List Declared := (declareAll f.inner? [] f.body).reverse

/-- The declarations of a function. -/
def declarations (f : Function) : Declarations :=
  let ordered := Text.distinct (f.params ++ f.declared.map Declared.name)
  { params := f.params
    functions := f.declared.filterMap Declared.functionName?
    ordered
    index := Std.HashSet.ofList ordered }

end Function

end Bytecode
