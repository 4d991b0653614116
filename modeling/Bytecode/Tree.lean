import Bytecode.Number
import Bytecode.Scope.Attributes

/-!
# Function trees

The source program as a tree of functions. A function owns the functions written inside it, and
its body refers to them by their position. Statements and expressions may be absent where the
source leaves them out.

## Main definitions

* `Expr`, `Stmt`: the bodies of functions
* `Function`: a function, or the program itself
* `Function.at?`, `Function.update`: a function inside the tree, by its path
* `Function.preorder`: all functions, each before those inside it
-/

namespace Bytecode

/-- The operators on two values. -/
inductive BinaryOp
  | add
  | sub
  | mul
  | div
  | lt
  | eq
  deriving DecidableEq, Repr

/-- An expression. -/
inductive Expr
  | absent
  | name (id : Text)
  | assign (target value : Expr)
  | call (callee : Expr) (args : List Expr)
  /-- A function of the enclosing one, as a value. -/
  | function (index : Option Nat)
  | string (value : Text)
  | number (value : Number)
  | binary (op : BinaryOp) (lhs rhs : Expr)
  deriving Repr, Inhabited

/-- A statement. -/
inductive Stmt
  | absent
  | var (name : Text) (init : Expr)
  /-- A function of the enclosing one, declared by name. -/
  | function (index : Option Nat)
  | expr (value : Expr)
  | ret (value : Expr)
  | cond (test : Expr) (thenBody elseBody : List Stmt)
  | withObject (object : Expr) (body : List Stmt)
  | block (body : List Stmt)
  deriving Repr, Inhabited

/-- How a function is written. -/
inductive Form
  /-- The top level of a program; its declarations are global. -/
  | program
  | declaration
  /-- A function value, whose name is visible only inside it. -/
  | expression
  deriving DecidableEq, Repr

/-- What scope analysis finds out about a function. -/
structure ScopeFacts where
  attributes : Attributes
  /-- Declared names, in the order of their first declaration. -/
  locals : List Text
  deriving DecidableEq, Repr

/-- A function, or the program itself. -/
structure Function where
  form : Form := .declaration
  name : Text := []
  params : List Text := []
  /-- Whether the body starts with a strictness directive. -/
  strict : Bool := false
  line : Int := 0
  col : Int := 0
  /-- The functions written inside, in source order. -/
  functions : List Function := []
  body : List Stmt := []
  /-- The result of analysis, once it has run. -/
  facts : Option ScopeFacts := none
  deriving Repr, Inhabited

namespace Function

/-- Whether this is the top level of a program. -/
def isProgram (f : Function) : Bool := f.form == .program

/-- Whether the function has no name. -/
def isAnonymous (f : Function) : Bool := f.name.isEmpty

/-- Whether `name` is the function's own name, as seen from inside: only a function expression is
visible to itself. -/
def isSelf (f : Function) (name : Text) : Bool :=
  f.form == .expression && !f.isAnonymous && f.name == name

/-- The function to which the body refers. -/
def inner? (f : Function) (index : Option Nat) : Option Function := index.bind (f.functions[·]?)

/-- Declared names, in the order of their first declaration; none before analysis. -/
def locals (f : Function) : List Text := (f.facts.map ScopeFacts.locals).getD []

/-- The function at a path of positions. -/
def at? : List Nat → Function → Option Function
  | [], f => some f
  | i :: path, f => f.functions[i]?.bind (at? path)

/-- Changes the function at a path of positions. -/
def update (change : Function → Function) : List Nat → Function → Function
  | [], f => change f
  | i :: path, f => { f with functions := f.functions.modify i (update change path) }

mutual

/-- Adds a function and all inside it to `seen`, which is kept last first. -/
def preorderOnto (seen : List Function) : Function → List Function
  | ⟨form, name, params, strict, line, col, functions, body, facts⟩ =>
    preorderAll (⟨form, name, params, strict, line, col, functions, body, facts⟩ :: seen) functions

/-- Adds functions and all inside them to `seen`, which is kept last first. -/
def preorderAll (seen : List Function) : List Function → List Function
  | [] => seen
  | f :: rest => preorderAll (preorderOnto seen f) rest

end

/-- All functions of the tree, each before those inside it. -/
def preorder (f : Function) : List Function := (preorderOnto [] f).reverse

end Function

end Bytecode
