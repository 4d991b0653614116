import Bytecode.Tree

/-!
# References

The names that the body of a function uses, in source order, and whether it calls `eval` by that
name. Bodies of inner functions are not entered. A variable with an initial value is an assignment
to it, hence a use.

## Main definitions

* `Reference`: a use of a name
* `References`: all uses in a body
* `Function.references`: collects them
-/

namespace Bytecode

/-- A use of a name. -/
structure Reference where
  name : Text
  /-- Whether it stands in the body of a `with` statement. -/
  insideWith : Bool
  deriving DecidableEq, Repr

/-- The uses of names in a body. -/
structure References where
  /-- The uses, last first. -/
  newest : List Reference := []
  usesEval : Bool := false

namespace References

/-- The uses in source order. -/
def toList (r : References) : List Reference := r.newest.reverse

/-- Adds a use. -/
def note (r : References) (name : Text) (insideWith : Bool) : References :=
  { r with newest := ⟨name, insideWith⟩ :: r.newest }

end References

mutual

/-- Adds the uses in an expression to `found`. The callee of an `eval` call is no use. -/
def Expr.refer (insideWith : Bool) (found : References) : Expr → References
  | .absent => found
  | .name id => found.note id insideWith
  | .assign target value => value.refer insideWith (target.refer insideWith found)
  | .call callee args =>
    match callee with
    | .name id =>
      if id == Text.ofString "eval" then
        referArgs insideWith { found with usesEval := true } args
      else referArgs insideWith (found.note id insideWith) args
    | callee => referArgs insideWith (callee.refer insideWith found) args
  | .function _ => found
  | .string _ => found
  | .number _ => found
  | .binary _ lhs rhs => rhs.refer insideWith (lhs.refer insideWith found)

/-- Adds the uses in expressions to `found`. -/
def referArgs (insideWith : Bool) (found : References) : List Expr → References
  | [] => found
  | e :: rest => referArgs insideWith (e.refer insideWith found) rest

end

mutual

/-- Adds the uses in a statement to `found`. -/
def Stmt.refer (insideWith : Bool) (found : References) : Stmt → References
  | .absent => found
  | .var name init =>
    match init with
    | .absent => found
    | init => init.refer insideWith (found.note name insideWith)
  | .function _ => found
  | .expr value => value.refer insideWith found
  | .ret value => value.refer insideWith found
  | .cond test thenBody elseBody =>
    referAll insideWith (referAll insideWith (test.refer insideWith found) thenBody) elseBody
  | .withObject object body => referAll true (object.refer insideWith found) body
  | .block body => referAll insideWith found body

/-- Adds the uses in statements to `found`. -/
def referAll (insideWith : Bool) (found : References) : List Stmt → References
  | [] => found
  | s :: rest => referAll insideWith (s.refer insideWith found) rest

end

/-- The uses of names in the body of a function. -/
def Function.references (f : Function) : References := referAll false {} f.body

end Bytecode
