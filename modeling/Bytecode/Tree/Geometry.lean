import Bytecode.Tree

/-!
# Tree geometry

The number of nodes of a function and the depth of the deepest. A function that is mentioned in a
body counts there: either as one node, or, when inner functions are included, with all its nodes
as often as it is mentioned.

## Main definitions

* `Geometry`: nodes and depth
* `Function.ownGeometry`: a function without the bodies of inner functions
* `Function.geometry`: a function with the inner functions it mentions
-/

namespace Bytecode

/-- A number of nodes, and the depth of the deepest below the place they stand at. -/
structure Geometry where
  nodes : Nat
  depth : Nat
  deriving DecidableEq, Repr, Inhabited

namespace Geometry

/-- No node at all. -/
def empty : Geometry := ⟨0, 0⟩

/-- A single node. -/
def leaf : Geometry := ⟨1, 0⟩

/-- Two groups of nodes at one place. -/
def join (a b : Geometry) : Geometry := ⟨a.nodes + b.nodes, max a.depth b.depth⟩

/-- A group of nodes one level further down. -/
def below (a : Geometry) : Geometry := if a.nodes = 0 then empty else ⟨a.nodes, a.depth + 1⟩

/-- A node with its children. -/
def node (children : Geometry) : Geometry := leaf.join children.below

end Geometry

open Bytecode.Geometry

mutual

/-- The nodes of an expression; `mention` gives those of the functions it mentions. -/
def Expr.geometry (mention : Option Nat → Geometry) : Expr → Geometry
  | .absent => empty
  | .name _ => leaf
  | .assign target value => node ((target.geometry mention).join (value.geometry mention))
  | .call callee args => node (exprGeometry mention (callee.geometry mention) args)
  | .function index => (mention index).below
  | .string _ => leaf
  | .number _ => leaf
  | .binary _ lhs rhs => node ((lhs.geometry mention).join (rhs.geometry mention))

/-- The nodes of expressions at one place, together with those in `found`. -/
def exprGeometry (mention : Option Nat → Geometry) (found : Geometry) : List Expr → Geometry
  | [] => found
  | e :: rest => exprGeometry mention (found.join (e.geometry mention)) rest

end

mutual

/-- The nodes of a statement; `mention` gives those of the functions it mentions. -/
def Stmt.geometry (mention : Option Nat → Geometry) : Stmt → Geometry
  | .absent => empty
  | .var _ init => node (init.geometry mention)
  | .function index => (mention index).below
  | .expr value => node (value.geometry mention)
  | .ret value => node (value.geometry mention)
  | .cond test thenBody elseBody =>
    node (stmtGeometry mention (stmtGeometry mention (test.geometry mention) thenBody) elseBody)
  | .withObject object body => node (stmtGeometry mention (object.geometry mention) body)
  | .block body => node (stmtGeometry mention empty body)

/-- The nodes of statements at one place, together with those in `found`. -/
def stmtGeometry (mention : Option Nat → Geometry) (found : Geometry) : List Stmt → Geometry
  | [] => found
  | s :: rest => stmtGeometry mention (found.join (s.geometry mention)) rest

end

namespace Function

/-- The nodes of a function with the given body. -/
def bodyGeometry (mention : Option Nat → Geometry) (body : List Stmt) : Geometry :=
  node (stmtGeometry mention empty body)

/-- The geometry of a mentioned function, if there is one. -/
def mentioned (inner : Array Geometry) (index : Option Nat) : Geometry :=
  (index.bind (inner[·]?)).getD empty

/-- The nodes of a function; each mention of an inner function is one node. -/
def ownGeometry (f : Function) : Geometry :=
  bodyGeometry (mentioned (f.functions.map fun _ => leaf).toArray) f.body

mutual

/-- The nodes of a function and of the inner functions, at every mention. -/
def geometry : Function → Geometry
  | { functions, body, .. } => bodyGeometry (mentioned (geometries #[] functions)) body

/-- The geometries of functions, after those in `found`. -/
def geometries (found : Array Geometry) : List Function → Array Geometry
  | [] => found
  | f :: rest => geometries (found.push f.geometry) rest

end

end Function

end Bytecode
