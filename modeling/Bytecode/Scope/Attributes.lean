import Bytecode.Text

/-!
# Scope attributes

What a function needs from the machine at run time: its callee, its parent scope, a scope record
of its own, a variable argument list. Scope analysis derives the set; routines take their
parameter layout from it. A set is coherent when it satisfies four implications, and the first one
that fails is the reason for its rejection.

## Main definitions

* `Attribute`, `Attributes`: the attributes and sets of them
* `Attributes.violated?`: the first implication a set breaks
-/

namespace Bytecode

/-- An attribute of a function. -/
inductive Attribute
  | isVarArg
  | needsParentScope
  | needsCallee
  | hasScopeBlock
  | usesSelfSymbol
  | isSplit
  | hasEval
  | allVarsInScope
  | isStrict
  deriving DecidableEq, Repr

namespace Attribute

/-- All attributes, in the order in which they are written. -/
def all : List Attribute :=
  [isVarArg, needsParentScope, needsCallee, hasScopeBlock, usesSelfSymbol, isSplit, hasEval,
    allVarsInScope, isStrict]

/-- The name of an attribute. -/
def name : Attribute → Text
  | isVarArg => "isVarArg"
  | needsParentScope => "needsParentScope"
  | needsCallee => "needsCallee"
  | hasScopeBlock => "hasScopeBlock"
  | usesSelfSymbol => "usesSelfSymbol"
  | isSplit => "isSplit"
  | hasEval => "hasEval"
  | allVarsInScope => "allVarsInScope"
  | isStrict => "isStrict"

end Attribute

/-- A set of attributes. -/
structure Attributes where
  /-- Arguments arrive in one array. -/
  isVarArg : Bool := false
  /-- Names of enclosing functions or of the global object are used. -/
  needsParentScope : Bool := false
  /-- The function object is passed in. -/
  needsCallee : Bool := false
  /-- Variables live in a scope record. -/
  hasScopeBlock : Bool := false
  /-- A function expression refers to itself by name. -/
  usesSelfSymbol : Bool := false
  /-- The body is too large for one segment. -/
  isSplit : Bool := false
  /-- The body calls `eval` directly. -/
  hasEval : Bool := false
  /-- Every variable has to be reachable by name. -/
  allVarsInScope : Bool := false
  /-- The function is strict code. -/
  isStrict : Bool := false
  deriving DecidableEq, Repr, Inhabited

/-- An implication between attributes. -/
inductive AttributeRule
  | evalNeedsVariables
  | variablesNeedScope
  | parentNeedsCallee
  | selfNeedsCallee
  deriving DecidableEq, Repr

namespace AttributeRule

/-- The wording of a rule. -/
def text : AttributeRule → Text
  | evalNeedsVariables => "hasEval requires allVarsInScope and isVarArg"
  | variablesNeedScope => "allVarsInScope requires hasScopeBlock and needsParentScope"
  | parentNeedsCallee => "needsParentScope requires needsCallee"
  | selfNeedsCallee => "usesSelfSymbol requires needsCallee"

end AttributeRule

namespace Attributes

/-- Whether an attribute is in the set. -/
def has (a : Attributes) : Attribute → Bool
  | .isVarArg => a.isVarArg
  | .needsParentScope => a.needsParentScope
  | .needsCallee => a.needsCallee
  | .hasScopeBlock => a.hasScopeBlock
  | .usesSelfSymbol => a.usesSelfSymbol
  | .isSplit => a.isSplit
  | .hasEval => a.hasEval
  | .allVarsInScope => a.allVarsInScope
  | .isStrict => a.isStrict

/-- The set with the given attributes. -/
def ofList (attributes : List Attribute) : Attributes where
  isVarArg := attributes.contains .isVarArg
  needsParentScope := attributes.contains .needsParentScope
  needsCallee := attributes.contains .needsCallee
  hasScopeBlock := attributes.contains .hasScopeBlock
  usesSelfSymbol := attributes.contains .usesSelfSymbol
  isSplit := attributes.contains .isSplit
  hasEval := attributes.contains .hasEval
  allVarsInScope := attributes.contains .allVarsInScope
  isStrict := attributes.contains .isStrict

/-- The attributes in the set, in their written order. -/
def toList (a : Attributes) : List Attribute := Attribute.all.filter a.has

/-- The names of the attributes in the set, in braces. -/
def toText (a : Attributes) : Text :=
  "\x7b" ++ Text.joined ", " (a.toList.map Attribute.name) ++ "\x7d"

/-- The first rule that the set breaks. -/
def violated? (a : Attributes) : Option AttributeRule :=
  if a.hasEval && !(a.allVarsInScope && a.isVarArg) then some .evalNeedsVariables
  else if a.allVarsInScope && !(a.hasScopeBlock && a.needsParentScope) then some .variablesNeedScope
  else if a.needsParentScope && !a.needsCallee then some .parentNeedsCallee
  else if a.usesSelfSymbol && !a.needsCallee then some .selfNeedsCallee
  else none

@[simp]
theorem has_ofList (attributes : List Attribute) (x : Attribute) :
    (ofList attributes).has x = attributes.contains x := by
  cases x <;> rfl

end Attributes

end Bytecode
