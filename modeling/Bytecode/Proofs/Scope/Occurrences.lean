import Mathlib
import Bytecode.Scope.Declarations
import Bytecode.Scope.References

/-!
# Occurrences in bodies

Where a name is used, where `eval` is called and where a name is declared, by rules that follow the
places of a body. A body is walked once for its declarations and once for its references; what is
collected on the way is what occurs.

## Main definitions

* `Expr.Any`, `Stmt.Any`: something inside an expression or a statement has a property
* `Expr.Refers`, `Function.Refers`: uses of a name
* `Expr.CallsEval`, `Function.CallsEval`: calls of `eval` by that name
* `Function.Declares`: parameters, variables and inner functions

## Main results

* `Function.mem_references`, `Function.usesEval_references`: the references that are collected
* `Function.contains_declarations`: the declarations that are collected
-/

namespace Bytecode

/-! ## Induction -/

/-- Induction on expressions, with a hypothesis for each argument of a call. -/
@[elab_as_elim]
theorem Expr.induct {motive : Expr → Prop} (absent : motive .absent)
    (name : ∀ id, motive (.name id))
    (assign : ∀ target value, motive target → motive value → motive (.assign target value))
    (call : ∀ callee args, motive callee → (∀ e ∈ args, motive e) → motive (.call callee args))
    (function : ∀ index, motive (.function index)) (string : ∀ value, motive (.string value))
    (number : ∀ value, motive (.number value))
    (binary : ∀ op lhs rhs, motive lhs → motive rhs → motive (.binary op lhs rhs)) (e : Expr) :
    motive e :=
  @Expr.rec motive (fun args => ∀ e ∈ args, motive e) absent name assign call function string number
    binary (fun _ h => absurd h List.not_mem_nil)
    (fun _ _ he hargs => List.forall_mem_cons.mpr ⟨he, hargs⟩) e

/-- Induction on statements, with a hypothesis for each statement of a body. -/
@[elab_as_elim]
theorem Stmt.induct {motive : Stmt → Prop} (absent : motive .absent)
    (var : ∀ name init, motive (.var name init)) (function : ∀ index, motive (.function index))
    (expr : ∀ value, motive (.expr value)) (ret : ∀ value, motive (.ret value))
    (cond : ∀ test thenBody elseBody, (∀ s ∈ thenBody, motive s) → (∀ s ∈ elseBody, motive s) →
      motive (.cond test thenBody elseBody))
    (withObject : ∀ object body, (∀ s ∈ body, motive s) → motive (.withObject object body))
    (block : ∀ body, (∀ s ∈ body, motive s) → motive (.block body)) (s : Stmt) : motive s :=
  @Stmt.rec motive (fun body => ∀ s ∈ body, motive s) absent var function expr ret cond withObject
    block (fun _ h => absurd h List.not_mem_nil)
    (fun _ _ hs hbody => List.forall_mem_cons.mpr ⟨hs, hbody⟩) s

/-! ## Expressions -/

namespace Expr

/-- The expressions of which an expression is made. The callee of an `eval` call is none of them. -/
def parts : Expr → List Expr
  | .absent => []
  | .name _ => []
  | .assign target value => [target, value]
  | .call (.name id) args => if id = Text.ofString "eval" then args else .name id :: args
  | .call callee args => callee :: args
  | .function _ => []
  | .string _ => []
  | .number _ => []
  | .binary _ lhs rhs => [lhs, rhs]

/-- Something in an expression has a property. -/
inductive Any (P : Expr → Prop) : Expr → Prop
  | here {e : Expr} (h : P e) : Any P e
  | inside {e part : Expr} (hpart : part ∈ e.parts) (h : Any P part) : Any P e

/-- A use of a name in an expression. -/
def Refers (e : Expr) (n : Text) : Prop := e.Any (· = .name n)

/-- A call of the bare name `eval` in an expression. -/
def CallsEval (e : Expr) : Prop := e.Any fun e => ∃ args, e = .call (.name "eval") args

theorem any_iff {P : Expr → Prop} {e : Expr} : e.Any P ↔ P e ∨ ∃ part ∈ e.parts, part.Any P := by
  constructor
  · intro h
    cases h with
    | here h => exact .inl h
    | inside hpart h => exact .inr ⟨_, hpart, h⟩
  · rintro (h | ⟨part, hpart, h⟩)
    · exact .here h
    · exact .inside hpart h

theorem refers_iff {e : Expr} {n : Text} :
    e.Refers n ↔ e = .name n ∨ ∃ part ∈ e.parts, part.Refers n := any_iff

theorem callsEval_iff {e : Expr} : e.CallsEval ↔
    (∃ args, e = .call (.name "eval") args) ∨ ∃ part ∈ e.parts, part.CallsEval := any_iff

theorem not_refers_absent {n : Text} : ¬ absent.Refers n := by
  rw [refers_iff]
  simp [parts]

theorem not_callsEval_absent : ¬ absent.CallsEval := by
  rw [callsEval_iff]
  simp [parts]

theorem parts_evalCall (args : List Expr) : (call (.name "eval") args).parts = args := by
  simp [parts]

theorem refer_evalCall (w : Bool) (found : References) (args : List Expr) :
    (call (.name "eval") args).refer w found =
      referArgs w { found with usesEval := true } args := by
  simp [refer]

theorem parts_call {callee : Expr} (h : callee ≠ .name "eval") (args : List Expr) :
    (call callee args).parts = callee :: args := by
  cases callee with
  | name id =>
    have hid : id ≠ Text.ofString "eval" := fun hid => h (hid ▸ rfl)
    simp [parts, hid]
  | _ => rfl

theorem refer_call {callee : Expr} (h : callee ≠ .name "eval") (w : Bool) (found : References)
    (args : List Expr) :
    (call callee args).refer w found = referArgs w (callee.refer w found) args := by
  cases callee with
  | name id =>
    have hid : id ≠ Text.ofString "eval" := fun hid => h (hid ▸ rfl)
    simp [refer, hid]
  | _ => simp [refer]

section Collected

variable {r : Reference} {w : Bool} {found : References} {e : Expr} {args : List Expr}

theorem mem_referArgs
    (h : ∀ e ∈ args, ∀ found, r ∈ (e.refer w found).newest ↔
      r ∈ found.newest ∨ r.insideWith = w ∧ e.Refers r.name) :
    r ∈ (referArgs w found args).newest ↔
      r ∈ found.newest ∨ r.insideWith = w ∧ ∃ e ∈ args, e.Refers r.name := by
  induction args generalizing found with
  | nil => simp [referArgs]
  | cons e args ih =>
    obtain ⟨he, hargs⟩ := List.forall_mem_cons.mp h
    rw [referArgs, ih hargs, he, List.exists_mem_cons_iff, and_or_left, or_assoc]

/-- The uses of names in an expression are collected, besides those found before. -/
theorem mem_refer : r ∈ (e.refer w found).newest ↔
    r ∈ found.newest ∨ r.insideWith = w ∧ e.Refers r.name := by
  induction e using Expr.induct generalizing found with
  | name id =>
    obtain ⟨n, w'⟩ := r
    rw [refers_iff, refer, References.note, List.mem_cons, Reference.mk.injEq]
    simp only [parts, List.not_mem_nil, false_and, exists_false, or_false, name.injEq]
    tauto
  | assign target value ihtarget ihvalue =>
    rw [refers_iff, refer, ihvalue, ihtarget]
    simp [parts, and_or_left, or_assoc]
  | call callee args ihcallee ihargs =>
    rw [refers_iff]
    -- a direct call of `eval` is no use of that name
    by_cases hcallee : callee = .name "eval"
    · subst hcallee
      rw [refer_evalCall, mem_referArgs fun e he found => ihargs e he, parts_evalCall]
      simp
    · rw [refer_call hcallee, mem_referArgs fun e he found => ihargs e he, ihcallee,
        parts_call hcallee]
      simp [and_or_left, or_assoc]
  | binary op lhs rhs ihlhs ihrhs =>
    rw [refers_iff, refer, ihrhs, ihlhs]
    simp [parts, and_or_left, or_assoc]
  | absent | function | string | number =>
    rw [refer, refers_iff]
    simp [parts]

theorem usesEval_referArgs
    (h : ∀ e ∈ args, ∀ found, (e.refer w found).usesEval = true ↔
      found.usesEval = true ∨ e.CallsEval) :
    (referArgs w found args).usesEval = true ↔
      found.usesEval = true ∨ ∃ e ∈ args, e.CallsEval := by
  induction args generalizing found with
  | nil => simp [referArgs]
  | cons e args ih =>
    obtain ⟨he, hargs⟩ := List.forall_mem_cons.mp h
    rw [referArgs, ih hargs, he, List.exists_mem_cons_iff, or_assoc]

/-- A call of `eval` in an expression is noticed. -/
theorem usesEval_refer : (e.refer w found).usesEval = true ↔
    found.usesEval = true ∨ e.CallsEval := by
  induction e using Expr.induct generalizing found with
  | assign target value ihtarget ihvalue =>
    rw [callsEval_iff, refer, ihvalue, ihtarget]
    simp [parts, or_assoc]
  | call callee args ihcallee ihargs =>
    rw [callsEval_iff]
    by_cases hcallee : callee = .name "eval"
    · subst hcallee
      rw [refer_evalCall, usesEval_referArgs fun e he found => ihargs e he]
      simp
    · rw [refer_call hcallee, usesEval_referArgs fun e he found => ihargs e he, ihcallee,
        parts_call hcallee]
      simp [hcallee, or_assoc]
  | binary op lhs rhs ihlhs ihrhs =>
    rw [callsEval_iff, refer, ihrhs, ihlhs]
    simp [parts, or_assoc]
  | absent | name | function | string | number =>
    rw [refer, callsEval_iff]
    simp [parts, References.note]

end Collected

end Expr

/-! ## Statements -/

namespace Stmt

/-- The statements of which a statement is made. -/
def parts : Stmt → List Stmt
  | .absent => []
  | .var _ _ => []
  | .function _ => []
  | .expr _ => []
  | .ret _ => []
  | .cond _ thenBody elseBody => thenBody ++ elseBody
  | .withObject _ body => body
  | .block body => body

/-- The expression of a statement, apart from those of its parts. -/
def expr? : Stmt → Option Expr
  | .absent => none
  | .var _ init => some init
  | .function _ => none
  | .expr value => some value
  | .ret value => some value
  | .cond test _ _ => some test
  | .withObject object _ => some object
  | .block _ => none

/-- Whether the parts stand in the body of a `with` statement when the statement itself does, or
does not. -/
def partsInWith (w : Bool) : Stmt → Bool
  | .withObject _ _ => true
  | _ => w

/-- Something in a statement has a property, which also depends on whether it stands in the body of
a `with` statement. -/
inductive Any (P : Stmt → Bool → Prop) : Stmt → Bool → Prop
  | here {s : Stmt} {w : Bool} (h : P s w) : Any P s w
  | inside {s part : Stmt} {w : Bool} (hpart : part ∈ s.parts) (h : Any P part (s.partsInWith w)) :
      Any P s w

/-- A use of a name in a statement itself. An initial value is assigned to its variable. -/
inductive Refers (n : Text) : Stmt → Prop
  | initial {init : Expr} (h : init ≠ .absent) : Refers n (.var n init)
  | expr {s : Stmt} {e : Expr} (he : s.expr? = some e) (h : e.Refers n) : Refers n s

/-- A call of `eval` in a statement itself. -/
def CallsEval (s : Stmt) : Prop := ∃ e, s.expr? = some e ∧ e.CallsEval

/-- A declaration that is a statement by itself. -/
inductive Declares (inner? : Option Nat → Option Function) : Declared → Stmt → Prop
  | var {name : Text} {init : Expr} : Declares inner? (.var name) (.var name init)
  | function {index : Option Nat} {f : Function} (hf : inner? index = some f)
      (hname : f.isAnonymous = false) : Declares inner? (.function f.name) (.function index)

theorem any_iff {P : Stmt → Bool → Prop} {s : Stmt} {w : Bool} :
    s.Any P w ↔ P s w ∨ ∃ part ∈ s.parts, part.Any P (s.partsInWith w) := by
  constructor
  · intro h
    cases h with
    | here h => exact .inl h
    | inside hpart h => exact .inr ⟨_, hpart, h⟩
  · rintro (h | ⟨part, hpart, h⟩)
    · exact .here h
    · exact .inside hpart h

section References

variable {r : Reference} {w : Bool} {found : References} {s : Stmt} {body : List Stmt}

theorem refers_iff {n : Text} : s.Refers n ↔
    (∃ init, s = .var n init ∧ init ≠ .absent) ∨ ∃ e, s.expr? = some e ∧ e.Refers n := by
  constructor
  · intro h
    cases h with
    | initial h => exact .inl ⟨_, rfl, h⟩
    | expr he h => exact .inr ⟨_, he, h⟩
  · rintro (⟨init, rfl, h⟩ | ⟨e, he, h⟩)
    · exact .initial h
    · exact .expr he h

theorem refer_var {init : Expr} (h : init ≠ .absent) (name : Text) (w : Bool) (found : References) :
    (var name init).refer w found = init.refer w (found.note name w) := by
  rw [refer]
  exact h

theorem mem_referAll
    (h : ∀ s ∈ body, ∀ found, r ∈ (s.refer w found).newest ↔ r ∈ found.newest ∨
      s.Any (fun s w => r.insideWith = w ∧ s.Refers r.name) w) :
    r ∈ (referAll w found body).newest ↔ r ∈ found.newest ∨
      ∃ s ∈ body, s.Any (fun s w => r.insideWith = w ∧ s.Refers r.name) w := by
  induction body generalizing found with
  | nil => simp [referAll]
  | cons s body ih =>
    obtain ⟨hs, hbody⟩ := List.forall_mem_cons.mp h
    rw [referAll, ih hbody, hs, List.exists_mem_cons_iff, or_assoc]

/-- The uses of names in a statement are collected, besides those found before. -/
theorem mem_refer : r ∈ (s.refer w found).newest ↔ r ∈ found.newest ∨
    s.Any (fun s w => r.insideWith = w ∧ s.Refers r.name) w := by
  induction s using Stmt.induct generalizing w found with
  | absent =>
    rw [refer, any_iff, refers_iff]
    simp [parts, expr?]
  | var name init =>
    rw [any_iff, refers_iff]
    -- a variable is used where it is declared only if a value is assigned to it
    by_cases hinit : init = .absent
    · subst hinit
      rw [refer]
      simp [parts, expr?, Expr.not_refers_absent]
    · obtain ⟨n, w'⟩ := r
      rw [refer_var hinit, Expr.mem_refer, References.note, List.mem_cons, Reference.mk.injEq]
      simp only [parts, expr?, List.not_mem_nil, false_and, exists_false, or_false, var.injEq,
        Option.some.injEq, exists_eq_left']
      grind
  | function index =>
    rw [refer, any_iff, refers_iff]
    simp [parts, expr?]
  | expr value =>
    rw [refer, Expr.mem_refer, any_iff, refers_iff]
    simp [parts, expr?]
  | ret value =>
    rw [refer, Expr.mem_refer, any_iff, refers_iff]
    simp [parts, expr?]
  | cond test thenBody elseBody ihthen ihelse =>
    rw [refer, mem_referAll fun s hs found => ihelse s hs,
      mem_referAll fun s hs found => ihthen s hs,
      Expr.mem_refer, any_iff, refers_iff]
    simp [parts, partsInWith, expr?, or_and_right, exists_or, or_assoc]
  | withObject object body ihbody =>
    rw [refer, mem_referAll fun s hs found => ihbody s hs, Expr.mem_refer, any_iff, refers_iff]
    simp [parts, partsInWith, expr?, or_assoc]
  | block body ihbody =>
    rw [refer, mem_referAll fun s hs found => ihbody s hs, any_iff, refers_iff]
    simp [parts, partsInWith, expr?]

theorem usesEval_referAll
    (h : ∀ s ∈ body, ∀ found, (s.refer w found).usesEval = true ↔ found.usesEval = true ∨
      s.Any (fun s _ => s.CallsEval) w) :
    (referAll w found body).usesEval = true ↔ found.usesEval = true ∨
      ∃ s ∈ body, s.Any (fun s _ => s.CallsEval) w := by
  induction body generalizing found with
  | nil => simp [referAll]
  | cons s body ih =>
    obtain ⟨hs, hbody⟩ := List.forall_mem_cons.mp h
    rw [referAll, ih hbody, hs, List.exists_mem_cons_iff, or_assoc]

/-- A call of `eval` in a statement is noticed. -/
theorem usesEval_refer : (s.refer w found).usesEval = true ↔ found.usesEval = true ∨
    s.Any (fun s _ => s.CallsEval) w := by
  induction s using Stmt.induct generalizing w found with
  | absent | function =>
    rw [refer, any_iff, CallsEval]
    simp [parts, expr?]
  | var name init =>
    rw [any_iff, CallsEval]
    by_cases hinit : init = .absent
    · subst hinit
      rw [refer]
      simp [parts, expr?, Expr.not_callsEval_absent]
    · rw [refer_var hinit, Expr.usesEval_refer]
      simp [parts, expr?, References.note]
  | expr value | ret value =>
    rw [refer, Expr.usesEval_refer, any_iff, CallsEval]
    simp [parts, expr?]
  | cond test thenBody elseBody ihthen ihelse =>
    rw [refer, usesEval_referAll fun s hs found => ihelse s hs,
      usesEval_referAll fun s hs found => ihthen s hs, Expr.usesEval_refer, any_iff, CallsEval]
    simp [parts, partsInWith, expr?, or_and_right, exists_or, or_assoc]
  | withObject object body ihbody =>
    rw [refer, usesEval_referAll fun s hs found => ihbody s hs, Expr.usesEval_refer, any_iff,
      CallsEval]
    simp [parts, partsInWith, expr?, or_assoc]
  | block body ihbody =>
    rw [refer, usesEval_referAll fun s hs found => ihbody s hs, any_iff, CallsEval]
    simp [parts, partsInWith, expr?]

end References

section Declarations

variable {inner? : Option Nat → Option Function} {d : Declared} {found : List Declared} {w : Bool}
  {s : Stmt} {body : List Stmt}

theorem declares_iff : s.Declares inner? d ↔
    (∃ name init, s = .var name init ∧ d = .var name) ∨
    ∃ index f, s = .function index ∧ inner? index = some f ∧ f.isAnonymous = false ∧
      d = .function f.name := by
  constructor
  · intro h
    cases h with
    | var => exact .inl ⟨_, _, rfl, rfl⟩
    | function hf hname => exact .inr ⟨_, _, rfl, hf, hname, rfl⟩
  · rintro (⟨name, init, rfl, rfl⟩ | ⟨index, f, rfl, hf, hname, rfl⟩)
    · exact .var
    · exact .function hf hname

theorem mem_declareAll (w : Bool)
    (h : ∀ s ∈ body, ∀ found, d ∈ s.declare inner? found ↔ d ∈ found ∨
      s.Any (fun s _ => s.Declares inner? d) w) :
    d ∈ declareAll inner? found body ↔ d ∈ found ∨
      ∃ s ∈ body, s.Any (fun s _ => s.Declares inner? d) w := by
  induction body generalizing found with
  | nil => simp [declareAll]
  | cons s body ih =>
    obtain ⟨hs, hbody⟩ := List.forall_mem_cons.mp h
    rw [declareAll, ih hbody, hs, List.exists_mem_cons_iff, or_assoc]

/-- The declarations in a statement are collected, besides those found before. -/
theorem mem_declare : d ∈ s.declare inner? found ↔ d ∈ found ∨
    s.Any (fun s _ => s.Declares inner? d) w := by
  induction s using Stmt.induct generalizing w found with
  | absent | expr | ret =>
    rw [declare, any_iff, declares_iff]
    simp [parts]
  | var name init =>
    rw [declare, any_iff, declares_iff]
    simp [parts, or_comm]
  | function index =>
    rw [declare, any_iff, declares_iff]
    cases hf : inner? index with
    | none => simp [parts, hf]
    | some f =>
      cases hname : f.isAnonymous with
      | true => simp [parts, hf, hname]
      | false => simp [parts, hf, hname, or_comm]
  | cond test thenBody elseBody ihthen ihelse =>
    rw [declare, mem_declareAll w fun s hs found => ihelse s hs,
      mem_declareAll w fun s hs found => ihthen s hs, any_iff, declares_iff]
    simp [parts, partsInWith, or_and_right, exists_or, or_assoc]
  | withObject object body ihbody =>
    -- declarations do not depend on `with`, but the places in its body are marked
    rw [declare, mem_declareAll true fun s hs found => ihbody s hs, any_iff, declares_iff]
    simp [parts, partsInWith]
  | block body ihbody =>
    rw [declare, mem_declareAll w fun s hs found => ihbody s hs, any_iff, declares_iff]
    simp [parts, partsInWith]

end Declarations

end Stmt

/-! ## Functions -/

namespace Text

theorem mem_distinctFrom {seen : Std.HashSet Text} {kept texts : List Text} {t : Text}
    (hseen : ∀ t, t ∈ seen ↔ t ∈ kept) :
    t ∈ distinctFrom seen kept texts ↔ t ∈ kept ∨ t ∈ texts := by
  -- `seen` is there for speed only: it holds what is kept
  induction texts generalizing seen kept with
  | nil => simp [distinctFrom]
  | cons u texts ih =>
    rw [distinctFrom]
    split
    · next hu =>
      have hkept : u ∈ kept := (hseen u).mp hu
      rw [ih hseen, List.mem_cons]
      grind
    · rw [ih fun t => by rw [Std.HashSet.mem_insert, beq_iff_eq, hseen, List.mem_cons, eq_comm]]
      simp only [List.mem_cons]
      tauto

theorem mem_distinct {texts : List Text} {t : Text} : t ∈ distinct texts ↔ t ∈ texts := by
  rw [distinct, List.mem_reverse, mem_distinctFrom fun t => by simp]
  simp

end Text

namespace Function

variable {f : Function} {n : Text}

/-- Something in the body of a function has a property. Bodies of inner functions are not part of
it. -/
def Any (P : Stmt → Bool → Prop) (f : Function) : Prop := ∃ s ∈ f.body, s.Any P false

/-- A use of a name in the body. -/
def Refers (f : Function) (r : Reference) : Prop :=
  f.Any fun s w => r.insideWith = w ∧ s.Refers r.name

/-- A call of `eval` in the body. -/
def CallsEval (f : Function) : Prop := f.Any fun s _ => s.CallsEval

/-- A declaration of a named inner function in the body. -/
def DeclaresFunction (f : Function) (n : Text) : Prop :=
  f.Any fun s _ => s.Declares f.inner? (.function n)

/-- A parameter, a variable or an inner function. -/
def Declares (f : Function) (n : Text) : Prop :=
  n ∈ f.params ∨ (f.Any fun s _ => s.Declares f.inner? (.var n)) ∨ f.DeclaresFunction n

theorem mem_references {r : Reference} : r ∈ f.references.toList ↔ f.Refers r := by
  rw [References.toList, List.mem_reverse, references,
    Stmt.mem_referAll fun s _ found => Stmt.mem_refer]
  simp [Refers, Any]

theorem usesEval_references : f.references.usesEval = true ↔ f.CallsEval := by
  rw [references, Stmt.usesEval_referAll fun s _ found => Stmt.usesEval_refer]
  simp [CallsEval, Any]

theorem mem_declared {d : Declared} :
    d ∈ f.declared ↔ f.Any fun s _ => s.Declares f.inner? d := by
  rw [declared, List.mem_reverse, Stmt.mem_declareAll false fun s _ found => Stmt.mem_declare]
  simp [Any]

theorem declares_iff : f.Declares n ↔
    n ∈ f.params ∨ Declared.var n ∈ f.declared ∨ Declared.function n ∈ f.declared := by
  rw [Declares, DeclaresFunction, mem_declared, mem_declared]

instance (f : Function) (r : Reference) : Decidable (f.Refers r) :=
  decidable_of_iff _ mem_references

instance (f : Function) : Decidable f.CallsEval := decidable_of_iff _ usesEval_references

instance (f : Function) (n : Text) : Decidable (f.DeclaresFunction n) :=
  decidable_of_iff _ mem_declared

instance (f : Function) (n : Text) : Decidable (f.Declares n) :=
  decidable_of_iff _ declares_iff.symm

theorem mem_functions_declarations : n ∈ f.declarations.functions ↔ f.DeclaresFunction n := by
  rw [DeclaresFunction, ← mem_declared, declarations, List.mem_filterMap]
  constructor
  · rintro ⟨d, hd, hn⟩
    cases d with
    | var name => cases hn
    | function name => exact Option.some.inj hn ▸ hd
  · exact fun h => ⟨_, h, rfl⟩

theorem mem_ordered_declarations : n ∈ f.declarations.ordered ↔ f.Declares n := by
  rw [declares_iff, declarations, Text.mem_distinct, List.mem_append, List.mem_map]
  refine or_congr_right ?_
  constructor
  · rintro ⟨d, hd, rfl⟩
    cases d with
    | var name => exact .inl hd
    | function name => exact .inr hd
  · rintro (h | h)
    · exact ⟨_, h, rfl⟩
    · exact ⟨_, h, rfl⟩

theorem contains_declarations : f.declarations.contains n = true ↔ f.Declares n := by
  rw [← mem_ordered_declarations, Declarations.contains, declarations, Std.HashSet.contains_ofList,
    List.contains_iff_mem]

theorem shadowsArguments_declarations : f.declarations.shadowsArguments = true ↔
    Text.ofString "arguments" ∈ f.params ∨ f.DeclaresFunction "arguments" := by
  rw [Declarations.shadowsArguments, Bool.or_eq_true, List.contains_iff_mem, List.contains_iff_mem,
    mem_functions_declarations]
  rfl

end Function

end Bytecode
