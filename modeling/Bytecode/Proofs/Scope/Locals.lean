import Mathlib
import Bytecode.Proofs.Scope.Preorder

/-!
# The names that a function declares

Declarations are hoisted: a name that is declared anywhere in the body of a function belongs to the
whole function, however deep the statement is nested. Functions inside are where this ends. The
list of locals that analysis leaves with a function has each of these names once, at the place where
it comes up first.

## Main definitions

* `Stmt.preorder`: a statement and all statements inside it
* `Function.declaredNames`: the names of declarations in a body, in order and with repetitions
* `Function.ListsLocals`: the list of locals has the names that a function declares

## Main results

* `Text.distinct_eq`: the first occurrences in a list of texts
* `Function.map_name_declared`: the declarations that are collected, in order
* `Function.Annotates.listsLocals`: the locals that analysis lists
-/

namespace Bytecode

/-! ### First occurrences -/

namespace Text

/-- What has been seen is what is kept. -/
theorem mem_insert_iff_of_seen {seen : Std.HashSet Text} {kept : List Text}
    (hseen : ∀ t, t ∈ seen ↔ t ∈ kept) (t u : Text) : u ∈ seen.insert t ↔ u ∈ t :: kept := by
  rw [Std.HashSet.mem_insert, beq_iff_eq, hseen, List.mem_cons, eq_comm]

/-- What has been seen is not kept again. -/
theorem distinctFrom_eq {seen : Std.HashSet Text} {kept : List Text}
    (hseen : ∀ t, t ∈ seen ↔ t ∈ kept) (texts : List Text) :
    distinctFrom seen kept texts =
      (texts.filter fun t => decide (t ∉ kept)).eraseDups.reverse ++ kept := by
  induction texts generalizing seen kept with
  | nil => rfl
  | cons t texts ih =>
    rw [distinctFrom]
    split
    · next ht =>
      have hkept : t ∈ kept := (hseen t).mp ht
      rw [ih hseen, List.filter_cons_of_neg (by simpa using hkept)]
    · next ht =>
      have hkept : t ∉ kept := fun hmem => ht ((hseen t).mpr hmem)
      -- what comes after `t` and is `t` again is left out with what was kept before
      have hrest : texts.filter (fun u => decide (u ∉ t :: kept)) =
          (texts.filter fun u => decide (u ∉ kept)).filter fun u => !u == t := by
        rw [List.filter_filter]
        refine List.filter_congr fun u _ => ?_
        by_cases hu : u = t <;> simp [hu]
      rw [ih (mem_insert_iff_of_seen hseen t), List.filter_cons_of_pos (by simpa using hkept),
        List.eraseDups_cons, hrest, List.reverse_cons, List.append_assoc, List.singleton_append]

theorem distinct_eq (texts : List Text) : distinct texts = texts.eraseDups := by
  have hall : (texts.filter fun t => decide (t ∉ ([] : List Text))) = texts :=
    List.filter_eq_self.mpr fun t _ => by simp
  rw [distinct, distinctFrom_eq (by simp), hall, List.append_nil, List.reverse_reverse]

theorem nodup_distinctFrom {seen : Std.HashSet Text} {kept : List Text}
    (hseen : ∀ t, t ∈ seen ↔ t ∈ kept) (hkept : kept.Nodup) (texts : List Text) :
    (distinctFrom seen kept texts).Nodup := by
  induction texts generalizing seen kept with
  | nil => exact hkept
  | cons t texts ih =>
    rw [distinctFrom]
    split
    · exact ih hseen hkept
    · next ht =>
      have hnew : t ∉ kept := fun hmem => ht ((hseen t).mpr hmem)
      exact ih (mem_insert_iff_of_seen hseen t) (List.nodup_cons.mpr ⟨hnew, hkept⟩)

theorem nodup_distinct (texts : List Text) : (distinct texts).Nodup :=
  List.nodup_reverse.mpr (nodup_distinctFrom (by simp) List.nodup_nil texts)

end Text

/-! ### Declarations in order -/

mutual

/-- A statement and all statements inside it, in source order. -/
def Stmt.preorder : Stmt → List Stmt
  | .absent => [.absent]
  | .var name init => [.var name init]
  | .function index => [.function index]
  | .expr value => [.expr value]
  | .ret value => [.ret value]
  | .cond test thenBody elseBody =>
    .cond test thenBody elseBody :: (bodyPreorder thenBody ++ bodyPreorder elseBody)
  | .withObject object body => .withObject object body :: bodyPreorder body
  | .block body => .block body :: bodyPreorder body

/-- The statements of a body and all statements inside them, in source order. -/
def bodyPreorder : List Stmt → List Stmt
  | [] => []
  | s :: rest => s.preorder ++ bodyPreorder rest

end

namespace Stmt

/-- The declaration that a statement is, apart from those inside it. -/
def declared? (inner? : Option Nat → Option Function) : Stmt → Option Declared
  | .var name _ => some (.var name)
  | .function index =>
    (inner? index).bind fun f => if f.isAnonymous then none else some (.function f.name)
  | _ => none

variable {inner? : Option Nat → Option Function}

theorem declareAll_eq {body : List Stmt}
    (h : ∀ s ∈ body, ∀ found, s.declare inner? found =
      (s.preorder.filterMap (declared? inner?)).reverse ++ found) (found : List Declared) :
    declareAll inner? found body =
      ((bodyPreorder body).filterMap (declared? inner?)).reverse ++ found := by
  induction body generalizing found with
  | nil => rfl
  | cons s body ih =>
    obtain ⟨hs, hbody⟩ := List.forall_mem_cons.mp h
    rw [declareAll, hs, ih hbody, bodyPreorder, List.filterMap_append, List.reverse_append,
      List.append_assoc]

/-- The declarations in a statement are collected in source order. -/
theorem declare_eq (s : Stmt) (found : List Declared) :
    s.declare inner? found = (s.preorder.filterMap (declared? inner?)).reverse ++ found := by
  induction s using Stmt.induct generalizing found with
  | absent | expr | ret => rfl
  | var name init => rfl
  | function index =>
    rw [declare, preorder, List.filterMap_cons, declared?]
    cases inner? index with
    | none => rfl
    | some f => cases hname : f.isAnonymous <;> simp [hname]
  | cond test thenBody elseBody ihthen ihelse =>
    rw [declare, declareAll_eq ihthen, declareAll_eq ihelse, preorder, List.filterMap_cons_none rfl,
      List.filterMap_append, List.reverse_append, List.append_assoc]
  | withObject object body ih =>
    rw [declare, declareAll_eq ih]
    rfl
  | block body ih =>
    rw [declare, declareAll_eq ih]
    rfl

end Stmt

namespace Function

/-- The names that are declared in the body of a function, in source order and with repetitions:
variables, and functions that have a name. -/
def declaredNames (f : Function) : List Text :=
  ((bodyPreorder f.body).filterMap (Stmt.declared? f.inner?)).map Declared.name

theorem map_name_declared (f : Function) : f.declared.map Declared.name = f.declaredNames := by
  rw [declared, Stmt.declareAll_eq fun s _ => s.declare_eq, List.append_nil, List.reverse_reverse]
  rfl

/-- The names that a function declares, its parameters first. -/
def ownNames (f : Function) : List Text := f.params ++ f.declaredNames

theorem ordered_declarations (f : Function) :
    f.declarations.ordered = Text.distinct f.ownNames := by
  rw [ownNames, ← map_name_declared]
  rfl

/-- The locals of `f'` are the names that `f` declares: each one once, where it comes up first. They
are those by which names are resolved, and are declared in `f` itself, not in a function inside. -/
structure ListsLocals (f f' : Function) : Prop where
  locals_eq : f'.locals = f.ownNames.eraseDups
  nodup : f'.locals.Nodup
  mem_iff : ∀ n, n ∈ f'.locals ↔ f.declarations.contains n = true
  declares_iff : ∀ n, n ∈ f'.locals ↔ f.Declares n

/-- There are as many locals as different names. -/
theorem ListsLocals.length_eq {f f' : Function} (h : f.ListsLocals f') :
    f'.locals.length = f.ownNames.toFinset.card := by
  rw [← List.toFinset_card_of_nodup h.nodup, h.locals_eq]
  congr 1
  ext n
  rw [List.mem_toFinset, List.mem_toFinset, List.mem_eraseDups]

-- declarations in the branches and in a block belong to the function, those of `g` do not
example :
    let g : Function := { name := "g", params := ["y"], body := [.var "z" .absent] }
    let f : Function := {
      params := ["x"]
      body := [.cond .absent [.block [.var "b" .absent]] [.var "x" .absent], .function (some 0)]
      functions := [g] }
    f.ownNames.eraseDups = ["x", "b", "g"] := by decide

/-- **The locals that analysis lists.** -/
theorem Annotates.listsLocals {options : Options} {f f' : Function} (h : Annotates options f f') :
    f.ListsLocals f' := by
  obtain ⟨functions, strict, rfl⟩ := h
  have hlocals : ({ f with functions, facts := some (f.derivedFacts options strict) } :
      Function).locals = f.declarations.ordered := rfl
  refine ⟨?_, ?_, fun n => ?_, fun n => ?_⟩
  · rw [hlocals, ordered_declarations, Text.distinct_eq]
  · rw [hlocals, ordered_declarations]
    exact Text.nodup_distinct _
  · rw [hlocals, mem_ordered_declarations, contains_declarations]
  · rw [hlocals, mem_ordered_declarations]

end Function

end Bytecode
