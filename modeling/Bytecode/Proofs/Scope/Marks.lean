import Mathlib
import Bytecode.Proofs.Scope.Occurrences
import Bytecode.Scope.Walk

/-!
# What is noted about functions

What analysis finds out about a function, by rules that follow the tree. A name leaves a function
that uses it and does not bind it, and it enters the function around. What is noted about a function
depends on the names used in it and on those that enter it from the inside; it does not depend on
what stands around the function, nor on the order in which names are looked for.

## Main definitions

* `Function.Binds`: the names at which a lookup stops
* `Function.Mentions`: the uses of names that have to be looked for
* `Function.Leaves`, `Function.Enters`: the names that leave a function, and those that come from
  the inside
* `Function.ReachesEval`: a call of `eval` in a function or inside it
* `Function.Notes`: what is noted about a function

## Main results

* `Function.leaves_iff`: names leave through one function after the other
* `Function.reachesEval_iff`: calls of `eval` are inside, or in the function itself
-/

namespace Bytecode

namespace Function

/-- Induction on functions, with a hypothesis for each function inside. -/
@[elab_as_elim]
theorem induct {motive : Function → Prop}
    (h : ∀ f : Function, (∀ g ∈ f.functions, motive g) → motive f) (f : Function) : motive f :=
  @Function.rec motive (fun functions => ∀ g ∈ functions, motive g)
    (fun _ _ _ _ _ _ _ _ _ ih => h _ ih) (fun _ hg => absurd hg List.not_mem_nil)
    (fun _ _ hg hrest => List.forall_mem_cons.mpr ⟨hg, hrest⟩) f

/-- A path leads on from the function at its first position. -/
theorem at?_cons {f g : Function} {i : Nat} (hg : f.functions[i]? = some g) (path : List Nat) :
    f.at? (i :: path) = g.at? path := by
  rw [at?, hg, Option.bind_some]

/-! ## Names that stop -/

/-- Whether a name means the arguments of the function: nothing that could hold arguments has that
name. -/
def IsImplicit (f : Function) (n : Text) : Prop :=
  n = Text.ofString "arguments" ∧ n ∉ f.params ∧ ¬ f.DeclaresFunction n

/-- A use of a name in the body of a function, other than of its implicit `arguments`. -/
def Mentions (f : Function) (r : Reference) : Prop := f.Refers r ∧ ¬ f.IsImplicit r.name

/-- The names at which a lookup stops: those declared, and the own name of a function
expression. -/
def Binds (f : Function) (n : Text) : Prop :=
  f.Declares n ∨ f.form = .expression ∧ f.name ≠ [] ∧ f.name = n

instance (f : Function) (n : Text) : Decidable (f.IsImplicit n) :=
  inferInstanceAs (Decidable (_ ∧ _ ∧ _))

instance (f : Function) (r : Reference) : Decidable (f.Mentions r) :=
  inferInstanceAs (Decidable (_ ∧ _))

instance (f : Function) (n : Text) : Decidable (f.Binds n) :=
  inferInstanceAs (Decidable (_ ∨ _))

variable {f : Function} {n : Text}

theorem isSelf_iff : f.isSelf n = true ↔ f.form = .expression ∧ f.name ≠ [] ∧ f.name = n := by
  simp [isSelf, isAnonymous, and_assoc]

theorem binds_iff : f.Binds n ↔ f.Declares n ∨ f.isSelf n = true := by
  rw [Binds, isSelf_iff]

theorem isImplicit_iff : f.IsImplicit n ↔
    (n == Text.ofString "arguments" && !f.declarations.shadowsArguments) = true := by
  rw [Bool.and_eq_true, beq_iff_eq, Bool.not_eq_true', ← Bool.not_eq_true,
    shadowsArguments_declarations, not_or]
  refine and_congr_right fun hn => ?_
  rw [hn]

/-- A program is no function expression, so it has no name of its own. -/
theorem isSelf_of_isProgram (hprogram : f.isProgram = true) : f.isSelf n = false := by
  rw [isSelf, eq_of_beq hprogram]
  rfl

/-! ## Names that leave -/

/-- A name leaves a function: it is used there, or leaves a function inside, and it is not bound. A
program is the end of all names from inside it. -/
inductive Leaves : Function → Text → Prop
  | own {f : Function} {n : Text} {w : Bool} (huse : f.Mentions ⟨n, w⟩) (hbinds : ¬ f.Binds n) :
    Leaves f n
  | inner {f g : Function} {n : Text} (hg : g ∈ f.functions) (h : Leaves g n)
    (hprogram : f.isProgram = false) (hbinds : ¬ f.Binds n) : Leaves f n

/-- A name comes into a function from the inside. -/
def Enters (f : Function) (n : Text) : Prop := ∃ g ∈ f.functions, g.Leaves n

/-- A call of `eval` in a function or inside it. -/
def ReachesEval (f : Function) : Prop := ∃ path g, f.at? path = some g ∧ g.CallsEval

theorem leaves_iff : f.Leaves n ↔
    ((∃ w, f.Mentions ⟨n, w⟩) ∨ f.isProgram = false ∧ f.Enters n) ∧ ¬ f.Binds n := by
  constructor
  · intro h
    cases h with
    | own huse hbinds => exact ⟨.inl ⟨_, huse⟩, hbinds⟩
    | inner hg h hprogram hbinds => exact ⟨.inr ⟨hprogram, _, hg, h⟩, hbinds⟩
  · rintro ⟨⟨w, huse⟩ | ⟨hprogram, g, hg, h⟩, hbinds⟩
    · exact .own huse hbinds
    · exact .inner hg h hprogram hbinds

theorem reachesEval_iff :
    f.ReachesEval ↔ f.CallsEval ∨ ∃ g ∈ f.functions, g.ReachesEval := by
  constructor
  · rintro ⟨path, k, hk, heval⟩
    cases path with
    | nil => exact .inl (Option.some.inj hk ▸ heval)
    | cons i path =>
      obtain ⟨g, hg, hk⟩ := Option.bind_eq_some_iff.mp hk
      exact .inr ⟨g, List.mem_of_getElem? hg, path, k, hk, heval⟩
  · rintro (heval | ⟨g, hg, path, k, hk, heval⟩)
    · exact ⟨[], f, rfl, heval⟩
    · obtain ⟨i, hi⟩ := List.mem_iff_getElem?.mp hg
      exact ⟨i :: path, k, (at?_cons hi path).trans hk, heval⟩

/-! ## Marks -/

/-- What a use of a name notes about the function in which it stands. -/
def NotesOwn (f : Function) (r : Reference) : Mark → Prop
  | .arguments => f.IsImplicit r.name
  | .captured => ¬ f.IsImplicit r.name ∧ f.Declares r.name ∧
    r.insideWith = true ∧ f.isProgram = false
  | .self => ¬ f.IsImplicit r.name ∧ ¬ f.Declares r.name ∧ f.isSelf r.name = true
  | .outside => ¬ f.IsImplicit r.name ∧ ¬ f.Binds r.name
  | .eval => False
  | .innerEval => False

/-- What a name notes about a function that it enters. -/
def NotesInner (f : Function) (n : Text) : Mark → Prop
  | .captured => f.isProgram = false ∧ f.Binds n
  | .self => ¬ f.Declares n ∧ f.isSelf n = true
  | .outside => ¬ f.Binds n
  | .arguments => False
  | .eval => False
  | .innerEval => False

section Cases

variable {r : Reference} {m : Mark}

theorem notesOwn_of_implicit (himplicit : f.IsImplicit r.name) :
    f.NotesOwn r m ↔ m = .arguments := by
  cases m <;> simp [NotesOwn, himplicit]

theorem notesOwn_of_declares (himplicit : ¬ f.IsImplicit r.name) (hdeclares : f.Declares r.name) :
    f.NotesOwn r m ↔ m = .captured ∧ r.insideWith = true ∧ f.isProgram = false := by
  cases m <;> simp [NotesOwn, himplicit, hdeclares, binds_iff]

theorem notesOwn_of_isSelf (himplicit : ¬ f.IsImplicit r.name) (hdeclares : ¬ f.Declares r.name)
    (hself : f.isSelf r.name = true) : f.NotesOwn r m ↔ m = .self := by
  cases m <;> simp [NotesOwn, himplicit, hdeclares, hself, binds_iff]

theorem notesOwn_of_not_binds (himplicit : ¬ f.IsImplicit r.name) (hbinds : ¬ f.Binds r.name) :
    f.NotesOwn r m ↔ m = .outside := by
  have hnone := not_or.mp (binds_iff.not.mp hbinds)
  cases m <;> simp [NotesOwn, himplicit, hbinds, hnone]

theorem notesInner_of_isProgram (hprogram : f.isProgram = true) :
    f.NotesInner n m ↔ m = .outside ∧ ¬ f.Declares n := by
  cases m <;> simp [NotesInner, hprogram, binds_iff, isSelf_of_isProgram hprogram]

theorem notesInner_of_declares (hprogram : f.isProgram = false) (hdeclares : f.Declares n) :
    f.NotesInner n m ↔ m = .captured := by
  cases m <;> simp [NotesInner, hprogram, hdeclares, binds_iff]

theorem notesInner_of_isSelf (hprogram : f.isProgram = false) (hdeclares : ¬ f.Declares n)
    (hself : f.isSelf n = true) : f.NotesInner n m ↔ m = .captured ∨ m = .self := by
  cases m <;> simp [NotesInner, hprogram, hdeclares, hself, binds_iff]

theorem notesInner_of_not_binds (hbinds : ¬ f.Binds n) : f.NotesInner n m ↔ m = .outside := by
  have hnone := not_or.mp (binds_iff.not.mp hbinds)
  cases m <;> simp [NotesInner, hbinds, hnone]

end Cases

/-- What is noted about a function. -/
inductive Notes (f : Function) : Mark → Prop
  | own {r : Reference} {m : Mark} (hr : f.Refers r) (h : f.NotesOwn r m) : Notes f m
  | inner {n : Text} {m : Mark} (hn : f.Enters n) (h : f.NotesInner n m) : Notes f m
  | eval (h : f.CallsEval) : Notes f .eval
  | innerEval {g : Function} (hg : g ∈ f.functions) (h : g.ReachesEval) : Notes f .innerEval

open Classical in
/-- What is found out about a function that is strict or not. -/
noncomputable def findings (f : Function) (strict : Bool) : Findings where
  declarations := f.declarations
  strict
  manyParams := maxNamedParams < f.params.length
  arguments := decide (f.Notes .arguments)
  captured := decide (f.Notes .captured)
  self := decide (f.Notes .self)
  outside := decide (f.Notes .outside)
  eval := decide (f.Notes .eval)
  innerEval := decide (f.Notes .innerEval)

end Function

end Bytecode
