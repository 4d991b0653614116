import Mathlib
import Bytecode.Proofs.Scope.Analysis

/-!
# Where names are resolved

A name that is used in a function is looked for there, then in the function around it, and so on. It
arrives at a function when no function on the way binds it. The rules hand names from the inside to
the outside, one function at a time, and forget where they come from; still, the attributes that
analysis derives say exactly what arrives at a function from all the functions in it.

## Main definitions

* `Function.Arrives`: a name that is looked for in a function, from a place inside it

## Main results

* `Function.enters_iff_arrives`: what leaves the functions inside a function arrives at it
* `Function.analyse_needsParentScope`: the functions that need the scope around them
* `Function.analyse_hasScopeBlock_usesSelfSymbol`: the functions that need a scope record, or their
  own name
-/

namespace Bytecode

namespace Function

/-- The name `n`, used in the function at `path` inside `f`, is bound by no function on the way from
there to `f`, which is itself left out. -/
def Arrives (f : Function) (path : List Nat) (n : Text) : Prop :=
  ∃ g w, f.at? path = some g ∧ g.Mentions ⟨n, w⟩ ∧
    ∀ p h, p <+: path → p ≠ [] → f.at? p = some h → ¬ h.Binds n

/-- No function in the tree is a program. -/
def ProgramFree (f : Function) : Prop := ∀ path g, f.at? path = some g → g.isProgram = false

variable {f : Function} {n : Text} {path : List Nat} {i : Nat}

/-! ## Places in a tree -/

theorem at?_append (p q : List Nat) (f : Function) : f.at? (p ++ q) = (f.at? p).bind (at? q) := by
  induction p generalizing f with
  | nil => rfl
  | cons i p ih =>
    rw [List.cons_append, at?, at?]
    cases f.functions[i]? with
    | none => rfl
    | some g => exact ih g

theorem arrives_nil : f.Arrives [] n ↔ ∃ w, f.Mentions ⟨n, w⟩ := by
  constructor
  · rintro ⟨g, w, hg, hmentions, -⟩
    exact ⟨w, Option.some.inj hg ▸ hmentions⟩
  · rintro ⟨w, hmentions⟩
    refine ⟨f, w, rfl, hmentions, fun p h hp hne => ?_⟩
    exact absurd (List.prefix_nil.mp hp) hne

/-- A name arrives from further inside through one of the functions inside, which does not
bind it. -/
theorem arrives_cons : f.Arrives (i :: path) n ↔
    ∃ g, f.functions[i]? = some g ∧ g.Arrives path n ∧ ¬ g.Binds n := by
  constructor
  · rintro ⟨k, w, hk, hmentions, hway⟩
    obtain ⟨g, hg, hk⟩ := Option.bind_eq_some_iff.mp hk
    -- the way from `g` inwards is the way from `f`, less its first step
    have hinside : ∀ p h, p <+: path → g.at? p = some h → ¬ h.Binds n := by
      intro p h hp hh
      exact hway (i :: p) h (List.cons_prefix_cons.mpr ⟨rfl, hp⟩) (List.cons_ne_nil i p)
        ((at?_cons hg p).trans hh)
    refine ⟨g, hg, ⟨k, w, hk, hmentions, fun p h hp _ => hinside p h hp⟩, ?_⟩
    exact hinside [] g List.nil_prefix rfl
  · rintro ⟨g, hg, ⟨k, w, hk, hmentions, hway⟩, hbinds⟩
    refine ⟨k, w, (at?_cons hg path).trans hk, hmentions, fun p h hp hne hh => ?_⟩
    cases p with
    | nil => exact absurd rfl hne
    | cons j p =>
      obtain ⟨rfl, hbelow⟩ := List.cons_prefix_cons.mp hp
      rw [at?_cons hg] at hh
      -- the function just below is the start of the way inside it
      cases p with
      | nil => exact Option.some.inj hh ▸ hbinds
      | cons l p => exact hway (l :: p) h hbelow (List.cons_ne_nil l p) hh

theorem ProgramFree.inner {g : Function} (h : f.ProgramFree) (hg : g ∈ f.functions) :
    g.ProgramFree := by
  obtain ⟨i, hi⟩ := List.mem_iff_getElem?.mp hg
  intro path k hk
  exact h (i :: path) k ((at?_cons hi path).trans hk)

/-! ## What leaves functions -/

theorem exists_arrives_iff : (∃ path, f.Arrives path n) ↔
    (∃ w, f.Mentions ⟨n, w⟩) ∨ ∃ i path, f.Arrives (i :: path) n := by
  rw [← arrives_nil]
  constructor
  · rintro ⟨_ | ⟨i, path⟩, h⟩
    · exact .inl h
    · exact .inr ⟨i, path, h⟩
  · rintro (h | ⟨i, path, h⟩)
    · exact ⟨[], h⟩
    · exact ⟨i :: path, h⟩

theorem enters_iff_of
    (h : ∀ g ∈ f.functions, g.Leaves n ↔ (∃ path, g.Arrives path n) ∧ ¬ g.Binds n) :
    f.Enters n ↔ ∃ i path, f.Arrives (i :: path) n := by
  constructor
  · rintro ⟨g, hg, hn⟩
    obtain ⟨⟨path, harrives⟩, hbinds⟩ := (h g hg).mp hn
    obtain ⟨i, hi⟩ := List.mem_iff_getElem?.mp hg
    exact ⟨i, path, arrives_cons.mpr ⟨g, hi, harrives, hbinds⟩⟩
  · rintro ⟨i, path, harrives⟩
    obtain ⟨g, hi, harrives, hbinds⟩ := arrives_cons.mp harrives
    have hg : g ∈ f.functions := List.mem_of_getElem? hi
    exact ⟨g, hg, (h g hg).mpr ⟨⟨path, harrives⟩, hbinds⟩⟩

/-- What leaves a function has arrived at it and is not bound there. -/
theorem leaves_iff_arrives (hprogram : f.ProgramFree) :
    f.Leaves n ↔ (∃ path, f.Arrives path n) ∧ ¬ f.Binds n := by
  induction f using Function.induct with
  | h f ih =>
    have hinner := enters_iff_of fun g hg => ih g hg (hprogram.inner hg)
    rw [leaves_iff, and_iff_right (hprogram [] f rfl), hinner, exists_arrives_iff]

/-- What leaves the functions inside a function arrives at it. -/
theorem enters_iff_arrives (hprogram : ∀ g ∈ f.functions, g.ProgramFree) :
    f.Enters n ↔ ∃ i path, f.Arrives (i :: path) n :=
  enters_iff_of fun g hg => leaves_iff_arrives (hprogram g hg)

/-! ## Attributes -/

section Attributes

variable {options : Options} {strict : Bool}

theorem notes_eval_or_innerEval : f.Notes .eval ∨ f.Notes .innerEval ↔ f.ReachesEval := by
  rw [reachesEval_iff]
  constructor
  · rintro (h | h)
    · cases h with
      | own _ h => exact h.elim
      | inner _ h => exact h.elim
      | eval h => exact .inl h
    · cases h with
      | own _ h => exact h.elim
      | inner _ h => exact h.elim
      | innerEval hg h => exact .inr ⟨_, hg, h⟩
  · rintro (h | ⟨g, hg, h⟩)
    · exact .inl (.eval h)
    · exact .inr (.innerEval hg h)

/-- A mark that names leave is left by those used in the function or by those from inside. -/
theorem notes_iff {m : Mark} (hnames : m ≠ .eval ∧ m ≠ .innerEval) : f.Notes m ↔
    (∃ n w, f.Refers ⟨n, w⟩ ∧ f.NotesOwn ⟨n, w⟩ m) ∨ ∃ n, f.Enters n ∧ f.NotesInner n m := by
  constructor
  · intro h
    cases h with
    | own hr h => exact .inl ⟨_, _, hr, h⟩
    | inner hn h => exact .inr ⟨_, hn, h⟩
    | eval => exact absurd rfl hnames.1
    | innerEval => exact absurd rfl hnames.2
  · rintro (⟨n, w, hr, h⟩ | ⟨n, hn, h⟩)
    · exact .own hr h
    · exact .inner hn h

variable (hprogram : ∀ g ∈ f.functions, g.ProgramFree)

include hprogram

theorem notes_outside_iff :
    f.Notes .outside ↔ ∃ n, (∃ path, f.Arrives path n) ∧ ¬ f.Binds n := by
  rw [notes_iff (by decide)]
  simp only [exists_arrives_iff, ← enters_iff_arrives hprogram, Mentions, NotesOwn, NotesInner,
    or_and_right, exists_or, exists_and_right, and_assoc]

theorem notes_captured_iff : f.Notes .captured ↔
    f.isProgram = false ∧ ((∃ n, f.Mentions ⟨n, true⟩ ∧ f.Declares n) ∨
      ∃ n, (∃ i path, f.Arrives (i :: path) n) ∧ f.Binds n) := by
  rw [notes_iff (by decide)]
  simp only [← enters_iff_arrives hprogram, Mentions, NotesOwn, NotesInner]
  constructor
  · rintro (⟨n, w, hrefers, himplicit, hdeclares, rfl, hfunction⟩ | ⟨n, hn, hfunction, hbinds⟩)
    · exact ⟨hfunction, .inl ⟨n, ⟨hrefers, himplicit⟩, hdeclares⟩⟩
    · exact ⟨hfunction, .inr ⟨n, hn, hbinds⟩⟩
  · rintro ⟨hfunction, ⟨n, ⟨hrefers, himplicit⟩, hdeclares⟩ | ⟨n, hn, hbinds⟩⟩
    · exact .inl ⟨n, true, hrefers, himplicit, hdeclares, rfl, hfunction⟩
    · exact .inr ⟨n, hn, hfunction, hbinds⟩

theorem notes_self_iff (hform : f.form = .expression) (hname : f.name ≠ [])
    (hdeclares : ¬ f.Declares f.name) :
    f.Notes .self ↔ ∃ path, f.Arrives path f.name := by
  rw [notes_iff (by decide), exists_arrives_iff, ← enters_iff_arrives hprogram]
  have hself : f.isSelf f.name = true := isSelf_iff.mpr ⟨hform, hname, rfl⟩
  constructor
  · -- the only name by which the function is meant is its own
    rintro (⟨n, w, hrefers, himplicit, -, hn⟩ | ⟨n, henters, -, hn⟩)
    · obtain ⟨-, -, rfl⟩ := isSelf_iff.mp hn
      exact .inl ⟨w, hrefers, himplicit⟩
    · obtain ⟨-, -, rfl⟩ := isSelf_iff.mp hn
      exact .inr henters
  · rintro (⟨w, hrefers, himplicit⟩ | henters)
    · exact .inl ⟨f.name, w, hrefers, himplicit, hdeclares, hself⟩
    · exact .inr ⟨f.name, henters, hdeclares, hself⟩

theorem needsParentScope_deriveAttributes :
    (f.deriveAttributes options (f.findings strict)).needsParentScope = true ↔
      f.ReachesEval ∨ ∃ n, (∃ path, f.Arrives path n) ∧ ¬ f.Binds n := by
  simp only [deriveAttributes, findings, Bool.or_eq_true, decide_eq_true_eq]
  rw [notes_outside_iff hprogram, notes_eval_or_innerEval, or_comm]

theorem hasScopeBlock_deriveAttributes :
    (f.deriveAttributes options (f.findings strict)).hasScopeBlock = true ↔
      f.ReachesEval ∨ 125 < f.params.length ∨ f.isProgram = false ∧
        ((∃ n, f.Mentions ⟨n, true⟩ ∧ f.Declares n) ∨
          ∃ n, (∃ i path, f.Arrives (i :: path) n) ∧ f.Binds n) := by
  simp only [deriveAttributes, findings, Bool.or_eq_true, decide_eq_true_eq]
  rw [notes_captured_iff hprogram, notes_eval_or_innerEval, maxNamedParams, or_assoc, or_comm,
    or_assoc]

theorem usesSelfSymbol_deriveAttributes :
    (f.deriveAttributes options (f.findings strict)).usesSelfSymbol = true ↔
      f.form = .expression ∧ f.name ≠ [] ∧ ¬ f.Declares f.name ∧
        (f.ReachesEval ∨ ∃ path, f.Arrives path f.name) := by
  simp only [deriveAttributes, findings, Bool.and_eq_true, Bool.or_eq_true, beq_iff_eq, isAnonymous,
    Bool.not_eq_true', List.isEmpty_eq_false_iff, and_assoc, decide_eq_true_eq]
  refine and_congr_right fun hform => and_congr_right fun hname => ?_
  rw [← Bool.not_eq_true, contains_declarations]
  refine and_congr_right fun hdeclares => ?_
  rw [notes_self_iff hprogram hform hname hdeclares, notes_eval_or_innerEval, or_comm]

end Attributes

/-! ## Analysed trees -/

/-- Only the root of a tree may be a program, so there is none inside any of its functions. -/
theorem programFree_of_mem {root g : Function}
    (hprogram : ∀ path f, root.at? path = some f → f.isProgram = true → path = [])
    (hf : root.at? path = some f) (hg : g ∈ f.functions) : g.ProgramFree := by
  obtain ⟨i, hi⟩ := List.mem_iff_getElem?.mp hg
  intro inside k hk
  have hroot : root.at? (path ++ i :: inside) = some k := by
    rw [at?_append, hf, Option.bind_some, at?_cons hi, hk]
  cases hisProgram : k.isProgram with
  | false => rfl
  | true => exact absurd (hprogram _ k hroot hisProgram) (by simp)

/-- Analysis gives every function of a tree its derived attributes. -/
theorem exists_analyse_attributes {root : Function} (hfacts : root.facts = none)
    (context : Context) : ∃ root' context', root.analyse context = .ok root' context' ∧
      ∀ path f, root.at? path = some f → ∃ f' strict, root'.at? path = some f' ∧ f'.attributes =
        .ok (f.deriveAttributes context.options (f.findings strict)) := by
  obtain ⟨context', hrun⟩ := exists_analyse hfacts context
  refine ⟨_, context', hrun, fun path f hf => ?_⟩
  refine ⟨_, f.strict || root.strictAround context.options.strict path, at?_annotated hf, ?_⟩
  rw [attributes, facts_annotated]
  rfl

/-- **A function needs the scope around it** exactly when `eval` is called in it, or when a name
arrives at it that it does not bind: no function binds the name, from the one that uses it up to
this one. -/
theorem analyse_needsParentScope {root : Function} (hfacts : root.facts = none)
    (hprogram : ∀ path f, root.at? path = some f → f.isProgram = true → path = [])
    (context : Context) : ∃ root' context', root.analyse context = .ok root' context' ∧
      ∀ path f, root.at? path = some f → ∃ f' a, root'.at? path = some f' ∧ f'.attributes = .ok a ∧
        (a.needsParentScope = true ↔
          f.ReachesEval ∨ ∃ n, (∃ inside, f.Arrives inside n) ∧ ¬ f.Binds n) := by
  obtain ⟨root', context', hrun, hattributes⟩ := exists_analyse_attributes hfacts context
  refine ⟨root', context', hrun, fun path f hf => ?_⟩
  obtain ⟨f', strict, hf', ha⟩ := hattributes path f hf
  exact ⟨f', _, hf', ha,
    needsParentScope_deriveAttributes fun g hg => programFree_of_mem hprogram hf hg⟩

/-- A program with a function `outer` of a parameter `x`, in which a function expression `again`
adds `x` to a call of itself. -/
def closureProgram : Function where
  form := .program
  body := [.function (some 0)]
  functions := [{
    name := "outer"
    params := ["x"]
    body := [.ret (.function (some 0))]
    functions := [{
      form := .expression
      name := "again"
      body := [.ret (.binary .add (.name "x") (.call (.name "again") []))] }] }]

theorem closureProgram_onlyRoot (path : List Nat) (f : Function)
    (hf : closureProgram.at? path = some f) (hprogram : f.isProgram = true) : path = [] := by
  -- there are three places in the tree: `[]`, `[0]` and `[0, 0]`
  rcases path with _ | ⟨_ | i, _ | ⟨_ | j, _ | ⟨k, path⟩⟩⟩
  · rfl
  all_goals cases hf
  all_goals cases hprogram

theorem closureProgram_needsParentScope : ∃ root' context' f a,
    closureProgram.analyse {} = .ok root' context' ∧ root'.at? [0, 0] = some f ∧
      f.attributes = .ok a ∧ a.needsParentScope = true := by
  obtain ⟨root', context', hrun, hneeds⟩ :=
    analyse_needsParentScope rfl closureProgram_onlyRoot {}
  obtain ⟨f', a, hf', ha, hiff⟩ := hneeds [0, 0] _ rfl
  refine ⟨root', context', f', a, hrun, hf', ha, hiff.mpr (.inr ⟨"x", ⟨[], ?_⟩, ?_⟩)⟩
  · exact arrives_nil.mpr ⟨false, by decide⟩
  · decide

/-- **A function keeps its variables in a scope record** exactly when `eval` is called in it, when
it has too many parameters, or when one of its names is used where only a record reaches: in the
body of a `with` statement, or in a function inside it. **A function expression is given its own
name** exactly when it does not declare that name itself, and `eval` is called in it or the name
arrives at it. -/
theorem analyse_hasScopeBlock_usesSelfSymbol {root : Function} (hfacts : root.facts = none)
    (hprogram : ∀ path f, root.at? path = some f → f.isProgram = true → path = [])
    (context : Context) : ∃ root' context', root.analyse context = .ok root' context' ∧
      ∀ path f, root.at? path = some f → ∃ f' a, root'.at? path = some f' ∧ f'.attributes = .ok a ∧
        (a.hasScopeBlock = true ↔ f.ReachesEval ∨ 125 < f.params.length ∨ f.isProgram = false ∧
          ((∃ n, f.Mentions ⟨n, true⟩ ∧ f.Declares n) ∨
            ∃ n, (∃ i inside, f.Arrives (i :: inside) n) ∧ f.Binds n)) ∧
        (a.usesSelfSymbol = true ↔ f.form = .expression ∧ f.name ≠ [] ∧ ¬ f.Declares f.name ∧
          (f.ReachesEval ∨ ∃ inside, f.Arrives inside f.name)) := by
  obtain ⟨root', context', hrun, hattributes⟩ := exists_analyse_attributes hfacts context
  refine ⟨root', context', hrun, fun path f hf => ?_⟩
  obtain ⟨f', strict, hf', ha⟩ := hattributes path f hf
  have hinner : ∀ g ∈ f.functions, g.ProgramFree := fun g hg => programFree_of_mem hprogram hf hg
  exact ⟨f', _, hf', ha, hasScopeBlock_deriveAttributes hinner,
    usesSelfSymbol_deriveAttributes hinner⟩

theorem closureProgram_hasScopeBlock_usesSelfSymbol : ∃ root' context' outer a again b,
    closureProgram.analyse {} = .ok root' context' ∧
      root'.at? [0] = some outer ∧ outer.attributes = .ok a ∧ a.hasScopeBlock = true ∧
      root'.at? [0, 0] = some again ∧ again.attributes = .ok b ∧ b.usesSelfSymbol = true := by
  obtain ⟨root', context', hrun, hattributes⟩ :=
    analyse_hasScopeBlock_usesSelfSymbol rfl closureProgram_onlyRoot {}
  obtain ⟨outer, a, houter, ha, hscope, -⟩ := hattributes [0] _ rfl
  obtain ⟨again, b, hagain, hb, -, hself⟩ := hattributes [0, 0] _ rfl
  refine ⟨root', context', outer, a, again, b, hrun, houter, ha, hscope.mpr ?_, hagain, hb,
    hself.mpr ?_⟩
  · refine .inr (.inr ⟨by decide, .inr ⟨"x", ⟨0, [], ?_⟩, by decide⟩⟩)
    exact arrives_cons.mpr ⟨_, rfl, arrives_nil.mpr ⟨false, by decide⟩, by decide⟩
  · exact ⟨rfl, by decide, by decide, .inr ⟨[], arrives_nil.mpr ⟨false, by decide⟩⟩⟩

end Function

end Bytecode
