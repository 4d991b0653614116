import Mathlib
import Bytecode.Proofs.Scope.Resolution

/-!
# Analysis of a part of a tree

A function can be analysed with all the tree in which it stands, or as a part that leaves the
functions around it alone. In the first case the names that leave it are walked on: they may be
found in any function around it, or in a program, or not at all. In the second case the walk ends as
soon as it has left the part, and a call of `eval` is noted no further out. The functions in the
part get the same facts either way. The one thing that comes in from outside is strictness: it
decides whether code is strict, and through that whether the callee is needed for its `arguments`.

## Main definitions

* `ScopeFacts.Agrees`: the same facts, but for strictness and the need for the callee
* `Function.InheritsStrict`: the code around a function is strict by option or by a directive

## Main results

* `Function.exists_locate`: the functions around one are not inside it
* `Function.strictAround_append`: strictness inside a function starts from the strictness around it
* `Function.strictAround_iff`: where the strictness around a function comes from
* `Function.analyse_compositional`: a function is analysed alike as a part and with the whole tree
-/

namespace Bytecode

/-- Facts that agree in all that does not depend on strictness. -/
structure ScopeFacts.Agrees (a b : ScopeFacts) : Prop where
  locals : a.locals = b.locals
  isVarArg : a.attributes.isVarArg = b.attributes.isVarArg
  needsParentScope : a.attributes.needsParentScope = b.attributes.needsParentScope
  hasScopeBlock : a.attributes.hasScopeBlock = b.attributes.hasScopeBlock
  usesSelfSymbol : a.attributes.usesSelfSymbol = b.attributes.usesSelfSymbol
  isSplit : a.attributes.isSplit = b.attributes.isSplit
  hasEval : a.attributes.hasEval = b.attributes.hasEval
  allVarsInScope : a.attributes.allVarsInScope = b.attributes.allVarsInScope

/-- With the two attributes that depend on strictness the facts are the same. -/
theorem ScopeFacts.Agrees.eq {a b : ScopeFacts} (h : a.Agrees b)
    (hstrict : a.attributes.isStrict = b.attributes.isStrict)
    (hcallee : a.attributes.needsCallee = b.attributes.needsCallee) : a = b := by
  obtain ⟨⟨_, _, _, _, _, _, _, _, _⟩, _⟩ := a
  obtain ⟨⟨_, _, _, _, _, _, _, _, _⟩, _⟩ := b
  obtain ⟨rfl, rfl, rfl, rfl, rfl, rfl, rfl, rfl⟩ := h
  obtain rfl := hstrict
  obtain rfl := hcallee
  rfl

/-- Going inwards leads to the function at the path, and those that are passed have shorter
addresses. -/
theorem Place.exists_descend {here : Place} {around : List Place} {path : List Nat} {g : Function}
    (hg : here.function.at? path = some g)
    (haround : ∀ up ∈ around, up.address.length < here.address.length) :
    ∃ part around', here.descend around path = some (part, around') ∧ part.function = g ∧
      ∀ up ∈ around', up.address.length < part.address.length := by
  induction path generalizing here around with
  | nil => exact ⟨here, around, rfl, Option.some.inj hg, haround⟩
  | cons i path ih =>
    obtain ⟨f, hf, hg⟩ := Option.bind_eq_some_iff.mp hg
    rw [descend, hf, Option.bind_some]
    refine ih hg (List.forall_mem_cons.mpr ⟨Nat.lt_succ_self _, fun up hup => ?_⟩)
    exact (haround up hup).trans (Nat.lt_succ_self _)

namespace Function

variable {f g : Function} {path inside : List Nat} {options : Options} {outer : Bool}

/-- Each function of a tree has a place, and those around it are not inside it. -/
theorem exists_locate (hg : f.at? path = some g) : ∃ part around,
    f.locate path = some (part, around) ∧ part.function = g ∧
      ∀ up ∈ around.head?, ¬ part.address <:+ up.address := by
  have hnone : ∀ up ∈ ([] : List Place), up.address.length < ([] : Address).length := by simp
  obtain ⟨part, around, hpart, hfunction, haround⟩ :=
    @Place.exists_descend ⟨[], f⟩ [] path g hg hnone
  refine ⟨part, around, hpart, hfunction, fun up hup hsuffix => ?_⟩
  exact absurd hsuffix.length_le (haround up (List.mem_of_mem_head? hup)).not_ge

/-- The code around the function at `path` is strict: by option, or because a function around it
has a directive. -/
def InheritsStrict (root : Function) (options : Options) (path : List Nat) : Prop :=
  options.strict = true ∨
    ∃ p h, p <+: path ∧ p ≠ path ∧ root.at? p = some h ∧ h.strict = true

/-- Nothing outside a function matters for the strictness inside it, but the strictness around
it. -/
theorem strictAround_append (hg : f.at? path = some g) : f.strictAround outer (path ++ inside) =
    g.strictAround (f.strictAround outer path) inside := by
  induction path generalizing f outer with
  | nil =>
    obtain rfl := Option.some.inj hg
    rfl
  | cons i path ih =>
    obtain ⟨k, hk, hg⟩ := Option.bind_eq_some_iff.mp hg
    rw [List.cons_append, strictAround, strictAround, hk]
    exact ih hg

/-- The strictness around a function is that around the whole tree, or that of a function between
them. -/
theorem strictAround_iff (hg : f.at? path = some g) :
    f.strictAround outer path = true ↔
      outer = true ∨ ∃ p h, p <+: path ∧ p ≠ path ∧ f.at? p = some h ∧ h.strict = true := by
  induction path generalizing f outer with
  | nil =>
    refine (or_iff_left ?_).symm
    rintro ⟨p, h, hp, hne, -⟩
    exact hne (List.prefix_nil.mp hp)
  | cons i path ih =>
    obtain ⟨k, hk, hg⟩ := Option.bind_eq_some_iff.mp hg
    have hat : ∀ p, f.at? (i :: p) = k.at? p := at?_cons hk
    have haround : f.strictAround outer (i :: path) = k.strictAround (f.strict || outer) path := by
      rw [strictAround, hk]
      rfl
    rw [haround, ih hg, Bool.or_eq_true]
    constructor
    · -- the outermost function is at the empty path, the others are inside it
      rintro ((hf | houter) | ⟨p, h, hp, hne, hh, hstrict⟩)
      · exact .inr ⟨[], f, List.nil_prefix, (List.cons_ne_nil i path).symm, rfl, hf⟩
      · exact .inl houter
      · refine .inr ⟨i :: p, h, List.cons_prefix_cons.mpr ⟨rfl, hp⟩, ?_, ?_, hstrict⟩
        · simpa using hne
        · rw [hat, hh]
    · rintro (houter | ⟨p, h, hp, hne, hh, hstrict⟩)
      · exact .inl (.inr houter)
      · cases p with
        | nil =>
          obtain rfl := Option.some.inj hh
          exact .inl (.inl hstrict)
        | cons j p =>
          obtain ⟨rfl, hinside⟩ := List.cons_prefix_cons.mp hp
          refine .inr ⟨p, h, hinside, ?_, ?_, hstrict⟩
          · simpa using hne
          · rw [← hat, hh]

theorem inheritsStrict_iff (hg : f.at? path = some g) :
    f.InheritsStrict options path ↔ f.strictAround options.strict path = true :=
  (strictAround_iff hg).symm

/-- The facts of a function depend on strictness in two attributes only. -/
theorem agrees_derivedFacts (f : Function) (options : Options) (strict strict' : Bool) :
    (f.derivedFacts options strict).Agrees (f.derivedFacts options strict') :=
  ⟨rfl, rfl, rfl, rfl, rfl, rfl, rfl, rfl⟩

/-- An annotated tree holds the facts of each function at the place of that function. -/
theorem facts_at?_annotated (hg : f.at? path = some g) :
    ((f.annotated options outer).at? path).bind facts =
      some (g.derivedFacts options (g.strict || f.strictAround outer path)) := by
  rw [at?_annotated hg, Option.bind_some, facts_annotated]

/-- **A function is analysed alike as a part and with the whole tree.** One run analyses a tree from
its root, the other only the part that is a function of it, among the functions around it, with the
same options; reports may go to different places. Both runs give a result, and every function in the
part has the same facts in both, but for strictness and what depends on it; these are the same, too,
when the code around the part is as strict in the one run as in the other. -/
theorem analyse_compositional {root g : Function} {path : List Nat}
    (hroot : root.facts = none) (hg : root.at? path = some g) (hfresh : g.facts = none)
    {context alone : Context} (hoptions : alone.options = context.options) :
    ∃ part around root' context' g' alone',
      root.locate path = some (part, around) ∧ part.function = g ∧
      root.analyse context = .ok root' context' ∧ part.analyse around alone = .ok g' alone' ∧
      ∀ inside f, g.at? inside = some f → ∃ a b,
        (root'.at? (path ++ inside)).bind facts = some a ∧ (g'.at? inside).bind facts = some b ∧
        a.Agrees b ∧
        ((root.InheritsStrict context.options path ↔ g.InheritsStrict alone.options []) →
          a.attributes.isStrict = b.attributes.isStrict ∧
          a.attributes.needsCallee = b.attributes.needsCallee) := by
  obtain ⟨part, around, hpart, rfl, haround⟩ := exists_locate hg
  obtain ⟨context', hrun⟩ := exists_analyse hroot context
  obtain ⟨alone', hrunPart⟩ := Place.exists_analyse hfresh haround alone
  refine ⟨part, around, _, context', _, alone', hpart, rfl, hrun, hrunPart, ?_⟩
  intro inside f hf
  have hwhole : root.at? (path ++ inside) = some f := by
    rw [at?_append, hg, Option.bind_some, hf]
  refine ⟨_, _, facts_at?_annotated hwhole, facts_at?_annotated hf, ?_, ?_⟩
  · rw [hoptions]
    exact agrees_derivedFacts f context.options _ _
  · -- with the same strictness around the part, each function in it is as strict in both runs
    intro hinherits
    rw [inheritsStrict_iff hg, inheritsStrict_iff rfl, ← Bool.eq_iff_iff, hoptions] at hinherits
    have hstrict : root.strictAround context.options.strict (path ++ inside) =
        part.function.strictAround context.options.strict inside := by
      rw [strictAround_append hg, hinherits]
      rfl
    rw [hoptions, hstrict]
    exact ⟨rfl, rfl⟩

/-- The name `x` is found in the function around `again` in one run; in the other it is walked to
the end of the part. -/
theorem closureProgram_compositional : ∃ again part around root' context' again' alone' a,
    closureProgram.at? [0, 0] = some again ∧
      closureProgram.locate [0, 0] = some (part, around) ∧ part.function = again ∧
      closureProgram.analyse {} = .ok root' context' ∧
      part.analyse around { log := some [] } = .ok again' alone' ∧
      (root'.at? [0, 0]).bind facts = some a ∧ again'.facts = some a := by
  obtain ⟨again, hagain, hfresh⟩ :
      ∃ g, closureProgram.at? [0, 0] = some g ∧ g.facts = none := ⟨_, rfl, rfl⟩
  have hoptions : ({ log := some [] } : Context).options = ({} : Context).options := rfl
  obtain ⟨part, around, root', context', again', alone', hpart, hfunction, hrun, hrunAgain,
    hfacts⟩ := analyse_compositional rfl hagain hfresh hoptions
  obtain ⟨a, b, ha, hb, hagrees, hdepends⟩ := hfacts [] again rfl
  -- neither the options nor a directive make any of the code strict
  have hinherits : closureProgram.InheritsStrict {} [0, 0] ↔ again.InheritsStrict {} [] := by
    rw [inheritsStrict_iff hagain, inheritsStrict_iff rfl]
    rfl
  obtain ⟨hstrict, hcallee⟩ := hdepends hinherits
  obtain rfl := hagrees.eq hstrict hcallee
  exact ⟨again, part, around, root', context', again', alone', a, hagain, hpart, hfunction, hrun,
    hrunAgain, ha, hb⟩

end Function

end Bytecode
