import Mathlib
import Bytecode.Proofs.Scope.Analysis

/-!
# Functions in order

Compilation makes a routine for each function of a tree, outer functions first. Analysis comes
before that and changes nothing but what is known of each function, so the functions of an analysed
tree are those that were written, in the same order, and all of them have attributes that do not
contradict each other.

## Main definitions

* `Function.Annotates`: a function with what is known of it

## Main results

* `Function.preorder_eq`: a function comes before those inside it
* `Function.exists_analyse_preorder`: analysis keeps the functions of a tree and their order
-/

namespace Bytecode

namespace Function

theorem preorderAll_eq {seen : List Function} {functions : List Function}
    (h : ∀ f ∈ functions, ∀ seen, preorderOnto seen f = f.preorder.reverse ++ seen) :
    preorderAll seen functions = (functions.flatMap preorder).reverse ++ seen := by
  induction functions generalizing seen with
  | nil => rw [preorderAll, List.flatMap_nil, List.reverse_nil, List.nil_append]
  | cons f rest ih =>
    obtain ⟨hf, hrest⟩ := List.forall_mem_cons.mp h
    rw [preorderAll, hf, ih hrest, List.flatMap_cons, List.reverse_append, List.append_assoc]

theorem preorderOnto_eq (f : Function) (seen : List Function) :
    preorderOnto seen f = f.preorder.reverse ++ seen := by
  induction f using Function.induct generalizing seen with
  | h f ih =>
    have honto : ∀ seen, preorderOnto seen f = preorderAll (f :: seen) f.functions := fun _ => by
      cases f
      rw [preorderOnto]
    rw [preorder, List.reverse_reverse, honto, honto, preorderAll_eq ih, preorderAll_eq ih,
      List.append_assoc, List.singleton_append]

/-- A function comes before those inside it, and these come in source order. -/
theorem preorder_eq (f : Function) : f.preorder = f :: f.functions.flatMap preorder := by
  have honto : preorderOnto [] f = preorderAll [f] f.functions := by
    cases f
    rw [preorderOnto]
  rw [preorder, honto, preorderAll_eq fun g _ => preorderOnto_eq g, List.reverse_append,
    List.reverse_reverse, List.reverse_singleton, List.singleton_append]

/-- `f'` is `f` with what analysis found out about it and about the functions inside it. -/
def Annotates (options : Options) (f f' : Function) : Prop :=
  ∃ functions strict,
    f' = { f with functions, facts := some (f.derivedFacts options strict) }

variable {options : Options} {f f' : Function}

theorem Annotates.attributes (h : Annotates options f f') :
    ∃ a, f'.attributes = .ok a ∧ a.violated? = none := by
  obtain ⟨functions, strict, rfl⟩ := h
  exact ⟨_, rfl, violated?_deriveAttributes f options (f.findings strict)⟩

theorem Annotates.of_preorder
    (h : List.Forall₂ (Annotates options) f.preorder f'.preorder) : Annotates options f f' := by
  rw [preorder_eq f, preorder_eq f'] at h
  exact (List.forall₂_cons.mp h).1

theorem Annotates.flatMap_preorder {functions functions' : List Function}
    (h : List.Forall₂
      (fun f f' => List.Forall₂ (Annotates options) f.preorder f'.preorder) functions functions') :
    List.Forall₂ (Annotates options) (functions.flatMap preorder)
      (functions'.flatMap preorder) := by
  induction h with
  | nil => exact .nil
  | cons hf _ ih =>
    rw [List.flatMap_cons, List.flatMap_cons]
    exact List.rel_append hf ih

theorem annotates_annotated (f : Function) (outer : Bool) :
    Annotates options f (f.annotated options outer) := ⟨_, _, annotated_eq f⟩

theorem preorder_annotated (f : Function) (outer : Bool) :
    List.Forall₂ (Annotates options) f.preorder (f.annotated options outer).preorder := by
  induction f using Function.induct generalizing outer with
  | h f ih =>
    have hfunctions : (f.annotated options outer).functions =
        f.functions.map (annotated options (f.strict || outer)) := by
      rw [annotated_eq]
    rw [preorder_eq f, preorder_eq (f.annotated options outer), hfunctions]
    refine .cons (f.annotates_annotated outer) (Annotates.flatMap_preorder ?_)
    rw [List.forall₂_map_right_iff, List.forall₂_same]
    exact fun g hg => ih g hg (f.strict || outer)

/-- **Analysis keeps the functions of a tree and their order.** -/
theorem exists_analyse_preorder {f : Function} (hf : f.facts = none) (c : Context) : ∃ f' c',
    f.analyse c = .ok f' c' ∧ List.Forall₂ (Annotates c.options) f.preorder f'.preorder := by
  obtain ⟨c', hanalyse⟩ := f.exists_analyse hf c
  exact ⟨_, c', hanalyse, f.preorder_annotated c.options.strict⟩

end Function

end Bytecode
