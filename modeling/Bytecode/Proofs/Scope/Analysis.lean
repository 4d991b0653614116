import Mathlib
import Bytecode.Proofs.Outcome
import Bytecode.Proofs.Scope.Walk
import Bytecode.Scope.Analysis

/-!
# The outcome of scope analysis

Analysis never fails, and it changes nothing in a tree but the facts of its functions. The facts of
a function depend on the options, on the function itself with all inside it, and on the strictness
around it; they do not depend on anything else outside.

## Main definitions

* `Function.derivedFacts`: the facts of a function, by the rules
* `Function.annotated`: a tree with the facts of its functions filled in

## Main results

* `Function.violated?_deriveAttributes`: derived attributes are coherent
* `Function.at?_annotated`: a part of an annotated tree is annotated
* `Place.exists_analyse`: analysis gives the tree with its facts, wherever it stands
-/

namespace Bytecode

theorem Context.ends_ending {α : Type} {stage : Text} {step : EStateM Error Context α} {c : Context}
    {post : α → Context → Prop} {fail : Error → Context → Prop}
    (h : Ends step c (fun x c => post x (c.measure (·.stop stage)))
      fun e c => fail e (c.measure (·.stop stage))) :
    Ends (Context.ending stage step) c post fail := by
  cases hstep : step c with
  | ok x c' => exact Ends.of_ok (by simp only [Context.ending, hstep]) (h.ok hstep)
  | error e c' => exact Ends.of_error (by simp only [Context.ending, hstep]) (h.error hstep)

namespace Function

/-- The facts of a function that is strict or not. -/
noncomputable def derivedFacts (f : Function) (options : Options) (strict : Bool) : ScopeFacts :=
  ⟨f.deriveAttributes options (f.findings strict), f.declarations.ordered⟩

mutual

/-- A function with the facts of all functions in it, in code of strictness `outer`. -/
noncomputable def annotated (options : Options) (outer : Bool) : Function → Function
  | ⟨form, name, params, directive, line, col, functions, body, facts⟩ =>
    let f : Function := ⟨form, name, params, directive, line, col, functions, body, facts⟩
    { f with
      functions := annotatedAll options (directive || outer) functions
      facts := some (f.derivedFacts options (directive || outer)) }

/-- Functions with the facts of all functions in them. -/
noncomputable def annotatedAll (options : Options) (outer : Bool) : List Function → List Function
  | [] => []
  | f :: rest => annotated options outer f :: annotatedAll options outer rest

end

variable {options : Options} {outer strict : Bool} {f g : Function} {path : List Nat}

theorem annotatedAll_eq (functions : List Function) :
    annotatedAll options outer functions = functions.map (annotated options outer) := by
  induction functions with
  | nil => rfl
  | cons f functions ih => rw [annotatedAll, ih, List.map_cons]

theorem annotated_eq (f : Function) : f.annotated options outer = { f with
    functions := f.functions.map (annotated options (f.strict || outer))
    facts := some (f.derivedFacts options (f.strict || outer)) } := by
  rw [← annotatedAll_eq]
  cases f
  rw [annotated]

theorem facts_annotated (f : Function) : (f.annotated options outer).facts =
    some (f.derivedFacts options (f.strict || outer)) := by
  rw [annotated_eq]

/-- A part of an annotated tree is annotated, for the strictness of the code around it. -/
theorem at?_annotated (hg : f.at? path = some g) : (f.annotated options outer).at? path =
    some (g.annotated options (f.strictAround outer path)) := by
  induction path generalizing f outer with
  | nil =>
    obtain rfl := Option.some.inj hg
    rfl
  | cons i path ih =>
    obtain ⟨k, hk, hg⟩ := Option.bind_eq_some_iff.mp hg
    rw [annotated_eq, at?, List.getElem?_map, hk, strictAround, hk]
    exact ih hg

/-- Derived attributes satisfy every rule. -/
theorem violated?_deriveAttributes (f : Function) (options : Options) (found : Findings) :
    (f.deriveAttributes options found).violated? = none := by
  simp only [Attributes.violated?, deriveAttributes]
  grind

theorem options_reportAnalysis (f : Function) (a : Attributes) (c : Context) :
    (f.reportAnalysis a c).options = c.options := by
  simp only [reportAnalysis]
  grind [Context.count, Context.options_measure, Context.options_write]

/-- Of the functions inside only the number matters for the attributes, once all is found out. -/
theorem deriveAttributes_congr {functions : List Function}
    (h : functions.length = f.functions.length) (found : Findings) :
    ({ f with functions } : Function).deriveAttributes options found =
      f.deriveAttributes options found := by
  have hgeometry : ({ f with functions } : Function).ownGeometry = f.ownGeometry := by
    simp only [ownGeometry, List.map_const', h]
  unfold deriveAttributes
  rw [hgeometry]
  rfl

/-- A function is concluded with its facts once the functions inside it have theirs. -/
theorem ends_conclude {functions : List Function} (h : functions.length = f.functions.length)
    {c : Context} (hc : c.options = options) :
    Ends (conclude { f with functions } (f.findings strict)) c
      (fun f' c' => f' = { f with
          functions, facts := some (f.derivedFacts options strict) } ∧ c'.options = options)
      (fun _ _ => False) := by
  refine Ends.bind (Ends.get ?_)
  -- the only failure is of attributes that contradict each other, and derived ones do not
  have hcoherent := violated?_deriveAttributes f options (f.findings strict)
  dsimp only
  rw [hc, deriveAttributes_congr h, hcoherent]
  refine Ends.bind (Ends.modify ⟨rfl, ?_⟩)
  rw [options_reportAnalysis, hc]

theorem finalize_eq {table : Table} {address : Address} {found : Findings}
    (h : table[address]? = some found) (f : Function) : finalize table address f =
      (finalizeAll table address 0 [] f.functions >>= fun functions =>
        conclude { f with functions } found) := by
  cases f
  rw [finalize]
  simp only [h]

/-- What holds of the functions that have their facts, last first, and is kept by each one more,
holds of all functions in the end. -/
theorem ends_finalizeAll {table : Table} {address : Address} {position : Nat}
    {functions done : List Function} {c : Context} {P : Nat → List Function → Context → Prop}
    {fail : Error → Context → Prop}
    (hstep : ∀ i g, functions[i]? = some g → ∀ done c, P i done c →
      Ends (finalize table ((position + i) :: address) g) c
        (fun g' c' => P (i + 1) (g' :: done) c') fail)
    (hstart : P 0 done c) :
    Ends (finalizeAll table address position done functions) c
      (fun result c' => P functions.length result.reverse c') fail := by
  induction functions generalizing position done c P with
  | nil =>
    show P 0 done.reverse.reverse c
    rwa [List.reverse_reverse]
  | cons f functions ih =>
    refine Ends.bind ((hstep 0 f rfl done c hstart).mono ?_ fun _ _ h => h)
    intro f' c' hnext
    -- the rest starts with one function more
    refine ih (P := fun i => P (i + 1)) (fun i g hg => ?_) hnext
    rw [Nat.add_right_comm]
    exact hstep (i + 1) g hg

/-- Where all is found out, each function is given its facts. -/
theorem ends_finalize {table : Table} {address : Address}
    (h : table.Describes outer ⟨address, f⟩) {c : Context} (hc : c.options = options) :
    Ends (finalize table address f) c
      (fun f' c' => f' = f.annotated options outer ∧ c'.options = options)
      (fun _ _ => False) := by
  induction f using Function.induct generalizing outer address c with
  | h f ih =>
    have hinner : Ends (finalizeAll table address 0 [] f.functions) c
        (fun result c' => result.reverse.reverse =
            (f.functions.take f.functions.length).map (annotated options (f.strict || outer)) ∧
          c'.options = options)
        (fun _ _ => False) := by
      refine ends_finalizeAll (P := fun i done c => done.reverse =
        (f.functions.take i).map (annotated options (f.strict || outer)) ∧ c.options = options)
        ?_ ⟨rfl, hc⟩
      rintro i g hg done c ⟨hdone, hc⟩
      rw [Nat.zero_add]
      refine (ih g (List.mem_of_getElem? hg) (h.inner hg) hc).mono ?_ fun _ _ hfalse => hfalse
      rintro _ c' ⟨rfl, hc'⟩
      refine ⟨?_, hc'⟩
      rw [List.reverse_cons, hdone, List.take_add_one, hg, List.map_append]
      rfl
    rw [finalize_eq h.self]
    refine Ends.bind (hinner.mono ?_ fun _ _ hfalse => hfalse)
    rintro functions c' ⟨hfunctions, hc'⟩
    rw [List.reverse_reverse, List.take_length] at hfunctions
    subst hfunctions
    rw [annotated_eq]
    exact ends_conclude (List.length_map _) hc'

end Function

/-- **Analysis always gives a result**, which is the tree with the facts of all its functions. What
stands around the tree is of no account. -/
theorem Place.exists_analyse {here : Place} (hfresh : here.function.facts = none)
    {around : List Place} (haround : ∀ up ∈ around.head?, ¬ here.address <:+ up.address)
    (c : Context) : ∃ c', here.analyse around c =
      .ok (here.function.annotated c.options c.options.strict) c' := by
  have hends : Ends (here.analyse around) c
      (fun f' _ => f' = here.function.annotated c.options c.options.strict)
      (fun _ _ => False) := by
    unfold analyse
    rw [hfresh]
    refine Ends.bind (Ends.modify (Ends.bind (Ends.get ?_)))
    have hfound := Table.describes_resolve_collect haround c.options.strict
    refine Context.ends_ending ((Function.ends_finalize hfound rfl).mono ?_ ?_)
    · exact fun _ _ hannotated => hannotated.1
    · exact fun _ _ hfalse => hfalse
  cases hrun : here.analyse around c with
  | ok f' c' =>
    obtain rfl := hends.ok hrun
    exact ⟨c', rfl⟩
  | error e c' => exact (hends.error hrun).elim

theorem Function.exists_analyse {f : Function} (hf : f.facts = none) (c : Context) :
    ∃ c', f.analyse c = .ok (f.annotated c.options c.options.strict) c' := by
  have hnone : ∀ up ∈ ([] : List Place).head?, ¬ ([] : Address) <:+ up.address := by simp
  exact @Place.exists_analyse ⟨[], f⟩ hf [] hnone c

end Bytecode
