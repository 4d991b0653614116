import Mathlib
import Bytecode.Proofs.Scope.Marks

/-!
# The outcome of the walk

Names are walked outwards one by one, and each walk leaves marks on the functions that it passes and
on the one where it ends. Which marks are there in the end is told by the rules, whatever the order
of the walks: about each function that is analysed exactly that is noted which the rules say. Where
the functions around are not analysed the walk ends, and nothing of it is left on them.

## Main definitions

* `Table.Noted`: a table with marks added to the findings in it
* `Table.Reached`: the marks that the walk of a name leaves
* `Table.Held`, `Table.Spread`: the marks inside a function, and those that it leaves around it
* `Function.strictAround`: the strictness of the code around a function
* `Table.Describes`: a table with what the rules say about the functions of a tree

## Main results

* `Table.noted_lookOutside`: the walk of a name
* `Table.noted_resolve`: the walks of all names in a function and inside it
* `Table.describes_resolve_collect`: what is found out about the functions of a tree
-/

namespace Bytecode

/-- Whether something is noted about a function. -/
def Findings.has (found : Findings) : Mark → Bool
  | .arguments => found.arguments
  | .captured => found.captured
  | .self => found.self
  | .outside => found.outside
  | .eval => found.eval
  | .innerEval => found.innerEval

/-- `found'` is `found` with marks added. -/
structure Findings.Noted (marks : Mark → Prop) (found found' : Findings) : Prop where
  declarations : found'.declarations = found.declarations
  strict : found'.strict = found.strict
  manyParams : found'.manyParams = found.manyParams
  has : ∀ m, found'.has m = true ↔ found.has m = true ∨ marks m

theorem Findings.Noted.refl {marks : Mark → Prop} (h : ∀ m, ¬ marks m) (found : Findings) :
    Noted marks found found :=
  ⟨rfl, rfl, rfl, fun m => (or_iff_left (h m)).symm⟩

theorem Findings.has_note {found : Findings} {m m' : Mark} :
    (found.note m).has m' = true ↔ found.has m' = true ∨ m' = m := by
  cases m <;> cases m' <;> simp [note, has]

theorem Findings.noted_note (found : Findings) (m : Mark) : found.Noted (· = m) (found.note m) where
  declarations := by cases m <;> rfl
  strict := by cases m <;> rfl
  manyParams := by cases m <;> rfl
  has _ := has_note

/-- Findings are told by what is noted, with what is known from the start. -/
theorem Findings.eq_of_has {found found' : Findings}
    (hdeclarations : found.declarations = found'.declarations)
    (hstrict : found.strict = found'.strict) (hmanyParams : found.manyParams = found'.manyParams)
    (hhas : ∀ m, found.has m = found'.has m) : found = found' := by
  have harguments : found.arguments = found'.arguments := hhas .arguments
  have hcaptured : found.captured = found'.captured := hhas .captured
  have hself : found.self = found'.self := hhas .self
  have houtside : found.outside = found'.outside := hhas .outside
  have heval : found.eval = found'.eval := hhas .eval
  have hinnerEval : found.innerEval = found'.innerEval := hhas .innerEval
  cases found
  cases found'
  simp_all

theorem Function.has_findings {f : Function} {strict : Bool} {m : Mark} :
    (f.findings strict).has m = true ↔ f.Notes m := by
  cases m <;> simp [Findings.has, findings]

namespace Table

/-- Marks at addresses. -/
abbrev Marks := Address → Mark → Prop

/-- `table'` is `table` with marks added to the findings in it. -/
def Noted (marks : Marks) (table table' : Table) : Prop :=
  ∀ a, Option.Rel (Findings.Noted (marks a)) table[a]? table'[a]?

/-- The declarations of the function at an address. -/
def declared (table : Table) (a : Address) : Option Declarations :=
  table[a]?.map Findings.declarations

variable {table table' table'' : Table} {marks marks' : Marks}

/-! ## Tables with marks added -/

theorem Noted.refl (table : Table) : Noted (fun _ _ => False) table table := by
  intro a
  cases table[a]? with
  | none => exact .none
  | some found => exact .some (.refl (fun _ => not_false) found)

theorem Noted.trans (h : Noted marks table table') (h' : Noted marks' table' table'') :
    Noted (fun a m => marks a m ∨ marks' a m) table table'' := by
  intro a
  have ha := h a
  have ha' := h' a
  revert ha ha'
  generalize table[a]? = old, table'[a]? = between, table''[a]? = new
  rintro (⟨hfirst⟩ | _) (⟨hsecond⟩ | _)
  · refine .some ⟨hsecond.declarations.trans hfirst.declarations,
      hsecond.strict.trans hfirst.strict, hsecond.manyParams.trans hfirst.manyParams, fun m => ?_⟩
    rw [hsecond.has, hfirst.has, or_assoc]
  · exact .none

theorem Noted.congr (h : Noted marks table table') (hmarks : ∀ a m, marks a m ↔ marks' a m) :
    Noted marks' table table' := by
  have heq : marks = marks' := funext fun a => funext fun m => propext (hmarks a m)
  rwa [← heq]

/-- Marks change nothing that is declared. -/
theorem Noted.declared_eq (h : Noted marks table table') : table'.declared = table.declared := by
  funext a
  have ha := h a
  unfold declared
  revert ha
  generalize table[a]? = old, table'[a]? = new
  rintro (⟨hnoted⟩ | _)
  · exact congrArg some hnoted.declarations
  · rfl

/-- What each step of a fold notes is noted in the end. -/
theorem Noted.foldl {β : Type} {step : Table → β → Table} {marks : β → Marks} {items : List β}
    (h : ∀ b ∈ items, ∀ t : Table, t.declared = table.declared → Noted (marks b) t (step t b)) :
    Noted (fun a m => ∃ b ∈ items, marks b a m) table (items.foldl step table) := by
  induction items generalizing table with
  | nil => exact (Noted.refl table).congr fun a m => by simp
  | cons b items ih =>
    obtain ⟨hb, hitems⟩ := List.forall_mem_cons.mp h
    -- a step is only asked about declarations, which the steps before it keep
    have hstep := hb table rfl
    have hrest := ih fun b' hb' t ht => hitems b' hb' t (ht.trans hstep.declared_eq)
    exact (hstep.trans hrest).congr fun a m =>
      (List.exists_mem_cons_iff (marks · a m) b items).symm

theorem noted_mark (table : Table) (address : Address) (m : Mark) :
    Noted (fun a m' => a = address ∧ m' = m) table (table.mark address m) := by
  intro a
  rw [mark, Std.TreeMap.getElem?_modify]
  split
  case isTrue heq =>
    obtain rfl := Std.LawfulEqCmp.eq_of_compare heq
    cases table[address]? with
    | none => exact .none
    | some found =>
      refine .some ?_
      have hnoted := found.noted_note m
      exact ⟨hnoted.declarations, hnoted.strict, hnoted.manyParams, fun m' => by simp [hnoted.has]⟩
  case isFalse hne =>
    have hother : a ≠ address := by
      rintro rfl
      exact hne Std.ReflCmp.compare_self
    cases table[a]? with
    | none => exact .none
    | some found => exact .some (.refl (fun _ hm => hother hm.1) found)

theorem noted_markAll (table : Table) (addresses : List Address) (m : Mark) :
    Noted (fun a m' => a ∈ addresses ∧ m' = m) table (table.markAll addresses m) := by
  refine (Noted.foldl fun address _ t _ => noted_mark t address m).congr fun a m' => ?_
  simp

/-! ## The walk of a name -/

/-- The marks that the walk of a name leaves on the functions around, innermost first. -/
def Reached (name : Text) : List Place → Marks
  | [], _, _ => False
  | up :: inside, a, m =>
    a = up.address ∧ up.function.NotesInner name m ∨
      (up.function.isProgram = false ∧ ¬ up.function.Binds name) ∧ Reached name inside a m

/-- Of the functions around a place, those `inside` the part that is analysed are in the table, and
the first one outside is not. -/
structure Around (declared : Address → Option Declarations) (inside outside : List Place) :
    Prop where
  known : ∀ up ∈ inside, declared up.address = some up.function.declarations
  unknown : ∀ up ∈ outside.head?, declared up.address = none

variable {inside outside : List Place} {up here : Place} {name : Text} {r : Reference}

theorem exists_of_declared (h : table.declared up.address = some up.function.declarations) :
    ∃ found, table[up.address]? = some found ∧ found.declarations = up.function.declarations :=
  Option.map_eq_some_iff.mp h

theorem Around.tail (h : Around table.declared (up :: inside) outside) :
    Around table.declared inside outside :=
  ⟨fun place hplace => h.known place (List.mem_cons_of_mem up hplace), h.unknown⟩

/-- Where the next function is not in the table the walk is over. -/
theorem lookOutside_of_unknown {passed : List Address}
    (h : ∀ up ∈ outside.head?, table.declared up.address = none) :
    lookOutside name passed table outside = table.markAll passed .outside := by
  cases outside with
  | nil => rfl
  | cons up outside =>
    have hnone : table[up.address]? = none := Option.map_eq_none_iff.mp (h up rfl)
    rw [lookOutside, hnone]

theorem reached_of_stops {a : Address} {m : Mark}
    (h : up.function.isProgram = true ∨ up.function.Binds name) :
    Reached name (up :: inside) a m ↔ a = up.address ∧ up.function.NotesInner name m := by
  refine or_iff_left ?_
  rintro ⟨⟨hprogram, hbinds⟩, -⟩
  rcases h with h | h
  · exact Bool.false_ne_true (hprogram.symm.trans h)
  · exact hbinds h

theorem reached_of_passes {a : Address} {m : Mark} (hprogram : up.function.isProgram = false)
    (hbinds : ¬ up.function.Binds name) : Reached name (up :: inside) a m ↔
      a = up.address ∧ m = .outside ∨ Reached name inside a m := by
  have hpasses : up.function.isProgram = false ∧ ¬ up.function.Binds name := ⟨hprogram, hbinds⟩
  rw [Reached, Function.notesInner_of_not_binds hbinds, and_iff_right hpasses]

section Step

variable {passed : List Address} {around : List Place}
  (hknown : table.declared up.address = some up.function.declarations)

include hknown

/-- A program is the end of the walk, whether it declares the name or not. -/
theorem noted_lookOutside_of_isProgram (hprogram : up.function.isProgram = true) :
    Noted (fun a m => a ∈ passed ∧ m = .outside ∨ Reached name (up :: inside) a m) table
      (lookOutside name passed table (up :: around)) := by
  obtain ⟨found, hfound, hdeclarations⟩ := exists_of_declared hknown
  simp only [lookOutside, hfound, hdeclarations, hprogram, if_true,
    reached_of_stops (.inl hprogram), Function.notesInner_of_isProgram hprogram,
    ← Function.contains_declarations]
  split
  case isTrue hdeclares =>
    refine (noted_markAll table passed .outside).congr fun a m => (or_iff_left ?_).symm
    exact fun hnone => hnone.2.2 hdeclares
  case isFalse hdeclares =>
    refine (noted_markAll table (up.address :: passed) .outside).congr fun a m => ?_
    rw [and_iff_left hdeclares, List.mem_cons, or_and_right]
    exact or_comm

/-- A function that binds the name is captured, and the walk is over. -/
theorem noted_lookOutside_of_binds (hprogram : up.function.isProgram = false)
    (hbinds : up.function.Binds name) :
    Noted (fun a m => a ∈ passed ∧ m = .outside ∨ Reached name (up :: inside) a m) table
      (lookOutside name passed table (up :: around)) := by
  obtain ⟨found, hfound, hdeclarations⟩ := exists_of_declared hknown
  simp only [lookOutside, hfound, hdeclarations, hprogram, Bool.false_eq_true, if_false,
    reached_of_stops (.inr hbinds)]
  by_cases hdeclares : up.function.Declares name
  · rw [if_pos (Function.contains_declarations.mpr hdeclares)]
    refine ((noted_mark table up.address .captured).trans (noted_markAll _ passed _)).congr ?_
    intro a m
    rw [Function.notesInner_of_declares hprogram hdeclares]
    exact or_comm
  · have hself := (Function.binds_iff.mp hbinds).resolve_left hdeclares
    rw [if_neg (Function.contains_declarations.not.mpr hdeclares), if_pos hself]
    refine (((noted_mark table up.address .captured).trans
      (noted_mark _ up.address .self)).trans (noted_markAll _ passed _)).congr ?_
    intro a m
    rw [Function.notesInner_of_isSelf hprogram hdeclares hself, and_or_left]
    exact or_comm

/-- A function that does not bind the name is passed. -/
theorem lookOutside_of_passes (hprogram : up.function.isProgram = false)
    (hbinds : ¬ up.function.Binds name) : lookOutside name passed table (up :: around) =
      lookOutside name (up.address :: passed) table around := by
  obtain ⟨found, hfound, hdeclarations⟩ := exists_of_declared hknown
  obtain ⟨hdeclares, hself⟩ := not_or.mp (Function.binds_iff.not.mp hbinds)
  rw [lookOutside, hfound]
  dsimp only
  rw [hdeclarations, hprogram, if_neg Bool.false_ne_true,
    if_neg (Function.contains_declarations.not.mpr hdeclares), if_neg hself]

end Step

/-- **The walk of a name** notes that those it has passed need the scope around them, and leaves on
each function around what the rules say. -/
theorem noted_lookOutside {passed : List Address} (h : Around table.declared inside outside) :
    Noted (fun a m => a ∈ passed ∧ m = .outside ∨ Reached name inside a m) table
      (lookOutside name passed table (inside ++ outside)) := by
  induction inside generalizing passed with
  | nil =>
    rw [List.nil_append, lookOutside_of_unknown h.unknown]
    exact (noted_markAll table passed .outside).congr fun a m => (or_iff_left not_false).symm
  | cons up inside ih =>
    have hknown := h.known up List.mem_cons_self
    cases hprogram : up.function.isProgram with
    | true => exact noted_lookOutside_of_isProgram hknown hprogram
    | false =>
      by_cases hbinds : up.function.Binds name
      · exact noted_lookOutside_of_binds hknown hprogram hbinds
      · rw [List.cons_append, lookOutside_of_passes hknown hprogram hbinds]
        refine (ih h.tail).congr fun a m => ?_
        rw [reached_of_passes hprogram hbinds, List.mem_cons, or_and_right, or_assoc]
        exact or_left_comm

/-- The marks that a use of a name leaves on its function and on those around. -/
def Used (here : Place) (inside : List Place) (r : Reference) : Marks := fun a m =>
  a = here.address ∧ here.function.NotesOwn r m ∨
    (¬ here.function.IsImplicit r.name ∧ ¬ here.function.Binds r.name) ∧ Reached r.name inside a m

theorem used_of_stops {a : Address} {m : Mark}
    (h : here.function.IsImplicit r.name ∨ here.function.Binds r.name) :
    Used here inside r a m ↔ a = here.address ∧ here.function.NotesOwn r m := by
  refine or_iff_left ?_
  rintro ⟨⟨himplicit, hbinds⟩, -⟩
  exact h.elim himplicit hbinds

theorem used_of_passes {a : Address} {m : Mark} (himplicit : ¬ here.function.IsImplicit r.name)
    (hbinds : ¬ here.function.Binds r.name) : Used here inside r a m ↔
      a = here.address ∧ m = .outside ∨ Reached r.name inside a m := by
  have hpasses : ¬ here.function.IsImplicit r.name ∧ ¬ here.function.Binds r.name :=
    ⟨himplicit, hbinds⟩
  rw [Used, Function.notesOwn_of_not_binds himplicit hbinds, and_iff_right hpasses]

theorem noted_resolveReference (h : Around table.declared (here :: inside) outside)
    (r : Reference) :
    Noted (Used here inside r) table (resolveReference here (inside ++ outside) table r) := by
  obtain ⟨found, hfound, hdeclarations⟩ := exists_of_declared (h.known here List.mem_cons_self)
  rw [resolveReference, hfound]
  dsimp only
  rw [hdeclarations]
  -- the cases are those of the definition, in its order: each one rules out those before it
  by_cases himplicit : here.function.IsImplicit r.name
  · rw [if_pos (Function.isImplicit_iff.mp himplicit)]
    refine (noted_mark table here.address .arguments).congr fun a m => ?_
    rw [used_of_stops (.inl himplicit), Function.notesOwn_of_implicit himplicit]
  rw [if_neg (Function.isImplicit_iff.not.mp himplicit)]
  by_cases hdeclares : here.function.Declares r.name
  · have hused : ∀ a m, Used here inside r a m ↔ a = here.address ∧ m = .captured ∧
        r.insideWith = true ∧ here.function.isProgram = false := by
      intro a m
      rw [used_of_stops (.inr (.inl hdeclares)),
        Function.notesOwn_of_declares himplicit hdeclares]
    have hwith : (r.insideWith && !here.function.isProgram) = true ↔
        r.insideWith = true ∧ here.function.isProgram = false := by
      rw [Bool.and_eq_true, Bool.not_eq_true']
    rw [if_pos (Function.contains_declarations.mpr hdeclares)]
    split
    case isTrue hcaptured =>
      refine (noted_mark table here.address .captured).congr fun a m => ?_
      rw [hused, and_iff_left (hwith.mp hcaptured)]
    case isFalse hcaptured =>
      refine (Noted.refl table).congr fun a m => (iff_of_false not_false ?_)
      rw [hused]
      exact fun hmarks => hcaptured (hwith.mpr hmarks.2.2)
  rw [if_neg (Function.contains_declarations.not.mpr hdeclares)]
  split
  case isTrue hself =>
    refine (noted_mark table here.address .self).congr fun a m => ?_
    rw [used_of_stops (.inr (Function.binds_iff.mpr (.inr hself))),
      Function.notesOwn_of_isSelf himplicit hdeclares hself]
  case isFalse hself =>
    have hbinds : ¬ here.function.Binds r.name := by
      rw [Function.binds_iff]
      exact not_or.mpr ⟨hdeclares, hself⟩
    refine (noted_lookOutside h.tail).congr fun a m => ?_
    rw [used_of_passes himplicit hbinds, List.mem_singleton]

/-! ## The walks of all names -/

/-- A call of `eval` is noted in all functions around that are analysed. -/
theorem noted_markEval (h : Around table.declared inside outside) :
    Noted (fun a m => a ∈ inside.map Place.address ∧ m = .innerEval) table
      (table.markEval (inside ++ outside)) := by
  induction inside generalizing table with
  | nil =>
    have hend : table.markEval outside = table := by
      cases outside with
      | nil => rfl
      | cons up outside =>
        have hnone : table[up.address]? = none := Option.map_eq_none_iff.mp (h.unknown up rfl)
        rw [markEval, Std.TreeMap.contains_eq_isSome_getElem?, hnone]
        rfl
    rw [List.nil_append, hend]
    exact (Noted.refl table).congr fun a m => by simp
  | cons up inside ih =>
    obtain ⟨found, hfound, -⟩ := exists_of_declared (h.known up List.mem_cons_self)
    have hcontains : table.contains up.address = true := by
      rw [Std.TreeMap.contains_eq_isSome_getElem?, hfound]
      rfl
    rw [List.cons_append, markEval, if_pos hcontains]
    have hmark := noted_mark table up.address .innerEval
    have hrest := ih (hmark.declared_eq ▸ h.tail)
    refine (hmark.trans hrest).congr fun a m => ?_
    rw [List.map_cons, List.mem_cons, or_and_right]

theorem noted_resolveOwn (h : Around table.declared (here :: inside) outside) :
    Noted (fun a m => (∃ r, here.function.Refers r ∧ Used here inside r a m) ∨
        here.function.CallsEval ∧ (a = here.address ∧ m = .eval ∨
          a ∈ inside.map Place.address ∧ m = .innerEval))
      table (resolveOwn here (inside ++ outside) table) := by
  have hnames : Noted (fun a m => ∃ r, here.function.Refers r ∧ Used here inside r a m) table
      (here.function.references.toList.foldl (resolveReference here (inside ++ outside))
        table) := by
    refine (Noted.foldl fun r _ t ht => noted_resolveReference (ht ▸ h) r).congr fun a m => ?_
    simp only [Function.mem_references]
  rw [resolveOwn]
  split
  case isTrue heval =>
    have hmark := noted_mark (here.function.references.toList.foldl
      (resolveReference here (inside ++ outside)) table) here.address .eval
    have hup : Around (Table.declared _) inside outside :=
      (hmark.declared_eq.trans hnames.declared_eq).symm ▸ h.tail
    refine (hnames.trans (hmark.trans (noted_markEval hup))).congr fun a m => ?_
    rw [and_iff_right (Function.usesEval_references.mp heval)]
  case isFalse heval =>
    refine hnames.congr fun a m => (or_iff_left ?_).symm
    exact fun hcalls => heval (Function.usesEval_references.mpr hcalls.1)

/-- The marks in a function and inside it, by the rules. -/
def Held (here : Place) : Marks := fun a m =>
  ∃ path g, here.function.at? path = some g ∧ a = path.reverse ++ here.address ∧ g.Notes m

/-- The marks that a function leaves on those around it, by the rules. -/
def Spread (f : Function) (inside : List Place) : Marks := fun a m =>
  (∃ n, f.Leaves n ∧ Reached n inside a m) ∨
    f.ReachesEval ∧ a ∈ inside.map Place.address ∧ m = .innerEval

/-- An address further inside goes through one of the functions inside. -/
theorem reverse_cons_append (i : Nat) (path : List Nat) (address : Address) :
    (i :: path).reverse ++ address = path.reverse ++ i :: address := by
  rw [List.reverse_cons, List.append_assoc, List.singleton_append]

/-- A mark is in the function itself or in one of those inside it. -/
theorem held_iff {a : Address} {m : Mark} : Held here a m ↔
    a = here.address ∧ here.function.Notes m ∨
      ∃ i g, here.function.functions[i]? = some g ∧ Held ⟨i :: here.address, g⟩ a m := by
  constructor
  · rintro ⟨_ | ⟨i, path⟩, k, hk, rfl, hnotes⟩
    · obtain rfl := Option.some.inj hk
      exact .inl ⟨rfl, hnotes⟩
    · obtain ⟨g, hg, hk⟩ := Option.bind_eq_some_iff.mp hk
      exact .inr ⟨i, g, hg, path, k, hk, reverse_cons_append i path here.address, hnotes⟩
  · rintro (⟨rfl, hnotes⟩ | ⟨i, g, hg, path, k, hk, rfl, hnotes⟩)
    · exact ⟨[], here.function, rfl, rfl, hnotes⟩
    · exact ⟨i :: path, k, (Function.at?_cons hg path).trans hk,
        (reverse_cons_append i path here.address).symm, hnotes⟩

/-- The marks of the functions inside and those of the names in the function itself are all the
marks there are. -/
theorem held_or_spread_iff {a : Address} {m : Mark} :
    ((∃ i g, here.function.functions[i]? = some g ∧
        (Held ⟨i :: here.address, g⟩ a m ∨ Spread g (here :: inside) a m)) ∨
      (∃ r, here.function.Refers r ∧ Used here inside r a m) ∨
        here.function.CallsEval ∧ (a = here.address ∧ m = .eval ∨
          a ∈ inside.map Place.address ∧ m = .innerEval)) ↔
      Held here a m ∨ Spread here.function inside a m := by
  constructor
  · rintro (⟨i, g, hg, hmark⟩ | ⟨r, hr, hmark⟩ | ⟨heval, hmark⟩)
    · have hmem := List.mem_of_getElem? hg
      rcases hmark with hheld | ⟨n, hn, hmark⟩ | ⟨heval, hup, rfl⟩
      · exact .inl (held_iff.mpr (.inr ⟨i, g, hg, hheld⟩))
      · -- a name from inside ends here or is handed on
        rcases hmark with ⟨ha, hnotes⟩ | ⟨⟨hprogram, hbinds⟩, hreached⟩
        · exact .inl (held_iff.mpr (.inl ⟨ha, .inner ⟨g, hmem, hn⟩ hnotes⟩))
        · exact .inr (.inl ⟨n, .inner hmem hn hprogram hbinds, hreached⟩)
      · rcases List.mem_cons.mp hup with ha | hup
        · exact .inl (held_iff.mpr (.inl ⟨ha, .innerEval hmem heval⟩))
        · exact .inr (.inr ⟨Function.reachesEval_iff.mpr (.inr ⟨g, hmem, heval⟩), hup, rfl⟩)
    · rcases hmark with ⟨ha, hnotes⟩ | ⟨⟨himplicit, hbinds⟩, hreached⟩
      · exact .inl (held_iff.mpr (.inl ⟨ha, .own hr hnotes⟩))
      · exact .inr (.inl ⟨r.name, .own ⟨hr, himplicit⟩ hbinds, hreached⟩)
    · rcases hmark with ⟨ha, rfl⟩ | hup
      · exact .inl (held_iff.mpr (.inl ⟨ha, .eval heval⟩))
      · exact .inr (.inr ⟨Function.reachesEval_iff.mpr (.inl heval), hup⟩)
  · rintro (hheld | ⟨n, hn, hreached⟩ | ⟨heval, hup⟩)
    · rcases held_iff.mp hheld with ⟨ha, hnotes⟩ | ⟨i, g, hg, hheld⟩
      · cases hnotes with
        | own hr hnotes => exact .inr (.inl ⟨_, hr, .inl ⟨ha, hnotes⟩⟩)
        | inner hn hnotes =>
          obtain ⟨g, hmem, hn⟩ := hn
          obtain ⟨i, hg⟩ := List.mem_iff_getElem?.mp hmem
          exact .inl ⟨i, g, hg, .inr (.inl ⟨_, hn, .inl ⟨ha, hnotes⟩⟩)⟩
        | eval heval => exact .inr (.inr ⟨heval, .inl ⟨ha, rfl⟩⟩)
        | innerEval hmem heval =>
          obtain ⟨i, hg⟩ := List.mem_iff_getElem?.mp hmem
          exact .inl ⟨i, _, hg, .inr (.inr ⟨heval, List.mem_cons.mpr (.inl ha), rfl⟩)⟩
      · exact .inl ⟨i, g, hg, .inl hheld⟩
    · cases hn with
      | own huse hbinds => exact .inr (.inl ⟨_, huse.1, .inr ⟨⟨huse.2, hbinds⟩, hreached⟩⟩)
      | inner hmem hn hprogram hbinds =>
        obtain ⟨i, hg⟩ := List.mem_iff_getElem?.mp hmem
        exact .inl ⟨i, _, hg, .inr (.inl ⟨n, hn, .inr ⟨⟨hprogram, hbinds⟩, hreached⟩⟩)⟩
    · rcases Function.reachesEval_iff.mp heval with hcalls | ⟨g, hmem, heval⟩
      · exact .inr (.inr ⟨hcalls, .inr hup⟩)
      · obtain ⟨i, hg⟩ := List.mem_iff_getElem?.mp hmem
        exact .inl ⟨i, g, hg, .inr (.inr ⟨heval, List.mem_cons_of_mem _ hup.1, hup.2⟩)⟩

theorem resolve_eq (address : Address) (around : List Place) (table : Table) (f : Function) :
    resolve address around table f = resolveOwn ⟨address, f⟩ around
      (resolveAll address 0 (⟨address, f⟩ :: around) table f.functions) := by
  cases f
  rw [resolve]

theorem noted_resolveAll {address : Address} {position : Nat} {around : List Place}
    {functions : List Function} (marks : Nat → Function → Marks)
    (h : ∀ i g, functions[i]? = some g → ∀ t : Table, t.declared = table.declared →
      Noted (marks (position + i) g) t (resolve ((position + i) :: address) around t g)) :
    Noted (fun a m => ∃ i g, functions[i]? = some g ∧ marks (position + i) g a m) table
      (resolveAll address position around table functions) := by
  induction functions generalizing position table with
  | nil => exact (Noted.refl table).congr fun a m => by simp
  | cons f functions ih =>
    rw [resolveAll]
    have hf := h 0 f rfl table rfl
    rw [Nat.add_zero] at hf
    have hlater : ∀ i g, functions[i]? = some g → ∀ t : Table,
        t.declared = (resolve (position :: address) around table f).declared →
        Noted (marks (position + 1 + i) g) t
          (resolve ((position + 1 + i) :: address) around t g) := by
      intro i g hg t ht
      have hg := h (i + 1) g hg t (ht.trans hf.declared_eq)
      rwa [← Nat.add_assoc, Nat.add_right_comm] at hg
    have hrest := ih hlater
    refine (hf.trans hrest).congr fun a m => ?_
    constructor
    · rintro (hmark | ⟨i, g, hg, hmark⟩)
      · exact ⟨0, f, rfl, hmark⟩
      · exact ⟨i + 1, g, hg, by rwa [← Nat.add_assoc, Nat.add_right_comm]⟩
    · rintro ⟨_ | i, g, hg, hmark⟩
      · obtain rfl := Option.some.inj hg
        exact .inl hmark
      · exact .inr ⟨i, g, hg, by rwa [← Nat.add_assoc, Nat.add_right_comm] at hmark⟩

/-- **The walks of all names** in a function and inside it leave what the rules say, in it and on
the functions around it. -/
theorem noted_resolve {address : Address} {f : Function}
    (hknown : ∀ path g, f.at? path = some g →
      table.declared (path.reverse ++ address) = some g.declarations)
    (haround : Around table.declared inside outside) :
    Noted (fun a m => Held ⟨address, f⟩ a m ∨ Spread f inside a m) table
      (resolve address (inside ++ outside) table f) := by
  induction f using Function.induct generalizing address inside table with
  | h f ih =>
    -- for the functions inside, `f` is the nearest of those around
    have hinside : Around table.declared (⟨address, f⟩ :: inside) outside :=
      ⟨List.forall_mem_cons.mpr ⟨hknown [] f rfl, haround.known⟩, haround.unknown⟩
    have hinner : Noted (fun a m => ∃ i g, f.functions[i]? = some g ∧
        (Held ⟨(0 + i) :: address, g⟩ a m ∨ Spread g (⟨address, f⟩ :: inside) a m)) table
        (resolveAll address 0 (⟨address, f⟩ :: (inside ++ outside)) table f.functions) := by
      refine noted_resolveAll (fun i g a m =>
        Held ⟨i :: address, g⟩ a m ∨ Spread g (⟨address, f⟩ :: inside) a m) fun i g hg t ht => ?_
      refine ih g (List.mem_of_getElem? hg) (fun path k hk => ?_) (ht ▸ hinside)
      have hpath := hknown (i :: path) k ((Function.at?_cons hg path).trans hk)
      rwa [reverse_cons_append, ← ht, ← Nat.zero_add i] at hpath
    rw [resolve_eq]
    refine (hinner.trans (noted_resolveOwn (hinner.declared_eq.symm ▸ hinside))).congr ?_
    intro a m
    simp only [Nat.zero_add]
    exact @held_or_spread_iff inside ⟨address, f⟩ a m

/-! ## What is collected -/

variable {outer strict : Bool} {address a : Address} {f g : Function} {path : List Nat}

theorem collect_eq (outer : Bool) (address : Address) (table : Table) (f : Function) :
    collect outer address table f = collectAll (f.strict || outer) address 0
      (table.insert address (f.collected (f.strict || outer))) f.functions := by
  cases f
  rw [collect]

theorem getElem?_collectAll_of_outside {functions : List Function} {position : Nat}
    (hinner : ∀ g ∈ functions, ∀ address (t : Table), ¬ address <:+ a →
      (collect strict address t g)[a]? = t[a]?)
    (ha : ∀ i, position ≤ i → ¬ (i :: address) <:+ a) :
    (collectAll strict address position table functions)[a]? = table[a]? := by
  induction functions generalizing position table with
  | nil => rfl
  | cons f functions ih =>
    obtain ⟨hf, hfunctions⟩ := List.forall_mem_cons.mp hinner
    rw [collectAll, ih hfunctions fun i hi => ha i (Nat.le_of_succ_le hi),
      hf (position :: address) table (ha position le_rfl)]

/-- Nothing is collected about functions outside. -/
theorem getElem?_collect_of_outside (ha : ¬ address <:+ a) :
    (collect outer address table f)[a]? = table[a]? := by
  induction f using Function.induct generalizing outer address table with
  | h f ih =>
    have hinside : ∀ i, 0 ≤ i → ¬ (i :: address) <:+ a :=
      fun i _ hi => ha ((List.suffix_cons i address).trans hi)
    have hother : address ≠ a := fun heq => ha (heq ▸ List.suffix_rfl)
    rw [collect_eq, getElem?_collectAll_of_outside (fun g hg _ _ => ih g hg) hinside,
      Std.TreeMap.getElem?_insert, if_neg (fun heq => hother (Std.LawfulEqCmp.eq_of_compare heq))]

/-- What is collected at an address inside one of some functions is collected from that function. -/
theorem getElem?_collectAll {functions : List Function} {position i : Nat}
    (hg : functions[i]? = some g) : ∃ t : Table,
      (collectAll strict address position table functions)[path ++ (position + i) :: address]? =
        (collect strict ((position + i) :: address) t g)[path ++ (position + i) :: address]? := by
  induction functions generalizing position i table with
  | nil => cases hg
  | cons f functions ih =>
    rw [collectAll]
    cases i with
    | zero =>
      obtain rfl := Option.some.inj hg
      refine ⟨table, getElem?_collectAll_of_outside
        (fun _ _ _ _ => getElem?_collect_of_outside) fun j hj => ?_⟩
      -- the functions that follow are at other positions
      rintro ⟨q, hq⟩
      have hposition := (List.cons.inj (List.append_inj_right' hq rfl)).1
      omega
    | succ i =>
      rw [← Nat.add_assoc, Nat.add_right_comm]
      exact ih hg

end Table

/-- The strictness of the code around the function at a path, in a tree that stands in code of
strictness `outer`. -/
def Function.strictAround (outer : Bool) : List Nat → Function → Bool
  | [], _ => outer
  | i :: path, f => (f.functions[i]?.map (strictAround (f.strict || outer) path)).getD outer

namespace Table

variable {outer : Bool} {address : Address} {f g : Function} {path : List Nat} {table : Table}

/-- What is collected about the functions in a tree. -/
theorem getElem?_collect (hg : f.at? path = some g) :
    (collect outer address table f)[path.reverse ++ address]? =
      some (g.collected (g.strict || f.strictAround outer path)) := by
  induction path generalizing f outer address table with
  | nil =>
    obtain rfl := Option.some.inj hg
    have hinside : ∀ i, 0 ≤ i → ¬ (i :: address) <:+ address := fun i _ hi => by
      simpa using hi.length_le
    rw [collect_eq, List.reverse_nil, List.nil_append, getElem?_collectAll_of_outside
      (fun _ _ _ _ => getElem?_collect_of_outside) hinside, Std.TreeMap.getElem?_insert_self]
    rfl
  | cons i path ih =>
    obtain ⟨k, hk, hg⟩ := Option.bind_eq_some_iff.mp hg
    rw [collect_eq, reverse_cons_append, ← Nat.zero_add i]
    obtain ⟨t, ht⟩ := getElem?_collectAll hk
    rw [ht, ih hg, Nat.zero_add, Function.strictAround, hk]
    rfl

/-! ## What is found out -/

theorem not_spread_nil {a : Address} {m : Mark} : ¬ Spread f [] a m := by
  rintro (⟨n, -, hreached⟩ | ⟨-, hup, -⟩)
  · exact hreached
  · exact List.not_mem_nil hup

theorem held_at_iff {here : Place} {m : Mark} (hg : here.function.at? path = some g) :
    Held here (path.reverse ++ here.address) m ↔ g.Notes m := by
  constructor
  · rintro ⟨path', g', hg', haddress, hnotes⟩
    obtain rfl := List.reverse_injective (List.append_cancel_right haddress)
    exact Option.some.inj (hg.symm.trans hg') ▸ hnotes
  · intro hnotes
    exact ⟨path, g, hg, rfl, hnotes⟩

/-- The table has what is found out about a function and about all inside it, when the code around
it has strictness `outer`. -/
def Describes (table : Table) (outer : Bool) (here : Place) : Prop :=
  ∀ path g, here.function.at? path = some g → table[path.reverse ++ here.address]? =
    some (g.findings (g.strict || here.function.strictAround outer path))

theorem Describes.self {here : Place} (h : table.Describes outer here) :
    table[here.address]? = some (here.function.findings (here.function.strict || outer)) :=
  h [] here.function rfl

theorem Describes.inner {i : Nat} (h : table.Describes outer ⟨address, f⟩)
    (hg : f.functions[i]? = some g) : table.Describes (f.strict || outer) ⟨i :: address, g⟩ := by
  intro path k hk
  have hpath := h (i :: path) k ((Function.at?_cons hg path).trans hk)
  rw [Function.strictAround, hg, reverse_cons_append] at hpath
  exact hpath

/-- **What is found out about the functions of a tree**, when their declarations are collected and
all their names are walked outwards, is told by the rules. Nothing around the tree matters, as long
as it is not inside. -/
theorem describes_resolve_collect {here : Place} {around : List Place}
    (haround : ∀ up ∈ around.head?, ¬ here.address <:+ up.address) (outer : Bool) :
    ((collect outer here.address ∅ here.function).resolve here.address around
      here.function).Describes outer here := by
  intro path g hg
  have hknown : ∀ path g, here.function.at? path = some g →
      (collect outer here.address ∅ here.function).declared (path.reverse ++ here.address) =
        some g.declarations := by
    intro path g hg
    rw [declared, getElem?_collect hg]
    rfl
  have hunknown : Around (collect outer here.address ∅ here.function).declared [] around := by
    refine ⟨fun _ hup => absurd hup List.not_mem_nil, fun up hup => ?_⟩
    rw [declared, getElem?_collect_of_outside (haround up hup)]
    rfl
  have hnoted := noted_resolve hknown hunknown (path.reverse ++ here.address)
  rw [List.nil_append, getElem?_collect hg] at hnoted
  -- the table had findings at this address, so it still has, and only their marks are new
  generalize (resolve here.address around (collect outer here.address ∅ here.function)
    here.function)[path.reverse ++ here.address]? = result at hnoted ⊢
  obtain ⟨hfound⟩ := hnoted
  refine congrArg some (Findings.eq_of_has hfound.declarations hfound.strict hfound.manyParams ?_)
  intro m
  have hfresh : ¬ (g.collected (g.strict || here.function.strictAround outer path)).has m := by
    cases m <;> exact Bool.false_ne_true
  rw [Bool.eq_iff_iff, hfound.has, or_iff_right hfresh, Function.has_findings]
  exact (or_iff_left not_spread_nil).trans (held_at_iff hg)

end Table

end Bytecode
