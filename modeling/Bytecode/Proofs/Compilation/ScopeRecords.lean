import Mathlib
import Bytecode.Proofs.Compilation.Contents
import Bytecode.Proofs.Scope.Locals
import Bytecode.Proofs.Unit.Slots

/-!
# Scope records of compiled functions

A function whose variables are used from elsewhere keeps them in a scope record, which the prologue
of its routine makes. The size of the record is the number of names that analysis listed. Whatever
the lowering goes on to write, the prologue stays at the start of the routine and gets into the
compiled unit with it.

## Main definitions

* `Lowering.Asks`: what the lowering does is to make requests
* `Function.MakesScope`: the prologue in the record of a routine makes a scope record of some size

## Main results

* `Build.exists_record_of_function`: the record of a function
* `Build.exists_records_of_functions`: the records of all functions, in order
* `analyse_locals_scopeRecords`: the locals that analysis lists, and the scope records of their size
-/

namespace Bytecode

/-- What the lowering does with the function that is handed over is to make requests of the unit.
Nothing is said about which ones, and it may give requests up that fail. -/
def Lowering.Asks (lower : Lowering) (h : Handover) : Prop :=
  ∃ requests, leaves (lower h.function h.id) h.unit = h.unit.after requests

/-- If the function has a scope record, then its routine makes one of the given size. The
instruction for it comes after the parent scope is there, and after the callee was copied if it had
to be. -/
def Function.MakesScope (f : Function) (size : Nat) (record : RoutineRecord) : Prop :=
  ∃ a code, f.attributes = .ok a ∧ Code.decode record.code = .ok code ∧
    (a.hasScopeBlock = true → ∃ n : UInt16, n.toNat = size ∧
      (code.map Placed.instruction)[(if a.usesSelfSymbol then 2 else 0) + 1]? =
        some ⟨.newScope, n⟩)

namespace Routine

variable {r last : Routine} {record : RoutineRecord}

/-- The record of a routine has its title, and the code that was written first is there. -/
theorem record_of_continues (hlast : r.Continues last) (hform : last.assembler.WellFormed)
    (hrecord : last.record = .ok record) :
    record.member = (r.name, r.signature.descriptor) ∧
      ∃ code, Code.decode record.code = .ok code ∧ ∀ (k : Nat) i,
        r.assembler.instructions[k]? = some i →
          (code.map Placed.instruction)[k]? = some (i.map last.assembler.offsetOf) := by
  obtain ⟨bytes, hfinish, -, -, rfl⟩ := record_eq_ok hrecord
  obtain ⟨-, rfl, -⟩ := hform.finish_eq_ok hfinish
  refine ⟨?_, _, Code.decode_encode _, fun k i hi => ?_⟩
  · rw [← hlast.name_eq, ← hlast.signature_eq]
    rfl
  · rw [Code.placed, Code.map_instruction_placedFrom, Assembler.resolved, List.getElem?_map,
      getElem?_of_prefix hlast.code_grows hi]
    rfl

end Routine

namespace Build

open UnitBuilder

variable {lower : Lowering} {f : Function} {fs : List Function} {u v w : UnitBuilder} {id : Nat}

/-- A routine that was opened for a function is called after it, and its prologue makes the scope
record. -/
theorem exists_routine_of_openFunction (h : openFunction f u = .ok id v) :
    ∃ a r, f.attributes = .ok a ∧ v.routines[id]? = some r ∧ f.Titled (r.name, r.signature) ∧
      (a.hasScopeBlock = true → ∃ n : UInt16, n.toNat = f.locals.length ∧
        r.assembler.instructions[(if a.usesSelfSymbol then 2 else 0) + 1]? =
          some ⟨.newScope, n⟩) := by
  have hopen : Ends (openFunction f) u (fun id v => ∃ a, f.attributes = .ok a ∧
      openRoutine f.routineName a f.params.length f.locals.length u = .ok id v)
      fun _ _ => True := by
    refine Ends.bind (ends_ofExcept (fun _ _ => trivial) fun a ha => ?_)
    exact (Ends.self _ _).mono (fun id v hv => ⟨a, ha, hv⟩) fun _ _ _ => trivial
  obtain ⟨a, ha, hroutine⟩ := hopen.ok h
  obtain ⟨hopenable, r, hr, hopened, hlaidOut, hprepared⟩ := exists_laidOut hroutine
  obtain ⟨k, hname, -⟩ := u.exists_uniqueName f.routineName
    (Signature.ofAttributes a f.params.length).descriptor
  refine ⟨a, r, ha, hr, ⟨a, k, ha, ?_⟩, fun hblock => ?_⟩
  · rw [hopened.name_eq, hopened.signature_eq, hname]
  · refine ⟨f.locals.length.toUInt16, toNat_scopeSize hopenable hblock, ?_⟩
    rw [hprepared.code]
    exact hlaidOut.getElem?_prologue hblock _

/-- **The record of a function.** It comes after the records that were there, and it starts with the
prologue that was written when the routine was opened. -/
theorem exists_record_of_function {x : Unit} (hu : u.Linked)
    (hasks : ∀ id v, openFunction f u = .ok id v → lower.Asks ⟨f, id, v⟩)
    (hrun : function lower f u = .ok x w) :
    w.Linked ∧ ∃ record, (u.finished.toList ++ [record]).Sublist w.finished.toList ∧
      f.RecordedAs record ∧ f.MakesScope f.locals.length record := by
  obtain ⟨id, v, hopen, ⟨v', hlower, hend⟩, -⟩ := @handovers_of_function u f [] lower x w hrun
  obtain ⟨requests, hleaves⟩ := hasks id v hopen
  obtain rfl : v' = v.after requests := by rw [← hleaves, leaves, hlower]
  -- opening, lowering and ending are a course of the unit, in which nothing is taken back
  obtain ⟨hv, hgrows⟩ := ((course_perform _ u).ok (perform_openFunction hopen)).linked_grows hu
  obtain ⟨hv', hgrows'⟩ := (course_after v requests).linked_grows hv
  have hw := (((course_perform (.endRoutine id) _).ok hend).linked_grows hv').1
  obtain ⟨a, r, ha, hr, htitled, hscope⟩ := exists_routine_of_openFunction hopen
  obtain ⟨last, hlast, hcontinues⟩ := hgrows'.routines id r hr
  obtain ⟨last', record, hlast', hrecord, hfinished⟩ := ends_endRoutine_record.ok hend
  obtain rfl : last' = last := Option.some.inj (hlast'.symm.trans hlast)
  have hform := (hv'.routines id last' hlast').wellFormed
  obtain ⟨hmember, code, hdecode, hcode⟩ := Routine.record_of_continues hcontinues hform hrecord
  refine ⟨hw, record, ?_, htitled.recordedAs hmember, a, code, ha, hdecode, fun hblock => ?_⟩
  · rw [hfinished, Array.toList_push]
    exact (hgrows.finished.trans hgrows'.finished).sublist.append (.refl _)
  · obtain ⟨n, hn, hinstruction⟩ := hscope hblock
    exact ⟨n, hn, hcode _ _ hinstruction⟩

/-- **The records of all functions**, in order. -/
theorem exists_records_of_functions {x : Unit} (hu : u.Linked)
    (hasks : ∀ h ∈ lower.handovers fs u, lower.Asks h)
    (hrun : fs.forM (function lower) u = .ok x w) :
    w.Linked ∧ ∃ records, (u.finished.toList ++ records).Sublist w.finished.toList ∧
      List.Forall₂ (fun f record => f.RecordedAs record ∧ f.MakesScope f.locals.length record)
        fs records := by
  induction fs generalizing u with
  | nil =>
    cases hrun
    exact ⟨hu, [], by rw [List.append_nil], .nil⟩
  | cons f rest ih =>
    obtain ⟨_, w', hf, hrest⟩ := exists_of_bind_ok hrun
    obtain ⟨id, v, -, -, hhandovers⟩ := @handovers_of_function u f rest lower _ w' hf
    obtain ⟨hw', record, hsub, hrecord⟩ :=
      exists_record_of_function hu (fun id v hopen => hasks _ (mem_handovers hopen)) hf
    rw [hhandovers] at hasks
    obtain ⟨hw, records, hsubs, hrecords⟩ :=
      ih hw' (fun h hh => hasks h (List.mem_cons_of_mem _ hh)) hrest
    refine ⟨hw, record :: records, ?_, .cons hrecord hrecords⟩
    rw [← List.singleton_append, ← List.append_assoc]
    exact (hsub.append (.refl records)).trans hsubs

theorem encode_of_finish (h : finish u = .ok () v) : v.image.encode = .ok v.bytes := by
  have hends : Ends finish u (fun _ v => v.image.encode = .ok v.bytes) fun _ _ => True := by
    refine ends_finish_restored.mono ?_ fun _ _ _ => trivial
    rintro - _ ⟨-, -, w, context, bytes, hassemble, rfl⟩
    exact (ends_assemble_steps.ok hassemble).2
  exact hends.ok h

/-- A unit with the routines of some functions has their records in order. -/
theorem exists_records_of_program {context : Context} {name source : Text} {strict : Bool}
    {bytes : Bytes} {entryPoints : List Text}
    (hasks : ∀ h ∈ lower.programHandovers fs (.new context name source strict), lower.Asks h)
    (hrun : Build.program lower fs (.new context name source strict) =
      .ok (bytes, entryPoints) w) :
    w.image.encode = .ok bytes ∧ ∃ records, records.Sublist w.image.routines ∧
      List.Forall₂ (fun f record => f.RecordedAs record ∧ f.MakesScope f.locals.length record)
        fs records := by
  obtain ⟨v, hbegin, hfunctions, hfinish, rfl, rfl⟩ := program_eq_ok hrun
  have hnew := linked_new context name source strict
  have hstart : ({ new context name source strict with phase := .started } : UnitBuilder).Linked :=
    ⟨hnew.symbols, hnew.routines⟩
  rw [Lowering.programHandovers, hbegin] at hasks
  obtain ⟨hv, records, hsub, hrecords⟩ :=
    exists_records_of_functions hstart hasks hfunctions
  -- the accessors come after the functions
  have hgrows := (((course_perform .finish v).ok hfinish).linked_grows hv).2
  exact ⟨encode_of_finish hfinish, records, hsub.trans hgrows.finished.sublist, hrecords⟩

end Build

/-! ### Compiled programs -/

section Compiled

variable {lower : Lowering} {unitName : Text} {root given : Function} {context : Context}
  {bytes : Bytes} {entryPoints : List Text}

/-- A program is analysed when it is compiled, unless it was analysed before. -/
theorem exists_analyse_given (hroot : root.facts = none)
    (hgiven : given = root ∨ ∃ before after, root.analyse before = .ok given after)
    (context : Context) : ∃ options program context', given.analyse context = .ok program context' ∧
      List.Forall₂ (Function.Annotates options) root.preorder program.preorder := by
  rcases hgiven with rfl | ⟨before, after, hbefore⟩
  · exact ⟨_, given.exists_analyse_preorder hroot context⟩
  · obtain ⟨program, context', hanalyse, hpreorder⟩ := root.exists_analyse_preorder hroot before
    obtain ⟨rfl, -⟩ := EStateM.Result.ok.inj (hanalyse.symm.trans hbefore)
    obtain ⟨functions, strict, hfacts⟩ := Function.Annotates.of_preorder hpreorder
    refine ⟨_, program, context, ?_, hpreorder⟩
    rw [hfacts]
    rfl

end Compiled

/-- **The locals that analysis lists, and the scope records of their size.** Analysis lists, for
each function of a program, its parameters and then the names declared in its body: in source order,
each one where it comes up first, however deep the statement is nested, but not in functions inside.
These are the names by which others are resolved. When the program is compiled, whether it was
analysed before or not and whatever requests the lowering makes, its functions have routines in
order. The prologue of each one that keeps its variables in a scope record makes a record with as
many slots as there are different names. -/
theorem analyse_locals_scopeRecords {root : Function} (hroot : root.facts = none) :
    (∀ context, ∃ root' context', root.analyse context = .ok root' context' ∧
      ∀ path f, root.at? path = some f → ∃ f', root'.at? path = some f' ∧ f.ListsLocals f') ∧
    ∀ lower unitName given context bytes entryPoints,
      (given = root ∨ ∃ before after, root.analyse before = .ok given after) →
      (∀ h ∈ Lowering.handed lower unitName given context, lower.Asks h) →
      (compile lower unitName given context).outcome = .compiled bytes entryPoints →
      let program := (compile lower unitName given context).program
      List.Forall₂ Function.ListsLocals root.preorder program.preorder ∧
        ∃ (image : Image) (records : List RoutineRecord), image.encode = .ok bytes ∧
          records.Sublist image.routines ∧ ∀ (i : Nat) (f : Function), root.preorder[i]? = some f →
            ∃ (f' : Function) (record : RoutineRecord), program.preorder[i]? = some f' ∧
              records[i]? = some record ∧ f'.RecordedAs record ∧
              f'.MakesScope f.ownNames.toFinset.card record := by
  refine ⟨fun context => ?_, ?_⟩
  · obtain ⟨context', hanalyse⟩ := Function.exists_analyse hroot context
    refine ⟨_, context', hanalyse, fun path f hf => ?_⟩
    exact ⟨_, Function.at?_annotated hf, (f.annotates_annotated _).listsLocals⟩
  intro lower unitName given context bytes entryPoints hgiven hasks hcompiled
  obtain ⟨options, program, context', hanalyse, hpreorder⟩ :=
    exists_analyse_given hroot hgiven context
  obtain ⟨a, ha, -⟩ := (Function.Annotates.of_preorder hpreorder).attributes
  rw [program_compile hanalyse ha]
  rw [handed_eq hanalyse ha] at hasks
  obtain ⟨w, hprogram⟩ := exists_program_of_compiled hanalyse ha hcompiled
  obtain ⟨hencode, records, hsub, hrecords⟩ := Build.exists_records_of_program hasks hprogram
  refine ⟨hpreorder.imp fun _ _ h => h.listsLocals, w.image, records, hencode, hsub, ?_⟩
  intro i f hf
  obtain ⟨f', hf', hannotates⟩ := getElem?_of_forall₂ hpreorder hf
  obtain ⟨record, hrecord, hrecorded, hscope⟩ := getElem?_of_forall₂ hrecords hf'
  refine ⟨f', record, hf', hrecord, hrecorded, ?_⟩
  rw [← hannotates.listsLocals.length_eq]
  exact hscope

/-- A program with a function `f` that calls `eval` and declares three names in four places. The
name `z` is declared only in the function inside it. -/
def hoistedProgram : Function where
  form := .program
  body := [.function (some 0)]
  functions := [{
    name := "f"
    params := ["x"]
    body := [.cond (.call (.name "eval") []) [.block [.var "y" .absent]] [.var "x" .absent],
      .function (some 0)]
    functions := [{ name := "g", body := [.var "z" .absent] }] }]

/-- The program with its attributes and with the given lists of locals. -/
def hoistedWith (programLocals fLocals gLocals : List Text) : Function :=
  let shared : List Attribute := [.needsParentScope, .needsCallee, .hasScopeBlock, .allVarsInScope]
  { hoistedProgram with
    facts := some ⟨.ofList shared, programLocals⟩
    functions := hoistedProgram.functions.map fun f => { f with
      facts := some ⟨.ofList (.isVarArg :: .hasEval :: shared), fLocals⟩
      functions := f.functions.map fun g => { g with facts := some ⟨{}, gLocals⟩ } } }

theorem hoistedProgram_scopeRecords :
    let given := hoistedWith ["f"] ["x", "y", "g"] ["z"]
    (∃ after, hoistedProgram.analyse {} = .ok given after) ∧
      ∃ (bytes : Bytes) (entryPoints : List Text) (image : Image) (records : List RoutineRecord)
        (record : RoutineRecord) (code : List Placed) (n : UInt16),
        (compile (.ofCalls mapCalls) "unit" given {}).outcome = .compiled bytes entryPoints ∧
        image.encode = .ok bytes ∧ records.Sublist image.routines ∧ records[1]? = some record ∧
        Code.decode record.code = .ok code ∧ n.toNat = 3 ∧
        (code.map Placed.instruction)[1]? = some ⟨.newScope, n⟩ := by
  intro given
  -- sets of names do not compute, so the lists of locals are found by what is known of them
  have hanalyse : ∃ after, hoistedProgram.analyse {} = .ok (hoistedWith (Text.distinct ["f"])
      (Text.distinct ["x", "y", "x", "g"]) (Text.distinct ["z"])) after := ⟨_, rfl⟩
  rw [Text.distinct_eq, Text.distinct_eq, Text.distinct_eq] at hanalyse
  obtain ⟨after, hanalyse⟩ := hanalyse
  have hentries : (compile (.ofCalls mapCalls) "unit" given {}).outcome.entryPoints?.isSome =
      true := by decide +kernel
  obtain ⟨bytes, entryPoints, hbytes⟩ : ∃ bytes entryPoints,
      (compile (.ofCalls mapCalls) "unit" given {}).outcome = .compiled bytes entryPoints := by
    cases h : (compile (.ofCalls mapCalls) "unit" given {}).outcome with
    | compiled bytes entryPoints => exact ⟨bytes, entryPoints, rfl⟩
    | rejected | failed =>
      rw [h] at hentries
      cases hentries
  have hgiven : hoistedProgram.analyse {} = .ok given after := hanalyse
  have hroot : hoistedProgram.facts = none := rfl
  obtain ⟨-, hcompiled⟩ := analyse_locals_scopeRecords hroot
  obtain ⟨-, image, records, hencode, hsub, hrecords⟩ := hcompiled (.ofCalls mapCalls) "unit" given
    {} bytes entryPoints (.inr ⟨{}, after, hgiven⟩) (fun h _ => ⟨mapCalls h, rfl⟩) hbytes
  obtain ⟨f', record, hf', hrecord, -, a, code, ha, hdecode, hscope⟩ := hrecords 1 _ rfl
  have hkept : given.analyse {} = .ok given {} := rfl
  rw [program_compile hkept rfl] at hf'
  obtain rfl := Option.some.inj hf'
  obtain rfl := Except.ok.inj ha
  obtain ⟨n, hn, hcode⟩ := hscope rfl
  exact ⟨⟨after, hgiven⟩, bytes, entryPoints, image, records, record, code, n, hbytes, hencode,
    hsub, hrecord, hdecode, hn.trans (by decide), hcode⟩

end Bytecode
