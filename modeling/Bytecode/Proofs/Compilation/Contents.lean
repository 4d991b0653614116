import Mathlib
import Bytecode.Proofs.Compilation.Handovers
import Bytecode.Proofs.Image.LongTexts
import Bytecode.Proofs.Scope.Preorder

/-!
# What compiled units contain

A unit that comes out of a compilation can be read back. It has a routine for each function of the
program, in order, under the name of the function or a numbered one, and after them the accessors
that the lowering asked for. Analysis, naming, lowering, assembly and the encoding each leave the
order alone, and none of them loses or doubles a routine.

## Main definitions

* `Lowering.handed`: the functions that a compilation hands over
* `Function.RecordedAs`: the record of a routine for a function

## Main results

* `Build.program_eq_ok`: the stages of a compilation
* `compile_contents`: what a compiled unit contains
* `decode_compile_zeros`: a compiled unit that cannot be read back
-/

namespace Bytecode

/-! ### The stages of a compilation -/

/-- The unit that a compilation starts with. -/
def startUnit (unitName : Text) (program : Function) (strict : Bool) (context : Context) :
    UnitBuilder :=
  let measured := context.measure fun m => { m with tree := some program.treeSize }
  .new (measured.measure (·.start "Emit")) unitName unitName strict

/-- The functions that a compilation hands over to the lowering. -/
def Lowering.handed (lower : Lowering) (unitName : Text) (root : Function) (context : Context) :
    List Handover :=
  match root.analyse context with
  | .error _ _ => []
  | .ok program context =>
    match program.attributes with
    | .error _ => []
    | .ok a =>
      lower.programHandovers program.preorder (startUnit unitName program a.isStrict context)

section Stages

variable {lower : Lowering} {unitName : Text} {root program : Function} {context context' : Context}
  {a : Attributes} (hanalyse : root.analyse context = .ok program context')
  (ha : program.attributes = .ok a)

include hanalyse ha

theorem handed_eq : lower.handed unitName root context =
    lower.programHandovers program.preorder (startUnit unitName program a.isStrict context') := by
  simp only [Lowering.handed, hanalyse, ha]

theorem program_compile : (compile lower unitName root context).program = program := by
  simp only [compile, hanalyse, ha, emitProgram]
  split
  · rfl
  · rfl

/-- A program that was analysed is made in a unit, and compiled if this can be done. -/
theorem ends_compile :
    Ends (Emitting.program lower program) ⟨startUnit unitName program a.isStrict context', program⟩
      (fun x _ => (compile lower unitName root context).outcome = .compiled x.1 x.2)
      fun e s => (compile lower unitName root context).outcome =
        .ofError unitName s.current e := by
  simp only [compile, hanalyse, ha, emitProgram]
  cases hrun : Emitting.program lower program
    ⟨startUnit unitName program a.isStrict context', program⟩ with
  | ok x s =>
    refine Ends.of_ok hrun ?_
    unfold startUnit at hrun
    simp only [hrun]
  | error e s =>
    refine Ends.of_error hrun ?_
    unfold startUnit at hrun
    simp only [hrun]

end Stages

theorem Outcome.compiled_ne_ofError (bytes : Bytes) (entryPoints : List Text) (unitName : Text)
    (current : Function) (e : Error) :
    Outcome.compiled bytes entryPoints ≠ .ofError unitName current e := by
  cases e <;> rintro ⟨⟩

/-- A program that was compiled could be made. -/
theorem exists_program_of_compiled {lower : Lowering} {unitName : Text} {root program : Function}
    {context context' : Context} {a : Attributes} {bytes : Bytes} {entryPoints : List Text}
    (hanalyse : root.analyse context = .ok program context') (ha : program.attributes = .ok a)
    (hcompiled : (compile lower unitName root context).outcome = .compiled bytes entryPoints) :
    ∃ w, Build.program lower program.preorder
      (startUnit unitName program a.isStrict context') = .ok (bytes, entryPoints) w := by
  let unit := startUnit unitName program a.isStrict context'
  have hends := (ends_compile hanalyse ha).and
    (Emitting.ends_program (Ends.self (Build.program lower program.preorder) unit))
  cases hrun : Emitting.program lower program ⟨unit, program⟩ with
  | error e s =>
    have houtcome := hcompiled.symm.trans (hends.error hrun).1
    exact absurd houtcome (Outcome.compiled_ne_ofError _ _ _ _ _)
  | ok x s =>
    obtain ⟨houtcome, hprogram⟩ := hends.ok hrun
    obtain ⟨rfl, rfl⟩ := Outcome.compiled.inj (hcompiled.symm.trans houtcome)
    exact ⟨s.unit, hprogram⟩

theorem Build.ends_begin {u : UnitBuilder} :
    Ends Build.begin u (fun _ v => v = { u with phase := .started }) fun _ v => v = u := by
  refine Ends.bind (ends_requirePhase (fun _ _ => rfl) fun _ => Ends.bind (Ends.get ?_))
  refine Ends.bind (ends_ofExcept (fun _ _ => rfl) fun _ _ => ?_)
  exact Ends.bind (ends_ofExcept (fun _ _ => rfl) fun _ _ => Ends.modify rfl)

/-- A unit is begun, has a routine made for each function, and is ended. -/
theorem Build.program_eq_ok {lower : Lowering} {fs : List Function} {bytes : Bytes}
    {entryPoints : List Text} {u w : UnitBuilder}
    (h : Build.program lower fs u = .ok (bytes, entryPoints) w) :
    ∃ v, Build.begin u = .ok () { u with phase := .started } ∧
      fs.forM (function lower) { u with phase := .started } = .ok () v ∧
      Build.finish v = .ok () w ∧ bytes = w.bytes ∧ entryPoints = w.entryPoints := by
  obtain ⟨_, u', hbegin, h⟩ := exists_of_bind_ok h
  obtain ⟨_, v, hfunctions, h⟩ := exists_of_bind_ok h
  obtain ⟨_, w', hfinish, h⟩ := exists_of_bind_ok h
  obtain ⟨bytes', w'', hbytes, hreturn⟩ := exists_of_bind_ok h
  obtain rfl := ends_begin.ok hbegin
  obtain ⟨rfl, hpublished⟩ := toBytes_eq_ok_iff.mp hbytes
  cases hreturn
  refine ⟨v, hbegin, hfunctions, hfinish, ?_, rfl⟩
  unfold UnitBuilder.published at hpublished
  split at hpublished
  · exact (Option.some.inj hpublished).symm
  · cases hpublished

/-! ### Records of functions -/

/-- The record is that of a routine for the function: its type is that of the function, and it has
the name of the function, or this name with a number. -/
def Function.RecordedAs (f : Function) (record : RoutineRecord) : Prop :=
  ∃ a, f.attributes = .ok a ∧
    record.descriptor = (Signature.ofAttributes a f.params.length).descriptor ∧
    (record.name = f.routineName ∨
      ∃ k, 1 ≤ k ∧ record.name = f.routineName ++ "$" ++ Text.ofNat k)

theorem Function.Titled.recordedAs {f : Function} {title : Text × Signature}
    {record : RoutineRecord} (h : f.Titled title)
    (hrecord : record.member = (title.1, title.2.descriptor)) : f.RecordedAs record := by
  obtain ⟨a, k, ha, rfl⟩ := h
  obtain ⟨hname, hdescriptor⟩ := Prod.mk.inj hrecord
  refine ⟨a, ha, hdescriptor, ?_⟩
  cases k with
  | zero => exact .inl hname
  | succ k => exact .inr ⟨k + 1, Nat.le_add_left 1 k, hname⟩

namespace UnitBuilder

variable {u : UnitBuilder} {fs : List Function}

/-- The records of a unit are those of its routines, in order. -/
theorem Made.members_eq (h : u.Made fs) :
    u.members = u.titles.map fun title => (title.1, title.2.descriptor) := by
  have hlife := h.lifecycle
  rw [← h.size_eq] at hlife
  rw [members, hlife.map_finished fun _ _ hrecord => hrecord.member_eq, titles, List.map_map]
  rfl

theorem Made.recordedAs (h : u.Made fs) :
    List.Forall₂ Function.RecordedAs fs u.finished.toList := by
  have hmembers : List.Forall₂ (fun (f : Function) (member : Text × Text) =>
      ∃ title, f.Titled title ∧ member = (title.1, title.2.descriptor)) fs u.members := by
    rw [h.members_eq, List.forall₂_map_right_iff]
    exact h.titled.imp fun f title htitle => ⟨title, htitle, rfl⟩
  rw [members, List.forall₂_map_right_iff] at hmembers
  refine hmembers.imp ?_
  rintro f record ⟨title, htitle, hrecord⟩
  exact htitle.recordedAs hrecord

theorem made_begun (context : Context) (name source : Text) (strict : Bool) :
    ({ new context name source strict with phase := .started } : UnitBuilder).Made [] where
  phase_eq := rfl
  fields_le := Nat.le_refl 3
  lifecycle := { lifecycle_new context name source strict with started := fun _ => rfl }
  titled := .nil

end UnitBuilder

/-! ### Contents of a unit -/

/-- The requests that are made for functions pool only constants that the lowering did. -/
theorem Lowering.mem_requests {calls : Handover → List UnitRequest} {hs : List Handover}
    {r : UnitRequest} (hr : r ∈ requests calls hs) :
    (∃ f, r = .openFunction f) ∨ (∃ id, r = .endRoutine id) ∨ ∃ h ∈ hs, r ∈ calls h := by
  obtain ⟨h, hh, hr⟩ := List.mem_flatMap.mp hr
  rcases List.mem_cons.mp hr with rfl | hr
  · exact .inl ⟨h.function, rfl⟩
  · rcases List.mem_append.mp hr with hr | hr
    · exact .inr (.inr ⟨h, hh, hr⟩)
    · exact .inr (.inl ⟨h.id, List.mem_singleton.mp hr⟩)

/-- One of the requests that are made for functions loads the constant. -/
def Lowering.Loads (calls : Handover → List UnitRequest) (hs : List Handover) (c : Constant) :
    Prop :=
  ∃ h ∈ hs, ∃ id, .loadConstant id c ∈ calls h

/-- All that happens to a unit before it is ended is a matter of requests. The routines of its
functions have been made then, its constants are some that the lowering loads, and the accessors
that it asked for are still to come. -/
theorem Build.functions_pooled {context : Context} {name source : Text} {strict : Bool}
    {lower : Lowering} {calls : Handover → List UnitRequest} {fs : List Function}
    {v : UnitBuilder}
    (hcalls : ∀ h ∈ lower.programHandovers fs (.new context name source strict),
      lower.Makes calls h)
    (hbegin : Build.begin (.new context name source strict) =
      .ok () { UnitBuilder.new context name source strict with phase := .started })
    (hfunctions : fs.forM (function lower)
      { UnitBuilder.new context name source strict with phase := .started } = .ok () v) :
    let start := UnitBuilder.new context name source strict
    v.Made fs ∧ start.Evolves v ∧
      (∀ c ∈ v.pool.entries, Lowering.Loads calls (lower.programHandovers fs start) c) ∧
      ∃ requests, v = start.after requests ∧ .finish ∉ requests ∧ start.asked requests =
        (lower.programHandovers fs start).flatMap fun h => h.unit.asked (calls h) := by
  intro start
  have hhandovers : lower.programHandovers fs start =
      lower.handovers fs { start with phase := .started } := by
    rw [Lowering.programHandovers, hbegin]
  rw [hhandovers] at hcalls ⊢
  have hmade : v.Made fs :=
    (ends_functions_made (UnitBuilder.made_begun context name source strict) hcalls).ok hfunctions
  obtain ⟨hafter, hasked⟩ := functions_eq_after hcalls hfunctions
  let hs := lower.handovers fs { start with phase := .started }
  let requests : List UnitRequest := .begin :: Lowering.requests calls hs
  have hv : v = start.after requests := by
    rw [UnitBuilder.after_cons_of_ok (r := .begin) hbegin]
    exact hafter
  have hasks : start.asked requests = hs.flatMap fun h => h.unit.asked (calls h) := by
    rw [← hasked, UnitBuilder.asked, leaves, perform, hbegin]
    rfl
  have hkinds : ∀ r ∈ requests, r = .begin ∨ (∃ f, r = .openFunction f) ∨ r.IsWork := by
    intro r hr
    rcases List.mem_cons.mp hr with rfl | hr
    · exact .inl rfl
    · rcases Lowering.mem_requests hr with hopen | ⟨id, rfl⟩ | ⟨h, hh, hr⟩
      · exact .inr (.inl hopen)
      · exact .inr (.inr trivial)
      · exact .inr (.inr ((hcalls h hh).isWork r hr))
  have hfields : ∀ f, .field f ∈ requests → f.type ≠ .void := by
    intro f hf
    rcases hkinds _ hf with hf | ⟨_, hf⟩ | hf
    · cases hf
    · cases hf
    · exact hf.elim
  have hfinish : .finish ∉ requests := by
    intro hf
    rcases hkinds _ hf with hf | ⟨_, hf⟩ | hf
    · cases hf
    · cases hf
    · exact hf.elim
  refine ⟨hmade, ?_, ?_, requests, hv, hfinish, hasks⟩
  · rw [hv]
    exact UnitBuilder.evolves_after (UnitBuilder.sound_new context name source strict) hfields
  · intro c hc
    rw [hv] at hc
    rcases UnitBuilder.mem_entries_after hc with hc | ⟨r, hr, hc⟩
    · cases hc
    · rcases List.mem_cons.mp hr with rfl | hr
      · cases hc
      · rcases Lowering.mem_requests hr with ⟨_, rfl⟩ | ⟨_, rfl⟩ | ⟨h, hh, hr⟩
        · cases hc
        · cases hc
        · have hwork := (hcalls h hh).isWork r hr
          cases r with
          | loadConstant id d =>
            cases hc
            exact ⟨h, hh, id, hr⟩
          | intern => exact hwork.elim
          | _ => cases hc

/-- A unit with the routines of some functions has these routines in order, and the accessors that
the lowering asked for. It can be read back if its texts fit, and its constants are some that the
lowering loads. -/
theorem Build.program_contents {context : Context} {name source : Text} {strict : Bool}
    {lower : Lowering} {calls : Handover → List UnitRequest} {fs : List Function} {bytes : Bytes}
    {entryPoints : List Text} {w : UnitBuilder}
    (hcalls : ∀ h ∈ lower.programHandovers fs (.new context name source strict),
      lower.Makes calls h)
    (hrun : Build.program lower fs (.new context name source strict) =
      .ok (bytes, entryPoints) w) :
    let hs := lower.programHandovers fs (.new context name source strict)
    w.Sound ∧ w.image.encode = .ok bytes ∧
      (∀ c ∈ w.image.constants, Lowering.Loads calls hs c) ∧
      (Image.decode bytes = .ok w.image ↔ ∀ c ∈ w.image.constants, c.TextsFit) ∧
      w.image.strict = strict ∧ w.image.routines.map RoutineRecord.identity = entryPoints ∧
      entryPoints.Nodup ∧
      ∃ functions accessors, w.image.routines = functions ++ accessors ∧
        List.Forall₂ Function.RecordedAs fs functions ∧
        accessors.map RoutineRecord.member =
          (Pool.types.filter ((hs.flatMap fun h => h.unit.asked (calls h)).contains)).flatMap
            Pool.accessorMembers := by
  intro hs
  obtain ⟨v, hbegin, hfunctions, hfinish, rfl, rfl⟩ := program_eq_ok hrun
  obtain ⟨hmade, hevolves, hloads, requests, hv, -, hasks⟩ :=
    functions_pooled hcalls hbegin hfunctions
  obtain ⟨hfinished, hencode, -⟩ := (ends_finish hevolves.sound).ok hfinish
  rw [← ((stepwise_finish v).ok hfinish).pool_eq] at hloads
  have hlife := ((ends_finish_staged ⟨hmade.lifecycle, rfl⟩).ok hfinish).2.1
  obtain ⟨ids, -, hw⟩ := hlife
  refine ⟨hfinished.sound, hencode, hloads, hfinished.sound.decode_image_iff hencode,
    congrArg UnitHeader.strict (hevolves.trans hfinished).header_eq, rfl,
    hw.lifecycle.nodup_entryPoints, v.finished.toList, ?_⟩
  rw [hv] at hfinish
  obtain ⟨added, hroutines, hadded⟩ := exists_added hfinish
  rw [← hv] at hroutines
  rw [hasks] at hadded
  exact ⟨added, hroutines, hmade.recordedAs, hadded⟩

/-- **What a compiled unit contains.** Whatever requests about routines the lowering makes: the
routines of a unit that was compiled are those that are listed, no two of them the same. It has one
for each function of the program, in order, and after them the accessors for the types that the
lowering asked for. The unit is strict when the program is. Its constants are some that the lowering
loads, and it is read back from its bytes exactly when every text in them has a length that fits in
four bytes. -/
theorem compile_contents {lower : Lowering} {calls : Handover → List UnitRequest} {unitName : Text}
    {root : Function} {context : Context} {bytes : Bytes} {entryPoints : List Text}
    (hroot : root.facts = none)
    (hcalls : ∀ h ∈ lower.handed unitName root context, lower.Makes calls h)
    (hcompiled : (compile lower unitName root context).outcome = .compiled bytes entryPoints) :
    let program := (compile lower unitName root context).program
    let asked := (lower.handed unitName root context).flatMap fun h => h.unit.asked (calls h)
    List.Forall₂ (Function.Annotates context.options) root.preorder program.preorder ∧
      ∃ image functions accessors a, image.encode = .ok bytes ∧
        (∀ c ∈ image.constants,
          Lowering.Loads calls (lower.handed unitName root context) c) ∧
        (Image.decode bytes = .ok image ↔ ∀ c ∈ image.constants, c.TextsFit) ∧
        image.routines.map RoutineRecord.identity = entryPoints ∧ entryPoints.Nodup ∧
        image.routines = functions ++ accessors ∧
        List.Forall₂ Function.RecordedAs program.preorder functions ∧
        accessors.map RoutineRecord.member =
          (Pool.types.filter asked.contains).flatMap Pool.accessorMembers ∧
        program.attributes = .ok a ∧ image.strict = a.isStrict := by
  obtain ⟨program, context', hanalyse, hpreorder⟩ := root.exists_analyse_preorder hroot context
  obtain ⟨a, ha, -⟩ := (Function.Annotates.of_preorder hpreorder).attributes
  rw [program_compile hanalyse ha]
  rw [handed_eq hanalyse ha] at hcalls ⊢
  refine ⟨hpreorder, ?_⟩
  obtain ⟨w, hprogram⟩ := exists_program_of_compiled hanalyse ha hcompiled
  obtain ⟨-, hencode, hloads, hdecode, hstrict, hidentities, hnodup, functions, accessors,
    hroutines, hfunctions, haccessors⟩ := Build.program_contents hcalls hprogram
  exact ⟨w.image, functions, accessors, a, hencode, hloads, hdecode, hidentities, hnodup, hroutines,
    hfunctions, haccessors, ha, hstrict⟩

/-- The lowering that makes the given requests, whichever of them fail. -/
def Lowering.ofCalls (calls : Handover → List UnitRequest) : Lowering := fun f id u =>
  .ok () (u.after (calls ⟨f, id, u⟩))

/-- Every function returns an empty map, after an attempt to return nothing. -/
def mapCalls (h : Handover) : List UnitRequest :=
  [.onRoutine h.id (.emission .returnValue), .loadConstant h.id (.map []),
    .onRoutine h.id (.emission .returnValue)]

/-- A program with two functions of the same name. -/
def namesakeProgram : Function where
  form := .program
  functions := [{ name := "f" }, { name := "f" }]

/-- The routines of a unit that was compiled. -/
def Outcome.entryPoints? : Outcome → Option (List Text)
  | .compiled _ entryPoints => some entryPoints
  | _ => none

theorem Outcome.exists_compiled {outcome : Outcome} {entryPoints : List Text}
    (h : outcome.entryPoints? = some entryPoints) :
    ∃ bytes, outcome = .compiled bytes entryPoints := by
  cases outcome with
  | compiled bytes names => exact ⟨bytes, congrArg _ (Option.some.inj h)⟩
  | rejected | failed => cases h

theorem namesakeProgram_contents :
    let compilation := compile (.ofCalls mapCalls) "unit" namesakeProgram {}
    let entryPoints : List Text :=
      [":program(O)O", "f(O)O", "f$1(O)O", "$getMap(I)M", "$setMap(IM)V"]
    ∃ bytes image functions accessors, compilation.outcome = .compiled bytes entryPoints ∧
      Image.decode bytes = .ok image ∧ image.routines.map RoutineRecord.identity = entryPoints ∧
      image.routines = functions ++ accessors ∧
      List.Forall₂ Function.RecordedAs compilation.program.preorder functions ∧
      accessors.map RoutineRecord.member =
        [(("$getMap" : Text), ("(I)M" : Text)), (("$setMap" : Text), ("(IM)V" : Text))] := by
  intro compilation entryPoints
  have hentries : compilation.outcome.entryPoints? = some entryPoints := by decide +kernel
  obtain ⟨bytes, hbytes⟩ := Outcome.exists_compiled hentries
  have hwork : ∀ h, ∀ r ∈ mapCalls h, r.IsWork := by
    intro h r hr
    obtain rfl | rfl | rfl : r = _ ∨ r = _ ∨ r = _ := by simpa [mapCalls] using hr
    all_goals trivial
  obtain ⟨-, image, functions, accessors, a, -, hloads, hdecode, hidentities, -, hroutines,
    hfunctions, haccessors, -⟩ := compile_contents rfl (fun h _ => ⟨rfl, hwork h⟩) hbytes
  have htexts : ∀ c ∈ image.constants, c.TextsFit := by
    intro c hc
    obtain ⟨h, -, id, hload⟩ := hloads c hc
    obtain ⟨-, rfl⟩ : id = h.id ∧ c = .map [] := by simpa [mapCalls] using hload
    decide
  refine ⟨bytes, image, functions, accessors, hbytes, hdecode.mpr htexts, hidentities, hroutines,
    hfunctions, haccessors.trans ?_⟩
  decide +kernel

/-! ### A text that is too long -/

/-- The unit that a compilation leaves. -/
def Lowering.unit? (lower : Lowering) (unitName : Text) (root : Function) (context : Context) :
    Option UnitBuilder :=
  match root.analyse context with
  | .error _ _ => none
  | .ok program context =>
    match program.attributes with
    | .error _ => none
    | .ok a => some (leaves (Build.program lower program.preorder)
      (startUnit unitName program a.isStrict context))

/-- A compiled unit whose one constant is a text of zeros that is too long cannot be read. -/
theorem decode_of_compile_zeros {lower : Lowering} {calls : Handover → List UnitRequest}
    {unitName : Text} {root : Function} {context : Context} {bytes : Bytes}
    {entryPoints : List Text} {n : Nat} (hroot : root.facts = none)
    (hcalls : ∀ h ∈ lower.handed unitName root context, lower.Makes calls h)
    (honly : ∀ h id c, .loadConstant id c ∈ calls h → c = .string (.zeros n))
    (hcompiled : (compile lower unitName root context).outcome = .compiled bytes entryPoints)
    (hsize : (lower.unit? unitName root context).map (·.pool.size) = some 1)
    (hpos : 0 < n) (hlength : n.toUInt32 = 0) :
    Image.decode bytes = .error (.format .trailingBytes) := by
  obtain ⟨program, context', hanalyse, hpreorder⟩ := root.exists_analyse_preorder hroot context
  obtain ⟨a, ha, -⟩ := (Function.Annotates.of_preorder hpreorder).attributes
  rw [handed_eq hanalyse ha] at hcalls
  obtain ⟨w, hprogram⟩ := exists_program_of_compiled hanalyse ha hcompiled
  have hone : w.pool.size = 1 := by
    simpa only [Lowering.unit?, hanalyse, ha, leaves, hprogram, Option.map_some,
      Option.some.injEq] using hsize
  obtain ⟨hsound, hencode, hloads, -⟩ := Build.program_contents hcalls hprogram
  have hconstants : w.image.constants = [.string (.zeros n)] := by
    obtain ⟨c, hc⟩ := List.length_eq_one_iff.mp (w.pool.length_entries.trans hone)
    have hmem : c ∈ w.pool.entries := by
      rw [hc]
      exact List.mem_singleton_self c
    obtain ⟨h, -, id, hload⟩ := hloads c hmem
    rw [← honly h id c hload]
    exact hc
  exact Image.decode_zeros hencode rfl hsound.fields hconstants hpos hlength

/-- Every function loads a text and returns it. -/
def textCalls (text : Text) (h : Handover) : List UnitRequest :=
  [.loadConstant h.id (.string text), .onRoutine h.id (.emission .returnValue)]

theorem isWork_of_mem_textCalls {text : Text} {h : Handover} :
    ∀ r ∈ textCalls text h, r.IsWork := by
  intro r hr
  obtain rfl | rfl : r = _ ∨ r = _ := by simpa [textCalls] using hr
  · trivial
  · trivial

theorem constant_of_mem_textCalls {text : Text} :
    ∀ h id c, .loadConstant id c ∈ textCalls text h → c = .string text := by
  intro h id c hc
  obtain ⟨-, rfl⟩ : id = h.id ∧ c = .string text := by simpa [textCalls] using hc
  rfl

/-- A program without functions, which loads a text of 4294967296 zeros, is compiled, but its bytes
cannot be decoded. -/
theorem decode_compile_zeros :
    let lower := Lowering.ofCalls (textCalls (.zeros 4294967296))
    ∃ bytes entryPoints, (compile lower "unit" { form := .program } {}).outcome =
        .compiled bytes entryPoints ∧
      Image.decode bytes = .error (.format .trailingBytes) := by
  intro lower
  have hentries : (compile lower "unit" { form := .program } {}).outcome.entryPoints? =
      some [(":program(O)O" : Text), ("$getString(I)T" : Text)] := by decide +kernel
  have hsize : (lower.unit? "unit" { form := .program } {}).map (·.pool.size) = some 1 := by
    decide +kernel
  have hmakes : ∀ h ∈ lower.handed "unit" { form := .program } {},
      lower.Makes (textCalls (.zeros 4294967296)) h := fun h _ => ⟨rfl, isWork_of_mem_textCalls⟩
  obtain ⟨bytes, hbytes⟩ := Outcome.exists_compiled hentries
  exact ⟨bytes, _, hbytes, decode_of_compile_zeros rfl hmakes constant_of_mem_textCalls hbytes hsize
    (by decide) (by decide)⟩

end Bytecode
