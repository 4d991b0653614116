import Mathlib
import Bytecode.Proofs.Constant.Pool
import Bytecode.Proofs.Unit.Construction

/-!
# Steps of construction

A request to a unit is a sequence of small steps: something is reported, a field, a symbol or a
routine is added, requests are made of the code of one routine, a phase or a list is changed, a
record is kept. Each step says what it has checked. The sequence is there whichever way the request
comes out, so what every step keeps is kept by every request. The pool of constants is not touched
by steps; a course is a sequence of steps and of changes to the pool.

## Main definitions

* `UnitBuilder.Step`, `UnitBuilder.Course`: what can happen to a unit
* `Build.Stepwise`: a step of construction that is a sequence of small ones
* `UnitBuilder.Linked`: the code of all routines is well formed and refers to symbols of the unit
* `UnitBuilder.Grows`: a unit in which nothing was taken back

## Main results

* `Build.stepwise_finish`: the end of a unit is made of steps, also when it is taken back
* `UnitBuilder.course_after`: requests are a course of steps and changes to the pool
* `UnitBuilder.Course.linked_grows`: nothing is taken back in a course
-/

namespace Bytecode

/-- A change to what is noted about a routine: its phase and its layout. -/
def Routine.Notes (f : Routine → Routine) : Prop :=
  ∀ r, ∃ phase layout, f r = { r with phase, layout }

namespace UnitBuilder

/-- What can happen to a unit at once, apart from its pool. -/
inductive Step (u : UnitBuilder) : UnitBuilder → Prop
  | report (context : Context) : Step u { u with context }
  | start (hname : u.name.length ≤ 65535) (hsource : u.source.length ≤ 65535) :
      Step u { u with phase := .started }
  | field {f : Field} (hname : f.name.length ≤ 65535) :
      Step u { u with fields := u.fields.insert f }
  | symbol {text : Text} {i : UInt16} {symbols : SymbolTable}
      (h : u.symbols.intern text = .ok (i, symbols)) : Step u { u with symbols }
  /-- Requests to the assembler of a routine. -/
  | code {id : Nat} {r : Routine} {s : Assembly} (hr : u.routines[id]? = some r)
      (hs : Assembly.Reaches ⟨r.assembler, u.symbols⟩ s) : Step u (u.putBack id s)
  | add {r : Routine} (hsound : r.Sound 0) (hname : r.name.length ≤ 65535)
      (hdescriptor : r.signature.descriptor.length ≤ 65535) : Step u (u.withRoutine r)
  | enlist (openRoutines : List Nat) : Step u { u with openRoutines }
  | note {id : Nat} {f : Routine → Routine} (hf : Routine.Notes f) :
      Step u { u with routines := u.routines.modify id f }
  /-- The record of a routine is kept. -/
  | keep {id : Nat} {r : Routine} {record : RoutineRecord} (hr : u.routines[id]? = some r)
      (hrecord : r.record = .ok record) : Step u { u with finished := u.finished.push record }
  /-- What was added is taken back. -/
  | restore {v : UnitBuilder} (h : u.Restored v) : Step u v
  | finish {bytes : Bytes} (hbytes : u.image.encode = .ok bytes) :
      Step u { u with bytes, phase := .ended }

/-- One step after the other. -/
def Steps : UnitBuilder → UnitBuilder → Prop := Relation.ReflTransGen Step

/-- Steps do not touch the pool. -/
theorem Step.pool_eq {u v : UnitBuilder} (h : Step u v) : v.pool = u.pool := by
  cases h with
  | restore h =>
    obtain ⟨_, _, -, rfl⟩ := h
    rfl
  | _ => rfl

theorem Steps.pool_eq {u v : UnitBuilder} (h : u.Steps v) : v.pool = u.pool := by
  induction h with
  | refl => rfl
  | tail _ hstep ih => exact hstep.pool_eq.trans ih

end UnitBuilder

namespace Build

open UnitBuilder

variable {α β : Type}

/-- A step of construction that is a sequence of small ones, whichever way it ends. -/
def Stepwise (m : Build α) : Prop := ∀ u, Ends m u (fun _ => u.Steps) fun _ => u.Steps

theorem Stepwise.pure (x : α) : Stepwise (Pure.pure x) := fun _ => .refl

theorem Stepwise.throw (e : Error) : Stepwise (throw e : Build α) := fun _ => .refl

/-- A failure keeps what would come after it from happening. -/
theorem Stepwise.throw_bind (e : Error) (f : α → Build β) :
    Stepwise (MonadExcept.throw e >>= f) := fun _ => .refl

/-- A sequence of steps goes on where another one has come to. -/
theorem Stepwise.keeps {m : Build α} (hm : Stepwise m) (u : UnitBuilder) :
    Keeps u.Steps u.Steps m := fun v hv =>
  (hm v).mono (fun _ _ hw => hv.trans hw) fun _ _ hw => hv.trans hw

theorem Stepwise.bind {m : Build α} {f : α → Build β} (hm : Stepwise m)
    (hf : ∀ x, Stepwise (f x)) : Stepwise (m >>= f) := fun u =>
  (hm.keeps u).bind (fun x => (hf x).keeps u) u .refl

theorem Stepwise.map {m : Build α} (f : α → β) (hm : Stepwise m) : Stepwise (f <$> m) :=
  fun u => Ends.map (hm u)

/-- One step at once. -/
theorem stepwise_modify {f : UnitBuilder → UnitBuilder} (hf : ∀ u, Step u (f u)) :
    Stepwise (modify f : Build PUnit) := fun u => .single (hf u)

theorem stepwise_get : Stepwise (get : Build UnitBuilder) := fun _ => .refl

theorem stepwise_refuse (fault : UnitFault) : Stepwise (refuse fault : Build α) :=
  stepwise_get.bind fun _ => .throw _

theorem stepwise_ofExcept (x : Except Error α) : Stepwise (ofExcept x) := by
  cases x with
  | ok x => exact .pure x
  | error e => exact .throw e

theorem stepwise_report (f : Context → Context) : Stepwise (report f) :=
  stepwise_modify fun u => .report (f u.context)

theorem stepwise_requirePhase (operation : UnitOperation) : Stepwise (requirePhase operation) := by
  refine stepwise_get.bind fun u => ?_
  dsimp only
  split
  · exact .pure ()
  · exact stepwise_refuse _

theorem stepwise_getRoutine (id : Nat) : Stepwise (getRoutine id) := by
  intro u
  exact ends_getRoutine (fun _ => .refl) fun _ _ => .refl

theorem stepwise_onRoutine (id : Nat) {step : Emit α} (hstep : Emit.Asks step) :
    Stepwise (onRoutine id step) := by
  intro u
  refine ends_onRoutine (fun _ => .refl) fun r hr => ?_
  exact (hstep _).mono (fun _ _ hs => .single (.code hr hs)) fun _ _ hs => .single (.code hr hs)

theorem stepwise_emission (id : Nat) (e : Emission) : Stepwise (emission id e) :=
  stepwise_onRoutine id (Emit.asks_emission e)

theorem stepwise_begin : Stepwise Build.begin := by
  intro u
  refine Ends.bind (ends_requirePhase (fun _ _ => .refl) fun _ => Ends.bind (Ends.get ?_))
  refine Ends.bind (ends_ofExcept (fun _ _ => .refl) fun _ hname => ?_)
  refine Ends.bind (ends_ofExcept (fun _ _ => .refl) fun _ hsource => Ends.modify (.single ?_))
  exact .start (Wire.length_le_of_requireName hname) (Wire.length_le_of_requireName hsource)

theorem stepwise_field (f : Field) : Stepwise (field f) := by
  intro u
  refine Ends.bind (ends_requirePhase (fun _ _ => .refl) fun _ => Ends.bind (Ends.get ?_))
  refine Ends.bind (ends_ofExcept (fun _ _ => .refl) fun _ hname => ?_)
  dsimp only
  split
  · exact Ends.bind (Ends.bind (Ends.get .refl))
  · exact Ends.modify (.single (.field (Wire.length_le_of_requireName hname)))

theorem stepwise_add {r : Routine} (hsound : r.Sound 0) : Stepwise (add r) := by
  intro u
  refine Ends.bind (ends_ofExcept (fun _ _ => .refl) fun _ hname => ?_)
  refine Ends.bind (ends_ofExcept (fun _ _ => .refl) fun _ hdescriptor => ?_)
  refine Ends.bind (Ends.get ?_)
  split
  · exact Ends.bind (Ends.bind (Ends.get .refl))
  · refine Ends.bind (Ends.get (Ends.bind (Ends.modify (.single ?_))))
    exact .add hsound (Wire.length_le_of_requireName hname)
      (Wire.length_le_of_requireName hdescriptor)

theorem stepwise_routine (flags : Flags) (name : Text) (signature : Signature) :
    Stepwise (routine flags name signature) := by
  refine (stepwise_requirePhase _).bind fun _ => ?_
  intro u
  refine Ends.bind (ends_ofExcept (fun _ _ => .refl) fun r hr => ?_)
  exact stepwise_add (Routine.sound_synthetic hr).1 u

theorem stepwise_updateRoutine (id : Nat) {f : Routine → Routine} (hf : Routine.Notes f) :
    Stepwise (updateRoutine id f) := stepwise_modify fun _ => .note hf

theorem stepwise_beginRoutine (id : Nat) : Stepwise (beginRoutine id) := by
  refine (stepwise_getRoutine id).bind fun r => ?_
  dsimp only
  split
  · refine (stepwise_requirePhase _).bind fun _ => ?_
    refine (stepwise_modify fun u => .enlist _).bind fun _ => ?_
    refine (stepwise_updateRoutine id fun r => ⟨.started, r.layout, rfl⟩).bind fun _ => ?_
    refine (stepwise_onRoutine id (Emit.asks_request .openCode)).bind fun _ => ?_
    cases r.attributes with
    | none => exact .pure ()
    | some a =>
      refine (stepwise_onRoutine id (Emit.asks_prologue a _ _)).bind fun layout => ?_
      exact stepwise_updateRoutine id fun r => ⟨r.phase, layout, rfl⟩
  · exact .throw_bind _ _

theorem stepwise_openRoutine (name : Text) (a : Attributes) (paramCount scopeSize : Nat) :
    Stepwise (openRoutine name a paramCount scopeSize) := by
  refine (stepwise_requirePhase _).bind fun _ => ?_
  dsimp only
  split
  · exact .throw_bind _ _
  · refine stepwise_get.bind fun _ u => ?_
    refine Ends.bind (ends_ofExcept (fun _ _ => .refl) fun r hr => ?_)
    have hadd : Stepwise (add r) := stepwise_add (Routine.sound_ofFunction hr).1
    exact (hadd.bind fun id => (stepwise_beginRoutine id).bind fun _ => .pure id) u

theorem stepwise_openFunction (f : Function) : Stepwise (openFunction f) :=
  (stepwise_ofExcept _).bind fun _ => stepwise_openRoutine _ _ _ _

theorem stepwise_loadConstants (id : Nat) : Stepwise (loadConstants id) :=
  stepwise_get.bind fun _ => stepwise_emission id _

theorem stepwise_symbol (text : Text) : Stepwise (symbol text) := by
  intro u
  refine ends_symbol.mono ?_ ?_
  · rintro i _ ⟨symbols, hfound, rfl⟩
    exact .single (.symbol hfound)
  · rintro - _ rfl
    exact .refl

/-- Closing a routine and noting that it has ended do not change its record, so that the record
that is kept is the one of the routine as it is then. -/
theorem stepwise_endRoutine (id : Nat) : Stepwise (endRoutine id) := by
  intro u
  refine ends_endRoutine_of (fun _ _ => .refl) fun r record context hr _ hrecord _ => ?_
  let closed : Assembly := ⟨{ r.assembler with isOpen := false }, u.symbols⟩
  have hended : u.Steps (u.withClosed id r) := by
    have hclosed : u.Steps (u.putBack id closed) := .single (.code hr (.single ⟨.close, rfl⟩))
    exact hclosed.tail (.note fun r => ⟨.ended, r.layout, rfl⟩)
  have hget : (u.withClosed id r).routines[id]? =
      some { r with assembler := closed.assembler, phase := .ended } := by
    simp only [closed, withClosed, putBack, Array.getElem?_modify, if_true, hr, Option.map_some]
  have htraced : u.Steps { u.withClosed id r with context } := hended.tail (.report context)
  refine ends_keep_of (fun _ _ => htraced) fun _ _ => ?_
  have hkept := (htraced.tail (.enlist (u.openRoutines.erase id))).tail (.keep hget hrecord)
  exact hkept.tail (.report _)

/-! ### Accessors and the end of a unit -/

theorem stepwise_of_emits {id : Nat} {m : Build α} (hm : Emits id m) : Stepwise m := fun u =>
  hm u.Steps u.Steps (fun _ hv => hv) (fun e => (stepwise_emission id e).keeps u) u .refl

theorem stepwise_synthesize {flags : List Flag} {name : Text} {signature : Signature}
    {code : Nat → Build Unit} (hcode : ∀ id, Emits id (code id)) :
    Stepwise (synthesize flags name signature code) :=
  (stepwise_routine _ name signature).bind fun id => (stepwise_beginRoutine id).bind fun _ =>
    (stepwise_of_emits (hcode id)).bind fun _ => stepwise_endRoutine id

theorem stepwise_accessor (type : ValueType) : Stepwise (accessor type) := fun u =>
  keeps_accessor (fun _ hv => hv) (fun _ _ => (stepwise_report _).keeps u)
    (fun _ _ _ _ hcode => (stepwise_synthesize hcode).keeps u) type u .refl

theorem ends_assemble_steps {u : UnitBuilder} :
    Ends assemble u (fun bytes v => u.Steps v ∧ v.image.encode = .ok bytes) fun _ => u.Steps :=
  ends_assemble_of_keeps (fun _ hv => hv) (fun type => (stepwise_accessor type).keeps u) .refl

/-- The end of a unit is made of steps. When it cannot be ended, taking back is the only one. -/
theorem stepwise_finish : Stepwise finish := by
  intro u
  refine ends_finish_restored.mono ?_ fun _ v hv => .single (.restore hv)
  rintro - _ ⟨-, -, w, context, bytes, hassemble, rfl⟩
  obtain ⟨hw, hbytes⟩ := ends_assemble_steps.ok hassemble
  exact (hw.tail (.finish hbytes)).tail (.report context)

end Build

/-! ### Courses -/

/-- A request that may change the pool of constants. -/
def UnitRequest.IsPooling : UnitRequest → Prop
  | .loadConstant .. | .intern _ | .request _ => True
  | _ => False

/-- A request that does not touch the pool is a sequence of steps. -/
theorem Build.stepwise_perform {r : UnitRequest} (hr : ¬ r.IsPooling) :
    Build.Stepwise (Build.perform r) := by
  cases r with
  | begin => exact stepwise_begin
  | finish => exact stepwise_finish
  | field f => exact stepwise_field f
  | routine flags name signature => exact (stepwise_routine flags name signature).map _
  | staticInitializer => exact (stepwise_routine _ _ _).map _
  | instanceInitializer params => exact (stepwise_routine _ _ _).map _
  | openRoutine name a paramCount scopeSize =>
    exact (stepwise_openRoutine name a paramCount scopeSize).map _
  | openFunction f => exact (stepwise_openFunction f).map _
  | beginRoutine id => exact stepwise_beginRoutine id
  | endRoutine id => exact stepwise_endRoutine id
  | onRoutine id r => exact stepwise_onRoutine id (Emit.asks_request r)
  | loadConstants id => exact stepwise_loadConstants id
  | loadConstant id c => exact absurd trivial hr
  | intern c => exact absurd trivial hr
  | request t => exact absurd trivial hr
  | symbol text => exact (stepwise_symbol text).map _

namespace UnitBuilder

/-- Steps and changes to the pool, one after the other. -/
inductive Course (u : UnitBuilder) : UnitBuilder → Prop
  | refl : Course u u
  | step {v w : UnitBuilder} (h : Course u v) (hstep : Step v w) : Course u w
  | intern {v : UnitBuilder} {c : Constant} {i : Nat} {pool : Pool} (h : Course u v)
      (hpool : v.pool.intern c = .ok (i, pool)) : Course u { v with pool }
  | request {v : UnitBuilder} {t : ValueType} {pool : Pool} (h : Course u v)
      (hpool : v.pool.request t = .ok pool) : Course u { v with pool }

variable {u v w : UnitBuilder}

theorem Course.steps (h : u.Course v) (hsteps : v.Steps w) : u.Course w := by
  induction hsteps with
  | refl => exact h
  | tail _ hstep ih => exact ih.step hstep

theorem Course.trans (h : u.Course v) (h' : v.Course w) : u.Course w := by
  induction h' with
  | refl => exact h
  | step _ hstep ih => exact ih.step hstep
  | intern _ hpool ih => exact ih.intern hpool
  | request _ hpool ih => exact ih.request hpool

end UnitBuilder

namespace Build

open UnitBuilder

/-- Once a constant is pooled and its accessor asked for, loading it only emits code. -/
theorem stepwise_fetch (id : Nat) (index : Nat) (t : ValueType) : Stepwise (do
    emission id (.pushInt index.toInt32)
    let name ← ofExcept (Pool.accessorName t)
    let signature ← ofExcept (Pool.accessorSignature t)
    emission id (.invoke (← get).name name signature)) := by
  refine (stepwise_emission id _).bind fun _ => (stepwise_ofExcept _).bind fun _ => ?_
  exact (stepwise_ofExcept _).bind fun _ => stepwise_get.bind fun _ => stepwise_emission id _

theorem course_loadConstant (id : Nat) (c : Constant) (u : UnitBuilder) :
    Ends (loadConstant id c) u (fun _ => u.Course) fun _ => u.Course := by
  refine Ends.bind (ends_intern.mono ?_ ?_)
  · rintro i _ ⟨pool, hpool, rfl⟩
    have hinterned : u.Course { u with pool } := Course.refl.intern hpool
    refine Ends.bind (ends_request.mono ?_ ?_)
    · rintro - _ ⟨pool', hpool', rfl⟩
      have hrequested : u.Course { u with pool := pool' } := hinterned.request hpool'
      exact (stepwise_fetch id i c.type _).mono (fun _ _ hv => hrequested.steps hv)
        fun _ _ hv => hrequested.steps hv
    · rintro - _ rfl
      exact hinterned
  · rintro - _ rfl
    exact .refl

/-- A request is a course, whichever way it comes out. -/
theorem course_perform (r : UnitRequest) (u : UnitBuilder) :
    Ends (perform r) u (fun _ => u.Course) fun _ => u.Course := by
  by_cases hr : r.IsPooling
  · cases r with
    | loadConstant id c => exact course_loadConstant id c u
    | intern c =>
      refine Ends.map (ends_intern.mono ?_ ?_)
      · rintro i _ ⟨pool, hpool, rfl⟩
        exact Course.refl.intern hpool
      · rintro - _ rfl
        exact .refl
    | request t =>
      refine ends_request.mono ?_ ?_
      · rintro - _ ⟨pool, hpool, rfl⟩
        exact Course.refl.request hpool
      · rintro - _ rfl
        exact .refl
    | _ => exact hr.elim
  · exact (stepwise_perform hr u).mono (fun _ _ hv => Course.refl.steps hv)
      fun _ _ hv => Course.refl.steps hv

end Build

namespace UnitBuilder

variable {u v w : UnitBuilder}

/-- **Requests are a course** of steps and changes to the pool, granted or not. -/
theorem course_after (u : UnitBuilder) (requests : List UnitRequest) :
    u.Course (u.after requests) := by
  induction requests generalizing u with
  | nil => exact .refl
  | cons r requests ih => exact (Build.course_perform r u).leaves.trans (ih _)

end UnitBuilder

/-! ### Growth -/

theorem Assembly.Linked.setSymbols {a : Assembler} {s t : SymbolTable}
    (h : Assembly.Linked ⟨a, s⟩) (ht : t.Sound) (hgrown : s.entries <+: t.entries) :
    Assembly.Linked ⟨a, t⟩ :=
  ⟨h.wellFormed, ht, fun i hi n hn =>
    (h.within i hi n hn).trans_le (SymbolTable.size_le_of_prefix hgrown)⟩

/-- The routine is called what it was, and has gone on with its code. -/
structure Routine.Continues (r r' : Routine) : Prop where
  flags_eq : r'.flags = r.flags
  name_eq : r'.name = r.name
  signature_eq : r'.signature = r.signature
  code_grows : r.assembler.instructions <+: r'.assembler.instructions

theorem Routine.Continues.refl (r : Routine) : r.Continues r := ⟨rfl, rfl, rfl, List.prefix_rfl⟩

theorem Routine.Continues.trans {r r' r'' : Routine} (h : r.Continues r') (h' : r'.Continues r'') :
    r.Continues r'' :=
  ⟨h'.flags_eq.trans h.flags_eq, h'.name_eq.trans h.name_eq,
    h'.signature_eq.trans h.signature_eq, h.code_grows.trans h'.code_grows⟩

namespace UnitBuilder

variable {u v w : UnitBuilder}

/-- The code of all routines is well formed and refers to symbols of the unit. -/
structure Linked (u : UnitBuilder) : Prop where
  symbols : u.symbols.Sound
  routines : ∀ (id : Nat) r, u.routines[id]? = some r → Assembly.Linked ⟨r.assembler, u.symbols⟩

/-- Nothing was taken back. -/
structure Grows (u v : UnitBuilder) : Prop where
  header_eq : v.header = u.header
  symbols : u.symbols.entries <+: v.symbols.entries
  constants : u.pool.entries <+: v.pool.entries
  finished : u.finished.toList <+: v.finished.toList
  routines : ∀ (id : Nat) r, u.routines[id]? = some r →
    ∃ r', v.routines[id]? = some r' ∧ r.Continues r'

theorem Grows.refl (u : UnitBuilder) : u.Grows u :=
  ⟨rfl, List.prefix_rfl, List.prefix_rfl, List.prefix_rfl, fun _ r hr => ⟨r, hr, .refl r⟩⟩

theorem Grows.trans (h : u.Grows v) (h' : v.Grows w) : u.Grows w where
  header_eq := h'.header_eq.trans h.header_eq
  symbols := h.symbols.trans h'.symbols
  constants := h.constants.trans h'.constants
  finished := h.finished.trans h'.finished
  routines id r hr := by
    obtain ⟨r', hr', hcontinues⟩ := h.routines id r hr
    obtain ⟨r'', hr'', hcontinues'⟩ := h'.routines id r' hr'
    exact ⟨r'', hr'', hcontinues.trans hcontinues'⟩

theorem continues_modify {routines : Array Routine} {id : Nat} {f : Routine → Routine}
    (hf : ∀ r, routines[id]? = some r → r.Continues (f r)) (k : Nat) (r : Routine)
    (hr : routines[k]? = some r) :
    ∃ r', (routines.modify id f)[k]? = some r' ∧ r.Continues r' := by
  rw [Array.getElem?_modify, hr]
  split
  · next hk =>
    subst hk
    exact ⟨f r, rfl, hf r hr⟩
  · exact ⟨r, rfl, .refl r⟩

/-- A step keeps the code of all routines linked. -/
theorem Step.linked (h : Step u v) (hu : u.Linked) : v.Linked := by
  cases h with
  | report | start | field | enlist | keep | finish => exact ⟨hu.symbols, hu.routines⟩
  | symbol hintern =>
    obtain ⟨hsound, -, hgrown⟩ := hu.symbols.intern hintern
    exact ⟨hsound, fun id r hr => (hu.routines id r hr).setSymbols hsound hgrown⟩
  | @code id r s hr hs =>
    have hevolves := hs.evolves (hu.routines id r hr)
    refine ⟨hevolves.linked.symbols, fun k r' hr' => ?_⟩
    rw [putBack, Array.getElem?_modify] at hr'
    split at hr'
    · obtain ⟨_, -, rfl⟩ := Option.map_eq_some_iff.mp hr'
      exact hevolves.linked
    · exact (hu.routines k r' hr').setSymbols hevolves.linked.symbols hevolves.symbols_prefix
  | add hsound =>
    refine ⟨hu.symbols, fun k r' hr' => ?_⟩
    rcases getElem?_push_cases hr' with hold | ⟨-, rfl⟩
    · exact hu.routines k r' hold
    · exact ⟨hsound.wellFormed, hu.symbols, fun i hi n hn =>
        (hsound.linked i hi n hn).trans_le (Nat.zero_le _)⟩
  | note hf =>
    refine ⟨hu.symbols, fun k r' hr' => ?_⟩
    rw [Array.getElem?_modify] at hr'
    split at hr'
    · obtain ⟨r, hr, rfl⟩ := Option.map_eq_some_iff.mp hr'
      obtain ⟨phase, layout, hfr⟩ := hf r
      rw [hfr]
      exact hu.routines k r hr
    · exact hu.routines k r' hr'
  | restore hrestored =>
    obtain ⟨_, _, -, rfl⟩ := hrestored
    exact ⟨hu.symbols, hu.routines⟩

/-- A step takes nothing back. -/
theorem Step.grows (h : Step u v) (hu : u.Linked) : u.Grows v := by
  have hsame : ∀ (id : Nat) r, u.routines[id]? = some r →
      ∃ r', u.routines[id]? = some r' ∧ r.Continues r' := fun _ r hr => ⟨r, hr, .refl r⟩
  cases h with
  | report | start | field | enlist | finish =>
    exact ⟨rfl, List.prefix_rfl, List.prefix_rfl, List.prefix_rfl, hsame⟩
  | symbol hintern =>
    exact ⟨rfl, (hu.symbols.intern hintern).2.2, List.prefix_rfl, List.prefix_rfl, hsame⟩
  | @code id r s hr hs =>
    have hevolves := hs.evolves (hu.routines id r hr)
    refine ⟨rfl, hevolves.symbols_prefix, List.prefix_rfl, List.prefix_rfl, ?_⟩
    refine continues_modify fun r' hr' => ?_
    obtain rfl : r' = r := Option.some.inj (hr'.symm.trans hr)
    exact ⟨rfl, rfl, rfl, hevolves.code_grows⟩
  | add =>
    refine ⟨rfl, List.prefix_rfl, List.prefix_rfl, List.prefix_rfl, fun k r hr => ?_⟩
    exact ⟨r, getElem?_push_of_some hr, .refl r⟩
  | note hf =>
    refine ⟨rfl, List.prefix_rfl, List.prefix_rfl, List.prefix_rfl, ?_⟩
    refine continues_modify fun r _ => ?_
    obtain ⟨phase, layout, hfr⟩ := hf r
    rw [hfr]
    exact ⟨rfl, rfl, rfl, List.prefix_rfl⟩
  | keep =>
    refine ⟨rfl, List.prefix_rfl, List.prefix_rfl, ?_, hsame⟩
    rw [Array.toList_push]
    exact List.prefix_append _ _
  | restore hrestored =>
    obtain ⟨_, _, -, rfl⟩ := hrestored
    exact ⟨rfl, List.prefix_rfl, List.prefix_rfl, List.prefix_rfl, hsame⟩

/-- **Nothing is taken back in a course**, and code stays linked. -/
theorem Course.linked_grows (h : u.Course v) (hu : u.Linked) : v.Linked ∧ u.Grows v := by
  induction h with
  | refl => exact ⟨hu, .refl u⟩
  | step _ hstep ih => exact ⟨hstep.linked ih.1, ih.2.trans (hstep.grows ih.1)⟩
  | intern _ hpool ih =>
    obtain ⟨hlinked, hgrows⟩ := ih
    refine ⟨⟨hlinked.symbols, hlinked.routines⟩, { hgrows with constants := ?_ }⟩
    exact hgrows.constants.trans (Pool.entries_prefix_of_intern hpool)
  | request _ hpool ih =>
    obtain ⟨hlinked, hgrows⟩ := ih
    obtain ⟨-, rfl⟩ := Pool.request_eq_ok_iff.mp hpool
    exact ⟨⟨hlinked.symbols, hlinked.routines⟩, { hgrows with constants := hgrows.constants }⟩

theorem Course.pool_sound (h : u.Course v) (hu : u.pool.Sound) : v.pool.Sound := by
  induction h with
  | refl => exact hu
  | step _ hstep ih => exact hstep.pool_eq ▸ ih
  | intern _ hpool ih => exact (ih.intern hpool).1
  | request _ hpool ih => exact ih.request hpool

theorem linked_new (context : Context) (name source : Text) (strict : Bool) :
    (new context name source strict).Linked := ⟨.empty name, by simp [new]⟩

end UnitBuilder

end Bytecode
