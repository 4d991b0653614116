import Mathlib
import Bytecode.Proofs.Image.Verification

/-!
# Moves of a unit

Whatever is done to the routines of a unit comes down to a few moves: something is reported, a
routine is added, begun, worked on or ended. A move names the state in which it can be made, and a
sequence of moves the routines that it ends, in order. What a unit keeps through all moves is then a
matter of one case for each of them, and every step of construction is known by the moves that it
makes, also when it fails halfway.

## Main definitions

* `UnitBuilder.Works`: work on the code of one routine
* `UnitBuilder.Moves`: a sequence of moves
* `Build.Keeps`: a step that keeps a property, or fails with another one
* `Build.Emits`: a step that does nothing but emit code into one routine

## Main results

* `UnitBuilder.Moves.frame`: what no move touches
* `Build.ends_endRoutine_of`: how a routine ends, step by step
* `Build.ends_endRoutine`: an open routine ends with a record, or nothing happens
* `Build.keeps_accessor`: an accessor is a matter of routines whose code is emitted
* `Build.ends_assemble_supplies`: a unit is assembled by adding routines one by one
-/

namespace Bytecode

namespace Routine

/-- A change that leaves alone what a routine is called, its type and its phase. -/
def Reworks (f : Routine → Routine) : Prop :=
  ∀ r, ∃ assembler layout, f r = { r with assembler, layout }

theorem Reworks.setAssembler (assembler : Assembler) : Reworks fun r => { r with assembler } :=
  fun r => ⟨assembler, r.layout, rfl⟩

theorem Reworks.setLayout (layout : Layout) : Reworks fun r => { r with layout } :=
  fun r => ⟨r.assembler, layout, rfl⟩

theorem Reworks.comp {f g : Routine → Routine} (hg : Reworks g) (hf : Reworks f) :
    Reworks (g ∘ f) := by
  intro r
  obtain ⟨assembler, layout, hr⟩ := hf r
  obtain ⟨assembler', layout', hr'⟩ := hg (f r)
  exact ⟨assembler', layout', by rw [Function.comp_apply, hr', hr]⟩

theorem Reworks.identity_eq {f : Routine → Routine} (hf : Reworks f) (r : Routine) :
    (f r).identity = r.identity := by
  obtain ⟨assembler, layout, hr⟩ := hf r
  rw [hr]
  rfl

/-- The record was made of the routine, with the code that it had then. -/
def RecordedAs (r : Routine) (record : RoutineRecord) : Prop :=
  ∃ assembler, Routine.record { r with assembler } = .ok record

theorem RecordedAs.identity_eq {r : Routine} {record : RoutineRecord} (h : r.RecordedAs record) :
    record.identity = r.identity := by
  obtain ⟨assembler, hrecord⟩ := h
  obtain ⟨code, -, -, -, rfl⟩ := record_eq_ok hrecord
  rfl

theorem phase_of_synthetic {flags : Flags} {name : Text} {signature : Signature} {r : Routine}
    (h : synthetic flags name signature = .ok r) : r.phase = .notStarted := by
  obtain ⟨_, -, h⟩ := exists_of_except_bind h
  cases h
  rfl

theorem phase_of_ofFunction {name function : Text} {a : Attributes} {paramCount scopeSize : Nat}
    {r : Routine} (h : ofFunction name function a paramCount scopeSize = .ok r) :
    r.phase = .notStarted := by
  unfold ofFunction at h
  dsimp only at h
  split at h
  · cases h
  · obtain ⟨_, -, h⟩ := exists_of_except_bind h
    cases h
    rfl

theorem titled_of_ofFunction {name function : Text} {a : Attributes} {paramCount scopeSize : Nat}
    {r : Routine} (h : ofFunction name function a paramCount scopeSize = .ok r) :
    (r.name, r.signature) = (name, Signature.ofAttributes a paramCount) := by
  unfold ofFunction at h
  dsimp only at h
  split at h
  · cases h
  · obtain ⟨_, -, h⟩ := exists_of_except_bind h
    cases h
    rfl

/-- The code of a record can be listed, since it is made of whole instructions. -/
theorem succeeds_listing {r : Routine} {record : RoutineRecord} (h : r.record = .ok record)
    (symbols : Array Text) : Succeeds (Code.listing symbols record.code) := by
  obtain ⟨code, hfinish, -, -, rfl⟩ := record_eq_ok h
  obtain ⟨written, rfl⟩ := Assembler.finish_encodes hfinish
  rw [Code.listing, Code.decode_encode]
  exact ⟨_, rfl⟩

end Routine

namespace Context

variable {c : Context} {symbols : Array Text} {record : RoutineRecord}

/-- What a context is after a record was logged: it has the same metrics, and if it traces code, the
listing of the record comes last in its log. -/
structure Traces (c : Context) (symbols : Array Text) (record : RoutineRecord) (c' : Context) :
    Prop where
  metrics_eq : c'.metrics = c.metrics
  log_eq : c.tracesCode = true → c'.tracesCode = true ∧
    ∃ text, record.listing symbols = .ok text ∧ c'.logText = c.logText ++ text

theorem tracesCode_write (c : Context) (t : Text) : (c.write t).tracesCode = c.tracesCode := by
  simp [tracesCode, write]

/-- A context that traces has a log, and what is written comes last there. -/
theorem logText_write (h : c.tracesCode = true) (t : Text) :
    (c.write t).logText = c.logText ++ t := by
  obtain ⟨-, hlog⟩ := Bool.and_eq_true_iff.mp h
  obtain ⟨texts, htexts⟩ := Option.isSome_iff_exists.mp hlog
  simp [logText, write, htexts]

/-- The listing of a record is its heading and the listing of its code. -/
theorem traces_write {code : Text} (hcode : Code.listing symbols record.code = .ok code) :
    c.Traces symbols record ((c.write record.heading).write code) := by
  refine ⟨rfl, fun htraces => ?_⟩
  have hheading : (c.write record.heading).tracesCode = true :=
    (c.tracesCode_write _).trans htraces
  refine ⟨by rw [tracesCode_write, hheading], record.heading ++ code, ?_, ?_⟩
  · rw [RoutineRecord.listing, hcode]
    rfl
  · rw [logText_write hheading, logText_write htraces, List.append_assoc]

end Context

namespace UnitBuilder

variable {u v w : UnitBuilder} {id first : Nat} {ids : List Nat}

/-- The unit with one more routine. -/
def withRoutine (u : UnitBuilder) (r : Routine) : UnitBuilder :=
  { u with routines := u.routines.push r, identities := u.identities.insert r.identity }

/-- The unit with a routine begun. -/
def withBegun (u : UnitBuilder) (id : Nat) : UnitBuilder :=
  { u with
    openRoutines := id :: u.openRoutines
    routines := u.routines.modify id fun r => { r with phase := .started } }

/-- The unit with the code of a routine closed, and the routine noted as ended. -/
def withClosed (u : UnitBuilder) (id : Nat) (r : Routine) : UnitBuilder :=
  { u with
    routines := (u.putBack id ⟨{ r.assembler with isOpen := false }, u.symbols⟩).routines.modify id
      fun r => { r with phase := .ended } }

/-- The unit with a routine ended. -/
def withEnded (u : UnitBuilder) (id : Nat) (record : RoutineRecord) : UnitBuilder :=
  { u with
    openRoutines := u.openRoutines.erase id
    routines := u.routines.modify id fun r => { r with phase := .ended }
    finished := u.finished.push record }

/-- The identities of the routines, in order. -/
def known (u : UnitBuilder) : List Text := u.routines.toList.map Routine.identity

@[simp] theorem length_known (u : UnitBuilder) : u.known.length = u.routines.size := by
  simp [known]

theorem getElem?_known (u : UnitBuilder) (id : Nat) :
    u.known[id]? = u.routines[id]?.map Routine.identity := by
  simp [known]

/-- A routine may change as long as it keeps what is looked at. -/
theorem map_modify {β : Type} {routines : Array Routine} {id : Nat} {f : Routine → Routine}
    {g : Routine → β} (hf : ∀ r, g (f r) = g r) :
    (routines.modify id f).toList.map g = routines.toList.map g := by
  refine List.ext_getElem? fun k => ?_
  rw [List.getElem?_map, List.getElem?_map, Array.getElem?_toList, Array.getElem?_toList,
    Array.getElem?_modify]
  split
  · rw [Option.map_map]
    exact congrArg (fun g => routines[k]?.map g) (funext hf)
  · rfl

/-- A routine may change as long as it keeps its identity. -/
theorem known_modify (u : UnitBuilder) {id : Nat} {f : Routine → Routine}
    (hf : ∀ r, (f r).identity = r.identity) :
    (u.routines.modify id f).toList.map Routine.identity = u.known := map_modify hf

@[simp] theorem known_withRoutine (u : UnitBuilder) (r : Routine) :
    (u.withRoutine r).known = u.known ++ [r.identity] := by
  simp [known, withRoutine]

@[simp] theorem known_withBegun (u : UnitBuilder) (id : Nat) : (u.withBegun id).known = u.known :=
  known_modify u fun _ => rfl

@[simp] theorem known_withEnded (u : UnitBuilder) (id : Nat) (record : RoutineRecord) :
    (u.withEnded id record).known = u.known :=
  known_modify u fun _ => rfl

/-- Work on the code of one routine, with the symbols that it needs. -/
def Works (id : Nat) (u v : UnitBuilder) : Prop :=
  ∃ context symbols f, Routine.Reworks f ∧
    v = { u with context, symbols, routines := u.routines.modify id f }

theorem Works.refl (id : Nat) (u : UnitBuilder) : Works id u u := by
  refine ⟨u.context, u.symbols, fun r => r, fun r => ⟨r.assembler, r.layout, rfl⟩, ?_⟩
  have hsame : (u.routines.modify id fun r => r) = u.routines := by
    refine Array.ext_getElem? fun k => ?_
    simp [Array.getElem?_modify]
  rw [hsame]

theorem Works.trans (h : Works id u v) (h' : Works id v w) : Works id u w := by
  obtain ⟨_, _, f, hf, rfl⟩ := h
  obtain ⟨context, symbols, g, hg, rfl⟩ := h'
  exact ⟨context, symbols, g ∘ f, hg.comp hf, by rw [modify_modify]⟩

theorem works_putBack (id : Nat) (u : UnitBuilder) (s : Assembly) : Works id u (u.putBack id s) :=
  ⟨u.context, s.symbols, _, .setAssembler s.assembler, rfl⟩

theorem Works.known_eq (h : Works id u v) : v.known = u.known := by
  obtain ⟨_, _, f, hf, rfl⟩ := h
  exact known_modify u hf.identity_eq

/-- Moves from `u` to another unit that touch no routine before the `first` one. The list holds the
routines that they end, in order. -/
inductive Moves (first : Nat) (u : UnitBuilder) : List Nat → UnitBuilder → Prop
  | refl : Moves first u [] u
  | report {ids : List Nat} {v : UnitBuilder} (h : Moves first u ids v) (context : Context) :
      Moves first u ids { v with context }
  | work {ids : List Nat} {v w : UnitBuilder} {id : Nat} (h : Moves first u ids v)
      (hid : first ≤ id) (hwork : Works id v w) : Moves first u ids w
  | add {ids : List Nat} {v : UnitBuilder} {r : Routine} (h : Moves first u ids v)
      (hstarted : v.phase = .started) (hphase : r.phase = .notStarted)
      (hnew : r.identity ∉ v.identities) : Moves first u ids (v.withRoutine r)
  | begin {ids : List Nat} {v : UnitBuilder} {id : Nat} {r : Routine} (h : Moves first u ids v)
      (hid : first ≤ id) (hstarted : v.phase = .started) (hr : v.routines[id]? = some r)
      (hphase : r.phase = .notStarted) : Moves first u ids (v.withBegun id)
  | finish {ids : List Nat} {v : UnitBuilder} {id : Nat} {r : Routine} {record : RoutineRecord}
      (h : Moves first u ids v) (hid : first ≤ id) (hr : v.routines[id]? = some r)
      (hphase : r.phase = .started) (hopen : id ∈ v.openRoutines) (hrecord : r.RecordedAs record) :
      Moves first u (ids ++ [id]) (v.withEnded id record)

theorem Moves.trans {more : List Nat} (h : Moves first u ids v) (h' : Moves first v more w) :
    Moves first u (ids ++ more) w := by
  induction h' with
  | refl => simpa using h
  | report _ context ih => exact ih.report context
  | work _ hid hwork ih => exact ih.work hid hwork
  | add _ hstarted hphase hnew ih => exact ih.add hstarted hphase hnew
  | begin _ hid hstarted hr hphase ih => exact ih.begin hid hstarted hr hphase
  | finish _ hid hr hphase hopen hrecord ih =>
    rw [← List.append_assoc]
    exact ih.finish hid hr hphase hopen hrecord

theorem Moves.mono {first' : Nat} (h : Moves first u ids v) (hfirst : first' ≤ first) :
    Moves first' u ids v := by
  induction h with
  | refl => exact .refl
  | report _ context ih => exact ih.report context
  | work _ hid hwork ih => exact ih.work (hfirst.trans hid) hwork
  | add _ hstarted hphase hnew ih => exact ih.add hstarted hphase hnew
  | begin _ hid hstarted hr hphase ih => exact ih.begin (hfirst.trans hid) hstarted hr hphase
  | finish _ hid hr hphase hopen hrecord ih =>
    exact ih.finish (hfirst.trans hid) hr hphase hopen hrecord

/-- No move touches the names, the phase, the pool, the fields or the bytes of a unit. -/
theorem Moves.frame (h : Moves first u ids v) :
    ∃ context symbols routines openRoutines identities finished,
      v = { u with context, symbols, routines, openRoutines, identities, finished } := by
  induction h with
  | refl => exact ⟨_, _, _, _, _, _, rfl⟩
  | work _ _ hwork ih =>
    obtain ⟨_, _, _, _, _, _, rfl⟩ := ih
    obtain ⟨_, _, _, -, rfl⟩ := hwork
    exact ⟨_, _, _, _, _, _, rfl⟩
  | report _ _ ih | add _ _ _ _ ih | begin _ _ _ _ _ ih | finish _ _ _ _ _ _ ih =>
    obtain ⟨_, _, _, _, _, _, rfl⟩ := ih
    exact ⟨_, _, _, _, _, _, rfl⟩

/-- A routine is new in the unit, and comes last. -/
def Adds (id : Nat) (u v : UnitBuilder) : Prop :=
  id = u.routines.size ∧ u.phase = .started ∧
    ∃ r : Routine, r.phase = .notStarted ∧ r.identity ∉ u.identities ∧ v = u.withRoutine r

/-- A routine is begun, and worked on then. -/
def Begins (id : Nat) (u v : UnitBuilder) : Prop :=
  u.phase = .started ∧ (∃ r, u.routines[id]? = some r ∧ r.phase = .notStarted) ∧
    Works id (u.withBegun id) v

theorem Adds.moves (h : Adds id u v) : Moves first u [] v := by
  obtain ⟨-, hstarted, r, hphase, hnew, rfl⟩ := h
  exact Moves.refl.add hstarted hphase hnew

theorem Begins.moves (h : Begins id u v) (hid : first ≤ id) : Moves first u [] v := by
  obtain ⟨hstarted, ⟨r, hr, hphase⟩, hwork⟩ := h
  exact (Moves.refl.begin hid hstarted hr hphase).work hid hwork

/-- The routine is open, and the unit started, if the routine is started. -/
def Guards (u : UnitBuilder) (id : Nat) : Prop :=
  ∀ r, u.routines[id]? = some r → r.phase = .started → u.phase = .started ∧ id ∈ u.openRoutines

theorem Begins.work (h : Begins id u v) (hwork : Works id v w) : Begins id u w :=
  ⟨h.1, h.2.1, h.2.2.trans hwork⟩

/-- A routine that was begun is the newest open one. -/
theorem Begins.open_eq (h : Begins id u v) : v.openRoutines = id :: u.openRoutines := by
  obtain ⟨-, -, _, _, f, -, rfl⟩ := h
  rfl

theorem Begins.size_eq (h : Begins id u v) : v.routines.size = u.routines.size := by
  obtain ⟨-, -, _, _, f, -, rfl⟩ := h
  simp [withBegun]

theorem Begins.guards (h : Begins id u v) : v.Guards id := by
  intro _ _ _
  rw [h.open_eq]
  obtain ⟨hstarted, -, _, _, f, -, rfl⟩ := h
  exact ⟨hstarted, List.mem_cons_self⟩

end UnitBuilder

namespace Build

open UnitBuilder

variable {α β : Type} {u : UnitBuilder} {id : Nat}

/-! ### What each step does -/

theorem ends_ofExcept {x : Except Error α} {post : α → UnitBuilder → Prop}
    {fail : Error → UnitBuilder → Prop} (hfail : ∀ e, x = .error e → fail e u)
    (h : ∀ a, x = .ok a → post a u) : Ends (ofExcept x) u post fail := by
  cases x with
  | ok a => exact h a rfl
  | error e => exact hfail e rfl

theorem ends_requirePhase {operation : UnitOperation} {post : Unit → UnitBuilder → Prop}
    {fail : Error → UnitBuilder → Prop} (hfail : u.phase ≠ operation.phase → ∀ e, fail e u)
    (h : u.phase = operation.phase → post () u) : Ends (requirePhase operation) u post fail := by
  refine Ends.bind (Ends.get ?_)
  dsimp only
  split
  · next hphase => exact h (by simpa using hphase)
  · next hphase => exact hfail (by simpa using hphase) _

theorem ends_getRoutine {post : Routine → UnitBuilder → Prop} {fail : Error → UnitBuilder → Prop}
    (hfail : ∀ e, fail e u) (h : ∀ r, u.routines[id]? = some r → post r u) :
    Ends (getRoutine id) u post fail := by
  refine Ends.bind (Ends.get ?_)
  cases hr : u.routines[id]? with
  | none => exact hfail _
  | some r => exact h r hr

theorem getRoutine_eq {r : Routine} (hr : u.routines[id]? = some r) :
    getRoutine id u = .ok r u := by
  simp only [getRoutine, bind, EStateM.bind, get, getThe, MonadStateOf.get, EStateM.get, hr]
  rfl

theorem ends_onRoutine_of_some {r : Routine} {step : Emit α} {post : α → UnitBuilder → Prop}
    {fail : Error → UnitBuilder → Prop} (hr : u.routines[id]? = some r)
    (h : Ends step ⟨r.assembler, u.symbols⟩ (fun x s => post x (u.putBack id s))
      fun e s => fail e (u.putBack id s)) : Ends (onRoutine id step) u post fail := by
  refine Ends.bind (Ends.of_ok (getRoutine_eq hr) ?_)
  cases hs : step ⟨r.assembler, u.symbols⟩ with
  | ok x s => exact Ends.of_ok (by simp only [hs]) (h.ok hs)
  | error e s => exact Ends.of_error (by simp only [hs]) (h.error hs)

theorem ends_onRoutine {step : Emit α} {post : α → UnitBuilder → Prop}
    {fail : Error → UnitBuilder → Prop} (hfail : ∀ e, fail e u)
    (h : ∀ r, u.routines[id]? = some r → Ends step ⟨r.assembler, u.symbols⟩
      (fun x s => post x (u.putBack id s)) (fun e s => fail e (u.putBack id s))) :
    Ends (onRoutine id step) u post fail := by
  cases hr : u.routines[id]? with
  | none => exact Ends.bind (ends_getRoutine hfail fun r hsome => by cases hr.symm.trans hsome)
  | some r => exact ends_onRoutine_of_some hr (h r hr)

theorem ends_intern {c : Constant} :
    Ends (intern c) u
      (fun i v => ∃ pool, u.pool.intern c = .ok (i, pool) ∧ v = { u with pool })
      fun _ v => v = u := by
  cases hfound : u.pool.intern c with
  | ok found =>
    have hrun : intern c u = .ok found.1 { u with pool := found.2 } := by simp only [intern, hfound]
    exact Ends.of_ok hrun ⟨found.2, rfl, rfl⟩
  | error e =>
    have hrun : intern c u = .error e u := by simp only [intern, hfound]
    exact Ends.of_error hrun rfl

theorem ends_request {t : ValueType} :
    Ends (Build.request t) u
      (fun _ v => ∃ pool, u.pool.request t = .ok pool ∧ v = { u with pool })
      fun _ v => v = u := by
  cases hpool : u.pool.request t with
  | ok pool =>
    have hrun : Build.request t u = .ok () { u with pool } := by simp only [Build.request, hpool]
    exact Ends.of_ok hrun ⟨pool, rfl, rfl⟩
  | error e =>
    have hrun : Build.request t u = .error e u := by simp only [Build.request, hpool]
    exact Ends.of_error hrun rfl

theorem ends_symbol {text : Text} :
    Ends (symbol text) u
      (fun i v => ∃ symbols, u.symbols.intern text = .ok (i, symbols) ∧ v = { u with symbols })
      fun _ v => v = u := by
  cases hfound : u.symbols.intern text with
  | ok found =>
    have hrun : symbol text u = .ok found.1 { u with symbols := found.2 } := by
      simp only [symbol, hfound]
    exact Ends.of_ok hrun ⟨found.2, rfl, rfl⟩
  | error e =>
    have hrun : symbol text u = .error e u := by simp only [symbol, hfound]
    exact Ends.of_error hrun rfl

/-- Logging a routine changes nothing but the context, and does not fail. -/
theorem ends_trace {r : Routine} {record : RoutineRecord} (hrecord : r.record = .ok record) :
    Ends (trace record) u
      (fun _ v => ∃ context, u.context.Traces u.symbols.entries.toArray record context ∧
        v = { u with context })
      fun _ _ => False := by
  refine Ends.bind (Ends.get ?_)
  split
  · refine Ends.bind (Ends.modify (Ends.bind (ends_ofExcept ?_ fun code hcode => ?_)))
    · intro e herror
      obtain ⟨text, htext⟩ := Routine.succeeds_listing hrecord u.symbols.entries.toArray
      rw [htext] at herror
      cases herror
    · exact Ends.modify ⟨_, Context.traces_write hcode, rfl⟩
  · next hquiet => exact ⟨u.context, ⟨rfl, fun htraces => absurd htraces hquiet⟩, rfl⟩

/-- The record of a routine is kept if the unit is started and knows the routine as open. -/
theorem ends_keep_of {record : RoutineRecord} {post : Unit → UnitBuilder → Prop}
    {fail : Error → UnitBuilder → Prop}
    (hfail : ¬ (u.phase = .started ∧ id ∈ u.openRoutines) → ∀ e, fail e u)
    (hkept : u.phase = .started → id ∈ u.openRoutines → post () { u with
      openRoutines := u.openRoutines.erase id
      finished := u.finished.push record
      context := u.context.count "emit.routines" 1 }) :
    Ends (keep id record) u post fail := by
  refine Ends.bind (ends_requirePhase (fun hne _ => ?_) fun hunit => Ends.bind (Ends.get ?_))
  · exact hfail (fun h => hne h.1) _
  · dsimp only
    split
    · next hopen => exact hkept hunit (List.contains_iff_mem.mp hopen)
    · next hopen =>
      exact Ends.bind (hfail (fun h => hopen (List.contains_iff_mem.mpr h.2)) _)

/-- **How a routine ends.** Nothing has happened when it fails because of the routine: it is not
there, not started, or has no record. Otherwise the code is closed, the phase is set and the record
is logged. None of that fails, and it is left to the unit to keep the record. -/
theorem ends_endRoutine_of {post : Unit → UnitBuilder → Prop} {fail : Error → UnitBuilder → Prop}
    (hfail : ∀ e, (∀ r, u.routines[id]? = some r → r.phase = .started → r.record = .error e) →
      fail e u)
    (hkeep : ∀ r record context, u.routines[id]? = some r → r.phase = .started →
      r.record = .ok record → u.context.Traces u.symbols.entries.toArray record context →
      Ends (keep id record) { u.withClosed id r with context } post fail) :
    Ends (endRoutine id) u post fail := by
  refine Ends.bind (Ends.bind (Ends.get ?_))
  cases hr : u.routines[id]? with
  | none => exact hfail _ fun r hsome => by cases hr.symm.trans hsome
  | some r =>
    have hsame : ∀ {r'}, u.routines[id]? = some r' → r' = r := fun h =>
      Option.some.inj (h.symm.trans hr)
    show Ends (ite _ _ _) u post fail
    split
    · next hphase =>
      have hstarted : r.phase = .started := by simpa using hphase
      refine Ends.bind (ends_ofExcept (fun e he => hfail e ?_) fun record hrecord => ?_)
      · rintro r' hr' -
        rw [hsame hr', he]
      · refine Ends.bind (ends_onRoutine_of_some hr (Ends.modify ?_))
        refine Ends.bind (Ends.modify (Ends.bind ?_))
        refine (ends_trace hrecord).mono ?_ fun _ _ h => h.elim
        rintro - _ ⟨context, htraces, rfl⟩
        exact hkeep r record context hr hstarted hrecord htraces
    · next hphase =>
      refine Ends.bind (Ends.throw (hfail _ fun r' hr' hstarted => ?_))
      rw [hsame hr'] at hstarted
      simp [hstarted] at hphase

theorem ends_add {r : Routine} : Ends (add r) u
    (fun id v => id = u.routines.size ∧ r.identity ∉ u.identities ∧ v = u.withRoutine r)
    fun _ v => v = u := by
  refine Ends.bind (ends_ofExcept (fun _ _ => rfl) fun _ _ => ?_)
  refine Ends.bind (ends_ofExcept (fun _ _ => rfl) fun _ _ => ?_)
  refine Ends.bind (Ends.get ?_)
  split
  · exact Ends.bind (Ends.bind (Ends.get rfl))
  · next hnew =>
    refine Ends.bind (Ends.get (Ends.bind (Ends.modify ?_)))
    exact ⟨rfl, by simpa using hnew, rfl⟩

/-- A new routine comes last, and starts as its name and its signature ask for. -/
theorem ends_routine_synthetic {flags : Flags} {name : Text} {signature : Signature} :
    Ends (routine flags name signature) u
      (fun id v => id = u.routines.size ∧ u.phase = .started ∧
        ∃ r, Routine.synthetic flags name signature = .ok r ∧ r.identity ∉ u.identities ∧
          v = u.withRoutine r)
      fun _ v => v = u := by
  refine Ends.bind (ends_requirePhase (fun _ _ => rfl) fun hstarted => ?_)
  refine Ends.bind (ends_ofExcept (fun _ _ => rfl) fun r hr => ?_)
  refine ends_add.mono ?_ fun _ _ hv => hv
  rintro id v ⟨hid, hnew, hv⟩
  exact ⟨hid, hstarted, r, hr, hnew, hv⟩

theorem ends_routine {flags : Flags} {name : Text} {signature : Signature} :
    Ends (routine flags name signature) u (fun id v => Adds id u v) fun _ v => v = u := by
  refine ends_routine_synthetic.mono ?_ fun _ _ hv => hv
  rintro id v ⟨hid, hstarted, r, hr, hnew, hv⟩
  exact ⟨hid, hstarted, r, Routine.phase_of_synthetic hr, hnew, hv⟩

theorem ends_onRoutine_works (step : Emit α) :
    Ends (onRoutine id step) u (fun _ => Works id u) fun _ => Works id u := by
  refine ends_onRoutine (fun _ => .refl id u) fun r _ => ?_
  cases hs : step ⟨r.assembler, u.symbols⟩ with
  | ok x s => exact Ends.of_ok hs (works_putBack id u s)
  | error e s => exact Ends.of_error hs (works_putBack id u s)

/-- A routine that is begun stays begun when its prologue fails. -/
theorem ends_beginRoutine :
    Ends (beginRoutine id) u (fun _ => Begins id u) fun _ v => v = u ∨ Begins id u v := by
  refine Ends.bind (ends_getRoutine (fun _ => .inl rfl) fun r hr => ?_)
  dsimp only
  split
  · next hphase =>
    refine Ends.bind (ends_requirePhase (fun _ _ => .inl rfl) fun hstarted => ?_)
    refine Ends.bind (Ends.modify (Ends.bind (Ends.modify ?_)))
    have hbegins : ∀ {v}, Works id (u.withBegun id) v → Begins id u v := fun hv =>
      ⟨hstarted, ⟨r, hr, by simpa using hphase⟩, hv⟩
    refine Ends.bind ((ends_onRoutine_works _).mono ?_ fun _ _ hv => .inr (hbegins hv))
    rintro - v hv
    cases r.attributes with
    | none => exact hbegins hv
    | some a =>
      refine Ends.bind ((ends_onRoutine_works _).mono ?_ fun _ _ hw => .inr (hbegins (hv.trans hw)))
      intro layout w hw
      exact hbegins ((hv.trans hw).trans ⟨w.context, w.symbols, _, .setLayout layout, rfl⟩)
  · exact Ends.bind (Ends.throw (.inl rfl))

theorem ends_openRoutine {name : Text} {a : Attributes} {paramCount scopeSize : Nat} :
    Ends (openRoutine name a paramCount scopeSize) u (fun _ => Moves 0 u [])
      fun _ => Moves 0 u [] := by
  refine Ends.bind (ends_requirePhase (fun _ _ => .refl) fun hstarted => ?_)
  dsimp only
  split
  · exact Ends.bind (Ends.throw .refl)
  · refine Ends.bind (Ends.get (Ends.bind (ends_ofExcept (fun _ _ => .refl) fun r hr => ?_)))
    refine Ends.bind (ends_add.mono ?_ ?_)
    · rintro id _ ⟨-, hnew, rfl⟩
      have hadded : Moves 0 u [] (u.withRoutine r) :=
        Moves.refl.add hstarted (Routine.phase_of_ofFunction hr) hnew
      refine Ends.bind (ends_beginRoutine.mono ?_ ?_)
      · exact fun _ v hbegins => hadded.trans (hbegins.moves (Nat.zero_le id))
      · rintro - v (rfl | hbegins)
        · exact hadded
        · exact hadded.trans (hbegins.moves (Nat.zero_le id))
    · rintro - _ rfl
      exact .refl

/-- **An open routine ends with a record, or nothing happens.** The phase of the routine is changed
before the unit is told, but nothing fails between the two when only open routines are started. -/
theorem ends_endRoutine (hguard : u.Guards id) :
    Ends (endRoutine id) u
      (fun _ v => ∃ w r record, Works id u w ∧ w.routines[id]? = some r ∧ r.phase = .started ∧
        id ∈ w.openRoutines ∧ r.RecordedAs record ∧ v = w.withEnded id record)
      fun _ v => v = u := by
  refine ends_endRoutine_of (fun _ _ => rfl) fun r record context hr hstarted hrecord _ => ?_
  have hopen := hguard r hr hstarted
  refine ends_keep_of (fun hnot => absurd hopen hnot) fun _ _ => ?_
  let closed : Assembly := ⟨{ r.assembler with isOpen := false }, u.symbols⟩
  have hget : (u.putBack id closed).routines[id]? =
      some { r with assembler := closed.assembler } := by
    rw [putBack, Array.getElem?_modify, if_pos rfl, hr, Option.map_some]
  refine ⟨{ u.putBack id closed with context := context.count "emit.routines" 1 }, _, record,
    ?_, hget, hstarted, hopen.2, ⟨r.assembler, hrecord⟩, rfl⟩
  exact ⟨_, closed.symbols, _, .setAssembler closed.assembler, rfl⟩

/-! ### Properties that steps keep -/

/-- The step keeps `P` when it gives a value and leaves `F` when it fails. -/
def Keeps (P F : UnitBuilder → Prop) (m : Build α) : Prop :=
  ∀ u, P u → Ends m u (fun _ => P) fun _ => F

variable {P F : UnitBuilder → Prop}

theorem Keeps.bind {m : Build α} {f : α → Build β} (hm : Keeps P F m) (hf : ∀ x, Keeps P F (f x)) :
    Keeps P F (m >>= f) := fun u hu =>
  Ends.bind ((hm u hu).mono (fun x v hv => hf x v hv) fun _ _ hv => hv)

theorem Keeps.map {m : Build α} (f : α → β) (hm : Keeps P F m) : Keeps P F (f <$> m) :=
  fun u hu => Ends.map (hm u hu)

theorem keeps_get : Keeps P F (get : Build UnitBuilder) := fun _ hu => hu

theorem keeps_ofExcept (hPF : ∀ u, P u → F u) (x : Except Error α) : Keeps P F (ofExcept x) :=
  fun u hu => ends_ofExcept (fun _ _ => hPF u hu) fun _ _ => hu

theorem Keeps.forM {f : α → Build Unit} {items : List α} (hf : ∀ x, Keeps P F (f x)) :
    Keeps P F (items.forM f) := fun _ hu => Ends.forM (fun x _ => hf x) hu

/-- A constant is loaded by changing the pool and emitting code. -/
theorem keeps_loadConstant_of_emission (hPF : ∀ u, P u → F u)
    (hpool : ∀ u pool, P u → P { u with pool }) (hemit : ∀ e, Keeps P F (emission id e))
    (c : Constant) : Keeps P F (loadConstant id c) := by
  have hintern : Keeps P F (intern c) := by
    intro u hu
    refine ends_intern.mono ?_ ?_
    · rintro - _ ⟨pool, -, rfl⟩
      exact hpool u pool hu
    · rintro - _ rfl
      exact hPF _ hu
  have hrequest : Keeps P F (Build.request c.type) := by
    intro u hu
    refine ends_request.mono ?_ ?_
    · rintro - _ ⟨pool, -, rfl⟩
      exact hpool u pool hu
    · rintro - _ rfl
      exact hPF _ hu
  refine hintern.bind fun _ => hrequest.bind fun _ => (hemit _).bind fun _ => ?_
  refine (keeps_ofExcept hPF _).bind fun _ => (keeps_ofExcept hPF _).bind fun _ => ?_
  exact keeps_get.bind fun _ => hemit _

/-- A step that does nothing but emit code into one routine: it keeps whatever emissions into this
routine keep. -/
def Emits (id : Nat) (m : Build α) : Prop :=
  ∀ P F : UnitBuilder → Prop, (∀ u, P u → F u) → (∀ e, Keeps P F (emission id e)) → Keeps P F m

theorem Emits.bind {m : Build α} {f : α → Build β} (hm : Emits id m) (hf : ∀ x, Emits id (f x)) :
    Emits id (m >>= f) := fun P F hPF hemit =>
  (hm P F hPF hemit).bind fun x => hf x P F hPF hemit

theorem emits_emission (id : Nat) (e : Emission) : Emits id (emission id e) :=
  fun _ _ _ hemit => hemit e

theorem emits_loadConstants (id : Nat) : Emits id (loadConstants id) :=
  fun _ _ _ hemit => keeps_get.bind fun _ => hemit _

theorem emits_paramSlot (id index : Nat) : Emits id (paramSlot id index) := fun _ _ hPF _ u hu =>
  Ends.bind (ends_getRoutine (fun _ => hPF u hu) fun _ _ => keeps_ofExcept hPF _ u hu)

theorem emits_fetchConstant (type : ValueType) (id : Nat) : Emits id (fetchConstant type id) :=
  (emits_loadConstants id).bind fun _ => (emits_paramSlot id 0).bind fun _ =>
    (emits_emission id _).bind fun _ => (emits_emission id _).bind fun _ => emits_emission id _

section Accessor

variable {flags : List Flag} {type : ValueType} {post : Unit → UnitBuilder → Prop}
  {fail : Error → UnitBuilder → Prop}

/-- The accessor of strings or maps is one routine, whose code is emitted. -/
theorem ends_valueAccessor_of (hfail : ∀ e, fail e u)
    (h : ∀ name signature (code : Nat → Build Unit), Pool.accessorName type = .ok name →
      Pool.accessorSignature type = .ok signature → (∀ id, Emits id (code id)) →
      Ends (synthesize flags name signature code) u post fail) :
    Ends (valueAccessor flags type) u post fail := by
  refine Ends.bind (ends_ofExcept (fun e _ => hfail e) fun name hname => ?_)
  refine Ends.bind (ends_ofExcept (fun e _ => hfail e) fun signature hsignature => ?_)
  refine h name signature _ hname hsignature fun id => ?_
  exact (emits_fetchConstant type id).bind fun _ => emits_emission id _

/-- The accessor of an array type is one routine, whose code is emitted. -/
theorem ends_arrayAccessor_of (hfail : ∀ e, fail e u)
    (h : ∀ name signature (code : Nat → Build Unit), Pool.accessorName type = .ok name →
      Pool.accessorSignature type = .ok signature → (∀ id, Emits id (code id)) →
      Ends (synthesize [.isPrivate, .isStatic] name signature code) u post fail) :
    Ends (arrayAccessor type) u post fail := by
  refine Ends.bind (ends_ofExcept (fun e _ => hfail e) fun name hname => ?_)
  refine Ends.bind (ends_ofExcept (fun e _ => hfail e) fun signature hsignature => ?_)
  refine h name signature _ hname hsignature fun id => ?_
  refine (emits_fetchConstant type id).bind fun _ => (emits_emission id _).bind fun _ => ?_
  refine (emits_emission id _).bind fun _ => ?_
  exact (emits_emission id _).bind fun _ => emits_emission id _

/-- So is what replaces a map. -/
theorem ends_mapSetter_of (h : ∀ code : Nat → Build Unit, (∀ id, Emits id (code id)) →
      let signature : Signature := { result := .void, params := [.int, .map] }
      Ends (synthesize [.isPublic, .isStatic] "$setMap" signature code) u post fail) :
    Ends mapSetter u post fail := by
  refine h _ fun id => (emits_loadConstants id).bind fun _ => ?_
  refine (emits_paramSlot id 0).bind fun _ => (emits_emission id _).bind fun _ => ?_
  refine (emits_paramSlot id 1).bind fun _ => (emits_emission id _).bind fun _ => ?_
  exact (emits_emission id _).bind fun _ => emits_emission id _

end Accessor

/-- An accessor is a matter of routines whose code is emitted, and of counting them. -/
theorem keeps_accessor (hPF : ∀ u, P u → F u)
    (hreport : ∀ key amount, Keeps P F (report (·.count key amount)))
    (hsynthesize : ∀ flags name signature (code : Nat → Build Unit), (∀ id, Emits id (code id)) →
      Keeps P F (synthesize flags name signature code))
    (type : ValueType) : Keeps P F (accessor type) := by
  have hvalue : ∀ flags type, Keeps P F (valueAccessor flags type) := fun _ _ u hu =>
    ends_valueAccessor_of (fun _ => hPF u hu) fun _ _ _ _ _ hcode => hsynthesize _ _ _ _ hcode u hu
  have harray : ∀ type, Keeps P F (arrayAccessor type) := fun _ u hu =>
    ends_arrayAccessor_of (fun _ => hPF u hu) fun _ _ _ _ _ hcode => hsynthesize _ _ _ _ hcode u hu
  have hsetter : Keeps P F mapSetter := fun u hu =>
    ends_mapSetter_of fun _ hcode => hsynthesize _ _ _ _ hcode u hu
  unfold accessor
  split
  · exact (hvalue _ _).bind fun _ => hreport _ _
  · exact (hvalue _ _).bind fun _ => hsetter.bind fun _ => hreport _ _
  · exact (harray _).bind fun _ => hreport _ _

/-- The accessors are added before the unit is encoded, and nothing after that. -/
theorem ends_assemble_of (hPF : ∀ u, P u → F u)
    (haccessors : Ends (u.pool.accessors.forM accessor) u (fun _ => P) fun _ => F) :
    Ends assemble u (fun bytes v => P v ∧ v.image.encode = .ok bytes) fun _ => F := by
  refine Ends.bind (Ends.get (Ends.bind ?_))
  refine haccessors.mono (fun _ v hv => ?_) fun _ v hv => hv
  refine Ends.bind (Ends.get (Ends.bind ?_))
  refine ends_ofExcept (fun _ _ => hPF v hv) fun bytes hbytes => ?_
  split
  · refine Ends.bind (Ends.map (ends_ofExcept (fun _ _ => hPF v hv) fun _ _ => ?_))
    exact ⟨hv, hbytes⟩
  · exact ⟨hv, hbytes⟩

theorem ends_assemble_of_keeps (hPF : ∀ u, P u → F u)
    (haccessor : ∀ type, Keeps P F (accessor type)) (hu : P u) :
    Ends assemble u (fun bytes v => P v ∧ v.image.encode = .ok bytes) fun _ => F :=
  ends_assemble_of hPF (Keeps.forM haccessor u hu)

end Build

/-! ### Assembling a unit -/

namespace UnitBuilder

/-- A number of routines have been added to the unit, each of which has begun and ended before the
next one. -/
structure Supplies (u : UnitBuilder) (count : Nat) (v : UnitBuilder) : Prop where
  size_eq : v.routines.size = u.routines.size + count
  open_eq : v.openRoutines = u.openRoutines
  moves : Moves u.routines.size u (List.range' u.routines.size count) v

theorem Supplies.refl (u : UnitBuilder) : u.Supplies 0 u := ⟨rfl, rfl, .refl⟩

theorem Supplies.next {u v w : UnitBuilder} {count : Nat} (h : u.Supplies count v)
    (h' : v.Supplies 1 w) : u.Supplies (count + 1) w := by
  refine ⟨by rw [h'.size_eq, h.size_eq, Nat.add_assoc], h'.open_eq.trans h.open_eq, ?_⟩
  have hmoves := h'.moves
  rw [List.range'_one, h.size_eq] at hmoves
  rw [List.range'_1_concat]
  exact h.moves.trans (hmoves.mono (Nat.le_add_right _ _))

end UnitBuilder

namespace Build

open UnitBuilder

variable {u : UnitBuilder}

/-- A synthesized routine begins and ends. When something fails, none has ended. -/
theorem ends_synthesize {flags : List Flag} {name : Text} {signature : Signature}
    {code : Nat → Build Unit} (hcode : ∀ id, Emits id (code id)) :
    Ends (synthesize flags name signature code) u (fun _ v => u.Supplies 1 v)
      fun _ v => Moves u.routines.size u [] v := by
  refine Ends.bind (ends_routine.mono ?_ ?_)
  · intro id v hadds
    have hid : u.routines.size ≤ id := hadds.1.ge
    have hmoves : ∀ {w}, Begins id v w → Moves u.routines.size u [] w := fun hw =>
      hadds.moves.trans (hw.moves hid)
    -- the code only works on the routine, which stays open meanwhile
    have hemits : Keeps (Begins id v) (Begins id v) (code id) := by
      refine hcode id _ _ (fun _ hw => hw) fun e w hw => ?_
      exact (ends_onRoutine_works _).mono (fun _ _ hx => hw.work hx) fun _ _ hx => hw.work hx
    refine Ends.bind (ends_beginRoutine.mono (fun _ w hw => ?_) ?_)
    · refine Ends.bind ((hemits w hw).mono (fun _ x hx => ?_) fun _ x hx => hmoves hx)
      refine (ends_endRoutine hx.guards).mono ?_ ?_
      · rintro - _ ⟨y, r, record, hwork, hr, hphase, hopen, hrecord, rfl⟩
        have hy : Begins id v y := hx.work hwork
        have hended := (hmoves hy).finish hid hr hphase hopen hrecord
        obtain ⟨rfl, -, new, -, -, rfl⟩ := hadds
        refine ⟨?_, ?_, hended⟩
        · simp [withEnded, hy.size_eq, withRoutine]
        · simp [withEnded, hy.open_eq, withRoutine]
      · rintro - _ rfl
        exact hmoves hx
    · rintro - w (rfl | hw)
      · exact hadds.moves
      · exact hmoves hw
  · rintro - _ rfl
    exact .refl

/-- The accessors of a type are added as routines, one after the other. -/
theorem keeps_accessor_supplies (u : UnitBuilder) (type : ValueType) :
    Keeps (fun v => ∃ count, u.Supplies count v) (fun v => ∃ ids, Moves u.routines.size u ids v)
      (accessor type) := by
  refine keeps_accessor ?_ ?_ ?_ type
  · rintro v ⟨count, hv⟩
    exact ⟨_, hv.moves⟩
  · rintro key amount v ⟨count, hv⟩
    exact ⟨count, hv.size_eq, hv.open_eq, hv.moves.report _⟩
  · rintro flags name signature code hcode v ⟨count, hv⟩
    refine (ends_synthesize hcode).mono (fun _ w hw => ⟨count + 1, hv.next hw⟩) fun _ w hw => ?_
    exact ⟨_, hv.moves.trans (hw.mono (by rw [hv.size_eq]; exact Nat.le_add_right _ _))⟩

/-- **A unit is assembled** by adding routines to it, each of which begins and ends before the next
one, and is encoded then. A failure leaves some of these moves behind. -/
theorem ends_assemble_supplies :
    Ends assemble u (fun bytes v => (∃ count, u.Supplies count v) ∧ v.image.encode = .ok bytes)
      fun _ v => ∃ ids, Moves u.routines.size u ids v := by
  refine ends_assemble_of_keeps ?_ (keeps_accessor_supplies u) ⟨0, .refl u⟩
  rintro v ⟨count, hv⟩
  exact ⟨_, hv.moves⟩

end Build

end Bytecode
