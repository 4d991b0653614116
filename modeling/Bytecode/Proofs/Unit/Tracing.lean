import Mathlib
import Bytecode.Image.Listing
import Bytecode.Proofs.Unit.Acceptance
import Bytecode.Proofs.Unit.Lifecycle
import Bytecode.Proofs.Unit.Steps

/-!
# Traces of finished routines

A unit logs each routine when it ends, as a listing made from the record and the symbols that there
are then. The listing of the whole unit is made later, from its bytes alone and with all symbols.
The log is nevertheless the end of that listing, word for word: a record is kept for each routine
that is logged and for no other, records stay in order, and a symbol that is there keeps its text.
Only a text in the constants that is too long keeps the bytes from being listed.

## Main definitions

* `UnitBuilder.Rests`: nothing was logged, and no record was kept
* `UnitBuilder.Reports`: a record was kept, and its listing logged
* `UnitBuilder.Logged`: the log holds the listings of the records
* `Build.Quiet`: a step that logs nothing and keeps no record

## Main results

* `Routine.Sound.listing_eq`: the listing of a record does not change when symbols are added
* `Build.ends_perform_reports`: what a request logs
* `Build.ends_finish_logged`: what the end of a unit logs
* `Build.log_of_finish`: the log of a unit is the listing of its routines
* `Build.listing_zeros`: a unit that logs its routines, but has no listing
-/

namespace Bytecode

/-! ### Listings and symbols -/

/-- A line of a listing stays the same while the table grows. -/
theorem Placed.toText_of_prefix {names more : List Text} {p : Placed} (hgrown : names <+: more)
    (hp : ∀ n, p.instruction.symbol? = some n → n.toNat < names.length) :
    p.toText more.toArray = p.toText names.toArray := by
  obtain ⟨rest, rfl⟩ := hgrown
  have hlookup : ∀ n : UInt16, p.instruction.symbol? = some n →
      (names ++ rest).toArray.getD n.toNat "<bad symbol>" =
        names.toArray.getD n.toNat "<bad symbol>" := by
    intro n hn
    have hlt := hp n hn
    simp [Array.getD_eq_getD_getElem?, List.getElem?_append_left hlt]
  obtain ⟨offset, size, op, operand⟩ := p
  unfold toText
  congr 1
  cases op with
  | getStatic | putStatic | invoke =>
    show _ ++ _ = _ ++ _
    rw [hlookup operand rfl]
  | _ => rfl

/-- **The listing of a record does not change when symbols are added.** -/
theorem Routine.Sound.listing_eq {r : Routine} {record : RoutineRecord} {names more : List Text}
    (hr : r.Sound names.length) (hrecord : r.record = .ok record) (hgrown : names <+: more) :
    record.listing more.toArray = record.listing names.toArray := by
  obtain ⟨code, hfinish, -, -, rfl⟩ := Routine.record_eq_ok hrecord
  obtain ⟨-, rfl, -⟩ := hr.wellFormed.finish_eq_ok hfinish
  -- the lines are those of the instructions, each of which refers to an old symbol
  have hlines : ∀ p ∈ Code.placed r.assembler.resolved,
      p.toText more.toArray ++ "\n" = p.toText names.toArray ++ "\n" := by
    intro p hp
    obtain ⟨k, hk⟩ := List.mem_iff_getElem?.mp hp
    rw [Assembler.getElem?_placed_resolved] at hk
    obtain ⟨i, hi, rfl⟩ := Option.map_eq_some_iff.mp hk
    rw [Placed.toText_of_prefix hgrown fun n hn => ?_]
    rw [Instruction.instruction_placedAt, Instruction.symbol?_map] at hn
    exact hr.linked i (Assembler.mem_instructions.mp (List.mem_of_getElem? hi)) n hn
  have hcode : Code.listing more.toArray (Code.encode r.assembler.resolved) =
      Code.listing names.toArray (Code.encode r.assembler.resolved) := by
    rw [Code.listing, Code.listing, Code.decode_encode]
    exact congrArg Except.ok (List.flatMap_congr hlines)
  rw [RoutineRecord.listing, RoutineRecord.listing, hcode]

/-! ### What is logged -/

namespace UnitBuilder

variable {u v w : UnitBuilder} {record : RoutineRecord} {base : Text}

/-- Nothing was logged, and no record was kept. -/
structure Rests (u v : UnitBuilder) : Prop where
  context_eq : v.context = u.context
  finished_eq : v.finished = u.finished

theorem Rests.refl (u : UnitBuilder) : u.Rests u := ⟨rfl, rfl⟩

theorem Rests.trans (h : u.Rests v) (h' : v.Rests w) : u.Rests w :=
  ⟨h'.context_eq.trans h.context_eq, h'.finished_eq.trans h.finished_eq⟩

/-- A record was kept, and its listing logged. That is done only while the unit is started. -/
structure Reports (u : UnitBuilder) (record : RoutineRecord) (v : UnitBuilder) : Prop where
  started : u.phase = .started
  finished_eq : v.finished = u.finished.push record
  symbols_eq : v.symbols = u.symbols
  traces : v.context.tracesCode = true
  log_eq : ∃ text, record.listing u.symbols.entries.toArray = .ok text ∧
    v.context.logText = u.context.logText ++ text

/-- The log holds `base`, and after it the listings of the records that were kept, in order. -/
structure Logged (base : Text) (u : UnitBuilder) : Prop where
  traces : u.context.tracesCode = true
  log_eq : ∃ texts,
    List.Forall₂ (fun record text => record.listing u.symbols.entries.toArray = .ok text)
      u.finished.toList texts ∧
    u.context.logText = base ++ texts.flatten

/-- What is listed stays the same while symbols are added. -/
theorem Logged.rests (h : Logged base u) (hu : u.Sound) (hrests : u.Rests v)
    (hgrown : u.symbols.entries <+: v.symbols.entries) : Logged base v := by
  obtain ⟨texts, htexts, hlog⟩ := h.log_eq
  rw [← hrests.context_eq] at hlog
  refine ⟨hrests.context_eq ▸ h.traces, texts, ?_, hlog⟩
  have hsame : ∀ record ∈ u.finished.toList,
      record.listing v.symbols.entries.toArray = record.listing u.symbols.entries.toArray := by
    intro record hrecord
    obtain ⟨id, -, r, hsound, hr⟩ := hu.finished record hrecord
    rw [← SymbolTable.length_entries] at hsound
    exact hsound.listing_eq hr hgrown
  rw [hrests.finished_eq]
  refine ((List.forall₂_and_left _ _).mpr ⟨hsame, htexts⟩).imp ?_
  rintro record text ⟨heq, htext⟩
  exact heq.trans htext

/-- A record and its listing are added to the others. -/
theorem Logged.reports (h : Logged base u) (hreports : u.Reports record v) : Logged base v := by
  obtain ⟨texts, htexts, hlog⟩ := h.log_eq
  obtain ⟨text, htext, hlog'⟩ := hreports.log_eq
  refine ⟨hreports.traces, texts ++ [text], ?_, ?_⟩
  · rw [hreports.finished_eq, hreports.symbols_eq, Array.toList_push]
    exact List.rel_append htexts (.cons htext .nil)
  · rw [hlog', hlog, List.flatten_append, List.flatten_singleton, List.append_assoc]

end UnitBuilder

namespace Build

open UnitBuilder

variable {α β : Type} {u : UnitBuilder} {id : Nat}

/-- **A routine that ends is reported.** When it cannot be ended, nothing happens. -/
theorem ends_endRoutine_reports (hguard : u.Guards id) (htraces : u.context.tracesCode = true) :
    Ends (endRoutine id) u (fun _ v => ∃ record, u.Reports record v) fun _ v => v = u := by
  refine ends_endRoutine_of (fun _ _ => rfl) fun r record context hr hstarted _ hlog => ?_
  have hopen := hguard r hr hstarted
  refine ends_keep_of (fun hnot => absurd hopen hnot) fun _ _ => ?_
  obtain ⟨htraced, text, htext, hlast⟩ := hlog.log_eq htraces
  exact ⟨record, hopen.1, rfl, rfl, htraced, text, htext, hlast⟩

/-! ### Steps that log nothing -/

/-- A step that logs nothing and keeps no record, whichever way it ends. -/
def Quiet (m : Build α) : Prop := ∀ u : UnitBuilder, Keeps u.Rests u.Rests m

/-- A step is quiet when it is so from where it starts. -/
theorem Quiet.of_ends {m : Build α}
    (h : ∀ u, Ends m u (fun _ => u.Rests) fun _ => u.Rests) : Quiet m := fun _ v hv =>
  (h v).mono (fun _ _ hw => hv.trans hw) fun _ _ hw => hv.trans hw

theorem Quiet.ends {m : Build α} (hm : Quiet m) (u : UnitBuilder) :
    Ends m u (fun _ => u.Rests) fun _ => u.Rests := hm u u (.refl u)

theorem Quiet.pure (x : α) : Quiet (Pure.pure x) := fun _ _ hv => hv

theorem Quiet.throw_bind (e : Error) (f : α → Build β) : Quiet (MonadExcept.throw e >>= f) :=
  fun _ _ hv => hv

theorem Quiet.bind {m : Build α} {f : α → Build β} (hm : Quiet m) (hf : ∀ x, Quiet (f x)) :
    Quiet (m >>= f) := fun u => (hm u).bind fun x => hf x u

theorem Quiet.map {m : Build α} (f : α → β) (hm : Quiet m) : Quiet (f <$> m) :=
  fun u => (hm u).map f

theorem quiet_get : Quiet (get : Build UnitBuilder) := fun _ => keeps_get

theorem quiet_ofExcept (x : Except Error α) : Quiet (ofExcept x) :=
  fun _ => keeps_ofExcept (fun _ hv => hv) x

theorem quiet_refuse (fault : UnitFault) : Quiet (refuse fault : Build α) := fun _ _ hv => hv

theorem quiet_modify {f : UnitBuilder → UnitBuilder} (hf : ∀ u : UnitBuilder, u.Rests (f u)) :
    Quiet (modify f : Build PUnit) := .of_ends fun u => hf u

theorem quiet_requirePhase (operation : UnitOperation) : Quiet (requirePhase operation) :=
  .of_ends fun u => ends_requirePhase (fun _ _ => .refl u) fun _ => .refl u

theorem quiet_getRoutine (id : Nat) : Quiet (getRoutine id) :=
  .of_ends fun u => ends_getRoutine (fun _ => .refl u) fun _ _ => .refl u

theorem quiet_updateRoutine (id : Nat) (f : Routine → Routine) : Quiet (updateRoutine id f) :=
  quiet_modify fun _ => ⟨rfl, rfl⟩

theorem quiet_onRoutine (id : Nat) (step : Emit α) : Quiet (onRoutine id step) := by
  refine .of_ends fun u => ends_onRoutine (fun _ => .refl u) fun r _ => ?_
  exact (Ends.self step _).mono (fun _ _ _ => ⟨rfl, rfl⟩) fun _ _ _ => ⟨rfl, rfl⟩

theorem quiet_begin : Quiet Build.begin := by
  refine (quiet_requirePhase _).bind fun _ => quiet_get.bind fun _ => ?_
  refine (quiet_ofExcept _).bind fun _ => (quiet_ofExcept _).bind fun _ => ?_
  exact quiet_modify fun _ => ⟨rfl, rfl⟩

theorem quiet_field (f : Field) : Quiet (field f) := by
  refine (quiet_requirePhase _).bind fun _ => quiet_get.bind fun u => ?_
  refine (quiet_ofExcept _).bind fun _ => ?_
  have hinsert : Quiet (modify fun u => { u with fields := u.fields.insert f } : Build PUnit) :=
    quiet_modify fun _ => ⟨rfl, rfl⟩
  dsimp only
  split
  · exact (quiet_refuse _).bind fun _ => hinsert
  · exact hinsert

theorem quiet_add (r : Routine) : Quiet (add r) := by
  refine .of_ends fun u => ends_add.mono ?_ ?_
  · rintro - _ ⟨-, -, rfl⟩
    exact ⟨rfl, rfl⟩
  · rintro - _ rfl
    exact .refl _

theorem quiet_routine (flags : Flags) (name : Text) (signature : Signature) :
    Quiet (routine flags name signature) :=
  (quiet_requirePhase _).bind fun _ => (quiet_ofExcept _).bind fun r => quiet_add r

theorem quiet_beginRoutine (id : Nat) : Quiet (beginRoutine id) := by
  refine (quiet_getRoutine id).bind fun r => ?_
  dsimp only
  split
  · refine (quiet_requirePhase _).bind fun _ => ?_
    refine Quiet.bind (quiet_modify ?_) fun _ => ?_
    · exact fun _ => ⟨rfl, rfl⟩
    refine (quiet_updateRoutine id _).bind fun _ => (quiet_onRoutine id _).bind fun _ => ?_
    cases r.attributes with
    | none => exact .pure ()
    | some a => exact (quiet_onRoutine id _).bind fun _ => quiet_updateRoutine id _
  · exact .throw_bind _ _

theorem quiet_openRoutine (name : Text) (a : Attributes) (paramCount scopeSize : Nat) :
    Quiet (openRoutine name a paramCount scopeSize) := by
  refine (quiet_requirePhase _).bind fun _ => ?_
  dsimp only
  split
  · exact .throw_bind _ _
  · refine quiet_get.bind fun _ => (quiet_ofExcept _).bind fun r => ?_
    exact (quiet_add r).bind fun id => (quiet_beginRoutine id).bind fun _ => .pure id

theorem quiet_intern (c : Constant) : Quiet (intern c) := by
  refine .of_ends fun u => ends_intern.mono ?_ ?_
  · rintro - _ ⟨pool, -, rfl⟩
    exact ⟨rfl, rfl⟩
  · rintro - _ rfl
    exact .refl _

theorem quiet_request (t : ValueType) : Quiet (Build.request t) := by
  refine .of_ends fun u => ends_request.mono ?_ ?_
  · rintro - _ ⟨pool, -, rfl⟩
    exact ⟨rfl, rfl⟩
  · rintro - _ rfl
    exact .refl _

theorem quiet_symbol (text : Text) : Quiet (symbol text) := by
  refine .of_ends fun u => ends_symbol.mono ?_ ?_
  · rintro - _ ⟨symbols, -, rfl⟩
    exact ⟨rfl, rfl⟩
  · rintro - _ rfl
    exact .refl _

theorem quiet_loadConstant (id : Nat) (c : Constant) : Quiet (loadConstant id c) := fun _ =>
  keeps_loadConstant_of_emission (fun _ hv => hv) (fun _ _ hv => ⟨hv.context_eq, hv.finished_eq⟩)
    (fun _ => quiet_onRoutine id _ _) c

/-! ### Requests -/

/-- Only the end of a routine, or of the unit, is logged. -/
theorem quiet_perform {r : UnitRequest} (hr : r ≠ .finish) (hend : ∀ id, r ≠ .endRoutine id) :
    Quiet (perform r) := by
  cases r with
  | begin => exact quiet_begin
  | finish => exact absurd rfl hr
  | field f => exact quiet_field f
  | routine flags name signature => exact (quiet_routine flags name signature).map _
  | staticInitializer => exact (quiet_routine _ _ _).map _
  | instanceInitializer params => exact (quiet_routine _ _ _).map _
  | openRoutine name a paramCount scopeSize =>
    exact (quiet_openRoutine name a paramCount scopeSize).map _
  | openFunction f => exact ((quiet_ofExcept _).bind fun _ => quiet_openRoutine _ _ _ _).map _
  | beginRoutine id => exact quiet_beginRoutine id
  | endRoutine id => exact absurd rfl (hend id)
  | onRoutine id r => exact quiet_onRoutine id _
  | loadConstants id => exact quiet_get.bind fun _ => quiet_onRoutine id _
  | loadConstant id c => exact quiet_loadConstant id c
  | intern c => exact (quiet_intern c).map _
  | request t => exact quiet_request t
  | symbol text => exact (quiet_symbol text).map _

/-- **What a request logs**: the listing of a record that it keeps, and otherwise nothing. -/
theorem ends_perform_reports {r : UnitRequest} (hr : r ≠ .finish) (hguards : ∀ id, u.Guards id)
    (htraces : u.context.tracesCode = true) :
    Ends (perform r) u (fun _ v => u.Rests v ∨ ∃ record, u.Reports record v)
      fun _ v => u.Rests v := by
  by_cases hend : ∃ id, r = .endRoutine id
  · obtain ⟨id, rfl⟩ := hend
    refine (ends_endRoutine_reports (hguards id) htraces).mono (fun _ _ hv => .inr hv) ?_
    rintro - _ rfl
    exact .refl _
  · have hquiet := quiet_perform hr (not_exists.mp hend)
    exact (hquiet.ends u).mono (fun _ _ hv => .inl hv) fun _ _ hv => hv

end Build

namespace UnitBuilder

/-- A sound unit whose lists agree with the phases of its routines, and whose log holds the listings
of its records. -/
structure Followed (base : Text) (u : UnitBuilder) : Prop where
  sound : u.Sound
  lifecycle : ∃ completed, u.Lifecycle completed
  logged : Logged base u

/-- Reports of numbers leave the log alone. -/
theorem Followed.measure {base : Text} {u : UnitBuilder} (h : Followed base u)
    (f : Metrics → Metrics) :
    Followed base { u with context := u.context.measure f } := by
  obtain ⟨completed, hlists⟩ := h.lifecycle
  refine ⟨h.sound.frame _ u.phase u.pool u.openRoutines u.bytes, ⟨completed, ?_⟩, ?_⟩
  · exact hlists.frame _ u.symbols u.pool u.fields u.bytes
  · exact ⟨h.logged.traces, h.logged.log_eq⟩

theorem followed_new {context : Context} (htraces : context.tracesCode = true)
    (name source : Text) (strict : Bool) :
    Followed context.logText (new context name source strict) where
  sound := sound_new context name source strict
  lifecycle := ⟨[], lifecycle_new context name source strict⟩
  logged := ⟨htraces, [], .nil, (List.append_nil _).symm⟩

end UnitBuilder

namespace Build

open UnitBuilder

variable {α : Type} {u : UnitBuilder} {base : Text}

/-- A request keeps the log and the records together, whichever way it comes out. -/
theorem keeps_perform_followed {r : UnitRequest} (hr : r ≠ .finish)
    (hfield : ∀ f, r = .field f → f.type ≠ .void) :
    Keeps (Followed base) (Followed base) (perform r) := by
  intro u hu
  obtain ⟨completed, hlists⟩ := hu.lifecycle
  have hlinked : u.Linked := ⟨hu.sound.symbols, fun _ _ hr => hu.sound.linked hr⟩
  -- what is known of a request, whichever way it comes out, is enough for the next unit
  have hnext : ∀ v, u.Evolves v → u.Course v →
      (∃ ids, ids.Pairwise (· < ·) ∧ Staged (completed ++ ids) u.published v) →
      (u.Rests v ∨ ∃ record, u.Reports record v) → Followed base v := by
    rintro v hevolves hcourse ⟨ids, -, hstaged⟩ hlog
    refine ⟨hevolves.sound, ⟨_, hstaged.lifecycle⟩, ?_⟩
    rcases hlog with hrests | ⟨record, hreports⟩
    · exact hu.logged.rests hu.sound hrests (hcourse.linked_grows hlinked).2.symbols
    · exact hu.logged.reports hreports
  have hsafe := safe_perform r hfield u hu.sound
  have hstaged := ends_perform_staged (r := r) ⟨hlists, rfl⟩ hr
  have hreports := ends_perform_reports hr hlists.guards hu.logged.traces
  refine (hsafe.and ((course_perform r u).and (hstaged.and hreports))).mono ?_ ?_
  · rintro - v ⟨hevolves, hcourse, hv, hlog⟩
    exact hnext v hevolves hcourse hv hlog
  · rintro - v ⟨hevolves, hcourse, hv, hrests⟩
    exact hnext v hevolves hcourse hv (.inl hrests)

/-- What a step gives does not matter to what it keeps. -/
theorem Keeps.of_discard {P F : UnitBuilder → Prop} {m : Build α} (h : Keeps P F (discard m)) :
    Keeps P F m := by
  intro u hu
  have hdiscard := h u hu
  cases hm : m u with
  | ok x v =>
    have hrun : discard m u = .ok () v := by
      simp only [discard, Functor.discard, Functor.mapConst, Function.comp, EStateM.map, hm]
    exact Ends.of_ok hm (hdiscard.ok hrun)
  | error e v =>
    have hrun : discard m u = .error e v := by
      simp only [discard, Functor.discard, Functor.mapConst, Function.comp, EStateM.map, hm]
    exact Ends.of_error hm (hdiscard.error hrun)

/-- A routine is synthesized by requests, each of which keeps the log and the records together. -/
theorem keeps_synthesize_followed {flags : List Flag} {name : Text} {signature : Signature}
    {code : Nat → Build Unit} (hcode : ∀ id, Emits id (code id)) :
    Keeps (Followed base) (Followed base) (synthesize flags name signature code) := by
  have hroutine : Keeps (Followed base) (Followed base)
      (routine (Flags.ofList flags) name signature) :=
    Keeps.of_discard (keeps_perform_followed (r := .routine _ _ _) (by simp) (by simp))
  refine hroutine.bind fun id => ?_
  refine (keeps_perform_followed (r := .beginRoutine id) (by simp) (by simp)).bind fun _ => ?_
  refine Keeps.bind ?_ fun _ => keeps_perform_followed (r := .endRoutine id) (by simp) (by simp)
  exact hcode id _ _ (fun _ hv => hv) fun e =>
    keeps_perform_followed (r := .onRoutine id (.emission e)) (by simp) (by simp)

theorem keeps_accessor_followed (type : ValueType) :
    Keeps (Followed base) (Followed base) (accessor type) :=
  keeps_accessor (fun _ hv => hv) (fun _ _ _ hv => Ends.modify (hv.measure _))
    (fun _ _ _ _ hcode => keeps_synthesize_followed hcode) type

/-- **What the end of a unit logs** are the listings of its accessors. -/
theorem ends_finish_logged (hu : Followed base u) :
    Ends finish u (fun _ v => Logged base v) fun _ _ => True := by
  refine Ends.bind (ends_requirePhase (fun _ _ => trivial) fun _ => Ends.bind (Ends.get ?_))
  dsimp only
  split
  · have hassemble := ends_assemble_of_keeps (fun _ hv => hv) keeps_accessor_followed hu
    refine Ends.bind (ends_attempt (hassemble.mono ?_ fun _ _ _ => trivial))
    rintro bytes v ⟨hv, -⟩
    -- the bytes and two numbers are all that is left to note
    refine Ends.bind (Ends.modify (Ends.bind (Ends.get (Ends.bind (Ends.modify (Ends.modify ?_))))))
    exact ⟨hv.logged.traces, hv.logged.log_eq⟩
  · exact Ends.bind (Ends.get (Ends.bind trivial))

end Build

/-! ### Whole units -/

namespace UnitBuilder

variable {u : UnitBuilder} {base : Text} {requests : List UnitRequest} {completed : List Nat}
  {bytes : Bytes}

/-- The log and the records stay together through any requests but to end the unit. -/
theorem Followed.after (h : Followed base u) (hfinish : .finish ∉ requests)
    (hfields : ∀ f, .field f ∈ requests → f.type ≠ .void) : Followed base (u.after requests) := by
  induction requests generalizing u with
  | nil => exact h
  | cons r requests ih =>
    rw [List.mem_cons, not_or] at hfinish
    have hstep : Build.Keeps (Followed base) (Followed base) (Build.perform r) :=
      Build.keeps_perform_followed (Ne.symm hfinish.1) fun f hf =>
        hfields f (hf ▸ List.mem_cons_self)
    exact ih (hstep u h).leaves hfinish.2 fun f hf => hfields f (List.mem_cons_of_mem r hf)

/-- A unit that has given out its bytes has ended. -/
theorem phase_of_published (h : u.published = some bytes) : u.phase = .ended := by
  by_contra hphase
  rw [published, if_neg hphase] at h
  cases h

/-- A request to a unit that has ended logs nothing, and the bytes stay. -/
theorem Lifecycle.rests_perform (h : u.Lifecycle completed) (hbytes : u.published = some bytes)
    (htraces : u.context.tracesCode = true) (r : UnitRequest) :
    u.Rests (leaves (Build.perform r) u) ∧
      (leaves (Build.perform r) u).published = some bytes := by
  have hended := phase_of_published hbytes
  by_cases hr : r = .finish
  · -- the unit cannot be ended again
    subst hr
    have hrefused : Ends Build.finish u (fun _ v => v = u) fun _ v => v = u := by
      refine Ends.bind (Build.ends_requirePhase (fun _ _ => rfl) fun hphase => ?_)
      rw [hended] at hphase
      cases hphase
    have hsame : leaves (Build.perform .finish) u = u := hrefused.leaves
    rw [hsame]
    exact ⟨.refl u, hbytes⟩
  · refine ⟨?_, (h.published_perform hr).trans hbytes⟩
    have hreports := Build.ends_perform_reports hr h.guards htraces
    refine Ends.leaves (hreports.mono ?_ fun _ _ hv => hv)
    rintro - v (hrests | ⟨record, hreports⟩)
    · exact hrests
    · rw [hreports.started] at hended
      cases hended

/-- Nothing is logged after the end of a unit. -/
theorem Lifecycle.rests_after (h : u.Lifecycle completed) (hbytes : u.published = some bytes)
    (htraces : u.context.tracesCode = true) (requests : List UnitRequest) :
    u.Rests (u.after requests) ∧ (u.after requests).published = some bytes := by
  induction requests generalizing u completed with
  | nil => exact ⟨.refl u, hbytes⟩
  | cons r requests ih =>
    obtain ⟨hrests, hbytes'⟩ := h.rests_perform hbytes htraces r
    have htraces' := hrests.context_eq ▸ htraces
    obtain ⟨hrests', hlast⟩ := ih (h.perform r) hbytes' htraces'
    exact ⟨hrests.trans hrests', hlast⟩

/-- Each record of a logged unit has a listing, and these are what the unit has logged. -/
theorem Logged.exists_listings (h : Logged base u) :
    ∃ texts, u.image.routines.mapM (RoutineRecord.listing u.image.symbols.toArray) = .ok texts ∧
      u.context.logText = base ++ texts.flatten := by
  obtain ⟨texts, htexts, hlog⟩ := h.log_eq
  exact ⟨texts, mapM_eq_ok htexts, hlog⟩

/-- The listing of a unit that is decoded is made of its tables and the listings of its records. -/
theorem listing_eq {image : Image} {texts : List Text} (hdecode : Image.decode bytes = .ok image)
    (htexts : image.routines.mapM (RoutineRecord.listing image.symbols.toArray) = .ok texts) :
    Image.listing bytes = .ok (image.tables ++ texts.flatten) := by
  simp only [Image.listing, hdecode, bind, Except.bind, htexts]
  rfl

end UnitBuilder

namespace Build

open UnitBuilder

/-- **The log of a unit is the listing of its routines.** A unit with a log and the option to trace
code is ended after any requests, none of which was to end it, and other requests may follow. What
it has logged are the listings of its routines: the accessors are there, and nothing of routines
that were not ended. This is exactly what the listing of its bytes says after the tables, if every
text in the constants has a length that fits in four bytes. If not, the bytes are not those of the
unit. -/
theorem log_of_finish {context : Context} (htraces : context.tracesCode = true)
    {name source : Text} {strict : Bool} {before : List UnitRequest} (hfirst : .finish ∉ before)
    (hfields : ∀ f, .field f ∈ before → f.type ≠ .void) {w : UnitBuilder}
    (hfinish : finish ((UnitBuilder.new context name source strict).after before) = .ok () w)
    (later : List UnitRequest) :
    ∃ bytes routines,
      toBytes (w.after later) = .ok bytes (w.after later) ∧
      (w.after later).context.logText = context.logText ++ routines ∧
      (Image.decode bytes = .ok w.image ↔ ∀ c ∈ w.pool.entries, c.TextsFit) ∧
      ((∀ c ∈ w.pool.entries, c.TextsFit) →
        Image.listing bytes = .ok (w.image.tables ++ routines)) := by
  have hbefore := (followed_new htraces name source strict).after hfirst hfields
  obtain ⟨hevolves, hbytes, -⟩ := (ends_finish hbefore.sound).ok hfinish
  have hdecode := hevolves.sound.decode_image_iff hbytes
  -- what has been logged by the end is listed
  have hlogged : Logged context.logText w := (ends_finish_logged hbefore).ok hfinish
  obtain ⟨texts, htexts, hlog⟩ := hlogged.exists_listings
  -- and nothing is logged after it
  obtain ⟨completed, hlists⟩ := hbefore.lifecycle
  obtain ⟨-, ⟨ids, -, hstaged⟩, -⟩ := (ends_finish_staged ⟨hlists, rfl⟩).ok hfinish
  obtain ⟨hrests, hpublished⟩ :=
    hstaged.lifecycle.rests_after hstaged.published_eq hlogged.traces later
  refine ⟨w.bytes, texts.flatten, toBytes_eq_ok_iff.mpr ⟨rfl, hpublished⟩, ?_, hdecode, ?_⟩
  · rw [hrests.context_eq]
    exact hlog
  · intro hfit
    exact listing_eq (hdecode.mpr hfit) htexts

/-- Two routines under construction at once, of which the second one ends first. One of them reads a
field, and the other one a constant. -/
def tracedUnit : List UnitRequest :=
  [.begin, .field { flags := Flags.ofList [], name := "count", type := .int },
    .routine (Flags.ofList [.isStatic]) "first" { result := .int },
    .routine (Flags.ofList [.isStatic]) "second" { result := .string },
    .beginRoutine 0, .beginRoutine 1,
    .onRoutine 0 (.emission (.getStatic "unit" "count" .int)), .loadConstant 1 (.string "text"),
    .onRoutine 1 (.emission .returnValue), .endRoutine 1,
    .onRoutine 0 (.emission .returnValue), .endRoutine 0]

theorem log_of_finish_tracedUnit : ∃ w : UnitBuilder,
    finish ((UnitBuilder.new { options := { logCode := true }, log := some [] } "unit" "source"
      true).after tracedUnit) = .ok () w ∧
    w.entryPoints = [("second()T" : Text), ("first()I" : Text), ("$getString(I)T" : Text)] ∧
    ∃ bytes routines,
      toBytes (w.after [.symbol "late", .endRoutine 0]) =
        .ok bytes (w.after [.symbol "late", .endRoutine 0]) ∧
      Image.decode bytes = .ok w.image ∧
      Image.listing bytes = .ok (w.image.tables ++ routines) ∧
      (w.after [.symbol "late", .endRoutine 0]).context.logText = routines := by
  let context : Context := { options := { logCode := true }, log := some [] }
  let start := (UnitBuilder.new context "unit" "source" true).after tracedUnit
  have hrun : finish.run' start = some () := by decide +kernel
  obtain ⟨w, hw⟩ := exists_of_run' hrun
  have hleaves : leaves finish start = w := by rw [leaves, hw]
  have hentries :
      w.entryPoints = [("second()T" : Text), ("first()I" : Text), ("$getString(I)T" : Text)] := by
    rw [← hleaves]
    decide +kernel
  have htexts : ∀ c ∈ w.pool.entries, c.TextsFit := by
    rw [← hleaves]
    decide +kernel
  have hfields : ∀ f, .field f ∈ tracedUnit → f.type ≠ .void := by
    intro f hf
    obtain rfl : f = _ := by simpa [tracedUnit] using hf
    decide
  obtain ⟨bytes, routines, hbytes, hlog, hdecode, hlisting⟩ :=
    log_of_finish (show context.tracesCode = true from rfl) (by simp [tracedUnit]) hfields hw
      [.symbol "late", .endRoutine 0]
  exact ⟨w, hw, hentries, bytes, routines, hbytes, hdecode.mpr htexts, hlisting htexts, hlog⟩

/-- A unit that loads a text of 4294967296 zeros logs its routines, but its bytes have no
listing. -/
theorem listing_zeros : ∃ w : UnitBuilder,
    finish ((UnitBuilder.new { options := { logCode := true }, log := some [] } "u" "s"
      false).after (textUnit (.zeros 4294967296))) = .ok () w ∧
    toBytes w = .ok w.bytes w ∧ Image.listing w.bytes = .error (.format .trailingBytes) := by
  have hrun : finish.run' ((UnitBuilder.new { options := { logCode := true }, log := some [] } "u"
      "s" false).after (textUnit (.zeros 4294967296))) = some () := by decide +kernel
  have hsize : ((UnitBuilder.new { options := { logCode := true }, log := some [] } "u" "s"
      false).after (textUnit (.zeros 4294967296))).pool.size = 1 := by decide +kernel
  have honly := @constant_of_mem_textUnit (.zeros 4294967296)
  have hfields := @field_notMem_textUnit (.zeros 4294967296)
  -- the unit is not to be evaluated again
  generalize textUnit (.zeros 4294967296) = requests at *
  obtain ⟨w, hw⟩ := exists_of_run' hrun
  obtain ⟨hbytes, hdecode⟩ := decode_of_finish_zeros hfields honly hsize hw (by decide) (by decide)
  refine ⟨w, hw, hbytes, ?_⟩
  rw [Image.listing, hdecode]
  rfl

end Build

end Bytecode
