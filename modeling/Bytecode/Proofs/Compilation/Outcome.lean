import Mathlib
import Bytecode.Proofs.Compilation.Contents
import Bytecode.Proofs.Constant.Interning
import Bytecode.Proofs.Unit.Progress

/-!
# How compilations end

A compilation fails for no reason of its own. When the lowering asks for code that fits, and leaves
complete code behind, then either a unit comes out, or a limit of the unit format is exceeded. Most
limits become a diagnostic, which names the function to which the limit is attributed and the place
of the function that was in work. Two failures have no function to blame, and are passed on: there
are too many routines, or a constant is not encoded because one of its counts is too large.

## Main definitions

* `UnitBuilder.failures`: the failures of requests that are made one after the other
* `Lowering.Fills`: the lowering fills a routine with complete code

## Main results

* `Build.faults_perform`: requests for code fail only when they are misused, or because of a limit
* `Build.limited_functions`: a routine is made for every function, within the limits of the format
* `Build.ends_program_limited`: why a unit cannot be made
* `compile_outcome`: how a compilation ends for its client
-/

namespace Bytecode

/-! ### Requests for code -/

/-- A request for code in a routine. -/
def UnitRequest.IsCode : UnitRequest → Prop
  | .onRoutine .. | .loadConstants _ | .loadConstant .. => True
  | _ => False

theorem UnitRequest.IsCode.isWork {r : UnitRequest} (h : r.IsCode) : r.IsWork := by
  cases r with
  | onRoutine | loadConstants | loadConstant => trivial
  | _ => exact h.elim

/-- The failures of requests that are made one after the other, in order. -/
def UnitBuilder.failures : UnitBuilder → List UnitRequest → List Error
  | _, [] => []
  | u, r :: rest =>
    match Build.perform r u with
    | .ok _ v => v.failures rest
    | .error e v => e :: v.failures rest

/-- The request loads a constant that is not encoded, and the error says so. -/
def UnitRequest.Oversizes (r : UnitRequest) (e : Error) : Prop :=
  ∃ id c, r = .loadConstant id c ∧ ¬ c.Countable ∧ e = .inconsistent .constantSize

section LimitedOr

variable {α β : Type} {P : Error → Prop} {m : Build α} {f : α → Build β} {u : UnitBuilder}

/-- The step fails at most because of a limit of the unit format, or as `P` says. -/
def LimitedOr (P : Error → Prop) (m : Build α) (u : UnitBuilder) : Prop :=
  Ends m u (fun _ _ => True) fun e _ => e.IsLimit ∨ P e

theorem Limited.or (h : Limited m u) : LimitedOr P m u := h.mono (fun _ _ h => h) fun _ _ => .inl

theorem LimitedOr.bind (hm : LimitedOr P m u) (hf : ∀ x v, m u = .ok x v → LimitedOr P (f x) v) :
    LimitedOr P (m >>= f) u :=
  Ends.bind (((Ends.self m u).and hm).mono (fun x v hx => hf x v hx.1) fun _ _ he => he.2)

end LimitedOr

namespace Build

open UnitBuilder

variable {α : Type} {u : UnitBuilder} {r : UnitRequest} {requests : List UnitRequest}

theorem faults_onRoutine {step : Emit α} (hstep : Emit.Faults step) (id : Nat) (u : UnitBuilder) :
    Ends (onRoutine id step) u (fun _ _ => True) fun e _ => e.IsMisuse ∨ e.IsLimit := by
  cases hr : u.routines[id]? with
  | none =>
    have hnone : getRoutine id u = .error (.unit u.name (.notOpen [])) u := by
      simp only [getRoutine, bind, EStateM.bind, get, getThe, MonadStateOf.get, EStateM.get, hr]
      rfl
    exact Ends.bind (Ends.of_error hnone (.inl (.inr rfl)))
  | some r => exact ends_onRoutine_of_some hr (hstep _)

/-- **Requests for code fail only when they are misused, because of a limit, or because a constant
is not encoded.** -/
theorem faults_perform (hr : r.IsCode) (u : UnitBuilder) :
    Ends (perform r) u (fun _ _ => True) fun e _ => e.IsMisuse ∨ e.IsLimit ∨ r.Oversizes e := by
  -- what is asked of a routine does not fail because of a constant
  have hrest : ∀ {β : Type} {m : Build β} {v : UnitBuilder} {r : UnitRequest},
      Ends m v (fun _ _ => True) (fun e _ => e.IsMisuse ∨ e.IsLimit) →
      Ends m v (fun _ _ => True) fun e _ => e.IsMisuse ∨ e.IsLimit ∨ r.Oversizes e :=
    fun hm => hm.mono (fun _ _ h => h) fun _ _ he => he.imp_right .inl
  cases r with
  | onRoutine id request => exact hrest (faults_onRoutine (Emit.faults_request request) id u)
  | loadConstants id =>
    exact hrest (Ends.bind (Ends.get (faults_onRoutine (Emit.faults_emission _) id u)))
  | loadConstant id c =>
    cases hintern : u.pool.intern c with
    | error e =>
      have hrun : intern c u = .error e u := by simp only [intern, hintern]
      refine Ends.bind (Ends.of_error hrun (.inr ?_))
      rcases Pool.error_of_intern hintern with ⟨hcounts, rfl⟩ | ⟨-, rfl⟩
      · exact .inr ⟨id, c, rfl, hcounts, rfl⟩
      · exact .inl (Error.isLimit _ _)
    | ok found =>
      have hrun : intern c u = .ok found.1 { u with pool := found.2 } := by
        simp only [intern, hintern]
      refine Ends.bind (Ends.of_ok hrun ?_)
      refine Ends.bind (Ends.of_ok (request_of_isPoolable c.isPoolable_type) (hrest ?_))
      refine (faults_onRoutine (Emit.faults_emission _) id _).next ?_
      -- every constant has an accessor, so what is left is to invoke it
      obtain ⟨name, hname, hsignature⟩ := Pool.exists_accessor c.isPoolable_type
      rw [hname, hsignature]
      intro _ v _
      exact faults_onRoutine (Emit.faults_emission _) id v
  | _ => exact hr.elim

theorem mem_failures {e : Error} (hrequests : ∀ r ∈ requests, r.IsCode)
    (he : e ∈ u.failures requests) :
    e.IsMisuse ∨ e.IsLimit ∨ ∃ r ∈ requests, r.Oversizes e := by
  induction requests generalizing u with
  | nil => cases he
  | cons r rest ih =>
    obtain ⟨hr, hrest⟩ := List.forall_mem_cons.mp hrequests
    -- what is found among the other requests is found among all of them
    have hlater : (e.IsMisuse ∨ e.IsLimit ∨ ∃ r ∈ rest, r.Oversizes e) →
        e.IsMisuse ∨ e.IsLimit ∨ ∃ r' ∈ r :: rest, r'.Oversizes e :=
      Or.imp_right (Or.imp_right fun ⟨r', hr', h⟩ => ⟨r', List.mem_cons_of_mem r hr', h⟩)
    rw [failures] at he
    split at he
    · exact hlater (ih hrest he)
    · next e' v hrun =>
      rcases List.mem_cons.mp he with rfl | he
      · refine ((faults_perform hr u).error hrun).imp_right (Or.imp_right fun h => ?_)
        exact ⟨r, List.mem_cons_self, h⟩
      · exact hlater (ih hrest he)

/-- Requests for code leave the phases of routines alone. -/
theorem ends_perform_phase (hr : r.IsCode) (id : Nat) :
    Ends (perform r) u (fun _ v => v.routinePhase? id = u.routinePhase? id)
      fun _ v => v.routinePhase? id = u.routinePhase? id := by
  -- all that reaches a routine is emitted into it, and that does not begin or end it
  let P : UnitBuilder → Prop := fun v => v.routinePhase? id = u.routinePhase? id
  have hemit : ∀ {β : Type} (k : Nat) (step : Emit β), Keeps P P (onRoutine k step) := by
    intro β k step v hv
    have hphase : ∀ w, Works k v w → P w := fun w hw => (hw.routinePhase?_eq id).trans hv
    exact (ends_onRoutine_works step).mono (fun _ => hphase) fun _ => hphase
  cases r with
  | onRoutine k request => exact hemit k _ u rfl
  | loadConstants k => exact hemit k _ u rfl
  | loadConstant k c =>
    exact keeps_loadConstant_of_emission (fun _ hv => hv) (fun _ _ hv => hv) (fun e => hemit k _) c
      u rfl
  | _ => exact hr.elim

theorem routinePhase?_after (hrequests : ∀ r ∈ requests, r.IsCode) (id : Nat) :
    (u.after requests).routinePhase? id = u.routinePhase? id := by
  induction requests generalizing u with
  | nil => rfl
  | cons r rest ih =>
    obtain ⟨hr, hrest⟩ := List.forall_mem_cons.mp hrequests
    have hstep : (leaves (perform r) u).routinePhase? id = u.routinePhase? id :=
      (ends_perform_phase hr id).leaves
    exact (ih hrest).trans hstep

end Build

/-! ### Filling routines -/

namespace Lowering

variable {lower : Lowering} {calls : Handover → List UnitRequest} {h : Handover}

/-- **The lowering fills the routine that is handed over.** All it does is to ask for code, and no
request fails because it does not fit. One that fails because of a limit is given up, or the
lowering fails with it. What the lowering leaves is complete code: control does not leave it at the
end, and every label is bound to which an instruction jumps. -/
structure Fills (lower : Lowering) (calls : Handover → List UnitRequest) (h : Handover) : Prop where
  leaves_eq : leaves (lower h.function h.id) h.unit = h.unit.after (calls h)
  isCode : ∀ r ∈ calls h, r.IsCode
  fits : ∀ e ∈ h.unit.failures (calls h), ¬ e.IsMisuse
  fails : ∀ e v, lower h.function h.id h.unit = .error e v → e ∈ h.unit.failures (calls h)
  complete : ∀ v, lower h.function h.id h.unit = .ok () v → ∃ r, v.routines[h.id]? = some r ∧
    r.assembler.reachable = false ∧ r.assembler.unbound? = none

theorem Fills.makes (hfills : lower.Fills calls h) : lower.Makes calls h :=
  ⟨hfills.leaves_eq, fun r hr => (hfills.isCode r hr).isWork⟩

theorem Fills.limited {P : Error → Prop} (hfills : lower.Fills calls h)
    (hP : ∀ r ∈ calls h, ∀ e, r.Oversizes e → P e) :
    LimitedOr P (lower h.function h.id) h.unit := by
  cases hrun : lower h.function h.id h.unit with
  | ok x v => exact Ends.of_ok hrun trivial
  | error e v =>
    have he := hfills.fails e v hrun
    have hcause := (Build.mem_failures hfills.isCode he).resolve_left (hfills.fits e he)
    exact Ends.of_error hrun (hcause.imp_right fun ⟨r, hr, hsize⟩ => hP r hr e hsize)

/-- The functions that are reached are the first ones. -/
theorem isPrefix_reached (lower : Lowering) (fs : List Function) (u : UnitBuilder) :
    lower.reached fs u <+: fs := by
  induction fs generalizing u with
  | nil => exact List.nil_prefix
  | cons f rest ih =>
    rw [reached]
    refine (List.prefix_cons_inj f).mpr ?_
    split
    · exact List.nil_prefix
    · exact ih _

theorem isPrefix_programReached (lower : Lowering) (fs : List Function) (u : UnitBuilder) :
    lower.programReached fs u <+: fs := by
  unfold programReached
  split
  · exact List.nil_prefix
  · exact lower.isPrefix_reached fs _

end Lowering

namespace UnitBuilder

variable {u : UnitBuilder} {fs : List Function}

theorem Made.settled (h : u.Made fs) : u.Settled := by
  refine ⟨h.phase_eq, ⟨_, h.lifecycle⟩, fun id hid => ?_⟩
  rw [← h.lifecycle.mem_completed, List.mem_range, ← h.size_eq]
  exact hid

theorem Made.length_members (h : u.Made fs) : u.members.length = fs.length := by
  rw [h.members_eq, List.length_map, length_titles, h.size_eq]

/-- The routines of functions return objects. -/
theorem Made.objectResult (h : u.Made fs) : ∀ member ∈ u.members, objectResult <:+ member.2 := by
  intro member hmember
  rw [h.members_eq] at hmember
  obtain ⟨title, htitle, rfl⟩ := List.mem_map.mp hmember
  obtain ⟨f, a, k, -, rfl⟩ := exists_rel_of_mem h.titled title htitle
  exact objectResult_isSuffix a f.params.length

end UnitBuilder

/-! ### Making a unit -/

namespace Build

open UnitBuilder

variable {lower : Lowering} {calls : Handover → List UnitRequest} {f : Function}
  {fs done : List Function} {u : UnitBuilder} {P : Error → Prop}

/-- The routine of a function is made, within the limits of the format. -/
theorem limited_function (hu : u.Made done) (hf : ∃ a, f.attributes = .ok a ∧ a.violated? = none)
    (hcalls : ∀ id v, openFunction f u = .ok id v → lower.Fills calls ⟨f, id, v⟩)
    (hP : ∀ id v, openFunction f u = .ok id v → ∀ r ∈ calls ⟨f, id, v⟩, ∀ e,
      r.Oversizes e → P e) :
    LimitedOr P (function lower f) u := by
  obtain ⟨a, ha, hrules⟩ := hf
  refine (limited_openFunction hu.phase_eq ha hrules).or.bind fun id v hopen => ?_
  have hfills := hcalls id v hopen
  obtain ⟨-, hmoves, -, hstarted, -⟩ := ends_openFunction.ok hopen
  refine (hfills.limited (hP id v hopen)).bind fun _ w hlower => ?_
  have hw : w = v.after (calls ⟨f, id, v⟩) := by rw [← hfills.leaves_eq, leaves, hlower]
  -- the routine is still the one that was opened, with its code complete
  obtain ⟨r, hr, hreach, hbound⟩ := hfills.complete w hlower
  have hphase : r.phase = .started := by
    have hkept := routinePhase?_after (u := v) hfills.isCode id
    rw [← hw, hstarted, routinePhase?_of_some hr] at hkept
    exact Option.some.inj hkept
  have hguard : w.Guards id := by
    rw [hw]
    exact ((hu.lifecycle.moves hmoves).after _).guards id
  exact (limited_endRoutine hguard hr hphase (Assembler.succeeds_finish hreach hbound)).or

/-- **A routine is made for every function**, within the limits of the format. -/
theorem limited_functions (hu : u.Made done)
    (hfs : ∀ f ∈ fs, ∃ a, f.attributes = .ok a ∧ a.violated? = none)
    (hcalls : ∀ h ∈ lower.handovers fs u, lower.Fills calls h)
    (hP : ∀ h ∈ lower.handovers fs u, ∀ r ∈ calls h, ∀ e, r.Oversizes e → P e) :
    LimitedOr P (fs.forM (function lower)) u := by
  -- what a function finds is a unit with the routines of those before it, all of them ended
  induction fs generalizing u done with
  | nil => exact (Limited.pure _).or
  | cons f rest ih =>
    obtain ⟨hf, hrest⟩ := List.forall_mem_cons.mp hfs
    have hfirst : ∀ id v, openFunction f u = .ok id v → lower.Fills calls ⟨f, id, v⟩ :=
      fun id v hopen => hcalls _ (mem_handovers hopen)
    have hsizes : ∀ id v, openFunction f u = .ok id v → ∀ r ∈ calls ⟨f, id, v⟩, ∀ e,
        r.Oversizes e → P e := fun id v hopen => hP _ (mem_handovers hopen)
    refine (limited_function hu hf hfirst hsizes).bind fun _ v hrun => ?_
    obtain ⟨id, w, -, -, hhandovers⟩ := handovers_of_function hrun
    rw [hhandovers] at hcalls hP
    have hmade := ends_function_made hu fun id v hopen => (hfirst id v hopen).makes
    exact ih (hmade.ok hrun) hrest (fun h hh => hcalls h (List.mem_cons_of_mem _ hh))
      fun h hh => hP h (List.mem_cons_of_mem _ hh)

/-- **Why a unit cannot be made**: a limit of the format is exceeded, a constant is loaded that is
not encoded, the functions and the accessors that were asked for are too many to encode, or a text
was loaded that keeps the unit from being accepted. -/
theorem ends_program_limited {context : Context} {name source : Text} {strict : Bool}
    (hfs : ∀ f ∈ fs, ∃ a, f.attributes = .ok a ∧ a.violated? = none)
    (hcalls : ∀ h ∈ lower.programHandovers fs (.new context name source strict),
      lower.Fills calls h) :
    let start := UnitBuilder.new context name source strict
    let hs := lower.programHandovers fs start
    let asked := hs.flatMap fun h => h.unit.asked (calls h)
    Ends (Build.program lower fs) start (fun _ _ => True) fun e _ => e.IsLimit ∨
      (∃ c, Lowering.Loads calls hs c ∧ ¬ c.Countable ∧ e = .inconsistent .constantSize) ∨
      65535 < fs.length + ((Pool.types.filter asked.contains).flatMap Pool.accessorMembers).length ∧
        e = .inconsistent (.tooMany .routines) ∨
      (∃ c, Lowering.Loads calls hs c ∧ ¬ c.TextsFit) ∧ e.kind = .verification := by
  intro start hs asked
  -- the unit is begun, its functions are made, and it is ended; each stage has limits of its own
  have hmakes := fun h hh => (hcalls h hh).makes
  have hsizes : ∀ h ∈ hs, ∀ r ∈ calls h, ∀ e, r.Oversizes e →
      ∃ c, Lowering.Loads calls hs c ∧ ¬ c.Countable ∧ e = .inconsistent .constantSize := by
    rintro h hh r hr e ⟨id, c, rfl, hcounts, he⟩
    exact ⟨c, ⟨h, hh, id, hr⟩, hcounts, he⟩
  cases hbegin : Build.begin start with
  | error e u =>
    exact Ends.bind (Ends.of_error hbegin (.inl ((limited_begin rfl).error hbegin)))
  | ok x u =>
    obtain rfl := ends_begin.ok hbegin
    refine Ends.bind (Ends.of_ok hbegin ?_)
    have hhandovers : hs = lower.handovers fs { start with phase := .started } := by
      simp only [hs, Lowering.programHandovers, hbegin]
    have hlimited := limited_functions (made_begun context name source strict) hfs
      (hhandovers ▸ hcalls) (fun h hh => hsizes h (hhandovers ▸ hh))
    cases hfunctions : fs.forM (function lower) { start with phase := .started } with
    | error e v =>
      have hcause := hlimited.error hfunctions
      exact Ends.bind (Ends.of_error hfunctions (hcause.imp_right .inl))
    | ok x v =>
      refine Ends.bind (Ends.of_ok hfunctions ?_)
      obtain ⟨hmade, hevolves, hloads, requests, hv, -, hasked⟩ :=
        functions_pooled hmakes hbegin hfunctions
      obtain ⟨hpool, haccessors⟩ := accessors_after context name source strict requests
      rw [← hv] at hpool haccessors
      rw [hasked] at haccessors
      -- only the last stage counts routines: one for each function, and the accessors
      have hcount : v.allMembers.length = fs.length +
          ((Pool.types.filter asked.contains).flatMap Pool.accessorMembers).length := by
        rw [allMembers, List.length_append, hmade.length_members, haccessors]
      have hfinish := ends_finish_limited hmade.settled hevolves.sound hpool
        (hmade.fields_le.trans (by decide)) hmade.objectResult
      rw [hcount] at hfinish
      refine Ends.next (hfinish.mono (fun _ _ h => h) ?_) fun _ w hw =>
        Ends.bind (Ends.of_ok (toBytes_of_ended hw) trivial)
      rintro e - (hlimit | hmany | ⟨⟨c, hc, hlong⟩, hkind⟩)
      · exact .inl hlimit
      · exact .inr (.inr (.inl hmany))
      · exact .inr (.inr (.inr ⟨⟨c, hloads c hc, hlong⟩, hkind⟩))

end Build

/-! ### What the client gets -/

/-- What verification reports is not turned into a diagnostic. -/
theorem Outcome.ofError_of_verification {unitName : Text} {current : Function} {e : Error}
    (h : e.kind = .verification) : Outcome.ofError unitName current e = .failed e := by
  cases e with
  | unsupported function limit => cases h
  | _ => rfl

/-- **How a compilation ends for its client.** A program that was not analysed before is compiled by
a lowering that fills every routine it is given. Then one of these things happens.

* The unit is made. It takes the place of the unit before it, and the diagnostics stay as they are.
* A limit is exceeded. The diagnostics get one more, in the file of the unit, for the function to
  which the limit is attributed, with the place of the last function that was reached, or of the
  program when none was. The unit before it stays.
* Functions and accessors are too many to encode. This failure is passed on, and everything stays.
* The lowering loads a constant with a count that does not fit in four bytes. This failure is passed
  on, too, and everything stays.
* The lowering loads a text whose length does not fit in four bytes, and the unit is not accepted.
  This failure is passed on as well.

Nothing else happens, whether units are verified or not. -/
theorem compile_outcome {lower : Lowering} {calls : Handover → List UnitRequest} {unitName : Text}
    {root : Function} {context : Context} (hroot : root.facts = none)
    (hcalls : ∀ h ∈ lower.handed unitName root context, lower.Fills calls h)
    (results : Results) :
    let delivered := (compile lower unitName root context).outcome.deliver results
    let asked := (lower.handed unitName root context).flatMap fun h => h.unit.asked (calls h)
    let accessors := (Pool.types.filter asked.contains).flatMap Pool.accessorMembers
    ∃ program context' a, root.analyse context = .ok program context' ∧
      List.Forall₂ (Function.Annotates context.options) root.preorder program.preorder ∧
      program.attributes = .ok a ∧
      let start := startUnit unitName program a.isStrict context'
      let run := Emitting.program lower program ⟨start, program⟩
      let reached := lower.programReached program.preorder start
      let last := reached.getLast?.getD program
      reached <+: program.preorder ∧
        ((∃ bytes entryPoints s, run = .ok (bytes, entryPoints) s ∧
            delivered = .ok true { results with bytes, entryPoints }) ∨
          (∃ function limit s, run = .error (.unsupported function limit) s ∧
            delivered = .ok false { results with
              diagnostics := results.diagnostics ++ [{
                message := limit.text
                function
                file := unitName
                line := last.line
                col := last.col }] }) ∨
          (65535 < root.preorder.length + accessors.length ∧
            (∃ s, run = .error (.inconsistent (.tooMany .routines)) s) ∧
            delivered = .error (.inconsistent (.tooMany .routines)) results) ∨
          ((∃ c, Lowering.Loads calls (lower.handed unitName root context) c ∧ ¬ c.Countable) ∧
            (∃ s, run = .error (.inconsistent .constantSize) s) ∧
            delivered = .error (.inconsistent .constantSize) results) ∨
          (∃ c, Lowering.Loads calls (lower.handed unitName root context) c ∧ ¬ c.TextsFit) ∧
            ∃ e s, e.kind = .verification ∧ run = .error e s ∧ delivered = .error e results) := by
  intro delivered asked accessors
  obtain ⟨program, context', hanalyse, hpreorder⟩ := root.exists_analyse_preorder hroot context
  obtain ⟨a, ha, -⟩ := (Function.Annotates.of_preorder hpreorder).attributes
  refine ⟨program, context', a, hanalyse, hpreorder, ha, ?_⟩
  intro start run reached last
  refine ⟨lower.isPrefix_programReached _ _, ?_⟩
  have hattributes : ∀ f ∈ program.preorder, ∃ a, f.attributes = .ok a ∧ a.violated? = none := by
    intro f hf
    obtain ⟨g, hg⟩ := exists_rel_of_mem hpreorder f hf
    exact hg.attributes
  have hhanded : lower.handed unitName root context =
      lower.programHandovers program.preorder start := handed_eq hanalyse ha
  have hlimited := Build.ends_program_limited hattributes (hhanded ▸ hcalls)
  -- the outcome is that of the unit, with the function that was in work when it failed
  have hends := (ends_compile hanalyse ha).and
    (Emitting.ends_program (s := ⟨start, program⟩) hlimited)
  cases hrun : Emitting.program lower program ⟨start, program⟩ with
  | ok x s =>
    obtain ⟨houtcome, -⟩ := hends.ok hrun
    refine .inl ⟨x.1, x.2, s, hrun, ?_⟩
    simp only [delivered, houtcome]
    rfl
  | error e s =>
    obtain ⟨houtcome, hcause, hcurrent⟩ := hends.error hrun
    rcases hcause with hlimit | ⟨c, hloads, hcounts, rfl⟩ | ⟨hmany, rfl⟩ |
      ⟨⟨c, hloads, hlong⟩, hkind⟩
    · obtain ⟨function, limit, rfl⟩ := hlimit.exists
      refine .inr (.inl ⟨function, limit, s, hrun, ?_⟩)
      simp only [delivered, houtcome, hcurrent]
      rfl
    · refine .inr (.inr (.inr (.inl ⟨⟨c, hhanded ▸ hloads, hcounts⟩, ⟨s, hrun⟩, ?_⟩)))
      simp only [delivered, houtcome]
      rfl
    · refine .inr (.inr (.inl ⟨?_, ⟨s, hrun⟩, ?_⟩))
      · rw [hpreorder.length_eq]
        simp only [accessors, asked, hhanded]
        exact hmany
      · simp only [delivered, houtcome]
        rfl
    · refine .inr (.inr (.inr (.inr ⟨⟨c, hhanded ▸ hloads, hlong⟩, e, s, hkind, hrun, ?_⟩)))
      simp only [delivered, houtcome, Outcome.ofError_of_verification hkind]
      rfl

/-- The code of a routine is complete. -/
def UnitBuilder.isComplete (u : UnitBuilder) (id : Nat) : Bool :=
  u.routines[id]?.any fun r => !r.assembler.reachable && r.assembler.unbound?.isNone

/-- Requests that are all granted, and lead to complete code, fill a routine. -/
theorem Lowering.fills_ofCalls {calls : Handover → List UnitRequest} {h : Handover}
    (hcode : ∀ r ∈ calls h, r.IsCode) (hgranted : (h.unit.failures (calls h)).isEmpty = true)
    (hcomplete : (h.unit.after (calls h)).isComplete h.id = true) :
    (Lowering.ofCalls calls).Fills calls h where
  leaves_eq := rfl
  isCode := hcode
  fits := by
    rw [List.isEmpty_iff.mp hgranted]
    rintro e ⟨⟩
  fails := by rintro e v ⟨⟩
  complete := by
    rintro v ⟨⟩
    obtain ⟨r, hr, hlast⟩ := (Option.any_eq_true _ _).mp hcomplete
    simp only [Bool.and_eq_true, Bool.not_eq_true', Option.isNone_iff_eq_none] at hlast
    exact ⟨r, hr, hlast⟩

/-- Every function goes round in a loop until it returns an empty map. -/
def loopCalls (h : Handover) : List UnitRequest :=
  [.onRoutine h.id .newLabel, .onRoutine h.id (.bind 0),
    .onRoutine h.id (.emission (.pushBoolean true)), .onRoutine h.id (.emission (.ifTrue 0)),
    .loadConstant h.id (.map []), .onRoutine h.id (.emission .returnValue)]

theorem namesakeProgram_outcome :
    let lower := Lowering.ofCalls loopCalls
    let results : Results := { bytes := [0], diagnostics := [{ message := "earlier" }] }
    (∀ h ∈ lower.handed "unit" namesakeProgram {}, lower.Fills loopCalls h) ∧
      ∃ bytes entryPoints, (compile lower "unit" namesakeProgram {}).outcome.deliver results =
        .ok true { results with bytes, entryPoints } := by
  intro lower results
  have hgranted : (lower.handed "unit" namesakeProgram {}).all
      (fun h => (h.unit.failures (loopCalls h)).isEmpty) = true := by decide +kernel
  have hcomplete : (lower.handed "unit" namesakeProgram {}).all
      (fun h => (h.unit.after (loopCalls h)).isComplete h.id) = true := by decide +kernel
  rw [List.all_eq_true] at hgranted hcomplete
  have hcode : ∀ h, ∀ r ∈ loopCalls h, r.IsCode := by
    intro h r hr
    simp only [loopCalls, List.mem_cons, List.not_mem_nil, or_false] at hr
    rcases hr with rfl | rfl | rfl | rfl | rfl | rfl
    all_goals trivial
  have hfills : ∀ h ∈ lower.handed "unit" namesakeProgram {}, lower.Fills loopCalls h := fun h hh =>
    Lowering.fills_ofCalls (hcode h) (hgranted h hh) (hcomplete h hh)
  refine ⟨hfills, ?_⟩
  obtain ⟨program, context', a, -, -, -, -, hends⟩ :=
    compile_outcome rfl hfills results
  -- the client is told that there is a new unit
  have htrue : (compile lower "unit" namesakeProgram {}).outcome.deliver.run' results =
      some true := by decide +kernel
  obtain ⟨kept, hkept⟩ := exists_of_run' htrue
  rcases hends with ⟨bytes, entryPoints, s, -, hunit⟩ | ⟨function, limit, s, -, hlimit⟩ |
    ⟨-, -, hmany⟩ | ⟨-, -, hsize⟩ | ⟨-, e, s, -, -, hverify⟩
  · exact ⟨bytes, entryPoints, hunit⟩
  · cases hkept.symm.trans hlimit
  · cases hkept.symm.trans hmany
  · cases hkept.symm.trans hsize
  · cases hkept.symm.trans hverify

/-! ### A list that is too long -/

/-- The lowering that loads a constant into every routine. -/
def Lowering.loading (c : Constant) : Lowering := fun _ id => Build.loadConstant id c

/-- The error that a compilation passed on. -/
def Outcome.failure? : Outcome → Option Error
  | .failed e => some e
  | _ => none

theorem Outcome.eq_failed {outcome : Outcome} {e : Error} (h : outcome.failure? = some e) :
    outcome = .failed e := by
  cases outcome with
  | failed => exact congrArg Outcome.failed (Option.some.inj h)
  | compiled | rejected => cases h

theorem Build.loadConstant_of_not_countable {c : Constant} (hc : ¬ c.Countable) (id : Nat)
    (u : UnitBuilder) : loadConstant id c u = .error (.inconsistent .constantSize) u := by
  have hrefused : ∃ e, u.pool.intern c = .error e := by
    rw [exists_error_iff]
    rintro ⟨⟨i, q⟩, h⟩
    exact hc (Pool.countable_of_intern h)
  obtain ⟨e, he⟩ := hrefused
  obtain rfl : e = .inconsistent .constantSize :=
    (Pool.error_of_intern he).elim And.right fun h => absurd h.1 hc
  have hrun : intern c u = .error (.inconsistent .constantSize) u := by simp only [intern, he]
  simp only [loadConstant, bind, EStateM.bind, hrun]

theorem Lowering.loading_eq {c : Constant} (hc : ¬ c.Countable) :
    Lowering.loading c = fun _ _ u => .error (.inconsistent .constantSize) u := by
  funext f id u
  exact Build.loadConstant_of_not_countable hc id u

/-- A constant that is not encoded is no misuse of a routine. -/
theorem Lowering.fills_loading {c : Constant} (hc : ¬ c.Countable) (h : Handover) :
    (Lowering.loading c).Fills (fun h => [.loadConstant h.id c]) h := by
  have hperform : Build.perform (.loadConstant h.id c) h.unit =
      .error (.inconsistent .constantSize) h.unit :=
    Build.loadConstant_of_not_countable hc h.id h.unit
  have hfailures : h.unit.failures [.loadConstant h.id c] = [.inconsistent .constantSize] := by
    simp only [UnitBuilder.failures, hperform]
  have hafter : h.unit.after [.loadConstant h.id c] = h.unit := by
    show leaves (Build.perform (.loadConstant h.id c)) h.unit = h.unit
    rw [leaves, hperform]
  rw [Lowering.loading_eq hc]
  constructor
  case leaves_eq => exact hafter.symm
  case isCode =>
    intro r hr
    rw [List.mem_singleton.mp hr]
    trivial
  case fits =>
    intro e he
    rw [hfailures] at he
    rw [List.mem_singleton.mp he]
    rintro (hkind | hkind) <;> cases hkind
  case fails =>
    rintro e v ⟨⟩
    rw [hfailures]
    exact List.mem_cons_self
  case complete => rintro v ⟨⟩

/-- A program without functions fails when its lowering loads a constant that is not encoded. -/
theorem compile_loading {c : Constant} (hc : ¬ c.Countable) (results : Results) :
    (compile (.loading c) "unit" { form := .program } {}).outcome.deliver results =
      .error (.inconsistent .constantSize) results := by
  have hfailure : (compile (fun _ _ u => .error (.inconsistent .constantSize) u) "unit"
      { form := .program } {}).outcome.failure? = some (.inconsistent .constantSize) := by
    decide +kernel
  rw [Lowering.loading_eq hc, Outcome.eq_failed hfailure]
  rfl

theorem length_accessors_le (asked : List ValueType) :
    ((Pool.types.filter asked.contains).flatMap Pool.accessorMembers).length ≤ 7 :=
  (List.filter_sublist.flatMap Pool.accessorMembers).length_le

/-- A list of numbers. -/
def Constant.repeated (n : Nat) : Constant := .ints (List.replicate n 0)

theorem Constant.not_countable_repeated {n : Nat} (hn : 4294967296 ≤ n) :
    ¬ (Constant.repeated n).Countable := by
  intro hcounts
  have hlength := hcounts (List.replicate n (0 : Int32)).length List.mem_cons_self
  rw [List.length_replicate] at hlength
  omega

/-- A list of 4294967296 numbers is passed on as a failure, in a program without functions. -/
theorem compile_longList :
    let lower := Lowering.loading (.repeated 4294967296)
    let calls : Handover → List UnitRequest := fun h =>
      [.loadConstant h.id (.repeated 4294967296)]
    let program : Function := { form := .program }
    let asked := (lower.handed "unit" program {}).flatMap fun h => h.unit.asked (calls h)
    let accessors := (Pool.types.filter asked.contains).flatMap Pool.accessorMembers
    (∀ h ∈ lower.handed "unit" program {}, lower.Fills calls h) ∧
      program.preorder.length + accessors.length ≤ 65535 ∧
      ∀ results, (compile lower "unit" program {}).outcome.deliver results =
        .error (.inconsistent .constantSize) results := by
  have hlist := Constant.not_countable_repeated (Nat.le_refl 4294967296)
  -- the list is not to be evaluated
  generalize Constant.repeated 4294967296 = c at *
  intro lower calls program asked accessors
  refine ⟨fun h _ => Lowering.fills_loading hlist h, ?_, compile_loading hlist⟩
  calc program.preorder.length + accessors.length
      ≤ 1 + 7 := Nat.add_le_add (by decide) (length_accessors_le asked)
    _ ≤ 65535 := by decide

end Bytecode
