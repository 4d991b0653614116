import Mathlib
import Bytecode.Compilation
import Bytecode.Proofs.Unit.Constants
import Bytecode.Proofs.Unit.Naming

/-!
# Routines for functions

Compilation opens a routine for each function, hands it over to the lowering and ends it. What the
lowering does with a unit is known only by the requests that it makes there, and these may be about
any routine. Since all other routines have ended by then, they come to nothing but code in the
routine that was handed over, or to its early end, with which the compilation fails. So the routines
of a unit are those of the functions, in order.

## Main definitions

* `Handover`: a function that is handed over to the lowering
* `Lowering.handovers`, `Lowering.reached`: the course of a compilation
* `Lowering.Makes`: what the lowering does is to make requests
* `UnitBuilder.Made`: the routines of some functions have been made

## Main results

* `Build.ends_functions_made`: the routines of a unit are those of the functions, in order
* `Build.functions_eq_after`: what all lowering did is to make requests
-/

namespace Bytecode

/-- A function that is handed over to the lowering, with its routine in the unit as it stands. -/
structure Handover where
  function : Function
  id : Nat
  unit : UnitBuilder

/-- Makes the routine of a function. -/
def Build.function (lower : Lowering) (f : Function) : Build Unit := do
  let id ← openFunction f
  lower f id
  endRoutine id

/-- Makes a unit with the routines of the given functions. -/
def Build.program (lower : Lowering) (fs : List Function) : Build (Bytes × List Text) := do
  Build.begin
  fs.forM (function lower)
  finish
  return (← toBytes, (← get).entryPoints)

namespace Lowering

/-- The functions that are handed over when routines are to be made for some functions. -/
def handovers (lower : Lowering) : List Function → UnitBuilder → List Handover
  | [], _ => []
  | f :: rest, u =>
    match Build.openFunction f u with
    | .error _ _ => []
    | .ok id v =>
      ⟨f, id, v⟩ ::
        match Build.function lower f u with
        | .error _ _ => []
        | .ok _ w => lower.handovers rest w

/-- The functions that are reached when routines are to be made for some functions. -/
def reached (lower : Lowering) : List Function → UnitBuilder → List Function
  | [], _ => []
  | f :: rest, u =>
    f ::
      match Build.function lower f u with
      | .error _ _ => []
      | .ok _ v => lower.reached rest v

/-- The functions that are handed over when a unit is to be made. -/
def programHandovers (lower : Lowering) (fs : List Function) (u : UnitBuilder) : List Handover :=
  match Build.begin u with
  | .error _ _ => []
  | .ok _ v => lower.handovers fs v

/-- The functions that are reached when a unit is to be made. -/
def programReached (lower : Lowering) (fs : List Function) (u : UnitBuilder) : List Function :=
  match Build.begin u with
  | .error _ _ => []
  | .ok _ v => lower.reached fs v

end Lowering

/-! ### The unit and the function in work -/

namespace Emitting

variable {α β : Type} {lower : Lowering} {f : Function} {fs : List Function} {s : Emitting}

theorem ends_onUnit {step : Build α} {post : α → Emitting → Prop} {fail : Error → Emitting → Prop}
    (h : Ends step s.unit (fun x unit => post x { s with unit })
      fun e unit => fail e { s with unit }) : Ends (onUnit step) s post fail := by
  cases hstep : step s.unit with
  | ok x unit => exact Ends.of_ok (by simp only [onUnit, hstep]) (h.ok hstep)
  | error e unit => exact Ends.of_error (by simp only [onUnit, hstep]) (h.error hstep)

theorem onUnit_bind (m : Build α) (next : α → Build β) :
    onUnit (m >>= next) = onUnit m >>= fun x => onUnit (next x) := by
  funext s
  cases hm : m s.unit with
  | ok x u => simp only [onUnit, bind, EStateM.bind, hm]
  | error e u => simp only [onUnit, bind, EStateM.bind, hm]

theorem function_eq (lower : Lowering) (f : Function) :
    function lower f = (do
      modify fun s => { s with current := f }
      onUnit (Build.function lower f)) := by
  unfold Build.function
  rw [onUnit_bind]
  simp only [onUnit_bind]
  rfl

/-- Routines are made in the unit, while the function in work is the last one that was reached. -/
theorem ends_functions {post : UnitBuilder → Prop} {fail : Error → UnitBuilder → Prop}
    (h : Ends (fs.forM (Build.function lower)) s.unit (fun _ => post) fail) :
    Ends (fs.forM (function lower)) s
      (fun _ t => post t.unit ∧ t.current = ((lower.reached fs s.unit).getLast?).getD s.current)
      fun e t =>
        fail e t.unit ∧ t.current = ((lower.reached fs s.unit).getLast?).getD s.current := by
  induction fs generalizing s with
  | nil => exact ⟨h, rfl⟩
  | cons f rest ih =>
    refine Ends.bind ?_
    rw [function_eq]
    refine Ends.bind (Ends.modify (ends_onUnit ?_))
    replace h : Ends (Build.function lower f >>= fun _ => rest.forM (Build.function lower)) s.unit
        (fun _ => post) fail := h
    cases hf : Build.function lower f s.unit with
    | ok x v =>
      have hreached : lower.reached (f :: rest) s.unit = f :: lower.reached rest v := by
        rw [Lowering.reached, hf]
      rw [hreached, List.getLast?_cons, Option.getD_some]
      exact Ends.of_ok hf (ih (s := ⟨v, f⟩) (h.of_bind_ok hf))
    | error e v =>
      have hreached : lower.reached (f :: rest) s.unit = [f] := by rw [Lowering.reached, hf]
      rw [hreached]
      exact Ends.of_error hf ⟨h.of_bind_error hf, rfl⟩

/-- A program is made in the unit, while the function in work is the last one that was reached, and
the program itself before that. -/
theorem ends_program {post : Bytes × List Text → UnitBuilder → Prop}
    {fail : Error → UnitBuilder → Prop}
    (h : Ends (Build.program lower f.preorder) s.unit post fail) :
    Ends (program lower f) s (fun x t => post x t.unit)
      fun e t => fail e t.unit ∧
        t.current = ((lower.programReached f.preorder s.unit).getLast?).getD s.current := by
  refine Ends.bind (ends_onUnit ?_)
  cases hbegin : Build.begin s.unit with
  | error e u =>
    have hreached : lower.programReached f.preorder s.unit = [] := by
      rw [Lowering.programReached, hbegin]
    rw [hreached]
    exact Ends.of_error hbegin ⟨h.of_bind_error hbegin, rfl⟩
  | ok x u =>
    have hreached : lower.programReached f.preorder s.unit = lower.reached f.preorder u := by
      rw [Lowering.programReached, hbegin]
    rw [hreached]
    refine Ends.of_ok hbegin (Ends.bind ?_)
    have hrest := h.of_bind_ok hbegin
    -- what comes after the functions does not change which one was reached last
    let rest : Build (Bytes × List Text) := do
      Build.finish
      return (← Build.toBytes, (← get).entryPoints)
    have hfunctions : Ends (f.preorder.forM (Build.function lower)) u
        (fun _ v => Ends rest v post fail) fail := by
      cases hrun : f.preorder.forM (Build.function lower) u with
      | ok y v => exact Ends.of_ok hrun (hrest.of_bind_ok hrun)
      | error e v => exact Ends.of_error hrun (hrest.of_bind_error hrun)
    refine (ends_functions (s := ⟨u, s.current⟩) hfunctions).mono ?_ fun _ _ ht => ht
    rintro - t ⟨hend, hcurrent⟩
    have hlast : Ends (onUnit rest) t (fun x t => post x t.unit) fun e t' =>
        fail e t'.unit ∧ t'.current = t.current :=
      ends_onUnit (hend.mono (fun _ _ hx => hx) fun _ _ he => ⟨he, rfl⟩)
    simp only [rest, onUnit_bind] at hlast
    rw [← hcurrent]
    exact hlast

end Emitting

/-! ### What the lowering does -/

/-- A request that is about a routine. -/
def UnitRequest.IsWork : UnitRequest → Prop
  | .beginRoutine _ | .endRoutine _ | .onRoutine .. | .loadConstants _ | .loadConstant .. => True
  | _ => False

namespace UnitBuilder

variable {u v w : UnitBuilder} {id : Nat} {done : List Nat}

/-- What the routines of a unit are called, and their types. -/
def titles (u : UnitBuilder) : List (Text × Signature) :=
  u.routines.toList.map fun r => (r.name, r.signature)

theorem length_titles (u : UnitBuilder) : u.titles.length = u.routines.size := by simp [titles]

/-- The unit is in the same phase, and has the same fields and routines of the same names and
types. -/
structure Tends (u v : UnitBuilder) : Prop where
  phase_eq : v.phase = u.phase
  fields_eq : v.fields = u.fields
  titles_eq : v.titles = u.titles

theorem Tends.refl (u : UnitBuilder) : u.Tends u := ⟨rfl, rfl, rfl⟩

theorem Tends.trans (h : u.Tends v) (h' : v.Tends w) : u.Tends w :=
  ⟨h'.phase_eq.trans h.phase_eq, h'.fields_eq.trans h.fields_eq,
    h'.titles_eq.trans h.titles_eq⟩

theorem Works.tends (h : Works id u v) : u.Tends v := by
  obtain ⟨_, _, f, hf, rfl⟩ := h
  refine ⟨rfl, rfl, map_modify fun r => ?_⟩
  obtain ⟨assembler, layout, hr⟩ := hf r
  rw [hr]

theorem Begins.tends (h : Begins id u v) : u.Tends v := by
  have hbegun : u.Tends (u.withBegun id) := ⟨rfl, rfl, map_modify fun _ => rfl⟩
  exact hbegun.trans h.2.2.tends

end UnitBuilder

namespace Build

open UnitBuilder

variable {α : Type} {u v : UnitBuilder} {done : List Nat}

theorem keeps_onRoutine_tends (id : Nat) (step : Emit α) :
    Keeps u.Tends u.Tends (onRoutine id step) := fun _ hv =>
  (ends_onRoutine_works step).mono (fun _ _ hw => hv.trans hw.tends) fun _ _ hw => hv.trans hw.tends

theorem keeps_loadConstant_tends (id : Nat) (c : Constant) :
    Keeps u.Tends u.Tends (loadConstant id c) := by
  refine keeps_loadConstant_of_emission (fun _ hv => hv) (fun v pool hv => ?_)
    (fun e => keeps_onRoutine_tends id _) c
  exact ⟨hv.phase_eq, hv.fields_eq, hv.titles_eq⟩

/-- A request about a routine adds none, whichever way it comes out. -/
theorem ends_perform_tends {r : UnitRequest} (hr : r.IsWork) (hu : u.Lifecycle done) :
    Ends (perform r) u (fun _ => u.Tends) fun _ => u.Tends := by
  cases r with
  | beginRoutine id =>
    refine ends_beginRoutine.mono (fun _ _ hv => hv.tends) ?_
    rintro - v (rfl | hv)
    · exact .refl v
    · exact hv.tends
  | endRoutine id =>
    refine (ends_endRoutine (hu.guards id)).mono ?_ ?_
    · rintro - _ ⟨w, r, record, hwork, -, -, -, -, rfl⟩
      exact hwork.tends.trans ⟨rfl, rfl, map_modify fun _ => rfl⟩
    · rintro - _ rfl
      exact .refl _
  | onRoutine id r => exact keeps_onRoutine_tends id _ u (.refl u)
  | loadConstants id => exact keeps_onRoutine_tends id _ u (.refl u)
  | loadConstant id c => exact keeps_loadConstant_tends id c u (.refl u)
  | _ => exact hr.elim

end Build

theorem UnitBuilder.Lifecycle.tends_after {u : UnitBuilder} {done : List Nat}
    {requests : List UnitRequest} (h : u.Lifecycle done) (hrequests : ∀ r ∈ requests, r.IsWork) :
    u.Tends (u.after requests) := by
  induction requests generalizing u done with
  | nil => exact .refl u
  | cons r rest ih =>
    obtain ⟨hr, hrest⟩ := List.forall_mem_cons.mp hrequests
    have hperform : u.Tends (leaves (Build.perform r) u) := (Build.ends_perform_tends hr h).leaves
    exact hperform.trans (ih (h.perform r) hrest)

namespace Lowering

/-- What the lowering does with the function that is handed over is to make requests about
routines. It may give requests up that fail. -/
structure Makes (lower : Lowering) (calls : Handover → List UnitRequest) (h : Handover) : Prop where
  leaves_eq : leaves (lower h.function h.id) h.unit = h.unit.after (calls h)
  isWork : ∀ r ∈ calls h, r.IsWork

/-- The requests that are made for the functions that are handed over. -/
def requests (calls : Handover → List UnitRequest) (hs : List Handover) : List UnitRequest :=
  hs.flatMap fun h => .openFunction h.function :: (calls h ++ [.endRoutine h.id])

end Lowering

/-! ### The routines of functions -/

/-- The name and the type of a routine for the function. -/
def Function.Titled (f : Function) (title : Text × Signature) : Prop :=
  ∃ a k, f.attributes = .ok a ∧
    title = (UnitBuilder.candidate f.routineName k, Signature.ofAttributes a f.params.length)

/-- The routines of a unit are those of the given functions, in order, and all have ended. The unit
has no other fields than those that every unit has. -/
structure UnitBuilder.Made (u : UnitBuilder) (fs : List Function) : Prop where
  phase_eq : u.phase = .started
  fields_le : u.fields.toList.length ≤ 3
  lifecycle : u.Lifecycle (List.range fs.length)
  titled : List.Forall₂ Function.Titled fs u.titles

theorem UnitBuilder.Made.size_eq {u : UnitBuilder} {fs : List Function} (h : u.Made fs) :
    u.routines.size = fs.length := by
  rw [← u.length_titles, h.titled.length_eq]

namespace Build

open UnitBuilder

variable {u : UnitBuilder} {f : Function} {fs done : List Function} {lower : Lowering}
  {calls : Handover → List UnitRequest}

/-- A function gets a routine, which comes last and is begun. -/
theorem ends_openFunction :
    Ends (openFunction f) u
      (fun id v => id = u.routines.size ∧ Moves 0 u [] v ∧ v.phase = u.phase ∧
        v.routinePhase? id = some .started ∧
        ∃ title, f.Titled title ∧ v.titles = u.titles ++ [title])
      fun _ _ => True := by
  refine Ends.bind (ends_ofExcept (fun _ _ => trivial) fun a ha => ?_)
  refine Ends.bind (ends_requirePhase (fun _ _ => trivial) fun hstarted => ?_)
  dsimp only
  split
  · exact Ends.bind (Ends.throw trivial)
  · refine Ends.bind (Ends.get (Ends.bind (ends_ofExcept (fun _ _ => trivial) fun r hr => ?_)))
    refine Ends.bind (ends_add.mono ?_ fun _ _ _ => trivial)
    rintro id _ ⟨rfl, hnew, rfl⟩
    refine Ends.bind (ends_beginRoutine.mono (fun _ v hv => ?_) fun _ _ _ => trivial)
    have hadded : Moves 0 u [] (u.withRoutine r) :=
      Moves.refl.add hstarted (Routine.phase_of_ofFunction hr) hnew
    obtain ⟨k, hname, -⟩ := u.exists_uniqueName f.routineName
      (Signature.ofAttributes a f.params.length).descriptor
    refine ⟨rfl, hadded.trans (hv.moves (Nat.zero_le _)), hv.tends.phase_eq, hv.routinePhase?_eq,
      (r.name, r.signature), ⟨a, k, ha, ?_⟩, ?_⟩
    · rw [Routine.titled_of_ofFunction hr, hname]
    · rw [hv.tends.titles_eq, titles, withRoutine, Array.toList_push, List.map_append]
      rfl

/-- A routine is made for a function, after those that were made before. -/
theorem ends_function_made (hu : u.Made done)
    (hcalls : ∀ id v, openFunction f u = .ok id v → lower.Makes calls ⟨f, id, v⟩) :
    Ends (function lower f) u (fun _ v => v.Made (done ++ [f])) fun _ _ => True := by
  cases hopen : openFunction f u with
  | error e v => exact Ends.bind (Ends.of_error hopen trivial)
  | ok id v =>
    refine Ends.bind (Ends.of_ok hopen ?_)
    obtain ⟨rfl, hmoves, hphase, -, title, htitle, htitles⟩ := ends_openFunction.ok hopen
    obtain ⟨hleaves, hwork⟩ := hcalls _ v hopen
    have hv : v.Lifecycle (List.range done.length) := by simpa using hu.lifecycle.moves hmoves
    cases hlower : lower f u.routines.size v with
    | error e w => exact Ends.bind (Ends.of_error hlower trivial)
    | ok x w =>
      refine Ends.bind (Ends.of_ok hlower ?_)
      have hw : w = v.after (calls ⟨f, u.routines.size, v⟩) := by
        rw [← hleaves, leaves, hlower]
      have htends : v.Tends w := hw ▸ hv.tends_after hwork
      have hlife := hv.after (calls ⟨f, u.routines.size, v⟩)
      rw [← hw] at hlife
      refine (ends_endRoutine (hlife.guards _)).mono ?_ fun _ _ _ => trivial
      rintro - _ ⟨w', r, record, hwork', hr, hstarted, hopen', hrecord, rfl⟩
      have hended := (hlife.work hwork').finish hr hstarted hrecord
      have hlast : w'.Tends (w'.withEnded u.routines.size record) :=
        ⟨rfl, rfl, map_modify fun _ => rfl⟩
      obtain ⟨hphase', hfields', htitles'⟩ := (htends.trans hwork'.tends).trans hlast
      have hfields : v.fields = u.fields := by
        obtain ⟨_, _, _, _, _, _, rfl⟩ := hmoves.frame
        rfl
      rw [htitles] at htitles'
      have hsize : w.routines.size = done.length + 1 := by
        rw [← w.length_titles, htends.titles_eq, htitles, List.length_append, length_titles,
          hu.size_eq]
        rfl
      -- the lowering has ended neither an older routine again, nor the one that ends only now
      have hnone : v.completed (calls ⟨f, u.routines.size, v⟩) = [] := by
        refine List.eq_nil_iff_forall_not_mem.mpr fun k hk => ?_
        have hlt := hlife.lt_of_mem (List.mem_append_right _ hk)
        obtain ⟨hbefore, -, hnow⟩ := List.nodup_append'.mp hended.nodup_completed
        obtain ⟨-, -, hnot⟩ := List.nodup_append'.mp hbefore
        have holder : ¬ k < done.length := fun h => hnot (List.mem_range.mpr h) hk
        have hother : k ≠ u.routines.size := fun h =>
          hnow (List.mem_append_right _ hk) (List.mem_singleton.mpr h)
        rw [hu.size_eq] at hother
        omega
      rw [hnone, List.append_nil, hu.size_eq, ← List.range_succ] at hended
      refine ⟨(hphase'.trans hphase).trans hu.phase_eq, ?_, ?_, ?_⟩
      · rw [hfields', hfields]
        exact hu.fields_le
      · rw [List.length_append, hu.size_eq]
        exact hended
      · rw [htitles']
        exact List.rel_append hu.titled (.cons htitle .nil)

/-- A function that got its routine was handed over, and the next ones come after it. -/
theorem handovers_of_function {x : Unit} {w : UnitBuilder} (h : function lower f u = .ok x w) :
    ∃ id v, openFunction f u = .ok id v ∧ (∃ v', lower f id v = .ok () v' ∧
      endRoutine id v' = .ok () w) ∧
      lower.handovers (f :: fs) u = ⟨f, id, v⟩ :: lower.handovers fs w := by
  obtain ⟨id, v, hopen, h'⟩ := exists_of_bind_ok h
  obtain ⟨_, v', hlower, hend⟩ := exists_of_bind_ok h'
  refine ⟨id, v, hopen, ⟨v', hlower, hend⟩, ?_⟩
  rw [Lowering.handovers, hopen]
  simp only [h]

theorem mem_handovers {id : Nat} {v : UnitBuilder} (h : openFunction f u = .ok id v) :
    ⟨f, id, v⟩ ∈ lower.handovers (f :: fs) u := by
  rw [Lowering.handovers, h]
  exact List.mem_cons_self

/-- **The routines of a unit are those of the functions, in order.** -/
theorem ends_functions_made (hu : u.Made done)
    (hcalls : ∀ h ∈ lower.handovers fs u, lower.Makes calls h) :
    Ends (fs.forM (function lower)) u (fun _ v => v.Made (done ++ fs)) fun _ _ => True := by
  induction fs generalizing u done with
  | nil =>
    rw [List.append_nil]
    exact hu
  | cons f rest ih =>
    have hf := ends_function_made hu fun id v hopen => hcalls _ (mem_handovers hopen)
    cases hrun : function lower f u with
    | error e v => exact Ends.bind (Ends.of_error hrun trivial)
    | ok x v =>
      refine Ends.bind (Ends.of_ok hrun ?_)
      obtain ⟨id, w, -, -, hhandovers⟩ := handovers_of_function hrun
      rw [hhandovers] at hcalls
      rw [← List.singleton_append, ← List.append_assoc]
      exact ih (hf.ok hrun) fun h hh => hcalls h (List.mem_cons_of_mem _ hh)

theorem perform_openFunction {id : Nat} {v : UnitBuilder} (h : openFunction f u = .ok id v) :
    perform (.openFunction f) u = .ok () v := by
  simp only [perform, discard, Functor.discard, Functor.mapConst, Function.comp_apply, EStateM.map,
    h]

/-- **What all lowering did is to make requests**, and to ask for accessors with them. -/
theorem functions_eq_after {x : Unit} {w : UnitBuilder}
    (hcalls : ∀ h ∈ lower.handovers fs u, lower.Makes calls h)
    (hrun : fs.forM (function lower) u = .ok x w) :
    w = u.after (Lowering.requests calls (lower.handovers fs u)) ∧
      u.asked (Lowering.requests calls (lower.handovers fs u)) =
        (lower.handovers fs u).flatMap fun h => h.unit.asked (calls h) := by
  induction fs generalizing u with
  | nil =>
    cases hrun
    exact ⟨rfl, rfl⟩
  | cons f rest ih =>
    obtain ⟨_, w', hf, hrest⟩ := exists_of_bind_ok hrun
    obtain ⟨id, v, hopen, ⟨v', hlower, hend⟩, hhandovers⟩ := handovers_of_function hf
    rw [hhandovers] at hcalls ⊢
    obtain ⟨⟨hleaves, -⟩, hcalls⟩ := List.forall_mem_cons.mp hcalls
    have hv' : v.after (calls ⟨f, id, v⟩) = v' := by rw [← hleaves, leaves, hlower]
    let first : List UnitRequest := .openFunction f :: (calls ⟨f, id, v⟩ ++ [.endRoutine id])
    have hafter : u.after first = w' := by
      rw [after_cons_of_ok (perform_openFunction hopen), after_concat, hv', leaves, perform, hend]
    have hasked : u.asked first = v.asked (calls ⟨f, id, v⟩) := by
      rw [asked, leaves, perform_openFunction hopen]
      dsimp only
      rw [asked_append]
      simp [asks, asked]
    obtain ⟨hw, hmore⟩ := ih hcalls hrest
    have hrequests : Lowering.requests calls (⟨f, id, v⟩ :: lower.handovers rest w') =
        first ++ Lowering.requests calls (lower.handovers rest w') := rfl
    rw [hrequests, after_append, asked_append, hafter, hasked, hmore]
    exact ⟨hw, rfl⟩

end Build

end Bytecode
