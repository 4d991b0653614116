import Mathlib
import Bytecode.Proofs.Unit.Opening

/-!
# To whom a limit is attributed

A routine for a function is known by two names: its own, which no other routine has, and the one of
its function. Its code knows the first name only. A limit that is found when the routine ends is
attributed to the function, but a local for which there is no slot is refused by the code, and that
limit is attributed to the routine. The two names are the same unless another routine had the
identity first.

## Main definitions

* `Routine.names`: the names of a routine, of its function and of its code
* `Routine.HasRoom`: the slots of a local are there

## Main results

* `UnitBuilder.Course.names?_eq`: names are kept
* `Build.ends_openRoutine_names`: the names of a new routine
* `Build.ends_endRoutine_limit`: limits that are found when a routine ends
* `Build.limits_attributed`: to whom the limits of a routine are attributed
* `Build.locals_of_second_routine`: a limit that is not attributed to the function
-/

namespace Bytecode

/-! ### Names are kept -/

/-- A request does not rename the code. -/
theorem Emit.ends_request_routine (r : Request) {s : Assembly}
    (hclean : .void ∉ s.assembler.stack.types) :
    Ends (Emit.request r) s (fun _ t => t.assembler.routine = s.assembler.routine)
      fun _ t => t.assembler.routine = s.assembler.routine := by
  cases r with
  | openCode | close | newLabel => exact rfl
  | defineLocal type => exact Ends.map (ends_defineLocal (fun _ => rfl) fun _ _ => rfl)
  | bind label =>
    refine ends_bind.mono ?_ ?_
    · rintro - t ⟨l, stack, hbound⟩
      rw [hbound.eq]
    · rintro - t rfl
      rfl
  | emission e =>
    refine (ends_emission hclean).mono ?_ fun _ t he => ?_
    · rintro - t ⟨symbol, stack, he⟩
      rw [he.assembler_eq]
      rfl
    · cases he with
      | taken => rfl
      | written => rfl

theorem Assembly.Reaches.routine_eq {s t : Assembly} (h : s.Reaches t) (hs : s.Linked) :
    t.assembler.routine = s.assembler.routine := by
  induction h with
  | refl => rfl
  | tail hreaches hstep ih =>
    obtain ⟨r, rfl⟩ := hstep
    have hlinked := (Assembly.Reaches.evolves hreaches hs).linked
    exact (Emit.ends_request_routine r hlinked.wellFormed.noVoid).leaves.trans ih

namespace Routine

/-- The name of the routine, the one of its function and the one that its code goes by. -/
def names (r : Routine) : Text × Text × Text := (r.name, r.function, r.assembler.routine)

/-- The code of a new routine goes by the name of the routine, not of the function. -/
theorem names_ofFunction {name function : Text} {a : Attributes} {paramCount scopeSize : Nat}
    {r : Routine} (h : ofFunction name function a paramCount scopeSize = .ok r) :
    r.names = (name, if function.isEmpty then name else function, name) := by
  unfold ofFunction at h
  dsimp only at h
  split at h
  · cases h
  · obtain ⟨⟨layout, assembler⟩, hlayout, h⟩ := exists_of_except_bind h
    cases h
    obtain ⟨-, rfl⟩ := Define.defines_function a paramCount _ _ _ hlayout
    rfl

end Routine

namespace UnitBuilder

variable {u v : UnitBuilder} {id : Nat} {names : Text × Text × Text}

/-- The names of the routine in this place. -/
def names? (u : UnitBuilder) (id : Nat) : Option (Text × Text × Text) :=
  u.routines[id]?.map Routine.names

theorem names_modify {routines : Array Routine} {k : Nat} {f : Routine → Routine}
    (hf : ∀ r, routines[k]? = some r → (f r).names = r.names) (id : Nat) :
    (routines.modify k f)[id]?.map Routine.names = routines[id]?.map Routine.names := by
  rw [Array.getElem?_modify]
  split
  · next hk =>
    subst hk
    cases hr : routines[k]? with
    | none => rfl
    | some r => exact congrArg some (hf r hr)
  · rfl

/-- A step renames no routine. -/
theorem Step.names?_eq (h : Step u v) (hu : u.Linked) (hnames : u.names? id = some names) :
    v.names? id = some names := by
  cases h with
  | @code k r s hr hs =>
    -- the code that is put back goes by the name that it had
    refine (names_modify (fun r' hr' => ?_) id).trans hnames
    obtain rfl : r' = r := Option.some.inj (hr'.symm.trans hr)
    have hroutine := hs.routine_eq (hu.routines k r' hr)
    simp only [Routine.names, hroutine]
  | add =>
    obtain ⟨r, hr, rfl⟩ := Option.map_eq_some_iff.mp hnames
    exact Option.map_eq_some_iff.mpr ⟨r, getElem?_push_of_some hr, rfl⟩
  | note hf =>
    refine (names_modify (fun r _ => ?_) id).trans hnames
    obtain ⟨phase, layout, hfr⟩ := hf r
    rw [hfr]
    rfl
  | restore hrestored =>
    obtain ⟨_, _, -, rfl⟩ := hrestored
    exact hnames
  | _ => exact hnames

/-- **Names are kept** in a course. -/
theorem Course.names?_eq (h : u.Course v) (hu : u.Linked) (hnames : u.names? id = some names) :
    v.names? id = some names := by
  induction h with
  | refl => exact hnames
  | step hcourse hstep ih => exact hstep.names?_eq (hcourse.linked_grows hu).1 ih
  | intern _ _ ih => exact ih
  | request _ _ ih => exact ih

end UnitBuilder

namespace Build

open UnitBuilder

variable {u : UnitBuilder} {id : Nat} {r : Routine}

/-- **The names of a new routine.** A function without a name is called like its routine. -/
theorem ends_openRoutine_names (hu : u.Linked) (function : Text) (a : Attributes)
    (paramCount scopeSize : Nat) :
    Ends (openRoutine function a paramCount scopeSize) u
      (fun id v =>
        let name := u.uniqueName function (Signature.ofAttributes a paramCount).descriptor
        v.names? id = some (name, if function.isEmpty then name else function, name))
      fun _ _ => True := by
  refine Ends.bind (ends_requirePhase (fun _ _ => trivial) fun _ => ?_)
  dsimp only
  split
  · exact Ends.bind (Ends.throw trivial)
  · refine Ends.bind (Ends.get (Ends.bind (ends_ofExcept (fun _ _ => trivial) fun r hr => ?_)))
    have hadd := (stepwise_add (Routine.sound_ofFunction hr).1 u).and (ends_add (u := u) (r := r))
    refine Ends.bind (hadd.mono ?_ fun _ _ _ => trivial)
    rintro id _ ⟨hsteps, rfl, -, rfl⟩
    have hlinked := ((Course.refl.steps hsteps).linked_grows hu).1
    have hnew : (u.withRoutine r).names? u.routines.size = some r.names := by
      simp [names?, withRoutine]
    -- to begin the routine does not rename it
    refine Ends.bind ((stepwise_beginRoutine _ _).mono ?_ fun _ _ _ => trivial)
    intro _ v hbegin
    rw [← Routine.names_ofFunction hr]
    exact (Course.refl.steps hbegin).names?_eq hlinked hnew

end Build

/-! ### Where limits are found -/

/-- There are slots for one more local of type `t`. -/
def Routine.HasRoom (r : Routine) (t : ValueType) : Prop :=
  r.assembler.locals.slots + t.width ≤ 65535

/-- Code that is not complete is no matter of limits. -/
theorem Assembler.not_isLimit_of_finish {a : Assembler} {e : Error}
    (h : a.finish = .error e) : ¬ e.IsLimit := by
  obtain ⟨fault, rfl⟩ := finish_eq_error h
  intro hlimit
  cases hlimit

namespace Routine

variable {r : Routine} {record : RoutineRecord} {e : Error}

/-- The record of a routine is within all limits. -/
theorem not_exceeds_of_record (h : r.record = .ok record) (limit : Limit) :
    ¬ r.Exceeds limit := by
  rcases r.record_cases with ⟨e, -, herror⟩ | ⟨_, -, herror⟩ | ⟨-, hwithin⟩
  · cases h.symm.trans herror
  · cases h.symm.trans herror
  · exact hwithin limit

/-- A limit that keeps a routine from having a record is attributed to its function. -/
theorem exceeds_of_record (h : r.record = .error e) (hlimit : e.IsLimit) :
    ∃ limit, r.Exceeds limit ∧ e = .unsupported r.function limit := by
  rcases r.record_cases with ⟨e', hfinish, herror⟩ | ⟨limit, hexceeds, herror⟩ | ⟨⟨_, hok⟩, -⟩
  · cases h.symm.trans herror
    exact absurd hlimit (Assembler.not_isLimit_of_finish hfinish)
  · cases h.symm.trans herror
    exact ⟨limit, hexceeds, rfl⟩
  · cases h.symm.trans hok

end Routine

/-- No other limit is met by a local. -/
theorem Emit.ends_defineLocal_limit (t : ValueType) (s : Assembly) :
    Ends (Emit.defineLocal t) s
      (fun _ _ => s.assembler.locals.slots + t.width ≤ 65535)
      fun e _ => e.IsLimit → 65535 < s.assembler.locals.slots + t.width ∧
        e = .unsupported s.assembler.routine .locals := by
  by_cases hvoid : t = .void
  · subst hvoid
    exact Ends.of_error (defineLocal_void s) fun hlimit => by cases hlimit
  by_cases hslots : 65535 < s.assembler.locals.slots + t.width
  · exact Ends.of_error (defineLocal_of_full hvoid hslots) fun _ => ⟨hslots, rfl⟩
  · have hroom := Nat.le_of_not_lt hslots
    exact Ends.of_ok (defineLocal_of_room hvoid hroom) hroom

namespace Build

open UnitBuilder

variable {u : UnitBuilder} {id : Nat} {r : Routine}

/-- Whether a record is kept is no matter of limits. -/
theorem ends_keep_misuse (id : Nat) (record : RoutineRecord) (u : UnitBuilder) :
    Ends (keep id record) u (fun _ _ => True) fun e _ => ¬ e.IsLimit := by
  have hunit : ∀ name fault, ¬ (Error.unit name fault).IsLimit := by
    intro name fault hlimit
    cases hlimit
  -- both checks are about the unit: its phase, and whether the routine is open
  refine Ends.bind (Ends.bind (Ends.get ?_))
  dsimp only
  split
  · refine Ends.bind (Ends.get ?_)
    split
    · exact trivial
    · exact Ends.bind (hunit _ _)
  · exact hunit _ _

/-- **A limit that is found when a routine ends is attributed to its function.** A routine that
exceeds a limit does not end. -/
theorem ends_endRoutine_limit (hr : u.routines[id]? = some r) :
    Ends (endRoutine id) u (fun _ _ => ∀ limit, ¬ r.Exceeds limit)
      fun e _ => e.IsLimit → ∃ limit, r.Exceeds limit ∧ e = .unsupported r.function limit := by
  refine Ends.bind (Ends.of_ok (getRoutine_eq hr) ?_)
  dsimp only
  split
  · refine Ends.bind (ends_ofExcept (fun e he => Routine.exceeds_of_record he)
      fun record hrecord => ?_)
    have hwithin := Routine.not_exceeds_of_record hrecord
    -- the record is there, and what is left to do meets no limit
    refine Ends.bind (ends_onRoutine_of_some hr (Ends.modify (Ends.bind (Ends.modify ?_))))
    refine Ends.bind ((ends_trace hrecord).mono ?_ fun _ _ => False.elim)
    intro _ v _
    exact (ends_keep_misuse id record v).mono (fun _ _ _ => hwithin)
      fun _ _ hmisuse hlimit => absurd hlimit hmisuse
  · exact Ends.bind (Ends.throw fun hlimit => by cases hlimit)

/-- To whom the lack of slots is attributed. -/
theorem ends_onRoutine_defineLocal (hr : u.routines[id]? = some r) (t : ValueType) :
    Ends (onRoutine id (Emit.defineLocal t)) u (fun _ _ => r.HasRoom t)
      fun e _ => e.IsLimit → ¬ r.HasRoom t ∧ e = .unsupported r.assembler.routine .locals := by
  refine ends_onRoutine_of_some hr ((Emit.ends_defineLocal_limit t _).mono (fun _ _ h => h) ?_)
  intro e _ he hlimit
  obtain ⟨hslots, heq⟩ := he hlimit
  exact ⟨Nat.not_le.mpr hslots, heq⟩

/-- A local for which there is no room is refused. -/
theorem onRoutine_defineLocal_of_full {t : ValueType} (hr : u.routines[id]? = some r)
    (ht : t ≠ .void) (hfull : 65535 < r.assembler.locals.slots + t.width) :
    ∃ v, onRoutine id (Emit.defineLocal t) u =
      .error (.unsupported r.assembler.routine .locals) v := by
  have hends : Ends (onRoutine id (Emit.defineLocal t)) u (fun _ _ => False)
      fun e _ => e = .unsupported r.assembler.routine .locals :=
    ends_onRoutine_of_some hr (Ends.of_error (Emit.defineLocal_of_full ht hfull) rfl)
  cases hrun : onRoutine id (Emit.defineLocal t) u with
  | ok slot v => exact (hends.ok hrun).elim
  | error e v => exact ⟨v, by rw [hends.error hrun]⟩

/-- **To whom the limits of a routine are attributed.** A routine is opened for a function with a
name, after any requests to the unit, and any requests follow, granted or not. When the routine
exceeds a limit it does not end, and a limit that is found then is attributed to the function. When
there is no room for a local it is not defined, and that limit is attributed to the routine by its
own name. So it is attributed to the function exactly if no routine had the identity before. -/
theorem limits_attributed (context : Context) (unit source : Text) (strict : Bool)
    (before rest : List UnitRequest) {function : Text} {a : Attributes}
    {paramCount scopeSize id : Nat} {v : UnitBuilder} (hfunction : function ≠ [])
    (hopen : openRoutine function a paramCount scopeSize
      ((UnitBuilder.new context unit source strict).after before) = .ok id v) :
    let u := (UnitBuilder.new context unit source strict).after before
    let w := v.after rest
    let descriptor := (Signature.ofAttributes a paramCount).descriptor
    ∃ r, w.routines[id]? = some r ∧ r.function = function ∧
      r.name = u.uniqueName function descriptor ∧
      Ends (endRoutine id) w (fun _ _ => ∀ limit, ¬ r.Exceeds limit)
        (fun e _ => e.IsLimit → ∃ limit, r.Exceeds limit ∧ e = .unsupported function limit) ∧
      ∀ t, Ends (onRoutine id (Emit.defineLocal t)) w (fun _ _ => r.HasRoom t)
        fun e _ => e.IsLimit → ¬ r.HasRoom t ∧ e = .unsupported r.name .locals ∧
          (e.function? = some function ↔ function ++ descriptor ∉ u.known) := by
  intro u w descriptor
  have hlife := (lifecycle_new context unit source strict).after before
  have hu : u.Linked := ((course_after _ before).linked_grows (linked_new ..)).1
  have hopened : u.Course v :=
    Course.refl.steps ((stepwise_openRoutine function a paramCount scopeSize u).ok hopen)
  have hnames := (ends_openRoutine_names hu function a paramCount scopeSize).ok hopen
  -- the routine keeps the names that it was opened with
  have hkept := (course_after v rest).names?_eq (hopened.linked_grows hu).1 hnames
  rw [if_neg (by simpa using hfunction)] at hkept
  obtain ⟨r, hr, hrnames⟩ := Option.map_eq_some_iff.mp hkept
  obtain ⟨hname, hrest⟩ := Prod.mk.inj hrnames
  obtain ⟨hfunction', hroutine⟩ := Prod.mk.inj hrest
  have hclash : r.name = function ↔ function ++ descriptor ∉ u.known := by
    rw [hname, uniqueName_eq_iff, hlife.mem_identities]
  refine ⟨r, hr, hfunction', hname, ?_, fun t => ?_⟩
  · rw [← hfunction']
    exact ends_endRoutine_limit hr
  · refine (ends_onRoutine_defineLocal hr t).mono (fun _ _ h => h) ?_
    intro e _ he hlimit
    obtain ⟨hroom, rfl⟩ := he hlimit
    rw [hroutine, ← hname]
    exact ⟨hroom, rfl, Option.some_inj.trans hclash⟩

end Build

/-- A second routine for a function `f`, without any parameters. -/
def secondRoutine : List UnitRequest := [.begin, .openRoutine "f" {} 0 0, .openRoutine "f" {} 0 0]

/-- A third routine for `f`, with a local of its own. What it exceeds when it ends is attributed to
`f`, and a local too many is attributed to `f$2`. -/
theorem Build.limits_attributed_third :
    let u := (UnitBuilder.new {} "u" "s" false).after secondRoutine
    ∃ v r, Build.openRoutine "f" {} 0 0 u = .ok 2 v ∧
      (v.after [.onRoutine 2 (.defineLocal .number)]).routines[2]? = some r ∧
      Ends (Build.endRoutine 2) (v.after [.onRoutine 2 (.defineLocal .number)])
        (fun _ _ => ∀ limit, ¬ r.Exceeds limit)
        (fun e _ => e.IsLimit → ∃ limit, r.Exceeds limit ∧
          e = .unsupported (Text.ofString "f") limit) ∧
      ∀ t, Ends (Build.onRoutine 2 (Emit.defineLocal t))
        (v.after [.onRoutine 2 (.defineLocal .number)]) (fun _ _ => r.HasRoom t)
        fun e _ => e.IsLimit → ¬ r.HasRoom t ∧ e = .unsupported (Text.ofString "f$2") .locals := by
  intro u
  have hrun : (Build.openRoutine "f" {} 0 0).run' u = some 2 := by decide +kernel
  have hunique : u.uniqueName "f" (Signature.ofAttributes {} 0).descriptor =
      Text.ofString "f$2" := by decide +kernel
  obtain ⟨v, hopen⟩ := exists_of_run' hrun
  obtain ⟨r, hr, -, hname, hend, hlocals⟩ :=
    Build.limits_attributed {} "u" "s" false secondRoutine [.onRoutine 2 (.defineLocal .number)]
      (by decide) hopen
  refine ⟨v, r, hopen, hr, hend, fun t => (hlocals t).mono (fun _ _ h => h) ?_⟩
  intro e _ he hlimit
  obtain ⟨hroom, heq, -⟩ := he hlimit
  rw [heq, hname, hunique]
  exact ⟨hroom, rfl⟩

/-! ### A limit that is not attributed to the function -/

namespace UnitBuilder

variable {u : UnitBuilder} {id : Nat} {r : Routine}

/-- Locals of one type are defined one after the other while there is room for them. -/
theorem after_locals {t : ValueType} (ht : t ≠ .void) (n : Nat) (hr : u.routines[id]? = some r)
    (hroom : r.assembler.locals.slots + n * t.width ≤ 65535) :
    ∃ r', (u.after (List.replicate n (.onRoutine id (.defineLocal t)))).routines[id]? = some r' ∧
      r'.names = r.names ∧
      r'.assembler.locals.slots = r.assembler.locals.slots + n * t.width := by
  induction n generalizing u r with
  | zero => exact ⟨r, hr, rfl, by simp⟩
  | succ n ih =>
    rw [Nat.succ_mul] at hroom
    let s : Assembly := ⟨{ r.assembler with locals := r.assembler.locals.define t }, u.symbols⟩
    have hslots : s.assembler.locals.slots = r.assembler.locals.slots + t.width :=
      Locals.slots_define _ ht
    -- the first local is defined, and the others find the routine with its slots taken
    have hdefined : leaves (Build.perform (.onRoutine id (.defineLocal t))) u = u.putBack id s := by
      have hrun : Emit.defineLocal t ⟨r.assembler, u.symbols⟩ = .ok _ s :=
        Emit.defineLocal_of_room ht (show r.assembler.locals.slots + t.width ≤ 65535 by omega)
      exact Ends.leaves (P := fun v => v = u.putBack id s)
        (Build.ends_onRoutine_of_some hr (Ends.map (Ends.of_ok hrun rfl)))
    obtain ⟨r', hr', hnames, hmore⟩ := ih (Build.getElem?_putBack (s := s) hr)
      (show s.assembler.locals.slots + n * t.width ≤ 65535 by omega)
    refine ⟨r', ?_, hnames, ?_⟩
    · rw [← hdefined] at hr'
      exact hr'
    · rw [hmore, Nat.succ_mul]
      show s.assembler.locals.slots + n * t.width = _
      omega

end UnitBuilder

/-- The second routine for a function is filled with locals until there is no slot left. The limit
is attributed to a function that is not there. -/
theorem Build.locals_of_second_routine :
    let u := (UnitBuilder.new {} "u" "s" false).after secondRoutine
    u.names? 1 = some (Text.ofString "f$1", Text.ofString "f", Text.ofString "f$1") ∧
      ∃ v, Build.onRoutine 1 (Emit.defineLocal .object)
        (u.after (List.replicate 65534 (.onRoutine 1 (.defineLocal .object)))) =
          .error (.unsupported (Text.ofString "f$1") .locals) v := by
  intro u
  have hnames : u.names? 1 =
      some (Text.ofString "f$1", Text.ofString "f", Text.ofString "f$1") := by decide +kernel
  have hslots : (u.routines[1]?.map fun r => r.assembler.locals.slots) = some 1 := by
    decide +kernel
  -- what was computed is all that is needed of the unit
  clear_value u
  refine ⟨hnames, ?_⟩
  obtain ⟨r, hr, hrnames⟩ := Option.map_eq_some_iff.mp hnames
  rw [hr, Option.map_some, Option.some_inj] at hslots
  obtain ⟨r', hr', hkept, hfull⟩ := UnitBuilder.after_locals (t := .object) (by decide) 65534 hr
    (by rw [hslots]; decide)
  have hroutine : r'.assembler.routine = Text.ofString "f$1" :=
    congrArg (fun names => names.2.2) (hkept.trans hrnames)
  obtain ⟨v, hrefused⟩ := Build.onRoutine_defineLocal_of_full (t := .object) hr' (by decide)
    (by rw [hfull, hslots]; decide)
  rw [hroutine] at hrefused
  exact ⟨v, hrefused⟩

end Bytecode
