import Mathlib
import Bytecode.Proofs.Assembly.Progress
import Bytecode.Proofs.Image.Limits
import Bytecode.Proofs.Image.Resilience
import Bytecode.Proofs.Unit.Constants
import Bytecode.Proofs.Unit.Naming

/-!
# Units that can be made

A unit is filled by its clients, but a part of it is made without them: the prologues of functions,
the accessors, and the encoding at the end. None of this fails on account of the unit itself.
Prologues and accessors fit the locals with which their routines start, the identities of accessors
are not those of functions, and what is encoded is accepted unless a text in it is too long. The
limits of the format are left as reasons to fail. One of them is met only at the end, since routines
are counted there: a unit can have more routines than its format has numbers for.

## Main definitions

* `Define.Limited`: locals that are defined within the limits of the format
* `Routine.Exceeds`: a limit that keeps a routine from ending
* `UnitBuilder.StandsAt`: a routine with straight code
* `UnitBuilder.Settled`: every routine of the unit has ended
* `UnitBuilder.allMembers`: what the routines of a unit will be called when it has ended

## Main results

* `Routine.record_cases`: why a routine has no record
* `Build.limited_openFunction`: a routine is opened for any analysed function
* `Build.limited_endRoutine`: a routine with complete code is ended
* `Build.limited_accessors`: accessors are added next to routines with other identities
* `Build.ends_finish_limited`: why a unit cannot be ended
-/

namespace Bytecode

theorem Locals.extends_defineAll (l : Locals) (types : List ValueType) :
    (l.defineAll types).Extends l := by
  induction types generalizing l with
  | nil => exact .refl l
  | cons t types ih => exact (l.extends_define t).trans (ih (l.define t))

/-- The slots of the callee and of the parent scope hold them. -/
structure Layout.Typed (layout : Layout) (locals : Locals) : Prop where
  callee : ∀ slot, layout.callee = some slot → locals.type? slot.toNat = some .callee
  parentScope : ∀ slot, layout.parentScope = some slot → locals.type? slot.toNat = some .scope

/-! ### New routines -/

namespace Define

variable {α β : Type} {m : Define α} {f : α → Define β} {t : ValueType} {types : List ValueType}
  {s b : Assembler}

/-- A step that fails at most because of a limit of the unit format. -/
def Limited (m : Define α) : Prop := ∀ s e, m s = .error e → e.IsLimit

theorem Limited.pure (x : α) : Limited (Pure.pure x) := by
  rintro s e ⟨⟩

theorem Limited.bind (hm : Limited m) (hf : ∀ x, Limited (f x)) : Limited (m >>= f) := by
  intro s e h
  rcases error_of_except_bind h with h | ⟨⟨x, b⟩, -, h⟩
  · exact hm s e h
  · exact hf x b e h

theorem limited_slot (ht : t ≠ .void) : Limited (slot t) := fun _ _ h =>
  Assembler.isLimit_of_defineLocal ht h

theorem limited_slotIf (wanted : Bool) (ht : t ≠ .void) : Limited (slotIf wanted t) := by
  cases wanted with
  | false => exact .pure none
  | true =>
    have h := (limited_slot ht).bind fun slot => Limited.pure (some slot)
    rwa [bind_pure_comp] at h

theorem limited_mapM_slot (h : .void ∉ types) : Limited (types.mapM slot) := by
  induction types with
  | nil => exact .pure []
  | cons t types ih =>
    rw [List.mem_cons, not_or] at h
    rw [List.mapM_cons]
    exact (limited_slot (Ne.symm h.1)).bind fun _ => (ih h.2).bind fun _ => .pure _

theorem limited_function (a : Attributes) (paramCount : Nat) : Limited (function a paramCount) := by
  refine (limited_slotIf _ (by decide)).bind fun callee => ?_
  refine (limited_slotIf _ (by decide)).bind fun parentScope => ?_
  refine (limited_slot (by decide)).bind fun receiver => ?_
  refine (limited_slotIf _ (by decide)).bind fun varArgs => ?_
  cases a.isVarArg with
  | true => exact .pure _
  | false =>
    have hvoid : .void ∉ List.replicate paramCount ValueType.object := by simp
    exact (limited_mapM_slot hvoid).bind fun params => .pure _

/-- Locals that are there stay there when more of them are defined. -/
theorem Defines.extends {x : α} (hm : Defines m types) (h : m s = .ok (x, b)) :
    b.locals.Extends s.locals := by
  obtain ⟨-, rfl⟩ := hm s x b h
  exact s.locals.extends_defineAll types

theorem type?_slotIf {wanted : Bool} {found : Option UInt16}
    (h : slotIf wanted t s = .ok (found, b)) :
    ∀ slot, found = some slot → b.locals.type? slot.toNat = some t := by
  intro slot hslot
  cases wanted with
  | false =>
    cases h
    cases hslot
  | true =>
    obtain ⟨⟨slot', b'⟩, hlocal, h⟩ := exists_of_except_bind h
    cases h
    cases hslot
    exact (Assembler.defineLocal_eq_ok hlocal).2.2

/-- A routine for a function starts with its callee and its parent scope in their slots. -/
theorem typed_function {a : Attributes} {paramCount : Nat} {layout : Layout}
    (h : function a paramCount s = .ok (layout, b)) : layout.Typed b.locals := by
  obtain ⟨⟨callee, s₁⟩, hcallee, h⟩ := exists_of_except_bind h
  obtain ⟨⟨parentScope, s₂⟩, hparent, h⟩ := exists_of_except_bind h
  obtain ⟨⟨receiver, s₃⟩, hreceiver, h⟩ := exists_of_except_bind h
  obtain ⟨⟨varArgs, s₄⟩, hvarArgs, h⟩ := exists_of_except_bind h
  -- what is defined after the two slots does not move them
  have hparams : b.locals.Extends s₄.locals ∧ layout.callee = callee ∧
      layout.parentScope = parentScope := by
    cases hvar : a.isVarArg with
    | true =>
      rw [hvar] at h
      cases h
      exact ⟨.refl _, rfl, rfl⟩
    | false =>
      rw [hvar] at h
      obtain ⟨⟨params, s₅⟩, hparams, h⟩ := exists_of_except_bind h
      cases h
      exact ⟨(defines_mapM_slot _).extends hparams, rfl, rfl⟩
  obtain ⟨hlast, rfl, rfl⟩ := hparams
  have hrest : b.locals.Extends s₂.locals :=
    ((defines_slot _).extends hreceiver).trans
      (((defines_slotIf _ _).extends hvarArgs).trans hlast)
  constructor
  · intro slot hslot
    have hfirst := type?_slotIf hcallee slot hslot
    exact hrest.type? (((defines_slotIf _ _).extends hparent).type? hfirst)
  · intro slot hslot
    exact hrest.type? (type?_slotIf hparent slot hslot)

end Define

namespace Routine

variable {r : Routine} {name function : Text} {a : Attributes} {paramCount scopeSize : Nat}

/-- The routine has not begun. Its assembler is new, with locals in the slots of the layout. -/
structure Blank (r : Routine) : Prop where
  phase_eq : r.phase = .notStarted
  assembler_eq : r.assembler =
    { Assembler.new r.name r.signature.result with locals := r.assembler.locals }
  typed : r.layout.Typed r.assembler.locals

/-- The code of a routine starts with an empty stack. -/
theorem Blank.stands (h : r.Blank) :
    Assembler.Stands { r.assembler with isOpen := true } r.assembler.locals r.signature.result
      [] := by
  rw [h.assembler_eq]
  exact ⟨rfl, rfl, rfl, rfl, rfl, rfl, List.not_mem_nil⟩

/-- A routine cannot be made for a function when it would need too many slots. -/
theorem isLimit_of_ofFunction {e : Error}
    (h : ofFunction name function a paramCount scopeSize = .error e) : e.IsLimit := by
  unfold ofFunction at h
  dsimp only at h
  split at h
  · cases h
    exact Error.isLimit _ _
  · rcases error_of_except_bind h with h | ⟨_, -, h⟩
    · exact Define.limited_function a paramCount _ _ h
    · cases h

theorem blank_ofFunction (h : ofFunction name function a paramCount scopeSize = .ok r) :
    r.Blank := by
  unfold ofFunction at h
  dsimp only at h
  split at h
  · cases h
  · obtain ⟨⟨layout, assembler⟩, hlayout, h⟩ := exists_of_except_bind h
    cases h
    obtain ⟨-, hassembler⟩ := Define.defines_function a paramCount _ _ _ hlayout
    refine ⟨rfl, ?_, Define.typed_function hlayout⟩
    dsimp only
    rw [hassembler]

theorem blank_synthetic {flags : Flags} {signature : Signature}
    (h : synthetic flags name signature = .ok r) : r.Blank ∧ r.attributes = none := by
  obtain ⟨⟨layout, assembler⟩, hlayout, h⟩ := exists_of_except_bind h
  cases h
  obtain ⟨-, hassembler⟩ := Define.defines_synthetic flags signature _ _ _ hlayout
  -- there is neither a callee nor a parent scope
  obtain ⟨⟨receiver, s⟩, -, hlayout⟩ := exists_of_except_bind hlayout
  obtain ⟨⟨params, s⟩, -, hlayout⟩ := exists_of_except_bind hlayout
  cases hlayout
  refine ⟨⟨rfl, ?_, ⟨?_, ?_⟩⟩, rfl⟩
  · dsimp only
    rw [hassembler]
  · rintro slot ⟨⟩
  · rintro slot ⟨⟩

/-- A limit of the format that is found to be exceeded when the routine ends. -/
inductive Exceeds (r : Routine) : Limit → Prop
  | code {code : Bytes} (hfinish : r.assembler.finish = .ok code) (h : 65535 < code.length) :
      Exceeds r .code
  | stack (h : 65535 < r.assembler.stack.maxDepth) : Exceeds r .stack
  | localSlots (h : 65535 < r.assembler.locals.slots) : Exceeds r .localSlots

/-- **The limits of a record.** A routine has a record unless its code is not complete or it exceeds
a limit, and that limit is attributed to its function. -/
theorem record_cases (r : Routine) :
    (∃ e, r.assembler.finish = .error e ∧ r.record = .error e) ∨
      (∃ limit, r.Exceeds limit ∧ r.record = .error (.unsupported r.function limit)) ∨
      Succeeds r.record ∧ ∀ limit, ¬ r.Exceeds limit := by
  unfold record
  cases hfinish : r.assembler.finish with
  | error e => exact .inl ⟨e, rfl, rfl⟩
  | ok code =>
    -- the bounds are looked at in this order
    by_cases hcode : 65535 < code.length
    · exact .inr (.inl ⟨.code, .code hfinish hcode, if_pos hcode⟩)
    by_cases hstack : 65535 < r.assembler.stack.maxDepth
    · exact .inr (.inl ⟨.stack, .stack hstack, (if_neg hcode).trans (if_pos hstack)⟩)
    by_cases hlocals : 65535 < r.assembler.locals.slots
    · refine .inr (.inl ⟨.localSlots, .localSlots hlocals, ?_⟩)
      exact (if_neg hcode).trans ((if_neg hstack).trans (if_pos hlocals))
    · refine .inr (.inr ⟨⟨_, (if_neg hcode).trans ((if_neg hstack).trans (if_neg hlocals))⟩, ?_⟩)
      rintro limit (⟨hfinish', hlong⟩ | hdeep | hmany)
      · cases hfinish.symm.trans hfinish'
        exact hcode hlong
      · exact hstack hdeep
      · exact hlocals hmany

/-- Complete code is recorded unless it is too large. -/
theorem isLimit_of_record {e : Error} (hfinish : Succeeds r.assembler.finish)
    (h : r.record = .error e) : e.IsLimit := by
  obtain ⟨code, hcode⟩ := hfinish
  rcases r.record_cases with ⟨e', hincomplete, -⟩ | ⟨limit, -, herror⟩ | ⟨⟨_, hok⟩, -⟩
  · cases hcode.symm.trans hincomplete
  · cases h.symm.trans herror
    exact Error.isLimit _ _
  · cases h.symm.trans hok

end Routine

/-! ### Opening and ending a routine -/

namespace UnitBuilder

/-- The routine in this place has straight code, after a start with the slots of `r`. -/
def StandsAt (u : UnitBuilder) (id : Nat) (r : Routine) (types : List ValueType) : Prop :=
  ∃ r', u.routines[id]? = some r' ∧ r'.layout = r.layout ∧
    r'.assembler.Stands r.assembler.locals r.signature.result types

/-- The code of the routine in this place is complete. -/
def FinishesAt (u : UnitBuilder) (id : Nat) : Prop :=
  ∃ r, u.routines[id]? = some r ∧ Succeeds r.assembler.finish

end UnitBuilder

namespace Build

open UnitBuilder

variable {α : Type} {u : UnitBuilder} {id : Nat} {r : Routine} {types after : List ValueType}
  {e : Emission}

theorem requirePhase_eq {operation : UnitOperation} (h : u.phase = operation.phase) :
    requirePhase operation u = .ok () u := by
  simp [requirePhase, bind, EStateM.bind, get, getThe, MonadStateOf.get, EStateM.get, h, pure,
    EStateM.pure]

theorem requirePhase_eq_error {operation : UnitOperation} (h : u.phase ≠ operation.phase) :
    requirePhase operation u = .error (.unit u.name (.wrongPhase operation u.phase)) u := by
  simp [requirePhase, bind, EStateM.bind, get, getThe, MonadStateOf.get, EStateM.get, h, refuse,
    throw, throwThe, MonadExceptOf.throw, EStateM.throw]

/-- A new unit is begun unless its names are too long. -/
theorem limited_begin (h : u.phase = .notStarted) : Limited Build.begin u := by
  refine Ends.bind (Ends.of_ok (requirePhase_eq h) (Ends.bind (Ends.get ?_)))
  refine Ends.bind (ends_ofExcept (fun _ => Wire.isLimit_of_requireName) fun _ _ => ?_)
  refine Ends.bind (ends_ofExcept (fun _ => Wire.isLimit_of_requireName) fun _ _ => ?_)
  exact Ends.modify trivial

/-- A routine with a free identity is added. -/
theorem limited_add (hfree : r.identity ∉ u.identities) : Limited (add r) u := by
  refine Ends.bind (ends_ofExcept (fun _ => Wire.isLimit_of_requireName) fun _ _ => ?_)
  refine Ends.bind (ends_ofExcept (fun _ => Wire.isLimit_of_requireName) fun _ _ => ?_)
  refine Ends.bind (Ends.get ?_)
  split
  · next htaken => exact absurd (Std.TreeSet.mem_iff_contains.mpr htaken) hfree
  · exact Ends.bind (Ends.get (Ends.bind (Ends.modify trivial)))

/-- A new routine is begun. Its prologue fits, and without one its code is still to come. -/
theorem ends_beginRoutine_stands (hr : u.routines[id]? = some r) (hblank : r.Blank)
    (hstarted : u.phase = .started) :
    Ends (beginRoutine id) u (fun _ v => r.attributes = none → v.StandsAt id r [])
      fun e _ => e.IsLimit := by
  refine Ends.bind (Ends.of_ok (getRoutine_eq hr) ?_)
  dsimp only
  rw [hblank.phase_eq]
  refine Ends.bind (Ends.of_ok (requirePhase_eq hstarted) ?_)
  refine Ends.bind (Ends.modify (Ends.bind (Ends.modify ?_)))
  have hbegun : (u.withBegun id).routines[id]? = some { r with phase := .started } := by
    rw [withBegun, Array.getElem?_modify, if_pos rfl, hr, Option.map_some]
  refine Ends.bind (ends_onRoutine_of_some hbegun (Ends.modify ?_))
  have hopened := getElem?_putBack (s := ⟨{ r.assembler with isOpen := true }, u.symbols⟩) hbegun
  cases ha : r.attributes with
  | none => exact fun _ => ⟨_, hopened, rfl, hblank.stands⟩
  | some a =>
    have hprologue : Limited (Emit.prologue a r.layout r.scopeSize)
        ⟨{ r.assembler with isOpen := true }, u.symbols⟩ :=
      Emit.limited_prologue hblank.typed.callee hblank.typed.parentScope hblank.stands
    refine Ends.bind (ends_onRoutine_of_some hopened (hprologue.mono ?_ fun _ _ he => he))
    intro layout s _
    refine Ends.modify ?_
    rintro ⟨⟩

/-- **A routine is opened for any analysed function** whose attributes agree with each other. -/
theorem limited_openFunction {f : Function} {a : Attributes} (hstarted : u.phase = .started)
    (ha : f.attributes = .ok a) (hrules : a.violated? = none) : Limited (openFunction f) u := by
  refine Ends.bind (ends_ofExcept ?_ fun b hb => ?_)
  · intro e he
    cases ha.symm.trans he
  obtain rfl : a = b := Except.ok.inj (ha.symm.trans hb)
  refine Ends.bind (Ends.of_ok (requirePhase_eq hstarted) ?_)
  rw [hrules]
  refine Ends.bind (Ends.get (Ends.bind (ends_ofExcept ?_ fun r hr => ?_)))
  · exact fun _ he => Routine.isLimit_of_ofFunction he
  -- the name was chosen so that the identity is free
  have hfree : r.identity ∉ u.identities := by
    obtain ⟨hname, hsignature⟩ := Prod.mk.inj (Routine.titled_of_ofFunction hr)
    obtain ⟨k, hk, hfree, -⟩ := u.exists_uniqueName f.routineName
      (Signature.ofAttributes a f.params.length).descriptor
    rwa [Routine.identity, hname, hsignature, hk]
  refine (ends_add.limited (limited_add hfree)).next ?_
  rintro id _ ⟨rfl, -, rfl⟩
  have hnew : (u.withRoutine r).routines[u.routines.size]? = some r := by simp [withRoutine]
  exact (ends_beginRoutine_stands hnew (Routine.blank_ofFunction hr) hstarted).next
    fun _ _ _ => trivial

/-- **A routine with complete code is ended.** -/
theorem limited_endRoutine (hguard : u.Guards id) (hr : u.routines[id]? = some r)
    (hphase : r.phase = .started) (hfinish : Succeeds r.assembler.finish) :
    Limited (endRoutine id) u := by
  refine ends_endRoutine_of ?_ fun r' record context hr' hphase' _ _ => ?_
  · exact fun e he => Routine.isLimit_of_record hfinish (he r hr hphase)
  · -- the record is kept, since the unit knows the routine as open
    have hopen := hguard r' hr' hphase'
    exact ends_keep_of (fun hnot => absurd hopen hnot) fun _ _ => trivial

/-! ### Synthesized code -/

theorem ends_emission_standsAt (h : u.StandsAt id r types)
    (heffect : ∀ symbol, HasEffect r.assembler.locals r.signature.result e.memberType?
      (e.instruction types r.signature.result symbol) types after)
    (hplain : ∀ symbol, (e.instruction types r.signature.result symbol).target? = none ∧
      (e.instruction types r.signature.result symbol).op.isTerminal = false) :
    Ends (emission id e) u (fun _ v => v.StandsAt id r after) fun e _ => e.IsLimit := by
  obtain ⟨r', hr', hlayout, hstands⟩ := h
  refine ends_onRoutine_of_some hr' ?_
  refine (Emit.ends_emission_stands hstands heffect hplain).mono ?_ fun _ _ he => he
  intro _ s hs
  exact ⟨_, getElem?_putBack hr', hlayout, hs⟩

theorem ends_emission_finishesAt (h : u.StandsAt id r types)
    (heffect : ∀ symbol, HasEffect r.assembler.locals r.signature.result e.memberType?
      (e.instruction types r.signature.result symbol) types after)
    (hlast : ∀ symbol, (e.instruction types r.signature.result symbol).target? = none ∧
      (e.instruction types r.signature.result symbol).op.isTerminal = true) :
    Ends (emission id e) u (fun _ v => v.FinishesAt id) fun e _ => e.IsLimit := by
  obtain ⟨r', hr', -, hstands⟩ := h
  refine ends_onRoutine_of_some hr' ?_
  refine (Emit.ends_emission_finish hstands heffect hlast).mono ?_ fun _ _ he => he
  intro _ s hs
  exact ⟨_, getElem?_putBack hr', hs⟩

theorem paramSlot_eq_ofExcept (hr : u.routines[id]? = some r) (index : Nat) :
    paramSlot id index u = (ofExcept (r.paramSlot index) : Build UInt16) u := by
  simp only [paramSlot, bind, EStateM.bind, getRoutine_eq hr]

theorem paramSlot_eq {index : Nat} {slot : UInt16} (h : u.StandsAt id r types)
    (hslot : r.layout.params[index]? = some slot) : paramSlot id index u = .ok slot u := by
  obtain ⟨r', hr', hlayout, -⟩ := h
  rw [paramSlot_eq_ofExcept hr', Routine.paramSlot, hlayout, hslot]
  rfl

/-- The array of constants and the index in a parameter come before what is done with them. -/
theorem ends_loadIndex {slot : UInt16} {next : Unit → Build Unit} {post : Unit → UnitBuilder → Prop}
    (hparam : r.layout.params[0]? = some slot)
    (hslot : r.assembler.locals.type? slot.toNat = some .int) (h : u.StandsAt id r [])
    (hnext : ∀ v, v.StandsAt id r [.int, .objectArray] →
      Ends (next ()) v post fun e _ => e.IsLimit) :
    Ends (do
        loadConstants id
        let slot ← paramSlot id 0
        let x ← emission id (.load .int slot)
        next x) u post fun e _ => e.IsLimit := by
  have hload : Ends (loadConstants id) u (fun _ v => v.StandsAt id r [.objectArray])
      fun e _ => e.IsLimit := by
    refine Ends.bind (Ends.get ?_)
    exact ends_emission_standsAt h (fun _ => .getStatic (by decide)) fun _ => ⟨rfl, rfl⟩
  refine hload.next fun _ v hv => ?_
  refine Ends.bind (Ends.of_ok (paramSlot_eq hv hparam) ?_)
  have hindex := ends_emission_standsAt (e := .load .int slot) hv (fun _ => .load hslot rfl)
    fun _ => ⟨rfl, rfl⟩
  exact hindex.next fun _ w hw => hnext w hw

/-- A constant is pushed at its type. -/
theorem ends_fetchConstant {type : ValueType} {slot : UInt16} (htype : type.isReference = true)
    (hparam : r.layout.params[0]? = some slot)
    (hslot : r.assembler.locals.type? slot.toNat = some .int) (h : u.StandsAt id r []) :
    Ends (fetchConstant type id) u (fun _ v => v.StandsAt id r [type]) fun e _ => e.IsLimit := by
  refine ends_loadIndex hparam hslot h fun v hv => ?_
  have hfetch := ends_emission_standsAt (e := .arrayLoad) hv
    (fun _ => .arrayLoad rfl rfl rfl) fun _ => ⟨rfl, rfl⟩
  refine hfetch.next fun _ w hw => ?_
  exact ends_emission_standsAt hw (fun _ => .checkCast htype rfl) fun _ => ⟨rfl, rfl⟩

end Build

/-! ### Accessors -/

namespace UnitBuilder

variable {u v : UnitBuilder}

/-- The unit is started, and all its routines have ended. -/
structure Settled (u : UnitBuilder) : Prop where
  phase_eq : u.phase = .started
  lifecycle : ∃ completed, u.Lifecycle completed
  ended : ∀ id < u.routines.size, u.routinePhase? id = some .ended

theorem Settled.openRoutines_eq (h : u.Settled) : u.openRoutines = [] := by
  obtain ⟨completed, hlife⟩ := h.lifecycle
  refine List.eq_nil_iff_forall_not_mem.mpr fun id hid => ?_
  have hstarted := (hlife.mem_open id).mp hid
  obtain ⟨r, hr, -⟩ := Option.map_eq_some_iff.mp hstarted
  -- the routine would have ended
  rw [h.ended id (Array.getElem?_eq_some_iff.mp hr).1] at hstarted
  cases hstarted

/-- The identities that are taken are those of ended routines. -/
theorem Settled.mem_identities (h : u.Settled) (x : Text) :
    x ∈ u.identities ↔ x ∈ u.entryPoints := by
  obtain ⟨completed, hlife⟩ := h.lifecycle
  have hrecords := map_of_records (fun _ _ hrecord => hrecord.identity_eq) hlife.records
  have hentry : x ∈ u.entryPoints ↔ some x ∈ u.entryPoints.map some :=
    (List.mem_map_of_injective (Option.some_injective _)).symm
  rw [hlife.mem_identities, hentry, entryPoints, ← hrecords, List.mem_map, List.mem_iff_getElem?]
  simp only [getElem?_known]
  constructor
  · rintro ⟨id, hid⟩
    obtain ⟨r, hr, -⟩ := Option.map_eq_some_iff.mp hid
    have hended := h.ended id (Array.getElem?_eq_some_iff.mp hr).1
    exact ⟨id, (hlife.mem_completed id).mpr hended, hid⟩
  · rintro ⟨id, -, hid⟩
    exact ⟨id, hid⟩

theorem Supplies.settled {count : Nat} (h : u.Supplies count v) (hu : u.Settled) : v.Settled := by
  obtain ⟨completed, hlife⟩ := hu.lifecycle
  have hlife' := hlife.moves h.moves
  refine ⟨?_, ⟨_, hlife'⟩, fun id hid => ?_⟩
  · obtain ⟨_, _, _, _, _, _, rfl⟩ := h.moves.frame
    exact hu.phase_eq
  · -- an old routine had ended before, and the new ones have ended one after the other
    rw [← hlife'.mem_completed, List.mem_append, List.mem_range'_1]
    by_cases hold : id < u.routines.size
    · exact .inl ((hlife.mem_completed id).mpr (hu.ended id hold))
    · rw [h.size_eq] at hid
      exact .inr ⟨Nat.le_of_not_lt hold, hid⟩

/-- The identity of a routine with the given name and descriptor. -/
def identityOf (member : Text × Text) : Text := member.1 ++ member.2

theorem entryPoints_eq (u : UnitBuilder) : u.entryPoints = u.members.map identityOf := by
  rw [entryPoints, members, List.map_map]
  rfl

end UnitBuilder

namespace Build

open UnitBuilder

variable {u : UnitBuilder} {flags : List Flag} {name : Text} {signature : Signature}
  {code : Nat → Build Unit} {r : Routine} {type : ValueType} {types : List ValueType}

/-- A routine is synthesized under a free name when its code fits. -/
theorem limited_synthesize (hu : u.Settled)
    (hr : Routine.synthetic (Flags.ofList flags) name signature = .ok r)
    (hfree : name ++ signature.descriptor ∉ u.entryPoints) (hemits : ∀ id, Emits id (code id))
    (hcode : ∀ id v, v.StandsAt id r [] →
      Ends (code id) v (fun _ w => w.FinishesAt id) fun e _ => e.IsLimit) :
    Limited (synthesize flags name signature code) u := by
  obtain ⟨hname, hsignature⟩ := Routine.named_of_synthetic hr
  obtain ⟨hblank, hattributes⟩ := Routine.blank_synthetic hr
  have hidentity : r.identity ∉ u.identities := by
    rwa [hu.mem_identities, Routine.identity, hname, hsignature]
  have hroutine : Limited (routine (Flags.ofList flags) name signature) u := by
    refine Ends.bind (Ends.of_ok (requirePhase_eq hu.phase_eq) ?_)
    rw [hr]
    exact limited_add hidentity
  refine (ends_routine_synthetic.limited hroutine).next ?_
  rintro id v ⟨rfl, -, r', hr', -, rfl⟩
  obtain rfl : r = r' := Except.ok.inj (hr.symm.trans hr')
  have hnew : (u.withRoutine r).routines[u.routines.size]? = some r := by simp [withRoutine]
  have hbegin := ends_beginRoutine.and (ends_beginRoutine_stands hnew hblank hu.phase_eq)
  refine Ends.bind (hbegin.mono ?_ fun _ _ he => he.2)
  rintro - w ⟨hw, hstands⟩
  -- the routine stays begun while its code is emitted
  have hworks : Keeps (Begins u.routines.size (u.withRoutine r)) (fun _ => True)
      (code u.routines.size) := by
    refine hemits _ _ _ (fun _ _ => trivial) fun e w hw => ?_
    exact (ends_onRoutine_works _).mono (fun _ _ hx => hw.work hx) fun _ _ _ => trivial
  have hends := (hworks w hw).and (hcode _ w (hstands hattributes))
  refine Ends.bind (hends.mono ?_ fun _ _ he => he.2)
  rintro - x ⟨hx, r', hr', hfinish⟩
  have hphase := hx.routinePhase?_eq
  rw [routinePhase?_of_some hr'] at hphase
  exact limited_endRoutine hx.guards hr' (Option.some.inj hphase) hfinish

/-- The accessor of a type is synthesized, whatever is done with the constant that it fetches. -/
theorem limited_getter (hstatic : (Flags.ofList flags).has .isStatic = true)
    (htype : type.isPoolable = true) (hu : u.Settled)
    (hfree : ∀ member ∈ Pool.getter type, identityOf member ∉ u.entryPoints)
    (hemits : ∀ id, Emits id (code id))
    (hcode : ∀ (r : Routine) id v, r.signature.result = type → v.StandsAt id r [type] →
      Ends (code id) v (fun _ w => w.FinishesAt id) fun e _ => e.IsLimit) :
    Limited (do
      let name ← ofExcept (Pool.accessorName type)
      let signature ← ofExcept (Pool.accessorSignature type)
      synthesize flags name signature fun id => do
        fetchConstant type id
        code id) u := by
  obtain ⟨name, hname, hsignature⟩ := Pool.exists_accessor htype
  have hgetter : Pool.getter type =
      [(name, Signature.descriptor { result := type, params := [.int] })] := by
    rw [Pool.getter, hname, hsignature]
  rw [hname, hsignature]
  -- the index is the only parameter, in the first slot
  let locals : Locals := Locals.define {} .int
  let r : Routine := {
    flags := Flags.ofList flags
    name
    signature := { result := type, params := [.int] }
    function := name
    layout := { params := [0] }
    assembler := { Assembler.new name type with locals } }
  have hr : Routine.synthetic (Flags.ofList flags) name { result := type, params := [.int] } =
      .ok r := by
    unfold Routine.synthetic Define.synthetic
    rw [hstatic]
    rfl
  have hreference : type.isReference = true := by
    cases type <;> first | rfl | cases htype
  have hfetches : ∀ id, Emits id (do fetchConstant type id; code id) := fun id =>
    (emits_fetchConstant type id).bind fun _ => hemits id
  refine limited_synthesize hu hr ?_ hfetches fun id v hv => ?_
  · exact hfree (name, _) (by rw [hgetter]; exact List.mem_singleton_self _)
  · have hparam : r.layout.params[0]? = some 0 := rfl
    have hfetch := ends_fetchConstant hreference hparam rfl hv
    exact hfetch.next fun _ w hw => hcode r id w rfl hw

/-- Code ends by returning the value on the stack. -/
theorem ends_returnValue {id : Nat} (hresult : r.signature.result ≠ .void)
    (h : u.StandsAt id r [r.signature.result]) :
    Ends (emission id .returnValue) u (fun _ v => v.FinishesAt id) fun e _ => e.IsLimit := by
  have hself : r.signature.result.isAssignable r.signature.result = true := by
    simp [ValueType.isAssignable]
  exact ends_emission_finishesAt h (fun _ => .returnValue hresult hself) fun _ => ⟨rfl, rfl⟩

/-- The accessor of strings or maps is added. -/
theorem limited_valueAccessor (hstatic : (Flags.ofList flags).has .isStatic = true)
    (htype : type.isPoolable = true) (hu : u.Settled)
    (hfree : ∀ member ∈ Pool.getter type, identityOf member ∉ u.entryPoints) :
    Limited (valueAccessor flags type) u := by
  refine limited_getter hstatic htype hu hfree (fun id => emits_emission id _) ?_
  rintro r id v rfl hv
  exact ends_returnValue (by rintro heq; rw [heq] at htype; cases htype) hv

/-- The accessor of an array type is added. -/
theorem limited_arrayAccessor (harray : type.isArray = true) (hu : u.Settled)
    (hfree : ∀ member ∈ Pool.getter type, identityOf member ∉ u.entryPoints) :
    Limited (arrayAccessor type) u := by
  have hpoolable : type.isPoolable = true := by
    cases type <;> first | rfl | cases harray
  have hwidth : type.width = 1 := by
    cases type <;> first | rfl | cases harray
  have hself : type.isAssignable type = true := by simp [ValueType.isAssignable]
  refine limited_getter (by decide) hpoolable hu hfree (fun id => ?_) ?_
  · refine (emits_emission id _).bind fun _ => (emits_emission id _).bind fun _ => ?_
    exact (emits_emission id _).bind fun _ => emits_emission id _
  rintro r id v rfl hv
  -- the array is copied by a helper that takes it with its length
  have hdup := ends_emission_standsAt (e := .dup) hv (fun _ => .dup hwidth) fun _ => ⟨rfl, rfl⟩
  refine hdup.next fun _ w hw => ?_
  have hlength := ends_emission_standsAt (e := .arrayLength) hw (fun _ => .arrayLength harray)
    fun _ => ⟨rfl, rfl⟩
  refine hlength.next fun _ x hx => ?_
  let copy : Signature := { result := r.signature.result, params := [r.signature.result, .int] }
  have hvoid : r.signature.result ≠ .void := ValueType.ne_void_of_isArray harray
  have hreturned : copy.returned = [r.signature.result] := if_neg hvoid
  have haccepts : copy.Accepts [.int, r.signature.result] := .cons rfl (.cons hself .nil)
  have hinvoke := ends_emission_standsAt (e := .invoke helperOwner "copyOf" copy) hx
    (fun _ => .invoke (s := []) haccepts) fun _ => ⟨rfl, rfl⟩
  rw [hreturned] at hinvoke
  exact hinvoke.next fun _ y hy => ends_returnValue hvoid hy

/-- The routine that replaces a map is added. -/
theorem limited_mapSetter (hu : u.Settled) (hfree : identityOf Pool.mapSetter ∉ u.entryPoints) :
    Limited mapSetter u := by
  have hr : ∃ r : Routine, Routine.synthetic (Flags.ofList [.isPublic, .isStatic]) "$setMap"
      { result := .void, params := [.int, .map] } = .ok r ∧ r.signature.result = .void ∧
        r.layout.params = [0, 1] ∧ r.assembler.locals = (Locals.define {} .int).define .map :=
    ⟨_, rfl, rfl, rfl, rfl⟩
  obtain ⟨r, hr, hresult, hparams, hlocals⟩ := hr
  refine limited_synthesize hu hr hfree (fun id => ?_) fun id v hv => ?_
  · refine (emits_loadConstants id).bind fun _ => (emits_paramSlot id 0).bind fun _ => ?_
    refine (emits_emission id _).bind fun _ => (emits_paramSlot id 1).bind fun _ => ?_
    refine (emits_emission id _).bind fun _ => (emits_emission id _).bind fun _ => ?_
    exact emits_emission id _
  have hindex : r.layout.params[0]? = some 0 := by rw [hparams]; rfl
  have hmap : r.layout.params[1]? = some 1 := by rw [hparams]; rfl
  refine ends_loadIndex hindex (by rw [hlocals]; rfl) hv fun w hw => ?_
  refine Ends.bind (Ends.of_ok (paramSlot_eq hw hmap) ?_)
  have hslot : r.assembler.locals.type? (1 : UInt16).toNat = some .map := by rw [hlocals]; rfl
  have hvalue := ends_emission_standsAt (e := .load .object 1) hw (fun _ => .load hslot rfl)
    fun _ => ⟨rfl, rfl⟩
  refine hvalue.next fun _ x hx => ?_
  have hstore := ends_emission_standsAt (e := .arrayStore) hx
    (fun _ => .arrayStore rfl rfl rfl rfl) fun _ => ⟨rfl, rfl⟩
  refine hstore.next fun _ y hy => ?_
  exact ends_emission_finishesAt hy (fun _ => .returnVoid hresult) fun _ => ⟨rfl, rfl⟩

theorem ends_valueAccessor_settled (hu : u.Settled) :
    Ends (valueAccessor flags type) u
      (fun _ v => v.Settled ∧ v.members = u.members ++ Pool.getter type) fun _ _ => True := by
  have hsupplies : Ends (valueAccessor flags type) u (fun _ v => u.Supplies 1 v)
      fun _ _ => True :=
    ends_valueAccessor_of (fun _ => trivial) fun _ _ _ _ _ hcode =>
      (ends_synthesize hcode).mono (fun _ _ hv => hv) fun _ _ _ => trivial
  refine (hsupplies.and ends_valueAccessor_members).mono ?_ fun _ _ _ => trivial
  rintro - v ⟨hv, hmembers⟩
  exact ⟨hv.settled hu, hmembers⟩

theorem ends_accessor_settled (type : ValueType) (hu : u.Settled) :
    Ends (accessor type) u
      (fun _ v => v.Settled ∧ v.members = u.members ++ Pool.accessorMembers type)
      fun _ _ => True := by
  have hsupplies := keeps_accessor_supplies u type u ⟨0, .refl u⟩
  refine (hsupplies.and (ends_accessor_members type)).mono ?_ fun _ _ _ => trivial
  rintro - v ⟨⟨count, hv⟩, hmembers⟩
  exact ⟨hv.settled hu, hmembers⟩

/-- The accessors of a type are added next to routines with other identities. -/
theorem limited_accessor (htype : type.isPoolable = true) (hu : u.Settled)
    (hnodup : ((u.members ++ Pool.accessorMembers type).map identityOf).Nodup) :
    Limited (accessor type) u := by
  have hgetter : ∀ member ∈ Pool.getter type, identityOf member ∉ u.entryPoints := by
    intro member hmember htaken
    rw [List.map_append, List.nodup_append', ← u.entryPoints_eq] at hnodup
    exact hnodup.2.2 htaken (List.mem_map_of_mem (List.mem_append_left _ hmember))
  unfold accessor
  split
  · exact (limited_valueAccessor (by decide) htype hu hgetter).bind fun _ _ _ => .of_ok rfl
  · have hvalue : Limited (valueAccessor [.isPublic, .isStatic] .map) u :=
      limited_valueAccessor (by decide) htype hu hgetter
    refine ((ends_valueAccessor_settled hu).limited hvalue).next ?_
    rintro - v ⟨hv, hmembers⟩
    -- the setter comes after the getter, and has another identity than all before it
    have hsetter : identityOf Pool.mapSetter ∉ v.entryPoints := by
      have hall : u.members ++ Pool.accessorMembers .map = v.members ++ [Pool.mapSetter] := by
        rw [hmembers, List.append_assoc]
        rfl
      rw [hall, List.map_append, List.nodup_append', ← v.entryPoints_eq] at hnodup
      exact fun htaken => hnodup.2.2 htaken (List.mem_singleton_self _)
    exact (limited_mapSetter hv hsetter).bind fun _ _ _ => .of_ok rfl
  · next hstring hmap =>
    have harray : type.isArray = true := by
      cases type with
      | string => exact absurd rfl hstring
      | map => exact absurd rfl hmap
      | intArray | longArray | numberArray | objectArray => rfl
      | _ => cases htype
    exact (limited_arrayAccessor harray hu hgetter).bind fun _ _ _ => .of_ok rfl

/-- **Accessors are added next to routines with other identities.** -/
theorem limited_accessors (htypes : ∀ t ∈ types, t.isPoolable = true) (hu : u.Settled)
    (hnodup : ((u.members ++ types.flatMap Pool.accessorMembers).map identityOf).Nodup) :
    Limited (types.forM accessor) u := by
  induction types generalizing u with
  | nil => exact .pure _
  | cons t types ih =>
    obtain ⟨ht, htypes⟩ := List.forall_mem_cons.mp htypes
    rw [List.flatMap_cons, ← List.append_assoc] at hnodup
    have hfirst : Limited (accessor t) u := by
      refine limited_accessor ht hu (hnodup.sublist ?_)
      exact (List.sublist_append_left _ _).map _
    refine ((ends_accessor_settled t hu).limited hfirst).next ?_
    rintro - v ⟨hv, hmembers⟩
    rw [← hmembers] at hnodup
    exact ih htypes hv hnodup

end Build

/-! ### The end of a unit -/

namespace UnitBuilder

/-- What the routines of a unit will be called when it has ended. -/
def allMembers (u : UnitBuilder) : List (Text × Text) :=
  u.members ++ u.pool.accessors.flatMap Pool.accessorMembers

/-- The end of the descriptor of a routine that returns an object. -/
def objectResult : Text := ")O"

/-- The routine of a function returns an object. -/
theorem objectResult_isSuffix (a : Attributes) (paramCount : Nat) :
    objectResult <:+ (Signature.ofAttributes a paramCount).descriptor := by
  have hend : objectResult = (")" : Text) ++ ValueType.object.descriptor := by decide
  rw [hend]
  refine ⟨"(" ++ (Signature.ofAttributes a paramCount).params.flatMap ValueType.descriptor, ?_⟩
  rw [← List.append_assoc]
  rfl

/-- **The identities of accessors are their own.** No accessor returns a mere object, and routines
that do have other descriptors. -/
theorem nodup_allMembers {u : UnitBuilder} (hu : u.Settled) (hpool : u.pool.Sound)
    (hobjects : ∀ member ∈ u.members, objectResult <:+ member.2) :
    (u.allMembers.map identityOf).Nodup := by
  have haccessors : u.pool.accessors.Sublist Pool.types := by
    rw [Pool.accessors_eq hpool]
    exact List.filter_sublist
  -- there are few accessors, so that they can be compared one by one
  have hsublist := (haccessors.flatMap Pool.accessorMembers).map identityOf
  have hdistinct : ((Pool.types.flatMap Pool.accessorMembers).map identityOf).Nodup := by decide
  have hother : ∀ x ∈ (Pool.types.flatMap Pool.accessorMembers).map identityOf,
      ¬ objectResult <:+ x := by decide
  obtain ⟨completed, hlife⟩ := hu.lifecycle
  rw [allMembers, List.map_append, List.nodup_append', ← u.entryPoints_eq]
  refine ⟨hlife.nodup_entryPoints, hdistinct.sublist hsublist, ?_⟩
  intro x hx haccessor
  rw [u.entryPoints_eq] at hx
  obtain ⟨member, hmember, rfl⟩ := List.mem_map.mp hx
  refine hother _ (hsublist.subset haccessor) ?_
  exact (hobjects member hmember).trans (List.suffix_append _ _)

/-- A sound unit is encoded unless a limit is exceeded, or there are too many records. -/
theorem Sound.encode_eq_error {u : UnitBuilder} {e : Error} (hu : u.Sound) (hpool : u.pool.Sound)
    (hfields : u.fields.toList.length ≤ 65535) (h : u.image.encode = .error e) :
    e.IsLimit ∨ 65535 < u.members.length ∧ e = .inconsistent (.tooMany .routines) := by
  rcases Image.encode_eq_error hpool.countable h with he | ⟨part, hcount, rfl⟩
  · exact .inl he
  -- symbols and constants are counted when they come in, and there are few fields
  cases part with
  | symbols =>
    replace hcount : 65535 < u.symbols.entries.length := hcount
    rw [u.symbols.length_entries] at hcount
    exact absurd hu.symbols.size_le (Nat.not_le.mpr hcount)
  | fields => exact absurd hfields (Nat.not_le.mpr hcount)
  | constants =>
    replace hcount : 65535 < u.pool.entries.length := hcount
    rw [u.pool.length_entries] at hcount
    exact absurd hpool.size_le (Nat.not_le.mpr hcount)
  | routines =>
    refine .inr ⟨?_, rfl⟩
    rw [members, List.length_map]
    exact hcount

end UnitBuilder

namespace Build

open UnitBuilder

variable {u : UnitBuilder}

/-- The accessors that were asked for are added, under the names that they are to have. -/
theorem ends_poolAccessors (hu : u.Settled) (hpool : u.pool.Sound)
    (hobjects : ∀ member ∈ u.members, objectResult <:+ member.2) :
    Ends (u.pool.accessors.forM accessor) u
      (fun _ v => (∃ count, u.Supplies count v) ∧ v.members = u.allMembers)
      fun e _ => e.IsLimit := by
  have htypes : ∀ t ∈ u.pool.accessors, t.isPoolable = true := by
    intro t ht
    rw [Pool.accessors_eq hpool] at ht
    have hall : ∀ t ∈ Pool.types, t.isPoolable = true := by decide
    exact hall t (List.mem_of_mem_filter ht)
  have hlimited := limited_accessors htypes hu (nodup_allMembers hu hpool hobjects)
  have hsupplies : Ends (u.pool.accessors.forM accessor) u (fun _ v => ∃ count, u.Supplies count v)
      fun _ v => ∃ ids, Moves u.routines.size u ids v :=
    Keeps.forM (keeps_accessor_supplies u) u ⟨0, .refl u⟩
  have hends := hsupplies.and (ends_accessors_members u.pool.accessors)
  exact (hends.limited hlimited).mono (fun _ _ hv => hv) fun _ _ he => he

/-- **Why a unit cannot be assembled**, when its routines have ended and return objects: a limit of
the format is exceeded, there are too many routines to encode, or a text that does not fit keeps the
unit from being accepted. -/
theorem ends_assemble_limited (hu : u.Settled) (hsound : u.Sound) (hpool : u.pool.Sound)
    (hfields : u.fields.toList.length ≤ 65535)
    (hobjects : ∀ member ∈ u.members, objectResult <:+ member.2) :
    Ends assemble u (fun _ _ => True) fun e _ => e.IsLimit ∨
      65535 < u.allMembers.length ∧ e = .inconsistent (.tooMany .routines) ∨
      (∃ c ∈ u.pool.entries, ¬ c.TextsFit) ∧ e.kind = .verification := by
  have hsafe : Ends (u.pool.accessors.forM accessor) u (fun _ => u.Evolves) fun _ => u.Evolves :=
    Keeps.forM (fun t => (safe_accessor t).keeps u) u (.refl hsound)
  refine Ends.bind (Ends.get (Ends.bind ?_))
  refine ((ends_poolAccessors hu hpool hobjects).and hsafe).mono ?_ fun _ _ he => .inl he.1
  rintro - v ⟨⟨⟨count, hsupplies⟩, hmembers⟩, hevolves⟩
  have hv := hevolves.sound
  -- accessors change neither the fields nor the constants
  have hframe : v.pool = u.pool ∧ v.fields = u.fields := by
    obtain ⟨_, _, _, _, _, _, rfl⟩ := hsupplies.moves.frame
    exact ⟨rfl, rfl⟩
  rw [← hframe.1] at hpool ⊢
  rw [← hframe.2] at hfields
  refine Ends.bind (Ends.get (Ends.bind (ends_ofExcept ?_ fun bytes hbytes => ?_)))
  · intro e he
    rw [← hmembers]
    exact (hv.encode_eq_error hpool hfields he).imp_right .inl
  · split
    · -- what was encoded is accepted, if its texts fit
      refine Ends.bind (Ends.map (ends_ofExcept ?_ fun _ _ => trivial))
      intro e he
      refine .inr (.inr ⟨?_, Image.kind_of_verify he⟩)
      by_contra! htexts
      cases ((hv.verify_image_iff hbytes).mpr htexts).symm.trans he
    · trivial

/-- **Why a unit cannot be ended**, when its routines have ended and return objects. -/
theorem ends_finish_limited (hu : u.Settled) (hsound : u.Sound) (hpool : u.pool.Sound)
    (hfields : u.fields.toList.length ≤ 65535)
    (hobjects : ∀ member ∈ u.members, objectResult <:+ member.2) :
    Ends finish u (fun _ v => v.phase = .ended) fun e _ => e.IsLimit ∨
      65535 < u.allMembers.length ∧ e = .inconsistent (.tooMany .routines) ∨
      (∃ c ∈ u.pool.entries, ¬ c.TextsFit) ∧ e.kind = .verification := by
  refine Ends.bind (Ends.of_ok (requirePhase_eq hu.phase_eq) (Ends.bind (Ends.get ?_)))
  rw [hu.openRoutines_eq]
  -- a unit that cannot be assembled fails as assembling it does
  refine Ends.bind (ends_attempt ?_)
  have hassemble := ends_assemble_limited hu hsound hpool hfields hobjects
  refine hassemble.mono ?_ fun _ _ he => he
  intro bytes v _
  exact Ends.bind (Ends.modify (Ends.bind (Ends.get (Ends.bind (Ends.modify rfl)))))

end Build

end Bytecode
