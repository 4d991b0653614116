import Mathlib
import Bytecode.Proofs.Unit.Lifecycle
import Bytecode.Proofs.Unit.Progress

/-!
# Opening a routine for a function

Opening a routine is all or nothing. The routine is added to the unit before its prologue is
written, and a prologue that failed would leave it open for good. But it cannot fail: the
parameters of a function take one slot each and one byte or two of the descriptor, which has three
more bytes and no more than 65535 in all. So there is room for the two locals of the prologue, with
one slot to spare.

## Main definitions

* `Define.Grants`: locals that are defined when there is room for them
* `UnitBuilder.Openable`: what is checked before a routine is opened
* `UnitBuilder.Opened`: the unit with the new routine

## Main results

* `Signature.paramSlots_lt_descriptor`: the slots of the parameters against the descriptor
* `Build.ends_beginRoutine_new`: a new routine is begun
* `Build.ends_openRoutine_made`: a routine is made for a function, and its prologue is written
* `Build.openRoutine_allOrNothing`: a routine is opened exactly if it can be, and nothing happens
  otherwise
-/

namespace Bytecode

/-! ### Room for locals -/

theorem slotsOf_append (types more : List ValueType) :
    slotsOf (types ++ more) = slotsOf types + slotsOf more := by
  induction types with
  | nil => simp [slotsOf]
  | cons t types ih =>
    have hcons : ∀ rest, slotsOf (t :: rest) = t.width + slotsOf rest := fun _ => rfl
    rw [List.cons_append, hcons, hcons, ih, Nat.add_assoc]

namespace Define

variable {α β : Type} {m : Define α} {f : α → Define β} {types more : List ValueType}

/-- A step that defines locals of the given types when there is room for them. -/
def Grants (m : Define α) (types : List ValueType) : Prop :=
  ∀ a : Assembler, a.locals.slots + slotsOf types ≤ 65535 → Succeeds (m a)

theorem Grants.pure (x : α) : Grants (Pure.pure x) [] := fun a _ => ⟨(x, a), rfl⟩

theorem Grants.bind (hm : Grants m types) (hdefines : Defines m types)
    (hf : ∀ x, Grants (f x) more) : Grants (m >>= f) (types ++ more) := by
  intro a hroom
  rw [slotsOf_append] at hroom
  obtain ⟨⟨x, b⟩, hx⟩ := hm a (by omega)
  -- the first step has taken its slots, and the rest is left for the second one
  obtain ⟨hvoid, rfl⟩ := hdefines a x b hx
  have hslots : (a.locals.defineAll types).slots = a.locals.slots + slotsOf types :=
    Locals.slots_defineAll hvoid
  obtain ⟨y, hy⟩ := hf x { a with locals := a.locals.defineAll types } (by rw [hslots]; omega)
  refine ⟨y, ?_⟩
  change (m a >>= fun p => f p.1 p.2) = _
  rw [hx]
  exact hy

theorem grants_slot {t : ValueType} (ht : t ≠ .void) : Grants (slot t) [t] := by
  intro a hroom
  have hsum : slotsOf [t] = t.width := by simp [slotsOf]
  rw [hsum] at hroom
  have hfits : ¬ 65535 < a.locals.slots + t.width := Nat.not_lt.mpr hroom
  simp [Succeeds, slot, Assembler.defineLocal, ht, hfits]

theorem grants_slotIf (wanted : Bool) {t : ValueType} (ht : t ≠ .void) :
    Grants (slotIf wanted t) (if wanted then [t] else []) := by
  cases wanted with
  | false => exact .pure none
  | true =>
    have h := (grants_slot ht).bind (defines_slot t) fun x => Grants.pure (some x)
    rwa [List.append_nil, bind_pure_comp] at h

theorem grants_mapM_slot (h : .void ∉ types) : Grants (types.mapM slot) types := by
  induction types with
  | nil => exact .pure []
  | cons t types ih =>
    rw [List.mem_cons, not_or] at h
    have hall := (grants_slot (Ne.symm h.1)).bind (defines_slot t) fun x =>
      (ih h.2).bind (defines_mapM_slot types) fun xs => Grants.pure (x :: xs)
    rwa [List.append_nil, ← List.mapM_cons] at hall

/-- The locals of a routine for a function are defined when there is room for its parameters. -/
theorem grants_function (a : Attributes) (paramCount : Nat) :
    Grants (function a paramCount) (Signature.ofAttributes a paramCount).params := by
  unfold function Signature.ofAttributes
  simp only [List.append_assoc]
  refine (grants_slotIf _ (by decide)).bind (defines_slotIf _ _) fun callee => ?_
  refine (grants_slotIf _ (by decide)).bind (defines_slotIf _ _) fun parentScope => ?_
  refine (grants_slot (by decide)).bind (defines_slot _) fun receiver => ?_
  -- parameters are either one array or a slot each
  cases a.isVarArg with
  | true =>
    exact (grants_slotIf true (by decide)).bind (defines_slotIf true .objectArray) fun _ => .pure _
  | false =>
    refine (grants_slotIf false (by decide)).bind (defines_slotIf false .objectArray)
      fun varArgs => ?_
    have hvoid : .void ∉ List.replicate paramCount ValueType.object := by simp
    have hparams := (grants_mapM_slot hvoid).bind (defines_mapM_slot _) fun params =>
      Grants.pure ({ callee, parentScope, receiver := some receiver, varArgs, params } : Layout)
    rw [List.append_nil] at hparams
    exact hparams

end Define

/-- A type that is no wider than its code. -/
theorem slotsOf_le_length {types : List ValueType}
    (h : ∀ t ∈ types, t.width ≤ t.descriptor.length) :
    slotsOf types ≤ (types.flatMap ValueType.descriptor).length := by
  induction types with
  | nil => exact le_rfl
  | cons t types ih =>
    rw [List.forall_mem_cons] at h
    have hsum : slotsOf (t :: types) = t.width + slotsOf types := rfl
    rw [hsum, List.flatMap_cons, List.length_append]
    exact Nat.add_le_add h.1 (ih h.2)

/-- No parameter of a function is two slots wide. -/
theorem Signature.mem_params_ofAttributes {a : Attributes} {paramCount : Nat} {t : ValueType}
    (ht : t ∈ (ofAttributes a paramCount).params) :
    t = .callee ∨ t = .scope ∨ t = .object ∨ t = .objectArray := by
  simp only [ofAttributes, List.mem_append, List.mem_singleton] at ht
  rcases ht with ((ht | ht) | ht) | ht
  · split at ht <;> simp_all
  · split at ht <;> simp_all
  · simp [ht]
  · split at ht
    · simp_all
    · simp [List.eq_of_mem_replicate ht]

/-- **The parameters of a function take fewer slots than its descriptor has bytes**, by three: two
parentheses and the code of the result. -/
theorem Signature.paramSlots_lt_descriptor (a : Attributes) (paramCount : Nat) :
    (ofAttributes a paramCount).paramSlots + 3 ≤
      (ofAttributes a paramCount).descriptor.length := by
  have hwidth : ∀ t ∈ (ofAttributes a paramCount).params, t.width ≤ t.descriptor.length := by
    intro t ht
    rcases mem_params_ofAttributes ht with rfl | rfl | rfl | rfl <;> decide
  have hslots := slotsOf_le_length hwidth
  have hopen : (Text.ofString "(").length = 1 := by decide
  have hclose : (Text.ofString ")").length = 1 := by decide
  have hresult : (ofAttributes a paramCount).result.descriptor.length = 1 := by
    show ValueType.object.descriptor.length = 1
    decide
  unfold descriptor paramSlots
  simp only [List.length_append, hopen, hclose, hresult]
  omega

/-! ### New routines -/

theorem Wire.lt_length_of_requireName {name function : Text} {e : Error}
    (h : Wire.requireName name function = .error e) : 65535 < name.length := by
  unfold Wire.requireName at h
  split at h
  · next hlong => exact hlong
  · cases h

namespace Routine

variable {r : Routine} {name function : Text} {a : Attributes} {paramCount scopeSize : Nat}

/-- What a routine for a function starts with. Its scope record is not too large. -/
theorem ofFunction_eq_ok (h : ofFunction name function a paramCount scopeSize = .ok r) :
    (scopeSize ≤ 65535 ∨ a.hasScopeBlock = false) ∧ r.attributes = some a ∧
      r.assembler.locals.slots = (Signature.ofAttributes a paramCount).paramSlots := by
  unfold ofFunction at h
  dsimp only at h
  split at h
  · cases h
  · next hscope =>
    obtain ⟨⟨layout, assembler⟩, hlayout, h⟩ := exists_of_except_bind h
    cases h
    obtain ⟨hvoid, rfl⟩ := Define.defines_function a paramCount _ _ _ hlayout
    refine ⟨?_, rfl, ?_⟩
    · by_cases hblock : a.hasScopeBlock = true
      · exact .inl (by simpa [hblock] using hscope)
      · exact .inr (by simpa using hblock)
    · exact (Locals.slots_defineAll hvoid).trans (Nat.zero_add _)

/-- A routine is made for a function when its scope record is not too large and there is room for
its parameters. -/
theorem succeeds_ofFunction (hscope : scopeSize ≤ 65535 ∨ a.hasScopeBlock = false)
    (hroom : (Signature.ofAttributes a paramCount).paramSlots ≤ 65535) :
    Succeeds (ofFunction name function a paramCount scopeSize) := by
  have hsmall : (a.hasScopeBlock && decide (65535 < scopeSize)) = false := by
    rcases hscope with hscope | hblock
    · simp [Nat.not_lt.mpr hscope]
    · simp [hblock]
  obtain ⟨⟨layout, assembler⟩, hlayout⟩ := Define.grants_function a paramCount
    (.new name (Signature.ofAttributes a paramCount).result) ((Nat.zero_add _).trans_le hroom)
  unfold ofFunction
  simp only [hsmall, Bool.false_eq_true, if_false]
  change Succeeds ((Define.function a paramCount).run _ >>= _)
  rw [StateT.run, hlayout]
  exact ⟨_, rfl⟩

end Routine

/-! ### Opening -/

/-- A change to the routine that was added last. -/
theorem modify_push_size {α : Type} (items : Array α) (x : α) (f : α → α) :
    (items.push x).modify items.size f = items.push (f x) := by
  refine Array.ext_getElem? fun k => ?_
  rw [Array.getElem?_modify, Array.getElem?_push, Array.getElem?_push]
  by_cases hk : k = items.size
  · simp [hk]
  · simp [hk, Ne.symm hk]

namespace UnitBuilder

/-- What is checked before a routine is opened for a function. -/
structure Openable (u : UnitBuilder) (name : Text) (a : Attributes) (paramCount scopeSize : Nat) :
    Prop where
  started : u.phase = .started
  agrees : a.violated? = none
  scope : scopeSize ≤ 65535 ∨ a.hasScopeBlock = false
  name_le :
    (u.uniqueName name (Signature.ofAttributes a paramCount).descriptor).length ≤ 65535
  descriptor_le : (Signature.ofAttributes a paramCount).descriptor.length ≤ 65535

/-- The unit with one more routine, which is started and open. Nothing else has changed. -/
structure Opened (u : UnitBuilder) (name : Text) (a : Attributes) (paramCount : Nat) (id : Nat)
    (r : Routine) (v : UnitBuilder) : Prop where
  id_eq : id = u.routines.size
  eq : v = { u with
    routines := u.routines.push r
    openRoutines := id :: u.openRoutines
    identities := u.identities.insert r.identity }
  phase_eq : r.phase = .started
  attributes_eq : r.attributes = some a
  name_eq : r.name = u.uniqueName name (Signature.ofAttributes a paramCount).descriptor
  signature_eq : r.signature = Signature.ofAttributes a paramCount
  fresh : r.identity ∉ u.identities

end UnitBuilder

namespace Build

open UnitBuilder

variable {u : UnitBuilder} {r : Routine}

/-- A routine with a free identity is added unless its name or its descriptor is too long. -/
theorem ends_add_free (hfree : r.identity ∉ u.identities) :
    Ends (add r) u
      (fun id v => id = u.routines.size ∧ v = u.withRoutine r ∧ r.name.length ≤ 65535 ∧
        r.signature.descriptor.length ≤ 65535)
      fun _ v => v = u ∧ (65535 < r.name.length ∨ 65535 < r.signature.descriptor.length) := by
  refine Ends.bind (ends_ofExcept ?_ fun _ hname => ?_)
  · exact fun _ he => ⟨rfl, .inl (Wire.lt_length_of_requireName he)⟩
  refine Ends.bind (ends_ofExcept ?_ fun _ hdescriptor => ?_)
  · exact fun _ he => ⟨rfl, .inr (Wire.lt_length_of_requireName he)⟩
  refine Ends.bind (Ends.get ?_)
  split
  · next htaken => exact absurd (Std.TreeSet.mem_iff_contains.mpr htaken) hfree
  · refine Ends.bind (Ends.get (Ends.bind (Ends.modify ⟨rfl, rfl, ?_, ?_⟩)))
    · exact Wire.length_le_of_requireName hname
    · exact Wire.length_le_of_requireName hdescriptor

/-- **A new routine is begun** when there is room for two locals besides its parameters: its
prologue is written, without any symbol. -/
theorem ends_beginRoutine_new {a : Attributes} (hstarted : u.phase = .started) (hblank : r.Blank)
    (ha : r.attributes = some a) (hroom : r.assembler.locals.slots + 2 ≤ 65535) :
    Ends (beginRoutine u.routines.size) (u.withRoutine r)
      (fun _ v => ∃ assembler layout,
        Emit.prologue a r.layout r.scopeSize ⟨{ r.assembler with isOpen := true }, u.symbols⟩ =
          .ok layout ⟨assembler, u.symbols⟩ ∧
        v = { u with
          routines := u.routines.push { r with phase := .started, assembler, layout }
          openRoutines := u.routines.size :: u.openRoutines
          identities := u.identities.insert r.identity })
      fun _ _ => False := by
  have hnew : (u.withRoutine r).routines[u.routines.size]? = some r := by simp [withRoutine]
  refine Ends.bind (Ends.of_ok (getRoutine_eq hnew) ?_)
  dsimp only
  rw [hblank.phase_eq]
  refine Ends.bind (Ends.of_ok (requirePhase_eq hstarted) ?_)
  refine Ends.bind (Ends.modify (Ends.bind (Ends.modify ?_)))
  have hbegun : ((u.withRoutine r).withBegun u.routines.size).routines[u.routines.size]? =
      some { r with phase := .started } := by
    rw [withBegun, Array.getElem?_modify, if_pos rfl, hnew, Option.map_some]
  refine Ends.bind (ends_onRoutine_of_some hbegun (Ends.modify ?_))
  have hopened := getElem?_putBack (s := ⟨{ r.assembler with isOpen := true }, u.symbols⟩) hbegun
  rw [ha]
  have hprologue := (Ends.self (Emit.prologue a r.layout r.scopeSize)
    ⟨{ r.assembler with isOpen := true }, u.symbols⟩).and
      (Emit.ends_prologue hblank.typed.callee hblank.typed.parentScope hblank.stands)
  refine Ends.bind (ends_onRoutine_of_some hopened (hprologue.mono ?_ ?_))
  · rintro layout ⟨assembler, symbols⟩ ⟨hrun, -, -, -, hstanding⟩
    obtain rfl : symbols = u.symbols := hstanding.symbols_eq
    refine Ends.modify ⟨assembler, layout, hrun, ?_⟩
    -- all changes were made to the routine that was added last
    simp only [withRoutine, putBack, modify_push_size, ha]
  · rintro e s ⟨-, -, hcrowded⟩
    omega

/-- A routine is opened when it can be, and nothing happens otherwise. It is made for the function,
and its prologue is written. -/
theorem ends_openRoutine_made (u : UnitBuilder) (name : Text) (a : Attributes)
    (paramCount scopeSize : Nat) :
    Ends (openRoutine name a paramCount scopeSize) u
      (fun id v => u.Openable name a paramCount scopeSize ∧ ∃ r assembler layout,
        Routine.ofFunction (u.uniqueName name (Signature.ofAttributes a paramCount).descriptor) name
          a paramCount scopeSize = .ok r ∧
        Emit.prologue a r.layout r.scopeSize ⟨{ r.assembler with isOpen := true }, u.symbols⟩ =
          .ok layout ⟨assembler, u.symbols⟩ ∧
        u.Opened name a paramCount id { r with phase := .started, assembler, layout } v)
      fun _ v => ¬ u.Openable name a paramCount scopeSize ∧ v = u := by
  refine Ends.bind (ends_requirePhase ?_ fun hstarted => ?_)
  · exact fun hphase _ => ⟨fun h => hphase h.started, rfl⟩
  dsimp only
  split
  · next rule hrule =>
    refine Ends.bind (Ends.throw ⟨fun h => ?_, rfl⟩)
    rw [h.agrees] at hrule
    cases hrule
  · next hrule =>
    have hagrees : a.violated? = none := by
      cases hviolated : a.violated? with
      | none => rfl
      | some rule => exact absurd hviolated (hrule rule)
    have hslots := Signature.paramSlots_lt_descriptor a paramCount
    refine Ends.bind (Ends.get (Ends.bind (ends_ofExcept ?_ fun r hr => ?_)))
    · -- the routine cannot be made: its scope record or its descriptor is too large
      intro e he
      refine ⟨fun h => ?_, rfl⟩
      have hroom : (Signature.ofAttributes a paramCount).paramSlots ≤ 65535 := by
        have hdescriptor := h.descriptor_le
        omega
      obtain ⟨r, hr⟩ := Routine.succeeds_ofFunction h.scope hroom
      cases hr.symm.trans he
    · obtain ⟨hname, hsignature⟩ := Prod.mk.inj (Routine.titled_of_ofFunction hr)
      obtain ⟨hscope, hattributes, hlocals⟩ := Routine.ofFunction_eq_ok hr
      -- the name was chosen so that the identity is free
      have hfree : r.identity ∉ u.identities := by
        obtain ⟨k, hk, hfree, -⟩ := u.exists_uniqueName name
          (Signature.ofAttributes a paramCount).descriptor
        rwa [Routine.identity, hname, hsignature, hk]
      refine Ends.bind ((ends_add_free hfree).mono ?_ ?_)
      · rintro id _ ⟨rfl, rfl, hshort, hdescriptor⟩
        rw [hname] at hshort
        rw [hsignature] at hdescriptor
        have hroom : r.assembler.locals.slots + 2 ≤ 65535 := by omega
        have hbegin :=
          ends_beginRoutine_new hstarted (Routine.blank_ofFunction hr) hattributes hroom
        refine Ends.bind (hbegin.mono ?_ fun _ _ => False.elim)
        rintro - v ⟨assembler, layout, hprologue, hv⟩
        exact Ends.pure ⟨⟨hstarted, hagrees, hscope, hshort, hdescriptor⟩, r, assembler, layout, hr,
          hprologue, rfl, hv, rfl, hattributes, hname, hsignature, hfree⟩
      · rintro e _ ⟨rfl, hlong⟩
        refine ⟨fun h => ?_, rfl⟩
        rw [hname, hsignature] at hlong
        exact hlong.elim (Nat.not_lt.mpr h.name_le) (Nat.not_lt.mpr h.descriptor_le)

theorem ends_openRoutine_exact (u : UnitBuilder) (name : Text) (a : Attributes)
    (paramCount scopeSize : Nat) :
    Ends (openRoutine name a paramCount scopeSize) u
      (fun id v => u.Openable name a paramCount scopeSize ∧
        ∃ r, u.Opened name a paramCount id r v)
      fun _ v => ¬ u.Openable name a paramCount scopeSize ∧ v = u := by
  refine (ends_openRoutine_made u name a paramCount scopeSize).mono ?_ fun _ _ h => h
  rintro id v ⟨hopenable, r, assembler, layout, -, -, hopened⟩
  exact ⟨hopenable, _, hopened⟩

/-- **Opening a routine is all or nothing.** After any requests to a unit, granted or not: a routine
is opened exactly if the unit is started, the attributes agree with each other, and the scope
record, the chosen name and the descriptor are within the limits of the format. Then there is one
more routine, which is started and open, under an identity that no routine has had; and otherwise
the unit is as it was. In particular the prologue does not fail, which is written after the routine
was added. -/
theorem openRoutine_allOrNothing (context : Context) (unit source : Text) (strict : Bool)
    (requests : List UnitRequest) (name : Text) (a : Attributes) (paramCount scopeSize : Nat) :
    let u := (UnitBuilder.new context unit source strict).after requests
    ((∃ id v, openRoutine name a paramCount scopeSize u = .ok id v) ↔
        u.Openable name a paramCount scopeSize) ∧
      Ends (openRoutine name a paramCount scopeSize) u
        (fun id v => ∃ r, u.Opened name a paramCount id r v ∧ r.identity ∉ u.known)
        fun _ v => v = u := by
  intro u
  have hlife := (lifecycle_new context unit source strict).after requests
  have hexact := ends_openRoutine_exact u name a paramCount scopeSize
  refine ⟨⟨?_, ?_⟩, hexact.mono ?_ fun _ _ h => h.2⟩
  · rintro ⟨id, v, hrun⟩
    exact (hexact.ok hrun).1
  · intro hopenable
    cases hrun : openRoutine name a paramCount scopeSize u with
    | ok id v => exact ⟨id, v, rfl⟩
    | error e v => exact absurd hopenable (hexact.error hrun).1
  · rintro id v ⟨-, r, hopened⟩
    exact ⟨r, hopened, fun hknown => hopened.fresh ((hlife.mem_identities _).mpr hknown)⟩

end Build

end Bytecode
