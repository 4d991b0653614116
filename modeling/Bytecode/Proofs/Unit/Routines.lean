import Mathlib
import Bytecode.Proofs.Assembly.Progress
import Bytecode.Proofs.Image.Verification

/-!
# New routines

A routine starts with locals for its receiver and its parameters and with no code, so it is sound.
The parameters of a function follow from its attributes, and so do its first locals; the two lists
agree.

## Main definitions

* `Define.Defines`: a step that defines locals of given types

## Main results

* `Routine.sound_synthetic`: a routine with a given signature starts sound
* `Routine.sound_ofFunction`: a routine for a function starts sound
-/

namespace Bytecode

/-- The locals after more of them. -/
def Locals.defineAll (l : Locals) (types : List ValueType) : Locals := types.foldl Locals.define l

theorem Locals.slots_defineAll {l : Locals} {types : List ValueType} (h : .void ∉ types) :
    (l.defineAll types).slots = l.slots + slotsOf types := by
  induction types generalizing l with
  | nil => rfl
  | cons t types ih =>
    have ht : t ≠ .void := fun heq => h (heq ▸ List.mem_cons_self)
    have hrest : ((l.define t).defineAll types).slots = (l.define t).slots + slotsOf types :=
      ih fun hmem => h (List.mem_cons_of_mem t hmem)
    have hsum : slotsOf (t :: types) = t.width + slotsOf types := rfl
    rw [hsum, ← Nat.add_assoc, ← l.slots_define ht]
    exact hrest

namespace Define

variable {α β : Type} {m : Define α} {f : α → Define β} {types more : List ValueType}

/-- A step that, when it succeeds, defines locals of the given types, none of them void. -/
def Defines (m : Define α) (types : List ValueType) : Prop :=
  ∀ a x b, m a = .ok (x, b) →
    .void ∉ types ∧ b = { a with locals := a.locals.defineAll types }

theorem Defines.pure (x : α) : Defines (Pure.pure x) [] := by
  rintro a x b ⟨⟩
  exact ⟨List.not_mem_nil, rfl⟩

theorem Defines.bind (hm : Defines m types) (hf : ∀ x, Defines (f x) more) :
    Defines (m >>= f) (types ++ more) := by
  intro a y c h
  obtain ⟨⟨x, b⟩, hx, h⟩ := exists_of_except_bind h
  obtain ⟨htypes, rfl⟩ := hm a x b hx
  obtain ⟨hmore, rfl⟩ := hf x _ y c h
  refine ⟨by simp [htypes, hmore], ?_⟩
  simp only [Locals.defineAll, List.foldl_append]

theorem Defines.map (g : α → β) (hm : Defines m types) : Defines (g <$> m) types := by
  have h := hm.bind fun x => Defines.pure (g x)
  rwa [List.append_nil, bind_pure_comp] at h

theorem defines_slot (t : ValueType) : Defines (slot t) [t] := by
  intro a x b h
  unfold slot Assembler.defineLocal at h
  split at h
  · cases h
  · next hvoid =>
    split at h
    · cases h
    · cases h
      exact ⟨void_notMem_cons (by simpa using hvoid) List.not_mem_nil, rfl⟩

theorem defines_slotIf (wanted : Bool) (t : ValueType) :
    Defines (slotIf wanted t) (if wanted then [t] else []) := by
  cases wanted with
  | false => exact .pure none
  | true => exact (defines_slot t).map some

theorem defines_mapM_slot (types : List ValueType) : Defines (types.mapM slot) types := by
  induction types with
  | nil => exact .pure []
  | cons t types ih =>
    have h := (defines_slot t).bind fun x => ih.bind fun xs => Defines.pure (x :: xs)
    rwa [List.append_nil, ← List.mapM_cons] at h

/-- The locals of a routine with a given signature: its receiver and its parameters. -/
theorem defines_synthetic (flags : Flags) (signature : Signature) :
    Defines (synthetic flags signature)
      ((if !flags.has .isStatic then [.object] else []) ++ signature.params) := by
  have h := (defines_slotIf (!flags.has .isStatic) .object).bind fun receiver =>
    (defines_mapM_slot signature.params).bind fun params =>
      Defines.pure ({ receiver, params } : Layout)
  rwa [List.append_nil] at h

/-- The locals of a routine for a function are its parameters, in the order of its signature. -/
theorem defines_function (a : Attributes) (paramCount : Nat) :
    Defines (function a paramCount) (Signature.ofAttributes a paramCount).params := by
  unfold function Signature.ofAttributes
  simp only [List.append_assoc]
  refine (defines_slotIf _ _).bind fun callee => (defines_slotIf _ _).bind fun parentScope => ?_
  refine (defines_slot _).bind fun receiver => ?_
  -- parameters are either one array or a slot each
  cases a.isVarArg with
  | true => exact (defines_slotIf true .objectArray).bind fun varArgs => .pure _
  | false =>
    refine (defines_slotIf false .objectArray).bind fun varArgs => ?_
    have hparams := (defines_mapM_slot (List.replicate paramCount .object)).bind fun params =>
      Defines.pure ({ callee, parentScope, receiver := some receiver, varArgs, params } : Layout)
    rw [List.append_nil] at hparams
    exact hparams

end Define

theorem Assembler.WellFormed.defineAll {a : Assembler} (h : a.WellFormed)
    (types : List ValueType) : WellFormed { a with locals := a.locals.defineAll types } := by
  induction types generalizing a with
  | nil => exact h
  | cons t types ih => exact ih (h.defineLocal t)

namespace Routine

variable {r : Routine} {name function : Text} {signature : Signature} {symbolCount : Nat}

/-- A routine without code is sound when its locals hold its parameters. -/
theorem Sound.of_locals {types : List ValueType} (routine : Text)
    (hassembler : r.assembler =
      { routine, returnType := r.signature.result, locals := Locals.defineAll {} types })
    (hvoid : .void ∉ types) (hparams : r.signature.params ⊆ types)
    (hroom : r.signature.paramSlots + Image.receiverSlots r.flags = slotsOf types) :
    r.Sound symbolCount where
  wellFormed := by
    rw [hassembler]
    exact (Assembler.WellFormed.start routine r.signature.result false).defineAll types
  linked i hi := by
    rw [hassembler] at hi
    cases hi
  result_eq := by rw [hassembler]
  noVoid hmem := hvoid (hparams hmem)
  room := by
    rw [hassembler, Locals.slots_defineAll hvoid, hroom]
    exact Nat.le_add_left _ _

/-- A routine with a given signature starts sound. -/
theorem sound_synthetic {flags : Flags} (h : synthetic flags name signature = .ok r) :
    r.Sound symbolCount ∧ r.phase = .notStarted := by
  obtain ⟨⟨layout, assembler⟩, hlayout, h⟩ := exists_of_except_bind h
  cases h
  obtain ⟨hvoid, hassembler⟩ := Define.defines_synthetic flags signature _ _ _ hlayout
  refine ⟨.of_locals name hassembler hvoid (List.subset_append_right _ _) ?_, rfl⟩
  cases hstatic : flags.has .isStatic with
  | true => simp [Image.receiverSlots, hstatic, Signature.paramSlots]
  | false =>
    have hslots : slotsOf (.object :: signature.params) = 1 + slotsOf signature.params := rfl
    simp [Image.receiverSlots, hstatic, Signature.paramSlots, hslots, Nat.add_comm]

/-- A routine for a function starts sound. -/
theorem sound_ofFunction {a : Attributes} {paramCount scopeSize : Nat}
    (h : ofFunction name function a paramCount scopeSize = .ok r) :
    r.Sound symbolCount ∧ r.phase = .notStarted := by
  unfold ofFunction at h
  dsimp only at h
  split at h
  · cases h
  · obtain ⟨⟨layout, assembler⟩, hlayout, h⟩ := exists_of_except_bind h
    cases h
    obtain ⟨hvoid, hassembler⟩ := Define.defines_function a paramCount _ _ _ hlayout
    refine ⟨.of_locals name hassembler hvoid (List.Subset.refl _) ?_, rfl⟩
    -- a routine for a function is static: its receiver is one of the parameters
    have hstatic : (functionFlags a).has .isStatic = true := by
      unfold functionFlags
      cases a.isVarArg <;> decide
    simp [Image.receiverSlots, hstatic, Signature.paramSlots]

end Routine

end Bytecode
