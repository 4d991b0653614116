import Mathlib
import Bytecode.Proofs.Assembly.Effects
import Bytecode.Proofs.Assembly.Patching

/-!
# Well-formed assemblies

What holds of the code of a routine at every moment of its assembly, also after requests that
failed. Every instruction has an effect on some stack; every jump goes to a label of the routine;
every bound label stands before an instruction, or at the end of code that control can reach; code
whose end cannot be reached ends in a jump or a return; and the bytes are those of the instructions,
up to the offsets that are still missing.

## Main definitions

* `Request`: what can be asked of an assembler
* `Assembler.WellFormed`: what every request keeps

## Main results

* `Emit.ends_request_wellFormed`: a request keeps an assembler well formed, whichever way it ends
* `Assembler.WellFormed.complete`: completing the code keeps it well formed
-/

namespace Bytecode

/-- What can be asked of an assembler. -/
inductive Request
  | openCode
  | close
  | defineLocal (type : ValueType)
  | newLabel
  | bind (label : Nat)
  | emission (e : Emission)
  deriving DecidableEq, Repr

/-- The effect of a request. -/
def Emit.request : Request → Emit Unit
  | .openCode => openCode
  | .close => close
  | .defineLocal type => discard (defineLocal type)
  | .newLabel => discard newLabel
  | .bind label => bind label
  | .emission e => emission e

theorem getElem?_push_of_some {α : Type} {items : Array α} {i : Nat} {x new : α}
    (h : items[i]? = some x) : (items.push new)[i]? = some x := by
  obtain ⟨hlt, -⟩ := Array.getElem?_eq_some_iff.mp h
  rw [Array.getElem?_push_lt hlt, ← h, Array.getElem?_eq_getElem hlt]

theorem getElem?_push_cases {α : Type} {items : Array α} {i : Nat} {x new : α}
    (h : (items.push new)[i]? = some x) : items[i]? = some x ∨ i = items.size ∧ x = new := by
  rw [Array.getElem?_push] at h
  split at h
  · next hi => exact .inr ⟨hi, (Option.some.inj h).symm⟩
  · exact .inl h

namespace Assembler

theorem getElem?_labelsAfter (a : Assembler) (i : Instruction Nat) (types : List ValueType)
    (label : Nat) : (a.labelsAfter i types)[label]? =
      a.labels[label]?.map fun l => if i.target? = some label then l.joined types else l := by
  unfold labelsAfter
  split
  · next hi => simp [hi]
  · next target hi =>
    rw [Array.getElem?_modify, hi]
    split
    · next heq => simp [heq]
    · next hne => simp [hne]

/-- A jump does not bind a label. -/
theorem offset_labelsAfter {a : Assembler} {i : Instruction Nat} {types : List ValueType}
    {label o : Nat} {l' : LabelState} (hl' : (a.labelsAfter i types)[label]? = some l')
    (ho : l'.offset = some o) : ∃ l, a.labels[label]? = some l ∧ l.offset = some o := by
  rw [getElem?_labelsAfter] at hl'
  obtain ⟨l, hl, rfl⟩ := Option.map_eq_some_iff.mp hl'
  refine ⟨l, hl, ?_⟩
  split at ho <;> exact ho

/-- An instruction leaves bound labels where they are. -/
theorem offset?_emitted (a : Assembler) (i : Instruction Nat) (stack : OperandStack) (label : Nat) :
    (a.emitted i stack).offset? label = a.offset? label := by
  rw [offset?, emitted, getElem?_labelsAfter, offset?]
  cases a.labels[label]? with
  | none => rfl
  | some l =>
    rw [Option.map_some, Option.bind_some, Option.bind_some]
    split <;> rfl

/-- A new label is bound nowhere, as if it were not there. -/
theorem offset?_push (a : Assembler) (label : Nat) :
    ({ a with labels := a.labels.push {} } : Assembler).offset? label = a.offset? label := by
  rw [offset?, Array.getElem?_push, offset?]
  split
  · next hlast =>
    rw [hlast, Array.getElem?_size]
    rfl
  · rfl

@[simp] theorem labels_emitted (a : Assembler) (i : Instruction Nat) (stack : OperandStack) :
    (a.emitted i stack).labels = a.labelsAfter i stack.types := rfl

@[simp] theorem instructions_emitted (a : Assembler) (i : Instruction Nat) (stack : OperandStack) :
    (a.emitted i stack).instructions = a.instructions ++ [i] := a.instructions_append i

@[simp] theorem size_emitted (a : Assembler) (i : Instruction Nat) (stack : OperandStack) :
    (a.emitted i stack).size = a.size + i.size := a.size_append i

/-- What every request keeps. -/
structure WellFormed (a : Assembler) : Prop where
  noVoid : .void ∉ a.stack.types
  whole : a.locals.Whole
  /-- Code whose end cannot be reached ends in a jump or a return. -/
  ended : a.reachable = false → ∃ i rest, a.newest = i :: rest ∧ i.op.isTerminal = true
  typable : ∀ i ∈ a.newest, ∃ member before after,
    HasEffect a.locals a.returnType member i before after
  targets : ∀ i ∈ a.newest, ∀ label, i.target? = some label →
    ∃ l, a.labels[label]? = some l ∧ l.referenced = true
  seen : ∀ (label : Nat) l, a.labels[label]? = some l → ∀ types, l.types = some types →
    .void ∉ types
  /-- A bound label stands before an instruction, or at the end of code that can be reached. -/
  bound : ∀ (label : Nat) l, a.labels[label]? = some l → ∀ o, l.offset = some o →
    Code.IsBoundary a.instructions o ∨ (a.reachable = true ∧ o = a.size)
  coded : a.Coded

/-- A fresh assembler is well formed. -/
theorem WellFormed.start (routine : Text) (returnType : ValueType) (isOpen : Bool) :
    WellFormed { routine, returnType, isOpen } where
  noVoid := List.not_mem_nil
  whole := .empty
  ended h := by cases h
  typable i hi := by cases hi
  targets i hi := by cases hi
  seen label l hl := by simp at hl
  bound label l hl := by simp at hl
  coded _ _ := rfl

namespace WellFormed

variable {a : Assembler}

/-- The stack may lose values, and code may be opened and closed, at any time. -/
theorem taken (h : a.WellFormed) {stack : OperandStack} (hsuffix : stack.types <:+ a.stack.types)
    (isOpen : Bool) : WellFormed { a with stack, isOpen } where
  noVoid hvoid := h.noVoid (hsuffix.subset hvoid)
  whole := h.whole
  ended := h.ended
  typable := h.typable
  targets := h.targets
  seen := h.seen
  bound := h.bound
  coded := h.coded.mono rfl rfl rfl fun _ _ ho => ho

theorem defineLocal (h : a.WellFormed) (t : ValueType) :
    WellFormed { a with locals := a.locals.define t } where
  noVoid := h.noVoid
  whole := h.whole.define t
  ended := h.ended
  typable i hi := by
    obtain ⟨member, before, after, heffect⟩ := h.typable i hi
    exact ⟨member, before, after, heffect.of_extends (a.locals.extends_define t)⟩
  targets := h.targets
  seen := h.seen
  bound := h.bound
  coded := h.coded.mono rfl rfl rfl fun _ _ ho => ho

/-- A new label has seen no stack and is bound nowhere. -/
theorem newLabel (h : a.WellFormed) : WellFormed { a with labels := a.labels.push {} } where
  noVoid := h.noVoid
  whole := h.whole
  ended := h.ended
  typable := h.typable
  targets i hi label hlabel := by
    obtain ⟨l, hl, href⟩ := h.targets i hi label hlabel
    exact ⟨l, getElem?_push_of_some hl, href⟩
  seen label l hl types htypes := by
    rcases getElem?_push_cases hl with hold | ⟨-, rfl⟩
    · exact h.seen label l hold types htypes
    · cases htypes
  bound label l hl o ho := by
    rcases getElem?_push_cases hl with hold | ⟨-, rfl⟩
    · exact h.bound label l hold o ho
    · cases ho
  coded := h.coded.mono rfl rfl rfl fun label o ho => (a.offset?_push label).trans ho

/-- One more instruction, which leaves the given stack. -/
theorem emitted (h : a.WellFormed) {i : Instruction Nat} {stack : OperandStack}
    {member : Option MemberType} {before after : List ValueType}
    (heffect : HasEffect a.locals a.returnType member i before after)
    (hstack : .void ∉ stack.types)
    (htarget : ∀ label, i.target? = some label → ∃ l, a.labels[label]? = some l) :
    (a.emitted i stack).WellFormed where
  noVoid := hstack
  whole := h.whole
  ended hdead := ⟨i, a.newest, rfl, by simpa [Assembler.emitted] using hdead⟩
  typable j hj := by
    rcases List.mem_cons.mp hj with rfl | hj
    · exact ⟨member, before, after, heffect⟩
    · exact h.typable j hj
  targets j hj label hlabel := by
    rw [labels_emitted, getElem?_labelsAfter]
    rcases List.mem_cons.mp hj with rfl | hj
    · obtain ⟨l, hl⟩ := htarget label hlabel
      exact ⟨l.joined stack.types, by simp [hl, hlabel], rfl⟩
    · -- whether or not the new instruction jumps there too, the label stays referenced
      obtain ⟨l, hl, href⟩ := h.targets j hj label hlabel
      rw [hl]
      refine ⟨_, rfl, ?_⟩
      split
      · rfl
      · exact href
  seen label l' hl' types htypes := by
    rw [labels_emitted, getElem?_labelsAfter] at hl'
    obtain ⟨l, hl, rfl⟩ := Option.map_eq_some_iff.mp hl'
    split at htypes
    · cases htypes
      exact hstack
    · exact h.seen label l hl types htypes
  bound label l' hl' o ho := by
    obtain ⟨l, hl, hoffset⟩ := offset_labelsAfter hl' ho
    rw [instructions_emitted]
    -- a label at the end of the code now stands before the new instruction
    rcases h.bound label l hl o hoffset with hboundary | ⟨-, rfl⟩
    · exact .inl hboundary.append
    · rw [← size_instructions]
      exact .inl (Code.isBoundary_size_concat a.instructions i)
  coded := (h.coded.append i).mono rfl rfl rfl fun label o ho =>
    (a.offset?_emitted i stack label).trans ho

/-- A label bound to the end of the code, which can be reached from now on. -/
theorem bind (h : a.WellFormed) {label : Nat} {stack : OperandStack}
    (hstack : .void ∉ stack.types) (hfree : a.offset? label = none) :
    WellFormed { a with
      stack
      labels := a.labels.modify label (LabelState.boundAt stack.types a.size)
      reachable := true } where
  noVoid := hstack
  whole := h.whole
  ended hdead := by cases hdead
  typable := h.typable
  targets i hi label' hlabel := by
    obtain ⟨l, hl, href⟩ := h.targets i hi label' hlabel
    rw [Array.getElem?_modify, hl]
    split
    · exact ⟨_, rfl, href⟩
    · exact ⟨l, rfl, href⟩
  seen label' l' hl' types htypes := by
    rw [Array.getElem?_modify] at hl'
    split at hl'
    · obtain ⟨l, hl, rfl⟩ := Option.map_eq_some_iff.mp hl'
      cases htypes
      exact hstack
    · exact h.seen label' l' hl' types htypes
  bound label' l' hl' o ho := by
    rw [Array.getElem?_modify] at hl'
    split at hl'
    · obtain ⟨l, hl, rfl⟩ := Option.map_eq_some_iff.mp hl'
      cases ho
      exact .inr ⟨rfl, rfl⟩
    · exact (h.bound label' l' hl' o ho).imp_right fun hend => ⟨rfl, hend.2⟩
  coded := by
    refine h.coded.mono rfl rfl rfl fun label' o ho => ?_
    have hne : label ≠ label' := by
      rintro rfl
      rw [hfree] at ho
      cases ho
    rw [offset?, Array.getElem?_modify, if_neg hne]
    exact ho

/-- Completing the code changes its bytes only. -/
theorem complete (h : a.WellFormed) {done : Assembler} (hdone : a.complete = .ok done) :
    done.WellFormed := by
  have hcoded := h.coded.complete hdone h.targets
  obtain ⟨code, hfill, hsize, -, rfl⟩ := complete_eq_ok hdone
  refine ⟨h.noVoid, h.whole, h.ended, h.typable, h.targets, h.seen, ?_, hcoded⟩
  rw [size_completed]
  exact h.bound

end WellFormed

end Assembler

/-! ## What requests keep -/

/-- A request that wrote an instruction keeps an assembler well formed. -/
theorem Emitted.wellFormed {e : Emission} {s t : Assembly} {symbol : UInt16} {stack : OperandStack}
    (he : Emitted e s t symbol stack) (h : s.assembler.WellFormed) : t.assembler.WellFormed := by
  rw [he.assembler_eq]
  refine h.emitted he.effect (he.effect.noVoid h.noVoid) fun label hlabel => ?_
  obtain ⟨l, hl, -⟩ := he.agrees label hlabel
  exact ⟨l, hl⟩

/-- A refused request keeps an assembler well formed. -/
theorem Refused.wellFormed {e : Emission} {s t : Assembly} (he : Refused e s t)
    (h : s.assembler.WellFormed) : t.assembler.WellFormed := by
  cases he with
  | taken hsuffix => exact h.taken hsuffix s.assembler.isOpen
  | @written owner name symbol symbols _ _ hreach =>
    -- the stack was not moved, but the instruction would be typed with another type of the field
    have heffect : HasEffect s.assembler.locals s.assembler.returnType (some (.field .object))
        (⟨.getStatic, symbol⟩ : Instruction Nat) [] [.object] := .getStatic (by decide)
    have hemitted := h.emitted heffect h.noVoid (by rintro label ⟨⟩)
    have heq : s.assembler.emitted ⟨.getStatic, symbol⟩ s.assembler.stack =
        s.assembler.append ⟨.getStatic, symbol⟩ := by
      simp [Assembler.emitted, Assembler.labelsAfter, Assembler.append, Instruction.target?,
        Opcode.isTerminal, hreach]
    rwa [heq] at hemitted

theorem Bound.noVoid {label : Nat} {s t : Assembly} {l : LabelState} {stack : OperandStack}
    (hb : Bound label s t l stack) (h : s.assembler.WellFormed) : .void ∉ stack.types := by
  cases hreach : s.assembler.reachable with
  | true =>
    rw [hb.reached hreach]
    exact h.noVoid
  | false =>
    rw [hb.fresh hreach, OperandStack.types_replaced]
    cases htypes : l.types with
    | none => exact List.not_mem_nil
    | some types => exact h.seen label l hb.label_eq types htypes

theorem Bound.wellFormed {label : Nat} {s t : Assembly} {l : LabelState} {stack : OperandStack}
    (hb : Bound label s t l stack) (h : s.assembler.WellFormed) : t.assembler.WellFormed := by
  rw [hb.eq]
  refine h.bind (hb.noVoid h) ?_
  rw [Assembler.offset?, hb.label_eq, Option.bind_some, hb.unbound]

/-- **A request keeps an assembler well formed**, whichever way it ends. -/
theorem Emit.ends_request_wellFormed (r : Request) {s : Assembly} (h : s.assembler.WellFormed) :
    Ends (Emit.request r) s (fun _ t => t.assembler.WellFormed)
      (fun _ t => t.assembler.WellFormed) := by
  cases r with
  | openCode => exact h.taken (List.suffix_refl _) true
  | close => exact h.taken (List.suffix_refl _) false
  | defineLocal type => exact Ends.map (ends_defineLocal (fun _ => h) fun _ _ => h.defineLocal type)
  | newLabel => exact Ends.map (ends_newLabel h.newLabel)
  | bind label =>
    refine ends_bind.mono ?_ fun _ t ht => ?_
    · rintro - t ⟨l, stack, hbound⟩
      exact hbound.wellFormed h
    · rwa [ht]
  | emission e =>
    refine (ends_emission h.noVoid).mono ?_ fun _ t he => he.wellFormed h
    rintro - t ⟨symbol, stack, he⟩
    exact he.wellFormed h

end Bytecode
