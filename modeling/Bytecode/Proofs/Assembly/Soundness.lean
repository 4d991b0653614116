import Mathlib
import Bytecode.Proofs.Assembly.WellFormed

/-!
# Type soundness of assembly

The stack is followed along while code is written, in the order of the requests; control takes the
jumps instead. Both agree: the shapes that were seen on the way can be given to the offsets of the
finished code so that every instruction is well typed, whichever way control comes to it.

The invariant is a shape for each offset up to the end of the code. An instruction adds the shape
after it. A label that is bound where control cannot come from above gives the end of the code the
shape of the jumps to it; the instruction above it is a jump or a return and has no say in that.

## Main definitions

* `Request.emissions`: the requests that write an instruction
* `Assembler.Shaped`: the shapes seen so far fit the code

## Main results

* `Emit.ends_request_shaped`: a request that succeeds keeps the shapes
* `Emit.requests_wellTyped`: finished code is well typed
-/

namespace Bytecode

/-- The instruction that a request asks for. -/
def Request.emission? : Request → Option Emission
  | .emission e => some e
  | _ => none

/-- The requests that write an instruction. -/
def Request.emissions (requests : List Request) : List Emission :=
  requests.filterMap Request.emission?

/-- The label to which an instruction jumps has seen no stack, or one of the given shape. -/
def Instruction.AgreesWith (i : Instruction Nat) (labels : Array LabelState)
    (types : List ValueType) : Prop :=
  ∀ label, i.target? = some label →
    ∃ l, labels[label]? = some l ∧ (l.types = none ∨ l.types = some types)

namespace Assembler

/-- A jump that agrees with its label leaves the stacks that labels have seen as they were. -/
theorem types_labelsAfter {a : Assembler} {i : Instruction Nat} {types known : List ValueType}
    {label : Nat} {l : LabelState} (hagrees : i.AgreesWith a.labels types)
    (hl : a.labels[label]? = some l) (hknown : l.types = some known) :
    ∃ l', (a.labelsAfter i types)[label]? = some l' ∧ l'.types = some known := by
  rw [getElem?_labelsAfter, hl]
  refine ⟨_, rfl, ?_⟩
  split
  · next htarget =>
    obtain ⟨l', hl', hagree⟩ := hagrees label htarget
    obtain rfl : l' = l := Option.some.inj (hl'.symm.trans hl)
    rcases hagree with hnone | hsome
    · rw [hnone] at hknown
      cases hknown
    · rw [← hknown, hsome]
      rfl
  · exact hknown

/-- A label is bound within the code. -/
theorem WellFormed.offset_le_size {a : Assembler} (h : a.WellFormed) {label o : Nat}
    {l : LabelState} (hl : a.labels[label]? = some l) (ho : l.offset = some o) : o ≤ a.size := by
  rcases h.bound label l hl o ho with hboundary | ⟨-, rfl⟩
  · exact hboundary.lt_size.le.trans_eq a.size_instructions
  · exact le_rfl

/-- Control comes to the end of code without instructions. -/
theorem WellFormed.reachable_of_size {a : Assembler} (h : a.WellFormed) (hsize : a.size = 0) :
    a.reachable = true := by
  by_contra hdead
  obtain ⟨i, rest, hnewest, -⟩ := h.ended (by simpa using hdead)
  have hpos : 0 < i.size := i.size_pos
  rw [Assembler.size, a.size_eq, hnewest, Code.size_cons] at hsize
  omega

/-- An instruction that leads to the next one leads to an instruction, or to the end of code that
can be reached. -/
theorem WellFormed.offset_succ {a : Assembler} (h : a.WellFormed) {k : Nat} {i : Instruction Nat}
    (hi : a.instructions[k]? = some i) (hplain : i.op.isTerminal = false) :
    Code.offset a.instructions (k + 1) < a.size ∨
      a.reachable = true ∧ Code.offset a.instructions (k + 1) = a.size := by
  obtain ⟨hk, -⟩ := List.getElem?_eq_some_iff.mp hi
  rcases Nat.lt_or_eq_of_le (Nat.succ_le_of_lt hk) with hnext | hlast
  · exact .inl ((Code.offset_lt_size hnext).trans_eq a.size_instructions)
  · refine .inr ⟨?_, ?_⟩
    · -- the last instruction of code that ends is terminal
      by_contra hdead
      obtain ⟨j, rest, hnewest, hterminal⟩ := h.ended (by simpa using hdead)
      have hj : a.instructions[k]? = some j := by
        rw [instructions, hnewest] at hlast ⊢
        have hlen : k = rest.reverse.length := by
          simp at hlast
          simp [hlast]
        rw [List.reverse_cons, hlen, List.getElem?_concat_length]
      obtain rfl : i = j := Option.some.inj (hi.symm.trans hj)
      rw [hplain] at hterminal
      cases hterminal
    · have hlength : k + 1 = a.instructions.length := hlast
      rw [hlength, Code.offset_length, size_instructions]

/-- In code whose end cannot be reached, control goes on to an instruction. -/
theorem WellFormed.exists_next {a : Assembler} (h : a.WellFormed) (hdead : a.reachable = false)
    {k : Nat} {i : Instruction Nat} (hi : a.instructions[k]? = some i)
    (hplain : i.op.isTerminal = false) : ∃ j, a.instructions[k + 1]? = some j := by
  rcases h.offset_succ hi hplain with hlt | ⟨hreach, -⟩
  · rcases Nat.lt_or_ge (k + 1) a.instructions.length with hk | hk
    · exact ⟨_, List.getElem?_eq_getElem hk⟩
    · rw [Code.offset, List.take_of_length_le hk, size_instructions] at hlt
      omega
  · rw [hdead] at hreach
    cases hreach

/-- The `k`-th instruction `i` was written for the request `e`; it takes the shape of its offset to
`after`, and leaves that wherever control goes. -/
structure TypedAt (a : Assembler) (shape : Nat → List ValueType) (k : Nat) (i : Instruction Nat)
    (e : Emission) (after : List ValueType) : Prop where
  spelled : ∃ symbol,
    i = e.instruction (shape (Code.offset a.instructions k)) a.returnType symbol
  effect : HasEffect a.locals a.returnType e.memberType? i
    (shape (Code.offset a.instructions k)) after
  next : i.op.isTerminal = false → shape (Code.offset a.instructions (k + 1)) = after
  target : ∀ label, i.target? = some label → ∃ l, a.labels[label]? = some l ∧ l.types = some after

/-- The shapes seen so far fit the code. -/
structure Shaped (a : Assembler) (emissions : List Emission) (shape : Nat → List ValueType) :
    Prop where
  entry : shape 0 = []
  noVoid : ∀ o, .void ∉ shape o
  depth : ∀ o, slotsOf (shape o) ≤ a.stack.maxDepth
  top : a.reachable = true → shape a.size = a.stack.types
  length_eq : emissions.length = a.instructions.length
  typed : ∀ k i e, a.instructions[k]? = some i → emissions[k]? = some e →
    ∃ after, a.TypedAt shape k i e after
  bound : ∀ (label : Nat) l, a.labels[label]? = some l → ∀ o, l.offset = some o →
    l.types = some (shape o)

theorem offset_le_size (a : Assembler) (k : Nat) : Code.offset a.instructions k ≤ a.size :=
  (Code.offset_le_size _ _).trans_eq a.size_instructions

/-- Code keeps its typing as long as its shapes and what its labels have seen are kept. -/
theorem TypedAt.mono {a b : Assembler} {shape shape' : Nat → List ValueType} {k : Nat}
    {i : Instruction Nat} {e : Emission} {after : List ValueType} (h : a.TypedAt shape k i e after)
    (hresult : b.returnType = a.returnType) (hlocals : b.locals.Extends a.locals)
    (hoffset : Code.offset b.instructions k = Code.offset a.instructions k)
    (hshape : shape' (Code.offset a.instructions k) = shape (Code.offset a.instructions k))
    (hnext : i.op.isTerminal = false →
      shape' (Code.offset b.instructions (k + 1)) = shape (Code.offset a.instructions (k + 1)))
    (hlabels : ∀ (label : Nat) l, a.labels[label]? = some l → l.types = some after →
      ∃ l', b.labels[label]? = some l' ∧ l'.types = some after) :
    b.TypedAt shape' k i e after where
  spelled := by
    rw [hoffset, hshape, hresult]
    exact h.spelled
  effect := by
    rw [hoffset, hshape, hresult]
    exact h.effect.of_extends hlocals
  next hplain := (hnext hplain).trans (h.next hplain)
  target label hlabel := by
    obtain ⟨l, hl, htypes⟩ := h.target label hlabel
    exact hlabels label l hl htypes

/-- The shapes with another one at an offset. -/
def setShape (shape : Nat → List ValueType) (offset : Nat) (types : List ValueType) :
    Nat → List ValueType :=
  fun o => if o = offset then types else shape o

section SetShape

variable {shape : Nat → List ValueType} {offset o : Nat} {types : List ValueType}

theorem setShape_self : setShape shape offset types offset = types := if_pos rfl

theorem setShape_of_ne (h : o ≠ offset) : setShape shape offset types o = shape o := if_neg h

theorem forall_setShape {P : List ValueType → Prop} (htypes : P types) (h : ∀ o, P (shape o))
    (o : Nat) : P (setShape shape offset types o) := by
  by_cases ho : o = offset
  · rw [ho, setShape_self]
    exact htypes
  · rw [setShape_of_ne ho]
    exact h o

/-- The shapes of the code so far do not change when an instruction is added. -/
theorem setShape_emitted (a : Assembler) (i : Instruction Nat) (ho : o ≤ a.size) :
    setShape shape (a.size + i.size) types o = shape o := by
  have hpos : 0 < i.size := i.size_pos
  exact setShape_of_ne (by omega)

end SetShape

theorem offset_emitted {a : Assembler} {i : Instruction Nat} {stack : OperandStack} {k : Nat}
    (hk : k ≤ a.instructions.length) :
    Code.offset (a.emitted i stack).instructions k = Code.offset a.instructions k := by
  rw [instructions_emitted, Code.offset_append hk]

/-- The typing of the code so far is kept when an instruction is added. -/
theorem TypedAt.emitted {a : Assembler} {shape : Nat → List ValueType} {k : Nat}
    {i j : Instruction Nat} {e : Emission} {after : List ValueType} {stack : OperandStack}
    (h : a.TypedAt shape k j e after) (hk : k < a.instructions.length)
    (hagrees : i.AgreesWith a.labels stack.types) :
    (a.emitted i stack).TypedAt (setShape shape (a.size + i.size) stack.types) k j e
      after := by
  refine h.mono rfl (.refl _) (offset_emitted hk.le) (a.setShape_emitted i (a.offset_le_size k)) ?_
    fun label l hl => types_labelsAfter hagrees hl
  intro _
  rw [offset_emitted hk, a.setShape_emitted i (a.offset_le_size (k + 1))]

/-- The new instruction is typed by the stack before and after it. -/
theorem TypedAt.last {a : Assembler} {shape : Nat → List ValueType} {i : Instruction Nat}
    {e : Emission} {symbol : UInt16} {stack : OperandStack} (htop : shape a.size = a.stack.types)
    (hi : i = e.instruction a.stack.types a.returnType symbol)
    (heffect : HasEffect a.locals a.returnType e.memberType? i a.stack.types stack.types)
    (hagrees : i.AgreesWith a.labels stack.types) :
    (a.emitted i stack).TypedAt (setShape shape (a.size + i.size) stack.types)
      a.instructions.length i e stack.types := by
  have hhere : Code.offset (a.emitted i stack).instructions a.instructions.length = a.size := by
    rw [offset_emitted le_rfl, Code.offset_length, size_instructions]
  have hend : Code.offset (a.emitted i stack).instructions (a.instructions.length + 1) =
      a.size + i.size := by
    rw [Code.offset_succ (i := i) (by simp), hhere]
  have hshape : setShape shape (a.size + i.size) stack.types a.size = a.stack.types :=
    (a.setShape_emitted i le_rfl).trans htop
  refine ⟨?_, ?_, ?_, ?_⟩
  · rw [hhere, hshape]
    exact ⟨symbol, hi⟩
  · rw [hhere, hshape]
    exact heffect
  · intro _
    rw [hend, setShape_self]
  · intro label hlabel
    obtain ⟨l, hl, -⟩ := hagrees label hlabel
    refine ⟨l.joined stack.types, ?_, rfl⟩
    rw [labels_emitted, getElem?_labelsAfter, hl, Option.map_some, if_pos hlabel]

theorem Shaped.start (routine : Text) (returnType : ValueType) (isOpen : Bool) :
    Shaped { routine, returnType, isOpen } [] fun _ => [] where
  entry := rfl
  noVoid _ := List.not_mem_nil
  depth _ := le_rfl
  top _ := rfl
  length_eq := rfl
  typed k i e hi := by simp [instructions] at hi
  bound label l hl := by simp at hl

namespace Shaped

variable {a : Assembler} {emissions : List Emission} {shape : Nat → List ValueType}

/-- Shapes do not depend on later locals and labels. -/
theorem grow (h : a.Shaped emissions shape) {locals : Locals} {labels : Array LabelState}
    (isOpen : Bool) (hlocals : locals.Extends a.locals)
    (hlabels : ∀ (label : Nat) l, a.labels[label]? = some l → labels[label]? = some l)
    (hnew : ∀ (label : Nat) l, labels[label]? = some l → ∀ o, l.offset = some o →
      a.labels[label]? = some l) :
    Shaped { a with locals, labels, isOpen } emissions shape where
  entry := h.entry
  noVoid := h.noVoid
  depth := h.depth
  top := h.top
  length_eq := h.length_eq
  typed k i e hi he := by
    obtain ⟨after, htyped⟩ := h.typed k i e hi he
    exact ⟨after, htyped.mono rfl hlocals rfl rfl (fun _ => rfl) fun label l hl htypes =>
      ⟨l, hlabels label l hl, htypes⟩⟩
  bound label l hl o ho := h.bound label l (hnew label l hl o ho) o ho

/-- Completing the code changes its bytes only. -/
theorem complete (h : a.Shaped emissions shape) {done : Assembler}
    (hdone : a.complete = .ok done) : done.Shaped emissions shape := by
  obtain ⟨code, hfill, hsize, -, rfl⟩ := complete_eq_ok hdone
  refine ⟨h.entry, h.noVoid, h.depth, ?_, h.length_eq, ?_, h.bound⟩
  · rw [size_completed]
    exact h.top
  · intro k i e hi he
    obtain ⟨after, htyped⟩ := h.typed k i e hi he
    exact ⟨after, htyped.mono rfl (.refl _) rfl rfl (fun _ => rfl) fun _ l hl htypes =>
      ⟨l, hl, htypes⟩⟩

/-- One more instruction: the end of the code has the shape that it leaves. -/
theorem emitted (h : a.Shaped emissions shape) (hform : a.WellFormed) (hreach : a.reachable = true)
    {e : Emission} {symbol : UInt16} {i : Instruction Nat} {stack : OperandStack}
    (hi : i = e.instruction a.stack.types a.returnType symbol)
    (heffect : HasEffect a.locals a.returnType e.memberType? i a.stack.types stack.types)
    (hagrees : i.AgreesWith a.labels stack.types)
    (hdeeper : a.stack.maxDepth ≤ stack.maxDepth) :
    (a.emitted i stack).Shaped (emissions ++ [e])
      (setShape shape (a.size + i.size) stack.types) := by
  refine ⟨?_, ?_, ?_, ?_, ?_, ?_, ?_⟩
  · rw [a.setShape_emitted i (Nat.zero_le _), h.entry]
  · exact forall_setShape (P := fun types => .void ∉ types) (heffect.noVoid hform.noVoid) h.noVoid
  · exact forall_setShape (P := fun types => slotsOf types ≤ stack.maxDepth)
      (stack.depth_eq ▸ stack.depth_le_maxDepth) fun o => (h.depth o).trans hdeeper
  · intro _
    rw [size_emitted]
    exact setShape_self
  · rw [instructions_emitted, List.length_append, List.length_append, h.length_eq]
    rfl
  · intro k j e' hj he'
    rw [instructions_emitted] at hj
    rcases Nat.lt_or_ge k a.instructions.length with hk | hk
    · -- an instruction that was there before
      rw [List.getElem?_append_left hk] at hj
      rw [List.getElem?_append_left (h.length_eq ▸ hk)] at he'
      obtain ⟨after, htyped⟩ := h.typed k j e' hj he'
      exact ⟨after, htyped.emitted hk hagrees⟩
    · -- the new instruction
      obtain ⟨hlt, -⟩ := List.getElem?_eq_some_iff.mp hj
      obtain rfl : k = a.instructions.length := by
        rw [List.length_append, List.length_singleton] at hlt
        omega
      rw [List.getElem?_concat_length] at hj
      rw [← h.length_eq, List.getElem?_concat_length] at he'
      cases hj
      cases he'
      exact ⟨stack.types, .last (h.top hreach) hi heffect hagrees⟩
  · -- bound labels stand before the new end, so that their shapes are the old ones
    intro label l' hl' o ho
    rw [labels_emitted] at hl'
    obtain ⟨l, hl, hoffset⟩ := offset_labelsAfter hl' ho
    obtain ⟨l'', hl'', htypes⟩ := types_labelsAfter hagrees hl (h.bound label l hl o hoffset)
    obtain rfl : l'' = l' := Option.some.inj (hl''.symm.trans hl')
    rw [a.setShape_emitted i (hform.offset_le_size hl hoffset)]
    exact htypes

/-- A label is bound to the end of the code, which has its shape from now on. -/
theorem bind (h : a.Shaped emissions shape) (hform : a.WellFormed) {label : Nat} {l : LabelState}
    {stack : OperandStack} (hl : a.labels[label]? = some l)
    (hagrees : l.types = none ∨ l.types = some stack.types) (hnoVoid : .void ∉ stack.types)
    (hreached : a.reachable = true → stack = a.stack)
    (hdeeper : a.stack.maxDepth ≤ stack.maxDepth) :
    Shaped { a with
      stack
      labels := a.labels.modify label (LabelState.boundAt stack.types a.size)
      reachable := true } emissions (setShape shape a.size stack.types) := by
  -- the shape at the end of the code changes only where no instruction leads to it
  have hkeep : ∀ o, o < a.size ∨ a.reachable = true ∧ o = a.size →
      setShape shape a.size stack.types o = shape o := by
    rintro o (ho | ⟨hreach, rfl⟩)
    · exact setShape_of_ne ho.ne
    · rw [setShape_self, h.top hreach, hreached hreach]
  refine ⟨?_, ?_, ?_, fun _ => setShape_self, h.length_eq, ?_, ?_⟩
  · -- a label before the first instruction is at the entry, which control reaches
    have hzero : 0 < a.size ∨ a.reachable = true ∧ 0 = a.size := by
      rcases Nat.eq_zero_or_pos a.size with hsize | hsize
      · exact .inr ⟨hform.reachable_of_size hsize, hsize.symm⟩
      · exact .inl hsize
    rw [hkeep 0 hzero, h.entry]
  · exact forall_setShape (P := fun types => .void ∉ types) hnoVoid h.noVoid
  · exact forall_setShape (P := fun types => slotsOf types ≤ stack.maxDepth)
      (stack.depth_eq ▸ stack.depth_le_maxDepth) fun o => (h.depth o).trans hdeeper
  · intro k i e hi he
    obtain ⟨after, htyped⟩ := h.typed k i e hi he
    have hk : k < a.instructions.length := (List.getElem?_eq_some_iff.mp hi).1
    refine ⟨after, htyped.mono rfl (.refl _) rfl (hkeep _ (.inl ?_)) (fun hplain => hkeep _ ?_) ?_⟩
    · exact (Code.offset_lt_size hk).trans_eq a.size_instructions
    · exact hform.offset_succ hi hplain
    · intro label' l' hl' htypes
      rw [Array.getElem?_modify]
      -- a jump to the label that is bound has left its shape there, and the stack agrees with it
      split
      · next hsame =>
        subst hsame
        obtain rfl : l = l' := Option.some.inj (hl.symm.trans hl')
        refine ⟨_, by rw [hl, Option.map_some], ?_⟩
        rcases hagrees with hnone | hsome
        · rw [hnone] at htypes
          cases htypes
        · rw [← htypes, hsome]
          rfl
      · exact ⟨l', hl', htypes⟩
  · intro label' l' hl' o ho
    rw [Array.getElem?_modify] at hl'
    split at hl'
    · obtain ⟨l'', -, rfl⟩ := Option.map_eq_some_iff.mp hl'
      cases ho
      rw [setShape_self]
      rfl
    · rw [hkeep o]
      · exact h.bound label' l' hl' o ho
      · refine (hform.bound label' l' hl' o ho).imp_left fun hboundary => ?_
        exact hboundary.lt_size.trans_eq a.size_instructions

end Shaped

/-! ## Finished code -/

/-- Code is finished when its end cannot be reached and every label with a jump to it is bound. -/
theorem WellFormed.finish_eq_ok {a : Assembler} {bytes : Bytes} (h : a.WellFormed)
    (hfinish : a.finish = .ok bytes) :
    a.reachable = false ∧ bytes = Code.encode a.resolved ∧
      ∀ (label : Nat) l, a.labels[label]? = some l → l.referenced = true → l.offset.isSome := by
  rw [h.coded.finish_eq] at hfinish
  unfold assembled at hfinish
  split at hfinish
  · cases hfinish
  · next hdead =>
    split at hfinish
    · cases hfinish
    · next hunbound =>
      cases hfinish
      exact ⟨by simpa using hdead, rfl, fun label l => isSome_offset_of_unbound? hunbound⟩

@[simp] theorem offset_resolved (a : Assembler) (k : Nat) :
    Code.offset a.resolved k = Code.offset a.instructions k := Code.offset_map _ _ _

/-- The `k`-th instruction of finished code. -/
theorem getElem?_placed_resolved (a : Assembler) (k : Nat) :
    (Code.placed a.resolved)[k]? = a.instructions[k]?.map fun i =>
      (i.map a.offsetOf).placedAt (Code.offset a.instructions k) := by
  rw [Code.getElem?_placed, offset_resolved, resolved, List.getElem?_map, Option.map_map]
  rfl

/-- The `k`-th instruction of finished code, where there is one. -/
theorem getElem?_placed_of_lt {a : Assembler} {k : Nat} (hk : k < a.instructions.length) :
    (Code.placed a.resolved)[k]? =
      some ((a.instructions[k].map a.offsetOf).placedAt (Code.offset a.instructions k)) := by
  rw [getElem?_placed_resolved, List.getElem?_eq_getElem hk, Option.map_some]

@[simp] theorem position_placed_resolved (a : Assembler) (k : Nat) :
    Code.position (Code.placed a.resolved) k = Code.offset a.instructions k := by
  rw [Code.position_placed, offset_resolved]

@[simp] theorem length_placed_resolved (a : Assembler) :
    (Code.placed a.resolved).length = a.instructions.length := by
  rw [Code.placed, Code.length_placedFrom, resolved, List.length_map]

/-- A label with a jump to it is bound before an instruction of finished code. -/
theorem WellFormed.exists_target {a : Assembler} (h : a.WellFormed) {bytes : Bytes}
    (hfinish : a.finish = .ok bytes) {i : Instruction Nat} (hi : i ∈ a.newest) {label : Nat}
    (hlabel : i.target? = some label) :
    ∃ l k, k < a.instructions.length ∧ a.labels[label]? = some l ∧
      l.offset = some (Code.offset a.instructions k) ∧
      a.offsetOf label = (Code.offset a.instructions k).toUInt32 := by
  obtain ⟨hdead, -, hbound⟩ := h.finish_eq_ok hfinish
  obtain ⟨l, hl, href⟩ := h.targets i hi label hlabel
  obtain ⟨o, ho⟩ := Option.isSome_iff_exists.mp (hbound label l hl href)
  rcases h.bound label l hl o ho with ⟨k, hk, rfl⟩ | ⟨hreach, -⟩
  · refine ⟨l, k, hk, hl, ho, ?_⟩
    rw [offsetOf, offset?, hl, Option.bind_some, ho, Option.getD_some]
  · rw [hdead] at hreach
    cases hreach

/-- Offsets of code that is not too long fit in four bytes. -/
theorem toNat_offset {a : Assembler} {k : Nat} (hk : k < a.instructions.length)
    (hlength : (Code.encode a.resolved).length ≤ 4294967296) :
    (Code.offset a.instructions k).toUInt32.toNat = Code.offset a.instructions k := by
  rw [Code.length_encode, resolved, Code.size_map] at hlength
  exact Code.toNat_offset hk hlength

/-- Finished code is well typed by the shapes that were seen on the way. -/
theorem Shaped.wellTyped {a : Assembler} {emissions : List Emission} {shape : Nat → List ValueType}
    {bytes : Bytes} (h : a.Shaped emissions shape) (hform : a.WellFormed)
    (hfinish : a.finish = .ok bytes) :
    WellTyped a.locals a.returnType (emissions.map Emission.memberType?) bytes
      (Code.placed a.resolved) shape := by
  obtain ⟨hdead, rfl, -⟩ := hform.finish_eq_ok hfinish
  refine ⟨Code.decode_encode _, h.entry, fun k _ => h.noVoid _, ?_⟩
  intro k p hp
  simp only [position_placed_resolved]
  rw [getElem?_placed_resolved] at hp
  obtain ⟨i, hi, rfl⟩ := Option.map_eq_some_iff.mp hp
  obtain ⟨hk, -⟩ := List.getElem?_eq_some_iff.mp hi
  obtain ⟨e, he⟩ : ∃ e, emissions[k]? = some e :=
    ⟨_, List.getElem?_eq_getElem (h.length_eq ▸ hk)⟩
  obtain ⟨after, htyped⟩ := h.typed k i e hi he
  refine ⟨e.memberType?, after, by rw [List.getElem?_map, he, Option.map_some],
    htyped.effect.map a.offsetOf, ?_, ?_⟩
  · intro hplain
    obtain ⟨j, hj⟩ := hform.exists_next hdead hi hplain
    exact ⟨_, by rw [getElem?_placed_resolved, hj, Option.map_some], htyped.next hplain⟩
  · -- the label of the jump is bound, and its shape is the one that the jump leaves
    intro target htarget
    rw [Instruction.instruction_placedAt, Instruction.target?_map] at htarget
    obtain ⟨label, hlabel, rfl⟩ := Option.map_eq_some_iff.mp htarget
    have hmem : i ∈ a.newest := mem_instructions.mp (List.mem_of_getElem? hi)
    obtain ⟨l, k', hk', hl, ho, hoffsetOf⟩ := hform.exists_target hfinish hmem hlabel
    obtain ⟨l', hl', htypes⟩ := htyped.target label hlabel
    obtain rfl : l' = l := Option.some.inj (hl'.symm.trans hl)
    have hshape : shape (Code.offset a.instructions k') = after :=
      Option.some.inj ((h.bound label l' hl _ ho).symm.trans htypes)
    refine ⟨k', _, getElem?_placed_of_lt hk', hshape, hoffsetOf.symm, fun hbytes => ?_⟩
    rw [hoffsetOf, toNat_offset hk' hbytes]

/-- The instructions of finished code are those that were asked for. -/
theorem Shaped.spelled {a : Assembler} {emissions : List Emission} {shape : Nat → List ValueType}
    (h : a.Shaped emissions shape) :
    (Code.placed a.resolved).length = emissions.length ∧
      ∀ (k : Nat) p e, (Code.placed a.resolved)[k]? = some p → emissions[k]? = some e →
        ∃ symbol, p.instruction = (e.instruction
          (shape (Code.position (Code.placed a.resolved) k)) a.returnType symbol).map
            a.offsetOf := by
  refine ⟨a.length_placed_resolved.trans h.length_eq.symm, fun k p e hp he => ?_⟩
  rw [getElem?_placed_resolved] at hp
  obtain ⟨i, hi, rfl⟩ := Option.map_eq_some_iff.mp hp
  obtain ⟨after, htyped⟩ := h.typed k i e hi he
  obtain ⟨symbol, rfl⟩ := htyped.spelled
  rw [position_placed_resolved]
  exact ⟨symbol, rfl⟩

end Assembler

/-! ## Runs -/

/-- A request that succeeds keeps the shapes. -/
theorem Emit.ends_request_shaped (r : Request) {s : Assembly} {emissions : List Emission}
    {shape : Nat → List ValueType} (h : s.assembler.Shaped emissions shape)
    (hform : s.assembler.WellFormed) :
    Ends (Emit.request r) s (fun _ t => ∃ shape',
      t.assembler.Shaped (emissions ++ r.emission?.toList) shape' ∧
        t.assembler.returnType = s.assembler.returnType) (fun _ _ => True) := by
  cases r with
  | openCode =>
    refine ⟨shape, ?_, rfl⟩
    simpa [Request.emission?] using
      h.grow true (.refl _) (fun _ _ hl => hl) fun _ _ hl _ _ => hl
  | close =>
    refine ⟨shape, ?_, rfl⟩
    simpa [Request.emission?] using
      h.grow false (.refl _) (fun _ _ hl => hl) fun _ _ hl _ _ => hl
  | defineLocal type =>
    refine Ends.map (ends_defineLocal (fun _ => trivial) fun _ _ => ⟨shape, ?_, rfl⟩)
    simpa [Request.emission?] using h.grow s.assembler.isOpen (Locals.extends_define _ type)
      (fun _ _ hl => hl) fun _ _ hl _ _ => hl
  | newLabel =>
    refine Ends.map (ends_newLabel ⟨shape, ?_, rfl⟩)
    have hgrow : Assembler.Shaped { s.assembler with labels := s.assembler.labels.push {} }
        emissions shape := by
      refine h.grow s.assembler.isOpen (.refl _) (fun _ _ hl => getElem?_push_of_some hl) ?_
      intro label l hl o ho
      rcases getElem?_push_cases hl with hold | ⟨-, rfl⟩
      · exact hold
      · cases ho
    simpa [Request.emission?] using hgrow
  | bind label =>
    refine ends_bind.mono ?_ fun _ _ _ => trivial
    rintro - t ⟨l, stack, hbound⟩
    have hdeeper : s.assembler.stack.maxDepth ≤ stack.maxDepth := by
      cases hreach : s.assembler.reachable with
      | true => exact hbound.reached hreach ▸ le_rfl
      | false => exact hbound.fresh hreach ▸ OperandStack.maxDepth_le_replaced _ _
    have hbind := h.bind hform hbound.label_eq hbound.agrees (hbound.noVoid hform) hbound.reached
      hdeeper
    rw [hbound.eq]
    exact ⟨_, by simpa [Request.emission?] using hbind, rfl⟩
  | emission e =>
    refine (ends_emission hform.noVoid).mono ?_ fun _ _ _ => trivial
    rintro - t ⟨symbol, stack, he⟩
    have hemitted := h.emitted hform he.reachable rfl he.effect he.agrees he.deeper
    rw [he.assembler_eq]
    exact ⟨_, hemitted, rfl⟩

/-- Requests that succeed keep the shapes. -/
theorem Emit.ends_requests_shaped (requests : List Request) {s : Assembly}
    {emissions : List Emission} {shape : Nat → List ValueType}
    (h : s.assembler.Shaped emissions shape) (hform : s.assembler.WellFormed) :
    Ends (requests.forM Emit.request) s (fun _ t => ∃ shape',
      t.assembler.Shaped (emissions ++ Request.emissions requests) shape' ∧
        t.assembler.WellFormed ∧ t.assembler.returnType = s.assembler.returnType)
      (fun _ _ => True) := by
  -- the shapes change with every request, so they are part of what the induction generalizes
  induction requests generalizing s emissions shape with
  | nil =>
    refine ⟨shape, ?_, hform, rfl⟩
    rw [Request.emissions, List.filterMap_nil, List.append_nil]
    exact h
  | cons r requests ih =>
    have hstep := (Emit.ends_request_shaped r h hform).and (Emit.ends_request_wellFormed r hform)
    refine Ends.bind (hstep.mono (fun _ t ht => ?_) fun _ _ _ => trivial)
    obtain ⟨⟨shape', hshaped, hresult⟩, hform'⟩ := ht
    refine (ih hshaped hform').mono (fun _ t' ht' => ?_) fun _ _ _ => trivial
    obtain ⟨shape'', hshaped', hform'', hresult'⟩ := ht'
    refine ⟨shape'', ?_, hform'', hresult'.trans hresult⟩
    rw [List.append_assoc] at hshaped'
    cases r <;> exact hshaped'

/-- **Type soundness of assembly.** When every request of a run succeeds and the code can be
finished, its bytes decode to the instructions that were asked for, and there is a shape for every
position such that each instruction is well typed on its shape and leaves the shape of wherever
control goes. No shape is deeper than the greatest depth that was noted. -/
theorem Emit.requests_wellTyped {routine : Text} {returnType : ValueType} {symbols : SymbolTable}
    {requests : List Request} {bytes : Bytes} {s : Assembly}
    (h : (do requests.forM Emit.request; Emit.finish)
      ⟨{ routine, returnType, isOpen := true }, symbols⟩ = .ok bytes s) :
    ∃ code shape,
      WellTyped s.assembler.locals returnType
        ((Request.emissions requests).map Emission.memberType?) bytes code shape ∧
      code.length = (Request.emissions requests).length ∧
      (∀ (k : Nat) p e, code[k]? = some p → (Request.emissions requests)[k]? = some e → ∃ symbol,
        p.instruction = (e.instruction (shape (Code.position code k)) returnType symbol).map
          s.assembler.offsetOf) ∧
      ∀ k < code.length, slotsOf (shape (Code.position code k)) ≤ s.assembler.stack.maxDepth := by
  have hrun := Emit.ends_requests_shaped requests (s := ⟨_, symbols⟩)
    (Assembler.Shaped.start routine returnType true) (.start routine returnType true)
  obtain ⟨_, t, hrequests, hfinish⟩ := exists_of_bind_ok h
  obtain ⟨hbytes, code, hfill, hsize, -, rfl⟩ := Emit.finish_eq_ok hfinish
  obtain ⟨shape, hshaped, hform, hresult⟩ := hrun.ok hrequests
  have htyped := hshaped.wellTyped hform hbytes
  obtain ⟨hlength, hspelled⟩ := hshaped.spelled
  rw [hresult] at htyped hspelled
  exact ⟨Code.placed t.assembler.resolved, shape, htyped, hlength, hspelled,
    fun k _ => hshaped.depth _⟩

/-- A loop over a local, with a jump back, a jump forward and a label bound where control cannot
come from above. -/
def countingLoop : List Request :=
  [.defineLocal .int, .newLabel, .newLabel, .bind 0, .emission (.load .int 0),
    .emission (.pushInt 1), .emission (.arithmetic .add .int), .emission .dup,
    .emission (.store .int 0), .emission .pop, .emission (.pushBoolean true),
    .emission (.ifTrue 0), .emission (.jump 1), .bind 1, .emission .returnVoid]

theorem Emit.countingLoop_wellTyped : ∃ bytes s,
    (do countingLoop.forM Emit.request; Emit.finish)
      ⟨{ routine := [], returnType := .void, isOpen := true }, .empty []⟩ = .ok bytes s ∧
    bytes.length = 29 ∧
    ∃ code shape, WellTyped s.assembler.locals .void (List.replicate 10 none) bytes code shape := by
  have hrun : (do countingLoop.forM Emit.request; Emit.finish : Emit Bytes).run'
      ⟨{ routine := [], returnType := .void, isOpen := true }, .empty []⟩ =
        some [16, 2, 0, 0, 5, 1, 0, 0, 0, 48, 2, 32, 17, 2, 0, 0, 34, 3, 81, 0, 0, 0, 0, 80, 28, 0,
          0, 0, 97] := by decide +kernel
  obtain ⟨s, hrun⟩ := exists_of_run' hrun
  obtain ⟨code, shape, htyped, -⟩ := Emit.requests_wellTyped hrun
  exact ⟨_, s, hrun, rfl, code, shape, htyped⟩

end Bytecode
