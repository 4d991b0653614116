import Mathlib
import Bytecode.Proofs.Assembly.Rejection

/-!
# Values taken by rejected calls

A request looks at a value when it takes it from the stack, one value after the other. Most requests
take a value only when nothing can reject them any more. Some have a check after the first value:
the type of the next value, a symbol that may not fit in the table, a label that may be foreign or
may have seen another shape. When such a check fails, the values before it are gone from the stack,
but the code that left them there is not.

As long as no rejected call has taken a value, or has written the instruction of a void field, the
stack of the assembler is the one that the code leaves, so that finished code is well typed. One
value too few is enough for code that is not well typed under any shapes.

## Main definitions

* `accepted tests types`: how many values pass their tests, up to the first that does not
* `Assembly.exposed`: the tests of the values that a request takes before its last check
* `Assembly.taken`: how many values a call has taken when it is rejected
* `Assembly.Orderly`: no rejected call has taken a value or written code

## Main results

* `Emit.takes_apply`: what a rejected request has taken
* `Assembly.Orderly.shaped`: the stack of an orderly run is the one that its code leaves
* `Emit.stack_after_rejection`: the stack after a rejected call
* `Emit.illTyped_after_rejection`: finished code that is not well typed
-/

namespace Bytecode

open Granted (emissions)

/-- How many values pass their tests, from the top, up to the first that does not. -/
def accepted : List (ValueType → Bool) → List ValueType → Nat
  | test :: tests, x :: rest => if test x then accepted tests rest + 1 else 0
  | _, _ => 0

@[simp] theorem accepted_nil_left (types : List ValueType) : accepted [] types = 0 := by
  cases types <;> rfl

@[simp] theorem accepted_nil_right (tests : List (ValueType → Bool)) : accepted tests [] = 0 := by
  cases tests <;> rfl

theorem accepted_cons_pos {test : ValueType → Bool} {tests : List (ValueType → Bool)}
    {x : ValueType} {rest : List ValueType} (hx : test x = true) :
    accepted (test :: tests) (x :: rest) = accepted tests rest + 1 := if_pos hx

theorem accepted_cons_neg {test : ValueType → Bool} {tests : List (ValueType → Bool)}
    {x : ValueType} {rest : List ValueType} (hx : ¬ test x = true) :
    accepted (test :: tests) (x :: rest) = 0 := if_neg hx

theorem accepted_le_length (tests : List (ValueType → Bool)) (types : List ValueType) :
    accepted tests types ≤ types.length := by
  induction types generalizing tests with
  | nil => simp
  | cons x rest ih =>
    cases tests with
    | nil => simp
    | cons test tests =>
      by_cases hx : test x = true
      · rw [accepted_cons_pos hx, List.length_cons]
        exact Nat.succ_le_succ (ih tests)
      · rw [accepted_cons_neg hx]
        exact Nat.zero_le _

namespace OperandStack

/-- The stack without its topmost values. -/
def dropped (s : OperandStack) : Nat → OperandStack
  | 0 => s
  | n + 1 => s.popped.dropped n

@[simp] theorem dropped_zero (s : OperandStack) : s.dropped 0 = s := rfl

theorem types_dropped (s : OperandStack) (n : Nat) : (s.dropped n).types = s.types.drop n := by
  induction n generalizing s with
  | zero => rfl
  | succ n ih => rw [dropped, ih, types_popped, List.drop_tail]

theorem dropped_eq_self_iff {s : OperandStack} {n : Nat} (hn : n ≤ s.types.length) :
    s.dropped n = s ↔ n = 0 := by
  constructor
  · intro h
    have hlength : s.types.length - n = s.types.length := by
      rw [← List.length_drop, ← types_dropped, h]
    omega
  · rintro rfl
    rfl

end OperandStack

/-! ## Requests that are rejected after they have taken values -/

/-- The value takes one slot. -/
def ValueType.isNarrow (t : ValueType) : Bool := t.width == 1

theorem ValueType.isAssignable_self (t : ValueType) : t.isAssignable t = true := by
  simp [isAssignable]

namespace Assembly

/-- The tests of the values that a request takes before its last check, from the top. A request
that is not listed takes values only when nothing can reject it any more, and so does one whose
arguments are rejected at once. -/
def exposed (s : Assembly) : Emission → List (ValueType → Bool)
  -- the table may have no room for the symbol
  | .putStatic _ _ type => [(·.isAssignable type)]
  | .invoke _ _ signature => signature.params.reverse.map fun type x => x.isAssignable type
  -- the label may be foreign or may have seen another shape
  | .ifTrue _ => [(·.isAssignable .boolean)]
  | .ifFalse _ => [(·.isAssignable .boolean)]
  -- the second value may not fit
  | .arrayStore =>
    match (Emission.typeAt s.assembler.stack.types 2).component? with
    | some component => [(·.isAssignable component), (·.isAssignable .int)]
    | none => []
  | .pop2 =>
    if (Emission.typeAt s.assembler.stack.types 0).width == 2 then []
    else [ValueType.isNarrow, ValueType.isNarrow]
  | .swap => [ValueType.isNarrow, ValueType.isNarrow]
  | .arithmetic _ type =>
    if type.isNumeric then [(·.isAssignable type), (·.isAssignable type)] else []
  | _ => []

/-- How many values a call has taken when it is rejected. -/
def taken (s : Assembly) : Call → Nat
  | .request (.emission e) =>
    if s.assembler.isOpen && s.assembler.reachable then
      accepted (s.exposed e) s.assembler.stack.types
    else 0
  | _ => 0

theorem taken_le_length (s : Assembly) (c : Call) :
    s.taken c ≤ s.assembler.stack.types.length := by
  unfold taken
  split
  · split
    · exact accepted_le_length _ _
    · exact Nat.zero_le _
  · exact Nat.zero_le _

end Assembly

namespace Emit

variable {α β : Type} {s : Assembly} {m : Emit α} {f : α → Emit β} {test : ValueType → Bool}
  {tests : List (ValueType → Bool)} {value : ValueType → α}

/-- A step that fails has taken the values that pass the tests, up to the first that does not. -/
def Takes (tests : List (ValueType → Bool)) (m : Emit α) (s : Assembly) : Prop :=
  Ends m s (fun _ _ => True) fun _ t =>
    t.assembler.stack = s.assembler.stack.dropped (accepted tests s.assembler.stack.types)

/-- A step that leaves the stack alone when it fails. -/
theorem takes_nil (h : Ends m s (fun _ _ => True) fun _ t =>
    t.assembler.stack = s.assembler.stack) : Takes [] m s := by
  unfold Takes
  rwa [accepted_nil_left]

/-- The step takes the top of the stack if that passes the test, and changes nothing otherwise. -/
structure TakesTop (test : ValueType → Bool) (value : ValueType → α) (m : Emit α) : Prop where
  granted : ∀ {s x rest}, s.assembler.stack.types = x :: rest → test x = true →
    m s = .ok (value x) (s.setStack s.assembler.stack.popped)
  rejected : ∀ {s}, accepted [test] s.assembler.stack.types = 0 →
    Ends m s (fun _ _ => False) fun _ t => t = s

theorem takesTop_pop (type : ValueType) :
    TakesTop (·.isAssignable type) (fun _ => ()) (pop type) where
  granted := pop_eq
  rejected h := by
    refine ends_pop (fun _ => rfl) fun x rest htypes hx => ?_
    have hone : accepted [fun x => x.isAssignable type] (x :: rest) = 1 := accepted_cons_pos hx
    rw [htypes, hone] at h
    cases h

theorem takesTop_narrow :
    TakesTop ValueType.isNarrow id (onStack (OperandStack.popWidth 1)) where
  granted htypes hx := dropWidth_eq htypes (by simpa [ValueType.isNarrow] using hx)
  rejected h := by
    refine ends_dropWidth (fun _ => rfl) fun x rest htypes hx => ?_
    rw [htypes, accepted_cons_pos (by simpa [ValueType.isNarrow] using hx)] at h
    cases h

theorem TakesTop.discard (hm : TakesTop test value m) :
    TakesTop test (fun _ => ()) (discard m) where
  granted htypes hx := discard_eq (hm.granted htypes hx)
  rejected h := Ends.map (hm.rejected h)

/-- One value more is taken by what comes after. -/
theorem TakesTop.bind (hm : TakesTop test value m)
    (hf : ∀ x rest, s.assembler.stack.types = x :: rest → test x = true →
      Takes tests (f (value x)) (s.setStack s.assembler.stack.popped)) :
    Takes (test :: tests) (m >>= f) s := by
  have hrejected : accepted [test] s.assembler.stack.types = 0 →
      accepted (test :: tests) s.assembler.stack.types = 0 →
      Takes (test :: tests) (m >>= f) s := by
    intro hone hall
    refine Ends.bind ((hm.rejected hone).mono (fun _ _ => False.elim) ?_)
    rintro - t rfl
    rw [hall, OperandStack.dropped_zero]
  cases htypes : s.assembler.stack.types with
  | nil => exact hrejected (by rw [htypes, accepted_nil_right]) (by rw [htypes, accepted_nil_right])
  | cons x rest =>
    by_cases hx : test x = true
    · refine Ends.bind (Ends.of_ok (hm.granted htypes hx) ?_)
      refine (hf x rest htypes hx).mono (fun _ _ _ => trivial) fun _ t ht => ?_
      rw [ht, Assembly.stack_setStack, OperandStack.types_popped, htypes, List.tail_cons,
        accepted_cons_pos hx, OperandStack.dropped]
    · exact hrejected (by rw [htypes, accepted_cons_neg hx]) (by rw [htypes, accepted_cons_neg hx])

/-- Values of the given types are taken one after the other. -/
theorem takes_popAll {f : PUnit → Emit β} (types : List ValueType)
    (hf : ∀ s, Takes [] (f ⟨⟩) s) :
    Takes (types.map fun type x => x.isAssignable type) (types.forM pop >>= f) s := by
  induction types generalizing s with
  | nil => exact hf s
  | cons type types ih =>
    rw [List.forM_eq_forM, List.forM_cons, bind_assoc]
    exact (takesTop_pop type).bind fun _ _ _ _ => ih

theorem takes_nil_produce {i : Instruction Nat} {type : ValueType} (htype : type ≠ .void) :
    Takes [] (do write i; push type) s :=
  takes_nil (Ends.bind (ends_write (ends_push htype trivial)))

/-- A value is exchanged for another one, whose type is known beforehand. -/
theorem takes_nil_replace {i : Instruction Nat} {type new : ValueType} (hnew : new ≠ .void) :
    Takes [] (do pop type; write i; push new) s := by
  refine takes_nil (Ends.bind (ends_pop (fun _ => rfl) fun _ _ _ _ => ?_))
  exact Ends.bind (ends_write (ends_push hnew trivial))

theorem takes_nil_fail {fault : TypingFault} : Takes [] (fail fault >>= f) s :=
  takes_nil (Ends.bind (ends_fail fun _ => rfl))

theorem takes_nil_branch {label : Nat} {i : Instruction Nat} : Takes [] (branch label i) s :=
  takes_nil (ends_branch (fun _ => rfl) fun _ _ _ => trivial)

/-- A member is interned before its instruction is written. -/
theorem takes_nil_intern {text : Text} {f : UInt16 → Emit β}
    (hf : ∀ symbol symbols, Takes [] (f symbol) { s with symbols }) :
    Takes [] (intern text >>= f) s := by
  refine takes_nil (Ends.bind (ends_intern (fun _ => rfl) fun symbol symbols _ => ?_))
  refine (hf symbol symbols).mono (fun _ _ _ => trivial) fun _ t ht => ?_
  rwa [accepted_nil_left] at ht

theorem takes_load (type : ValueType) (slot : UInt16) : Takes [] (apply (.load type slot)) s := by
  refine takes_nil (Ends.bind (ends_localType (fun _ => rfl) fun declared hlocal => ?_))
  split
  · next ht =>
    have hvoid : type ≠ .void := ValueType.ne_void_of_isAssignable ht (Locals.type?_ne_void hlocal)
    exact Ends.bind (ends_write (ends_push hvoid trivial))
  · exact Ends.bind (ends_fail fun _ => rfl)

theorem takes_store (type : ValueType) (slot : UInt16) :
    Takes [] (apply (.store type slot)) s := by
  refine takes_nil (Ends.bind (ends_localType (fun _ => rfl) fun declared hlocal => ?_))
  split
  · exact Ends.bind (ends_pop (fun _ => rfl) fun _ _ _ _ => ends_write trivial)
  · exact Ends.bind (ends_fail fun _ => rfl)

theorem takes_getStatic (owner name : Text) (type : ValueType) :
    Takes [] (apply (.getStatic owner name type)) s := by
  refine takes_nil_intern fun symbol symbols => takes_nil (Ends.bind (ends_write ?_))
  by_cases hvoid : type = .void
  · subst hvoid
    exact rfl
  · exact ends_push hvoid trivial

theorem takes_arrayLoad : Takes [] (apply .arrayLoad) s := by
  refine takes_nil (Ends.bind (ends_peek (fun _ => rfl) fun array harray => ?_))
  cases hc : array.component? with
  | none => exact ends_fail fun _ => rfl
  | some component =>
    refine Ends.bind (ends_pop (fun _ => rfl) fun i rest hi _ => ?_)
    -- the array was seen below the index, so it is there to be taken
    have hnext : (s.setStack s.assembler.stack.popped).assembler.stack.types[0]? = some array := by
      rw [popped_types hi, ← harray, hi, List.getElem?_cons_succ]
    obtain ⟨rest', hrest⟩ := exists_cons_of_getElem?_zero hnext
    refine Ends.bind (Ends.of_ok (pop_eq hrest (ValueType.isAssignable_self array)) ?_)
    exact Ends.bind (ends_write (ends_push (ValueType.ne_void_of_component? hc) trivial))

theorem takes_arrayLength : Takes [] (apply .arrayLength) s := by
  refine takes_nil (Ends.bind (ends_peek (fun _ => rfl) fun array harray => ?_))
  split
  · refine Ends.bind (Ends.map (ends_drop (fun _ => rfl) fun _ _ _ => ?_))
    exact Ends.bind (ends_write (ends_push (by decide) trivial))
  · exact Ends.bind (ends_fail fun _ => rfl)

theorem takes_newArray (type : ValueType) : Takes [] (apply (.newArray type)) s := by
  simp only [apply]
  split
  · next ht => exact takes_nil_replace (ValueType.ne_void_of_isArray ht)
  · exact takes_nil_fail

theorem takes_checkCast (type : ValueType) : Takes [] (apply (.checkCast type)) s := by
  simp only [apply]
  split
  · next ht => exact takes_nil_replace (ValueType.ne_void_of_isReference ht)
  · exact takes_nil_fail

theorem takes_neg (type : ValueType) : Takes [] (apply (.neg type)) s := by
  simp only [apply]
  split
  · next ht => exact takes_nil_replace (ValueType.ne_void_of_isNumeric ht)
  · exact takes_nil_fail

theorem takes_convert (source target : ValueType) :
    Takes [] (apply (.convert source target)) s := by
  simp only [apply]
  split
  · exact takes_nil_fail
  · next hbad =>
    have htarget : target.isNumeric = true := by
      simp only [Bool.or_eq_true, not_or, Bool.not_eq_true, Bool.not_eq_false'] at hbad
      exact hbad.1.2
    exact takes_nil_replace (ValueType.ne_void_of_isNumeric htarget)

theorem takes_dup : Takes [] (apply .dup) s := by
  refine takes_nil (Ends.bind (ends_peek (fun _ => rfl) fun top htop => ?_))
  split
  · next hwidth =>
    have hvoid : top ≠ .void := by rintro rfl; cases hwidth
    exact Ends.bind (ends_write (ends_push hvoid trivial))
  · exact Ends.bind (ends_fail fun _ => rfl)

theorem takes_dup2 (hclean : .void ∉ s.assembler.stack.types) : Takes [] (apply .dup2) s := by
  refine takes_nil (Ends.bind (ends_peek (fun _ => rfl) fun top htop => ?_))
  have hvoid : top ≠ .void := by
    rintro rfl
    exact hclean (List.mem_of_getElem? htop)
  split
  · exact Ends.bind (ends_write (ends_push hvoid trivial))
  · refine Ends.bind (ends_peek (fun _ => rfl) fun below hbelow => ?_)
    have hvoid' : below ≠ .void := by
      rintro rfl
      exact hclean (List.mem_of_getElem? hbelow)
    split
    · exact Ends.bind (ends_write (Ends.bind (ends_push hvoid' (ends_push hvoid trivial))))
    · exact Ends.bind (ends_fail fun _ => rfl)

theorem takes_pop : Takes [] (apply .pop) s := by
  refine takes_nil (Ends.bind (Ends.map (ends_dropWidth (fun _ => rfl) fun _ _ _ _ => ?_)))
  exact ends_write trivial

theorem takes_jump (label : Nat) : Takes [] (apply (.jump label)) s := by
  refine takes_nil (Ends.bind (ends_branch (fun _ => rfl) fun _ _ _ => ?_))
  exact ends_terminate trivial

theorem takes_returnValue : Takes [] (apply .returnValue) s := by
  refine takes_nil (Ends.bind (Ends.get ?_))
  dsimp only
  split
  · exact Ends.bind (ends_fail fun _ => rfl)
  · refine Ends.bind (ends_pop (fun _ => rfl) fun _ _ _ _ => ?_)
    exact Ends.bind (ends_write (ends_terminate trivial))

theorem takes_returnVoid : Takes [] (apply .returnVoid) s := by
  refine takes_nil (Ends.bind (Ends.get ?_))
  dsimp only
  split
  · exact Ends.bind (ends_write (ends_terminate trivial))
  · exact Ends.bind (ends_fail fun _ => rfl)

theorem takes_putStatic (owner name : Text) (type : ValueType) :
    Takes (s.exposed (.putStatic owner name type)) (apply (.putStatic owner name type)) s := by
  refine (takesTop_pop type).bind fun _ _ _ _ => ?_
  exact takes_nil_intern fun _ _ => takes_nil (ends_write trivial)

theorem takes_invoke (owner name : Text) (signature : Signature) :
    Takes (s.exposed (.invoke owner name signature)) (apply (.invoke owner name signature)) s := by
  refine takes_popAll _ fun t => takes_nil_intern fun symbol symbols => ?_
  refine takes_nil (Ends.bind (ends_write ?_))
  split
  · exact Ends.pure trivial
  · next hresult => exact ends_push (by simpa using hresult) trivial

theorem takes_arrayStore : Takes (s.exposed .arrayStore) (apply .arrayStore) s := by
  cases harray : s.assembler.stack.types[2]? with
  | none =>
    have hexposed : s.exposed .arrayStore = [] := by
      rw [Assembly.exposed, Emission.typeAt, harray]
      rfl
    rw [hexposed]
    refine takes_nil (Ends.bind (ends_peek (fun _ => rfl) fun array hsome => ?_))
    rw [harray] at hsome
    cases hsome
  | some array =>
    simp only [Assembly.exposed, Emission.typeAt_eq harray]
    refine Ends.bind (Ends.of_ok (peek_eq harray) ?_)
    cases hc : array.component? with
    | none => exact takes_nil (ends_fail fun _ => rfl)
    | some component =>
      refine (takesTop_pop component).bind fun x rest hx _ => ?_
      refine (takesTop_pop .int).bind fun i rest' hi _ => takes_nil ?_
      -- the array was seen below the other two, so it is there to be taken
      rw [popped_types hx] at hi
      have hnext : rest'[0]? = some array := by
        rw [← harray, hx, hi, List.getElem?_cons_succ, List.getElem?_cons_succ]
      obtain ⟨rest'', rfl⟩ := exists_cons_of_getElem?_zero hnext
      have htypes := popped_types ((popped_types hx).trans hi)
      exact Ends.bind (Ends.of_ok (pop_eq htypes (ValueType.isAssignable_self array)) trivial)

theorem takes_pop2 : Takes (s.exposed .pop2) (apply .pop2) s := by
  cases htop : s.assembler.stack.types[0]? with
  | none =>
    have hempty : s.assembler.stack.types = [] := by simpa using htop
    refine Ends.bind (ends_peek (fun _ => ?_) fun top hsome => ?_)
    · rw [hempty, accepted_nil_right, OperandStack.dropped_zero]
    · rw [htop] at hsome
      cases hsome
  | some top =>
    simp only [Assembly.exposed, Emission.typeAt_eq htop]
    refine Ends.bind (Ends.of_ok (peek_eq htop) ?_)
    split
    · refine takes_nil (Ends.bind (Ends.map (ends_drop (fun _ => rfl) fun _ _ _ => ?_)))
      exact ends_write trivial
    · refine takesTop_narrow.discard.bind fun _ _ _ _ => ?_
      exact takesTop_narrow.discard.bind fun _ _ _ _ => takes_nil (ends_write trivial)

theorem takes_swap : Takes (s.exposed .swap) (apply .swap) s := by
  refine takesTop_narrow.bind fun x _ _ hx => takesTop_narrow.bind fun y _ _ hy => ?_
  have hvoid : x ≠ .void := by rintro rfl; cases hx
  have hvoid' : y ≠ .void := by rintro rfl; cases hy
  exact takes_nil (Ends.bind (ends_write (Ends.bind (ends_push hvoid (ends_push hvoid' trivial)))))

theorem takes_arithmetic (op : Arithmetic) (type : ValueType) :
    Takes (s.exposed (.arithmetic op type)) (apply (.arithmetic op type)) s := by
  simp only [apply, Assembly.exposed]
  split
  · next ht =>
    refine (takesTop_pop type).bind fun _ _ _ _ => (takesTop_pop type).bind fun _ _ _ _ => ?_
    exact takes_nil_produce (ValueType.ne_void_of_isNumeric ht)
  · exact takes_nil_fail

/-- **What a rejected request has taken**: the values before the first that does not pass, of those
that it takes before its last check. -/
theorem takes_apply (e : Emission) (hclean : .void ∉ s.assembler.stack.types) :
    Takes (s.exposed e) (apply e) s := by
  cases e with
  | pushNull => exact takes_nil_produce (by decide)
  | pushUndefined => exact takes_nil_produce (by decide)
  | pushBoolean value => exact takes_nil_produce (by decide)
  | pushInt value => exact takes_nil_produce (by decide)
  | pushLong value => exact takes_nil_produce (by decide)
  | pushNumber value => exact takes_nil_produce (by decide)
  | load type slot => exact takes_load type slot
  | store type slot => exact takes_store type slot
  | getStatic owner name type => exact takes_getStatic owner name type
  | putStatic owner name type => exact takes_putStatic owner name type
  | arrayLoad => exact takes_arrayLoad
  | arrayStore => exact takes_arrayStore
  | arrayLength => exact takes_arrayLength
  | newArray type => exact takes_newArray type
  | checkCast type => exact takes_checkCast type
  | dup => exact takes_dup
  | dup2 => exact takes_dup2 hclean
  | pop => exact takes_pop
  | pop2 => exact takes_pop2
  | swap => exact takes_swap
  | arithmetic op type => exact takes_arithmetic op type
  | neg type => exact takes_neg type
  | convert source target => exact takes_convert source target
  | invoke owner name signature => exact takes_invoke owner name signature
  | newScope size => exact takes_nil_replace (by decide)
  | jump label => exact takes_jump label
  | ifTrue label => exact (takesTop_pop .boolean).bind fun _ _ _ _ => takes_nil_branch
  | ifFalse label => exact (takesTop_pop .boolean).bind fun _ _ _ _ => takes_nil_branch
  | returnValue => exact takes_returnValue
  | returnVoid => exact takes_returnVoid

/-- The stack after a request for an instruction that is rejected. -/
theorem ends_emission_taken (e : Emission) (hclean : .void ∉ s.assembler.stack.types) :
    Ends (emission e) s (fun _ _ => True) fun _ t =>
      t.assembler.stack = s.assembler.stack.dropped (s.taken (.request (.emission e))) := by
  by_cases hlive : s.assembler.isOpen = true ∧ s.assembler.reachable = true
  · have htaken : s.taken (.request (.emission e)) =
        accepted (s.exposed e) s.assembler.stack.types := by
      simp only [Assembly.taken, hlive, Bool.and_self, if_true]
    rw [htaken]
    exact Ends.bind (Ends.of_ok (guard_eq _ hlive.1 hlive.2) (takes_apply e hclean))
  · have htaken : s.taken (.request (.emission e)) = 0 := by
      simpa only [Assembly.taken, Bool.and_eq_true, ite_eq_right_iff] using fun h => absurd h hlive
    rw [htaken]
    exact Ends.bind (ends_guard (fun _ => rfl) fun hopen hreach => absurd ⟨hopen, hreach⟩ hlive)

/-- The stack after a call that is rejected. -/
theorem ends_call_taken (c : Call) (hs : s.Linked) :
    Ends (Emit.call c) s (fun _ _ => True) fun _ t =>
      t.assembler.stack = s.assembler.stack.dropped (s.taken c) := by
  cases c with
  | finish => exact Ends.map (ends_finish (fun _ => rfl) fun _ _ => trivial)
  | reference text => exact Ends.map (ends_intern (fun _ => rfl) fun _ _ _ => trivial)
  | request r =>
    cases r with
    | openCode => exact trivial
    | close => exact trivial
    | newLabel => exact trivial
    | defineLocal type => exact Ends.map (ends_defineLocal (fun _ => rfl) fun _ _ => trivial)
    | bind label =>
      refine ends_bind.mono (fun _ _ _ => trivial) ?_
      rintro - t rfl
      rfl
    | emission e => exact ends_emission_taken e hs.wellFormed.noVoid

/-- A granted call keeps the shapes. -/
theorem ends_call_shaped (c : Call) {emitted : List Emission} {shape : Nat → List ValueType}
    (h : s.assembler.Shaped emitted shape) (hform : s.assembler.WellFormed) :
    Ends (Emit.call c) s (fun _ t => ∃ shape',
      t.assembler.Shaped (emitted ++ (emissions [⟨c, s⟩]).map Prod.fst) shape')
      (fun _ _ => True) := by
  cases c with
  | finish =>
    refine Ends.map (ends_finish (fun _ => trivial) fun done hdone => ⟨shape, ?_⟩)
    exact (List.append_nil emitted).symm ▸ h.complete hdone
  | reference text =>
    refine Ends.map (ends_intern (fun _ => trivial) fun _ _ _ => ⟨shape, ?_⟩)
    exact (List.append_nil emitted).symm ▸ h
  | request r =>
    refine (ends_request_shaped r h hform).mono ?_ fun _ _ _ => trivial
    rintro - t ⟨shape', hshape', -⟩
    have hemissions : (emissions [⟨.request r, s⟩]).map Prod.fst = r.emission?.toList := by
      cases r <;> rfl
    exact ⟨shape', by rwa [hemissions]⟩

end Emit

/-! ## Runs -/

namespace Assembly

/-- No rejected call of the run has taken a value, and none has written code. -/
inductive Orderly : Assembly → List Call → Prop
  | nil {s : Assembly} : s.Orderly []
  | granted {s t : Assembly} {c : Call} {calls : List Call} (hc : Emit.call c s = .ok () t)
      (h : t.Orderly calls) : s.Orderly (c :: calls)
  | rejected {s t : Assembly} {c : Call} {calls : List Call} {e : Error}
      (hc : Emit.call c s = .error e t) (htaken : s.taken c = 0) (hleaks : ¬ s.Leaks c)
      (h : t.Orderly calls) : s.Orderly (c :: calls)

/-- A rejected call that has neither taken nor written anything has changed nothing. -/
theorem Linked.eq_of_taken {s t : Assembly} (hs : s.Linked) {c : Call} {e : Error}
    (hc : Emit.call c s = .error e t) (htaken : s.taken c = 0) (hleaks : ¬ s.Leaks c) : t = s := by
  have hspared := ((Emit.ends_call_spared_or_leaks c hs).error hc).resolve_right hleaks
  have hstack := (Emit.ends_call_taken c hs).error hc
  rw [htaken, OperandStack.dropped_zero] at hstack
  have ht := hspared.eq
  rw [hstack] at ht
  exact ht

/-- The stack of an orderly run is the one that its code leaves. -/
theorem Orderly.shaped {calls : List Call} {s : Assembly} {emitted : List Emission}
    {shape : Nat → List ValueType} (h : s.Orderly calls) (hs : s.Linked)
    (hshape : s.assembler.Shaped emitted shape) :
    ∃ shape', (s.after calls).assembler.Shaped
      (emitted ++ (emissions (s.granted calls)).map Prod.fst) shape' := by
  -- the shapes change with every call that is granted
  induction h generalizing emitted shape with
  | nil => exact ⟨shape, by simpa [Assembly.after, Assembly.granted, emissions] using hshape⟩
  | @granted s t c calls hc _ ih =>
    obtain ⟨shape', hshape'⟩ := (Emit.ends_call_shaped c hshape hs.wellFormed).ok hc
    obtain ⟨shape'', hshape''⟩ := ih ((Emit.safe_call c s hs).ok hc).linked hshape'
    refine ⟨shape'', ?_⟩
    rw [List.append_assoc, ← List.map_append, ← Granted.emissions_append,
      List.singleton_append] at hshape''
    simpa only [Assembly.after, List.foldl_cons, leaves, Assembly.granted, hc] using hshape''
  | rejected hc htaken hleaks _ ih =>
    obtain rfl := hs.eq_of_taken hc htaken hleaks
    obtain ⟨shape', hshape'⟩ := ih hs hshape
    refine ⟨shape', ?_⟩
    simpa only [Assembly.after, List.foldl_cons, leaves, Assembly.granted, hc] using hshape'

end Assembly

/-- **A rejected call leaves the stack without the values it has taken.** Whatever was asked of an
assembler before, granted or not: after a call that fails, the stack is the one before it without
the values that had passed when the check failed, so it is the one before it exactly when there were
none. When that was so for every rejected call of the run, and none of them was for a void field
that has been written, then the stack is the one that the code leaves: there are shapes for the
offsets of the code that end with the stack, and finished code is well typed by them. -/
theorem Emit.stack_after_rejection (routine owner : Text) (returnType : ValueType)
    (calls : List Call) :
    let start := Assembly.start routine returnType owner
    let s := start.after calls
    (∀ c, Ends (Emit.call c) s (fun _ _ => True) fun _ t =>
      t.assembler.stack = s.assembler.stack.dropped (s.taken c) ∧
        (t.assembler.stack = s.assembler.stack ↔ s.taken c = 0)) ∧
    (start.Orderly calls → ∃ shape,
      let emitted := (emissions (start.granted calls)).map Prod.fst
      s.assembler.Shaped emitted shape ∧ ∀ bytes, s.assembler.finish = .ok bytes →
        WellTyped s.assembler.locals returnType (emitted.map Emission.memberType?) bytes
          (Code.placed s.assembler.resolved) shape) := by
  intro start s
  have hstart : start.Linked := (Assembly.Transcribes.start routine returnType owner).linked
  have hevolves : start.Evolves s := hstart.evolves_after calls
  have hs : s.Linked := hevolves.linked
  refine ⟨fun c => ?_, fun horderly => ?_⟩
  · refine (Emit.ends_call_taken c hs).mono (fun _ _ _ => trivial) fun _ t ht => ⟨ht, ?_⟩
    rw [ht]
    exact OperandStack.dropped_eq_self_iff (s.taken_le_length c)
  · obtain ⟨shape, hshape⟩ := horderly.shaped hstart (.start routine returnType false)
    have hresult : s.assembler.returnType = returnType := hevolves.returnType_eq
    refine ⟨shape, hshape, fun bytes hbytes => ?_⟩
    have htyped := hshape.wellTyped hs.wellFormed hbytes
    rwa [hresult] at htyped

/-- A jump back, with two calls on the way that are rejected before they have taken a value. -/
def rejectedEarly : List Call :=
  [.request .openCode, .request .newLabel, .request (.emission (.pushInt 1)), .request (.bind 0),
    .request (.emission (.ifTrue 0)), .request (.emission (.arithmetic .add .long)),
    .request (.emission (.jump 0))]

theorem Emit.stack_after_rejectedEarly :
    (Assembly.start [114] .void []).Orderly rejectedEarly ∧ ∃ shape code,
      WellTyped ((Assembly.start [114] .void []).after rejectedEarly).assembler.locals .void
        [none, none] [5, 1, 0, 0, 0, 80, 5, 0, 0, 0] code shape := by
  have horderly : (Assembly.start [114] .void []).Orderly rejectedEarly := by
    refine .granted rfl (.granted rfl (.granted rfl (.granted rfl ?_)))
    refine .rejected rfl (by decide +kernel) ?_ (.rejected rfl (by decide +kernel) ?_ ?_)
    · rintro ⟨_, _, hfield, -⟩
      cases hfield
    · rintro ⟨_, _, hfield, -⟩
      cases hfield
    · exact .granted rfl .nil
  have hrun : Emit.finish.run' ((Assembly.start [114] .void []).after rejectedEarly) =
      some [5, 1, 0, 0, 0, 80, 5, 0, 0, 0] := by decide +kernel
  obtain ⟨t, hrun⟩ := exists_of_run' hrun
  obtain ⟨hfinish, -⟩ := Emit.finish_eq_ok hrun
  obtain ⟨shape, -, htyped⟩ := (Emit.stack_after_rejection [114] [] .void rejectedEarly).2 horderly
  exact ⟨horderly, shape, _, htyped _ hfinish⟩

/-- A boolean stands above the stack that a label has seen. -/
def booleanOnTop : List Call :=
  [.request .openCode, .request .newLabel, .request (.bind 0),
    .request (.emission (.pushBoolean true))]

/-- A value is pushed and control goes back to where it came from. -/
def growingLoop : List (Instruction UInt32) := [⟨.pushTrue, ()⟩, ⟨.jump, (0 : UInt32)⟩]

/-- Every time round there is one more value on the stack, so that no shapes fit. -/
theorem not_wellTyped_growingLoop {locals : Locals} {result : ValueType}
    {members : List (Option MemberType)} {code : List Placed} {shape : Nat → List ValueType} :
    ¬ WellTyped locals result members (Code.encode growingLoop) code shape := by
  intro h
  obtain rfl : code = Code.placed growingLoop :=
    Except.ok.inj (h.decodes.symm.trans (Code.decode_encode _))
  have hpush : shape 1 = .boolean :: shape 0 := by
    obtain ⟨_, after, -, heffect, hnext, -⟩ := h.step 0 ⟨0, 1, ⟨.pushTrue, ()⟩⟩ rfl
    obtain ⟨q, hq, hshape⟩ := hnext rfl
    cases hq
    cases heffect
    exact hshape
  have hjump : shape 0 = shape 1 := by
    obtain ⟨_, after, -, heffect, -, htarget⟩ := h.step 1 ⟨1, 5, ⟨.jump, (0 : UInt32)⟩⟩ rfl
    obtain ⟨j, q, -, hshape, -, hposition⟩ := htarget 0 rfl
    have hzero : Code.position (Code.placed growingLoop) j = 0 := hposition (by decide)
    cases heffect
    rwa [hzero] at hshape
  exact List.cons_ne_self _ _ (hpush.symm.trans hjump.symm)

/-- **Finished code that is not well typed.** A conditional jump to a foreign label takes a boolean
and is rejected. The jump back that follows finds the stack that its label has seen and is granted,
but in the code the boolean is still there. -/
theorem Emit.illTyped_after_rejection : ∃ e t,
    Emit.call (.request (.emission (.ifTrue 1)))
      ((Assembly.start [114] .void []).after booleanOnTop) = .error e t ∧ e.IsMisuse ∧
    ((Assembly.start [114] .void []).after booleanOnTop).assembler.stack.types = [.boolean] ∧
    t.assembler.stack.types = [] ∧
    (t.after [.request (.emission (.jump 0))]).assembler.finish = .ok (Code.encode growingLoop) ∧
    ∀ locals result members code shape,
      ¬ WellTyped locals result members (Code.encode growingLoop) code shape := by
  have hrun : Emit.finish.run' ((Assembly.start [114] .void []).after
      (booleanOnTop ++ [.request (.emission (.ifTrue 1)), .request (.emission (.jump 0))])) =
        some (Code.encode growingLoop) := by decide +kernel
  obtain ⟨_, hrun⟩ := exists_of_run' hrun
  obtain ⟨hfinish, -⟩ := Emit.finish_eq_ok hrun
  refine ⟨_, _, rfl, .inr rfl, rfl, rfl, hfinish, ?_⟩
  intro locals result members code shape
  exact not_wellTyped_growingLoop

end Bytecode
